import KnightCode.Editor.TextInput
import KnightCode.Library.Gap

/-!
# Texts with pastes as units

A piece of text is a code unit, or a large paste with its own content. A paste is shown as its
marker and means its content; the number in the marker is only how it is shown.
-/

namespace KnightCode.Editor

open List
open JsonText (decimal decimal_ne_nil digit digits digits_lt ofDigits_digits)

inductive Piece
  | char (c : UInt16)
  | paste (number : ℕ) (content : Text)
deriving DecidableEq

namespace Piece

def shown : Piece → Text
  | .char c => [c]
  | .paste number content => pasteMarker number (splitLines content).length content.length

def meant : Piece → Text
  | .char c => [c]
  | .paste _ content => content

end Piece

def shown (pieces : List Piece) : Text :=
  pieces.flatMap Piece.shown

/-- Text without a paste. -/
def chars (text : Text) : List Piece :=
  text.map Piece.char

def charLines (text : Text) : List (List Piece) :=
  (splitLines text).map chars

def splitPieces (pieces : List Piece) : List (List Piece) :=
  pieces.splitOn (.char newline)

/-- What the reference means: every paste is its content. -/
def meantText (g : Gap Piece) : Text :=
  joinLines (g.lines.map (flatMap Piece.meant))

@[simp] theorem shown_nil : shown [] = [] := rfl

@[simp] theorem shown_cons (piece : Piece) (pieces : List Piece) :
    shown (piece :: pieces) = piece.shown ++ shown pieces := rfl

@[simp] theorem shown_append (pieces more : List Piece) :
    shown (pieces ++ more) = shown pieces ++ shown more :=
  flatMap_append

@[simp] theorem shown_chars (text : Text) : shown (chars text) = text := by
  induction text with
  | nil => rfl
  | cons c text ih => exact congrArg (c :: ·) ih

@[simp] theorem chars_append (text more : Text) : chars (text ++ more) = chars text ++ chars more :=
  map_append

theorem paste_not_mem_chars {n : ℕ} {content text : Text} : Piece.paste n content ∉ chars text := by
  simp [chars]

/-! ### Markers -/

theorem pasteMarker_isMarker (n lines count : ℕ) :
    IsMarker (decimal n) (pasteMarker n lines count) := by
  have hid : ∀ c ∈ decimal n, isDigit c = true := fun c hc => JsonText.isDigit_of_mem_decimal hc
  rw [pasteMarker]
  split_ifs
  · exact .lines (decimal_ne_nil n) hid (decimal_ne_nil lines) fun c hc =>
      JsonText.isDigit_of_mem_decimal hc
  · exact .chars (decimal_ne_nil n) hid (decimal_ne_nil count) fun c hc =>
      JsonText.isDigit_of_mem_decimal hc

theorem paste_isMarker (n : ℕ) (content : Text) :
    IsMarker (decimal n) (Piece.paste n content).shown :=
  pasteMarker_isMarker n _ _

theorem piece_shown_ne_nil (piece : Piece) : piece.shown ≠ [] := by
  cases piece with
  | char c => exact cons_ne_nil _ _
  | paste n content =>
    apply ne_nil_of_length_pos
    have := (paste_isMarker n content).ten_le
    omega

theorem shown_eq_nil {pieces : List Piece} : shown pieces = [] ↔ pieces = [] := by
  cases pieces with
  | nil => exact ⟨fun _ => rfl, fun _ => rfl⟩
  | cons piece pieces => simp [piece_shown_ne_nil]

theorem newline_not_mem_shown {piece : Piece} (h : piece ≠ .char newline) :
    newline ∉ piece.shown := by
  cases piece with
  | char c =>
    intro hmem
    apply h
    rw [mem_singleton.mp hmem]
  | paste n content =>
    intro hmem
    exact absurd ((paste_isMarker n content).printable newline hmem) (by decide)

theorem splitLines_shown (pieces : List Piece) :
    splitLines (shown pieces) = (splitPieces pieces).map shown :=
  Gap.splitOn_flatMap (f := Piece.shown) (p := .char newline) rfl
    (fun _ h => newline_not_mem_shown h) pieces

theorem shown_charLines (text : Text) : (charLines text).map shown = splitLines text := by
  rw [charLines, map_map]
  exact map_id'' shown_chars _

theorem normalizeText_printable {text : Text} (h : ∀ c ∈ text, isPrintable c = true) :
    normalizeText text = text := by
  induction text with
  | nil => rfl
  | cons c text ih =>
    have hc := h c mem_cons_self
    have hreturn : c ≠ 13 := by
      rintro rfl
      exact absurd hc (by decide)
    have htab : c ≠ 9 := by
      rintro rfl
      exact absurd hc (by decide)
    rw [normalizeText, if_neg hreturn, if_neg htab, ih fun x hx => h x (mem_cons_of_mem _ hx)]

theorem splitLines_marker (n : ℕ) (content : Text) :
    splitLines (normalizeText (Piece.paste n content).shown) = [(Piece.paste n content).shown] := by
  rw [normalizeText_printable (paste_isMarker n content).printable]
  apply splitOn_eq_singleton
  apply newline_not_mem_shown
  exact nofun

theorem bracket_not_mem_tail {id marker : Text} (h : IsMarker id marker) : 91 ∉ marker.tail := by
  have hdigit : ∀ {digits : Text}, (∀ c ∈ digits, isDigit c = true) → (91 : UInt16) ∉ digits := by
    intro digits hall hmem
    exact absurd (hall 91 hmem) (by decide)
  cases h with
  | bare hne hid =>
    have := hdigit hid
    simp [markerStart, this]
  | lines hne hid hn hdigits =>
    have := hdigit hid
    have := hdigit hdigits
    simp [markerStart, linesEnd, *]
  | chars hne hid hn hdigits =>
    have := hdigit hid
    have := hdigit hdigits
    simp [markerStart, charsEnd, *]

theorem matchMarker_bracket {text : Text} {found : MarkerMatch} (h : matchMarker text = some found) :
    text.head? = some 91 := by
  obtain ⟨marker, rest, hmarker, rfl, -⟩ := matchMarker_some h
  cases hmarker <;> rfl

/-! ### Numbers -/

theorem number_decimal (n : ℕ) : number (decimal n) = n := by
  have hall : ∀ ds : List ℕ, (∀ d ∈ ds, d < 10) →
      number (ds.reverse.map digit) = Nat.ofDigits 10 ds := by
    intro ds hds
    rw [number, foldl_map, foldl_reverse]
    induction ds with
    | nil => rfl
    | cons d ds ih =>
      have hd : (digit d).toNat - 48 = d := by
        have hten : ∀ d < 10, (digit d).toNat - 48 = d := by decide
        exact hten d (hds d mem_cons_self)
      rw [foldr_cons, ih fun x hx => hds x (mem_cons_of_mem _ hx), hd, Nat.ofDigits_cons,
        Nat.add_comm]
  rw [decimal, hall (digits n) fun d hd => digits_lt hd, ofDigits_digits]

end KnightCode.Editor
