import KnightCode.Library.JsonText
import Mathlib.Algebra.Order.BigOperators.Group.List
import Mathlib.Data.List.SplitBy

/-!
# Columns of a text on a terminal

A display is a segmenter of texts into graphemes and a table of how many columns a grapheme takes
that is not one printable ASCII character or a tab. Escape sequences take none. What the layout
relies on is `Display.Lawful`: graphemes are a text's own pieces, a run of them is segmented as
it was in the text, and printable ASCII is one grapheme a character. Where there is no tab and no
escape, a run of graphemes is as wide as its graphemes together.
-/

namespace KnightCode.Editor

open List Option

structure Display where
  segment : Text → List Text
  clusterWidth : Text → ℕ
  isCjk : Text → Bool

def isPrintable (c : UInt16) : Bool :=
  0x20 ≤ c && c ≤ 0x7e

/-- `\s` -/
def isSpace (c : UInt16) : Bool :=
  (9 ≤ c && c ≤ 13) || c = 32 || c = 0xA0 || c = 0x1680 || (0x2000 ≤ c && c ≤ 0x200A) ||
    c = 0x2028 || c = 0x2029 || c = 0x202F || c = 0x205F || c = 0x3000 || c = 0xFEFF

def isWhitespaceChar (char : Text) : Bool :=
  char.any isSpace

/-! ### Escape sequences -/

/-- Units up to and with the one that ends a CSI sequence: m, G, K, H or J. -/
def csiLength : Text → Option ℕ
  | [] => none
  | c :: rest =>
    if c = 0x6d ∨ c = 0x47 ∨ c = 0x4b ∨ c = 0x48 ∨ c = 0x4a then some 1
    else (csiLength rest).map (· + 1)

/-- Units up to and with BEL or `ESC \`. -/
def oscLength : Text → Option ℕ
  | [] => none
  | c :: rest =>
    if c = 0x07 then some 1
    else if c = 0x1b ∧ rest.head? = some 0x5c then some 2
    else (oscLength rest).map (· + 1)

/-- Length of the escape sequence at the text's front, or 0. -/
def ansiCodeLength : Text → ℕ
  | c :: next :: rest =>
    if c = 0x1b then
      if next = 0x5b then ((csiLength rest).map (· + 2)).getD 0
      else if next = 0x5d ∨ next = 0x5f then ((oscLength rest).map (· + 2)).getD 0
      else 0
    else 0
  | _ => 0

/-- Columns of printable ASCII, tabs and escape sequences, when the text has nothing else. The
first argument counts the units of an escape sequence that are still to be passed. -/
def asciiVisibleWidth : ℕ → Text → Option ℕ
  | _, [] => some 0
  | skip + 1, _ :: rest => asciiVisibleWidth skip rest
  | 0, c :: rest =>
    if isPrintable c then (asciiVisibleWidth 0 rest).map (· + 1)
    else if c = 0x09 then (asciiVisibleWidth 0 rest).map (· + 3)
    else if c = 0x1b then
      if ansiCodeLength (c :: rest) = 0 then none
      else asciiVisibleWidth (ansiCodeLength (c :: rest) - 1) rest
    else none

/-- The text without its escape sequences. -/
def stripAnsi : ℕ → Text → Text
  | _, [] => []
  | skip + 1, _ :: rest => stripAnsi skip rest
  | 0, c :: rest =>
    if ansiCodeLength (c :: rest) = 0 then c :: stripAnsi 0 rest
    else stripAnsi (ansiCodeLength (c :: rest) - 1) rest

/-- `replace(/\t/g, "   ")` -/
def expandTabs (text : Text) : Text :=
  text.flatMap fun c => if c = 0x09 then [32, 32, 32] else [c]

/-! ### Widths -/

variable (d : Display)

def graphemeWidth (segment : Text) : ℕ :=
  match segment with
  | [c] => if isPrintable c then 1 else if c = 0x09 then 3 else d.clusterWidth [c]
  | _ => d.clusterWidth segment

def visibleWidth (str : Text) : ℕ :=
  match asciiVisibleWidth 0 str with
  | some width => width
  | none => ((d.segment (stripAnsi 0 (expandTabs str))).map (graphemeWidth d)).sum

structure Display.Lawful : Prop where
  flatten (t : Text) : (d.segment t).flatten = t
  ne_nil (t : Text) : [] ∉ d.segment t
  slice {t : Text} {gs hs ks : List Text} (h : d.segment t = gs ++ hs ++ ks) :
    d.segment hs.flatten = hs
  ascii {t : Text} (h : ∀ c ∈ t, isPrintable c = true) : d.segment t = t.map fun c => [c]

variable {d}
variable {t : Text}

theorem asciiVisibleWidth_printable (h : ∀ c ∈ t, isPrintable c = true) :
    asciiVisibleWidth 0 t = some t.length := by
  induction t with
  | nil => rfl
  | cons c rest ih =>
    rw [asciiVisibleWidth, if_pos (h c mem_cons_self), ih fun c hc => h c (mem_cons_of_mem _ hc)]
    rfl

theorem visibleWidth_printable (h : ∀ c ∈ t, isPrintable c = true) :
    visibleWidth d t = t.length := by
  rw [visibleWidth, asciiVisibleWidth_printable h]

theorem sum_visibleWidth_printable (h : ∀ c ∈ t, isPrintable c = true) :
    ((t.map fun c => [c]).map (visibleWidth d)).sum = t.length := by
  induction t with
  | nil => rfl
  | cons c rest ih =>
    have hone : visibleWidth d [c] = 1 := visibleWidth_printable (t := [c]) fun x hx => by
      rw [mem_singleton.mp hx]
      exact h c mem_cons_self
    simp only [map_cons, sum_cons, hone, length_cons]
    rw [ih fun c hc => h c (mem_cons_of_mem _ hc), add_comm]

namespace Display.Lawful

variable (h : d.Lawful)
include h

theorem segment_grapheme {t g : Text} (hg : g ∈ d.segment t) : d.segment g = [g] := by
  obtain ⟨gs, ks, heq⟩ := append_of_mem hg
  have hsplit : d.segment t = gs ++ [g] ++ ks := by
    rw [heq, append_assoc, singleton_append]
  have hslice := h.slice hsplit
  rwa [flatten_singleton] at hslice

theorem eq_nil_of_flatten {t : Text} {hs : List Text} (hsub : ∀ g ∈ hs, g ∈ d.segment t)
    (hnil : hs.flatten = []) : hs = [] := by
  refine eq_nil_iff_forall_not_mem.mpr fun g hg => ?_
  exact h.ne_nil t (flatten_eq_nil_iff.mp hnil g hg ▸ hsub g hg)

end Display.Lawful

/-! ### Texts without tabs and escapes -/

def IsPlain (t : Text) : Prop :=
  ∀ c ∈ t, c ≠ 0x09 ∧ c ≠ 0x1b

instance (t : Text) : Decidable (IsPlain t) := List.decidableBAll _ t

theorem asciiVisibleWidth_plain (h : IsPlain t) :
    (∀ c ∈ t, isPrintable c = true) ∨ asciiVisibleWidth 0 t = none := by
  induction t with
  | nil => exact .inl fun _ hc => by cases hc
  | cons c rest ih =>
    obtain ⟨htab, hesc⟩ := h c mem_cons_self
    rw [asciiVisibleWidth, if_neg htab, if_neg hesc]
    by_cases hprint : isPrintable c = true
    · obtain hrest | hrest := ih fun c hc => h c (mem_cons_of_mem _ hc)
      · exact .inl (forall_mem_cons.mpr ⟨hprint, hrest⟩)
      · exact .inr (by rw [if_pos hprint, hrest, map_none])
    · exact .inr (if_neg hprint)

theorem strip_plain (h : IsPlain t) : stripAnsi 0 (expandTabs t) = t := by
  induction t with
  | nil => rfl
  | cons c rest ih =>
    obtain ⟨htab, hesc⟩ := h c mem_cons_self
    have hnone : ∀ more : Text, ansiCodeLength (c :: more) = 0 := by
      intro more
      cases more with
      | nil => rfl
      | cons next more => exact if_neg hesc
    rw [expandTabs, flatMap_cons, if_neg htab, ← expandTabs, singleton_append, stripAnsi,
      if_pos (hnone _), ih fun c hc => h c (mem_cons_of_mem _ hc)]

theorem visibleWidth_plain (hd : d.Lawful) (h : IsPlain t) :
    visibleWidth d t = ((d.segment t).map (graphemeWidth d)).sum := by
  obtain hprint | hnone := asciiVisibleWidth_plain h
  · have hone : (t.map fun c => [c]).map (graphemeWidth d) = t.map fun _ => 1 := by
      rw [List.map_map]
      exact map_congr_left fun c hc => if_pos (hprint c hc)
    rw [visibleWidth_printable hprint, hd.ascii hprint, hone, map_const', sum_replicate_nat,
      mul_one]
  · rw [visibleWidth, hnone, strip_plain h]

theorem visibleWidth_run (hd : d.Lawful) (h : IsPlain t) {gs hs ks : List Text}
    (hsplit : d.segment t = gs ++ hs ++ ks) :
    visibleWidth d hs.flatten = (hs.map (visibleWidth d)).sum := by
  have hmem : ∀ g ∈ hs, g ∈ d.segment t := fun g hg => by
    rw [hsplit]
    exact mem_append_left _ (mem_append_right _ hg)
  have hplain : ∀ g ∈ hs, IsPlain g := fun g hg c hc =>
    h c (hd.flatten t ▸ mem_flatten_of_mem (hmem g hg) hc)
  have hrun : IsPlain hs.flatten := fun c hc => by
    obtain ⟨g, hg, hc⟩ := mem_flatten.mp hc
    exact hplain g hg c hc
  rw [visibleWidth_plain hd hrun, hd.slice hsplit]
  refine congrArg sum (map_congr_left fun g hg => ?_)
  rw [visibleWidth_plain hd (hplain g hg), hd.segment_grapheme (hmem g hg), map_singleton,
    sum_singleton]

/-! ### A display of surrogate pairs -/

def isHighSurrogate (c : UInt16) : Bool :=
  0xD800 ≤ c && c ≤ 0xDBFF

def isLowSurrogate (c : UInt16) : Bool :=
  0xDC00 ≤ c && c ≤ 0xDFFF

/-- Two code units that stand for one character are one grapheme of two columns, as is a unit from
U+1100 on; a control character takes no column. -/
def pairDisplay : Display where
  segment := splitBy fun c next => isHighSurrogate c && isLowSurrogate next
  clusterWidth t := if t.any fun c => decide (0x1100 ≤ c) then 2 else 0
  isCjk t := t.any fun c => decide (0x1100 ≤ c)

theorem isPrintable_surrogate {c : UInt16} (h : isHighSurrogate c = true) :
    isPrintable c = false := by
  simp only [isHighSurrogate, isPrintable, Bool.and_eq_true, decide_eq_true_eq,
    UInt16.le_iff_toNat_le, Bool.and_eq_false_iff, decide_eq_false_iff_not] at h ⊢
  simp only [UInt16.reduceToNat] at h ⊢
  omega

theorem pairDisplay_lawful : pairDisplay.Lawful where
  flatten := flatten_splitBy _
  ne_nil := nil_notMem_splitBy _
  slice {t gs hs ks} h := by
    have hsub : hs <:+: pairDisplay.segment t := ⟨gs, ks, h.symm⟩
    refine splitBy_flatten (fun hnil => nil_notMem_splitBy _ t (hsub.subset hnil))
      (fun m hm => isChain_of_mem_splitBy (hsub.subset hm)) ?_
    have hchain := isChain_getLast_head_splitBy (isHighSurrogate · && isLowSurrogate ·) t
    exact IsChain.infix hchain hsub
  ascii {t} h := by
    refine splitBy_eq_iff.mpr ⟨?_, ?_, ?_, ?_⟩
    · rw [← flatMap_def]
      exact (flatMap_singleton' t).symm
    · intro hnil
      obtain ⟨c, -, hc⟩ := mem_map.mp hnil
      cases hc
    · intro m hm
      obtain ⟨c, -, rfl⟩ := mem_map.mp hm
      exact isChain_singleton c
    · refine (isChain_map _).mpr (pairwise_of_forall_mem_list fun c hc next _ => ?_).isChain
      refine ⟨cons_ne_nil _ _, cons_ne_nil _ _, Bool.and_eq_false_imp.mpr fun hhigh => ?_⟩
      cases (isPrintable_surrogate hhigh).symm.trans (h c hc)

end KnightCode.Editor
