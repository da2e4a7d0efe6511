import KnightCode.Editor.Pieces
import KnightCode.Editor.KillYank

/-!
# Pastes renumbered

A backspace over a paste takes its number off the registry, and each higher number becomes the one
before it, in the registry and in the markers of all lines. Where no other text has a marker with
a higher number the lines are those of the pieces with their numbers changed.
-/

namespace KnightCode.Editor

open List
variable {pastes : List (ℕ × Text)} {pieces : List Piece}

open JsonText (decimal decimal_ne_nil)

/-! ### The registry -/

variable {target : ℕ}

/-- One higher number becomes the one before it. -/
def moveDown (pastes : List (ℕ × Text)) (id : ℕ) : List (ℕ × Text) :=
  match Assoc.get id pastes with
  | some content => Assoc.erase id (Assoc.set (id - 1) content pastes)
  | none => pastes

theorem get_moveDown_ne {k id : ℕ} (pastes : List (ℕ × Text)) (hk : k ≠ id) (hk' : k ≠ id - 1) :
    Assoc.get k (moveDown pastes id) = Assoc.get k pastes := by
  rw [moveDown]
  cases Assoc.get id pastes with
  | none => rfl
  | some content =>
    dsimp only
    rw [Assoc.get_erase_ne (Ne.symm hk), Assoc.get_set_ne (Ne.symm hk')]

theorem get_moveDown_self (pastes : List (ℕ × Text)) (id : ℕ) :
    Assoc.get id (moveDown pastes id) = none := by
  rw [moveDown]
  cases hget : Assoc.get id pastes with
  | none => exact hget
  | some content => exact Assoc.get_erase_self _ _

theorem get_moveDown_pred {id : ℕ} {content : Text} (hget : Assoc.get id pastes = some content)
    (hpos : 0 < id) : Assoc.get (id - 1) (moveDown pastes id) = some content := by
  rw [moveDown, hget]
  dsimp only
  rw [Assoc.get_erase_ne (by omega), Assoc.get_set_self]

theorem get_foldl_ne {k : ℕ} {ids : List ℕ} (hk : k ∉ ids) (hk' : k + 1 ∉ ids)
    (hpos : ∀ id ∈ ids, 0 < id) (pastes : List (ℕ × Text)) :
    Assoc.get k (ids.foldl moveDown pastes) = Assoc.get k pastes := by
  induction ids generalizing pastes with
  | nil => rfl
  | cons id ids ih =>
    rw [mem_cons, not_or] at hk hk'
    have hid := hpos id mem_cons_self
    rw [foldl_cons, ih hk.2 hk'.2 (fun x hx => hpos x (mem_cons_of_mem _ hx)),
      get_moveDown_ne pastes hk.1 (by omega)]

section
variable {ids : List ℕ} (hsorted : ids.Pairwise (· < ·)) (hpos : ∀ id ∈ ids, 0 < id)
include hsorted hpos

theorem get_foldl_pred {id : ℕ} {content : Text} (hid : id ∈ ids) {pastes : List (ℕ × Text)}
    (hget : Assoc.get id pastes = some content) :
    Assoc.get (id - 1) (ids.foldl moveDown pastes) = some content := by
  induction ids generalizing pastes with
  | nil => cases hid
  | cons first ids ih =>
    obtain ⟨hfirst, hrest⟩ := pairwise_cons.mp hsorted
    have hpos' : ∀ id ∈ ids, 0 < id := fun x hx => hpos x (mem_cons_of_mem _ hx)
    rw [foldl_cons]
    rcases mem_cons.mp hid with rfl | hid
    · have hzero := hpos id mem_cons_self
      rw [get_foldl_ne (fun hmem => ?_) (fun hmem => ?_) hpos', get_moveDown_pred hget hzero]
      · have := hfirst _ hmem
        omega
      · have := hfirst _ hmem
        omega
    · have hlt := hfirst id hid
      apply ih hrest hpos' hid
      rw [get_moveDown_ne pastes (by omega) (by omega)]
      exact hget

theorem get_foldl_none {k : ℕ} (hk : k ∈ ids) (hk' : k + 1 ∉ ids) (pastes : List (ℕ × Text)) :
    Assoc.get k (ids.foldl moveDown pastes) = none := by
  induction ids generalizing pastes with
  | nil => cases hk
  | cons first ids ih =>
    obtain ⟨hfirst, hrest⟩ := pairwise_cons.mp hsorted
    have hpos' : ∀ id ∈ ids, 0 < id := fun x hx => hpos x (mem_cons_of_mem _ hx)
    rw [mem_cons, not_or] at hk'
    rw [foldl_cons]
    rcases mem_cons.mp hk with rfl | hk
    · rw [get_foldl_ne (fun hmem => (hfirst _ hmem).ne rfl) hk'.2 hpos', get_moveDown_self]
    · exact ih hrest hpos' hk hk'.2 _

end

theorem renumberPastes_eq (target : ℕ) (pastes : List (ℕ × Text)) :
    renumberPastes target pastes =
      (((Assoc.keys (Assoc.erase target pastes)).filter (target < ·)).insertionSort
        (· ≤ ·)).foldl moveDown (Assoc.erase target pastes) := rfl

theorem get_renumberPastes (hkeys : (Assoc.keys pastes).Nodup) (target k : ℕ) :
    Assoc.get k (renumberPastes target pastes) =
      if k < target then Assoc.get k pastes else Assoc.get (k + 1) pastes := by
  rw [renumberPastes_eq]
  generalize hids : ((Assoc.keys (Assoc.erase target pastes)).filter (target < ·)).insertionSort
    (· ≤ ·) = ids
  have hmem : ∀ id, id ∈ ids ↔ target < id ∧ Assoc.get id pastes ≠ none := by
    intro id
    rw [← hids, mem_insertionSort, mem_filter, decide_eq_true_iff, and_comm, and_congr_right]
    intro hlt
    rw [← not_iff_not, ← Assoc.get_eq_none_iff, not_not, Assoc.get_erase_ne (by omega)]
  have hnodup : ids.Nodup := by
    rw [← hids]
    exact (perm_insertionSort _ _).nodup_iff.mpr ((Assoc.nodup_keys_erase hkeys).filter _)
  have hsorted : ids.Pairwise (· < ·) := by
    have hle : ids.Pairwise (· ≤ ·) := hids ▸ pairwise_insertionSort _ _
    exact (hle.and hnodup).imp fun h => lt_of_le_of_ne h.1 h.2
  have hpos : ∀ id ∈ ids, 0 < id := fun id hid => Nat.zero_lt_of_lt ((hmem id).mp hid).1
  split_ifs with hk
  · rw [get_foldl_ne (fun h => ?_) (fun h => ?_) hpos, Assoc.get_erase_ne (by omega)]
    · have := ((hmem k).mp h).1
      omega
    · have := ((hmem (k + 1)).mp h).1
      omega
  · cases hget : Assoc.get (k + 1) pastes with
    | some content =>
      have hin : k + 1 ∈ ids := (hmem _).mpr ⟨by omega, by rw [hget]; exact Option.some_ne_none _⟩
      have hleft : Assoc.get (k + 1) (Assoc.erase target pastes) = some content := by
        rw [Assoc.get_erase_ne (by omega), hget]
      exact get_foldl_pred hsorted hpos hin hleft
    | none =>
      have hout : k + 1 ∉ ids := fun h => ((hmem _).mp h).2 hget
      by_cases hin : k ∈ ids
      · exact get_foldl_none hsorted hpos hin hout _
      · rw [get_foldl_ne hin hout hpos]
        by_cases htarget : k = target
        · rw [htarget, Assoc.get_erase_self]
        · rw [Assoc.get_erase_ne (Ne.symm htarget)]
          by_contra hsome
          exact hin ((hmem k).mpr ⟨by omega, hsome⟩)

theorem nodup_keys_moveDown (h : (Assoc.keys pastes).Nodup) (id : ℕ) :
    (Assoc.keys (moveDown pastes id)).Nodup := by
  rw [moveDown]
  cases Assoc.get id pastes with
  | none => exact h
  | some content => exact Assoc.nodup_keys_erase (Assoc.nodup_keys_set h)

theorem nodup_keys_renumberPastes (h : (Assoc.keys pastes).Nodup) (target : ℕ) :
    (Assoc.keys (renumberPastes target pastes)).Nodup := by
  have hmoved : ∀ (ids : List ℕ) (pastes : List (ℕ × Text)), (Assoc.keys pastes).Nodup →
      (Assoc.keys (ids.foldl moveDown pastes)).Nodup := by
    intro ids
    induction ids with
    | nil => exact fun _ h => h
    | cons id ids ih => exact fun _ h => ih _ (nodup_keys_moveDown h id)
  rw [renumberPastes_eq]
  exact hmoved _ _ (Assoc.nodup_keys_erase h)

/-! ### The lines -/

/-- The piece with its number changed. -/
def renumbered (target : ℕ) : Piece → Piece
  | .char c => .char c
  | .paste n content => .paste (if n ≤ target then n else n - 1) content

/-- No marker with a higher number begins in a unit. -/
def NoneAbove (target : ℕ) : List Piece → Prop
  | [] => True
  | .char c :: rest =>
    (∀ found ∈ matchMarker (c :: shown rest), number found.id ≤ target) ∧ NoneAbove target rest
  | .paste _ _ :: rest => NoneAbove target rest

instance NoneAbove.decidable (target : ℕ) : (pieces : List Piece) → Decidable (NoneAbove target pieces)
  | [] => inferInstanceAs (Decidable True)
  | .char _ :: rest =>
    have := NoneAbove.decidable target rest
    inferInstanceAs (Decidable (_ ∧ _))
  | .paste _ _ :: rest => NoneAbove.decidable target rest

/-- The marker's size, with the blank before it. -/
def sizePart (lines count : ℕ) : Text :=
  32 :: if 10 < lines then 43 :: (decimal lines ++ [32, 108, 105, 110, 101, 115])
    else decimal count ++ [32, 99, 104, 97, 114, 115]

theorem pasteMarker_eq (n lines count : ℕ) :
    pasteMarker n lines count = markerStart ++ (decimal n ++ (sizePart lines count ++ [93])) := by
  rw [pasteMarker, sizePart]
  split_ifs <;> simp [linesEnd, charsEnd]

theorem renumberLine_skip (host : Host) (target : ℕ) (text rest : Text) :
    renumberLine host target text.length (text ++ rest) = renumberLine host target 0 rest := by
  induction text with
  | nil => rfl
  | cons c text ih => exact ih

theorem renumberLine_paste (host : Host) {n : ℕ} (hn : n ≤ 2 ^ 53) (content rest : Text) :
    renumberLine host target 0 ((Piece.paste n content).shown ++ rest) =
      (renumbered target (.paste n content)).shown ++ renumberLine host target 0 rest := by
  have hmatch := (paste_isMarker n content).matches rest
  have hten := (paste_isMarker n content).ten_le
  generalize hmarker : (Piece.paste n content).shown = marker at hmatch hten
  cases marker with
  | nil =>
    rw [length_nil] at hten
    omega
  | cons c marker =>
    have htake : (c :: (marker ++ rest)).take (c :: marker).length = c :: marker := by
      rw [← cons_append, take_left]
    rw [cons_append] at hmatch
    rw [cons_append, renumberLine, hmatch]
    dsimp only
    rw [htake, number_decimal, length_cons, Nat.add_sub_cancel, renumberLine_skip]
    congr 1
    rw [renumbered]
    split_ifs with hle
    · exact hmarker.symm
    · have hsize : sizeText ⟨decimal n, marker.length + 1⟩ (c :: marker) =
          sizePart (splitLines content).length content.length := by
        have hdrop : ((c :: marker).drop (markerStart.length + (decimal n).length)).dropLast =
            sizePart (splitLines content).length content.length := by
          rw [← hmarker, Piece.shown, pasteMarker_eq, ← append_assoc, ← length_append,
            drop_left, dropLast_concat]
        rw [sizeText]
        dsimp only
        rw [hdrop]
        exact if_neg (cons_ne_nil _ _)
      rw [hsize, lessOne, number_decimal, if_pos hn, Piece.shown, pasteMarker_eq]

theorem chars_of_no_bracket {t rest : Text} (hbracket : 91 ∉ t) (h : shown pieces = t ++ rest) :
    ∃ more, pieces = chars t ++ more := by
  induction t generalizing pieces with
  | nil => exact ⟨pieces, rfl⟩
  | cons c t ih =>
    rw [mem_cons, not_or] at hbracket
    cases pieces with
    | nil => cases h
    | cons piece pieces =>
      cases piece with
      | char c' =>
        obtain ⟨rfl, hrest⟩ := cons.inj h
        obtain ⟨more, rfl⟩ := ih hbracket.2 hrest
        exact ⟨more, rfl⟩
      | paste n content =>
        have hhead : (Piece.paste n content).shown.head? = some 91 := by
          rw [Piece.shown, pasteMarker_eq]
          rfl
        have hc : (shown (.paste n content :: pieces)).head? = some c := by
          rw [h]
          rfl
        rw [shown_cons, head?_append_of_ne_nil _ (piece_shown_ne_nil _), hhead] at hc
        exact absurd (Option.some.inj hc) hbracket.1

theorem NoneAbove.behind {t : Text} (h : NoneAbove target (chars t ++ pieces)) :
    NoneAbove target pieces := by
  induction t with
  | nil => exact h
  | cons c t ih => exact ih h.2

theorem chars_renumbered (target : ℕ) (t : Text) : (chars t).map (renumbered target) = chars t := by
  rw [chars, map_map]
  rfl

theorem renumberLine_shown (host : Host) (h : NoneAbove target pieces)
    (hsmall : ∀ n content, .paste n content ∈ pieces → n ≤ 2 ^ 53) :
    renumberLine host target 0 (shown pieces) = shown (pieces.map (renumbered target)) := by
  induction hlength : pieces.length using Nat.strong_induction_on generalizing pieces with
  | _ k ih =>
    cases pieces with
    | nil => rfl
    | cons piece rest =>
      have hsmall' : ∀ n content, .paste n content ∈ rest → n ≤ 2 ^ 53 :=
        fun n content hmem => hsmall n content (mem_cons_of_mem _ hmem)
      rw [length_cons] at hlength
      cases piece with
      | paste n content =>
        have hrest : NoneAbove target rest := h
        rw [shown_cons, renumberLine_paste host (hsmall n content mem_cons_self),
          map_cons, shown_cons, ih rest.length (by omega) hrest hsmall' rfl]
      | char c =>
        obtain ⟨hfound, hrest⟩ := h
        change renumberLine host target 0 (c :: shown rest) =
          c :: shown (rest.map (renumbered target))
        rw [renumberLine]
        cases hmatch : matchMarker (c :: shown rest) with
        | none =>
          dsimp only
          rw [ih rest.length (by omega) hrest hsmall' rfl]
        | some found =>
          obtain ⟨marker, behind, hmarker, htext, hfl⟩ := matchMarker_some hmatch
          have hten := hmarker.ten_le
          cases marker with
          | nil =>
            rw [length_nil] at hten
            omega
          | cons c' t =>
            have htail : 91 ∉ t := bracket_not_mem_tail hmarker
            obtain ⟨rfl, hrest'⟩ := cons.inj htext
            have hbehind : shown rest = t ++ behind := hrest'
            obtain ⟨more, rfl⟩ := chars_of_no_bracket htail hbehind
            have hmore : shown more = behind := by
              rw [shown_append, shown_chars] at hbehind
              exact append_cancel_left hbehind
            have hrec := ih more.length (by
              rw [length_append] at hlength
              omega) hrest.behind
              (fun n content hmem => hsmall' n content (mem_append_right _ hmem)) rfl
            dsimp only
            rw [if_pos (hfound found hmatch), hfl, length_cons, Nat.add_sub_cancel,
              take_succ_cons, shown_append, shown_chars, take_left, renumberLine_skip, hrec,
              map_append, chars_renumbered, shown_append, shown_chars, cons_append]

end KnightCode.Editor
