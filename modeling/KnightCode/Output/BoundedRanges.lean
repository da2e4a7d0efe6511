import KnightCode.Output.Bounded

/-!
# Windows of bytes

Bytes that are more than a window, as its number of bytes or of newlines, decide it: the first lines
are the same whatever comes behind such bytes, and the last lines whatever comes before them. So the
part of a stream that its buffer stores shows what the whole stream does.
-/

namespace KnightCode.Bounded

open List Option
open Utf8 (isContinuation)

section

variable {front bytes rest : List UInt8} {index found lines : ℕ}

/-! ### Newlines from the start -/

theorem indexOf_found (h : indexOf bytes index = some found) :
    index ≤ found ∧ found < bytes.length ∧ bytes[found]? = some NEWLINE := by
  rw [indexOf, map_eq_some_iff] at h
  obtain ⟨offset, hoffset, rfl⟩ := h
  rw [findIdx?_eq_some_iff_getElem] at hoffset
  obtain ⟨hlt, hnewline, -⟩ := hoffset
  rw [length_drop] at hlt
  rw [getElem_drop, beq_iff_eq] at hnewline
  refine ⟨Nat.le_add_right _ _, by omega, ?_⟩
  rw [getElem?_eq_getElem (by omega), hnewline]

theorem indexOf_append_left (hle : index ≤ bytes.length) (h : indexOf bytes index = some found) :
    indexOf (bytes ++ rest) index = some found := by
  rw [indexOf, map_eq_some_iff] at h
  obtain ⟨offset, hoffset, rfl⟩ := h
  rw [indexOf, drop_append_of_le_length hle, findIdx?_append, hoffset]
  rfl

theorem indexOf_append_none (h : indexOf bytes index = none)
    (hfound : indexOf (bytes ++ rest) index = some found) : bytes.length ≤ found := by
  obtain ⟨hindex, hlt, hnewline⟩ := indexOf_found hfound
  by_contra hinside
  rw [getElem?_append_left (not_le.mp hinside)] at hnewline
  rw [indexOf, map_eq_none_iff, findIdx?_eq_none_iff] at h
  have hmem : NEWLINE ∈ bytes.drop index := by
    refine mem_iff_getElem?.mpr ⟨found - index, ?_⟩
    rw [getElem?_drop, Nat.add_sub_cancel' hindex, hnewline]
  have hnot := h _ hmem
  rw [beq_self_eq_true] at hnot
  cases hnot

theorem indexOf_append_right :
    indexOf (front ++ bytes) (front.length + index) =
      (indexOf bytes index).map (front.length + ·) := by
  rw [indexOf, indexOf, drop_append, drop_eq_nil_of_le (Nat.le_add_right _ _),
    nil_append, Nat.add_sub_cancel_left, Option.map_map]
  refine congrArg (fun f => Option.map f _) (funext fun offset => ?_)
  exact add_assoc _ _ _

theorem count_indexOf (h : indexOf bytes index = some found) :
    (bytes.drop index).count NEWLINE = (bytes.drop (found + 1)).count NEWLINE + 1 := by
  rw [indexOf, map_eq_some_iff] at h
  obtain ⟨offset, hoffset, rfl⟩ := h
  rw [findIdx?_eq_some_iff_getElem] at hoffset
  obtain ⟨hlt, hnewline, hbefore⟩ := hoffset
  have hsplit := take_append_drop offset (bytes.drop index)
  have hcons := drop_eq_getElem_cons hlt
  have hnone : ((bytes.drop index).take offset).count NEWLINE = 0 := by
    rw [count_eq_zero]
    intro hmem
    obtain ⟨i, hi, heq⟩ := mem_iff_getElem.mp hmem
    rw [length_take] at hi
    rw [getElem_take] at heq
    have hnot := hbefore i (by omega)
    rw [heq, beq_self_eq_true] at hnot
    exact hnot rfl
  rw [beq_iff_eq] at hnewline
  rw [← hsplit, count_append, hnone, hcons, hnewline, count_cons_self, zero_add, drop_drop]
  rfl

theorem indexOf_eq_none : indexOf bytes index = none ↔ (bytes.drop index).count NEWLINE = 0 := by
  rw [indexOf, map_eq_none_iff, findIdx?_eq_none_iff, count_eq_zero]
  constructor
  · intro h hmem
    have hnot := h _ hmem
    rw [beq_self_eq_true] at hnot
    cases hnot
  · intro h byte hmem
    rw [beq_eq_false_iff_ne]
    rintro rfl
    exact h hmem

theorem indexOfLine_succ (lines index : ℕ) : indexOfLine bytes (lines + 1) index =
    (indexOf bytes index).bind fun index =>
      if lines = 0 then some index else indexOfLine bytes lines (index + 1) := rfl

theorem indexOfLine_found (h : indexOfLine bytes lines index = some found) :
    index ≤ found ∧ found < bytes.length ∧ bytes[found]? = some NEWLINE ∧
      (bytes.drop index).count NEWLINE = (bytes.drop (found + 1)).count NEWLINE + lines := by
  induction lines generalizing index with
  | zero => cases h
  | succ lines ih =>
    rw [indexOfLine_succ, bind_eq_some_iff] at h
    obtain ⟨first, hfirst, h⟩ := h
    have hcount := count_indexOf hfirst
    split_ifs at h with hzero
    · obtain rfl := Option.some.inj h
      subst hzero
      obtain ⟨hle, hlt, hnewline⟩ := indexOf_found hfirst
      exact ⟨hle, hlt, hnewline, hcount⟩
    · obtain ⟨hle, hlt, hnewline, hlines⟩ := ih h
      have hbefore := (indexOf_found hfirst).1
      exact ⟨by omega, hlt, hnewline, by omega⟩

theorem indexOfLine_exists (hpos : 0 < lines) (h : lines ≤ (bytes.drop index).count NEWLINE) :
    ∃ found, indexOfLine bytes lines index = some found := by
  induction lines generalizing index with
  | zero => exact absurd hpos (lt_irrefl 0)
  | succ lines ih =>
    cases hfirst : indexOf bytes index with
    | none =>
      rw [indexOf_eq_none] at hfirst
      omega
    | some first =>
      have hcount := count_indexOf hfirst
      rw [indexOfLine_succ, hfirst, bind_some]
      split_ifs with hzero
      · exact ⟨first, rfl⟩
      · exact ih (Nat.pos_of_ne_zero hzero) (by omega)

theorem indexOfLine_append (hle : index ≤ bytes.length) :
    (∀ found, indexOfLine bytes lines index = some found →
      indexOfLine (bytes ++ rest) lines index = some found) ∧
    (indexOfLine bytes lines index = none → ∀ found,
      indexOfLine (bytes ++ rest) lines index = some found → bytes.length ≤ found) := by
  induction lines generalizing index with
  | zero => exact ⟨fun _ h => (by cases h), fun _ _ h => (by cases h)⟩
  | succ lines ih =>
    rw [indexOfLine_succ, indexOfLine_succ]
    cases hfirst : indexOf bytes index with
    | none =>
      refine ⟨fun _ h => (by cases h), fun _ found h => ?_⟩
      obtain ⟨first, hfirst', h⟩ := bind_eq_some_iff.mp h
      have hbehind := indexOf_append_none hfirst hfirst'
      split_ifs at h with hzero
      · rw [← Option.some.inj h]
        exact hbehind
      · have hle := (indexOfLine_found h).1
        omega
    | some first =>
      have hlt := (indexOf_found hfirst).2.1
      rw [indexOf_append_left hle hfirst, bind_some, bind_some]
      split_ifs with hzero
      · exact ⟨fun _ h => h, fun h => (by cases h)⟩
      · exact ih hlt

/-! ### Newlines from the end -/

theorem lastIndexOf_found (h : lastIndexOf bytes index = some found) :
    found ≤ index ∧ bytes[found]? = some NEWLINE := by
  induction index with
  | zero =>
    rw [lastIndexOf] at h
    split_ifs at h with hnewline
    obtain rfl := Option.some.inj h
    exact ⟨le_rfl, hnewline⟩
  | succ index ih =>
    rw [lastIndexOf] at h
    split_ifs at h with hnewline
    · obtain rfl := Option.some.inj h
      exact ⟨le_rfl, hnewline⟩
    · obtain ⟨hle, hnewline⟩ := ih h
      exact ⟨hle.trans (Nat.le_succ _), hnewline⟩

theorem lastIndexOf_append_left (hlt : index < bytes.length) :
    lastIndexOf (bytes ++ rest) index = lastIndexOf bytes index := by
  induction index with
  | zero => rw [lastIndexOf, lastIndexOf, getElem?_append_left hlt]
  | succ index ih =>
    rw [lastIndexOf, lastIndexOf, getElem?_append_left hlt, ih (by omega)]

theorem lastIndexOf_append_right :
    (∀ found, lastIndexOf bytes index = some found →
      lastIndexOf (front ++ bytes) (front.length + index) = some (front.length + found)) ∧
    (lastIndexOf bytes index = none → ∀ found,
      lastIndexOf (front ++ bytes) (front.length + index) = some found →
        found < front.length) := by
  have hat : ∀ i, (front ++ bytes)[front.length + i]? = bytes[i]? := fun i => by
    rw [getElem?_append_right (Nat.le_add_right _ _), Nat.add_sub_cancel_left]
  induction index with
  | zero =>
    have hzero := hat 0
    rw [lastIndexOf]
    by_cases hnewline : bytes[0]? = some NEWLINE
    · rw [if_pos hnewline]
      refine ⟨fun found h => ?_, fun h => (by cases h)⟩
      obtain rfl := Option.some.inj h
      cases hlength : front.length with
      | zero | succ length =>
        rw [hlength] at hzero
        rw [lastIndexOf, hzero, if_pos hnewline]
    · rw [if_neg hnewline]
      refine ⟨fun found h => (by cases h), fun _ found h => ?_⟩
      obtain ⟨hle, hfound⟩ := lastIndexOf_found h
      rcases lt_or_ge found front.length with hlt | hge
      · exact hlt
      · have heq : found = front.length + 0 := by omega
        rw [heq, hzero] at hfound
        exact absurd hfound hnewline
  | succ index ih =>
    have hnext := hat (index + 1)
    rw [← add_assoc] at hnext
    rw [← add_assoc, lastIndexOf, lastIndexOf, hnext]
    split_ifs with hnewline
    · refine ⟨fun found h => ?_, fun h => (by cases h)⟩
      obtain rfl := Option.some.inj h
      exact congrArg some (add_assoc _ _ _)
    · exact ih

theorem count_lastIndexOf (h : lastIndexOf bytes index = some found) :
    (bytes.take (index + 1)).count NEWLINE = (bytes.take found).count NEWLINE + 1 := by
  have htake : ∀ i, bytes[i]? = some NEWLINE →
      (bytes.take (i + 1)).count NEWLINE = (bytes.take i).count NEWLINE + 1 := by
    intro i hi
    rw [take_add_one, hi, count_append]
    rfl
  induction index with
  | zero =>
    rw [lastIndexOf] at h
    split_ifs at h with hnewline
    obtain rfl := Option.some.inj h
    exact htake _ hnewline
  | succ index ih =>
    rw [lastIndexOf] at h
    split_ifs at h with hnewline
    · obtain rfl := Option.some.inj h
      exact htake _ hnewline
    · rw [take_add_one, count_append, ih h]
      have hzero : (bytes[index + 1]?.toList).count NEWLINE = 0 := by
        rw [count_eq_zero]
        intro hmem
        exact hnewline (mem_toList.mp hmem)
      rw [hzero, add_zero]

theorem lastIndexOf_none (h : lastIndexOf bytes index = none) :
    (bytes.take (index + 1)).count NEWLINE = 0 := by
  have hnot : ∀ i, i ≤ index → bytes[i]? ≠ some NEWLINE := by
    induction index with
    | zero =>
      rw [lastIndexOf] at h
      split_ifs at h with hnewline
      intro i hi
      rw [Nat.le_zero.mp hi]
      exact hnewline
    | succ index ih =>
      rw [lastIndexOf] at h
      split_ifs at h with hnewline
      intro i hi
      rcases lt_or_ge i (index + 1) with hlt | hge
      · exact ih h i (Nat.le_of_lt_succ hlt)
      · rw [le_antisymm hi hge]
        exact hnewline
  rw [count_eq_zero]
  intro hmem
  obtain ⟨i, hi⟩ := mem_iff_getElem?.mp hmem
  rw [getElem?_take] at hi
  split_ifs at hi with hlt
  exact hnot i (Nat.le_of_lt_succ hlt) hi

theorem lastIndexOfLine_succ (lines index : ℕ) : lastIndexOfLine bytes (lines + 1) index =
    (lastIndexOf bytes index).bind fun index =>
      if lines = 0 then some index
      else if index = 0 then none
      else lastIndexOfLine bytes lines (index - 1) := rfl

theorem lastIndexOfLine_found (h : lastIndexOfLine bytes lines index = some found) :
    found ≤ index ∧ bytes[found]? = some NEWLINE ∧
      (bytes.take (index + 1)).count NEWLINE = (bytes.take found).count NEWLINE + lines := by
  induction lines generalizing index with
  | zero => cases h
  | succ lines ih =>
    rw [lastIndexOfLine_succ, bind_eq_some_iff] at h
    obtain ⟨last, hlast, h⟩ := h
    have hcount := count_lastIndexOf hlast
    obtain ⟨hle, hnewline⟩ := lastIndexOf_found hlast
    split_ifs at h with hone hzero
    · obtain rfl := Option.some.inj h
      subst hone
      exact ⟨hle, hnewline, hcount⟩
    · obtain ⟨hbefore, hnewline', hlines⟩ := ih h
      rw [Nat.sub_add_cancel (Nat.pos_of_ne_zero hzero)] at hlines
      exact ⟨by omega, hnewline', by omega⟩

theorem lastIndexOfLine_exists (hpos : 0 < lines)
    (h : lines ≤ (bytes.take (index + 1)).count NEWLINE) :
    ∃ found, lastIndexOfLine bytes lines index = some found := by
  induction lines generalizing index with
  | zero => exact absurd hpos (lt_irrefl 0)
  | succ lines ih =>
    cases hlast : lastIndexOf bytes index with
    | none =>
      have hnone := lastIndexOf_none hlast
      omega
    | some last =>
      have hcount := count_lastIndexOf hlast
      rw [lastIndexOfLine_succ, hlast, bind_some]
      split_ifs with hone hzero
      · exact ⟨last, rfl⟩
      · rw [hzero, take_zero, count_nil] at hcount
        omega
      · refine ih (Nat.pos_of_ne_zero hone) ?_
        rw [Nat.sub_add_cancel (Nat.pos_of_ne_zero hzero)]
        omega

theorem lastIndexOfLine_append_right :
    (∀ found, lastIndexOfLine bytes lines index = some found → lastIndexOfLine (front ++ bytes)
      lines (front.length + index) = some (front.length + found)) ∧
    (lastIndexOfLine bytes lines index = none → ∀ found,
      lastIndexOfLine (front ++ bytes) lines (front.length + index) = some found →
        found < front.length) := by
  induction lines generalizing index with
  | zero => exact ⟨fun _ h => (by cases h), fun _ _ h => (by cases h)⟩
  | succ lines ih =>
    rw [lastIndexOfLine_succ, lastIndexOfLine_succ]
    obtain ⟨hsome, hnone⟩ := @lastIndexOf_append_right front bytes index
    cases hlast : lastIndexOf bytes index with
    | none =>
      refine ⟨fun _ h => (by cases h), fun _ found h => ?_⟩
      obtain ⟨last, hlast', h⟩ := bind_eq_some_iff.mp h
      have hbefore := hnone hlast last hlast'
      split_ifs at h with hone hzero
      · rw [← Option.some.inj h]
        exact hbefore
      · have hle := (lastIndexOfLine_found h).1
        omega
    | some last =>
      rw [hsome last hlast, bind_some, bind_some]
      by_cases hone : lines = 0
      · rw [if_pos hone, if_pos hone]
        refine ⟨fun found h => ?_, fun h => (by cases h)⟩
        rw [Option.some.inj h]
      rw [if_neg hone, if_neg hone]
      by_cases hzero : last = 0
      · rw [if_pos hzero]
        refine ⟨fun _ h => (by cases h), fun _ found h => ?_⟩
        split_ifs at h with hfront
        have hle := (lastIndexOfLine_found h).1
        omega
      · have heq : front.length + last - 1 = front.length + (last - 1) := by omega
        rw [if_neg hzero, if_neg (by omega), heq]
        exact ih

/-! ### Characters -/

theorem characterEnd_le (bytes : List UInt8) (index : ℕ) : characterEnd bytes index ≤ index := by
  induction index with
  | zero => exact le_rfl
  | succ index ih =>
    rw [characterEnd]
    split_ifs
    · exact ih.trans (Nat.le_succ _)
    · exact le_rfl

theorem characterEnd_append_left (hlt : index < bytes.length) :
    characterEnd (bytes ++ rest) index = characterEnd bytes index := by
  induction index with
  | zero => rfl
  | succ index ih =>
    rw [characterEnd, characterEnd, getD_eq_getElem?_getD, getElem?_append_left hlt,
      ← getD_eq_getElem?_getD, ih (by omega)]

theorem characterEnd_first (hlt : index < bytes.length) : characterEnd bytes index = 0 ∨
    ∀ byte, bytes[characterEnd bytes index]? = some byte → isContinuation byte = false := by
  induction index with
  | zero => exact .inl rfl
  | succ index ih =>
    rw [characterEnd]
    split_ifs with hcontinues
    · exact ih (by omega)
    · right
      intro byte hbyte
      rw [getD_eq_getElem?_getD, hbyte, getD_some] at hcontinues
      exact Bool.eq_false_iff.mpr hcontinues

theorem characterStart_append_right :
    characterStart (front ++ bytes) (front.length + index) =
      front.length + characterStart bytes index := by
  rw [characterStart, characterStart, drop_append, drop_eq_nil_of_le (Nat.le_add_right _ _),
    nil_append, Nat.add_sub_cancel_left, add_assoc]

end

/-! ### Windows -/

section

variable {limits : OutputLimits} {front bytes rest : List UInt8}

/-- The bytes are more than a window of the last lines. -/
def Exceeds (limits : OutputLimits) (bytes : List UInt8) : Prop :=
  limits.maxBytes < bytes.length ∨ limits.maxLines < bytes.count NEWLINE

/-- The bytes are at least a window of the first lines. -/
def Fills (limits : OutputLimits) (bytes : List UInt8) : Prop :=
  limits.maxBytes < bytes.length ∨ limits.maxLines ≤ bytes.count NEWLINE

theorem Exceeds.ne_nil (h : Exceeds limits bytes) : bytes ≠ [] := by
  rintro rfl
  rcases h with h | h
  · exact absurd h (Nat.not_lt_zero _)
  · exact absurd h (Nat.not_lt_zero _)

theorem Exceeds.append (h : Exceeds limits bytes) (rest : List UInt8) :
    Exceeds limits (bytes ++ rest) := by
  rw [Exceeds, length_append, count_append]
  rcases h with h | h
  · left
    omega
  · right
    omega

theorem headRange_fst (bytes : List UInt8) (limits : OutputLimits) :
    (headRange bytes limits).1 = 0 := by
  rw [headRange]
  split_ifs
  · rfl
  · dsimp only
    split_ifs
    · split <;> rfl
    · rfl

theorem headRange_le (bytes : List UInt8) (limits : OutputLimits) :
    (headRange bytes limits).2 ≤ limits.maxBytes := by
  rw [headRange]
  split_ifs with hzero
  · exact Nat.zero_le _
  · rw [not_or] at hzero
    dsimp only
    split_ifs with hcut
    · split
      next newline hnewline =>
        have hle := (lastIndexOf_found hnewline).1
        dsimp only
        omega
      next => exact characterEnd_le _ _
    · exact not_lt.mp hcut

theorem headRange_append (h : Fills limits bytes) :
    headRange (bytes ++ rest) limits = headRange bytes limits := by
  rw [headRange, headRange]
  by_cases hzero : limits.maxLines = 0 ∨ limits.maxBytes = 0
  · rw [if_pos hzero, if_pos hzero]
  rw [if_neg hzero, if_neg hzero]
  rw [not_or] at hzero
  dsimp only
  have hcut : limits.maxBytes < bytes.length →
      lastIndexOf (bytes ++ rest) (limits.maxBytes - 1) =
          lastIndexOf bytes (limits.maxBytes - 1) ∧
        characterEnd (bytes ++ rest) limits.maxBytes = characterEnd bytes limits.maxBytes := by
    intro hlong
    exact ⟨lastIndexOf_append_left (by omega), characterEnd_append_left hlong⟩
  obtain ⟨hsome, hnone⟩ := @indexOfLine_append bytes rest 0 limits.maxLines
    (Nat.zero_le bytes.length)
  cases hline : indexOfLine bytes limits.maxLines 0 with
  | some found =>
    have hlt := (indexOfLine_found hline).2.1
    rw [hsome found hline, map_some, getD_some, getD_some]
    split_ifs with hover
    · obtain ⟨hlast, hend⟩ := hcut (by omega)
      rw [hlast, hend]
    · rfl
  | none =>
    have hlong : limits.maxBytes < bytes.length := by
      refine h.resolve_right fun hlines => ?_
      obtain ⟨found, hfound⟩ := @indexOfLine_exists bytes 0 _
        (Nat.pos_of_ne_zero hzero.1) (by rw [drop_zero]; exact hlines)
      rw [hline] at hfound
      cases hfound
    have hover : limits.maxBytes <
        ((indexOfLine (bytes ++ rest) limits.maxLines 0).map (· + 1)).getD
          (bytes ++ rest).length := by
      cases hline' : indexOfLine (bytes ++ rest) limits.maxLines 0 with
      | none =>
        rw [map_none, getD_none, length_append]
        omega
      | some found =>
        have hbehind := hnone hline found hline'
        rw [map_some, getD_some]
        omega
    obtain ⟨hlast, hend⟩ := hcut hlong
    rw [if_pos hover, map_none, getD_none, if_pos hlong, hlast, hend]

theorem lastByte_lt {last : ℕ} (h : lastByte bytes = some last) : last < bytes.length := by
  rw [lastByte] at h
  split_ifs at h with hend hzero hzero
  · obtain rfl := Option.some.inj h
    omega
  · obtain rfl := Option.some.inj h
    omega

theorem lastByte_append (hne : bytes ≠ []) :
    (∀ last, lastByte bytes = some last → lastByte (front ++ bytes) = some (front.length + last)) ∧
    (lastByte bytes = none → ∀ last, lastByte (front ++ bytes) = some last →
      last < front.length) := by
  have hpos := length_pos_iff.mpr hne
  rw [lastByte, lastByte, getLast?_append_of_ne_nil _ hne, length_append]
  by_cases hend : bytes.getLast? = some NEWLINE
  · rw [if_pos hend, if_pos hend]
    constructor
    · intro last h
      split_ifs at h with hzero
      obtain rfl := Option.some.inj h
      rw [if_neg (by omega)]
      congr 1
      omega
    · intro h last h'
      split_ifs at h with hzero
      split_ifs at h' with hzero'
      obtain rfl := Option.some.inj h'
      omega
  · rw [if_neg hend, if_neg hend]
    constructor
    · intro last h
      split_ifs at h with hzero
      obtain rfl := Option.some.inj h
      rw [if_neg (by omega)]
      congr 1
      omega
    · intro h
      split_ifs at h with hzero
      omega

theorem lineStart_append (hne : bytes ≠ []) :
    lineStart (front ++ bytes) limits = front.length + lineStart bytes limits ∨
      lineStart bytes limits = 0 ∧ lineStart (front ++ bytes) limits ≤ front.length := by
  obtain ⟨hsome, hnone⟩ := @lastByte_append front bytes hne
  rw [lineStart, lineStart]
  cases hlast : lastByte bytes with
  | none =>
    right
    refine ⟨rfl, ?_⟩
    cases hlast' : lastByte (front ++ bytes) with
    | none => exact Nat.zero_le _
    | some last =>
      have hlt := hnone hlast last hlast'
      rw [bind_some]
      cases hline : lastIndexOfLine (front ++ bytes) limits.maxLines last with
      | none => exact Nat.zero_le _
      | some found =>
        have hle := (lastIndexOfLine_found hline).1
        rw [map_some, getD_some]
        omega
  | some last =>
    obtain ⟨hfound, hnot⟩ := @lastIndexOfLine_append_right front bytes last
      limits.maxLines
    rw [hsome last hlast, bind_some, bind_some]
    cases hline : lastIndexOfLine bytes limits.maxLines last with
    | some found =>
      left
      rw [hfound found hline, map_some, map_some, getD_some, getD_some, add_assoc]
    | none =>
      right
      refine ⟨rfl, ?_⟩
      cases hline' : lastIndexOfLine (front ++ bytes) limits.maxLines (front.length + last) with
      | none => exact Nat.zero_le _
      | some found =>
        have hlt := hnot hline found hline'
        rw [map_some, getD_some]
        omega

theorem count_lastByte (bytes : List UInt8) :
    lastByte bytes = none ∧ bytes.count NEWLINE ≤ 1 ∨
      ∃ last, lastByte bytes = some last ∧
        bytes.count NEWLINE ≤ (bytes.take (last + 1)).count NEWLINE + 1 := by
  have hsingle : ∀ byte : UInt8, [byte].count NEWLINE ≤ 1 := fun byte => count_le_length
  rcases eq_nil_or_concat' bytes with rfl | ⟨before, byte, rfl⟩
  · exact .inl ⟨rfl, Nat.zero_le _⟩
  rw [lastByte, getLast?_concat, length_append, length_singleton]
  by_cases hend : some byte = some NEWLINE
  · rw [if_pos hend, Nat.add_sub_cancel]
    split_ifs with hzero
    · left
      rw [length_eq_zero_iff] at hzero
      subst hzero
      exact ⟨rfl, hsingle byte⟩
    · right
      refine ⟨_, rfl, ?_⟩
      rw [Nat.sub_add_cancel (Nat.pos_of_ne_zero hzero), take_left', count_append]
      · have hle := hsingle byte
        omega
      · rfl
  · rw [if_neg hend, if_neg (Nat.succ_ne_zero _)]
    right
    refine ⟨_, rfl, ?_⟩
    rw [Nat.add_sub_cancel, take_of_length_le]
    · exact Nat.le_succ _
    · rw [length_append, length_singleton]

theorem lineStart_found (hpos : 0 < limits.maxLines)
    (h : limits.maxLines < bytes.count NEWLINE) : ∃ last found, lastByte bytes = some last ∧
      lastIndexOfLine bytes limits.maxLines last = some found := by
  rcases count_lastByte bytes with ⟨-, hone⟩ | ⟨last, hlast, hcount⟩
  · omega
  · obtain ⟨found, hfound⟩ := @lastIndexOfLine_exists bytes last _ hpos
      (by omega)
    exact ⟨last, found, hlast, hfound⟩

theorem lineStart_le (bytes : List UInt8) (limits : OutputLimits) :
    lineStart bytes limits ≤ bytes.length := by
  rw [lineStart]
  cases hlast : lastByte bytes with
  | none => exact Nat.zero_le _
  | some last =>
    have hlt := lastByte_lt hlast
    rw [bind_some]
    cases hline : lastIndexOfLine bytes limits.maxLines last with
    | none => exact Nat.zero_le _
    | some found =>
      have hle := (lastIndexOfLine_found hline).1
      rw [map_some, getD_some]
      omega

theorem tailRange_snd (bytes : List UInt8) (limits : OutputLimits) :
    (tailRange bytes limits).2 = bytes.length := by
  rw [tailRange]
  split_ifs
  · rfl
  · dsimp only
    split
    · split_ifs <;> rfl
    · rfl
  · rfl

theorem tailRange_cut (hzero : ¬ (limits.maxLines = 0 ∨ limits.maxBytes = 0))
    (hover : limits.maxBytes < bytes.length - lineStart bytes limits) :
    tailRange bytes limits =
      (indexOf bytes (bytes.length - limits.maxBytes - 1)).elim
        (characterStart bytes (bytes.length - limits.maxBytes), bytes.length)
        fun newline =>
          if newline + 1 < bytes.length then (newline + 1, bytes.length)
          else (characterStart bytes (bytes.length - limits.maxBytes), bytes.length) := by
  rw [tailRange, if_neg hzero, if_pos hover]
  dsimp only
  cases indexOf bytes (bytes.length - limits.maxBytes - 1) with
  | none => rfl
  | some newline => rfl

theorem tailRange_append (h : Exceeds limits bytes) :
    (tailRange (front ++ bytes) limits).1 = front.length + (tailRange bytes limits).1 := by
  by_cases hzero : limits.maxLines = 0 ∨ limits.maxBytes = 0
  · rw [tailRange, tailRange, if_pos hzero, if_pos hzero, length_append]
  have hcut : limits.maxBytes < bytes.length →
      ((indexOf (front ++ bytes) ((front ++ bytes).length - limits.maxBytes - 1)).elim
        (characterStart (front ++ bytes) ((front ++ bytes).length - limits.maxBytes),
          (front ++ bytes).length)
        fun newline =>
          if newline + 1 < (front ++ bytes).length then (newline + 1, (front ++ bytes).length)
          else (characterStart (front ++ bytes) ((front ++ bytes).length - limits.maxBytes),
            (front ++ bytes).length)).1 =
      front.length + ((indexOf bytes (bytes.length - limits.maxBytes - 1)).elim
        (characterStart bytes (bytes.length - limits.maxBytes), bytes.length)
        fun newline =>
          if newline + 1 < bytes.length then (newline + 1, bytes.length)
          else (characterStart bytes (bytes.length - limits.maxBytes), bytes.length)).1 := by
    intro hlong
    have hlength : (front ++ bytes).length - limits.maxBytes =
        front.length + (bytes.length - limits.maxBytes) := by
      rw [length_append]
      omega
    have hsearch : (front ++ bytes).length - limits.maxBytes - 1 =
        front.length + (bytes.length - limits.maxBytes - 1) := by omega
    rw [hsearch, hlength, indexOf_append_right, characterStart_append_right]
    cases indexOf bytes (bytes.length - limits.maxBytes - 1) with
    | none => rfl
    | some newline =>
      rw [map_some, elim_some, elim_some]
      by_cases hinside : newline + 1 < bytes.length
      · rw [if_pos hinside, if_pos (by rw [length_append]; omega)]
        exact add_assoc _ _ _
      · rw [if_neg hinside, if_neg (by rw [length_append]; omega)]
  have hle := lineStart_le bytes limits
  rcases @lineStart_append limits front _ h.ne_nil with heq | ⟨hstart, hfront⟩
  · have hsame : (front ++ bytes).length - lineStart (front ++ bytes) limits =
        bytes.length - lineStart bytes limits := by
      rw [heq, length_append]
      omega
    by_cases hover : limits.maxBytes < bytes.length - lineStart bytes limits
    · rw [tailRange_cut hzero (by omega), tailRange_cut hzero hover]
      exact hcut (by omega)
    · rw [tailRange, tailRange, if_neg hzero, if_neg hzero, hsame, if_neg hover, if_neg hover]
      exact heq
  · have hlong : limits.maxBytes < bytes.length := by
      refine h.resolve_right fun hlines => ?_
      obtain ⟨last, found, hlast, hfound⟩ :=
        lineStart_found (Nat.pos_of_ne_zero (not_or.mp hzero).1) hlines
      rw [lineStart, hlast, bind_some, hfound] at hstart
      cases hstart
    have hover : limits.maxBytes <
        (front ++ bytes).length - lineStart (front ++ bytes) limits := by
      rw [length_append]
      omega
    rw [tailRange_cut hzero hover, tailRange_cut hzero (by omega)]
    exact hcut hlong

theorem tailRange_pos (h : Exceeds limits bytes) : 0 < (tailRange bytes limits).1 := by
  have hlength := length_pos_iff.mpr h.ne_nil
  rw [tailRange]
  by_cases hzero : limits.maxLines = 0 ∨ limits.maxBytes = 0
  · rw [if_pos hzero]
    exact hlength
  rw [if_neg hzero]
  rw [not_or] at hzero
  have hstart : limits.maxBytes < bytes.length →
      0 < characterStart bytes (bytes.length - limits.maxBytes) := by
    intro hlong
    rw [characterStart]
    omega
  split_ifs with hover
  · have hlong : limits.maxBytes < bytes.length := by omega
    dsimp only
    split
    · split_ifs
      · exact Nat.succ_pos _
      · exact hstart hlong
    · exact hstart hlong
  · rcases h with hlong | hlines
    · dsimp only
      omega
    · obtain ⟨last, found, hlast, hfound⟩ := lineStart_found (Nat.pos_of_ne_zero hzero.1) hlines
      rw [lineStart, hlast, bind_some, hfound]
      exact Nat.succ_pos _

end

open JsonText (isLead isTrail)
open Utf8 (encode decode Whole)

/-! ### Measures of a text -/

theorem unitBytes_eq (c : UInt16) : unitBytes c = (Utf8.bytes (Utf8.lone c)).length := by
  have h₁ : (0x7f : UInt16).toNat = 0x7f := rfl
  have h₂ : (0x7ff : UInt16).toNat = 0x7ff := rfl
  have hlt := c.toNat_lt
  simp only [unitBytes, UInt16.le_iff_toNat_le, h₁, h₂, Utf8.lone]
  cases hsurrogate : Utf8.isSurrogate c with
  | true =>
    have hge : 0xd800 ≤ c.toNat := by
      rw [← Bool.not_eq_false, Utf8.isSurrogate_eq_false] at hsurrogate
      omega
    rw [if_neg (by omega), if_neg (by omega), if_pos rfl]
    rfl
  | false =>
    rw [if_neg Bool.false_ne_true, Utf8.bytes]
    split_ifs <;> first | rfl | omega

variable (text : Text)

theorem utf8ByteLength_eq : utf8ByteLength text = (encode text).length := by
  fun_induction utf8ByteLength text with
  | case1 => rfl
  | case2 c => rw [encode, unitBytes_eq]
  | case3 c d content hpair ih =>
    obtain ⟨hc, hd⟩ := Bool.and_eq_true_iff.mp hpair
    have hfour : (Utf8.bytes (Utf8.pair c d)).length = 4 := by
      rw [Utf8.bytes, if_neg (by unfold Utf8.pair; omega), if_neg (by unfold Utf8.pair; omega),
        if_neg (by unfold Utf8.pair; omega)]
      rfl
    rw [encode, if_pos hpair, length_append, hfour, ih]
  | case4 c d content hpair ih =>
    rw [encode, if_neg hpair, length_append, ih, unitBytes_eq]

theorem countNewlines_eq : countNewlines text = (encode text).count NEWLINE :=
  (Utf8.count_encode text).symm

theorem endsWithNewline_eq :
    endsWithNewline text = decide ((encode text).getLast? = some NEWLINE) := by
  rw [endsWithNewline, decide_eq_decide]
  exact (Utf8.getLast_encode text).symm

theorem lineCount_encode : lineCount (encode text) =
    lines (countNewlines text) (text = [] || endsWithNewline text) := by
  rw [lineCount, lines, countNewlines_eq, endsWithNewline_eq]
  simp only [Utf8.encode_eq_nil]
  rcases eq_or_ne text [] with rfl | hne
  · rfl
  · rw [if_neg hne, decide_eq_false hne, Bool.false_or]
    simp only [decide_eq_true_eq]

/-! ### Windows of texts -/

section

variable {limits : OutputLimits} {front bytes rest : List UInt8}

def window (limits : OutputLimits) (bytes : List UInt8) : List UInt8 :=
  (bytes.take (range bytes limits).2).drop (range bytes limits).1

theorem headRange_length (bytes : List UInt8) (limits : OutputLimits) :
    (headRange bytes limits).2 ≤ bytes.length := by
  have hend : ((indexOfLine bytes limits.maxLines 0).map (· + 1)).getD bytes.length ≤
      bytes.length := by
    cases hline : indexOfLine bytes limits.maxLines 0 with
    | none => exact le_rfl
    | some found => exact (indexOfLine_found hline).2.1
  rw [headRange]
  split_ifs with hzero
  · exact Nat.zero_le _
  · dsimp only
    split_ifs with hcut
    · rw [not_or] at hzero
      split
      next newline hnewline =>
        have hle := (lastIndexOf_found hnewline).1
        dsimp only
        omega
      next =>
        have hle := characterEnd_le bytes limits.maxBytes
        dsimp only
        omega
    · exact hend

theorem window_head (hretain : limits.retain = .head) (bytes : List UInt8) :
    window limits bytes = bytes.take (headRange bytes limits).2 := by
  rw [window, range, hretain]
  dsimp only
  rw [headRange_fst, drop_zero]

theorem window_tail (hretain : limits.retain = .tail) (bytes : List UInt8) :
    window limits bytes = bytes.drop (tailRange bytes limits).1 := by
  rw [window, range, hretain]
  dsimp only
  rw [tailRange_snd, take_length]

theorem window_fills (hretain : limits.retain = .head) (h : Fills limits bytes) :
    window limits (bytes ++ rest) = window limits bytes := by
  rw [window_head hretain, window_head hretain, headRange_append h,
    take_append_of_le_length (headRange_length _ _)]

theorem window_exceeds (hretain : limits.retain = .tail) (h : Exceeds limits bytes) :
    window limits (front ++ bytes) = window limits bytes := by
  rw [window_tail hretain, window_tail hretain, tailRange_append h, drop_append,
    drop_eq_nil_of_le (Nat.le_add_right _ _), nil_append, Nat.add_sub_cancel_left]

theorem window_exceeds_lt (hretain : limits.retain = .tail) (h : Exceeds limits bytes) :
    (window limits bytes).length < bytes.length := by
  have hpos := tailRange_pos h
  have hlength := length_pos_iff.mpr h.ne_nil
  rw [window_tail hretain, length_drop]
  omega

variable (text : Text)

theorem boundOutput_bytes (limits : OutputLimits) :
    (boundOutput text limits).bytes = (window limits (encode text)).length := rfl

theorem boundOutput_text (limits : OutputLimits) : (boundOutput text limits).text =
    if (window limits (encode text)).length = (encode text).length then text
    else decode (window limits (encode text)) := rfl

theorem boundOutput_droppedLines (limits : OutputLimits) :
    (boundOutput text limits).droppedLines =
      (lineCount (encode text) : ℤ) - lineCount (window limits (encode text)) := rfl

theorem boundOutput_droppedBytes (limits : OutputLimits) :
    (boundOutput text limits).droppedBytes =
      ((encode text).length : ℤ) - (window limits (encode text)).length := rfl

theorem isContinuation_newline : isContinuation NEWLINE = false := by decide

theorem tailMargin_cases (limits : OutputLimits) :
    tailMargin text limits = text ∨ Whole (tailMargin text limits) ∧
      (∃ front, encode text = front ++ encode (tailMargin text limits)) ∧
        Exceeds limits (encode (tailMargin text limits)) := by
  rw [tailMargin]
  generalize hbytes : encode text = bytes
  generalize hbyte : (if limits.maxBytes < bytes.length then
    characterEnd bytes (bytes.length - limits.maxBytes - 1) else 0) = byteStart
  generalize hline : (lastIndexOfLine bytes (limits.maxLines + 1) (bytes.length - 1)).getD 0 =
    lineStart
  by_cases hzero : max byteStart lineStart = 0
  · left
    rw [if_pos hzero]
  right
  rw [if_neg hzero]
  have hstart : (∀ byte, bytes[max byteStart lineStart]? = some byte →
      isContinuation byte = false) ∧ Exceeds limits (bytes.drop (max byteStart lineStart)) := by
    rw [Exceeds, length_drop]
    rcases le_total lineStart byteStart with hle | hle
    · rw [max_eq_left hle] at hzero ⊢
      split_ifs at hbyte with hlong
      · have hend := characterEnd_le bytes (bytes.length - limits.maxBytes - 1)
        have hfirst := @characterEnd_first bytes
          (bytes.length - limits.maxBytes - 1) (by omega)
        rw [hbyte] at hend hfirst
        exact ⟨hfirst.resolve_left hzero, .inl (by omega)⟩
      · exact absurd hbyte.symm hzero
    · rw [max_eq_right hle] at hzero ⊢
      cases hfound : lastIndexOfLine bytes (limits.maxLines + 1) (bytes.length - 1) with
      | none =>
        rw [hfound] at hline
        exact absurd hline.symm hzero
      | some found =>
        rw [hfound, Option.getD_some] at hline
        subst hline
        obtain ⟨-, hnewline, hcount⟩ := lastIndexOfLine_found hfound
        refine ⟨fun byte hbyte => ?_, .inr ?_⟩
        · rw [hnewline] at hbyte
          rw [← Option.some.inj hbyte]
          exact isContinuation_newline
        · have hall : bytes.take (bytes.length - 1 + 1) = bytes :=
            take_of_length_le (by omega)
          have hsplit := congrArg (count NEWLINE) (take_append_drop found bytes)
          rw [count_append] at hsplit
          rw [hall] at hcount
          omega
  have hdecode : encode (decode (bytes.drop (max byteStart lineStart))) =
      bytes.drop (max byteStart lineStart) := by
    subst hbytes
    exact Utf8.encode_decode_drop text hstart.1
  refine ⟨(Utf8.wellFormed_decode _).whole, ⟨bytes.take (max byteStart lineStart), ?_⟩, ?_⟩
  · rw [hdecode, take_append_drop]
  · rw [hdecode]
    exact hstart.2

end

end KnightCode.Bounded
