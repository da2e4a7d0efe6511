import KnightCode.Editor.Segments
import KnightCode.Library.Gap
import Mathlib.Data.List.DropRight

/-!
# Word moves in one line

Backwards from the cursor white space is passed, and then a paste marker, the units of a word-like
segment behind its last ASCII punctuation, or a run of other segments; forwards the same, with the
units before the first punctuation. A move goes nowhere exactly when the segment next to the
cursor is word-like and has punctuation at its near end.
-/

namespace KnightCode.Editor

open List Slices

/-- `PUNCTUATION_REGEX`: ASCII punctuation without the underscore. -/
def isPunctuation (c : UInt16) : Bool :=
  (33 ≤ c && c ≤ 47) || (58 ≤ c && c ≤ 64) || (91 ≤ c && c ≤ 94) || c = 96 ||
    (123 ≤ c && c ≤ 126)

/-- The word segments of a text, and whether the one that begins at a place is word-like. -/
structure Words where
  segment : Text → List SegmentData
  isWordLike : Text → ℕ → Bool

def isBlank (seg : SegmentData) : Bool :=
  !isPasteMarker seg.segment && isWhitespaceChar seg.segment

/-- Neither a marker nor a word nor white space. -/
def isOther (wordLike : ℕ → Bool) (seg : SegmentData) : Bool :=
  !isPasteMarker seg.segment && !wordLike seg.index && !isWhitespaceChar seg.segment

/-- Units passed behind the white space, where the segments come in the order of the move. `cut`
is the part of a word that the move passes. -/
def pastBlanks (cut : Text → Text) (wordLike : ℕ → Bool) (segments : List SegmentData) : ℕ :=
  match segments with
  | [] => 0
  | next :: _ =>
    if isPasteMarker next.segment then next.segment.length
    else if wordLike next.index then (cut next.segment).length
    else units (segments.takeWhile (isOther wordLike))

def wordLength (cut : Text → Text) (wordLike : ℕ → Bool) (segments : List SegmentData) : ℕ :=
  units (segments.takeWhile isBlank) + pastBlanks cut wordLike (segments.dropWhile isBlank)

/-- The units of a word behind its last punctuation. -/
def behindPunctuation (segment : Text) : Text :=
  segment.rtakeWhile fun c => !isPunctuation c

/-- The units of a word before its first punctuation. -/
def beforePunctuation (segment : Text) : Text :=
  segment.takeWhile fun c => !isPunctuation c

def findWordBackward (words : Words) (text : Text) (cursor : ℤ) : ℤ :=
  if cursor ≤ 0 then 0
  else
    let textBeforeCursor := sliceTo text cursor
    cursor - wordLength behindPunctuation (words.isWordLike textBeforeCursor)
      (words.segment textBeforeCursor).reverse

def findWordForward (words : Words) (text : Text) (cursor : ℤ) : ℤ :=
  if text.length ≤ cursor then text.length
  else
    let textAfterCursor := sliceFrom text cursor
    cursor + wordLength beforePunctuation (words.isWordLike textAfterCursor)
      (words.segment textAfterCursor)

/-! ### How far a move goes -/

variable {cut : Text → Text} {wordLike : ℕ → Bool} {segments : List SegmentData}

theorem units_takeWhile_le (p : SegmentData → Bool) (segments : List SegmentData) :
    units (segments.takeWhile p) ≤ units segments := by
  have h := units_append (segments.takeWhile p) (segments.dropWhile p)
  rw [takeWhile_append_dropWhile] at h
  omega

theorem pastBlanks_le (hcut : ∀ t, (cut t).length ≤ t.length) :
    pastBlanks cut wordLike segments ≤ units segments := by
  cases segments with
  | nil => exact Nat.zero_le _
  | cons next rest =>
    have hnext := hcut next.segment
    rw [pastBlanks, units_cons]
    split_ifs
    · omega
    · omega
    · rw [← units_cons]
      apply units_takeWhile_le

theorem wordLength_le (hcut : ∀ t, (cut t).length ≤ t.length) :
    wordLength cut wordLike segments ≤ units segments := by
  have hpast : pastBlanks cut wordLike (segments.dropWhile isBlank) ≤ _ := pastBlanks_le hcut
  have h := units_append (segments.takeWhile isBlank) (segments.dropWhile isBlank)
  rw [takeWhile_append_dropWhile] at h
  rw [wordLength]
  omega

theorem behindPunctuation_le (t : Text) : (behindPunctuation t).length ≤ t.length :=
  (rtakeWhile_suffix _ _).length_le

theorem beforePunctuation_le (t : Text) : (beforePunctuation t).length ≤ t.length :=
  (takeWhile_sublist _).length_le

/-- The first segment on the way is a word that the move does not enter. -/
def stopsAt (cut : Text → Text) (wordLike : ℕ → Bool) (segments : List SegmentData) : Bool :=
  match segments with
  | [] => false
  | next :: _ =>
    !isBlank next && !isPasteMarker next.segment && wordLike next.index &&
      (cut next.segment).isEmpty

theorem wordLength_eq_zero (hsegments : segments ≠ []) (hne : ∀ seg ∈ segments, seg.segment ≠ []) :
    wordLength cut wordLike segments = 0 ↔ stopsAt cut wordLike segments = true := by
  obtain ⟨next, rest, rfl⟩ := exists_cons_of_ne_nil hsegments
  have hnext := hne next mem_cons_self
  rw [wordLength, stopsAt]
  cases hblank : isBlank next with
  | true =>
    rw [takeWhile_cons_of_pos hblank, units_cons]
    simp [hnext]
  | false =>
    have hskip : ¬isBlank next = true := by rw [hblank]; exact Bool.false_ne_true
    rw [takeWhile_cons_of_neg hskip, dropWhile_cons_of_neg hskip, pastBlanks]
    cases hmarker : isPasteMarker next.segment with
    | true => simp [hnext]
    | false =>
      cases hword : wordLike next.index with
      | true => simp
      | false =>
        have hother : isOther wordLike next = true := by
          rw [isBlank, hmarker] at hblank
          rw [isOther, hmarker, hword]
          simpa using hblank
        rw [if_neg (by simp), if_neg (by simp), takeWhile_cons_of_pos hother, units_cons]
        simp [hnext]

/-! ### Moves of the line -/

/-- The segments of a text are no longer than it, and none is empty. -/
structure Words.Lawful (words : Words) : Prop where
  le (t : Text) : units (words.segment t) ≤ t.length
  ne_nil (t : Text) : ∀ seg ∈ words.segment t, seg.segment ≠ []
  some (t : Text) (h : t ≠ []) : words.segment t ≠ []

variable {words : Words}

/-- The word a move backwards from behind `before` would pass is cut short at the cursor. -/
def Words.stopsBackward (words : Words) (before : Text) : Bool :=
  stopsAt behindPunctuation (words.isWordLike before) (words.segment before).reverse

/-- The word a move forwards from before `after` would pass is cut short at the cursor. -/
def Words.stopsForward (words : Words) (after : Text) : Bool :=
  stopsAt beforePunctuation (words.isWordLike after) (words.segment after)

theorem findWordBackward_passes (h : words.Lawful) {before : Text} (hbefore : before ≠ [])
    (after : Text) : ∃ kept passed, before = kept ++ passed ∧
      findWordBackward words (before ++ after) before.length = kept.length ∧
      (passed = [] ↔ words.stopsBackward before = true) := by
  have hpos : 0 < before.length := length_pos_iff.mpr hbefore
  have hle := h.le before
  have hlength : wordLength behindPunctuation (words.isWordLike before)
      (words.segment before).reverse ≤ _ := wordLength_le behindPunctuation_le
  rw [units_reverse] at hlength
  have hzero := @wordLength_eq_zero behindPunctuation (words.isWordLike before)
    (words.segment before).reverse (by simpa using h.some before hbefore)
    (fun seg hseg => h.ne_nil before seg (mem_reverse.mp hseg))
  rw [findWordBackward, if_neg (by omega)]
  dsimp only
  rw [sliceTo_append, Words.stopsBackward, ← hzero]
  generalize wordLength _ _ _ = n at hlength
  refine ⟨before.take (before.length - n), before.drop (before.length - n),
    (take_append_drop _ _).symm, ?_, ?_⟩
  · rw [length_take]
    omega
  · rw [drop_eq_nil_iff]
    omega

theorem findWordForward_passes (h : words.Lawful) (before : Text) {after : Text}
    (hafter : after ≠ []) : ∃ passed kept, after = passed ++ kept ∧
      findWordForward words (before ++ after) before.length = (before ++ passed).length ∧
      (passed = [] ↔ words.stopsForward after = true) := by
  have hpos : 0 < after.length := length_pos_iff.mpr hafter
  have hle := h.le after
  have hlength : wordLength beforePunctuation (words.isWordLike after)
      (words.segment after) ≤ _ := wordLength_le beforePunctuation_le
  have hzero := @wordLength_eq_zero beforePunctuation (words.isWordLike after)
    (words.segment after) (h.some after hafter) (h.ne_nil after)
  rw [findWordForward, if_neg (by rw [length_append]; omega)]
  dsimp only
  rw [sliceFrom_append, Words.stopsForward, ← hzero]
  generalize wordLength _ _ _ = n at hlength
  refine ⟨after.take n, after.drop n, (take_append_drop _ _).symm, ?_, ?_⟩
  · rw [length_append, length_take]
    omega
  · rw [take_eq_nil_iff]
    constructor
    · rintro (rfl | hnil)
      · rfl
      · exact absurd hnil hafter
    · exact .inl

end KnightCode.Editor
