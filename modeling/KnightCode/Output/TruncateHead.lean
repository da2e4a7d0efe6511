import KnightCode.Library.Pointwise
import KnightCode.Output.Truncate

/-!
# Truncating a file from its start

Of a file that is longer than a number of lines or of bytes, as many whole lines from the start are
shown as fit; none when the first line alone does not. What is shown depends on the lines only up
to the first one that exceeds a limit, and on a line over the byte limit only through its being so.
-/

namespace KnightCode.Output

open List Option
variable {lines : List (List Char)}

structure HeadTruncation extends TruncationResult where
  firstLineExceedsLimit : Bool

/-- What the loop over the lines has collected. -/
structure HeadCollected where
  outputLines : List (List Char)
  outputBytes : ℕ
  truncatedBy : TruncatedBy

section

variable (maxLines maxBytes : ℕ)

def HeadCollected.lineBytes (s : HeadCollected) (line : List Char) : ℕ :=
  byteLength line + if 0 < s.outputLines.length then 1 else 0

def HeadCollected.push (s : HeadCollected) (line : List Char) : HeadCollected :=
  { s with
    outputLines := s.outputLines ++ [line]
    outputBytes := s.outputBytes + s.lineBytes line }

/-- The loop, over the lines from the first one on. -/
def collectHead (s : HeadCollected) : List (List Char) → HeadCollected
  | [] => s
  | line :: lines =>
    if s.outputLines.length < maxLines then
      if maxBytes < s.outputBytes + s.lineBytes line then { s with truncatedBy := .bytes }
      else collectHead (s.push line) lines
    else s

def HeadCollected.start : HeadCollected :=
  ⟨[], 0, .lines⟩

def truncateHead (content : List Char) : HeadTruncation :=
  let totalBytes := byteLength content
  let lines := splitLinesForCounting content
  let totalLines := lines.length
  if fits maxLines maxBytes content then
    { content, truncated := false, truncatedBy := none, totalLines, totalBytes,
      outputLines := totalLines, outputBytes := totalBytes, lastLinePartial := false, maxLines,
      maxBytes, firstLineExceedsLimit := false }
  else if maxBytes < byteLength (lines.headD []) then
    { content := [], truncated := true, truncatedBy := some .bytes, totalLines, totalBytes,
      outputLines := 0, outputBytes := 0, lastLinePartial := false, maxLines, maxBytes,
      firstLineExceedsLimit := true }
  else
    let s := collectHead maxLines maxBytes .start lines
    let truncatedBy :=
      if maxLines ≤ s.outputLines.length ∧ s.outputBytes ≤ maxBytes then .lines else s.truncatedBy
    let outputContent := join s.outputLines
    { content := outputContent, truncated := true, truncatedBy := some truncatedBy, totalLines,
      totalBytes, outputLines := s.outputLines.length, outputBytes := byteLength outputContent,
      lastLinePartial := false, maxLines, maxBytes, firstLineExceedsLimit := false }

end

/-! ### The lines of lines joined -/

def counted (lines : List (List Char)) : List (List Char) :=
  if lines.getLast? = some [] then lines.dropLast else lines

theorem join_ne_nil {line : List Char} (hne : line ≠ []) : join (lines ++ [line]) ≠ [] := by
  have hle := byteLength_join_append lines [line]
  intro hnil
  rw [hnil, join, intercalate_singleton, byteLength_nil, Nat.le_zero] at hle
  cases line with
  | nil => exact hne rfl
  | cons c line =>
    have hpos := c.utf8Size_pos
    rw [byteLength_cons] at hle
    omega

theorem join_append {lines' : List (List Char)} (hne : lines ≠ []) (hne' : lines' ≠ []) :
    join (lines ++ lines') = join lines ++ '\n' :: join lines' := by
  induction lines with
  | nil => exact absurd rfl hne
  | cons line lines ih =>
    rcases eq_or_ne lines [] with rfl | hlines
    · have hsingle : join [line] = line := intercalate_singleton
      rw [singleton_append, join_cons_of_ne_nil line hne', hsingle]
    · have happend : lines ++ lines' ≠ [] := append_ne_nil_of_left_ne_nil hlines _
      rw [cons_append, join_cons_of_ne_nil line happend, ih hlines,
        join_cons_of_ne_nil line hlines, append_assoc, cons_append]

theorem split_join (hlines : ∀ line ∈ lines, '\n' ∉ line) (hne : lines ≠ []) :
    (join lines).splitOn '\n' = lines :=
  splitOn_intercalate '\n' hlines hne

theorem splitLinesForCounting_join (hlines : ∀ line ∈ lines, '\n' ∉ line) :
    splitLinesForCounting (join lines) = counted lines := by
  rcases eq_nil_or_concat' lines with rfl | ⟨before, line, rfl⟩
  · rfl
  · rw [counted, getLast?_concat, dropLast_concat]
    have hline : '\n' ∉ line := hlines line (mem_append_right _ (mem_singleton_self _))
    have hbefore : ∀ l ∈ before, '\n' ∉ l := fun l hl => hlines l (mem_append_left _ hl)
    by_cases hnil : line = []
    · subst hnil
      rw [if_pos rfl]
      rcases eq_or_ne before [] with rfl | hne
      · rfl
      · have hjoin : join (before ++ [[]]) = join before ++ ['\n'] := by
          rw [join_append hne (cons_ne_nil _ _)]
          rfl
        rw [hjoin, splitLinesForCounting_ended, split_join hbefore hne]
    · have hlast : (join (before ++ [line])).getLast? ≠ some '\n' := by
        have hsingle : join [line] = line := intercalate_singleton
        have hend : line.getLast? ≠ some '\n' := fun h => hline (mem_of_getLast? h)
        rcases eq_or_ne before [] with rfl | hne
        · rw [nil_append, hsingle]
          exact hend
        · rw [join_append hne (cons_ne_nil _ _), hsingle,
            getLast?_append_of_ne_nil _ (cons_ne_nil _ _), getLast?_cons,
            getLast?_eq_some_getLast hnil, getD_some,
            ← getLast?_eq_some_getLast hnil]
          exact hend
      have hopen : ¬some line = some [] := fun h => hnil (some.inj h)
      rw [splitLinesForCounting_open (join_ne_nil hnil) hlast, if_neg hopen,
        split_join hlines (append_ne_nil_of_right_ne_nil _ (cons_ne_nil _ _))]

/-! ### The loop over the lines -/

section

variable {maxLines maxBytes : ℕ} {s : HeadCollected}
variable {line : List Char} {lines stored : List (List Char)}

structure HeadCollected.Within (maxLines maxBytes : ℕ) (s : HeadCollected) : Prop where
  outputBytes_eq : s.outputBytes = byteLength (join s.outputLines)
  lines_le : s.outputLines.length ≤ maxLines
  bytes_le : s.outputBytes ≤ maxBytes

theorem byteLength_join_concat (lines : List (List Char)) (line : List Char) :
    byteLength (join (lines ++ [line])) =
      byteLength (join lines) + (byteLength line + if 0 < lines.length then 1 else 0) := by
  have hsingle : join [line] = line := intercalate_singleton
  rcases eq_or_ne lines [] with rfl | hne
  · rw [nil_append, hsingle]
    exact (zero_add _).symm
  · rw [join_append hne (cons_ne_nil _ _), hsingle, byteLength_append, byteLength_cons,
      byteLength_newline, if_pos (length_pos_iff.mpr hne)]
    omega

theorem byteLength_join_le (lines lines' : List (List Char)) :
    byteLength (join lines) ≤ byteLength (join (lines ++ lines')) := by
  induction lines' using reverseRecOn with
  | nil => rw [append_nil]
  | append_singleton lines' line ih =>
    rw [← append_assoc, byteLength_join_concat]
    omega

theorem HeadCollected.push_within (hs : s.Within maxLines maxBytes)
    (hlines : s.outputLines.length < maxLines)
    (hbytes : ¬maxBytes < s.outputBytes + s.lineBytes line) :
    (s.push line).Within maxLines maxBytes where
  outputBytes_eq := by
    rw [HeadCollected.push, byteLength_join_concat, ← hs.outputBytes_eq]
    rfl
  lines_le := by
    rw [HeadCollected.push, length_append, length_singleton]
    exact hlines
  bytes_le := not_lt.mp hbytes

theorem head_start_within (maxLines maxBytes : ℕ) :
    HeadCollected.start.Within maxLines maxBytes where
  outputBytes_eq := rfl
  lines_le := Nat.zero_le _
  bytes_le := Nat.zero_le _

/-- What the loop gives: the first lines that fit, and which limit stopped it. -/
structure HeadCollected.Collects (maxLines maxBytes : ℕ) (s : HeadCollected)
    (lines : List (List Char)) (s' : HeadCollected) : Prop where
  within : s'.Within maxLines maxBytes
  outputs : ∃ taken rest, lines = taken ++ rest ∧ s'.outputLines = s.outputLines ++ taken ∧
    (rest = [] ∧ s'.truncatedBy = s.truncatedBy ∨ s'.outputLines.length = maxLines ∧ s'.truncatedBy
      = s.truncatedBy ∨ s'.outputLines.length < maxLines ∧ s'.truncatedBy = .bytes ∧ ∃ line more,
      rest = line :: more ∧ maxBytes < byteLength (join (s'.outputLines ++ [line])))

theorem collectHead_collects (hs : s.Within maxLines maxBytes) (lines : List (List Char)) :
    s.Collects maxLines maxBytes lines (collectHead maxLines maxBytes s lines) := by
  induction lines generalizing s with
  | nil => exact ⟨hs, [], [], rfl, (append_nil _).symm, .inl ⟨rfl, rfl⟩⟩
  | cons line lines ih =>
    rw [collectHead]
    split_ifs with hlines hbytes
    · refine ⟨⟨hs.outputBytes_eq, hs.lines_le, hs.bytes_le⟩, [], line :: lines, rfl,
        (append_nil _).symm, .inr (.inr ⟨hlines, rfl, line, lines, rfl, ?_⟩)⟩
      rw [byteLength_join_concat, ← hs.outputBytes_eq]
      exact hbytes
    · obtain ⟨hwithin, taken, rest, rfl, houtput, hends⟩ :=
        ih (HeadCollected.push_within hs hlines hbytes)
      refine ⟨hwithin, line :: taken, rest, rfl, ?_, hends⟩
      rw [houtput, HeadCollected.push, append_assoc]
      rfl
    · exact ⟨hs, [], line :: lines, rfl, (append_nil _).symm,
        .inr (.inl ⟨le_antisymm hs.lines_le (not_lt.mp hlines), rfl⟩)⟩

/-- The lines exceed a limit. -/
def Exceeds (maxLines maxBytes : ℕ) (lines : List (List Char)) : Prop :=
  maxLines < lines.length ∨ maxBytes < byteLength (join lines)

theorem collectHead_exceeds (hs : s.Within maxLines maxBytes)
    (hexceeds : Exceeds maxLines maxBytes (s.outputLines ++ lines)) (more : List (List Char)) :
    collectHead maxLines maxBytes s (lines ++ more) = collectHead maxLines maxBytes s lines := by
  induction lines generalizing s with
  | nil =>
    rw [append_nil] at hexceeds
    rcases hexceeds with hlines | hbytes
    · exact absurd hs.lines_le (not_le.mpr hlines)
    · rw [← hs.outputBytes_eq] at hbytes
      exact absurd hs.bytes_le (not_le.mpr hbytes)
  | cons line lines ih =>
    rw [cons_append, collectHead, collectHead]
    split_ifs with hlines hbytes
    · rfl
    · refine ih (HeadCollected.push_within hs hlines hbytes) ?_
      rw [HeadCollected.push, append_assoc]
      exact hexceeds
    · rfl

/-- A line that stands for another: the same one, or both are over the byte limit. -/
def Stands (maxBytes : ℕ) (stored line : List Char) : Prop :=
  stored = line ∨ maxBytes < byteLength stored ∧ maxBytes < byteLength line

theorem collectHead_stands (hstands : List.Forall₂ (Stands maxBytes) stored lines)
    (s : HeadCollected) :
    collectHead maxLines maxBytes s stored = collectHead maxLines maxBytes s lines := by
  induction hstands generalizing s with
  | nil => rfl
  | cons hline _ ih =>
    rw [collectHead, collectHead]
    rcases hline with rfl | ⟨hstored, hline⟩
    · rw [ih]
    · have hover : ∀ line : List Char, maxBytes < byteLength line →
          maxBytes < s.outputBytes + s.lineBytes line := fun line hlt =>
        hlt.trans_le ((Nat.le_add_right _ _).trans (Nat.le_add_left _ _))
      rw [if_pos (hover _ hstored), if_pos (hover _ hline)]

theorem byteLength_le_join_of_mem (hmem : line ∈ lines) :
    byteLength line ≤ byteLength (join lines) := by
  induction lines with
  | nil => cases hmem
  | cons other lines ih =>
    rw [byteLength_join_cons]
    rcases mem_cons.mp hmem with rfl | hmem
    · omega
    · have hle := ih hmem
      omega

theorem eq_of_stands (hstands : List.Forall₂ (Stands maxBytes) stored lines)
    (hfits : byteLength (join stored) ≤ maxBytes ∨ byteLength (join lines) ≤ maxBytes) :
    stored = lines := by
  induction hstands with
  | nil => rfl
  | @cons line line' stored lines hline _ ih =>
    rcases hline with rfl | ⟨hstored, hover⟩
    · rw [byteLength_join_cons, byteLength_join_cons] at hfits
      rw [ih (by omega)]
    · have hle := byteLength_le_join_of_mem (mem_cons_self (a := line) (l := stored))
      have hle' := byteLength_le_join_of_mem (mem_cons_self (a := line') (l := lines))
      omega

/-- Stored lines stand for all lines: one for one, up to one behind those that exceed a limit. -/
def Represents (maxLines maxBytes : ℕ) (stored lines : List (List Char)) : Prop :=
  ∃ first rest, lines = first ++ rest ∧ List.Forall₂ (Stands maxBytes) stored first ∧
    (rest = [] ∨ ∃ before last, stored = before ++ [last] ∧ Exceeds maxLines maxBytes before)

theorem Stands.over {stored : List Char} (h : Stands maxBytes stored line) :
    maxBytes < byteLength stored ↔ maxBytes < byteLength line := by
  rcases h with rfl | ⟨hstored, hline⟩
  · rfl
  · exact iff_of_true hstored hline

theorem Stands.eq_nil {stored : List Char} (h : Stands maxBytes stored line) :
    stored = [] ↔ line = [] := by
  rcases h with rfl | ⟨hstored, hline⟩
  · rfl
  · constructor
    · rintro rfl
      exact absurd hstored (Nat.not_lt_zero _)
    · rintro rfl
      exact absurd hline (Nat.not_lt_zero _)

theorem exceeds_stands (hstands : List.Forall₂ (Stands maxBytes) stored lines)
    (hexceeds : Exceeds maxLines maxBytes stored) : Exceeds maxLines maxBytes lines := by
  rcases hexceeds with hlines | hbytes
  · exact .inl (hlines.trans_eq hstands.length_eq)
  · by_cases hfits : byteLength (join lines) ≤ maxBytes
    · rw [eq_of_stands hstands (.inr hfits)] at hbytes
      exact .inr hbytes
    · exact .inr (not_le.mp hfits)

theorem counted_stands (hstands : List.Forall₂ (Stands maxBytes) stored lines) :
    List.Forall₂ (Stands maxBytes) (counted stored) (counted lines) := by
  rcases eq_nil_or_concat' stored with rfl | ⟨before, last, rfl⟩
  · rw [forall₂_nil_left_iff.mp hstands]
    exact .nil
  · obtain ⟨before', last', rfl, hbefore, hlast⟩ := Pointwise.exists_concat hstands
    rw [counted, counted, getLast?_concat, getLast?_concat, dropLast_concat, dropLast_concat]
    by_cases h : last = []
    · rw [if_pos (congrArg some h), if_pos (congrArg some (hlast.eq_nil.mp h))]
      exact hbefore
    · rw [if_neg fun h' => h (some.inj h'),
        if_neg fun h' => h (hlast.eq_nil.mpr (some.inj h'))]
      exact hstands

variable {more : List (List Char)}

theorem counted_append (lines : List (List Char)) (hne : more ≠ []) :
    ∃ rest, counted (lines ++ more) = lines ++ rest := by
  rw [counted]
  split_ifs
  · exact ⟨more.dropLast, dropLast_append_of_ne_nil hne⟩
  · exact ⟨more, rfl⟩

theorem fits_join (hlines : ∀ line ∈ lines, '\n' ∉ line) :
    fits maxLines maxBytes (join lines) ↔
      (counted lines).length ≤ maxLines ∧ byteLength (join lines) ≤ maxBytes := by
  rw [fits, splitLinesForCounting_join hlines]

theorem not_fits_exceeds (hne : more ≠ []) (hlines : ∀ line ∈ lines ++ more, '\n' ∉ line)
    (hexceeds : Exceeds maxLines maxBytes lines) :
    ¬fits maxLines maxBytes (join (lines ++ more)) := by
  obtain ⟨rest, hrest⟩ := counted_append lines hne
  rw [fits_join hlines, hrest, length_append]
  have hle := byteLength_join_le lines more
  rcases hexceeds with hlong | hlong
  · omega
  · omega

theorem truncateHead_congr {content content' : List Char}
    (hfits : ¬fits maxLines maxBytes content) (hfits' : ¬fits maxLines maxBytes content')
    (hfirst : maxBytes < byteLength ((splitLinesForCounting content).headD []) ↔
      maxBytes < byteLength ((splitLinesForCounting content').headD []))
    (hloop : collectHead maxLines maxBytes .start (splitLinesForCounting content) =
      collectHead maxLines maxBytes .start (splitLinesForCounting content')) :
    { truncateHead maxLines maxBytes content with
      totalLines := (splitLinesForCounting content').length
      totalBytes := byteLength content' } = truncateHead maxLines maxBytes content' := by
  rw [truncateHead, truncateHead]
  dsimp only
  rw [if_neg hfits, if_neg hfits', hloop]
  by_cases hover : maxBytes < byteLength ((splitLinesForCounting content').headD [])
  · rw [if_pos hover, if_pos (hfirst.mpr hover)]
  · rw [if_neg hover, if_neg fun h => hover (hfirst.mp h)]

theorem headD_append (hne : lines ≠ []) (more : List (List Char)) :
    (lines ++ more).headD [] = lines.headD [] := by
  cases lines with
  | nil => exact absurd rfl hne
  | cons line lines => rfl

theorem headD_stands (hstands : List.Forall₂ (Stands maxBytes) stored lines) :
    maxBytes < byteLength (stored.headD []) ↔ maxBytes < byteLength (lines.headD []) := by
  cases hstands with
  | nil => rfl
  | cons hline _ => exact hline.over

theorem Exceeds.ne_nil (h : Exceeds maxLines maxBytes lines) : lines ≠ [] := by
  rintro rfl
  rcases h with h | h
  · exact absurd h (Nat.not_lt_zero _)
  · exact absurd h (Nat.not_lt_zero _)

theorem truncateHead_represents (hrepresents : Represents maxLines maxBytes stored lines)
    (hstored : ∀ line ∈ stored, '\n' ∉ line) (hlines : ∀ line ∈ lines, '\n' ∉ line) :
    { truncateHead maxLines maxBytes (join stored) with
      totalLines := (counted lines).length
      totalBytes := byteLength (join lines) } = truncateHead maxLines maxBytes (join lines) := by
  obtain ⟨first, rest, rfl, hstands, hrest⟩ := hrepresents
  rcases hrest with rfl | ⟨before, last, rfl, hexceeds⟩
  · -- every line is stored
    rw [append_nil] at hlines ⊢
    by_cases hfits : byteLength (join stored) ≤ maxBytes ∨ byteLength (join first) ≤ maxBytes
    · obtain rfl := eq_of_stands hstands hfits
      rw [← splitLinesForCounting_join hstored, truncateHead]
      dsimp only
      split_ifs <;> rfl
    · push Not at hfits
      rw [← splitLinesForCounting_join hlines]
      refine truncateHead_congr (not_fits hfits.1) (not_fits hfits.2) ?_ ?_
      · rw [splitLinesForCounting_join hstored, splitLinesForCounting_join hlines]
        exact headD_stands (counted_stands hstands)
      · rw [splitLinesForCounting_join hstored, splitLinesForCounting_join hlines]
        exact collectHead_stands (counted_stands hstands) _
  · -- the lines up to the last stored one exceed a limit
    obtain ⟨before', last', rfl, hbefore, hlast⟩ := Pointwise.exists_concat hstands
    have hexceeds' := exceeds_stands hbefore hexceeds
    rw [append_assoc] at hlines ⊢
    have hmore : [last'] ++ rest ≠ [] := cons_ne_nil _ _
    obtain ⟨more, hcounted⟩ := counted_append before (cons_ne_nil last [])
    obtain ⟨more', hcounted'⟩ := counted_append before' hmore
    rw [← splitLinesForCounting_join hlines]
    refine truncateHead_congr (not_fits_exceeds (cons_ne_nil _ _) hstored hexceeds)
      (not_fits_exceeds hmore hlines hexceeds') ?_ ?_
    · rw [splitLinesForCounting_join hstored, splitLinesForCounting_join hlines, hcounted,
        hcounted', headD_append hexceeds.ne_nil, headD_append hexceeds'.ne_nil]
      exact headD_stands hbefore
    · rw [splitLinesForCounting_join hstored, splitLinesForCounting_join hlines, hcounted,
        hcounted', collectHead_exceeds (head_start_within _ _) hexceeds,
        collectHead_exceeds (head_start_within _ _) hexceeds', collectHead_stands hbefore]

end

end KnightCode.Output
