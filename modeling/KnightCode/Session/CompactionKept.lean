import KnightCode.Session.Compaction

/-!
# What a compaction keeps

The cut splits the projected entries: those before it, apart from an earlier compaction, are
summarized, those behind it are kept. Kept from the id of the first one, they stand behind the new
compaction with the edits they had: an edit comes behind its target.
-/

namespace KnightCode.Session

open List Option Bool

variable {ρ : Type}

/-! ### Where the cut lies -/

section

variable {getTime : Text → Option ℤ} {estimateTokens : AgentMessage ρ → ℕ}
  {entries : Projected ρ} {startIndex endIndex : ℕ} {keepRecentTokens : ℤ}

def isPlainAt (entries : Projected ρ) (index : ℕ) : Bool :=
  entries[index]?.any fun entry => !entry.isCompaction

theorem mem_cutPointsFrom {index : ℕ} (h : index ∈ cutPointsFrom entries startIndex endIndex) :
    startIndex ≤ index ∧ isPlainAt entries index = true := by
  obtain ⟨hrange, hcut⟩ := mem_filter.mp h
  refine ⟨(mem_range'_1.mp hrange).1, ?_⟩
  rw [isPlainAt]
  cases hentry : entries[index]? with
  | none =>
    rw [hentry] at hcut
    cases hcut
  | some entry =>
    rw [hentry] at hcut
    exact (and_eq_true_iff.mp hcut).1

theorem cutAt_mem {cutPoints : List ℕ} (h : cutPoints ≠ []) (index : ℕ) :
    cutAt cutPoints index ∈ cutPoints := by
  rw [cutAt]
  cases hfind : cutPoints.find? fun candidate => index ≤ candidate with
  | some candidate => exact mem_of_find?_eq_some hfind
  | none =>
    rw [none_or, getLast?_eq_some_getLast h]
    exact getLast_mem h

theorem cutIndexOf_plain {cutPoints : List ℕ} (h : cutPoints ≠ [])
    (hmem : ∀ index ∈ cutPoints, startIndex ≤ index ∧ isPlainAt entries index = true) :
    startIndex ≤ cutIndexOf estimateTokens getTime entries startIndex entries.length
        keepRecentTokens cutPoints ∧
      isPlainAt entries (cutIndexOf estimateTokens getTime entries startIndex entries.length
        keepRecentTokens cutPoints) = true := by
  rw [cutIndexOf]
  cases budgetIndex estimateTokens entries startIndex keepRecentTokens 0 entries.length with
  | none =>
    obtain ⟨first, rest, rfl⟩ := exists_cons_of_ne_nil h
    exact hmem first mem_cons_self
  | some index =>
    obtain ⟨hstart, hplain⟩ := hmem _ (cutAt_mem h index)
    dsimp only
    generalize cutAt cutPoints index = cutIndex at *
    by_cases hsuffix : isRecoveryOmissionSuffix getTime
        ((entries.take entries.length).drop (cutIndex + 1)) = true
    · rw [if_pos hsuffix]
      refine ⟨hstart.trans (Nat.le_succ _), ?_⟩
      rw [take_length, isRecoveryOmissionSuffix, and_eq_true, and_eq_true] at hsuffix
      obtain ⟨⟨-, hany⟩, hall⟩ := hsuffix
      cases hget : entries[cutIndex + 1]? with
      | none =>
        rw [drop_eq_nil_of_le (getElem?_eq_none_iff.mp hget)] at hany
        cases hany
      | some entry =>
        have hentry : entry ∈ entries.drop (cutIndex + 1) := by
          refine mem_of_getElem? (show (entries.drop (cutIndex + 1))[0]? = some entry from ?_)
          rw [getElem?_drop]
          exact hget
        rw [isPlainAt, hget]
        exact (and_eq_true_iff.mp (all_eq_true.mp hall entry hentry)).1
    · rw [if_neg hsuffix]
      exact ⟨hstart, hplain⟩

theorem moveBack_spec {cutIndex : ℕ} (hstart : startIndex ≤ cutIndex)
    (hplain : isPlainAt entries cutIndex = true) :
    startIndex ≤ moveBack entries startIndex cutIndex ∧
      isPlainAt entries (moveBack entries startIndex cutIndex) = true := by
  induction cutIndex with
  | zero => exact ⟨hstart, hplain⟩
  | succ cutIndex ih =>
    rw [moveBack]
    split_ifs with hback
    · obtain ⟨hlt, hsilent⟩ := hback
      refine ih (Nat.le_of_lt_succ hlt) ?_
      rw [isPlainAt]
      cases hentry : entries[cutIndex]? with
      | none =>
        rw [hentry] at hsilent
        cases hsilent
      | some entry =>
        rw [hentry] at hsilent
        exact (and_eq_true_iff.mp hsilent).1
    · exact ⟨hstart, hplain⟩

theorem turnStart_bounds {index turnStartIndex : ℕ}
    (h : findProjectedTurnStartIndex entries startIndex index = some turnStartIndex) :
    startIndex ≤ turnStartIndex ∧ turnStartIndex ≤ index := by
  induction index with
  | zero =>
    rw [findProjectedTurnStartIndex] at h
    split_ifs at h with hzero
    cases h
    exact ⟨hzero.1.le, le_rfl⟩
  | succ index ih =>
    rw [findProjectedTurnStartIndex] at h
    split_ifs at h with hlt hturn
    · cases h
      exact ⟨not_lt.mp hlt, le_rfl⟩
    · obtain ⟨hstart, hle⟩ := ih h
      exact ⟨hstart, hle.trans (Nat.le_succ _)⟩

/-- The cut lies behind the start, at an entry that is no compaction; a turn that is split starts
between them. -/
theorem findProjectedCutPoint_spec (h : cutPointsFrom entries startIndex entries.length ≠ []) :
    startIndex ≤ (findProjectedCutPoint estimateTokens getTime entries startIndex entries.length
        keepRecentTokens).firstKeptEntryIndex ∧
      isPlainAt entries (findProjectedCutPoint estimateTokens getTime entries startIndex
        entries.length keepRecentTokens).firstKeptEntryIndex = true ∧
      ((findProjectedCutPoint estimateTokens getTime entries startIndex entries.length
          keepRecentTokens).isSplitTurn = true →
        ∃ turnStartIndex, (findProjectedCutPoint estimateTokens getTime entries startIndex
            entries.length keepRecentTokens).turnStartIndex = some turnStartIndex ∧
          startIndex ≤ turnStartIndex ∧ turnStartIndex ≤ (findProjectedCutPoint estimateTokens
            getTime entries startIndex entries.length keepRecentTokens).firstKeptEntryIndex) := by
  obtain ⟨hstart, hplain⟩ := @cutIndexOf_plain _ getTime estimateTokens entries startIndex
    keepRecentTokens _ h fun _ => mem_cutPointsFrom
  obtain ⟨hstart, hplain⟩ := moveBack_spec hstart hplain
  rw [findProjectedCutPoint, if_neg h]
  refine ⟨hstart, hplain, fun hsplit => ?_⟩
  obtain ⟨hturn, hsome⟩ := and_eq_true_iff.mp hsplit
  obtain ⟨turnStartIndex, hturnStart⟩ := isSome_iff_exists.mp hsome
  refine ⟨turnStartIndex, hturnStart, ?_⟩
  split_ifs at hturnStart
  exact turnStart_bounds hturnStart

end

/-! ### What is summarized and what is kept -/

structure Cuts (entries : Projected ρ) (preparation : CompactionPreparation ρ)
    (done : Projected ρ) (first : ProjectedSessionEntry ρ)
    (rest : Projected ρ) : Prop where
  split : entries = done ++ first :: rest
  start : boundaryStart entries ≤ done.length
  id : first.sourceEntry.id = preparation.firstKeptEntryId
  plain : first.isCompaction = false
  summarized : (done.drop (boundaryStart entries)).flatMap (·.conversation) =
    preparation.messagesToSummarize ++ preparation.turnPrefixMessages
  previousSummary : preparation.previousSummary = previousSummary entries

section

variable {getTime : Text → Option ℤ} {estimateTokens : AgentMessage ρ → ℕ}
  {entries : Projected ρ} {keepRecentTokens : ℤ}
  {preparation : CompactionPreparation ρ}

theorem slice_append_slice {α : Type} {l : List α} {a b c : ℕ} (hab : a ≤ b) (hbc : b ≤ c) :
    slice l a b ++ slice l b c = slice l a c := by
  rw [slice, slice, slice, ← take_append_drop (b - a) ((l.take c).drop a)]
  refine congrArg₂ _ ?_ ?_
  · rw [drop_take, drop_take, take_take, min_eq_left (by omega)]
  · rw [drop_drop, Nat.add_sub_cancel' hab]

theorem slice_self {α : Type} (l : List α) (a : ℕ) : slice l a a = [] := by
  rw [slice, drop_eq_nil_iff, length_take]
  exact min_le_left _ _

structure CutPointResult.Within (cutPoint : CutPointResult) (start : ℕ) : Prop where
  le : start ≤ cutPoint.firstKeptEntryIndex
  turn : cutPoint.isSplitTurn = true → ∃ turnStartIndex,
    cutPoint.turnStartIndex = some turnStartIndex ∧ start ≤ turnStartIndex ∧
      turnStartIndex ≤ cutPoint.firstKeptEntryIndex

theorem prepareAt_eq_some {start : ℕ} {cutPoint : CutPointResult} {summary : Option Text}
    (hcut : cutPoint.Within start)
    (h : prepareAt entries start cutPoint summary = some preparation) :
    ∃ first, entries[cutPoint.firstKeptEntryIndex]? = some first ∧
      first.sourceEntry.id = preparation.firstKeptEntryId ∧
      (slice entries start cutPoint.firstKeptEntryIndex).flatMap (·.conversation) =
        preparation.messagesToSummarize ++ preparation.turnPrefixMessages ∧
      preparation.messagesToSummarize ++ preparation.turnPrefixMessages ≠ [] ∧
      preparation.previousSummary = summary := by
  rw [prepareAt] at h
  cases hfirst : entries[cutPoint.firstKeptEntryIndex]? with
  | none =>
    rw [hfirst] at h
    cases h
  | some first =>
    rw [hfirst] at h
    dsimp only at h
    split_ifs at h with htruthy hsplit hempty hempty
    · cases h
      obtain ⟨turnStartIndex, hturn, hstart, hle⟩ := hcut.turn hsplit
      refine ⟨first, rfl, rfl, ?_, fun hnil => hempty (append_eq_nil_iff.mp hnil), rfl⟩
      dsimp only
      rw [hturn, getD_some, ← flatMap_append, slice_append_slice hstart hle]
    · cases h
      exact ⟨first, rfl, rfl, (append_nil _).symm,
        fun hnil => hempty (append_eq_nil_iff.mp hnil), rfl⟩

theorem prepareProjection_cuts
    (h : prepareProjection estimateTokens getTime entries keepRecentTokens = some preparation) :
    cutPointsFrom entries (boundaryStart entries) entries.length ≠ [] ∧
      ∃ first rest, Cuts entries preparation (entries.take
        (findProjectedCutPoint estimateTokens getTime entries (boundaryStart entries)
          entries.length keepRecentTokens).firstKeptEntryIndex) first rest := by
  rw [prepareProjection] at h
  by_cases hcuts : cutPointsFrom entries (boundaryStart entries) entries.length = []
  · have hcut : findProjectedCutPoint estimateTokens getTime entries (boundaryStart entries)
        entries.length keepRecentTokens = ⟨boundaryStart entries, none, false⟩ := if_pos hcuts
    rw [hcut] at h
    obtain ⟨first, -, -, hslice, hnonempty, -⟩ := prepareAt_eq_some
      ⟨le_rfl, fun hsplit => (by cases hsplit)⟩ h
    rw [slice_self] at hslice
    exact absurd hslice.symm hnonempty
  · obtain ⟨hstart, hplain, hturn⟩ := @findProjectedCutPoint_spec _ getTime estimateTokens entries
      (boundaryStart entries) keepRecentTokens hcuts
    obtain ⟨first, hfirst, hid, hslice, -, hsummary⟩ := prepareAt_eq_some ⟨hstart, hturn⟩ h
    generalize (findProjectedCutPoint estimateTokens getTime entries (boundaryStart entries)
      entries.length keepRecentTokens).firstKeptEntryIndex = cut at *
    obtain ⟨hlt, hget⟩ := List.getElem?_eq_some_iff.mp hfirst
    refine ⟨hcuts, first, entries.drop (cut + 1), ?_, ?_, hid, ?_, ?_, hsummary⟩
    · rw [← hget, cons_getElem_drop_succ, take_append_drop]
    · rw [length_take, min_eq_left hlt.le]
      exact hstart
    · rw [isPlainAt, hfirst] at hplain
      exact not_eq_true' _ ▸ hplain
    · exact hslice

end

end KnightCode.Session
