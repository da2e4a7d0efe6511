import KnightCode.Editor.Reference

/-!
# Deletions in the text and in the reference

What an operation takes out of the text is a range. Where its end in the line is between two units
the reference loses the units that are shown there, and the text that is left is theirs.
-/

namespace KnightCode.Editor

open List Slices

variable {host : Host} {e : Editor} {g : Gap Piece}

/-- The range goes from the text. -/
def takenOut (e : Editor) : Gap.Range → Editor
  | .back start =>
    (e.setLine (sliceTo e.state.currentLine start ++ e.state.afterCursor)).setCursorCol start
  | .onward count =>
    e.setLine (e.state.beforeCursor ++ sliceFrom e.state.currentLine (e.state.cursorCol + count))
  | .previous => e.mergeWithPrevious
  | .next => e.mergeWithNext
  | .nothing => e

def takenText (e : Editor) : Gap.Range → Text
  | .back start => Slices.slice e.state.currentLine start e.state.cursorCol
  | .onward count =>
    Slices.slice e.state.currentLine e.state.cursorCol (e.state.cursorCol + count)
  | .previous => [newline]
  | .next => [newline]
  | .nothing => []

/-- The reference without the range shows the text without it. -/
structure TakesOut (e : Editor) (g : Gap Piece) (r : Gap.Range) : Prop where
  state : (e.takenOut r).state = gapState ((g.without Piece.shown (.char newline) r).1.flat Piece.shown)
  text : e.takenText r = shown (g.without Piece.shown (.char newline) r).2

theorem without_back {kept removed : List Piece} (h : g.before = kept ++ removed) :
    g.without Piece.shown (.char newline) (.back (shown kept).length) =
      (⟨g.above, kept, g.after, g.below⟩, removed) := by
  have hcut := Gap.cut_append piece_shown_ne_nil kept removed
  rw [Gap.without, h]
  change ((⟨g.above, (Gap.cut Piece.shown (kept.flatMap Piece.shown).length (kept ++ removed)).1,
    g.after, g.below⟩ : Gap Piece), _) = _
  rw [hcut]
  exact congrArg (_, ·) (congrArg Prod.snd hcut)

theorem without_onward {removed kept : List Piece} (h : g.after = removed ++ kept) :
    g.without Piece.shown (.char newline) (.onward (shown removed).length) =
      (⟨g.above, g.before, kept, g.below⟩, removed) := by
  have hcut := Gap.cut_append piece_shown_ne_nil removed kept
  rw [Gap.without, h]
  change ((⟨g.above, g.before, (Gap.cut Piece.shown (removed.flatMap Piece.shown).length
    (removed ++ kept)).2, g.below⟩ : Gap Piece), _) = _
  rw [hcut]
  exact congrArg (_, ·) (congrArg Prod.fst hcut)

theorem backRange_takes (h : e.state = gapState (g.flat Piece.shown)) {start : ℤ}
    (hfits : 0 < e.state.cursorCol → ∃ kept removed, g.before = kept ++ removed ∧
      start = (shown kept).length) : TakesOut e g (e.backRange start) := by
  obtain ⟨above, before, after, below⟩ := g
  rw [backRange]
  split_ifs with hcol hline
  · obtain ⟨kept, removed, rfl, rfl⟩ := hfits hcol
    have hshown : e.state = gapState ⟨above.map shown, shown kept ++ shown removed, shown after,
        below.map shown⟩ := by
      rw [h, ← shown_append]
      rfl
    have hstart : e.state.cursorCol - ((shown removed).length : ℤ) = (shown kept).length := by
      rw [hshown, gapState_cursorCol, length_append]
      push_cast
      omega
    have htake := takeBefore_gap hshown rfl
    rw [hstart] at htake
    rw [Int.toNat_natCast]
    refine ⟨?_, ?_⟩
    · rw [without_back rfl]
      exact htake
    · have hslice := Slices.slice_append (shown kept) (shown removed) (shown after)
      rw [without_back rfl, takenText, hshown, gapState_currentLine, gapState_cursorCol,
        append_assoc, length_append]
      exact hslice
  · rw [h, gapState_cursorCol] at hcol
    rw [h, gapState_cursorLine] at hline
    obtain rfl : before = [] := by
      change ¬0 < ((shown before).length : ℤ) at hcol
      exact shown_eq_nil.mp (length_eq_zero_iff.mp (by omega))
    rcases eq_nil_or_concat' above with rfl | ⟨above, previous, rfl⟩
    · simp at hline
    · have hshown : e.state = gapState ⟨above.map shown ++ [shown previous], [], shown after,
          below.map shown⟩ := by
        rw [h]
        simp [Gap.flat]
        rfl
      refine ⟨?_, ?_⟩
      · have hmerged := mergeWithPrevious_gap hshown
        rw [Gap.without, getLast?_concat, dropLast_concat, takenOut]
        rw [hmerged]
        simp [Gap.flat]
        rfl
      · rw [Gap.without, getLast?_concat]
        rfl
  · exact ⟨h, rfl⟩

theorem onwardRange_takes (h : e.state = gapState (g.flat Piece.shown)) {stop : ℤ}
    (hfits : e.state.cursorCol < e.state.currentLine.length → ∃ removed kept,
      g.after = removed ++ kept ∧ stop = e.state.cursorCol + (shown removed).length) :
    TakesOut e g (e.onwardRange stop) := by
  obtain ⟨above, before, after, below⟩ := g
  rw [onwardRange]
  split_ifs with hcol hline
  · obtain ⟨removed, kept, rfl, rfl⟩ := hfits hcol
    have hshown : e.state = gapState ⟨above.map shown, shown before, shown removed ++ shown kept,
        below.map shown⟩ := by
      rw [h, ← shown_append]
      rfl
    have htake := takeAfter_gap hshown rfl
    rw [show e.state.cursorCol + ((shown removed).length : ℤ) - e.state.cursorCol =
      ((shown removed).length : ℤ) by omega, Int.toNat_natCast]
    refine ⟨?_, ?_⟩
    · rw [without_onward rfl]
      exact htake
    · have hslice := Slices.slice_append (shown before) (shown removed) (shown kept)
      rw [without_onward rfl, takenText, hshown, gapState_currentLine, gapState_cursorCol]
      exact hslice
  · obtain rfl : after = [] := by
      rw [h, gapState_cursorCol, gapState_currentLine, length_append] at hcol
      change ¬((shown before).length : ℤ) < ((shown before).length + (shown after).length : ℕ) at hcol
      exact shown_eq_nil.mp (length_eq_zero_iff.mp (by omega))
    cases below with
    | nil =>
      rw [h] at hline
      simp [Gap.lines, Gap.flat] at hline
    | cons next below =>
      have hshown : e.state = gapState ⟨above.map shown, shown before, [],
          shown next :: below.map shown⟩ := by
        rw [h]
        rfl
      have hmerged := mergeWithNext_gap hshown
      exact ⟨hmerged, rfl⟩
  · exact ⟨h, rfl⟩

/-! ### Kills -/

/-- The kill takes the range out of the text, and its text goes on the ring. -/
structure KillTakes (e e' : Editor) (k : Kill) (r : Gap.Range) : Prop where
  state : e'.state = (e.takenOut r).state
  ring : e'.killRing = e.killRing.push (e.takenText r) k.backward e.wasKill
  pastes : e'.pastes = e.pastes
  counter : e'.pasteCounter = e.pasteCounter
  action : r = .nothing ∨ e'.lastAction = some .kill

theorem killTakes_nothing (e : Editor) (k : Kill) : KillTakes e e.exitHistoryBrowsing k .nothing :=
  ⟨rfl, (KillRing.push_nil _ _ _).symm, rfl, rfl, .inl rfl⟩

theorem KillTakes.ite {e' e'' : Editor} {k : Kill} {r r' : Gap.Range} {P Q : Prop} [Decidable P]
    [Decidable Q] (hiff : P ↔ Q) (h : P → KillTakes e e' k r) (h' : ¬P → KillTakes e e'' k r') :
    KillTakes e (if P then e' else e'') k (if Q then r else r') := by
  by_cases hP : P
  · rw [if_pos hP, if_pos (hiff.mp hP)]
    exact h hP
  · rw [if_neg hP, if_neg (mt hiff.mpr hP)]
    exact h' hP

theorem deleteToStartOfLine_takes (e : Editor) :
    KillTakes e e.deleteToStartOfLine .toStartOfLine (e.backRange 0) := by
  have hline : sliceTo e.state.currentLine ((0 : ℤ).toNat : ℤ) = [] := by
    simp [sliceTo, position]
  have htext : Slices.slice e.state.currentLine ((0 : ℤ).toNat : ℤ) e.state.cursorCol =
      e.state.beforeCursor := by
    simp [Slices.slice, position, EditorState.beforeCursor]
  rw [deleteToStartOfLine, backRange]
  refine .ite Iff.rfl (fun _ => ⟨?_, ?_, rfl, rfl, .inr rfl⟩) fun _ => ?_
  · rw [takenOut, hline]
    rfl
  · rw [takenText, htext]
    rfl
  · exact .ite Iff.rfl (fun _ => ⟨rfl, rfl, rfl, rfl, .inr rfl⟩) fun _ => killTakes_nothing e _

theorem deleteToEndOfLine_takes (h : e.state.CursorWithin) :
    KillTakes e e.deleteToEndOfLine .toEndOfLine (e.onwardRange e.state.currentLine.length) := by
  obtain ⟨-, hnonneg, hle⟩ := h
  have hcount : e.state.cursorCol + (((e.state.currentLine.length : ℤ) - e.state.cursorCol).toNat : ℤ) =
      e.state.currentLine.length := by
    omega
  rw [deleteToEndOfLine, onwardRange]
  refine .ite Iff.rfl (fun _ => ⟨?_, ?_, rfl, rfl, .inr rfl⟩) fun _ => ?_
  · rw [takenOut, hcount, sliceFrom_length, append_nil]
    rfl
  · rw [takenText, hcount, Slices.slice, sliceTo_length]
    rfl
  · exact .ite Iff.rfl (fun _ => ⟨rfl, rfl, rfl, rfl, .inr rfl⟩) fun _ => killTakes_nothing e _

theorem deleteWordBackwards_takes (h : e.state.CursorWithin) (hfind : 0 < e.state.cursorCol →
    0 ≤ findWordBackward (e.words host) e.state.currentLine e.state.cursorCol) :
    KillTakes e (e.deleteWordBackwards host) .wordBackwards
      (e.backRange (findWordBackward (e.words host) e.state.currentLine e.state.cursorCol)) := by
  obtain ⟨-, hnonneg, -⟩ := h
  rw [backRange]
  by_cases hcol : 0 < e.state.cursorCol
  · have hstart := Int.toNat_of_nonneg (hfind hcol)
    rw [if_pos hcol, deleteWordBackwards_eq hcol.ne' hstart.symm]
    exact ⟨rfl, rfl, rfl, rfl, .inr rfl⟩
  · have hzero : e.exitHistoryBrowsing.state.cursorCol = 0 := le_antisymm (not_lt.mp hcol) hnonneg
    rw [if_neg hcol, deleteWordBackwards, if_pos hzero]
    exact .ite Iff.rfl (fun _ => ⟨rfl, rfl, rfl, rfl, .inr rfl⟩) fun _ => killTakes_nothing e _

theorem deleteWordForward_takes (hfind : e.state.cursorCol < e.state.currentLine.length →
    e.state.cursorCol ≤ findWordForward (e.words host) e.state.currentLine e.state.cursorCol) :
    KillTakes e (e.deleteWordForward host) .wordForward
      (e.onwardRange (findWordForward (e.words host) e.state.currentLine e.state.cursorCol)) := by
  rw [onwardRange]
  by_cases hcol : e.state.cursorCol < e.state.currentLine.length
  · have hstop : findWordForward (e.words host) e.state.currentLine e.state.cursorCol =
        e.state.cursorCol + ((findWordForward (e.words host) e.state.currentLine
          e.state.cursorCol - e.state.cursorCol).toNat : ℤ) := by
      have := hfind hcol
      omega
    rw [if_pos hcol, deleteWordForward_eq hcol hstop]
    exact ⟨rfl, rfl, rfl, rfl, .inr rfl⟩
  · have hend : (e.exitHistoryBrowsing.state.currentLine.length : ℤ) ≤
        e.exitHistoryBrowsing.state.cursorCol := not_lt.mp hcol
    rw [if_neg hcol, deleteWordForward, if_pos hend]
    exact .ite Iff.rfl (fun _ => ⟨rfl, rfl, rfl, rfl, .inr rfl⟩) fun _ => killTakes_nothing e _

end KnightCode.Editor
