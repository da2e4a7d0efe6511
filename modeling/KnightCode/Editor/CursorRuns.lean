import KnightCode.Editor.KillRuns

/-!
# The cursor over whole runs

Every operation leaves the cursor in place that finds it there. What it relies on is kept along a
run: drafts and snapshots have their cursors in place, the columns kept for vertical moves are not
negative, and behind a yank the newest entry is where the yank has put it.
-/

namespace KnightCode.Editor

open List Option Slices

variable {host : Host} {e : Editor} {g : Gap UInt16}
variable {e' : Editor}

/-- The cursor is in place, and the columns kept for it are not negative. -/
structure Placed (e : Editor) : Prop where
  within : e.state.CursorWithin
  sticky : Sticky e

theorem placed_of_gap {col : ℤ} (h : (e.setCursorCol col).state = gapState g) :
    Placed (e.setCursorCol col) :=
  ⟨cursorWithin_iff.mpr ⟨g, h⟩, sticky_setCursorCol e col⟩

theorem placed_place {lines : List Text} {cursorLine : ℕ} {col : ℤ}
    (hline : cursorLine < lines.length) (hnonneg : 0 ≤ col)
    (hle : col ≤ (lines[cursorLine]?.getD []).length) : Placed (e.place lines cursorLine col) :=
  ⟨⟨hline, hnonneg, hle⟩, sticky_setCursorCol _ _⟩

theorem placed_setCursorCol (hline : e.state.cursorLine < e.state.lines.length) {col : ℤ}
    (hnonneg : 0 ≤ col) (hle : col ≤ e.state.currentLine.length) : Placed (e.setCursorCol col) :=
  ⟨⟨hline, hnonneg, hle⟩, sticky_setCursorCol _ _⟩

theorem Placed.moved (h : Placed e) (hwithin : e'.state.CursorWithin)
    (hpreferred : e'.preferredVisualCol = e.preferredVisualCol)
    (hsnapped : e'.snappedFromCursorCol = e.snappedFromCursorCol) : Placed e' := by
  refine ⟨hwithin, ?_, ?_⟩
  · rw [hpreferred]
    exact h.sticky.preferred
  · rw [hsnapped]
    exact h.sticky.snapped

theorem Placed.same (h : Placed e) (hstate : e'.state = e.state)
    (hpreferred : e'.preferredVisualCol = e.preferredVisualCol)
    (hsnapped : e'.snappedFromCursorCol = e.snappedFromCursorCol) : Placed e' :=
  h.moved (hstate ▸ h.within) hpreferred hsnapped

/-! ### Text coming in -/

theorem insertTextAtCursorInternal_placed (h : Placed e) (text : Text) :
    Placed (e.insertTextAtCursorInternal text) := by
  by_cases hne : text = []
  · rw [insertTextAtCursorInternal, if_pos hne]
    exact h
  · obtain ⟨g, hg⟩ := cursorWithin_iff.mp h.within
    refine ⟨cursorWithin_iff.mpr ⟨_, insertTextAtCursorInternal_gap hg hne⟩, ?_⟩
    rw [insertTextAtCursorInternal, if_neg hne]
    dsimp only
    split_ifs
    · exact sticky_setCursorCol _ _
    · exact sticky_setCursorCol _ _

theorem insertCharacter_placed (h : Placed e) (char : Text) : Placed (e.insertCharacter char) := by
  obtain ⟨g, hg⟩ := cursorWithin_iff.mp h.within
  exact ⟨cursorWithin_iff.mpr ⟨_, insertCharacter_gap hg char⟩, sticky_setCursorCol _ _⟩

theorem handlePaste_placed (h : Placed e) (text : Text) : Placed (e.handlePaste text) := by
  rw [handlePaste]
  dsimp only
  split_ifs
  · apply insertTextAtCursorInternal_placed
    exact h.same rfl rfl rfl
  · apply insertTextAtCursorInternal_placed
    exact h.same rfl rfl rfl

theorem addNewLine_placed (h : Placed e) : Placed e.addNewLine := by
  obtain ⟨g, hg⟩ := cursorWithin_iff.mp h.within
  exact ⟨cursorWithin_iff.mpr ⟨_, addNewLine_gap hg⟩, sticky_setCursorCol _ _⟩

theorem setTextInternal_placed (text : Text) (atStart : Bool) (e : Editor) :
    Placed (e.setTextInternal text atStart) := by
  refine ⟨setTextInternal_within text atStart e, ?_⟩
  rw [setTextInternal]
  split_ifs
  · exact sticky_setCursorCol _ _
  · exact sticky_setCursorCol _ _

theorem cursorOffset_within (item : AutocompleteItem) :
    0 ≤ cursorOffset item ∧ cursorOffset item ≤ item.value.length := by
  rw [cursorOffset]
  split_ifs with hdirectory
  · have := length_pos_of_mem (mem_of_getLast? hdirectory.2)
    omega
  · omega

theorem completedLine_within (s : EditorState) (item : AutocompleteItem) (typed : Text) :
    0 ≤ (completedLine s item typed).2 ∧
      (completedLine s item typed).2 ≤ (completedLine s item typed).1.length := by
  have hoffset := cursorOffset_within item
  rw [completedLine]
  dsimp only
  split_ifs
  all_goals
    simp only [length_append, length_cons, length_nil]
    omega

theorem applyCompletion_placed (h : Placed e) (item : AutocompleteItem) (typed : Text) :
    Placed (e.applyCompletion item typed) := by
  obtain ⟨hline, -, -⟩ := h.within
  obtain ⟨hnonneg, hle⟩ := completedLine_within e.state item typed
  apply placed_setCursorCol
  · change e.state.cursorLine < (e.state.lines.set e.state.cursorLine _).length
    rw [length_set]
    exact hline
  · exact hnonneg
  · have hcurrent : ((e.pushUndoSnapshot.acted none).setLine
        (completedLine e.state item typed).1).state.currentLine =
          (completedLine e.state item typed).1 := by
      change ((e.state.lines.set e.state.cursorLine _)[e.state.cursorLine]?).getD [] = _
      rw [getElem?_set_self hline, getD_some]
    rw [← hcurrent] at hle
    exact hle

/-! ### Deletions -/

theorem mergeWithPrevious_placed (hline : e.state.CursorWithin) (hcol : ¬0 < e.state.cursorCol)
    (hpos : 0 < e.state.cursorLine) : Placed e.mergeWithPrevious := by
  obtain ⟨⟨above, before, after, below⟩, hg⟩ := cursorWithin_iff.mp hline
  rw [hg, gapState_cursorCol] at hcol
  obtain rfl : before = [] := length_eq_zero_iff.mp (by dsimp only at hcol; omega)
  rcases eq_nil_or_concat' above with rfl | ⟨above, previous, rfl⟩
  · rw [hg] at hpos
    exact absurd hpos (lt_irrefl 0)
  · exact placed_of_gap (mergeWithPrevious_gap hg)

theorem mergeWithNext_within (hline : e.state.CursorWithin)
    (hcol : ¬e.state.cursorCol < e.state.currentLine.length)
    (hbelow : e.state.cursorLine + 1 < e.state.lines.length) :
    e.mergeWithNext.state.CursorWithin := by
  obtain ⟨⟨above, before, after, below⟩, hg⟩ := cursorWithin_iff.mp hline
  rw [hg, gapState_cursorCol, gapState_currentLine, length_append] at hcol
  obtain rfl : after = [] := length_eq_zero_iff.mp (by dsimp only at hcol; omega)
  cases below with
  | nil =>
    rw [hg] at hbelow
    simp [Gap.lines] at hbelow
  | cons next below => exact cursorWithin_iff.mpr ⟨_, mergeWithNext_gap hg⟩

theorem last_segment_le (hhost : host.Lawful) (e : Editor) (text : Text) :
    ∀ seg ∈ (e.segment host text).getLast?, seg.segment.length ≤ text.length := fun _ hseg =>
  (length_le_units (mem_of_getLast? hseg)).trans
    (units_le hhost.graphemes.cuts e.valid text)

theorem first_segment_le (hhost : host.Lawful) (e : Editor) {text : Text} (hne : text ≠ []) :
    ((e.segment host text).head?.map fun seg => seg.segment.length).getD 1 ≤ text.length := by
  obtain ⟨seg, rest, hsegs⟩ := exists_cons_of_ne_nil
    (segments_ne_nil hhost.graphemes.cuts e.valid hne)
  have hle := units_le hhost.graphemes.cuts e.valid text
  rw [hsegs, units_cons] at hle
  rw [segment, hsegs]
  exact (Nat.le_add_right _ _).trans hle

/-- No paste marker is right before the cursor. -/
def NoMarkerBefore (host : Host) (e : Editor) : Prop :=
  ∀ seg ∈ (e.segment host e.state.beforeCursor).getLast?, isPasteMarker seg.segment = false

theorem handleBackspace_placed (hhost : host.Lawful) (h : Placed e)
    (hmarker : e.NoMarkerBefore host) : Placed (e.handleBackspace host) := by
  rw [handleBackspace]
  dsimp only
  split_ifs with hcol hline
  · have hsegment : ((e.exitHistoryBrowsing.acted none).pushUndoSnapshot.segment host
        (e.exitHistoryBrowsing.acted none).pushUndoSnapshot.state.beforeCursor) =
          e.segment host e.state.beforeCursor := rfl
    rw [hsegment]
    cases hlast : (e.segment host e.state.beforeCursor).getLast? with
    | none => exact h.same rfl rfl rfl
    | some seg =>
      have hnone : markerId seg.segment = none := by
        rw [markerId, hmarker seg hlast]
        rfl
      have hle := last_segment_le hhost e e.state.beforeCursor seg hlast
      obtain ⟨⟨above, before, after, below⟩, hg⟩ := cursorWithin_iff.mp h.within
      rw [hg, gapState_beforeCursor] at hle
      dsimp only at hle ⊢
      rw [hnone]
      have hcut := take_append_drop (before.length - seg.segment.length) before
      rw [← hcut] at hg
      refine placed_of_gap (@takeBefore_gap (e.exitHistoryBrowsing.acted none).pushUndoSnapshot _ _
        _ _ _ hg _ ?_)
      rw [length_drop]
      omega
  · exact @mergeWithPrevious_placed (e.exitHistoryBrowsing.acted none).pushUndoSnapshot h.within
      hcol hline
  · exact h.same rfl rfl rfl

theorem handleForwardDelete_placed (hhost : host.Lawful) (h : Placed e) :
    Placed (e.handleForwardDelete host) := by
  obtain ⟨⟨above, before, after, below⟩, hg⟩ := cursorWithin_iff.mp h.within
  have hafter : e.state.afterCursor = after := by rw [hg, gapState_afterCursor]
  rw [handleForwardDelete]
  dsimp only
  split_ifs with hcol hbelow
  · have hne : after ≠ [] := by
      rintro rfl
      change e.state.cursorCol < e.state.currentLine.length at hcol
      rw [hg, gapState_cursorCol, gapState_currentLine, append_nil] at hcol
      exact lt_irrefl _ hcol
    have hle := first_segment_le hhost e hne
    rw [← hafter] at hle
    change Placed ((e.exitHistoryBrowsing.acted none).pushUndoSnapshot.setLine (e.state.beforeCursor
      ++ sliceFrom e.state.currentLine (e.state.cursorCol + ((((e.segment host
      e.state.afterCursor).head?.map fun seg => seg.segment.length).getD 1 : ℕ) : ℤ))))
    generalize (((e.segment host e.state.afterCursor).head?.map
      fun seg => seg.segment.length).getD 1) = n at hle ⊢
    rw [hafter] at hle
    rw [← take_append_drop n after] at hg
    refine h.moved (cursorWithin_iff.mpr ⟨_, @takeAfter_gap
      (e.exitHistoryBrowsing.acted none).pushUndoSnapshot _ _ _ _ _ hg _ ?_⟩) rfl rfl
    rw [length_take]
    omega
  · exact h.moved (@mergeWithNext_within (e.exitHistoryBrowsing.acted none).pushUndoSnapshot
      h.within hcol hbelow) rfl rfl
  · exact h.same rfl rfl rfl

/-! ### Kills and yanks -/

theorem kill_sticky (h : Sticky e) (host : Host) (k : Kill) : Sticky (e.kill host k) := by
  have hsame : ∀ {e' : Editor}, e'.preferredVisualCol = e.preferredVisualCol →
      e'.snappedFromCursorCol = e.snappedFromCursorCol → Sticky e' := by
    intro e' hpreferred hsnapped
    exact ⟨hpreferred ▸ h.preferred, hsnapped ▸ h.snapped⟩
  cases k with
  | toStartOfLine =>
    rw [kill, deleteToStartOfLine]
    split_ifs
    · exact sticky_setCursorCol _ _
    · exact sticky_setCursorCol _ _
    · exact hsame rfl rfl
  | toEndOfLine =>
    rw [kill, deleteToEndOfLine]
    split_ifs
    · exact hsame rfl rfl
    · exact hsame rfl rfl
    · exact hsame rfl rfl
  | wordBackwards =>
    rw [kill, deleteWordBackwards]
    dsimp only
    split_ifs
    · exact sticky_setCursorCol _ _
    · exact hsame rfl rfl
    · exact sticky_setCursorCol _ _
  | wordForward =>
    rw [kill, deleteWordForward]
    dsimp only
    split_ifs
    · exact hsame rfl rfl
    · exact hsame rfl rfl
    · exact ⟨fun _ hsome => (by cases hsome), fun _ hsome => (by cases hsome)⟩

theorem kill_placed (hhost : host.Lawful) (h : Placed e) (k : Kill) : Placed (e.kill host k) := by
  refine ⟨?_, kill_sticky h.sticky host k⟩
  obtain ⟨g, hg⟩ := cursorWithin_iff.mp h.within
  by_cases hreach : e.InReach k
  · obtain ⟨g', x, y, -, hkills⟩ := kill_kills hhost hg hreach
    exact cursorWithin_iff.mpr ⟨g', hkills.state⟩
  · rw [kill_of_not_inReach host hg hreach]
    exact h.within

theorem insertYankedText_placed (h : e.state.CursorWithin) (text : Text) :
    Placed (e.insertYankedText text) := by
  obtain ⟨g, hg⟩ := cursorWithin_iff.mp h
  refine ⟨cursorWithin_iff.mpr ⟨_, insertYankedText_gap hg text⟩, ?_⟩
  rw [insertYankedText]
  dsimp only
  split_ifs
  · exact sticky_setCursorCol _ _
  · exact sticky_setCursorCol _ _

theorem yank_placed (h : Placed e) : Placed e.yank := by
  rw [yank]
  cases e.killRing.peek with
  | none => exact h
  | some text =>
    exact (insertYankedText_placed (e := e.pushUndoSnapshot) h.within text).same rfl rfl rfl

theorem yankPop_placed (h : Placed e)
    (hyanked : e.lastAction = some .yank → ∃ g text, Yanked e g text) : Placed e.yankPop := by
  by_cases hpop : e.lastAction ≠ some .yank ∨ e.killRing.length ≤ 1
  · rw [yankPop, if_pos hpop]
    exact h
  · obtain ⟨g, text, hg⟩ := hyanked (not_not.mp (not_or.mp hpop).1)
    have hdeleted : e.pushUndoSnapshot.deleteYankedText.state = gapState g :=
      @deleteYankedText_gap e.pushUndoSnapshot g text hg.peek hg.state
    rw [yankPop, if_neg hpop]
    refine (insertYankedText_placed (e := { e.pushUndoSnapshot.deleteYankedText with
      killRing := e.pushUndoSnapshot.deleteYankedText.killRing.rotate }) ?_ _).same rfl rfl rfl
    exact cursorWithin_iff.mpr ⟨g, hdeleted⟩

theorem undo_placed (h : Placed e)
    (hundo : ∀ snapshot ∈ e.undoStack, snapshot.state.CursorWithin) : Placed e.undo := by
  rw [undo]
  cases hlast : e.exitHistoryBrowsing.undoStack.getLast? with
  | none => exact h.same rfl rfl rfl
  | some snapshot =>
    exact ⟨hundo snapshot (mem_of_getLast? hlast), fun _ hsome => (by cases hsome),
      h.sticky.snapped⟩

/-! ### Moves -/

theorem moveWordBackwards_placed (hhost : host.Lawful) (h : Placed e) :
    Placed (e.moveWordBackwards host) := by
  obtain ⟨⟨above, before, after, below⟩, hg⟩ := cursorWithin_iff.mp h.within
  have hline := h.within.1
  rw [moveWordBackwards]
  split_ifs with hcol hpos
  · apply placed_place
    · change e.state.cursorLine - 1 < e.state.lines.length
      omega
    · omega
    · exact le_rfl
  · exact h.same rfl rfl rfl
  · have hne : before ≠ [] := by
      rintro rfl
      apply hcol
      change e.state.cursorCol = 0
      rw [hg]
      rfl
    obtain ⟨kept, passed, rfl, hfind, -⟩ :=
      findWordBackward_passes (words_lawful hhost e) hne after
    have hcol' : findWordBackward ((e.acted none).words host) (e.acted none).state.currentLine
        (e.acted none).state.cursorCol = kept.length := by
      rw [← hfind]
      change findWordBackward (e.words host) e.state.currentLine e.state.cursorCol = _
      rw [hg, gapState_currentLine]
      rfl
    rw [hcol']
    apply placed_setCursorCol
    · exact hline
    · omega
    · change (kept.length : ℤ) ≤ e.state.currentLine.length
      rw [hg, gapState_currentLine, length_append, length_append]
      omega

theorem moveWordForwards_placed (hhost : host.Lawful) (h : Placed e) :
    Placed (e.moveWordForwards host) := by
  obtain ⟨⟨above, before, after, below⟩, hg⟩ := cursorWithin_iff.mp h.within
  rw [moveWordForwards]
  split_ifs with hcol hbelow
  · exact placed_place hbelow le_rfl (Int.natCast_nonneg _)
  · exact h.same rfl rfl rfl
  · have hne : after ≠ [] := by
      rintro rfl
      apply hcol
      change (e.state.currentLine.length : ℤ) ≤ e.state.cursorCol
      rw [hg, gapState_currentLine, append_nil]
      exact le_rfl
    obtain ⟨passed, kept, rfl, hfind, -⟩ :=
      findWordForward_passes (words_lawful hhost e) before hne
    have hcol' : findWordForward ((e.acted none).words host) (e.acted none).state.currentLine
        (e.acted none).state.cursorCol = (before ++ passed).length := by
      rw [← hfind]
      change findWordForward (e.words host) e.state.currentLine e.state.cursorCol = _
      rw [hg, gapState_currentLine]
      rfl
    rw [hcol']
    apply placed_setCursorCol
    · exact h.within.1
    · omega
    · change ((before ++ passed).length : ℤ) ≤ e.state.currentLine.length
      rw [hg, gapState_currentLine]
      simp only [length_append]
      omega

theorem moveLeft_placed (hhost : host.Lawful) (h : Placed e) : Placed (e.moveLeft host) := by
  obtain ⟨hline, hnonneg, hle⟩ := h.within
  rw [moveLeft]
  cases (e.acted none).buildVisualLineMap host with
  | none => exact h.same rfl rfl rfl
  | some visualLines =>
    dsimp only
    split_ifs with hcol hpos
    · have hlast : ((((e.segment host e.state.beforeCursor).getLast?.map
          fun seg => seg.segment.length).getD 1 : ℕ) : ℤ) ≤ e.state.cursorCol := by
        have hmem := last_segment_le hhost e e.state.beforeCursor
        change 0 < e.state.cursorCol at hcol
        cases hlast : (e.segment host e.state.beforeCursor).getLast? with
        | none =>
          rw [map_none, getD_none]
          omega
        | some seg =>
          have hseg := hmem seg hlast
          obtain ⟨g, hg⟩ := cursorWithin_iff.mp h.within
          rw [hg, gapState_beforeCursor] at hseg
          rw [map_some, getD_some, hg, gapState_cursorCol]
          exact_mod_cast hseg
      change Placed ((e.acted none).setCursorCol (e.state.cursorCol - ((((e.segment host
        e.state.beforeCursor).getLast?.map fun seg => seg.segment.length).getD 1 : ℕ) : ℤ)))
      apply placed_setCursorCol
      · exact hline
      · omega
      · change _ ≤ (e.state.currentLine.length : ℤ)
        omega
    · apply placed_place
      · change e.state.cursorLine - 1 < e.state.lines.length
        omega
      · omega
      · exact le_rfl
    · exact h.same rfl rfl rfl

theorem moveRight_placed (hhost : host.Lawful) (hwidth : 1 ≤ e.lastWidth)
    (hplain : e.WithoutMarkers) (h : Placed e) : Placed (e.moveRight host) := by
  obtain ⟨hline, hnonneg, hle⟩ := h.within
  rw [moveRight]
  cases hbuild : (e.acted none).buildVisualLineMap host with
  | none => exact h.same rfl rfl rfl
  | some visualLines =>
    dsimp only
    split_ifs with hcol hbelow
    · obtain ⟨g, hg⟩ := cursorWithin_iff.mp h.within
      have hne : e.state.afterCursor ≠ [] := by
        rw [hg, gapState_afterCursor]
        intro hnil
        change e.state.cursorCol < e.state.currentLine.length at hcol
        rw [hg, gapState_currentLine, hnil, append_nil] at hcol
        exact lt_irrefl _ hcol
      have hfirst := first_segment_le hhost e hne
      change Placed ((e.acted none).setCursorCol (e.state.cursorCol + ((((e.segment host
        e.state.afterCursor).head?.map fun seg => seg.segment.length).getD 1 : ℕ) : ℤ)))
      generalize ((e.segment host e.state.afterCursor).head?.map
        fun seg => seg.segment.length).getD 1 = n at hfirst ⊢
      apply placed_setCursorCol
      · exact hline
      · omega
      · change e.state.cursorCol + (n : ℤ) ≤ e.state.currentLine.length
        rw [hg, gapState_afterCursor] at hfirst
        rw [hg, gapState_cursorCol, gapState_currentLine, length_append]
        push_cast
        omega
    · exact placed_place hbelow le_rfl (Int.natCast_nonneg _)
    · cases hvl : visualLines[(e.acted none).findCurrentVisualLine visualLines]? with
      | none => exact h.same rfl rfl rfl
      | some currentVL =>
        obtain ⟨vl, hfound⟩ := build_find hhost.graphemes hwidth hplain hbuild hline hnonneg hle
        have hget := hfound.get
        obtain rfl : currentVL = vl := Option.some.inj (hvl.symm.trans hget)
        refine ⟨h.within, fun col hsome => ?_, h.sticky.snapped⟩
        cases hsome
        have := hfound.start
        change 0 ≤ e.state.cursorCol - (currentVL.startCol : ℤ)
        omega

/-- No marker is in the text, and no remembered column is past the end of the cursor's line and
left of where the last visual line begins. -/
structure VerticalMeets (e : Editor) (visualLines : List VisualLine) : Prop where
  plain : e.WithoutMarkers
  snapped : e.SnappedWithin visualLines

theorem MovesTo.placed {e' : Editor} (hmoves : MovesTo host e e') (hhost : host.Lawful)
    (hwidth : 1 ≤ e.lastWidth) (h : Placed e)
    (hmeets : ∀ visualLines, e.buildVisualLineMap host = some visualLines →
      VerticalMeets e visualLines) : Placed e' := by
  cases hmoves with
  | stays => exact h.same rfl rfl rfl
  | @goes visualLines hbuild target =>
    obtain ⟨hwithin, hsticky⟩ := @moveToVisualLine_within visualLines host (e.acted none)
      hhost.graphemes hwidth (hmeets visualLines hbuild).plain hbuild h.within
      ⟨h.sticky.preferred, h.sticky.snapped⟩ (hmeets visualLines hbuild).snapped target
    exact ⟨hwithin, hsticky⟩

theorem moveToLineEnd_placed (h : Placed e) : Placed e.moveToLineEnd := by
  apply placed_setCursorCol
  · exact h.within.1
  · exact Int.natCast_nonneg _
  · exact le_rfl

theorem moveToLineStart_placed (h : Placed e) : Placed e.moveToLineStart := by
  apply placed_setCursorCol
  · exact h.within.1
  · exact le_rfl
  · exact Int.natCast_nonneg _

theorem showHistory_placed {e : Editor} (hdraft : ∀ s, e.historyDraft = some s → s.CursorWithin)
    (newIndex direction : ℤ) : Placed (e.showHistory newIndex direction) := by
  rw [showHistory]
  dsimp only
  split_ifs
  · cases hdrafted : e.historyDraft with
    | none => exact setTextInternal_placed _ _ _
    | some draft =>
      exact ⟨hdraft draft hdrafted, fun _ hsome => (by cases hsome),
        fun _ hsome => (by cases hsome)⟩
  · exact setTextInternal_placed _ _ _

theorem navigateHistory_placed (h : Placed e)
    (hdraft : ∀ s, e.historyDraft = some s → s.CursorWithin) (direction : ℤ) :
    Placed (e.navigateHistory direction) := by
  rw [navigateHistory]
  split_ifs
  · exact h.same rfl rfl rfl
  · refine showHistory_placed (fun s hs => ?_) _ _
    cases hs
    exact h.within
  · exact @showHistory_placed (e.acted none) hdraft _ _

theorem segment_index_le (hhost : host.Lawful) (e : Editor) (text : Text) :
    ∀ seg ∈ e.segment host text, seg.index ≤ text.length := by
  obtain ⟨groups, hgroups, hspans⟩ := segmentWithMarkers_spans hhost.graphemes e.valid text
  have hle : ∀ {index : ℕ} {segs : List SegmentData} {groups : List (List Text)},
      Spans index segs groups → ∀ seg ∈ segs,
        seg.index ≤ index + groups.flatten.flatten.length := by
    intro index segs groups hspans
    induction hspans with
    | nil => exact fun _ hseg => (by cases hseg)
    | cons _ _ ih =>
      intro seg hseg
      rw [flatten_cons, flatten_append, length_append]
      rcases mem_cons.mp hseg with rfl | hseg
      · exact Nat.le_add_right _ _
      · have := ih seg hseg
        omega
  intro seg hseg
  have hseg' := hle hspans seg hseg
  rwa [hgroups, hhost.graphemes.flatten, zero_add] at hseg'

theorem clickedIndex_le (host : Host) (targetColumn length : ℕ) {segments : List SegmentData}
    (hsegments : ∀ seg ∈ segments, seg.index ≤ length) (visibleColumn : ℕ) {lastIndex : ℕ}
    (hlast : lastIndex ≤ length) :
    (clickedIndex host targetColumn length visibleColumn lastIndex segments).1 ≤ length ∧
      (clickedIndex host targetColumn length visibleColumn lastIndex segments).2 ≤ length := by
  induction segments generalizing visibleColumn lastIndex with
  | nil => exact ⟨le_rfl, hlast⟩
  | cons seg segments ih =>
    have hseg := hsegments seg mem_cons_self
    rw [clickedIndex]
    split_ifs
    · exact ⟨hseg, hseg⟩
    · exact ih (fun other hother => hsegments other (mem_cons_of_mem _ hother)) _ hseg

theorem click_placed (hhost : host.Lawful) (hwidth : 1 ≤ e.lastWidth) (hplain : e.WithoutMarkers)
    (h : Placed e) (visualLineIndex targetColumn : ℕ) :
    Placed (e.click host visualLineIndex targetColumn) := by
  rw [click, clickTarget]
  cases hbuild : e.buildVisualLineMap host with
  | none => exact h
  | some visualLines =>
    dsimp only
    cases hvl : visualLines[visualLineIndex]? with
    | none => exact h
    | some vl =>
      obtain ⟨k, line, hk, hget, hfits, -⟩ :=
        visualLinesFrom_mem hhost.graphemes hwidth hplain hbuild (mem_of_getElem? hvl)
      rw [zero_add] at hk
      have hline : e.state.line vl.logicalLine = line := by
        rw [EditorState.line, hk, hget, getD_some]
      have hchunk : (Slices.slice line vl.startCol ((vl.startCol + vl.length : ℕ) : ℤ)).length =
          vl.length := by
        rw [Slices.slice, sliceTo, position_natCast hfits, position_natCast (by omega),
          length_drop, length_take]
        omega
      dsimp only
      rw [hline]
      obtain ⟨hfirst, hsecond⟩ := clickedIndex_le host targetColumn
        (Slices.slice line vl.startCol ((vl.startCol + vl.length : ℕ) : ℤ)).length
        (segment_index_le hhost e _) 0 (Nat.zero_le _)
      generalize clickedIndex host targetColumn _ 0 0 _ = found at hfirst hsecond ⊢
      have hplaced : ∀ index : ℕ, index ≤ vl.length →
          Placed (e.place e.state.lines vl.logicalLine ((vl.startCol + index : ℕ) : ℤ)) := by
        intro index hindex
        apply placed_place
        · rw [hk]
          exact (List.getElem?_eq_some_iff.mp hget).1
        · omega
        · rw [hk, hget, getD_some]
          omega
      rw [hchunk] at hfirst hsecond
      obtain ⟨targetIndex, lastGraphemeIndex⟩ := found
      dsimp only at hfirst hsecond ⊢
      split_ifs
      · exact (hplaced _ hsecond).same rfl rfl rfl
      · exact (hplaced _ hfirst).same rfl rfl rfl

theorem indexOf_le {line char : Text} {from' : ℤ} {i : ℕ} (h : indexOf line char from' = some i) :
    i ≤ line.length := by
  rw [indexOf] at h
  have hmem := mem_of_find?_eq_some h
  rw [mem_range] at hmem
  omega

theorem lastIndexOf_le {line char : Text} {from' : ℤ} {i : ℕ}
    (h : lastIndexOf line char from' = some i) : i ≤ line.length := by
  rw [lastIndexOf] at h
  have hmem := mem_of_find?_eq_some h
  rw [mem_reverse, mem_range] at hmem
  omega

theorem jumpToChar_placed (h : Placed e) (char : Text) (forward : Bool) :
    Placed (e.jumpToChar char forward) := by
  rw [jumpToChar]
  cases hjump : jumpTarget (e.acted none).state char forward with
  | none => exact h.same rfl rfl rfl
  | some found =>
    have hfound : found.1 < e.state.lines.length ∧
        found.2 ≤ (e.state.line found.1).length := by
      have hline := h.within.1
      change jumpTarget e.state char forward = some found at hjump
      rw [jumpTarget] at hjump
      split_ifs at hjump
      · obtain ⟨i, hi, hindex⟩ := exists_of_findSome?_eq_some hjump
        obtain ⟨index, hat, rfl⟩ := map_eq_some_iff.mp hindex
        have hmem := mem_of_mem_drop hi
        exact ⟨mem_range.mp hmem, indexOf_le hat⟩
      · obtain ⟨i, hi, hindex⟩ := exists_of_findSome?_eq_some hjump
        obtain ⟨index, hat, rfl⟩ := map_eq_some_iff.mp hindex
        rw [mem_reverse, mem_range] at hi
        exact ⟨by dsimp only; omega, lastIndexOf_le hat⟩
    obtain ⟨line, index⟩ := found
    apply placed_place
    · exact hfound.1
    · exact Int.natCast_nonneg _
    · exact_mod_cast hfound.2

/-! ### Acts -/

/-- What an act needs of the editor before it: no paste marker where it draws up the visual lines
or deletes the last grapheme, and for a vertical move no remembered column that leads astray. -/
def Meets (host : Host) (e : Editor) : Act → Prop
  | .cursorUp => ∀ visualLines, e.buildVisualLineMap host = some visualLines →
    e.findCurrentVisualLine visualLines ≠ 0 → VerticalMeets e visualLines
  | .cursorDown => ∀ visualLines, e.buildVisualLineMap host = some visualLines →
    e.findCurrentVisualLine visualLines + 1 ≠ visualLines.length → VerticalMeets e visualLines
  | .pageScroll _ _ => ∀ visualLines, e.buildVisualLineMap host = some visualLines →
    VerticalMeets e visualLines
  | .cursorRight => e.WithoutMarkers
  | .click _ _ => e.WithoutMarkers
  | .backspace => e.NoMarkerBefore host
  | _ => True

/-- What is kept along a run. -/
structure Sound (e : Editor) : Prop where
  placed : Placed e
  width : 1 ≤ e.lastWidth
  draft : ∀ s, e.historyDraft = some s → s.CursorWithin
  undo : ∀ snapshot ∈ e.undoStack, snapshot.state.CursorWithin
  yanked : e.lastAction = some .yank → ∃ g text, Yanked e g text
  entries : [] ∉ e.killRing

theorem step_placed (hhost : host.Lawful) (h : Sound e) {act : Act} (hmeets : e.Meets host act) :
    Placed (e.step host act) := by
  have hplaced := h.placed
  cases act with
  | insertCharacter char => exact insertCharacter_placed hplaced char
  | paste text => exact handlePaste_placed hplaced text
  | addNewLine => exact addNewLine_placed hplaced
  | backspace => exact handleBackspace_placed hhost hplaced hmeets
  | forwardDelete => exact handleForwardDelete_placed hhost hplaced
  | kill k => exact kill_placed hhost hplaced k
  | yank => exact yank_placed hplaced
  | yankPop => exact yankPop_placed hplaced h.yanked
  | undo => exact undo_placed hplaced h.undo
  | cursorUp =>
    rw [step, cursorUp]
    cases hbuild : e.buildVisualLineMap host with
    | none => exact hplaced
    | some visualLines =>
      dsimp only
      split_ifs with hfirst
      · exact navigateHistory_placed hplaced h.draft _
      · exact moveToLineStart_placed hplaced
      · refine (moveVertically_movesTo host _ _).placed hhost h.width hplaced fun others hothers => ?_
        rw [hbuild] at hothers
        cases hothers
        exact hmeets visualLines hbuild hfirst
  | cursorDown =>
    rw [step, cursorDown]
    cases hbuild : e.buildVisualLineMap host with
    | none => exact hplaced
    | some visualLines =>
      dsimp only
      split_ifs with hlast
      · exact navigateHistory_placed hplaced h.draft _
      · exact moveToLineEnd_placed hplaced
      · refine (moveVertically_movesTo host _ _).placed hhost h.width hplaced fun others hothers => ?_
        rw [hbuild] at hothers
        cases hothers
        exact hmeets visualLines hbuild hlast
  | cursorLeft => exact moveLeft_placed hhost hplaced
  | cursorRight => exact moveRight_placed hhost h.width hmeets hplaced
  | cursorLineStart => exact moveToLineStart_placed hplaced
  | cursorLineEnd => exact moveToLineEnd_placed hplaced
  | cursorWordLeft => exact moveWordBackwards_placed hhost hplaced
  | cursorWordRight => exact moveWordForwards_placed hhost hplaced
  | pageScroll direction pageSize =>
    exact (pageScroll_movesTo host _ _ _).placed hhost h.width hplaced hmeets
  | click visualLineIndex targetColumn =>
    exact click_placed hhost h.width hmeets hplaced visualLineIndex targetColumn
  | jumpToChar char forward => exact jumpToChar_placed hplaced char forward
  | navigateHistory direction => exact navigateHistory_placed hplaced h.draft direction
  | addToHistory text =>
    rw [step, addToHistory]
    split_ifs
    · exact hplaced
    · exact hplaced.same rfl rfl rfl
  | setText text =>
    rw [step, setText]
    exact setTextInternal_placed _ _ _
  | insertTextAtCursor text =>
    rw [step, insertTextAtCursor]
    split_ifs
    · exact hplaced
    · apply insertTextAtCursorInternal_placed
      exact hplaced.same rfl rfl rfl
  | applyCompletion item typed => exact applyCompletion_placed hplaced item typed
  | submit => exact ⟨⟨zero_lt_one, le_rfl, le_rfl⟩, hplaced.sticky.preferred, hplaced.sticky.snapped⟩
  | render layoutWidth => exact hplaced.same rfl rfl rfl

/-! ### What is kept -/

theorem Yanked.same {text : Text} (h : Yanked e g text) (haction : e'.lastAction = some .yank)
    (hstate : e'.state = e.state) (hring : e'.killRing = e.killRing) : Yanked e' g text :=
  ⟨haction, hring ▸ h.peek, hstate.trans h.state⟩

theorem step_yanked (h : Sound e) (act : Act)
    (haction : (e.step host act).lastAction = some .yank) :
    ∃ g text, Yanked (e.step host act) g text := by
  by_cases hyank : act = .yank
  · subst hyank
    cases hpeek : e.killRing.peek with
    | none =>
      have hsame : e.yank = e := by
        rw [yank, hpeek]
      rw [step, hsame] at haction ⊢
      exact h.yanked haction
    | some text =>
      obtain ⟨g, hg⟩ := cursorWithin_iff.mp h.placed.within
      exact ⟨g, text, (yank_yanked hg hpeek).1⟩
  · by_cases hpop : act = .yankPop
    · subst hpop
      by_cases hyanked : e.lastAction = some .yank
      · obtain ⟨g, text, hg⟩ := h.yanked hyanked
        obtain ⟨next, hnext, -⟩ := yankPop_yanked hg
        exact ⟨g, next, hnext⟩
      · have hsame : e.yankPop = e := by
          rw [yankPop]
          exact if_pos (.inl hyanked)
        rw [step, hsame] at haction
        exact absurd haction hyanked
    · obtain ⟨hlast, hstate, hring, -⟩ := (step_idle host e hyank hpop).same haction
      obtain ⟨g, text, hg⟩ := h.yanked hlast
      exact ⟨g, text, hg.same haction hstate hring⟩

theorem undo_beside (e : Editor) :
    e.undo.historyDraft = none ∧ e.undo.lastWidth = e.lastWidth ∧
      e.undo.killRing = e.killRing ∧ e.undo.undoStack = e.undoStack.dropLast := by
  rw [undo]
  cases hlast : e.exitHistoryBrowsing.undoStack.getLast? with
  | none =>
    refine ⟨rfl, rfl, rfl, ?_⟩
    have hnil : e.undoStack = [] := getLast?_eq_none_iff.mp hlast
    change e.undoStack = e.undoStack.dropLast
    rw [hnil]
    rfl
  | some snapshot => exact ⟨rfl, rfl, rfl, rfl⟩

theorem step_sound (hhost : host.Lawful) (h : Sound e) {act : Act} (hmeets : e.Meets host act) :
    Sound (e.step host act) := by
  have hplaced := step_placed hhost h hmeets
  have hyanked := @step_yanked host e h act
  by_cases hundo : act = .undo
  · subst hundo
    obtain ⟨hdraft, hwidth, hring, hstack⟩ := undo_beside e
    refine ⟨hplaced, hwidth ▸ h.width, fun s hs => ?_, fun snapshot hmem => ?_, hyanked,
      hring ▸ h.entries⟩
    · rw [step, hdraft] at hs
      cases hs
    · rw [step, hstack] at hmem
      exact h.undo snapshot (dropLast_subset _ hmem)
  · by_cases hsubmit : act = .submit
    · subst hsubmit
      exact ⟨hplaced, h.width, (fun _ hs => by cases hs), (fun _ hmem => by cases hmem), hyanked,
        h.entries⟩
    · have htame := step_tame host e hundo hsubmit
      refine ⟨hplaced, ?_, fun s hs => ?_, fun snapshot hmem => ?_, hyanked, htame.entries h.entries⟩
      · rcases htame.width with hsame | hgrown
        · rw [hsame]
          exact h.width
        · exact hgrown
      · rcases htame.draft with hsame | hnone | hkept
        · exact h.draft s (hsame ▸ hs)
        · rw [hnone] at hs
          cases hs
        · rw [hkept] at hs
          cases hs
          exact h.placed.within
      · rcases htame.undoStack with hsame | hpushed
        · exact h.undo snapshot (hsame ▸ hmem)
        · rw [hpushed, mem_append, mem_singleton] at hmem
          rcases hmem with hmem | rfl
          · exact h.undo snapshot hmem
          · exact h.placed.within

theorem initial_sound : Sound initial :=
  ⟨⟨⟨zero_lt_one, le_rfl, le_rfl⟩, ⟨(fun _ h => by cases h), (fun _ h => by cases h)⟩⟩,
    by decide, (fun _ h => by cases h), (fun _ h => by cases h), (fun h => by cases h),
    (fun h => by cases h)⟩

/-- Every act finds what it needs. -/
def MeetsAll (host : Host) (e : Editor) : List Act → Prop
  | [] => True
  | act :: acts => e.Meets host act ∧ MeetsAll host (e.step host act) acts

theorem run_sound (hhost : host.Lawful) (h : Sound e) {acts : List Act}
    (hmeets : e.MeetsAll host acts) : Sound (e.run host acts) := by
  induction acts generalizing e with
  | nil => exact h
  | cons act acts ih => exact ih (step_sound hhost h hmeets.1) hmeets.2

theorem MeetsAll.front {before after : List Act} (h : e.MeetsAll host (before ++ after)) :
    e.MeetsAll host before := by
  induction before generalizing e with
  | nil => trivial
  | cons act before ih => exact ⟨h.1, ih h.2⟩

end KnightCode.Editor
