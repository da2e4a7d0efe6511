import KnightCode.Editor.CursorRuns

/-!
# Laws of kills, yanks and undo

They hold in every state a run of the editor reaches in which each act finds what it needs. The
laws of yanks and undo need no more than a cursor in place. A run of kills is undone by the yank
exactly when its first kill with anything in reach takes something, or the ring was empty.
-/

namespace KnightCode.Editor

variable {host : Host} {e : Editor} {g : Gap UInt16}

def EditorState.textBefore (s : EditorState) : Text :=
  joinLines (s.lines.take s.cursorLine ++ [s.beforeCursor])

theorem gapState_textBefore : (gapState g).textBefore = g.upTo newline := by
  rw [EditorState.textBefore, gapState_beforeCursor, joinLines, Gap.intercalate_append_cons,
    Gap.intercalate_cons]
  simp [Gap.lines, Gap.upTo]

theorem insertYankedText_text (h : e.state.CursorWithin) (text : Text) :
    (e.insertYankedText text).state.getText = e.state.textBefore ++ text ++ e.state.textAfter ∧
      (e.insertYankedText text).state.textAfter = e.state.textAfter := by
  obtain ⟨g, hg⟩ := cursorWithin_iff.mp h
  have hlines : [newline].intercalate (splitLines text) = text := joinLines_splitLines text
  rw [insertYankedText_gap hg, hg, gapState_getText, gapState_textBefore, gapState_textAfter,
    gapState_textAfter, Gap.insert_upTo, Gap.insert_onward, hlines]
  exact ⟨rfl, rfl⟩

/-- What holds of kills, yanks and undo in a state. -/
structure Laws (host : Host) (e : Editor) : Prop where
  within : e.state.CursorWithin
  kills : ∀ kills, e.lastAction ≠ some .kill →
    (Restores host e kills ↔ e.killRing = [] ∨ FirstKillTakes host e kills)
  yankPops : e.killRing ≠ [] → ∀ k, ∃ entry, (KillRing.rotate^[k] e.killRing).peek = some entry ∧
    (yankPop^[k] e.yank).state = (e.insertYankedText entry).state ∧
    (yankPop^[k] e.yank).state.getText = e.state.textBefore ++ entry ++ e.state.textAfter
  undo : ∀ acts, Keeps acts → (e.run host acts).undoStack.length = e.undoStack.length + 1 →
    ∃ before act after, acts = before ++ act :: after ∧
      (e.run host before).undoStack = e.undoStack ∧
      (e.run host acts).undo.snapshot = (e.run host before).snapshot

theorem Sound.laws (hhost : host.Lawful) (h : Sound e) : Laws host e where
  within := h.placed.within
  kills kills haction := by
    obtain ⟨g, hg⟩ := cursorWithin_iff.mp h.placed.within
    exact killAll_restores_iff hhost hg h.entries haction
  yankPops hring k := by
    obtain ⟨g, hg⟩ := cursorWithin_iff.mp h.placed.within
    obtain ⟨entry, hpeek, hstate, -⟩ := yankPops_insert hg hring k
    refine ⟨entry, hpeek, hstate, ?_⟩
    rw [hstate]
    exact (insertYankedText_text h.placed.within entry).1
  undo acts hkeeps hone := undo_run host e hkeeps hone

/-- The laws hold wherever a run has come. -/
theorem editing_laws (hhost : host.Lawful) {acts before : List Act} (hbefore : before <+: acts)
    (hmeets : initial.MeetsAll host acts) : Laws host (initial.run host before) := by
  obtain ⟨after, rfl⟩ := hbefore
  exact (run_sound hhost initial_sound hmeets.front).laws hhost

/-- Up into a line, whose start is killed, and two letters typed there, the last one deleted. -/
def editedRun : List Act :=
  [.insertTextAtCursor [97, 98, 10, 99], .cursorUp, .kill .toStartOfLine, .insertCharacter [97],
    .insertCharacter [98], .backspace]

theorem editing_laws_edited : (initial.run pairHost editedRun).killRing = [[97]] ∧
    (initial.run pairHost editedRun).lastAction = none ∧
    Laws pairHost (initial.run pairHost editedRun) := by
  refine ⟨by decide +kernel, by decide +kernel, editing_laws pairHost_lawful List.prefix_rfl
    ⟨trivial, fun visualLines _ _ => ⟨?_, ?_⟩, trivial, trivial, trivial, ?_, trivial⟩⟩
  · unfold WithoutMarkers Unmarked
    decide +kernel
  · rintro col ⟨⟩
  · unfold Meets NoMarkerBefore
    decide +kernel

/-- A letter killed, then a Hebrew letter and an apostrophe typed, which are one word. -/
def stoppedRun : List Act :=
  [.insertCharacter [97], .kill .toStartOfLine, .insertCharacter [0x5D2], .insertCharacter [39]]

/-- Down from behind `ab` into an emoji, the rest of its line killed, and down again. -/
def snappedRun : List Act :=
  [.render 4, .insertTextAtCursor [97, 98, 99, 10, 97, 0xD83D, 0xDE00, 98, 10, 120, 120, 120, 120,
    120, 120, 120, 120], .jumpToChar [99] false, .cursorDown, .kill .toEndOfLine, .cursorDown]

/-- Without the condition neither the law of kills nor that of the cursor holds. -/
theorem editing_laws_fail :
    ((initial.run pairHost stoppedRun).pastes = [] ∧
      (initial.run pairHost stoppedRun).lastAction ≠ some .kill ∧
      ¬Restores pairHost (initial.run pairHost stoppedRun) [.wordBackwards, .toStartOfLine]) ∧
    (initial.run pairHost snappedRun).pastes = [] ∧
      ¬(initial.run pairHost snappedRun).state.CursorWithin := by
  refine ⟨⟨rfl, by decide, fun h => ?_⟩, by decide +kernel, by decide +kernel⟩
  have htext : (killAll pairHost (initial.run pairHost stoppedRun)
      [.wordBackwards, .toStartOfLine]).yank.state.getText = [0x5D2, 39, 97] := by decide +kernel
  exact absurd (htext.symm.trans h.1) (by decide +kernel)

end KnightCode.Editor
