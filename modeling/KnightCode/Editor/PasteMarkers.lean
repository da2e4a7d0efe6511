import KnightCode.Editor.ReferenceRuns

/-!
# Paste markers stand for their pastes

In every state a run reaches in which each act finds what it needs, the editor's text expanded is
what the reference means. Typed text that looks like a marker, a content that has one, a renumbered
registry under the kill ring, and a backspace on one of two copies are each enough to break it.
-/

namespace KnightCode.Editor

open List JsonText

variable {host : Host} {e : Editor} {r : Reference} {g : Gap Piece}

/-! ### The expanded text -/

/-- The editor shows the reference's units, and hands on what they mean. -/
structure Expands (e : Editor) (r : Reference) : Prop where
  shown : e.state = gapState (r.gap.flat Piece.shown)
  expanded : e.getExpandedText = meantText r.gap
  submitted : e.submittedText = trim (meantText r.gap)

theorem Mirrors.expands (h : Mirrors e r) (hclear : r.Clear e) : Expands e r := by
  have hstate : e.state = gapState (r.gap.flat Piece.shown) := h.now.state
  have htext : e.state.getText = Editor.shown ([.char newline].intercalate r.gap.lines) := by
    have hflat := Gap.flatMap_intercalate (f := Piece.shown) (p := .char newline) rfl r.gap.lines
    rw [EditorState.getText, hstate, gapState_lines, Gap.flat_lines]
    exact hflat.symm
  have hregistered : ∀ n content, .paste n content ∈ [Piece.char newline].intercalate r.gap.lines →
      Assoc.get n e.pastes = some content := by
    intro n content hmem
    rcases Gap.mem_intercalate hmem with heq | hmem
    · cases heq
    · exact h.now.registered n content hmem
  have hexpand : expandPasteMarkers e.pastes e.state.getText = meantText r.gap := by
    have hflat := Gap.flatMap_intercalate (f := Piece.meant) (p := .char newline) rfl r.gap.lines
    rw [htext, expandPasteMarkers_shown hregistered h.now.keys hclear]
    exact hflat
  refine ⟨hstate, hexpand, ?_⟩
  rw [submittedText, hexpand]

/-- Wherever a run has come, the expanded text is what the reference means. -/
theorem paste_markers {acts before : List Act} (hbefore : before <+: acts)
    (hmeets : Reference.initial.MeetsAll host initial acts) :
    Expands (initial.run host before) (Reference.initial.run host initial before) := by
  obtain ⟨after, rfl⟩ := hbefore
  obtain ⟨hmirrors, hclear⟩ := run_mirrors initial_mirrors (meetsAll_front hmeets)
  exact hmirrors.expands hclear

theorem parts_paste {segments : List SegmentData} (n : ℕ) (content : Text)
    (h : segments = placed 0 [shown [.paste n content]]) : Parts segments [.paste n content] := by
  refine ⟨[[.paste n content]], rfl, h, fun group hgroup => ?_⟩
  rw [mem_singleton.mp hgroup]
  exact .paste n content

/-- Enough lines for a marker. -/
def elevenLines (c : UInt16) : Text :=
  c :: replicate 10 newline

/-- Two pastes on lines of their own, and a backspace over the first. -/
def renumberedRun : List Act :=
  [.paste (elevenLines 97), .addNewLine, .paste (elevenLines 98), .cursorWordLeft, .cursorLeft,
    .backspace]

theorem paste_markers_renumbered : Expands (initial.run pairHost renumberedRun)
    (Reference.initial.run pairHost initial renumberedRun) := by
  refine @paste_markers pairHost _ _ prefix_rfl ⟨by decide +kernel, trivial, by decide +kernel,
    trivial, by decide +kernel, trivial, by decide +kernel, ?_, by decide +kernel, ?_,
    by decide +kernel, ?_, ?_⟩
  · exact fun _ => parts_paste 2 (elevenLines 98) rfl
  · exact fun hcol => absurd hcol (by decide +kernel)
  · refine ⟨fun _ => parts_paste 1 (elevenLines 97) rfl, fun n content hlast => ?_⟩
    cases hlast
    refine ⟨by decide +kernel, fun content => ?_, by decide +kernel, by decide +kernel⟩
    change Piece.paste 1 content ∉ [Piece.paste 2 (elevenLines 98)]
    simp
  · change Reference.Clear _ _
    decide +kernel

/-! ### Where they do not -/

/-- The text of the paste's marker comes in under it. -/
def typedRun : List Act :=
  [.paste (elevenLines 97), .addNewLine, .insertTextAtCursor (pasteMarker 1 11 11)]

/-- The second of two pastes is killed, the first deleted, and the second yanked. -/
def killedRun : List Act :=
  [.paste (elevenLines 97), .paste (elevenLines 98), .kill .wordBackwards, .backspace, .yank]

/-- A killed paste is yanked twice, and one copy deleted. -/
def copiedRun : List Act :=
  [.paste (elevenLines 97), .kill .wordBackwards, .yank, .yank, .backspace]

/-- The content of the first paste has the marker of the second. -/
def nestedRun : List Act :=
  [.paste (elevenLines 97 ++ pasteMarker 2 11 11), .paste (elevenLines 98)]

/-- The editor expands the typed and the nested marker, and neither what was yanked under its old
number nor the copy that is left. -/
theorem paste_markers_fail :
    (initial.run pairHost typedRun).getExpandedText ≠
      meantText (Reference.initial.run pairHost initial typedRun).gap ∧
    (initial.run pairHost killedRun).getExpandedText ≠
      meantText (Reference.initial.run pairHost initial killedRun).gap ∧
    (initial.run pairHost copiedRun).getExpandedText ≠
      meantText (Reference.initial.run pairHost initial copiedRun).gap ∧
    (initial.run pairHost nestedRun).getExpandedText ≠
      meantText (Reference.initial.run pairHost initial nestedRun).gap := by
  decide +kernel

end KnightCode.Editor
