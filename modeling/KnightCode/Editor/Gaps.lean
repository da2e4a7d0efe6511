import KnightCode.Editor.Acts

/-!
# What the operations do at a gap

Where the cursor is in place the state is that of a gap, and each operation on the text is one on
the gap: text comes in before it, a kill takes away what is next to it, a yank-pop takes out what
the yank has put in.
-/

namespace KnightCode.Editor

open List Slices

variable {e : Editor} {g : Gap UInt16} {above below : List Text} {before after : Text}
variable {host : Host}

/-! ### Lines and columns -/

theorem lines_set (g : Gap UInt16) (line : Text) :
    g.lines.set g.above.length line = g.above ++ line :: g.below := by
  simp [Gap.lines]

theorem setLine_gap (h : e.state = gapState g) (before after : Text) :
    (e.setLine (before ++ after)).state =
      ⟨(⟨g.above, before, after, g.below⟩ : Gap UInt16).lines, g.above.length, g.before.length⟩ := by
  rw [setLine, h, gapState_lines, gapState_cursorLine, lines_set]
  rfl

theorem setLineCol_gap (h : e.state = gapState g) (before after : Text) {col : ℤ}
    (hcol : col = before.length) : ((e.setLine (before ++ after)).setCursorCol col).state =
      gapState ⟨g.above, before, after, g.below⟩ := by
  rw [setCursorCol, setLine_gap h, hcol]
  rfl

theorem takeBefore_gap {kept removed : Text}
    (h : e.state = gapState ⟨above, kept ++ removed, after, below⟩) {n : ℤ}
    (hn : n = removed.length) : ((e.setLine (sliceTo e.state.currentLine (e.state.cursorCol - n) ++
      e.state.afterCursor)).setCursorCol (e.state.cursorCol - n)).state =
        gapState ⟨above, kept, after, below⟩ := by
  have hstart : e.state.cursorCol - n = kept.length := by
    rw [h, hn]
    simp
  have hline : sliceTo e.state.currentLine (kept.length : ℤ) = kept := by
    rw [h]
    simp
  rw [hstart, hline, h, gapState_afterCursor]
  exact setLineCol_gap h kept after rfl

theorem takeAfter_gap {kept removed : Text}
    (h : e.state = gapState ⟨above, before, removed ++ kept, below⟩) {n : ℤ}
    (hn : n = removed.length) : (e.setLine (e.state.beforeCursor ++
      sliceFrom e.state.currentLine (e.state.cursorCol + n))).state =
        gapState ⟨above, before, kept, below⟩ := by
  have hend : e.state.cursorCol + n = ((before ++ removed).length : ℤ) := by
    rw [h, hn]
    simp
  have hline : sliceFrom e.state.currentLine ((before ++ removed).length : ℤ) = kept := by
    rw [h, gapState_currentLine, ← append_assoc, sliceFrom_append]
  rw [hend, hline]
  have hset := setLine_gap h before kept
  rw [show e.state.beforeCursor = before by rw [h, gapState_beforeCursor], hset]
  rfl

theorem mergeWithPrevious_gap {previous : Text}
    (h : e.state = gapState ⟨above ++ [previous], [], after, below⟩) :
    e.mergeWithPrevious.state = gapState ⟨above, previous, after, below⟩ := by
  have hprevious : e.state.line (e.state.cursorLine - 1) = previous := by
    rw [h, gapState_cursorLine, length_append, length_singleton, Nat.add_sub_cancel]
    exact gapState_line_above
  have hcurrent : e.state.currentLine = after := by
    rw [h, gapState_currentLine, nil_append]
  have hlines : e.state.lines = above ++ previous :: after :: below := by
    rw [h]
    simp [Gap.lines, Gap.line]
  have hline : e.state.cursorLine = above.length + 1 := by
    rw [h]
    simp
  rw [mergeWithPrevious, hprevious, hcurrent, hlines, hline, Nat.add_sub_cancel, set_append_right _
    _ le_rfl, Nat.sub_self, set_cons_zero, eraseIdx_append_of_length_le (Nat.le_succ _)]
  simp [place, setCursorCol, gapState, Gap.lines, Gap.line]

theorem mergeWithNext_gap {next : Text}
    (h : e.state = gapState ⟨above, before, [], next :: below⟩) :
    e.mergeWithNext.state = gapState ⟨above, before, next, below⟩ := by
  have hnext : e.state.line (e.state.cursorLine + 1) = next := by
    rw [h]
    exact gapState_line_below
  have hcurrent : e.state.currentLine = before := by
    rw [h, gapState_currentLine, append_nil]
  rw [mergeWithNext, hnext, hcurrent, h]
  simp [gapState, Gap.lines, Gap.line, eraseIdx_append_of_length_le]

/-! ### Text coming in -/

theorem joinLines_splitLines (text : Text) : joinLines (splitLines text) = text :=
  intercalate_splitOn newline

theorem splitLines_cases (text : Text) : splitLines text = [text] ∨
    ∃ first between last, splitLines text = first :: (between ++ [last]) := by
  have hjoin := joinLines_splitLines text
  cases hlines : splitLines text with
  | nil => exact absurd hlines (splitOn_ne_nil newline text)
  | cons first rest =>
    rcases eq_nil_or_concat' rest with rfl | ⟨between, last, rfl⟩
    · left
      rw [hlines] at hjoin
      rw [← hjoin, joinLines, Gap.intercalate_cons]
      simp
    · exact .inr ⟨first, between, last, rfl⟩

theorem getLastD_several (first : Text) (between : List Text) (last : Text) :
    (first :: (between ++ [last])).getLastD [] = last := by
  rw [← cons_append, getLastD_concat]

theorem splice_append (lines removed rest items : List Text) :
    splice (lines ++ (removed ++ rest)) lines.length removed.length items =
      lines ++ items ++ rest := by
  rw [splice, take_left, ← append_assoc, ← length_append, drop_left]

theorem insertTextAtCursorInternal_gap (h : e.state = gapState g) {text : Text} (hne : text ≠ []) :
    (e.insertTextAtCursorInternal text).state =
      gapState (g.insert (splitLines (normalizeText text))) := by
  rw [insertTextAtCursorInternal, if_neg hne]
  dsimp only
  rw [h, gapState_beforeCursor, gapState_afterCursor]
  rcases splitLines_cases (normalizeText text) with hone | ⟨first, between, last, hseveral⟩
  · rw [hone, if_pos (length_singleton)]
    apply setLineCol_gap h
    simp
  · rw [hseveral, if_neg (by simp), Gap.insert_several, getLastD_several]
    simp [place, setCursorCol, gapState, Gap.lines, Gap.line]

theorem typed_gap (h : e.state = gapState g) (char : Text) :
    ((e.setLine (e.state.beforeCursor ++ char ++ e.state.afterCursor)).setCursorCol
      (e.state.cursorCol + char.length)).state =
        gapState ⟨g.above, g.before ++ char, g.after, g.below⟩ := by
  rw [h, gapState_beforeCursor, gapState_afterCursor]
  apply setLineCol_gap h
  simp

theorem insertCharacter_gap (h : e.state = gapState g) (char : Text) :
    (e.insertCharacter char).state = gapState ⟨g.above, g.before ++ char, g.after, g.below⟩ := by
  rw [insertCharacter]
  split_ifs
  · exact @typed_gap (e.exitHistoryBrowsing.pushUndoSnapshot.acted (some .typeWord)) g h char
  · exact @typed_gap (e.exitHistoryBrowsing.acted (some .typeWord)) g h char

theorem addNewLine_gap (h : e.state = gapState g) :
    e.addNewLine.state = gapState ⟨g.above ++ [g.before], [], g.after, g.below⟩ := by
  have hstate : ((e.exitHistoryBrowsing.acted none).pushUndoSnapshot).state = gapState g := h
  have hsplice := splice_append (g.above ++ [g.before]) [] g.below [g.after]
  simp only [length_append, length_singleton, length_nil, append_assoc,
    nil_append, singleton_append] at hsplice
  rw [addNewLine, hstate, gapState_beforeCursor, gapState_afterCursor, gapState_lines,
    gapState_cursorLine, lines_set]
  simp [place, setCursorCol, gapState, Gap.lines, Gap.line, hsplice]

theorem setTextInternal_within (text : Text) (atStart : Bool) (e : Editor) :
    (e.setTextInternal text atStart).state.CursorWithin := by
  have hpos : 0 < (splitLines text).length :=
    length_pos_iff.mpr (splitOn_ne_nil newline text)
  rw [setTextInternal]
  split_ifs
  · refine ⟨hpos, le_rfl, ?_⟩
    simp [place, setCursorCol]
  · refine ⟨?_, by simp [place, setCursorCol], le_of_eq ?_⟩
    · change (splitLines text).length - 1 < (splitLines text).length
      omega
    · simp [place, setCursorCol, EditorState.currentLine, EditorState.line,
        getLast?_eq_getElem?]

/-! ### Yanks -/

theorem spliceEach_append (lines rest : List Text) (items : List Text) :
    spliceEach (lines ++ rest) lines.length items = lines ++ items ++ rest := by
  induction items generalizing lines with
  | nil => simp [spliceEach]
  | cons item items ih =>
    have hstep := ih (lines ++ [item])
    rw [length_append, length_singleton] at hstep
    rw [spliceEach, splice, take_left, add_zero, drop_left, hstep]
    simp

theorem insertYankedText_gap (h : e.state = gapState g) (text : Text) :
    (e.insertYankedText text).state = gapState (g.insert (splitLines text)) := by
  have hstate : e.exitHistoryBrowsing.state = gapState g := h
  rw [insertYankedText]
  dsimp only
  rw [hstate, gapState_beforeCursor, gapState_afterCursor]
  rcases splitLines_cases text with hone | ⟨first, between, last, hseveral⟩
  · rw [hone, if_pos (length_singleton)]
    apply setLineCol_gap hstate
    simp
  · have heach := spliceEach_append (g.above ++ [g.before ++ first]) g.below between
    have hsplice := splice_append (g.above ++ (g.before ++ first) :: between) [] g.below
      [last ++ g.after]
    rw [hseveral, if_neg (by simp), Gap.insert_several, getLastD_several, gapState_lines,
      gapState_cursorLine, lines_set]
    simp only [length_append, length_nil, length_cons, append_assoc,
      nil_append, cons_append] at heach hsplice
    simp [heach, hsplice, place, setCursorCol, gapState, Gap.lines, Gap.line]

theorem deleteYankedText_gap {text : Text} (hpeek : e.killRing.peek = some text)
    (h : e.state = gapState (g.insert (splitLines text))) :
    e.deleteYankedText.state = gapState g := by
  rw [deleteYankedText, hpeek]
  dsimp only
  rcases splitLines_cases text with hone | ⟨first, between, last, hseveral⟩
  · rw [hone] at h ⊢
    rw [if_pos (length_singleton)]
    split_ifs with hnil
    · rw [h, hnil]
      simp [Gap.insert]
    · exact takeBefore_gap h rfl
  · have hne : text ≠ [] := by
      rintro rfl
      have hlength := congrArg length hseveral
      rw [length_cons, length_append] at hlength
      simp [splitLines] at hlength
    rw [hseveral, Gap.insert_several] at h
    have hstart : e.state.cursorLine - (between.length + 1) = g.above.length := by
      rw [h]
      simp
    have hline : e.state.line g.above.length = g.before ++ first := by
      rw [h]
      simp [EditorState.line, Gap.lines]
    have hafter : e.state.afterCursor = g.after := by
      rw [h]
      simp
    have hsplice := splice_append g.above ((g.before ++ first) :: between ++ [last ++ g.after])
      g.below [g.before ++ g.after]
    rw [if_neg hne, hseveral, if_neg (by simp)]
    have hlines : e.state.lines =
        g.above ++ (g.before ++ first) :: (between ++ (last ++ g.after) :: g.below) := by
      rw [h]
      simp [Gap.lines, Gap.line]
    simp only [length_append, length_cons, length_nil, append_assoc,
      cons_append, nil_append, zero_add] at hsplice
    simp [hstart, hline, hafter, hlines, hsplice, place, setCursorCol, gapState, Gap.lines,
      Gap.line]

/-! ### Kills -/

def Kill.backward : Kill → Bool
  | .toStartOfLine => true
  | .toEndOfLine => false
  | .wordBackwards => true
  | .wordForward => false

/-- There is text on the kill's side of the cursor. -/
def InReach (e : Editor) (k : Kill) : Prop :=
  match k.backward with
  | true => 0 < e.state.cursorCol ∨ 0 < e.state.cursorLine
  | false => e.state.cursorCol < e.state.currentLine.length ∨
    e.state.cursorLine + 1 < e.state.lines.length

instance (e : Editor) (k : Kill) : Decidable (e.InReach k) := by
  cases k <;> exact inferInstanceAs (Decidable (_ ∨ _))

/-- The kill is one of a word, and the word next to the cursor has punctuation at its near end. -/
def StopsAtOnce (host : Host) (e : Editor) : Kill → Prop
  | .toStartOfLine => False
  | .toEndOfLine => False
  | .wordBackwards =>
    0 < e.state.cursorCol ∧ (e.words host).stopsBackward e.state.beforeCursor = true
  | .wordForward =>
    e.state.cursorCol < e.state.currentLine.length ∧
      (e.words host).stopsForward e.state.afterCursor = true

instance (host : Host) (e : Editor) (k : Kill) : Decidable (e.StopsAtOnce host k) := by
  cases k <;> unfold StopsAtOnce <;> infer_instance

/-- A kill has gone from one gap to another, and put what was between them on the ring. -/
structure KillsAt (e e' : Editor) (k : Kill) (g g' : Gap UInt16) (x y : Text) : Prop where
  state : e'.state = gapState g'
  taken : Gap.Taken newline g g' x y
  backward : k.backward = true → y = []
  forward : k.backward = false → x = []
  ring : e'.killRing = e.killRing.push (x ++ y) k.backward e.wasKill
  action : e'.lastAction = some .kill

theorem mergeWithPrevious_kills {previous : Text} (k : Kill) (hk : k.backward = true)
    (h : e.state = gapState ⟨above ++ [previous], [], after, below⟩) :
    KillsAt e
      (e.exitHistoryBrowsing.pushUndoSnapshot.killed [newline] true e.wasKill).mergeWithPrevious
      k ⟨above ++ [previous], [], after, below⟩ ⟨above, previous, after, below⟩ [newline] [] where
  state := mergeWithPrevious_gap h
  taken := ⟨by simp [Gap.upTo], rfl⟩
  backward _ := rfl
  forward hforward := by rw [hk] at hforward; cases hforward
  ring := by rw [hk]; rfl
  action := rfl

theorem mergeWithNext_kills {next : Text} (k : Kill) (hk : k.backward = false)
    (h : e.state = gapState ⟨above, before, [], next :: below⟩) :
    KillsAt e
      (e.exitHistoryBrowsing.pushUndoSnapshot.killed [newline] false e.wasKill).mergeWithNext
      k ⟨above, before, [], next :: below⟩ ⟨above, before, next, below⟩ [] [newline] where
  state := mergeWithNext_gap h
  taken := ⟨by simp [Gap.upTo], by simp [Gap.onward]⟩
  backward hbackward := by rw [hk] at hbackward; cases hbackward
  forward _ := rfl
  ring := by rw [hk]; rfl
  action := rfl

theorem deleteToStartOfLine_kills (h : e.state = gapState g) (hreach : e.InReach .toStartOfLine) :
    ∃ g' x y, x ++ y ≠ [] ∧ KillsAt e e.deleteToStartOfLine .toStartOfLine g g' x y := by
  obtain ⟨above, before, after, below⟩ := g
  have hstate : e.exitHistoryBrowsing.state = gapState ⟨above, before, after, below⟩ := h
  have hcol : e.exitHistoryBrowsing.state.cursorCol = before.length := by rw [hstate]; rfl
  rw [deleteToStartOfLine]
  cases before with
  | cons c rest =>
    rw [if_pos (by rw [hcol]; simp), hstate, gapState_beforeCursor, gapState_afterCursor]
    refine ⟨⟨above, [], after, below⟩, c :: rest, [], by simp, ?_, ⟨by simp [Gap.upTo], rfl⟩,
      fun _ => rfl, fun hforward => (by cases hforward), ?_, rfl⟩
    · exact setLineCol_gap h [] after rfl
    · rw [append_nil]
      rfl
  | nil =>
    rw [if_neg (by rw [hcol]; simp)]
    rcases eq_nil_or_concat' above with rfl | ⟨above, previous, rfl⟩
    · change 0 < e.state.cursorCol ∨ 0 < e.state.cursorLine at hreach
      rw [h] at hreach
      simp at hreach
    · rw [if_pos (by rw [hstate]; simp)]
      exact ⟨_, _, _, by simp, mergeWithPrevious_kills .toStartOfLine rfl h⟩

theorem deleteToEndOfLine_kills (h : e.state = gapState g) (hreach : e.InReach .toEndOfLine) :
    ∃ g' x y, x ++ y ≠ [] ∧ KillsAt e e.deleteToEndOfLine .toEndOfLine g g' x y := by
  obtain ⟨above, before, after, below⟩ := g
  have hstate : e.exitHistoryBrowsing.state = gapState ⟨above, before, after, below⟩ := h
  rw [deleteToEndOfLine]
  cases after with
  | cons c rest =>
    rw [if_pos (by rw [hstate]; simp), hstate, gapState_beforeCursor, gapState_afterCursor]
    refine ⟨⟨above, before, [], below⟩, [], c :: rest, by simp, ?_, ⟨by simp [Gap.upTo], rfl⟩,
      fun hbackward => (by cases hbackward), fun _ => rfl, rfl, rfl⟩
    have hline := @setLine_gap (e.exitHistoryBrowsing.pushUndoSnapshot.killed (c :: rest) false
      e.wasKill) _ h before []
    rw [append_nil] at hline
    exact hline
  | nil =>
    rw [if_neg (by rw [hstate]; simp)]
    cases below with
    | nil =>
      change e.state.cursorCol < e.state.currentLine.length ∨
        e.state.cursorLine + 1 < e.state.lines.length at hreach
      rw [h] at hreach
      simp [Gap.lines] at hreach
    | cons next below =>
      rw [if_pos (by rw [hstate]; simp [Gap.lines])]
      exact ⟨_, _, _, by simp, mergeWithNext_kills .toEndOfLine rfl h⟩

theorem deleteWordBackwards_eq (hcol : e.state.cursorCol ≠ 0) {col : ℤ}
    (hfind : findWordBackward (e.words host) e.state.currentLine e.state.cursorCol = col) :
    e.deleteWordBackwards host =
      (((((e.exitHistoryBrowsing.pushUndoSnapshot.acted none).setCursorCol
        e.state.cursorCol).killed (Slices.slice e.state.currentLine col e.state.cursorCol) true
        e.wasKill).setLine (sliceTo e.state.currentLine col ++
        e.state.afterCursor)).setCursorCol col) := by
  have hmoved : e.exitHistoryBrowsing.pushUndoSnapshot.moveWordBackwards host =
      (e.exitHistoryBrowsing.pushUndoSnapshot.acted none).setCursorCol col := by
    rw [moveWordBackwards, ← hfind]
    exact if_neg hcol
  rw [deleteWordBackwards, hmoved]
  exact if_neg hcol

theorem deleteWordForward_eq (hcol : e.state.cursorCol < e.state.currentLine.length) {col : ℤ}
    (hfind : findWordForward (e.words host) e.state.currentLine e.state.cursorCol = col) :
    e.deleteWordForward host =
      (((e.exitHistoryBrowsing.pushUndoSnapshot.acted none).setCursorCol
        e.state.cursorCol).killed (Slices.slice e.state.currentLine e.state.cursorCol col) false
        e.wasKill).setLine (e.state.beforeCursor ++ sliceFrom e.state.currentLine col) := by
  have hmoved : e.exitHistoryBrowsing.pushUndoSnapshot.moveWordForwards host =
      (e.exitHistoryBrowsing.pushUndoSnapshot.acted none).setCursorCol col := by
    rw [moveWordForwards, ← hfind]
    exact if_neg (not_le.mpr hcol)
  rw [deleteWordForward, hmoved]
  exact if_neg (not_le.mpr hcol)

theorem deleteWordBackwards_kills (hhost : host.Lawful) (h : e.state = gapState g)
    (hreach : e.InReach .wordBackwards) : ∃ g' x y,
      (x ++ y = [] ↔ e.StopsAtOnce host .wordBackwards) ∧
      KillsAt e (e.deleteWordBackwards host) .wordBackwards g g' x y := by
  obtain ⟨above, before, after, below⟩ := g
  have hcol : e.state.cursorCol = before.length := by rw [h]; rfl
  by_cases hbefore : before = []
  · subst hbefore
    rcases eq_nil_or_concat' above with rfl | ⟨above, previous, rfl⟩
    · change 0 < e.state.cursorCol ∨ 0 < e.state.cursorLine at hreach
      rw [h] at hreach
      simp at hreach
    · have hline : 0 < e.state.cursorLine := by
        rw [h]
        simp
      have hmerge : e.deleteWordBackwards host = (e.exitHistoryBrowsing.pushUndoSnapshot.killed
          [newline] true e.wasKill).mergeWithPrevious := by
        rw [deleteWordBackwards]
        exact (if_pos hcol).trans (if_pos hline)
      rw [hmerge]
      refine ⟨_, _, _, ?_, mergeWithPrevious_kills .wordBackwards rfl h⟩
      simp [StopsAtOnce, h]
  · have hpos : 0 < e.state.cursorCol := by
      rw [hcol]
      exact_mod_cast length_pos_iff.mpr hbefore
    obtain ⟨kept, passed, rfl, hfind, hpassed⟩ :=
      findWordBackward_passes (words_lawful hhost e) hbefore after
    have hfind' : findWordBackward (e.words host) e.state.currentLine e.state.cursorCol =
        kept.length := by
      rw [← hfind, hcol, h, gapState_currentLine]
    have hslice := Slices.slice_append kept passed after
    rw [← append_assoc, ← length_append] at hslice
    have hto : sliceTo (kept ++ passed ++ after) (kept.length : ℤ) = kept := by
      rw [append_assoc, sliceTo_append]
    rw [deleteWordBackwards_eq hpos.ne' hfind', h, gapState_currentLine, gapState_afterCursor,
      gapState_cursorCol, hslice, hto]
    refine ⟨⟨above, kept, after, below⟩, passed, [], ?_, ?_, ⟨by simp [Gap.upTo], rfl⟩,
      fun _ => rfl, fun hforward => (by cases hforward), ?_, rfl⟩
    · rw [append_nil, hpassed, StopsAtOnce, h, gapState_beforeCursor]
      rw [h] at hpos
      exact ⟨fun hstops => ⟨hpos, hstops⟩, And.right⟩
    · apply @setLineCol_gap _ ⟨above, kept ++ passed, after, below⟩ _ kept after _ rfl
      exact congrArg (fun s : EditorState => { s with cursorCol := ((kept ++ passed).length : ℤ) }) h
    · rw [append_nil]
      rfl

theorem deleteWordForward_kills (hhost : host.Lawful) (h : e.state = gapState g)
    (hreach : e.InReach .wordForward) : ∃ g' x y,
      (x ++ y = [] ↔ e.StopsAtOnce host .wordForward) ∧
      KillsAt e (e.deleteWordForward host) .wordForward g g' x y := by
  obtain ⟨above, before, after, below⟩ := g
  have hcol : e.state.cursorCol = before.length := by rw [h]; rfl
  have hcurrent : e.state.currentLine = before ++ after := by rw [h, gapState_currentLine]
  by_cases hafter : after = []
  · subst hafter
    have hend : (e.state.currentLine.length : ℤ) ≤ e.state.cursorCol := by
      rw [hcurrent, hcol, append_nil]
    cases below with
    | nil =>
      change e.state.cursorCol < e.state.currentLine.length ∨
        e.state.cursorLine + 1 < e.state.lines.length at hreach
      rw [h] at hreach
      simp [Gap.lines] at hreach
    | cons next below =>
      have hline : e.state.cursorLine + 1 < e.state.lines.length := by
        rw [h]
        simp [Gap.lines]
      have hmerge : e.deleteWordForward host = (e.exitHistoryBrowsing.pushUndoSnapshot.killed
          [newline] false e.wasKill).mergeWithNext := by
        rw [deleteWordForward]
        exact (if_pos hend).trans (if_pos hline)
      rw [hmerge]
      refine ⟨_, _, _, ?_, mergeWithNext_kills .wordForward rfl h⟩
      simp [StopsAtOnce, h]
  · have hlt : e.state.cursorCol < e.state.currentLine.length := by
      have hpos := length_pos_iff.mpr hafter
      rw [hcurrent, hcol, length_append]
      omega
    obtain ⟨passed, kept, rfl, hfind, hpassed⟩ :=
      findWordForward_passes (words_lawful hhost e) before hafter
    have hfind' : findWordForward (e.words host) e.state.currentLine e.state.cursorCol =
        (before ++ passed).length := by
      rw [← hfind, hcol, hcurrent]
    have hslice := Slices.slice_append before passed kept
    rw [← length_append] at hslice
    have hfrom : sliceFrom (before ++ (passed ++ kept)) ((before ++ passed).length : ℤ) = kept := by
      rw [← append_assoc, sliceFrom_append]
    rw [deleteWordForward_eq hlt hfind', h, gapState_currentLine, gapState_beforeCursor,
      gapState_cursorCol, hslice, hfrom]
    refine ⟨⟨above, before, kept, below⟩, [], passed, ?_, ?_, ⟨by simp [Gap.upTo], ?_⟩,
      fun hbackward => (by cases hbackward), fun _ => rfl, rfl, rfl⟩
    · rw [nil_append, hpassed, StopsAtOnce, h, gapState_afterCursor]
      rw [h] at hlt
      exact ⟨fun hstops => ⟨hlt, hstops⟩, And.right⟩
    · apply @setLine_gap _ ⟨above, before, passed ++ kept, below⟩ _ before kept
      exact congrArg (fun s : EditorState => { s with cursorCol := (before.length : ℤ) }) h
    · simp [Gap.onward]

theorem kill_kills (hhost : host.Lawful) (h : e.state = gapState g) {k : Kill}
    (hreach : e.InReach k) :
    ∃ g' x y, (x ++ y = [] ↔ e.StopsAtOnce host k) ∧ KillsAt e (e.kill host k) k g g' x y := by
  cases k with
  | toStartOfLine =>
    obtain ⟨g', x, y, hne, hkills⟩ := deleteToStartOfLine_kills h hreach
    exact ⟨g', x, y, iff_of_false hne id, hkills⟩
  | toEndOfLine =>
    obtain ⟨g', x, y, hne, hkills⟩ := deleteToEndOfLine_kills h hreach
    exact ⟨g', x, y, iff_of_false hne id, hkills⟩
  | wordBackwards => exact deleteWordBackwards_kills hhost h hreach
  | wordForward => exact deleteWordForward_kills hhost h hreach

theorem kill_of_not_inReach (host : Host) (h : e.state = gapState g) {k : Kill}
    (hreach : ¬e.InReach k) : e.kill host k = e.exitHistoryBrowsing := by
  have hnonneg : 0 ≤ e.state.cursorCol := by
    rw [h]
    simp
  have hstart : k.backward = true → ¬0 < e.state.cursorCol ∧ ¬0 < e.state.cursorLine := by
    intro hk
    rw [InReach, hk] at hreach
    exact not_or.mp hreach
  have hend : k.backward = false → ¬e.state.cursorCol < e.state.currentLine.length ∧
      ¬e.state.cursorLine + 1 < e.state.lines.length := by
    intro hk
    rw [InReach, hk] at hreach
    exact not_or.mp hreach
  cases k with
  | toStartOfLine =>
    rw [kill, deleteToStartOfLine]
    exact (if_neg (hstart rfl).1).trans (if_neg (hstart rfl).2)
  | toEndOfLine =>
    rw [kill, deleteToEndOfLine]
    exact (if_neg (hend rfl).1).trans (if_neg (hend rfl).2)
  | wordBackwards =>
    have hzero : e.state.cursorCol = 0 := le_antisymm (not_lt.mp (hstart rfl).1) hnonneg
    rw [kill, deleteWordBackwards]
    exact (if_pos hzero).trans (if_neg (hstart rfl).2)
  | wordForward =>
    rw [kill, deleteWordForward]
    exact (if_pos (not_lt.mp (hend rfl).1)).trans (if_neg (hend rfl).2)

end KnightCode.Editor
