import KnightCode.Editor.WordNavigation
import KnightCode.Library.Assoc

/-!
# The state of the editor

Lines, a cursor, the registry of large pastes, the history of prompts, the kill ring and the undo
stack. A column is an integer: the source reads and writes lines by `slice`, which takes any. The
cursor is in place when its line exists and its column lies within that line, that is when the
state is that of a gap between two texts.
-/

namespace KnightCode.Editor

open Slices

def newline : UInt16 := 10

/-- `text.split("\n")` -/
def splitLines (text : Text) : List Text :=
  text.splitOn newline

/-- `lines.join("\n")` -/
def joinLines (lines : List Text) : Text :=
  [newline].intercalate lines

def splice (lines : List Text) (start remove : ℕ) (items : List Text) : List Text :=
  lines.take start ++ items ++ lines.drop (start + remove)

/-! ### Kill ring -/

abbrev KillRing := List Text

namespace KillRing

def push (ring : KillRing) (text : Text) (prepend accumulate : Bool) : KillRing :=
  if text = [] then ring
  else
    match accumulate, ring.getLast? with
    | true, some last =>
      ring.dropLast ++ [if prepend then text ++ last else last ++ text]
    | _, _ => ring ++ [text]

def peek (ring : KillRing) : Option Text :=
  ring.getLast?

/-- The newest entry comes to the front. -/
def rotate (ring : KillRing) : KillRing :=
  match ring.getLast? with
  | some last => last :: ring.dropLast
  | none => ring

variable (ring : KillRing)

theorem push_nil (prepend accumulate : Bool) : push ring [] prepend accumulate = ring :=
  if_pos rfl

theorem push_onto (last text : Text) (prepend : Bool) :
    push (ring ++ [last]) text prepend true =
      ring ++ [if prepend then text ++ last else last ++ text] := by
  simp only [push, List.getLast?_concat, List.dropLast_concat]
  split_ifs with hnil
  · simp [hnil]
  · simp [hnil]
  · rfl
  · rfl

theorem push_fresh (text : Text) (prepend : Bool) :
    push ring text prepend false = if text = [] then ring else ring ++ [text] := by
  cases ring.getLast? <;> rfl

theorem push_empty (text : Text) (prepend accumulate : Bool) :
    push [] text prepend accumulate = if text = [] then [] else [text] := by
  cases accumulate <;> rfl

end KillRing

/-! ### The editor -/

structure EditorState where
  lines : List Text
  cursorLine : ℕ
  cursorCol : ℤ
deriving DecidableEq

/-- Text, cursor and paste registry. -/
structure EditorSnapshot where
  state : EditorState
  pastes : List (ℕ × Text)
  pasteCounter : ℕ
deriving DecidableEq

inductive LastAction
  | kill
  | yank
  | typeWord
deriving DecidableEq

end KnightCode.Editor

namespace KnightCode

open Editor

structure Editor where
  state : EditorState
  /-- Columns a line was given when it was last drawn. -/
  lastWidth : ℕ
  pastes : List (ℕ × Text)
  pasteCounter : ℕ
  history : List Text
  historyIndex : ℤ
  historyDraft : Option EditorState
  killRing : KillRing
  lastAction : Option LastAction
  preferredVisualCol : Option ℤ
  snappedFromCursorCol : Option ℤ
  undoStack : List EditorSnapshot

end KnightCode

namespace KnightCode.Editor

open Slices

def initial : Editor where
  state := ⟨[[]], 0, 0⟩
  lastWidth := 80
  pastes := []
  pasteCounter := 0
  history := []
  historyIndex := -1
  historyDraft := none
  killRing := []
  lastAction := none
  preferredVisualCol := none
  snappedFromCursorCol := none
  undoStack := []

def EditorState.line (s : EditorState) (index : ℕ) : Text :=
  s.lines[index]?.getD []

def EditorState.currentLine (s : EditorState) : Text :=
  s.line s.cursorLine

def EditorState.beforeCursor (s : EditorState) : Text :=
  sliceTo s.currentLine s.cursorCol

def EditorState.afterCursor (s : EditorState) : Text :=
  sliceFrom s.currentLine s.cursorCol

def EditorState.getText (s : EditorState) : Text :=
  joinLines s.lines

/-- `lines[cursorLine] = line` -/
def setLine (e : Editor) (line : Text) : Editor :=
  { e with state := { e.state with lines := e.state.lines.set e.state.cursorLine line } }

def setCursorCol (e : Editor) (col : ℤ) : Editor :=
  { e with
    state := { e.state with cursorCol := col }
    preferredVisualCol := none
    snappedFromCursorCol := none }

def place (e : Editor) (lines : List Text) (cursorLine : ℕ) (col : ℤ) : Editor :=
  ({ e with state := { e.state with lines := lines, cursorLine := cursorLine } }).setCursorCol col

def exitHistoryBrowsing (e : Editor) : Editor :=
  { e with historyIndex := -1, historyDraft := none }

def acted (e : Editor) (action : Option LastAction) : Editor :=
  { e with lastAction := action }

def snapshot (e : Editor) : EditorSnapshot :=
  ⟨e.state, e.pastes, e.pasteCounter⟩

def pushUndoSnapshot (e : Editor) : Editor :=
  { e with undoStack := e.undoStack ++ [e.snapshot] }

def number (digits : Text) : ℕ :=
  digits.foldl (fun n c => 10 * n + (c.toNat - 48)) 0

/-- `validPasteIds().has(parseInt(id))` -/
def valid (e : Editor) (id : Text) : Bool :=
  decide (number id ∈ Assoc.keys e.pastes)

/-! ### The cursor in place -/

def gapState (g : Gap UInt16) : EditorState :=
  ⟨g.lines, g.above.length, g.before.length⟩

/-- The cursor's line exists, and its column lies within that line. -/
def EditorState.CursorWithin (s : EditorState) : Prop :=
  s.cursorLine < s.lines.length ∧ 0 ≤ s.cursorCol ∧ s.cursorCol ≤ s.currentLine.length

instance (s : EditorState) : Decidable s.CursorWithin :=
  inferInstanceAs (Decidable (_ ∧ _))

variable {g : Gap UInt16}

@[simp] theorem gapState_lines : (gapState g).lines = g.lines := rfl

@[simp] theorem gapState_cursorLine : (gapState g).cursorLine = g.above.length := rfl

@[simp] theorem gapState_cursorCol : (gapState g).cursorCol = g.before.length := rfl

@[simp] theorem gapState_currentLine : (gapState g).currentLine = g.before ++ g.after := by
  simp [EditorState.currentLine, EditorState.line, Gap.lines, Gap.line]

@[simp] theorem gapState_beforeCursor : (gapState g).beforeCursor = g.before := by
  simp [EditorState.beforeCursor]

@[simp] theorem gapState_afterCursor : (gapState g).afterCursor = g.after := by
  simp [EditorState.afterCursor]

theorem gapState_getText : (gapState g).getText = g.upTo newline ++ g.onward newline :=
  Gap.text_lines newline g

theorem gapState_line_above {above : List Text} {previous before after : Text} {below : List Text} :
    (gapState ⟨above ++ [previous], before, after, below⟩).line above.length = previous := by
  simp [EditorState.line, Gap.lines]

theorem gapState_line_below {above : List Text} {before after next : Text} {below : List Text} :
    (gapState ⟨above, before, after, next :: below⟩).line (above.length + 1) = next := by
  simp [EditorState.line, Gap.lines]

theorem cursorWithin_iff {s : EditorState} : s.CursorWithin ↔ ∃ g, s = gapState g := by
  constructor
  · rintro ⟨hline, hnonneg, hle⟩
    obtain ⟨lines, cursorLine, cursorCol⟩ := s
    obtain ⟨before, after, hcut, rfl⟩ := exists_cut hnonneg hle
    refine ⟨⟨lines.take cursorLine, before, after, lines.drop (cursorLine + 1)⟩, ?_⟩
    dsimp only at hline
    rw [EditorState.currentLine, EditorState.line, List.getElem?_eq_getElem hline,
      Option.getD_some] at hcut
    rw [gapState, Gap.lines, Gap.line, ← hcut, ← List.drop_eq_getElem_cons hline,
      List.take_append_drop, List.length_take]
    simp only [EditorState.mk.injEq, true_and]
    exact ⟨by omega, trivial⟩
  · rintro ⟨g, rfl⟩
    refine ⟨?_, by simp, ?_⟩
    · simp [Gap.lines]
    · simp

theorem gapState_within (g : Gap UInt16) : (gapState g).CursorWithin :=
  cursorWithin_iff.mpr ⟨g, rfl⟩

end KnightCode.Editor
