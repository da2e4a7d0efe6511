import KnightCode.Editor.KillYank

/-!
# Runs of the editor

An act is one operation of the editor, with what it is given. An operation that draws up the
visual lines while the stack overflows throws there, and leaves what it has done until then.
-/

namespace KnightCode.Editor

open Slices List

/-! ### Moves of the cursor -/

def moveToLineStart (e : Editor) : Editor :=
  (e.acted none).setCursorCol 0

def moveToLineEnd (e : Editor) : Editor :=
  (e.acted none).setCursorCol e.state.currentLine.length

/-- `moveCursor(delta, 0)` -/
def moveVertically (host : Host) (delta : ℤ) (e : Editor) : Editor :=
  let e := e.acted none
  match e.buildVisualLineMap host with
  | none => e
  | some visualLines =>
    let currentVisualLine := e.findCurrentVisualLine visualLines
    let targetVisualLine := currentVisualLine + delta
    if 0 ≤ targetVisualLine ∧ targetVisualLine < visualLines.length then
      moveToVisualLine host visualLines currentVisualLine targetVisualLine.toNat e
    else e

/-- `moveCursor(0, 1)` -/
def moveRight (host : Host) (e : Editor) : Editor :=
  let e := e.acted none
  match e.buildVisualLineMap host with
  | none => e
  | some visualLines =>
    if e.state.cursorCol < e.state.currentLine.length then
      e.setCursorCol (e.state.cursorCol +
        (((e.segment host e.state.afterCursor).head?.map fun seg => seg.segment.length).getD 1))
    else if e.state.cursorLine + 1 < e.state.lines.length then
      e.place e.state.lines (e.state.cursorLine + 1) 0
    else
      match visualLines[e.findCurrentVisualLine visualLines]? with
      | some currentVL =>
        { e with preferredVisualCol := some (e.state.cursorCol - currentVL.startCol) }
      | none => e

/-- `moveCursor(0, -1)` -/
def moveLeft (host : Host) (e : Editor) : Editor :=
  let e := e.acted none
  match e.buildVisualLineMap host with
  | none => e
  | some _ =>
    if 0 < e.state.cursorCol then
      e.setCursorCol (e.state.cursorCol -
        (((e.segment host e.state.beforeCursor).getLast?.map fun seg => seg.segment.length).getD 1))
    else if 0 < e.state.cursorLine then
      e.place e.state.lines (e.state.cursorLine - 1) (e.state.line (e.state.cursorLine - 1)).length
    else e

def isEditorEmpty (e : Editor) : Bool :=
  e.state.lines == [[]]

/-- The key for up: an older prompt, the line's start, or a move. -/
def cursorUp (host : Host) (e : Editor) : Editor :=
  match e.buildVisualLineMap host with
  | none => e
  | some visualLines =>
    if e.findCurrentVisualLine visualLines = 0 then
      if e.isEditorEmpty ∨ -1 < e.historyIndex ∨ e.state.cursorCol = 0 then e.navigateHistory (-1)
      else e.moveToLineStart
    else e.moveVertically host (-1)

/-- The key for down: a newer prompt, the line's end, or a move. -/
def cursorDown (host : Host) (e : Editor) : Editor :=
  match e.buildVisualLineMap host with
  | none => e
  | some visualLines =>
    if e.findCurrentVisualLine visualLines + 1 = visualLines.length then
      if -1 < e.historyIndex then e.navigateHistory 1 else e.moveToLineEnd
    else e.moveVertically host 1

def pageScroll (host : Host) (direction : ℤ) (pageSize : ℕ) (e : Editor) : Editor :=
  let e := e.acted none
  match e.buildVisualLineMap host with
  | none => e
  | some visualLines =>
    let currentVisualLine := e.findCurrentVisualLine visualLines
    let targetVisualLine :=
      max 0 (min ((visualLines.length : ℤ) - 1) (currentVisualLine + direction * pageSize))
    moveToVisualLine host visualLines currentVisualLine targetVisualLine.toNat e

/-- A vertical move stays where it is or goes to a visual line. -/
inductive MovesTo (host : Host) (e : Editor) : Editor → Prop
  | stays : MovesTo host e (e.acted none)
  | goes {visualLines : List VisualLine}
      (h : (e.acted none).buildVisualLineMap host = some visualLines) (target : ℕ) :
      MovesTo host e (moveToVisualLine host visualLines
        ((e.acted none).findCurrentVisualLine visualLines) target (e.acted none))

theorem moveVertically_movesTo (host : Host) (delta : ℤ) (e : Editor) :
    MovesTo host e (e.moveVertically host delta) := by
  rw [moveVertically]
  cases hbuild : (e.acted none).buildVisualLineMap host with
  | none => exact .stays
  | some visualLines =>
    dsimp only
    split_ifs
    · exact .goes hbuild _
    · exact .stays

theorem pageScroll_movesTo (host : Host) (direction : ℤ) (pageSize : ℕ) (e : Editor) :
    MovesTo host e (e.pageScroll host direction pageSize) := by
  rw [pageScroll]
  cases hbuild : (e.acted none).buildVisualLineMap host with
  | none => exact .stays
  | some visualLines => exact .goes hbuild _

/-- Where in a chunk a column is, and where its last segment begins. `visibleColumn` counts the
columns before the segments that are left. -/
def clickedIndex (host : Host) (targetColumn : ℕ) (length : ℕ) :
    ℕ → ℕ → List SegmentData → ℕ × ℕ
  | _, lastIndex, [] => (length, lastIndex)
  | visibleColumn, _, grapheme :: rest =>
    let nextColumn := visibleColumn + visibleWidth host.display grapheme.segment
    if targetColumn < nextColumn then (grapheme.index, grapheme.index)
    else clickedIndex host targetColumn length nextColumn grapheme.index rest

/-- The place that a click goes to. -/
def clickTarget (host : Host) (visualLineIndex targetColumn : ℕ) (e : Editor) : Option (ℕ × ℕ) :=
  match e.buildVisualLineMap host with
  | none => none
  | some visualLines =>
    match visualLines[visualLineIndex]? with
    | none => none
    | some visualLine =>
      let logicalLine := e.state.line visualLine.logicalLine
      let chunk := Slices.slice logicalLine visualLine.startCol
        ((visualLine.startCol + visualLine.length : ℕ) : ℤ)
      let (targetIndex, lastGraphemeIndex) :=
        clickedIndex host targetColumn chunk.length 0 0 (e.segment host chunk)
      let isLastSegment := isLastSegmentOfLine visualLine visualLines[visualLineIndex + 1]?
      let index :=
        if !isLastSegment ∧ targetIndex = chunk.length ∧ 0 < chunk.length then lastGraphemeIndex
        else targetIndex
      some (visualLine.logicalLine, visualLine.startCol + index)

def click (host : Host) (visualLineIndex targetColumn : ℕ) (e : Editor) : Editor :=
  match e.clickTarget host visualLineIndex targetColumn with
  | none => e
  | some (line, index) => ((e.place e.state.lines line index).acted none).exitHistoryBrowsing

def indexOf (line char : Text) (from' : ℤ) : Option ℕ :=
  (range (line.length + 1)).find? fun i =>
    decide (min from'.toNat line.length ≤ i) && char.isPrefixOf (line.drop i)

def lastIndexOf (line char : Text) (from' : ℤ) : Option ℕ :=
  (range (line.length + 1)).reverse.find? fun i =>
    decide (i ≤ from'.toNat) && char.isPrefixOf (line.drop i)

/-- The first line from the cursor's on, and the place in it, that has the text. -/
def jumpTarget (s : EditorState) (char : Text) (forward : Bool) : Option (ℕ × ℕ) :=
  if forward then
    ((range s.lines.length).drop s.cursorLine).findSome? fun i =>
      (indexOf (s.line i) char (if i = s.cursorLine then s.cursorCol + 1 else 0)).map (i, ·)
  else
    (range (s.cursorLine + 1)).reverse.findSome? fun i =>
      (lastIndexOf (s.line i) char
        (if i = s.cursorLine then s.cursorCol - 1 else (s.line i).length)).map (i, ·)

def jumpToChar (char : Text) (forward : Bool) (e : Editor) : Editor :=
  let e := e.acted none
  match jumpTarget e.state char forward with
  | some (line, index) => e.place e.state.lines line index
  | none => e

/-- The width given to lines when the editor is drawn. -/
def render (layoutWidth : ℕ) (e : Editor) : Editor :=
  { e with lastWidth := max 1 layoutWidth }

/-! ### Acts -/

inductive Act
  | insertCharacter (char : Text)
  | paste (text : Text)
  | addNewLine
  | backspace
  | forwardDelete
  | kill (k : Kill)
  | yank
  | yankPop
  | undo
  | cursorUp
  | cursorDown
  | cursorLeft
  | cursorRight
  | cursorLineStart
  | cursorLineEnd
  | cursorWordLeft
  | cursorWordRight
  | pageScroll (direction : ℤ) (pageSize : ℕ)
  | click (visualLineIndex targetColumn : ℕ)
  | jumpToChar (char : Text) (forward : Bool)
  | navigateHistory (direction : ℤ)
  | addToHistory (text : Text)
  | setText (text : Text)
  | insertTextAtCursor (text : Text)
  | applyCompletion (item : AutocompleteItem) (typed : Text)
  | submit
  | render (layoutWidth : ℕ)

def step (host : Host) (e : Editor) : Act → Editor
  | .insertCharacter char => e.insertCharacter char
  | .paste text => e.handlePaste text
  | .addNewLine => e.addNewLine
  | .backspace => e.handleBackspace host
  | .forwardDelete => e.handleForwardDelete host
  | .kill k => e.kill host k
  | .yank => e.yank
  | .yankPop => e.yankPop
  | .undo => e.undo
  | .cursorUp => e.cursorUp host
  | .cursorDown => e.cursorDown host
  | .cursorLeft => e.moveLeft host
  | .cursorRight => e.moveRight host
  | .cursorLineStart => e.moveToLineStart
  | .cursorLineEnd => e.moveToLineEnd
  | .cursorWordLeft => e.moveWordBackwards host
  | .cursorWordRight => e.moveWordForwards host
  | .pageScroll direction pageSize => e.pageScroll host direction pageSize
  | .click visualLineIndex targetColumn => e.click host visualLineIndex targetColumn
  | .jumpToChar char forward => e.jumpToChar char forward
  | .navigateHistory direction => e.navigateHistory direction
  | .addToHistory text => e.addToHistory text
  | .setText text => e.setText text
  | .insertTextAtCursor text => e.insertTextAtCursor text
  | .applyCompletion item typed => e.applyCompletion item typed
  | .submit => e.submitValue
  | .render layoutWidth => e.render layoutWidth

def run (host : Host) (e : Editor) (acts : List Act) : Editor :=
  acts.foldl (step host) e

end KnightCode.Editor
