import KnightCode.Editor.VisualLines
import KnightCode.Editor.TextInput

/-!
# Deletions, kills, yanks and undo

Kills put what they delete on the kill ring: kills in a row extend one entry, backward ones at its
beginning and forward ones at its end. A yank inserts the newest entry, and a yank-pop takes it
out again, reckoning its range from the entry and the lines, and inserts the one before. A
backspace over a paste marker takes the paste off the registry and gives the higher ones the
numbers before theirs.
-/

namespace KnightCode.Editor

open Slices JsonText

/-! ### Lines merged -/

/-- The cursor's line goes behind the line before it. -/
def mergeWithPrevious (e : Editor) : Editor :=
  let previousLine := e.state.line (e.state.cursorLine - 1)
  e.place
    ((e.state.lines.set (e.state.cursorLine - 1) (previousLine ++ e.state.currentLine)).eraseIdx
      e.state.cursorLine)
    (e.state.cursorLine - 1) previousLine.length

/-- The next line goes behind the cursor's line. -/
def mergeWithNext (e : Editor) : Editor :=
  let nextLine := e.state.line (e.state.cursorLine + 1)
  { e with
    state := { e.state with
      lines := (e.state.lines.set e.state.cursorLine (e.state.currentLine ++ nextLine)).eraseIdx
        (e.state.cursorLine + 1) } }

/-! ### Moves by words -/

def moveWordBackwards (host : Host) (e : Editor) : Editor :=
  let e := e.acted none
  if e.state.cursorCol = 0 then
    if 0 < e.state.cursorLine then
      e.place e.state.lines (e.state.cursorLine - 1) (e.state.line (e.state.cursorLine - 1)).length
    else e
  else e.setCursorCol (findWordBackward (e.words host) e.state.currentLine e.state.cursorCol)

def moveWordForwards (host : Host) (e : Editor) : Editor :=
  let e := e.acted none
  if (e.state.currentLine.length : ℤ) ≤ e.state.cursorCol then
    if e.state.cursorLine + 1 < e.state.lines.length then
      e.place e.state.lines (e.state.cursorLine + 1) 0
    else e
  else e.setCursorCol (findWordForward (e.words host) e.state.currentLine e.state.cursorCol)

/-! ### Kills -/

inductive Kill
  | toStartOfLine
  | toEndOfLine
  | wordBackwards
  | wordForward
deriving DecidableEq

/-- The text goes on the ring, onto the newest entry when the last action was a kill. -/
def killed (e : Editor) (text : Text) (backward wasKill : Bool) : Editor :=
  { e with killRing := e.killRing.push text backward wasKill, lastAction := some .kill }

def wasKill (e : Editor) : Bool :=
  e.lastAction == some .kill

def deleteToStartOfLine (e : Editor) : Editor :=
  let e := e.exitHistoryBrowsing
  if 0 < e.state.cursorCol then
    ((e.pushUndoSnapshot.killed e.state.beforeCursor true e.wasKill).setLine
      e.state.afterCursor).setCursorCol 0
  else if 0 < e.state.cursorLine then
    (e.pushUndoSnapshot.killed [newline] true e.wasKill).mergeWithPrevious
  else e

def deleteToEndOfLine (e : Editor) : Editor :=
  let e := e.exitHistoryBrowsing
  if e.state.cursorCol < e.state.currentLine.length then
    (e.pushUndoSnapshot.killed e.state.afterCursor false e.wasKill).setLine e.state.beforeCursor
  else if e.state.cursorLine + 1 < e.state.lines.length then
    (e.pushUndoSnapshot.killed [newline] false e.wasKill).mergeWithNext
  else e

def deleteWordBackwards (host : Host) (e : Editor) : Editor :=
  let e := e.exitHistoryBrowsing
  if e.state.cursorCol = 0 then
    if 0 < e.state.cursorLine then
      (e.pushUndoSnapshot.killed [newline] true e.wasKill).mergeWithPrevious
    else e
  else
    let moved := e.pushUndoSnapshot.moveWordBackwards host
    let deleteFrom := moved.state.cursorCol
    let back := moved.setCursorCol e.state.cursorCol
    let deletedText := Slices.slice e.state.currentLine deleteFrom e.state.cursorCol
    ((back.killed deletedText true e.wasKill).setLine
      (sliceTo e.state.currentLine deleteFrom ++ e.state.afterCursor)).setCursorCol deleteFrom

def deleteWordForward (host : Host) (e : Editor) : Editor :=
  let e := e.exitHistoryBrowsing
  if (e.state.currentLine.length : ℤ) ≤ e.state.cursorCol then
    if e.state.cursorLine + 1 < e.state.lines.length then
      (e.pushUndoSnapshot.killed [newline] false e.wasKill).mergeWithNext
    else e
  else
    let moved := e.pushUndoSnapshot.moveWordForwards host
    let deleteTo := moved.state.cursorCol
    let back := moved.setCursorCol e.state.cursorCol
    let deletedText := Slices.slice e.state.currentLine e.state.cursorCol deleteTo
    (back.killed deletedText false e.wasKill).setLine
      (e.state.beforeCursor ++ sliceFrom e.state.currentLine deleteTo)

def kill (host : Host) (k : Kill) (e : Editor) : Editor :=
  match k with
  | .toStartOfLine => e.deleteToStartOfLine
  | .toEndOfLine => e.deleteToEndOfLine
  | .wordBackwards => e.deleteWordBackwards host
  | .wordForward => e.deleteWordForward host

/-! ### Yanks -/

/-- Lines put in at a place one at a time. -/
def spliceEach (lines : List Text) (start : ℕ) : List Text → List Text
  | [] => lines
  | line :: rest => spliceEach (splice lines start 0 [line]) (start + 1) rest

def insertYankedText (text : Text) (e : Editor) : Editor :=
  let e := e.exitHistoryBrowsing
  let lines := splitLines text
  let before := e.state.beforeCursor
  let after := e.state.afterCursor
  if lines.length = 1 then
    (e.setLine (before ++ text ++ after)).setCursorCol (e.state.cursorCol + text.length)
  else
    let first := e.state.lines.set e.state.cursorLine (before ++ lines.headD [])
    let middle := spliceEach first (e.state.cursorLine + 1) lines.tail.dropLast
    let lastLineIndex := e.state.cursorLine + lines.length - 1
    e.place (splice middle lastLineIndex 0 [lines.getLastD [] ++ after]) lastLineIndex
      (lines.getLastD []).length

def deleteYankedText (e : Editor) : Editor :=
  match e.killRing.peek with
  | none => e
  | some yankedText =>
    let yankLines := splitLines yankedText
    if yankedText = [] then e
    else if yankLines.length = 1 then
      let start := e.state.cursorCol - yankedText.length
      (e.setLine (sliceTo e.state.currentLine start ++ e.state.afterCursor)).setCursorCol start
    else
      let startLine := e.state.cursorLine - (yankLines.length - 1)
      let startCol : ℤ := (e.state.line startLine).length - (yankLines.headD []).length
      let beforeYank := sliceTo (e.state.line startLine) startCol
      e.place (splice e.state.lines startLine yankLines.length [beforeYank ++ e.state.afterCursor])
        startLine startCol

def yank (e : Editor) : Editor :=
  match e.killRing.peek with
  | none => e
  | some text => (e.pushUndoSnapshot.insertYankedText text).acted (some .yank)

def yankPop (e : Editor) : Editor :=
  if e.lastAction ≠ some .yank ∨ e.killRing.length ≤ 1 then e
  else
    let e := e.pushUndoSnapshot.deleteYankedText
    let e := { e with killRing := e.killRing.rotate }
    (e.insertYankedText (e.killRing.peek.getD [])).acted (some .yank)

def undo (e : Editor) : Editor :=
  let e := e.exitHistoryBrowsing
  match e.undoStack.getLast? with
  | none => e
  | some snapshot =>
    { e with
      undoStack := e.undoStack.dropLast
      state := snapshot.state
      pastes := snapshot.pastes
      pasteCounter := snapshot.pasteCounter
      lastAction := none
      preferredVisualCol := none }

/-! ### Deletions of one grapheme -/

def markerId (segment : Text) : Option Text :=
  if isPasteMarker segment then (matchMarker segment).map MarkerMatch.id else none

/-- `${Number(id) - 1}` -/
def lessOne (host : Host) (id : Text) : Text :=
  if number id ≤ 2 ^ 53 then decimal (number id - 1) else host.lessOne id

/-- The marker's size with its blank; a marker without one has none to give. -/
def sizeText (found : MarkerMatch) (marker : Text) : Text :=
  let suffix := (marker.drop (markerStart.length + found.id.length)).dropLast
  if suffix = [] then ascii "undefined" else suffix

/-- Markers with numbers above the target's, in the line, get the numbers before theirs. The first
number counts the units of a match that are still to be passed. -/
def renumberLine (host : Host) (targetId : ℕ) : ℕ → Text → Text
  | _, [] => []
  | skip + 1, _ :: rest => renumberLine host targetId skip rest
  | 0, c :: rest =>
    match matchMarker (c :: rest) with
    | some found =>
      let marker := (c :: rest).take found.length
      (if number found.id ≤ targetId then marker
        else markerStart ++ (lessOne host found.id ++ (sizeText found marker ++ [93]))) ++
      renumberLine host targetId (found.length - 1) rest
    | none => c :: renumberLine host targetId 0 rest

/-- The registry without the target, the higher numbers moved down in ascending order. -/
def renumberPastes (targetId : ℕ) (pastes : List (ℕ × Text)) : List (ℕ × Text) :=
  let left := Assoc.erase targetId pastes
  let higherIds := ((Assoc.keys left).filter (targetId < ·)).insertionSort (· ≤ ·)
  higherIds.foldl (fun pastes id =>
    match Assoc.get id pastes with
    | some content => Assoc.erase id (Assoc.set (id - 1) content pastes)
    | none => pastes) left

def removePaste (host : Host) (targetId : ℕ) (e : Editor) : Editor :=
  { e with
    pastes := renumberPastes targetId e.pastes
    pasteCounter := e.pasteCounter - 1
    state := { e.state with lines := e.state.lines.map (renumberLine host targetId 0) } }

def handleBackspace (host : Host) (e : Editor) : Editor :=
  let e := e.exitHistoryBrowsing.acted none
  if 0 < e.state.cursorCol then
    let e := e.pushUndoSnapshot
    match (e.segment host e.state.beforeCursor).getLast? with
    -- there is no last grapheme to match, and the call throws
    | none => e
    | some lastGrapheme =>
      let graphemeLength : ℤ := lastGrapheme.segment.length
      let e :=
        match markerId lastGrapheme.segment with
        | some id => e.removePaste host (number id)
        | none => e
      let start := e.state.cursorCol - graphemeLength
      (e.setLine (sliceTo e.state.currentLine start ++ e.state.afterCursor)).setCursorCol start
  else if 0 < e.state.cursorLine then e.pushUndoSnapshot.mergeWithPrevious
  else e

def handleForwardDelete (host : Host) (e : Editor) : Editor :=
  let e := e.exitHistoryBrowsing.acted none
  if e.state.cursorCol < e.state.currentLine.length then
    let e := e.pushUndoSnapshot
    let graphemeLength :=
      ((e.segment host e.state.afterCursor).head?.map fun seg => seg.segment.length).getD 1
    e.setLine (e.state.beforeCursor ++
      sliceFrom e.state.currentLine (e.state.cursorCol + graphemeLength))
  else if e.state.cursorLine + 1 < e.state.lines.length then e.pushUndoSnapshot.mergeWithNext
  else e

end KnightCode.Editor
