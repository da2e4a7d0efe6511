import KnightCode.Editor.State

/-!
# Text coming into the editor

Typed characters, pastes, new lines, completions, texts set by the program, and the history of
prompts. A paste of more than ten lines or a thousand units is registered under the next number,
and a marker with that number comes into the text in its place.
-/

namespace KnightCode.Editor

open Slices JsonText

/-- `\r\n` and `\r` become `\n`, a tab four blanks. -/
def normalizeText : Text → Text
  | [] => []
  | c :: rest =>
    if c = 13 then
      if rest.head? = some 10 then normalizeText rest else 10 :: normalizeText rest
    else if c = 9 then 32 :: 32 :: 32 :: 32 :: normalizeText rest
    else c :: normalizeText rest

def trim (text : Text) : Text :=
  (text.dropWhile isSpace).rdropWhile isSpace

def insertTextAtCursorInternal (e : Editor) (text : Text) : Editor :=
  if text = [] then e
  else
    let normalized := normalizeText text
    let insertedLines := splitLines normalized
    let beforeCursor := e.state.beforeCursor
    let afterCursor := e.state.afterCursor
    if insertedLines.length = 1 then
      (e.setLine (beforeCursor ++ normalized ++ afterCursor)).setCursorCol
        (e.state.cursorCol + normalized.length)
    else
      e.place
        (e.state.lines.take e.state.cursorLine ++ [beforeCursor ++ insertedLines.headD []] ++
          insertedLines.tail.dropLast ++ [insertedLines.getLastD [] ++ afterCursor] ++
          e.state.lines.drop (e.state.cursorLine + 1))
        (e.state.cursorLine + (insertedLines.length - 1)) (insertedLines.getLastD []).length

/-! ### Typing -/

/-- White space is a step of its own for undo; characters of a word are one step together. -/
def insertCharacter (char : Text) (e : Editor) : Editor :=
  let e := e.exitHistoryBrowsing
  let e := if isWhitespaceChar char || e.lastAction != some .typeWord then e.pushUndoSnapshot else e
  ((e.acted (some .typeWord)).setLine
    (e.state.beforeCursor ++ char ++ e.state.afterCursor)).setCursorCol
      (e.state.cursorCol + char.length)

def addNewLine (e : Editor) : Editor :=
  let e := (e.exitHistoryBrowsing.acted none).pushUndoSnapshot
  let lines := e.state.lines.set e.state.cursorLine e.state.beforeCursor
  e.place (splice lines (e.state.cursorLine + 1) 0 [e.state.afterCursor]) (e.state.cursorLine + 1) 0

/-! ### Pastes -/

/-- The digits of `\x1b\[(\d+);5u` at the text's front. -/
def controlDigits (text : Text) : Option Text :=
  if [27, 91] <+: text then
    let digits := (text.drop 2).takeWhile isDigit
    if digits ≠ [] ∧ [59, 53, 117] <+: text.drop (2 + digits.length) then some digits else none
  else none

def controlCharacter (code : ℕ) : Option UInt16 :=
  if 97 ≤ code ∧ code ≤ 122 then some (UInt16.ofNat (code - 96))
  else if 65 ≤ code ∧ code ≤ 90 then some (UInt16.ofNat (code - 64))
  else none

/-- Control characters the terminal has encoded again. The first argument counts the units of a
match that are still to be passed. -/
def decodeControls : ℕ → Text → Text
  | _, [] => []
  | skip + 1, _ :: rest => decodeControls skip rest
  | 0, c :: rest =>
    match controlDigits (c :: rest) with
    | some digits =>
      match controlCharacter (number digits) with
      | some control => control :: decodeControls (digits.length + 4) rest
      | none => c :: decodeControls 0 rest
    | none => c :: decodeControls 0 rest

/-- `\w` -/
def isWordUnit (c : UInt16) : Bool :=
  isDigit c || (65 ≤ c && c ≤ 90) || (97 ≤ c && c ≤ 122) || c = 95

/-- What a paste puts in: no control characters but newlines, and a blank before a path that
would come to stand behind a word. -/
def pastedText (s : EditorState) (text : Text) : Text :=
  let filteredText := (normalizeText (decodeControls 0 text)).filter fun c => c = newline || 32 ≤ c
  let isPath := filteredText.head?.any fun c => c = 47 || c = 126 || c = 46
  let charBeforeCursor := if 0 < s.cursorCol then s.currentLine[(s.cursorCol - 1).toNat]? else none
  if isPath && charBeforeCursor.any isWordUnit then 32 :: filteredText else filteredText

/-- `[paste #3 +12 lines]` or `[paste #3 1234 chars]` -/
def pasteMarker (pasteId lines chars : ℕ) : Text :=
  markerStart ++ (decimal pasteId ++
    if 10 < lines then 32 :: 43 :: (decimal lines ++ linesEnd) else 32 :: (decimal chars ++ charsEnd))

def handlePaste (text : Text) (e : Editor) : Editor :=
  let e := (e.exitHistoryBrowsing.acted none).pushUndoSnapshot
  let filteredText := pastedText e.state text
  let pastedLines := (splitLines filteredText).length
  if 10 < pastedLines ∨ 1000 < filteredText.length then
    let pasteId := e.pasteCounter + 1
    let e := { e with pasteCounter := pasteId, pastes := Assoc.set pasteId filteredText e.pastes }
    e.insertTextAtCursorInternal (pasteMarker pasteId pastedLines filteredText.length)
  else e.insertTextAtCursorInternal filteredText

/-! ### Texts of the program -/

def insertTextAtCursor (text : Text) (e : Editor) : Editor :=
  if text = [] then e
  else ((e.pushUndoSnapshot.acted none).exitHistoryBrowsing).insertTextAtCursorInternal text

/-- `setTextInternal(text, "start")` or `setTextInternal(text, "end")` -/
def setTextInternal (text : Text) (atStart : Bool) (e : Editor) : Editor :=
  let lines := splitLines text
  if atStart then e.place lines 0 0
  else e.place lines (lines.length - 1) (lines.getLastD []).length

def setText (text : Text) (e : Editor) : Editor :=
  let e := (e.acted none).exitHistoryBrowsing
  let normalized := normalizeText text
  let e := if e.state.getText ≠ normalized then e.pushUndoSnapshot else e
  ({ e with pastes := [], pasteCounter := 0 }).setTextInternal normalized false

/-! ### Completions -/

structure AutocompleteItem where
  value : Text
  label : Text

/-- Before the closing quote of a directory, which may be completed further. -/
def cursorOffset (item : AutocompleteItem) : ℤ :=
  if item.label.getLast? = some 47 ∧ item.value.getLast? = some 34 then
    (item.value.length : ℤ) - 1
  else item.value.length

/-- The text behind the cursor, without a quote that the item brings itself. -/
def adjustedAfterCursor (s : EditorState) (item : AutocompleteItem) (typed : Text) : Text :=
  let isQuotedPrefix := typed.head? = some 34 ∨ [64, 34] <+: typed
  if isQuotedPrefix ∧ item.value.getLast? = some 34 ∧ s.afterCursor.head? = some 34 then
    s.afterCursor.tail
  else s.afterCursor

/-- `CombinedAutocompleteProvider.applyCompletion`: the line, and the cursor's column in it. -/
def completedLine (s : EditorState) (item : AutocompleteItem) (typed : Text) : Text × ℤ :=
  let beforePrefix := sliceTo s.currentLine (s.cursorCol - typed.length)
  let rest := adjustedAfterCursor s item typed
  if typed.head? = some 47 ∧ trim beforePrefix = [] ∧ 47 ∉ typed.tail then
    (beforePrefix ++ 47 :: (item.value ++ 32 :: rest), beforePrefix.length + item.value.length + 2)
  else if typed.head? = some 64 then
    let suffix := if item.label.getLast? = some 47 then [] else [32]
    (beforePrefix ++ item.value ++ suffix ++ rest,
      beforePrefix.length + cursorOffset item + suffix.length)
  else (beforePrefix ++ item.value ++ rest, beforePrefix.length + cursorOffset item)

def applyCompletion (item : AutocompleteItem) (typed : Text) (e : Editor) : Editor :=
  let e := e.pushUndoSnapshot.acted none
  let completed := completedLine e.state item typed
  (e.setLine completed.1).setCursorCol completed.2

/-! ### Prompts -/

def addToHistory (text : Text) (e : Editor) : Editor :=
  let trimmed := trim text
  if trimmed = [] ∨ e.history.head? = some trimmed then e
  else { e with history := (trimmed :: e.history).take 100 }

/-- The draft is kept when the prompts are first browsed. -/
def keepDraft (e : Editor) : Editor :=
  { e.pushUndoSnapshot with historyDraft := some e.state }

/-- The prompt at an index, or the draft at -1. -/
def showHistory (newIndex direction : ℤ) (e : Editor) : Editor :=
  let e := { e with historyIndex := newIndex }
  if newIndex = -1 then
    match e.historyDraft with
    | some draft =>
      { e with
        historyDraft := none
        state := draft
        preferredVisualCol := none
        snappedFromCursorCol := none }
    | none => ({ e with historyDraft := none }).setTextInternal [] false
  else e.setTextInternal (e.history[newIndex.toNat]?.getD []) (direction == -1)

/-- `navigateHistory(-1)` goes to an older prompt, `navigateHistory(1)` to a newer one or back to
the draft. -/
def navigateHistory (direction : ℤ) (e : Editor) : Editor :=
  let e := e.acted none
  let newIndex := e.historyIndex - direction
  if e.history = [] ∨ newIndex < -1 ∨ (e.history.length : ℤ) ≤ newIndex then e
  else if e.historyIndex = -1 ∧ 0 ≤ newIndex then e.keepDraft.showHistory newIndex direction
  else e.showHistory newIndex direction

def submitValue (e : Editor) : Editor :=
  { e.exitHistoryBrowsing with
    state := ⟨[[]], 0, 0⟩
    pastes := []
    pasteCounter := 0
    undoStack := []
    lastAction := none }

end KnightCode.Editor
