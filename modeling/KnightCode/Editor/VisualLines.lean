import KnightCode.Editor.State
import KnightCode.Editor.WordWrap

/-!
# Visual lines and vertical moves

A line of the editor is drawn as one or more visual lines. A vertical move keeps the visual
column, or the preferred one when a shorter line has cut it, and a cursor that comes to stand
inside a segment goes to the segment's start; the column it came from is remembered. Where no
line has a paste marker the visual lines of a line lie one behind the other and begin where
graphemes begin, so that a cursor in place stays in place.
-/

namespace KnightCode.Editor

open Slices

/-- What the editor is given: graphemes and their widths, words, and how deep calls may go. -/
structure Host where
  display : Display
  wordSegment : Text → List Text
  isWordLike : Text → ℕ → Bool
  stackDepth : ℕ
  /-- `Number(digits) - 1` as text, for numbers above 2^53. -/
  lessOne : Text → Text

def Host.wordDisplay (host : Host) : Display :=
  { host.display with segment := host.wordSegment }

structure Host.Lawful (host : Host) : Prop where
  graphemes : host.display.Lawful
  words : Cuts host.wordDisplay

/-- One word for a text. -/
def oneWord (t : Text) : List Text :=
  if t = [] then [] else [t]

def pairHost : Host where
  display := pairDisplay
  wordSegment := oneWord
  isWordLike _ _ := true
  stackDepth := 8
  lessOne := id

theorem pairHost_lawful : pairHost.Lawful where
  graphemes := pairDisplay_lawful
  words :=
    { flatten := fun t => by
        change (oneWord t).flatten = t
        rw [oneWord]
        split_ifs with hnil
        · exact hnil.symm
        · exact List.flatten_singleton
      ne_nil := fun t h => by
        change [] ∈ oneWord t at h
        rw [oneWord] at h
        split_ifs at h with hnil
        · cases h
        · exact hnil (List.mem_singleton.mp h).symm }

def segment (host : Host) (e : Editor) (text : Text) : List SegmentData :=
  segmentWithMarkers host.display e.valid text

def words (host : Host) (e : Editor) : Words :=
  ⟨segmentWithMarkers host.wordDisplay e.valid, host.isWordLike⟩

theorem words_lawful {host : Host} (h : host.Lawful) (e : Editor) : (e.words host).Lawful :=
  ⟨units_le h.words e.valid, fun _ _ => segment_ne_nil h.words e.valid,
    fun _ => segments_ne_nil h.words e.valid⟩

/-! ### The map of visual lines -/

structure VisualLine where
  logicalLine : ℕ
  startCol : ℕ
  length : ℕ

def lineVisualLines (host : Host) (valid : Text → Bool) (width index : ℕ) (line : Text) :
    Option (List VisualLine) :=
  if line = [] then some [⟨index, 0, 0⟩]
  else if visibleWidth host.display line ≤ width then some [⟨index, 0, line.length⟩]
  else
    (wordWrapLine host.display width host.stackDepth line
      (some (segmentWithMarkers host.display valid line))).map fun chunks =>
        chunks.map fun chunk => ⟨index, chunk.startIndex, chunk.endIndex - chunk.startIndex⟩

def visualLinesFrom (host : Host) (valid : Text → Bool) (width : ℕ) :
    ℕ → List Text → Option (List VisualLine)
  | _, [] => some []
  | index, line :: rest =>
    (lineVisualLines host valid width index line).bind fun visualLines =>
      (visualLinesFrom host valid width (index + 1) rest).map (visualLines ++ ·)

/-- `none` when `wordWrapLine` overflows the stack. -/
def buildVisualLineMap (host : Host) (e : Editor) : Option (List VisualLine) :=
  visualLinesFrom host e.valid e.lastWidth 0 e.state.lines

def isLastSegmentOfLine (vl : VisualLine) (next : Option VisualLine) : Bool :=
  next.map VisualLine.logicalLine != some vl.logicalLine

def findVisualLineFrom (line : ℕ) (col : ℤ) : ℕ → List VisualLine → Option ℕ
  | _, [] => none
  | i, vl :: rest =>
    let offset := col - vl.startCol
    if vl.logicalLine = line ∧ 0 ≤ offset ∧
        (offset < vl.length ∨ isLastSegmentOfLine vl rest.head? = true ∧ offset = vl.length) then
      some i
    else findVisualLineFrom line col (i + 1) rest

def findVisualLineAt (visualLines : List VisualLine) (line : ℕ) (col : ℤ) : ℕ :=
  (findVisualLineFrom line col 0 visualLines).getD (visualLines.length - 1)

def findCurrentVisualLine (e : Editor) (visualLines : List VisualLine) : ℕ :=
  findVisualLineAt visualLines e.state.cursorLine e.state.cursorCol

/-! ### Vertical moves -/

/-- The preferred column from now on, and the column moved to, whatever was preferred. -/
def freshMoveColumn (currentVisualCol targetMaxVisualCol : ℤ) : Option ℤ × ℤ :=
  if targetMaxVisualCol < currentVisualCol then (some currentVisualCol, targetMaxVisualCol)
  else (none, currentVisualCol)

def computeVerticalMoveColumn (preferred : Option ℤ)
    (currentVisualCol sourceMaxVisualCol targetMaxVisualCol : ℤ) : Option ℤ × ℤ :=
  match preferred with
  | none => freshMoveColumn currentVisualCol targetMaxVisualCol
  | some col =>
    if currentVisualCol < sourceMaxVisualCol then
      freshMoveColumn currentVisualCol targetMaxVisualCol
    else if targetMaxVisualCol < currentVisualCol ∨ targetMaxVisualCol < col then
      (some col, targetMaxVisualCol)
    else (none, col)

/-- The last column of a visual line that belongs to it. -/
def maxVisualCol (visualLines : List VisualLine) (index : ℕ) (vl : VisualLine) : ℤ :=
  if isLastSegmentOfLine vl visualLines[index + 1]? then vl.length else max 0 ((vl.length : ℤ) - 1)

/-- The cursor's visual column, or that of the column it was snapped from. -/
def currentVisualCol (e : Editor) (visualLines : List VisualLine) (currentVL : VisualLine) : ℤ :=
  match e.snappedFromCursorCol with
  | some col =>
    let vlIndex := findVisualLineAt visualLines currentVL.logicalLine col
    col - ((visualLines[vlIndex]?.map VisualLine.startCol).getD 0 : ℕ)
  | none => e.state.cursorCol - currentVL.startCol

/-- The segment of more than one unit that the column is in. -/
def atomicAt (segments : List SegmentData) (col : ℤ) : Option SegmentData :=
  (segments.takeWhile fun seg => decide ((seg.index : ℤ) ≤ col)).find? fun seg =>
    decide (1 < seg.segment.length ∧ col < seg.index + seg.segment.length)

def pastContinuations (visualLines : List VisualLine) (line segEnd next : ℕ) : ℕ :=
  next + ((visualLines.drop next).takeWhile fun vl =>
    decide (vl.logicalLine = line ∧ vl.startCol < segEnd)).length

def moveToVisualLine (host : Host) (visualLines : List VisualLine)
    (currentVisualLine targetVisualLine : ℕ) (e : Editor) : Editor :=
  match visualLines[currentVisualLine]?, visualLines[targetVisualLine]? with
  | some currentVL, some targetVL =>
    let (preferredVisualCol, moveToVisualCol) := computeVerticalMoveColumn e.preferredVisualCol
      (e.currentVisualCol visualLines currentVL)
      (maxVisualCol visualLines currentVisualLine currentVL)
      (maxVisualCol visualLines targetVisualLine targetVL)
    let logicalLine := e.state.line targetVL.logicalLine
    let cursorCol := min (targetVL.startCol + moveToVisualCol) logicalLine.length
    let moved : Editor :=
      { e with
        state := { e.state with cursorLine := targetVL.logicalLine, cursorCol := cursorCol }
        preferredVisualCol := preferredVisualCol }
    match atomicAt (e.segment host logicalLine) cursorCol with
    | some seg =>
      let next := pastContinuations visualLines targetVL.logicalLine
        (seg.index + seg.segment.length) (targetVisualLine + 1)
      if _h : seg.index < targetVL.startCol ∧ currentVisualLine < targetVisualLine ∧
          next < visualLines.length then
        moveToVisualLine host visualLines currentVisualLine next moved
      else
        { moved with
          state := { moved.state with cursorCol := seg.index }
          snappedFromCursorCol := some cursorCol }
    | none => { moved with snappedFromCursorCol := none }
  | _, _ => e
termination_by visualLines.length - targetVisualLine
decreasing_by
  have hnext : targetVisualLine + 1 ≤ next := Nat.le_add_right _ _
  omega

end KnightCode.Editor
