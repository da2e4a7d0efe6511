import KnightCode.Output.Accumulator
import KnightCode.Output.TruncateHead

/-!
# Reading the lines of a file

The lines from a start line on, at most a limit of them, are taken from the whole text of a file or
from its chunks as they come. From chunks only those lines are stored that truncation may show, and
one more; the rest is counted. Offsets and limits are the numbers a caller gives, whole or not.
-/

namespace KnightCode.Output

def trunc (x : ℚ) : ℤ :=
  if 0 ≤ x then ⌊x⌋ else ⌈x⌉

/-- The place in a list that `slice` takes a number for: from the end when it is negative. -/
def sliceIndex (length : ℕ) (x : ℚ) : ℕ :=
  if trunc x < 0 then (length + trunc x).toNat else min (trunc x).toNat length

def slice {α : Type*} (l : List α) (start : ℚ) (stop : Option ℚ) : List α :=
  (l.take ((stop.map (sliceIndex l.length)).getD l.length)).drop (sliceIndex l.length start)

structure SelectedLines where
  totalFileLines : ℕ
  truncation : HeadTruncation
  firstLineBytes : ℕ

/-- The line an offset stands for, the first one being line 0. -/
def startLineOf (offset : Option ℚ) : ℚ :=
  match offset with
  | none => 0
  | some offset => if offset = 0 then 0 else max 0 (offset - 1)

def isInteger (x : ℚ) : Bool :=
  x.den = 1

def isStreamableRange (offset limit : Option ℚ) : Bool :=
  offset.all isInteger && limit.all fun limit => isInteger limit && 0 ≤ limit

inductive ReadError
  /-- `Buffer.byteLength` of `undefined` -/
  | invalidArgument
  | beyondEnd (offset : Option ℚ) (totalFileLines : ℕ)

/-- `Buffer.byteLength(allLines[startLine])`: a fraction is no index. -/
def lineBytesAt (allLines : List (List Char)) (startLine : ℚ) : Except ReadError ℕ :=
  match if isInteger startLine then allLines[startLine.num.toNat]? else none with
  | some line => .ok (byteLength line)
  | none => .error .invalidArgument

def selectLinesFromText (text : List Char) (startLine : ℚ) (limit : Option ℚ) :
    Except ReadError SelectedLines :=
  let allLines := text.splitOn '\n'
  let endLine := limit.map fun limit => min (startLine + limit) allLines.length
  let truncation :=
    truncateHead DEFAULT_MAX_LINES DEFAULT_MAX_BYTES (join (slice allLines startLine endLine))
  (if truncation.firstLineExceedsLimit then lineBytesAt allLines startLine else .ok 0).map
    fun firstLineBytes => { totalFileLines := allLines.length, truncation, firstLineBytes }

/-- The lines of a file whose bytes `toText` decodes. -/
def selectLinesFromBuffer (toText : List UInt8 → List Char) (buffer : List UInt8) (startLine : ℚ)
    (limit : Option ℚ) : Except ReadError SelectedLines :=
  selectLinesFromText (toText buffer) startLine limit

/-! ### Chunks -/

/-- What the stream keeps: the selected lines it stores, what it counts, and of the line being read
its text while it is stored, and its size. -/
structure LineStream where
  storedLines : List (List Char)
  storedBytes : ℕ
  storedPastCaps : Bool
  line : ℕ
  selectedLines : ℕ
  selectedBytes : ℕ
  firstLineBytes : ℕ
  lastLineEmpty : Bool
  pieces : Option (List (List Char))
  lineBytes : ℕ
  lineHasText : Bool

namespace LineStream

def new : LineStream where
  storedLines := []
  storedBytes := 0
  storedPastCaps := false
  line := 0
  selectedLines := 0
  selectedBytes := 0
  firstLineBytes := 0
  lastLineEmpty := true
  pieces := some []
  lineBytes := 0
  lineHasText := false

def appendToLine (s : LineStream) (piece : List Char) : LineStream :=
  match s.pieces with
  | none => { s with lineHasText := true }
  | some pieces =>
    { s with
      lineHasText := true
      pieces := if s.lineBytes ≤ DEFAULT_MAX_BYTES then some (pieces ++ [piece]) else some pieces
      lineBytes := s.lineBytes + byteLength piece }

/-- The line that was read is stored. -/
def store (s : LineStream) (pieces : List (List Char)) : LineStream :=
  let text := pieces.flatten
  { s with
    firstLineBytes := if s.selectedLines = 0 then s.lineBytes else s.firstLineBytes
    storedPastCaps :=
      s.storedPastCaps || DEFAULT_MAX_LINES < s.storedLines.length ||
        DEFAULT_MAX_BYTES < s.storedBytes
    storedBytes := s.storedBytes + (byteLength text + if 0 < s.storedLines.length then 1 else 0)
    storedLines := s.storedLines ++ [text] }

def finishLine (s : LineStream) : LineStream :=
  let s' := s.pieces.elim s s.store
  { s' with
    selectedLines := s'.selectedLines + 1
    lastLineEmpty := !s'.lineHasText
    pieces := if s'.storedPastCaps then none else some []
    lineBytes := 0
    lineHasText := false }

section

variable (startLine : ℚ) (endLine : Option ℚ)

def selects (line : ℕ) : Bool :=
  startLine ≤ line ∧ endLine.all fun endLine => (line : ℚ) < endLine

/-- The text of a piece up to its next newline is read; `selection` is the piece's text from where
its selected lines start. -/
def readText (s : LineStream) (selection : Option (List Char)) (text : List Char) :
    LineStream × Option (List Char) :=
  if selects startLine endLine s.line then
    (if text = [] then s else s.appendToLine text, some (selection.getD [] ++ text))
  else (s, selection.map (· ++ text))

def measure (s : LineStream) (selection : Option (List Char)) : LineStream :=
  { s with selectedBytes := s.selectedBytes + (selection.map byteLength).getD 0 }

/-- The newline behind that text. -/
def readNewline (s : LineStream) (selection : Option (List Char)) :
    LineStream × Option (List Char) :=
  if selects startLine endLine s.line then
    if endLine = some (s.line + 1 : ℚ) then
      let s' := s.finishLine.measure selection
      ({ s' with line := s'.line + 1 }, none)
    else
      let s' := s.finishLine
      ({ s' with line := s'.line + 1 }, selection.map (· ++ ['\n']))
  else ({ s with line := s.line + 1 }, selection.map (· ++ ['\n']))

/-- The loop over the lines of a piece. -/
def selectFrom (s : LineStream) (selection : Option (List Char)) : List (List Char) → LineStream
  | [] => s.measure selection
  | [text] =>
    let (s, selection) := s.readText startLine endLine selection text
    s.measure selection
  | text :: texts =>
    let (s, selection) := s.readText startLine endLine selection text
    let (s, selection) := s.readNewline startLine endLine selection
    selectFrom s selection texts

def select (s : LineStream) (text : List Char) : LineStream :=
  s.selectFrom startLine endLine none (text.splitOn '\n')

/-- After the last chunk the line being read ends. -/
def finish (s : LineStream) : SelectedLines :=
  let s := if selects startLine endLine s.line then s.finishLine else s
  { totalFileLines := s.line + 1
    truncation :=
      { truncateHead DEFAULT_MAX_LINES DEFAULT_MAX_BYTES (join s.storedLines) with
        totalLines :=
          if s.selectedBytes = 0 then 0
          else s.selectedLines - if s.lastLineEmpty then 1 else 0
        totalBytes := s.selectedBytes }
    firstLineBytes := s.firstLineBytes }

end

end LineStream

section

variable {δ : Type*} (D : TextDecoder δ)

/-- The texts a decoder gives for chunks, and for the bytes left at the end. -/
def decodeChunks (decoder : δ) : List (List UInt8) → List (List Char)
  | [] => [D.flush decoder]
  | chunk :: chunks =>
    (D.decode decoder chunk).1 :: decodeChunks (D.decode decoder chunk).2 chunks

def selectLinesFromStream (chunks : List (List UInt8)) (startLine : ℚ) (limit : Option ℚ) :
    SelectedLines :=
  let endLine := limit.map (startLine + ·)
  let s := (decodeChunks D D.new chunks).foldl (LineStream.select startLine endLine) .new
  s.finish startLine endLine

end

end KnightCode.Output
