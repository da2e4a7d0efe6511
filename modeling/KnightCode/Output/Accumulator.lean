import KnightCode.Output.Truncate
import Mathlib.Data.List.DropRight

/-!
# Output that is still arriving

Chunks of bytes are decoded as they come. Of the decoded text only an end is kept, cut at a
character; a snapshot truncates that end, without its first line when the cut is within the line.
-/

namespace KnightCode.Output

/-- A decoder of a stream of bytes, which keeps the bytes of a character that is not complete. -/
structure TextDecoder (δ : Type*) where
  new : δ
  decode : δ → List UInt8 → List Char × δ
  flush : δ → List Char

/-- A decoder that gives a character for every byte, as any does for ASCII. -/
def singleBytes : TextDecoder Unit where
  new := ()
  decode := fun _ data => (data.map fun byte => Char.ofNat byte.toNat, ())
  flush := fun _ => []

structure OutputAccumulatorOptions where
  maxLines : Option ℕ
  maxBytes : Option ℕ

structure OutputAccumulator (δ : Type*) where
  maxLines : ℕ
  maxBytes : ℕ
  maxRollingBytes : ℕ
  decoder : δ
  tailText : List Char
  tailBytes : ℕ
  tailStartsAtLineBoundary : Bool
  totalDecodedBytes : ℕ
  completedLines : ℕ
  totalLines : ℕ
  currentLineBytes : ℕ
  hasOpenLine : Bool
  finished : Bool

namespace OutputAccumulator

variable {δ : Type*} (D : TextDecoder δ)

def new (options : OutputAccumulatorOptions) : OutputAccumulator δ where
  maxLines := options.maxLines.getD DEFAULT_MAX_LINES
  maxBytes := options.maxBytes.getD DEFAULT_MAX_BYTES
  maxRollingBytes := max (options.maxBytes.getD DEFAULT_MAX_BYTES * 2) 1
  decoder := D.new
  tailText := []
  tailBytes := 0
  tailStartsAtLineBoundary := true
  totalDecodedBytes := 0
  completedLines := 0
  totalLines := 0
  currentLineBytes := 0
  hasOpenLine := false
  finished := false

def trimTail (a : OutputAccumulator δ) : OutputAccumulator δ :=
  let length := byteLength a.tailText
  if length ≤ a.maxRollingBytes then { a with tailBytes := length }
  else
    let start := length - a.maxRollingBytes
    let tailText := dropBytes start a.tailText
    { a with
      tailStartsAtLineBoundary :=
        -- nothing is before the start, or the byte before it ends a character
        (takeBytes start a.tailText).getLast?.elim a.tailStartsAtLineBoundary (· = '\n')
      tailText := tailText
      tailBytes := byteLength tailText }

/-- What follows the last newline. -/
def lastLine (text : List Char) : List Char :=
  text.rtakeWhile (· ≠ '\n')

def keep (a : OutputAccumulator δ) (text : List Char) : OutputAccumulator δ :=
  let bytes := byteLength text
  let a' :=
    { a with
      totalDecodedBytes := a.totalDecodedBytes + bytes
      tailText := a.tailText ++ text
      tailBytes := a.tailBytes + bytes }
  if a'.maxRollingBytes * 2 < a'.tailBytes then a'.trimTail else a'

def countLines (a : OutputAccumulator δ) (text : List Char) : OutputAccumulator δ :=
  let newlines := text.count '\n'
  let a' :=
    if newlines = 0 then
      { a with currentLineBytes := a.currentLineBytes + byteLength text, hasOpenLine := true }
    else
      let tail := lastLine text
      { a with
        completedLines := a.completedLines + newlines
        currentLineBytes := byteLength tail
        hasOpenLine := tail ≠ [] }
  { a' with totalLines := a'.completedLines + if a'.hasOpenLine then 1 else 0 }

def appendDecodedText (a : OutputAccumulator δ) (text : List Char) : OutputAccumulator δ :=
  if text = [] then a else (a.keep text).countLines text

def append (a : OutputAccumulator δ) (data : List UInt8) :
    Except String (OutputAccumulator δ) :=
  if a.finished then .error "Cannot append to a finished output accumulator"
  else
    let (text, decoder) := D.decode a.decoder data
    .ok ({ a with decoder }.appendDecodedText text)

def finish (a : OutputAccumulator δ) : OutputAccumulator δ :=
  if a.finished then a else { a with finished := true }.appendDecodedText (D.flush a.decoder)

def getSnapshotText (a : OutputAccumulator δ) : List Char :=
  if a.tailStartsAtLineBoundary then a.tailText
  else if '\n' ∈ a.tailText then (a.tailText.dropWhile (· ≠ '\n')).tail
  else a.tailText

def snapshot (a : OutputAccumulator δ) : TruncationResult :=
  let tailTruncation := truncateTail a.maxLines a.maxBytes a.getSnapshotText
  let truncated : Bool := a.maxLines < a.totalLines ∨ a.maxBytes < a.totalDecodedBytes
  let truncatedBy :=
    if truncated then
      some (tailTruncation.truncatedBy.getD
        (if a.maxBytes < a.totalDecodedBytes then .bytes else .lines))
    else none
  { tailTruncation with
    truncated
    truncatedBy
    totalLines := a.totalLines
    totalBytes := a.totalDecodedBytes
    maxLines := a.maxLines
    maxBytes := a.maxBytes }

end OutputAccumulator

/-! ### Runs -/

inductive Call
  | append (data : List UInt8)
  | finish

section

variable {δ : Type*} (D : TextDecoder δ)

def Call.run (a : OutputAccumulator δ) : Call → OutputAccumulator δ
  | .append data =>
    match a.append D data with
    | .ok a' => a'
    | .error _ => a
  | .finish => a.finish D

def runCalls (options : OutputAccumulatorOptions) (calls : List Call) : OutputAccumulator δ :=
  calls.foldl (Call.run D) (.new D options)

/-- The text that the decoder gives for the chunks. -/
def decodedFrom : δ → List Call → List Char
  | _, [] => []
  | decoder, .append data :: calls =>
    (D.decode decoder data).1 ++ decodedFrom (D.decode decoder data).2 calls
  | decoder, .finish :: _ => D.flush decoder

def decodedText (calls : List Call) : List Char :=
  decodedFrom D D.new calls

end

end KnightCode.Output
