import KnightCode.Library.Utf8Stream

/-!
# Bounded output

Of the output of a tool as many whole lines are shown as fit, the first or the last ones. The buffer
of a stream keeps the start of it, or the end of it, and counts all of it. Places are those of bytes.
-/

namespace KnightCode.Bounded

open JsonText (isLead isTrail)
open Utf8 (encode decode isContinuation)

inductive Retain
  | head
  | tail
  deriving DecidableEq

structure OutputLimits where
  maxBytes : ℕ
  maxLines : ℕ
  retain : Retain

structure BoundedOutput where
  text : Text
  droppedBytes : ℤ
  droppedLines : ℤ

structure OutputSlice extends BoundedOutput where
  bytes : ℕ

/-- What was left out before a chunk. -/
structure OutputSkip where
  bytes : ℕ
  newlines : ℕ
  endsWithNewline : Bool

/-! ### Sanitizing -/

def inRange (low high : ℕ) (c : UInt16) : Bool :=
  low ≤ c.toNat ∧ c.toNat ≤ high

/-- `[\]PX^_][^\x07\x1b]*(?:\x07|\x1b\\)`, as all that follow from behind the escape character. -/
def stringLength : Text → Option ℕ
  | [] => none
  | c :: text =>
    if c ∈ [0x5d, 0x50, 0x58, 0x5e, 0x5f] then
      let body := text.takeWhile fun c => c ≠ 0x07 ∧ c ≠ 0x1b
      match text.drop body.length with
      | [] => none
      | [d] => if d = 0x07 then some (1 + body.length + 1) else none
      | d :: e :: _ =>
        if d = 0x07 then some (1 + body.length + 1)
        else if d = 0x1b ∧ e = 0x5c then some (1 + body.length + 2)
        else none
    else none

/-- `\[[\x30-\x3f]*[\x20-\x2f]*[\x40-\x7e]` -/
def controlLength : Text → Option ℕ
  | [] => none
  | c :: text =>
    if c = 0x5b then
      let parameters := text.takeWhile (inRange 0x30 0x3f)
      let rest := text.drop parameters.length
      let intermediates := rest.takeWhile (inRange 0x20 0x2f)
      (rest.drop intermediates.length).head?.bind fun c =>
        if inRange 0x40 0x7e c then some (1 + parameters.length + intermediates.length + 1)
        else none
    else none

/-- `[\x20-\x2f]*[\x30-\x7e]` -/
def shortLength (text : Text) : Option ℕ :=
  let intermediates := text.takeWhile (inRange 0x20 0x2f)
  (text.drop intermediates.length).head?.bind fun c =>
    if inRange 0x30 0x7e c then some (intermediates.length + 1) else none

def escapeLength (text : Text) : Option ℕ :=
  (stringLength text).orElse fun _ => (controlLength text).orElse fun _ => shortLength text

/-- The text without escape sequences; `skip` code units of one are still to come. -/
def removeEscapes : ℕ → Text → Text
  | _, [] => []
  | skip + 1, _ :: text => removeEscapes skip text
  | 0, c :: text =>
    match if c = 0x1b then escapeLength text else none with
    | some length => removeEscapes length text
    | none => c :: removeEscapes 0 text

/-- `INVALID_OUTPUT` -/
def isInvalid (c : UInt16) : Bool :=
  inRange 0x00 0x08 c || inRange 0x0b 0x1f c || inRange 0xfff9 0xfffb c

def sanitizeOutput (text : Text) : Text :=
  (removeEscapes 0 text).filter fun c => !isInvalid c

/-! ### Places of bytes -/

section

variable (bytes : List UInt8)

def NEWLINE : UInt8 := 0x0a

def indexOf (index : ℕ) : Option ℕ :=
  ((bytes.drop index).findIdx? (· == NEWLINE)).map (index + ·)

def lastIndexOf : ℕ → Option ℕ
  | 0 => if bytes[0]? = some NEWLINE then some 0 else none
  | index + 1 => if bytes[index + 1]? = some NEWLINE then some (index + 1) else lastIndexOf index

/-- The last of so many newlines from `index` on. -/
def indexOfLine : ℕ → ℕ → Option ℕ
  | 0, _ => none
  | lines + 1, index =>
    (indexOf bytes index).bind fun index =>
      if lines = 0 then some index else indexOfLine lines (index + 1)

/-- The first of so many newlines up to `index`. -/
def lastIndexOfLine : ℕ → ℕ → Option ℕ
  | 0, _ => none
  | lines + 1, index =>
    (lastIndexOf bytes index).bind fun index =>
      if lines = 0 then some index
      else if index = 0 then none
      else lastIndexOfLine lines (index - 1)

def characterEnd : ℕ → ℕ
  | 0 => 0
  | index + 1 =>
    if isContinuation (bytes.getD (index + 1) 0) then characterEnd index else index + 1

def characterStart (index : ℕ) : ℕ :=
  index + ((bytes.drop index).takeWhile isContinuation).length

def lineCount : ℕ :=
  if bytes = [] then 0
  else bytes.count NEWLINE + if bytes.getLast? = some NEWLINE then 0 else 1

/-! ### Windows -/

variable (limits : OutputLimits)

def headRange : ℕ × ℕ :=
  if limits.maxLines = 0 ∨ limits.maxBytes = 0 then (0, 0)
  else
    let «end» := ((indexOfLine bytes limits.maxLines 0).map (· + 1)).getD bytes.length
    if limits.maxBytes < «end» then
      match lastIndexOf bytes (limits.maxBytes - 1) with
      | some newline => (0, newline + 1)
      | none => (0, characterEnd bytes limits.maxBytes)
    else (0, «end»)

/-- The last byte that may end a line before the last one; a trailing newline ends the last line. -/
def lastByte : Option ℕ :=
  let length := if bytes.getLast? = some NEWLINE then bytes.length - 1 else bytes.length
  if length = 0 then none else some (length - 1)

/-- Where the last lines begin. -/
def lineStart : ℕ :=
  (((lastByte bytes).bind (lastIndexOfLine bytes limits.maxLines)).map (· + 1)).getD 0

def tailRange : ℕ × ℕ :=
  if limits.maxLines = 0 ∨ limits.maxBytes = 0 then (bytes.length, bytes.length)
  else if limits.maxBytes < bytes.length - lineStart bytes limits then
    let start := bytes.length - limits.maxBytes
    match indexOf bytes (start - 1) with
    | some newline =>
      if newline + 1 < bytes.length then (newline + 1, bytes.length)
      else (characterStart bytes start, bytes.length)
    | none => (characterStart bytes start, bytes.length)
  else (lineStart bytes limits, bytes.length)

def range : ℕ × ℕ :=
  match limits.retain with
  | .head => headRange bytes limits
  | .tail => tailRange bytes limits

end

def boundOutput (text : Text) (limits : OutputLimits) : OutputSlice :=
  let bytes := encode text
  let kept := (bytes.take (range bytes limits).2).drop (range bytes limits).1
  { text := if kept.length = bytes.length then text else decode kept
    bytes := kept.length
    droppedBytes := bytes.length - kept.length
    droppedLines := lineCount bytes - lineCount kept }

/-- The suffix of the text a later window may reach. -/
def tailMargin (text : Text) (limits : OutputLimits) : Text :=
  let bytes := encode text
  let byteStart :=
    if limits.maxBytes < bytes.length then characterEnd bytes (bytes.length - limits.maxBytes - 1)
    else 0
  let lineStart := (lastIndexOfLine bytes (limits.maxLines + 1) (bytes.length - 1)).getD 0
  let start := max byteStart lineStart
  if start = 0 then text else decode (bytes.drop start)

/-! ### The buffer -/

/-- The bytes of a code unit that is no half of a pair, or of one on its own. -/
def unitBytes (c : UInt16) : ℕ :=
  if c ≤ 0x7f then 1 else if c ≤ 0x7ff then 2 else 3

def utf8ByteLength : Text → ℕ
  | [] => 0
  | [c] => unitBytes c
  | c :: d :: content =>
    if isLead c && isTrail d then 4 + utf8ByteLength content
    else unitBytes c + utf8ByteLength (d :: content)

def countNewlines (text : Text) : ℕ :=
  text.count 0x0a

def endsWithNewline (text : Text) : Bool :=
  text.getLast? = some 0x0a

def lines (newlines : ℕ) (terminated : Bool) : ℕ :=
  newlines + if terminated then 0 else 1

structure StoredChunk where
  text : Text
  bytes : ℕ
  newlines : ℕ

inductive Chunk
  | string (text : Text)
  | bytes (bytes : List UInt8)

structure OutputBuffer where
  limits : OutputLimits
  decoder : Utf8.Decoder
  started : Bool
  chunks : List StoredChunk
  storedBytes : ℕ
  storedNewlines : ℕ
  full : Bool
  totalBytes : ℕ
  totalNewlines : ℕ
  endsWithNewline : Bool

namespace OutputBuffer

def new (limits : OutputLimits) : OutputBuffer where
  limits := limits
  decoder := Utf8.initial
  started := false
  chunks := []
  storedBytes := 0
  storedNewlines := 0
  full := false
  totalBytes := 0
  totalNewlines := 0
  endsWithNewline := true

/-- Leading chunks are dropped while the others hold more than a window, and a byte or a line. -/
def dropLeading (b : OutputBuffer) : List StoredChunk → ℕ → ℕ → OutputBuffer
  | first :: second :: chunks, storedBytes, storedNewlines =>
    let bytesAfter := storedBytes - first.bytes
    let newlinesAfter := storedNewlines - first.newlines
    if bytesAfter ≤ b.limits.maxBytes + 1 ∧ newlinesAfter ≤ b.limits.maxLines + 1 then
      { b with chunks := first :: second :: chunks, storedBytes, storedNewlines }
    else dropLeading b (second :: chunks) bytesAfter newlinesAfter
  | chunks, storedBytes, storedNewlines => { b with chunks, storedBytes, storedNewlines }

/-- `#accept`; it says whether the text is not empty. -/
def accept (b : OutputBuffer) (text : Text) : OutputBuffer × Bool :=
  if text = [] then (b, false)
  else
    let bytes := utf8ByteLength text
    let newlines := countNewlines text
    let b :=
      { b with
        totalBytes := b.totalBytes + bytes
        totalNewlines := b.totalNewlines + newlines
        endsWithNewline := Bounded.endsWithNewline text }
    if b.full then (b, true)
    else
      let b :=
        { b with
          chunks := b.chunks ++ [StoredChunk.mk text bytes newlines]
          storedBytes := b.storedBytes + bytes
          storedNewlines := b.storedNewlines + newlines }
      match b.limits.retain with
      | .head =>
        ({ b with
            full := b.limits.maxBytes < b.storedBytes || b.limits.maxLines ≤ b.storedNewlines },
          true)
      | .tail => (b.dropLeading b.chunks b.storedBytes b.storedNewlines, true)

/-- `#skip` -/
def skip (b : OutputBuffer) (skipped : OutputSkip) : OutputBuffer :=
  if skipped.bytes = 0 then b
  else
    { b with
      totalBytes := b.totalBytes + skipped.bytes
      totalNewlines := b.totalNewlines + skipped.newlines
      endsWithNewline := skipped.endsWithNewline
      chunks := []
      storedBytes := 0
      storedNewlines := 0 }

/-- What a chunk is decoded as, and what bytes before it that are no character are. -/
def decodeChunk (b : OutputBuffer) (chunk : Chunk) (skips : Bool) :
    Text × Text × Utf8.Decoder :=
  match chunk with
  | .string text => (Utf8.flush b.decoder, text, Utf8.initial)
  | .bytes bytes =>
    let (pending, decoder) :=
      if skips then (Utf8.flush b.decoder, Utf8.initial) else ([], b.decoder)
    (pending, (Utf8.decodeSome decoder bytes).2, (Utf8.decodeSome decoder bytes).1)

/-- The text without a byte-order mark before it. -/
def dropMark (text : Text) : Text :=
  if text.head? = some 0xfeff then text.tail else text

def push (b : OutputBuffer) (chunk : Chunk) (skipped : Option OutputSkip) :
    OutputBuffer × Except String Bool :=
  let (pending, text, decoder) := b.decodeChunk chunk skipped.isSome
  let first := !b.started && pending = [] && skipped.isNone
  let b :=
    { b with
      decoder
      started := b.started || pending ≠ [] || text ≠ [] || skipped.isSome }
  let text :=
    match chunk with
    | .string _ => text
    | .bytes _ => if first then dropMark text else text
  match skipped with
  | none => ((b.accept (pending ++ text)).1, .ok (b.accept (pending ++ text)).2)
  | some skipped =>
    if b.limits.retain ≠ .tail then (b, .error "Skipped output requires tail retention")
    else ((((b.accept pending).1.skip skipped).accept text).1, .ok true)

def stored (b : OutputBuffer) : Text :=
  (b.chunks.map (·.text)).flatten

def snapshot (b : OutputBuffer) : OutputBuffer × BoundedOutput :=
  let stored := b.stored
  let kept := boundOutput stored b.limits
  let storedLines := lines b.storedNewlines (stored = [] || Bounded.endsWithNewline stored)
  let keptLines : ℤ := storedLines - kept.droppedLines
  let b' :=
    match b.limits.retain with
    | .tail =>
      let text := tailMargin stored b.limits
      let bytes := utf8ByteLength text
      let newlines := countNewlines text
      { b with
        chunks := if text = [] then [] else [⟨text, bytes, newlines⟩]
        storedBytes := bytes
        storedNewlines := if text = [] then 0 else newlines }
    | .head =>
      if 1 < b.chunks.length then
        let newlines := countNewlines stored
        { b with
          chunks := if stored = [] then [] else [⟨stored, b.storedBytes, newlines⟩]
          storedNewlines := if stored = [] then 0 else newlines }
      else b
  (b',
    { text := sanitizeOutput kept.text
      droppedBytes := b.totalBytes - kept.bytes
      droppedLines := (lines b.totalNewlines b.endsWithNewline : ℤ) - keptLines })

end OutputBuffer

end KnightCode.Bounded
