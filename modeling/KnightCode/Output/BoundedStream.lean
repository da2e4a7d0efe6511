import KnightCode.Output.BoundedRanges

/-!
# Snapshots of a stream

Chunks of bytes that follow each other are decoded as one; a string, or output that was left out, ends
them. Whatever the chunks, and wherever snapshots are taken, a snapshot shows the window of all
output so far. Only when the first lines that are kept end with a chunk, and more follows, is half of
a surrogate pair in them shown as it is, and not as U+FFFD.
-/

namespace KnightCode.Bounded

open List Option
open Utf8 (encode decode Whole)

/-! ### The stream -/

/-- The output before the chunks of bytes that are read, whether there was any, and these bytes. -/
structure Stream where
  output : Text
  started : Bool
  run : List UInt8

/-- What a producer says of output it leaves out. -/
def measure (text : Text) : OutputSkip where
  bytes := utf8ByteLength text
  newlines := countNewlines text
  endsWithNewline := endsWithNewline text

inductive Event
  | push (chunk : Chunk)
  | skip (omitted : Text) (chunk : Chunk)
  | snapshot

namespace Stream

def start : Stream :=
  ⟨[], false, []⟩

/-- A byte-order mark is dropped where the output starts. -/
def unmarked (s : Stream) (text : Text) : Text :=
  if s.started then text else OutputBuffer.dropMark text

def text (s : Stream) : Text :=
  s.output ++ s.unmarked (Utf8.decodeSome Utf8.initial s.run).2

def close (s : Stream) : Stream where
  output := s.output ++ s.unmarked (decode s.run)
  started := s.started || decode s.run ≠ []
  run := []

def push (s : Stream) : Chunk → Stream
  | .string text => ⟨s.close.output ++ text, s.close.started || text ≠ [], []⟩
  | .bytes bytes => { s with run := s.run ++ bytes }

def skip (s : Stream) (omitted : Text) : Stream :=
  ⟨s.close.output ++ omitted, true, []⟩

def apply (s : Stream) : Event → Stream
  | .push chunk => s.push chunk
  | .skip omitted chunk => (s.skip omitted).push chunk
  | .snapshot => s

end Stream

def stream (events : List Event) : Stream :=
  events.foldl Stream.apply .start

namespace OutputBuffer

def apply (b : OutputBuffer) : Event → OutputBuffer
  | .push chunk => (b.push chunk none).1
  | .skip omitted chunk => (b.push chunk (some (measure omitted))).1
  | .snapshot => b.snapshot.1

def run (limits : OutputLimits) (events : List Event) : OutputBuffer :=
  events.foldl OutputBuffer.apply (.new limits)

end OutputBuffer

def Chunk.Whole : Chunk → Prop
  | .string text => Utf8.Whole text
  | .bytes _ => True

instance : DecidablePred Chunk.Whole
  | .string text => inferInstanceAs (Decidable (Utf8.Whole text))
  | .bytes _ => .isTrue trivial

def Chunk.text : Chunk → Text
  | .string text => text
  | .bytes data => (Utf8.decodeSome Utf8.initial data).2

/-- Strings do not begin or end within a surrogate pair, and output is left out only before more
than a window of the last lines. -/
def Event.Allowed (limits : OutputLimits) : Event → Prop
  | .push chunk => chunk.Whole
  | .skip omitted chunk => limits.retain = .tail ∧ Utf8.Whole omitted ∧ chunk.Whole ∧
      Exceeds limits (encode chunk.text)
  | .snapshot => True

instance (limits : OutputLimits) : DecidablePred (Event.Allowed limits)
  | .push chunk => inferInstanceAs (Decidable chunk.Whole)
  | .skip omitted chunk => inferInstanceAs (Decidable (limits.retain = .tail ∧ Utf8.Whole omitted ∧
      chunk.Whole ∧ (limits.maxBytes < _ ∨ limits.maxLines < _)))
  | .snapshot => .isTrue trivial

/-- What is shown of the whole of a stream. -/
def shown (limits : OutputLimits) (text : Text) : BoundedOutput where
  text := sanitizeOutput (boundOutput text limits).text
  droppedBytes := (boundOutput text limits).droppedBytes
  droppedLines := (boundOutput text limits).droppedLines

/-! ### What the buffer keeps -/

section

variable {limits : OutputLimits} {b : OutputBuffer} {whole : Text}
variable {s : Stream}

structure OutputBuffer.Measured (b : OutputBuffer) : Prop where
  chunks : ∀ c ∈ b.chunks, c.bytes = (encode c.text).length ∧
    c.newlines = countNewlines c.text ∧ Whole c.text
  storedBytes : b.storedBytes = (b.chunks.map (·.bytes)).sum
  storedNewlines : b.storedNewlines = (b.chunks.map (·.newlines)).sum

/-- The totals are those of the stream. -/
structure OutputBuffer.Totals (b : OutputBuffer) (whole : Text) : Prop where
  bytes : b.totalBytes = (encode whole).length
  newlines : b.totalNewlines = countNewlines whole
  ended : b.endsWithNewline = (whole = [] || Bounded.endsWithNewline whole)

/-- Which part of the stream is stored: all of it, a start or an end. -/
inductive OutputBuffer.Stores (b : OutputBuffer) (whole : Text) : Prop
  | all (hopen : b.full = false) (hstored : b.stored = whole)
      (hfew : b.limits.retain = .head → whole = [] ∨ ¬Fills b.limits (encode whole))
  | first (hretain : b.limits.retain = .head) (hfull : b.full = true) (hne : b.stored ≠ [])
      (rest : Text) (hstored : whole = b.stored ++ rest) (hrest : Whole rest)
      (hfills : Fills b.limits (encode b.stored))
  | last (hretain : b.limits.retain = .tail) (hopen : b.full = false) (front : List UInt8)
      (hstored : encode whole = front ++ encode b.stored)
      (hexceeds : Exceeds b.limits (encode b.stored))

structure OutputBuffer.Holds (b : OutputBuffer) (limits : OutputLimits) (whole : Text) : Prop where
  limits_eq : b.limits = limits
  measured : b.Measured
  totals : b.Totals whole
  stores : b.Stores whole

theorem OutputBuffer.Holds.open_tail (h : b.Holds limits whole) (hretain : limits.retain = .tail) :
    b.full = false := by
  cases h.stores with
  | all hopen _ _ | last _ hopen _ _ _ => exact hopen
  | first hhead _ _ _ _ _ _ =>
    rw [h.limits_eq, hretain] at hhead
    cases hhead

theorem OutputBuffer.Holds.decoded (h : b.Holds limits whole) (decoder : Utf8.Decoder)
    (started : Bool) : ({ b with decoder, started } : OutputBuffer).Holds limits whole where
  limits_eq := h.limits_eq
  measured := ⟨h.measured.chunks, h.measured.storedBytes, h.measured.storedNewlines⟩
  totals := ⟨h.totals.bytes, h.totals.newlines, h.totals.ended⟩
  stores := by
    cases h.stores with
    | all hopen hall hfew => exact .all hopen hall hfew
    | first hretain hfull hne rest hall hrest hfills =>
      exact .first hretain hfull hne rest hall hrest hfills
    | last hretain hopen front hend hexceeds => exact .last hretain hopen front hend hexceeds

theorem encode_flatten {texts : List Text} (h : ∀ t ∈ texts, Whole t) :
    encode texts.flatten = texts.flatMap encode ∧ Whole texts.flatten := by
  induction texts with
  | nil => exact ⟨rfl, Utf8.whole_nil⟩
  | cons t texts ih =>
    obtain ⟨hencode, hwhole⟩ := ih fun t ht => h t (mem_cons_of_mem _ ht)
    rw [flatten_cons, flatMap_cons, Utf8.encode_append_whole hwhole, hencode]
    exact ⟨rfl, Utf8.whole_append (h t mem_cons_self) hwhole⟩

theorem OutputBuffer.Measured.stored_whole (h : b.Measured) : Whole b.stored := by
  refine (encode_flatten fun t ht => ?_).2
  obtain ⟨c, hc, rfl⟩ := mem_map.mp ht
  exact (h.chunks c hc).2.2

theorem measured_chunks {chunks : List StoredChunk} (h : ∀ c ∈ chunks,
    c.bytes = (encode c.text).length ∧ c.newlines = countNewlines c.text ∧ Whole c.text) :
    (chunks.map (·.bytes)).sum = (encode (chunks.map (·.text)).flatten).length ∧
      (chunks.map (·.newlines)).sum = countNewlines (chunks.map (·.text)).flatten := by
  induction chunks with
  | nil => exact ⟨rfl, rfl⟩
  | cons c chunks ih =>
    obtain ⟨hbytes, hnewlines⟩ := ih fun c hc => h c (mem_cons_of_mem _ hc)
    obtain ⟨hc, hn, -⟩ := h c mem_cons_self
    have hwhole : Whole (chunks.map (·.text)).flatten := by
      refine (encode_flatten fun t ht => ?_).2
      obtain ⟨d, hd, rfl⟩ := mem_map.mp ht
      exact (h d (mem_cons_of_mem _ hd)).2.2
    rw [map_cons, map_cons, map_cons, sum_cons, sum_cons,
      flatten_cons, Utf8.encode_append_whole hwhole, length_append, hbytes, hnewlines, hc,
      hn, countNewlines, countNewlines, countNewlines, count_append]
    exact ⟨rfl, rfl⟩

theorem OutputBuffer.Measured.storedBytes_eq (h : b.Measured) :
    b.storedBytes = (encode b.stored).length := by
  rw [h.storedBytes, (measured_chunks h.chunks).1]
  rfl

theorem OutputBuffer.Measured.storedNewlines_eq (h : b.Measured) :
    b.storedNewlines = countNewlines b.stored := by
  rw [h.storedNewlines, (measured_chunks h.chunks).2]
  rfl

theorem new_holds (limits : OutputLimits) : (OutputBuffer.new limits).Holds limits [] where
  limits_eq := rfl
  measured := ⟨fun _ h => (by cases h), rfl, rfl⟩
  totals := ⟨rfl, rfl, rfl⟩
  stores := .all rfl rfl fun _ => .inl rfl

/-! ### A text that is accepted -/

theorem endsWithNewline_append (t : Text) {u : Text} (hne : u ≠ []) :
    endsWithNewline (t ++ u) = endsWithNewline u := by
  rw [endsWithNewline, endsWithNewline, getLast?_append_of_ne_nil _ hne]

variable {text : Text}

theorem OutputBuffer.Totals.append (h : b.Totals whole) (hwhole : Whole text) (hne : text ≠ [])
    {b' : OutputBuffer} (hbytes : b'.totalBytes = b.totalBytes + utf8ByteLength text)
    (hnewlines : b'.totalNewlines = b.totalNewlines + countNewlines text)
    (hended : b'.endsWithNewline = Bounded.endsWithNewline text) : b'.Totals (whole ++ text) where
  bytes := by
    rw [hbytes, h.bytes, utf8ByteLength_eq, Utf8.encode_append_whole hwhole, length_append]
  newlines := by
    rw [hnewlines, h.newlines, countNewlines, countNewlines, countNewlines, count_append]
  ended := by
    have happend : whole ++ text ≠ [] := append_ne_nil_of_right_ne_nil _ hne
    rw [hended, endsWithNewline_append _ hne, decide_eq_false happend, Bool.false_or]

theorem dropLeading_stores (b : OutputBuffer) (chunks : List StoredChunk)
    (hchunks : ∀ c ∈ chunks, c.bytes = (encode c.text).length ∧
      c.newlines = countNewlines c.text ∧ Whole c.text) :
    ∃ dropped kept, chunks = dropped ++ kept ∧
      b.dropLeading chunks (chunks.map (·.bytes)).sum (chunks.map (·.newlines)).sum =
        { b with
          chunks := kept
          storedBytes := (kept.map (·.bytes)).sum
          storedNewlines := (kept.map (·.newlines)).sum } ∧
      (dropped = [] ∨ Exceeds b.limits (encode (kept.map (·.text)).flatten)) := by
  induction chunks with
  | nil => exact ⟨[], [], rfl, rfl, .inl rfl⟩
  | cons first chunks ih =>
    cases chunks with
    | nil => exact ⟨[], [first], rfl, rfl, .inl rfl⟩
    | cons second chunks =>
      have hrest : ∀ c ∈ second :: chunks, c.bytes = (encode c.text).length ∧
          c.newlines = countNewlines c.text ∧ Whole c.text := fun c hc =>
        hchunks c (mem_cons_of_mem _ hc)
      obtain ⟨dropped, kept, hsplit, heq, hexceeds⟩ := ih hrest
      have hbytes : ((first :: second :: chunks).map (·.bytes)).sum - first.bytes =
          ((second :: chunks).map (·.bytes)).sum := by
        rw [map_cons, sum_cons, Nat.add_sub_cancel_left]
      have hnewlines : ((first :: second :: chunks).map (·.newlines)).sum - first.newlines =
          ((second :: chunks).map (·.newlines)).sum := by
        rw [map_cons, sum_cons, Nat.add_sub_cancel_left]
      rw [OutputBuffer.dropLeading, hbytes, hnewlines]
      split_ifs with hfits
      · exact ⟨[], first :: second :: chunks, rfl, rfl, .inl rfl⟩
      · refine ⟨first :: dropped, kept, by rw [hsplit, cons_append], heq, .inr ?_⟩
        rcases hexceeds with rfl | hexceeds
        · rw [nil_append] at hsplit
          obtain ⟨hlength, hcount⟩ := measured_chunks hrest
          rw [not_and_or] at hfits
          rw [← hsplit, Exceeds, ← hlength, ← countNewlines_eq, ← hcount]
          omega
        · exact hexceeds

def chunkOf (text : Text) : StoredChunk :=
  ⟨text, utf8ByteLength text, countNewlines text⟩

theorem stored_concat (b : OutputBuffer) (text : Text) :
    ((b.chunks ++ [chunkOf text]).map (·.text)).flatten = b.stored ++ text := by
  rw [map_append, flatten_append, map_singleton, flatten_singleton]
  rfl

theorem measured_concat (h : b.Measured) (hwhole : Whole text) :
    ∀ c ∈ b.chunks ++ [chunkOf text], c.bytes = (encode c.text).length ∧
      c.newlines = countNewlines c.text ∧ Whole c.text := by
  intro c hc
  rcases mem_append.mp hc with hc | hc
  · exact h.chunks c hc
  · rw [mem_singleton.mp hc]
    exact ⟨utf8ByteLength_eq text, rfl, hwhole⟩

theorem sums_concat (h : b.Measured) (text : Text) :
    b.storedBytes + utf8ByteLength text = ((b.chunks ++ [chunkOf text]).map (·.bytes)).sum ∧
      b.storedNewlines + countNewlines text =
        ((b.chunks ++ [chunkOf text]).map (·.newlines)).sum := by
  rw [map_append, map_append, sum_append, sum_append, h.storedBytes, h.storedNewlines]
  exact ⟨rfl, rfl⟩

theorem accept_cases (h : b.Measured) (hwhole : Whole text) (hne : text ≠ []) :
    ∃ b', b.accept text = (b', true) ∧ b'.limits = b.limits ∧ b'.decoder = b.decoder ∧
      b'.started = b.started ∧ b'.totalBytes = b.totalBytes + utf8ByteLength text ∧
      b'.totalNewlines = b.totalNewlines + countNewlines text ∧
      b'.endsWithNewline = endsWithNewline text ∧ b'.Measured ∧
      (b.full = true ∧ b'.full = true ∧ b'.chunks = b.chunks ∨
        b.full = false ∧ b.limits.retain = .head ∧ b'.stored = b.stored ++ text ∧
          (b'.full = true ↔ Fills b.limits (encode (b.stored ++ text))) ∨
        b.full = false ∧ b.limits.retain = .tail ∧ b'.full = false ∧
          ∃ front, encode (b.stored ++ text) = front ++ encode b'.stored ∧
            (b'.stored = b.stored ++ text ∨ Exceeds b.limits (encode b'.stored))) := by
  obtain ⟨hbytes, hnewlines⟩ := sums_concat h text
  have hchunks := measured_concat h hwhole
  rw [OutputBuffer.accept, if_neg hne]
  dsimp only
  cases hfull : b.full with
  | true =>
    rw [if_pos rfl]
    exact ⟨_, rfl, rfl, rfl, rfl, rfl, rfl, rfl, ⟨h.chunks, h.storedBytes, h.storedNewlines⟩,
      .inl ⟨rfl, rfl, rfl⟩⟩
  | false =>
    rw [if_neg Bool.false_ne_true]
    cases hretain : b.limits.retain with
    | head =>
      refine ⟨_, rfl, rfl, rfl, rfl, rfl, rfl, rfl, ⟨hchunks, hbytes, hnewlines⟩,
        .inr (.inl ⟨rfl, rfl, stored_concat b text, ?_⟩)⟩
      dsimp only
      have hlength := utf8ByteLength_eq text
      rw [Bool.or_eq_true, decide_eq_true_eq, decide_eq_true_eq, Fills,
        Utf8.encode_append_whole hwhole, length_append, count_append,
        h.storedBytes_eq, h.storedNewlines_eq, hlength, countNewlines_eq, countNewlines_eq]
    | tail =>
      rw [← chunkOf, hbytes, hnewlines]
      obtain ⟨dropped, kept, hsplit, heq, hexceeds⟩ := dropLeading_stores
        { b with
          full := false
          totalBytes := b.totalBytes + utf8ByteLength text
          totalNewlines := b.totalNewlines + countNewlines text
          endsWithNewline := endsWithNewline text
          chunks := b.chunks ++ [chunkOf text]
          storedBytes := ((b.chunks ++ [chunkOf text]).map (·.bytes)).sum
          storedNewlines := ((b.chunks ++ [chunkOf text]).map (·.newlines)).sum }
        (b.chunks ++ [chunkOf text]) hchunks
      have hkept : ∀ c ∈ kept, c.bytes = (encode c.text).length ∧
          c.newlines = countNewlines c.text ∧ Whole c.text := fun c hc =>
        hchunks c (hsplit ▸ mem_append_right _ hc)
      refine ⟨_, congrArg (·, true) heq, rfl, rfl, rfl, rfl, rfl, rfl, ⟨hkept, rfl, rfl⟩,
        .inr (.inr ⟨rfl, rfl, rfl, (dropped.map (·.text)).flatMap encode, ?_, ?_⟩)⟩
      · have hflatten : ∀ chunks : List StoredChunk, (∀ c ∈ chunks, Whole c.text) →
            encode (chunks.map (·.text)).flatten = (chunks.map (·.text)).flatMap encode := by
          intro chunks hall
          refine (encode_flatten fun t ht => ?_).1
          obtain ⟨c, hc, rfl⟩ := mem_map.mp ht
          exact hall c hc
        change encode (b.stored ++ text) = _ ++ encode (kept.map (·.text)).flatten
        rw [← stored_concat, hflatten _ fun c hc => (hchunks c hc).2.2,
          hflatten _ fun c hc => (hkept c hc).2.2, hsplit, map_append, flatMap_append]
      · rcases hexceeds with rfl | hexceeds
        · left
          rw [← stored_concat, hsplit]
          rfl
        · exact .inr hexceeds

theorem accept_holds (h : b.Holds limits whole) (hwhole : Whole text) :
    (b.accept text).1.Holds limits (whole ++ text) ∧ (b.accept text).1.decoder = b.decoder ∧
      (b.accept text).1.started = b.started ∧
      (b.full = true → (b.accept text).1.full = true ∧ (b.accept text).1.stored = b.stored) ∧
      (b.full = false → (b.accept text).1.full = true →
        (b.accept text).1.stored = whole ++ text) := by
  rcases eq_or_ne text [] with rfl | hne
  · rw [OutputBuffer.accept, if_pos rfl, append_nil]
    refine ⟨h, rfl, rfl, fun hfull => ⟨hfull, rfl⟩, fun hopen hfull => ?_⟩
    rw [hopen] at hfull
    cases hfull
  obtain ⟨b', haccept, hlimits, hdecoder, hstarted, hbytes, hnewlines, hended, hmeasured, hcases⟩ :=
    accept_cases h.measured hwhole hne
  have htotals := h.totals.append hwhole hne hbytes hnewlines hended
  rw [haccept]
  rcases hcases with ⟨hfull, hfull', hchunks⟩ | ⟨hopen, hretain, hstored', hfull⟩ |
    ⟨hopen, hretain, hopen', front, hfront, hend⟩
  · have hstored' : b'.stored = b.stored := by
      rw [OutputBuffer.stored, hchunks]
      rfl
    refine ⟨⟨hlimits.trans h.limits_eq, hmeasured, htotals, ?_⟩, hdecoder, hstarted,
      fun _ => ⟨hfull', hstored'⟩, fun hopen => ?_⟩
    · cases h.stores with
      | all hopen hstored hfew | last hretain hopen front hstored hexceeds =>
        rw [hfull] at hopen
        cases hopen
      | first hretain _ hne rest hstored hrest hfills =>
        refine .first (hlimits ▸ hretain) hfull' (hstored' ▸ hne) (rest ++ text) ?_
          (Utf8.whole_append hrest hwhole) ?_
        · rw [hstored', hstored, append_assoc]
        · rw [hlimits, hstored']
          exact hfills
    · rw [hfull] at hopen
      cases hopen
  · have hall : b.stored = whole := by
      cases h.stores with
      | all _ hstored _ => exact hstored
      | first _ hfull _ _ _ _ _ =>
        rw [hopen] at hfull
        cases hfull
      | last htail _ _ _ _ =>
        rw [hretain] at htail
        cases htail
    rw [hall] at hstored' hfull
    refine ⟨⟨hlimits.trans h.limits_eq, hmeasured, htotals, ?_⟩, hdecoder, hstarted, fun hfull => ?_,
      fun _ _ => hstored'⟩
    · cases hfull' : b'.full with
      | true =>
        refine .first (hlimits ▸ hretain) hfull' ?_ [] ?_ Utf8.whole_nil ?_
        · rw [hstored']
          exact append_ne_nil_of_right_ne_nil _ hne
        · rw [hstored', append_nil]
        · rw [hlimits, hstored']
          exact hfull.mp hfull'
      | false =>
        refine .all hfull' hstored' fun _ => .inr fun hfills => ?_
        rw [hlimits] at hfills
        rw [hfull.mpr hfills] at hfull'
        cases hfull'
    · rw [hopen] at hfull
      cases hfull
  · refine ⟨⟨hlimits.trans h.limits_eq, hmeasured, htotals, ?_⟩, hdecoder, hstarted, fun hfull => ?_,
      fun _ hfull => ?_⟩
    · have hnot : b'.limits.retain = .head → whole ++ text = [] ∨
          ¬Fills b'.limits (encode (whole ++ text)) := by
        intro hhead
        rw [hlimits, hretain] at hhead
        cases hhead
      cases h.stores with
      | all _ hstored _ =>
        rw [hstored] at hfront hend
        rcases hend with hend | hexceeds
        · exact .all hopen' hend hnot
        · exact .last (hlimits ▸ hretain) hopen' front hfront (hlimits ▸ hexceeds)
      | first hhead _ _ _ _ _ _ =>
        rw [hretain] at hhead
        cases hhead
      | last _ _ before hstored hexceeds =>
        refine .last (hlimits ▸ hretain) hopen' (before ++ front) ?_ ?_
        · rw [Utf8.encode_append_whole hwhole, hstored, append_assoc, append_assoc,
            ← hfront, Utf8.encode_append_whole hwhole]
        · rw [hlimits]
          rcases hend with hend | hexceeds'
          · rw [hend, Utf8.encode_append_whole hwhole]
            exact hexceeds.append _
          · exact hexceeds'
    · rw [hopen] at hfull
      cases hfull
    · rw [hopen'] at hfull
      cases hfull

theorem measure_bytes (omitted : Text) : (measure omitted).bytes = 0 ↔ omitted = [] := by
  rw [measure, utf8ByteLength_eq, length_eq_zero_iff, Utf8.encode_eq_nil]

theorem skip_holds (h : b.Holds limits whole) (hretain : limits.retain = .tail) {omitted : Text}
    (homitted : Whole omitted) (hwhole : Whole text) (hexceeds : Exceeds limits (encode text)) :
    ((b.skip (measure omitted)).accept text).1.Holds limits (whole ++ omitted ++ text) ∧
      ((b.skip (measure omitted)).accept text).1.decoder = b.decoder ∧
      ((b.skip (measure omitted)).accept text).1.started = b.started := by
  rw [OutputBuffer.skip]
  by_cases hnil : omitted = []
  · rw [if_pos ((measure_bytes omitted).mpr hnil), hnil, append_nil]
    obtain ⟨hholds, hdecoder, hstarted, -, -⟩ := accept_holds h hwhole
    exact ⟨hholds, hdecoder, hstarted⟩
  rw [if_neg fun hzero => hnil ((measure_bytes omitted).mp hzero)]
  have hne : text ≠ [] := by
    rintro rfl
    exact hexceeds.ne_nil rfl
  generalize hskipped : ({ b with
    totalBytes := b.totalBytes + (measure omitted).bytes
    totalNewlines := b.totalNewlines + (measure omitted).newlines
    endsWithNewline := (measure omitted).endsWithNewline
    chunks := []
    storedBytes := 0
    storedNewlines := 0 } : OutputBuffer) = skipped
  have hmeasured : skipped.Measured := by
    rw [← hskipped]
    exact ⟨fun _ hc => (by cases hc), rfl, rfl⟩
  have htotals : skipped.Totals (whole ++ omitted) := by
    rw [← hskipped]
    exact h.totals.append homitted hnil rfl rfl rfl
  have hlimits : skipped.limits = limits := by
    rw [← hskipped]
    exact h.limits_eq
  have hopened : skipped.full = false := by
    rw [← hskipped]
    exact h.open_tail hretain
  have hempty : skipped.stored = [] := by
    rw [← hskipped]
    rfl
  obtain ⟨b', haccept, hlimits', hdecoder, hstarted, hbytes, hnewlines, hended, hmeasured', hcases⟩ :=
    accept_cases hmeasured hwhole hne
  rw [haccept]
  refine ⟨⟨hlimits'.trans hlimits, hmeasured', htotals.append hwhole hne hbytes hnewlines hended,
    ?_⟩, ?_, ?_⟩
  · rcases hcases with ⟨hfull, -, -⟩ | ⟨-, hhead, -, -⟩ | ⟨-, htail, hopen', front, hfront, hend⟩
    · rw [hopened] at hfull
      cases hfull
    · rw [hlimits, hretain] at hhead
      cases hhead
    · rw [hempty, nil_append] at hfront hend
      refine .last (hlimits' ▸ htail) hopen' (encode (whole ++ omitted) ++ front) ?_ ?_
      · rw [Utf8.encode_append_whole hwhole, hfront, append_assoc]
      · rw [hlimits', hlimits]
        rcases hend with hend | hexceeds'
        · rw [hend]
          exact hexceeds
        · rw [hlimits] at hexceeds'
          exact hexceeds'
  · rw [hdecoder, ← hskipped]
  · rw [hstarted, ← hskipped]

/-! ### A snapshot -/

structure OutputBuffer.Merges (b b' : OutputBuffer) (text : Text) : Prop where
  limits : b'.limits = b.limits
  decoder : b'.decoder = b.decoder
  started : b'.started = b.started
  full : b'.full = b.full
  totalBytes : b'.totalBytes = b.totalBytes
  totalNewlines : b'.totalNewlines = b.totalNewlines
  ended : b'.endsWithNewline = b.endsWithNewline
  stored : b'.stored = text
  measured : b'.Measured

theorem chunkOf_measured (hwhole : Whole text) :
    ∀ c ∈ (if text = [] then [] else [chunkOf text]), c.bytes = (encode c.text).length ∧
      c.newlines = countNewlines c.text ∧ Whole c.text := by
  intro c hc
  split_ifs at hc with hnil
  · cases hc
  · rw [mem_singleton.mp hc]
    exact ⟨utf8ByteLength_eq text, rfl, hwhole⟩

theorem chunkOf_sums (text : Text) :
    ((if text = [] then [] else [chunkOf text]).map (·.text)).flatten = text ∧
      utf8ByteLength text =
        ((if text = [] then [] else [chunkOf text]).map (·.bytes)).sum ∧
      (if text = [] then 0 else countNewlines text) =
        ((if text = [] then [] else [chunkOf text]).map (·.newlines)).sum := by
  split_ifs with hnil
  · rw [hnil]
    exact ⟨rfl, rfl, rfl⟩
  · exact ⟨append_nil _, rfl, rfl⟩

theorem snapshot_merges (h : b.Measured) :
    (b.limits.retain = .tail → b.Merges b.snapshot.1 (tailMargin b.stored b.limits)) ∧
      (b.limits.retain = .head → b.Merges b.snapshot.1 b.stored) := by
  rw [OutputBuffer.snapshot]
  dsimp only
  refine ⟨fun hretain => ?_, fun hretain => ?_⟩
  · have hwhole : Whole (tailMargin b.stored b.limits) := by
      rcases tailMargin_cases b.stored b.limits with hsame | ⟨hwhole, -⟩
      · rw [hsame]
        exact h.stored_whole
      · exact hwhole
    obtain ⟨hstored, hbytes, hnewlines⟩ := chunkOf_sums (tailMargin b.stored b.limits)
    rw [hretain]
    exact ⟨rfl, rfl, rfl, rfl, rfl, rfl, rfl, hstored, chunkOf_measured hwhole, hbytes, hnewlines⟩
  · rw [hretain]
    dsimp only
    by_cases hmany : 1 < b.chunks.length
    · have hlength : b.storedBytes = utf8ByteLength b.stored := by
        rw [h.storedBytes_eq, utf8ByteLength_eq]
      obtain ⟨hstored, hbytes, hnewlines⟩ := chunkOf_sums b.stored
      rw [if_pos hmany, hlength]
      exact ⟨rfl, rfl, rfl, rfl, rfl, rfl, rfl, hstored, chunkOf_measured h.stored_whole, hbytes,
        hnewlines⟩
    · rw [if_neg hmany]
      exact ⟨rfl, rfl, rfl, rfl, rfl, rfl, rfl, rfl, h⟩

theorem snapshot_holds (h : b.Holds limits whole) : b.snapshot.1.Holds limits whole ∧
    b.snapshot.1.decoder = b.decoder ∧ b.snapshot.1.started = b.started ∧
    (b.full = true → b.snapshot.1.full = true ∧ b.snapshot.1.stored = b.stored) ∧
    b.snapshot.1.full = b.full := by
  obtain ⟨htail, hhead⟩ := snapshot_merges h.measured
  generalize b.snapshot.1 = b' at htail hhead ⊢
  have htotals : ∀ text, b.Merges b' text → b'.Totals whole := fun text hmerges =>
    ⟨hmerges.totalBytes.trans h.totals.bytes, hmerges.totalNewlines.trans h.totals.newlines,
      hmerges.ended.trans h.totals.ended⟩
  -- what is stored is as it was
  have hsame : b.Merges b' b.stored → b'.Holds limits whole ∧ b'.decoder = b.decoder ∧
      b'.started = b.started ∧ (b.full = true → b'.full = true ∧ b'.stored = b.stored) ∧
      b'.full = b.full := by
    intro hmerges
    refine ⟨⟨hmerges.limits.trans h.limits_eq, hmerges.measured, htotals _ hmerges, ?_⟩,
      hmerges.decoder, hmerges.started, fun hfull => ⟨hmerges.full.trans hfull, hmerges.stored⟩,
      hmerges.full⟩
    have hlimits := hmerges.limits
    have hstored := hmerges.stored
    have hfull := hmerges.full
    cases h.stores with
    | all hopen hall hfew =>
      refine .all (hfull.trans hopen) (hstored.trans hall) ?_
      rw [hlimits]
      exact hfew
    | first hretain hfull' hne rest hall hrest hfills =>
      refine .first (hlimits ▸ hretain) (hfull.trans hfull') ?_ rest ?_ hrest ?_
      · rw [hstored]
        exact hne
      · rw [hstored]
        exact hall
      · rw [hlimits, hstored]
        exact hfills
    | last hretain hopen front hend hexceeds =>
      refine .last (hlimits ▸ hretain) (hfull.trans hopen) front ?_ ?_
      · rw [hstored]
        exact hend
      · rw [hlimits, hstored]
        exact hexceeds
  cases hretain : b.limits.retain with
  | head => exact hsame (hhead hretain)
  | tail =>
    have hmerges := htail hretain
    rcases tailMargin_cases b.stored b.limits with heq | ⟨-, ⟨front, hfront⟩, hexceeds⟩
    · rw [heq] at hmerges
      exact hsame hmerges
    · obtain ⟨hopen, before, hbefore⟩ :
          b.full = false ∧ ∃ before, encode whole = before ++ encode b.stored := by
        cases h.stores with
        | all hopen hall _ => exact ⟨hopen, [], by rw [hall, nil_append]⟩
        | first hhead _ _ _ _ _ _ =>
          rw [hretain] at hhead
          cases hhead
        | last _ hopen before hend _ => exact ⟨hopen, before, hend⟩
      refine ⟨⟨hmerges.limits.trans h.limits_eq, hmerges.measured, htotals _ hmerges, ?_⟩,
        hmerges.decoder, hmerges.started, fun hfull => ?_, hmerges.full⟩
      · refine .last (hmerges.limits ▸ hretain) (hmerges.full.trans hopen) (before ++ front) ?_ ?_
        · rw [hmerges.stored, hbefore, hfront, append_assoc]
        · rw [hmerges.limits, hmerges.stored]
          exact hexceeds
      · rw [hopen] at hfull
        cases hfull

/-- The window of the first lines ends where what is stored does, and more follows. -/
def OutputBuffer.Cuts (b : OutputBuffer) (whole : Text) : Prop :=
  (window b.limits (encode b.stored)).length = (encode b.stored).length ∧
    (encode b.stored).length < (encode whole).length

theorem stored_window (h : b.Holds limits whole) :
    window limits (encode b.stored) = window limits (encode whole) := by
  cases h.stores with
  | all _ hall _ => rw [hall]
  | first hretain _ _ rest hall hrest hfills =>
    rw [h.limits_eq] at hretain hfills
    rw [hall, Utf8.encode_append_whole hrest, window_fills hretain hfills]
  | last hretain _ front hend hexceeds =>
    rw [h.limits_eq] at hretain hexceeds
    rw [hend, window_exceeds hretain hexceeds]

/-- The text of a snapshot is that of the window of the stream, but for one that ends with what is
stored. -/
theorem snapshot_text (h : b.Holds limits whole) :
    (boundOutput b.stored limits).text = (boundOutput whole limits).text ∨
      b.Cuts whole ∧ limits.retain = .head ∧ (boundOutput b.stored limits).text = b.stored ∧
        (boundOutput whole limits).text = Utf8.toWellFormed b.stored := by
  have hwindow := stored_window h
  rw [boundOutput_text, boundOutput_text, ← hwindow]
  have hlength : (window limits (encode b.stored)).length ≤ (encode b.stored).length := by
    rw [window, length_drop, length_take]
    omega
  cases h.stores with
  | all _ hall _ =>
    left
    rw [hall]
  | first hretain _ _ rest hall hrest hfills =>
    have hencode : encode whole = encode b.stored ++ encode rest := by
      rw [hall, Utf8.encode_append_whole hrest]
    rw [h.limits_eq] at hretain
    by_cases hrest' : rest = []
    · left
      rw [hall, hrest', append_nil]
    have hpos := length_pos_iff.mpr fun hnil => hrest' (Utf8.encode_eq_nil.mp hnil)
    have hmore : (encode b.stored).length < (encode whole).length := by
      rw [hencode, length_append]
      omega
    rw [if_neg (by omega : ¬(window limits (encode b.stored)).length = (encode whole).length)]
    by_cases hcut : (window limits (encode b.stored)).length = (encode b.stored).length
    · right
      rw [if_pos hcut]
      refine ⟨⟨by rw [h.limits_eq]; exact hcut, hmore⟩, hretain, rfl, ?_⟩
      rw [window_head hretain] at hcut ⊢
      rw [length_take] at hcut
      rw [take_of_length_le (by omega), Utf8.decode_encode_text]
    · left
      rw [if_neg hcut]
  | last hretain _ front hend hexceeds =>
    rw [h.limits_eq] at hretain hexceeds
    have hshort := window_exceeds_lt hretain hexceeds
    have hmore : (encode b.stored).length ≤ (encode whole).length := by
      rw [hend, length_append]
      omega
    left
    rw [if_neg (by omega), if_neg (by omega)]

/-- A snapshot shows what is shown of the stream, unless sanitizing leaves a half of a surrogate pair
in what is stored and the window ends with that. -/
theorem snapshot_eq (h : b.Holds limits whole) : b.snapshot.2 = shown limits whole ↔
    ¬(limits.retain = .head ∧ b.Cuts whole ∧
      sanitizeOutput (Utf8.toWellFormed b.stored) ≠ sanitizeOutput b.stored) := by
  have hwindow := stored_window h
  have hbytes : (b.totalBytes : ℤ) - (boundOutput b.stored limits).bytes =
      (boundOutput whole limits).droppedBytes := by
    rw [boundOutput_bytes, boundOutput_droppedBytes, hwindow, h.totals.bytes]
  have hlines : (lines b.totalNewlines b.endsWithNewline : ℤ) -
      ((lines b.storedNewlines (b.stored = [] || endsWithNewline b.stored) : ℤ) -
        (boundOutput b.stored limits).droppedLines) = (boundOutput whole limits).droppedLines := by
    rw [boundOutput_droppedLines, boundOutput_droppedLines, hwindow, lineCount_encode,
      lineCount_encode, h.totals.newlines, h.totals.ended, h.measured.storedNewlines_eq]
    omega
  have hshown : b.snapshot.2 = shown limits whole ↔
      sanitizeOutput (boundOutput b.stored limits).text =
        sanitizeOutput (boundOutput whole limits).text := by
    rw [OutputBuffer.snapshot, shown, BoundedOutput.mk.injEq, h.limits_eq, hbytes, hlines]
    exact ⟨fun heq => heq.1, fun heq => ⟨heq, rfl, rfl⟩⟩
  rw [hshown]
  rcases snapshot_text h with heq | ⟨hcuts, hretain, hstored, hwhole⟩
  · rw [heq]
    refine iff_of_true rfl ?_
    rintro ⟨hretain, ⟨hcut, hmore⟩, hdiffer⟩
    rw [boundOutput_text, boundOutput_text, ← hwindow] at heq
    rw [h.limits_eq] at hcut
    rw [if_pos hcut, if_neg (by omega), window_head hretain] at heq
    rw [window_head hretain, length_take] at hcut
    rw [take_of_length_le (by omega), Utf8.decode_encode_text] at heq
    rw [← heq] at hdiffer
    exact hdiffer rfl
  · rw [hstored, hwhole]
    constructor
    · intro heq hall
      exact hall.2.2 heq.symm
    · intro hnot
      by_contra hdiffer
      exact hnot ⟨hretain, hcuts, fun heq => hdiffer heq.symm⟩

/-! ### A chunk -/

structure OutputBuffer.Follows (b : OutputBuffer) (s : Stream) : Prop where
  decoder : b.decoder = (Utf8.decodeSome Utf8.initial s.run).1
  started : b.started = (s.started || (Utf8.decodeSome Utf8.initial s.run).2 ≠ [])

theorem flush_unmarked (d : Utf8.Decoder) : (Utf8.flush d).head? ≠ some 0xfeff := by
  rw [Utf8.flush]
  split_ifs <;> decide

theorem dropMark_append (hne : text ≠ []) (text' : Text) :
    OutputBuffer.dropMark (text ++ text') = OutputBuffer.dropMark text ++ text' := by
  obtain ⟨c, rest, rfl⟩ := exists_cons_of_ne_nil hne
  rw [OutputBuffer.dropMark, OutputBuffer.dropMark, cons_append, head?_cons,
    head?_cons, tail_cons, tail_cons]
  split_ifs <;> rfl

theorem dropMark_of_head (h : text.head? ≠ some 0xfeff) : OutputBuffer.dropMark text = text :=
  if_neg h

theorem unmarked_append (s : Stream) {text' : Text} (h : text = [] → text'.head? ≠ some 0xfeff) :
    s.unmarked (text ++ text') = s.unmarked text ++ text' := by
  rw [Stream.unmarked, Stream.unmarked]
  split_ifs with hstarted
  · rfl
  · rcases eq_or_ne text [] with rfl | hne
    · rw [nil_append, dropMark_of_head (h rfl)]
      rfl
    · exact dropMark_append hne text'

theorem wellFormed_dropMark (h : Utf8.WellFormed text) :
    Utf8.WellFormed (OutputBuffer.dropMark text) := by
  rw [OutputBuffer.dropMark]
  split_ifs with hmark
  · obtain ⟨rest, rfl⟩ : ∃ rest, text = 0xfeff :: rest := by
      cases text with
      | nil => cases hmark
      | cons c rest => exact ⟨rest, by rw [Option.some.inj hmark]⟩
    rw [tail_cons]
    cases rest with
    | nil => exact trivial
    | cons d rest =>
      have hlead : ¬(JsonText.isLead 0xfeff && JsonText.isTrail d) = true := by
        rw [Bool.and_eq_true, not_and_or]
        left
        decide
      rw [Utf8.WellFormed, if_neg hlead] at h
      exact h.2
  · exact h

theorem decode_run (s : Stream) : decode s.run =
    (Utf8.decodeSome Utf8.initial s.run).2 ++
      Utf8.flush (Utf8.decodeSome Utf8.initial s.run).1 :=
  Utf8.decodeFrom_eq _ _

theorem close_output (h : b.Follows s) : s.close.output = s.text ++ Utf8.flush b.decoder := by
  rw [Stream.close, Stream.text, decode_run, unmarked_append s fun _ => flush_unmarked _,
    ← append_assoc, h.decoder]

theorem started_append (text text' : Text) :
    decide (text ++ text' ≠ []) = (decide (text ≠ []) || decide (text' ≠ [])) := by
  rw [← Bool.decide_or, decide_eq_decide, ne_eq, append_eq_nil_iff, not_and_or]

theorem close_started (h : b.Follows s) :
    s.close.started = (b.started || Utf8.flush b.decoder ≠ []) := by
  rw [Stream.close, h.started, h.decoder, Bool.or_assoc]
  dsimp only
  rw [decode_run, started_append]

theorem text_closed (output : Text) (started : Bool) :
    (Stream.mk output started []).text = output := by
  rw [Stream.text, Stream.unmarked]
  split_ifs <;> exact append_nil output

theorem push_accepts (h : b.Follows s) {chunk : Chunk} (hchunk : chunk.Whole) :
    ∃ added decoder started, Whole added ∧ (s.push chunk).text = s.text ++ added ∧
      (b.push chunk none).1 = ({ b with decoder, started }.accept added).1 ∧
      decoder = (Utf8.decodeSome Utf8.initial (s.push chunk).run).1 ∧
      started = ((s.push chunk).started ||
        (Utf8.decodeSome Utf8.initial (s.push chunk).run).2 ≠ []) := by
  cases chunk with
  | string text =>
    refine ⟨Utf8.flush b.decoder ++ text, _, _,
      Utf8.whole_append (Utf8.wellFormed_flush _).whole hchunk, ?_, rfl, rfl, ?_⟩
    · rw [Stream.push, text_closed, close_output h, append_assoc]
    · rw [Stream.push]
      dsimp only
      rw [close_started h]
      cases b.started <;> cases decide (Utf8.flush b.decoder ≠ []) <;>
        cases decide (text ≠ []) <;> rfl
  | bytes data =>
    have hvalid : b.decoder.Valid := by
      rw [h.decoder]
      exact (Utf8.valid_decodeSome Utf8.valid_initial _).1
    have hwell := (Utf8.valid_decodeSome hvalid data).2
    have hdecode : Utf8.decodeSome Utf8.initial (s.run ++ data) =
        ((Utf8.decodeSome b.decoder data).1, (Utf8.decodeSome Utf8.initial s.run).2 ++
          (Utf8.decodeSome b.decoder data).2) := by
      rw [Utf8.decodeSome_append, ← h.decoder]
    refine ⟨if (!b.started) = true then OutputBuffer.dropMark (Utf8.decodeSome b.decoder data).2
      else (Utf8.decodeSome b.decoder data).2, (Utf8.decodeSome b.decoder data).1,
      b.started || (Utf8.decodeSome b.decoder data).2 ≠ [], ?_, ?_, ?_, ?_, ?_⟩
    · split_ifs
      · exact (wellFormed_dropMark hwell).whole
      · exact hwell.whole
    · rw [Stream.push, Stream.text, Stream.text, Stream.unmarked, Stream.unmarked]
      dsimp only
      rw [hdecode, h.started]
      cases hstarted : s.started with
      | true =>
        rw [if_pos rfl, if_pos rfl, Bool.true_or, Bool.not_true, if_neg Bool.false_ne_true,
          append_assoc]
      | false =>
        rw [if_neg Bool.false_ne_true, if_neg Bool.false_ne_true, Bool.false_or]
        by_cases hnil : (Utf8.decodeSome Utf8.initial s.run).2 = []
        · rw [hnil, decide_eq_false (fun hne => hne rfl), Bool.not_false, if_pos rfl,
            nil_append]
          have hnone : OutputBuffer.dropMark [] = [] := rfl
          rw [hnone, append_nil]
        · rw [decide_eq_true hnil, Bool.not_true, if_neg Bool.false_ne_true,
            dropMark_append hnil, append_assoc]
    · rw [OutputBuffer.push, OutputBuffer.decodeChunk]
      dsimp only
      rw [isSome_none, if_neg Bool.false_ne_true]
      dsimp only
      rw [Bool.or_false, decide_eq_false (fun h : ([] : Text) ≠ [] => h rfl), Bool.or_false]
      cases b.started <;> rfl
    · rw [Stream.push]
      dsimp only
      rw [hdecode]
    · rw [Stream.push]
      dsimp only
      rw [hdecode, h.started, Bool.or_assoc, started_append]

theorem push_skips (h : b.Follows s) (hretain : b.limits.retain = .tail) (omitted : Text)
    (chunk : Chunk) :
    ∃ decoder started, ((s.skip omitted).push chunk).text =
        s.text ++ Utf8.flush b.decoder ++ omitted ++ chunk.text ∧
      (b.push chunk (some (measure omitted))).1 =
        ((({ b with decoder, started }.accept (Utf8.flush b.decoder)).1.skip
          (measure omitted)).accept chunk.text).1 ∧
      decoder = (Utf8.decodeSome Utf8.initial ((s.skip omitted).push chunk).run).1 ∧
      started = (((s.skip omitted).push chunk).started ||
        (Utf8.decodeSome Utf8.initial ((s.skip omitted).push chunk).run).2 ≠ []) := by
  have hnot : ¬b.limits.retain ≠ .tail := not_not.mpr hretain
  cases chunk with
  | string text =>
    refine ⟨Utf8.initial, true, ?_, ?_, rfl, ?_⟩
    · have hclose : (s.skip omitted).close.output = (s.skip omitted).output := by
        rw [Stream.close, Stream.unmarked, Stream.skip]
        exact append_nil _
      rw [Stream.push, text_closed, hclose, Stream.skip, close_output h]
      rfl
    · rw [OutputBuffer.push, OutputBuffer.decodeChunk]
      dsimp only
      rw [if_neg hnot, isSome_some, Bool.or_true]
      rfl
    · rw [Stream.push, Stream.close, Stream.skip]
      rfl
  | bytes data =>
    refine ⟨(Utf8.decodeSome Utf8.initial data).1, true, ?_, ?_, ?_, ?_⟩
    · rw [Stream.push, Stream.text, Stream.unmarked, Stream.skip]
      dsimp only
      rw [if_pos rfl, close_output h]
      rfl
    · rw [OutputBuffer.push, OutputBuffer.decodeChunk]
      dsimp only
      rw [if_neg hnot, isSome_some, if_pos rfl, Bool.or_true, isNone_some,
        Bool.and_false, if_neg Bool.false_ne_true]
      rfl
    · rfl
    · rw [Stream.push, Stream.skip, Bool.true_or]

theorem apply_step (h : b.Holds limits s.text) (hfollows : b.Follows s) {e : Event}
    (he : e.Allowed limits) : (b.apply e).Holds limits (s.apply e).text ∧
      (b.apply e).Follows (s.apply e) ∧
      (∃ added, Whole added ∧ (s.apply e).text = s.text ++ added) ∧
      (b.full = true → (b.apply e).full = true ∧ (b.apply e).stored = b.stored) ∧
      (b.full = false → (b.apply e).full = true → (b.apply e).stored = (s.apply e).text) := by
  cases e with
  | push chunk =>
    obtain ⟨added, decoder, started, hwhole, htext, hpush, hdecoder, hstarted⟩ :=
      push_accepts hfollows he
    obtain ⟨hholds', hdecoder', hstarted', hfull, hfills⟩ :=
      accept_holds (h.decoded decoder started) hwhole
    rw [OutputBuffer.apply, Stream.apply, hpush, htext]
    exact ⟨hholds', ⟨hdecoder'.trans hdecoder, hstarted'.trans hstarted⟩, ⟨added, hwhole, rfl⟩,
      hfull, hfills⟩
  | skip omitted chunk =>
    obtain ⟨hretain, homitted, hchunk, hexceeds⟩ := he
    have hretain' : b.limits.retain = .tail := by
      rw [h.limits_eq]
      exact hretain
    obtain ⟨decoder, started, htext, hpush, hdecoder, hstarted⟩ :=
      push_skips hfollows hretain' omitted chunk
    have hwhole : Whole chunk.text := by
      cases chunk with
      | string text => exact hchunk
      | bytes data => exact (Utf8.valid_decodeSome Utf8.valid_initial data).2.whole
    have hflush := (Utf8.wellFormed_flush b.decoder).whole
    obtain ⟨hpending, hdecoder₁, hstarted₁, -, -⟩ := accept_holds (h.decoded decoder started) hflush
    obtain ⟨hholds', hdecoder₂, hstarted₂⟩ :=
      skip_holds hpending hretain homitted hwhole hexceeds
    rw [OutputBuffer.apply, Stream.apply, hpush, htext]
    refine ⟨hholds', ⟨(hdecoder₂.trans hdecoder₁).trans hdecoder, (hstarted₂.trans hstarted₁).trans
      hstarted⟩, ⟨Utf8.flush b.decoder ++ omitted ++ chunk.text, Utf8.whole_append
      (Utf8.whole_append hflush homitted) hwhole, ?_⟩, fun hfull => ?_, fun _ hfull => ?_⟩
    · rw [append_assoc, append_assoc, append_assoc]
    · rw [h.open_tail hretain] at hfull
      cases hfull
    · rw [hholds'.open_tail hretain] at hfull
      cases hfull
  | snapshot =>
    obtain ⟨hholds, hdecoder, hstarted, hfull, hopen⟩ := snapshot_holds h
    refine ⟨hholds, ⟨hdecoder.trans hfollows.decoder, hstarted.trans hfollows.started⟩,
      ⟨[], Utf8.whole_nil, (append_nil _).symm⟩, hfull, fun hnot hfull' => ?_⟩
    rw [OutputBuffer.apply, hopen, hnot] at hfull'
    cases hfull'

end

/-! ### Runs -/

section

variable {limits : OutputLimits} {events : List Event}

theorem stream_concat (events : List Event) (e : Event) :
    stream (events ++ [e]) = (stream events).apply e := by
  rw [stream, foldl_concat]
  rfl

theorem run_concat (limits : OutputLimits) (events : List Event) (e : Event) :
    OutputBuffer.run limits (events ++ [e]) = (OutputBuffer.run limits events).apply e := by
  rw [OutputBuffer.run, foldl_concat]
  rfl

theorem run_holds (limits : OutputLimits) (events : List Event)
    (hallowed : ∀ e ∈ events, e.Allowed limits) :
    (OutputBuffer.run limits events).Holds limits (stream events).text ∧
      (OutputBuffer.run limits events).Follows (stream events) := by
  induction events using reverseRecOn with
  | nil => exact ⟨new_holds limits, rfl, rfl⟩
  | append_singleton events e ih =>
    obtain ⟨hholds, hfollows⟩ := ih fun e he => hallowed e (mem_append_left _ he)
    obtain ⟨hholds', hfollows', -, -, -⟩ :=
      apply_step hholds hfollows (hallowed e (mem_append_right _ (mem_singleton_self e)))
    rw [run_concat, stream_concat]
    exact ⟨hholds', hfollows'⟩

theorem stream_grows (hallowed : ∀ e ∈ events, e.Allowed limits) {first : List Event}
    (hbegins : first <+: events) :
    ∃ added, Whole added ∧ (stream events).text = (stream first).text ++ added := by
  obtain ⟨more, rfl⟩ := hbegins
  induction more using reverseRecOn with
  | nil => exact ⟨[], Utf8.whole_nil, by rw [append_nil, append_nil]⟩
  | append_singleton more e ih =>
    rw [← append_assoc] at hallowed ⊢
    have hbefore : ∀ e ∈ first ++ more, e.Allowed limits := fun e he =>
      hallowed e (mem_append_left _ he)
    obtain ⟨added, hwhole, hadded⟩ := ih hbefore
    obtain ⟨hholds, hfollows⟩ := run_holds limits _ hbefore
    obtain ⟨-, -, ⟨added', hwhole', hadded'⟩, -, -⟩ :=
      apply_step hholds hfollows (hallowed e (mem_append_right _ (mem_singleton_self e)))
    refine ⟨added ++ added', Utf8.whole_append hwhole hwhole', ?_⟩
    rw [stream_concat, hadded', hadded, append_assoc]

variable {bytes : List UInt8}

theorem Fills.append (h : Fills limits bytes) (rest : List UInt8) :
    Fills limits (bytes ++ rest) := by
  rw [Fills, length_append, count_append]
  rcases h with h | h
  · left
    omega
  · right
    omega

theorem run_starts (limits : OutputLimits) (events : List Event)
    (hallowed : ∀ e ∈ events, e.Allowed limits)
    (hfull : (OutputBuffer.run limits events).full = true) :
    ∃ first, first <+: events ∧ (OutputBuffer.run limits events).stored = (stream first).text ∧
      ∀ other, other <+: first → (stream other).text ≠ [] →
        Fills limits (encode (stream other).text) → (stream other).text = (stream first).text := by
  induction events using reverseRecOn with
  | nil => cases hfull
  | append_singleton events e ih =>
    have hbefore : ∀ e ∈ events, e.Allowed limits := fun e he =>
      hallowed e (mem_append_left _ he)
    obtain ⟨hholds, hfollows⟩ := run_holds limits events hbefore
    obtain ⟨hholds', hfollows', -, hkeeps, hfills⟩ :=
      apply_step hholds hfollows (hallowed e (mem_append_right _ (mem_singleton_self e)))
    rw [run_concat] at hfull ⊢
    cases hfull' : (OutputBuffer.run limits events).full with
    | true =>
      obtain ⟨first, hbegins, hstored, hfirst⟩ := ih hbefore hfull'
      exact ⟨first, hbegins.trans (prefix_append _ _), (hkeeps hfull').2.trans hstored, hfirst⟩
    | false =>
      have hstored := hfills hfull' hfull
      rw [← stream_concat] at hstored
      refine ⟨events ++ [e], prefix_refl _, hstored, fun other hother hne hfilled => ?_⟩
      rcases prefix_concat_iff.mp hother with rfl | hother
      · rfl
      · -- the buffer would have been full before
        exfalso
        obtain ⟨added, hwhole, hadded⟩ := stream_grows hbefore hother
        cases hholds.stores with
        | all _ _ hfew =>
          have hretain : limits.retain = .head := by
            cases hretain : limits.retain with
            | head => rfl
            | tail =>
              have hholds'' := hholds'
              rw [hholds''.open_tail hretain] at hfull
              cases hfull
          rw [hholds.limits_eq] at hfew
          rcases hfew hretain with hnil | hnot
          · rw [hadded] at hnil
            exact hne (append_eq_nil_iff.mp hnil).1
          · rw [hadded, Utf8.encode_append_whole hwhole] at hnot
            exact hnot (hfilled.append _)
        | first _ hfull'' _ _ _ _ _ =>
          rw [hfull'] at hfull''
          cases hfull''
        | last htail _ _ _ _ =>
          rw [hholds.limits_eq] at htail
          rw [hholds'.open_tail htail] at hfull
          cases hfull

/-! ### Where the first lines end -/

theorem newline_of_last (hlast : bytes.getLast? = some NEWLINE) : 0 < bytes.count NEWLINE :=
  count_pos_iff.mpr (mem_of_getLast? hlast)

theorem headRange_all (hne : bytes ≠ []) (hfills : Fills limits bytes) :
    bytes.length ≤ (headRange bytes limits).2 ↔ bytes.count NEWLINE = limits.maxLines ∧
      bytes.getLast? = some NEWLINE ∧ bytes.length ≤ limits.maxBytes := by
  have hpos := length_pos_iff.mpr hne
  have hnever : limits.maxLines = 0 ∨ limits.maxBytes = 0 → ¬(bytes.count NEWLINE =
      limits.maxLines ∧ bytes.getLast? = some NEWLINE ∧ bytes.length ≤ limits.maxBytes) := by
    rintro hzero ⟨hcount, hlast, hlength⟩
    have hone := newline_of_last hlast
    omega
  have hbytes := headRange_le bytes limits
  constructor
  · intro hle
    have hlines := hfills.resolve_left (not_lt.mpr (hle.trans hbytes))
    by_cases hzero : limits.maxLines = 0 ∨ limits.maxBytes = 0
    · rw [headRange, if_pos hzero] at hle
      exact absurd hpos (not_lt.mpr hle)
    rw [not_or] at hzero
    obtain ⟨found, hfound⟩ := @indexOfLine_exists bytes 0 _
      (Nat.pos_of_ne_zero hzero.1) (by rw [drop_zero]; exact hlines)
    obtain ⟨-, hlt, hnewline, hcount⟩ := indexOfLine_found hfound
    have hshort : ¬limits.maxBytes < found + 1 := by omega
    rw [headRange, if_neg (not_or.mpr hzero), hfound, map_some, getD_some] at hle
    dsimp only at hle
    rw [if_neg hshort] at hle
    dsimp only at hle
    have hend : found + 1 = bytes.length := by omega
    rw [drop_zero, hend, drop_length, count_nil, zero_add] at hcount
    refine ⟨hcount, ?_, by omega⟩
    rw [getLast?_eq_getElem?, ← hend, Nat.add_sub_cancel]
    exact hnewline
  · rintro ⟨hcount, hlast, hlength⟩
    have hone := newline_of_last hlast
    by_cases hzero : limits.maxLines = 0 ∨ limits.maxBytes = 0
    · exact absurd ⟨hcount, hlast, hlength⟩ (hnever hzero)
    rw [not_or] at hzero
    obtain ⟨found, hfound⟩ := @indexOfLine_exists bytes 0 _
      (Nat.pos_of_ne_zero hzero.1) (by rw [drop_zero]; exact hcount.ge)
    obtain ⟨-, hlt, -, hcount'⟩ := indexOfLine_found hfound
    rw [drop_zero] at hcount'
    have hend : found + 1 = bytes.length := by
      by_contra hmore
      have hrest : bytes.drop (found + 1) ≠ [] := by
        rw [ne_eq, drop_eq_nil_iff]
        omega
      have hsplit := take_append_drop (found + 1) bytes
      rw [← hsplit, getLast?_append_of_ne_nil _ hrest] at hlast
      have hone' := newline_of_last hlast
      omega
    rw [headRange, if_neg (not_or.mpr hzero), hfound, map_some, getD_some]
    dsimp only
    rw [if_neg (by omega)]
    exact hend.ge

/-! ### Half of a surrogate pair -/

/-- The first lines of a stream end with a chunk, more follows, and a half of a surrogate pair in
them is left by sanitizing. -/
def Halves (limits : OutputLimits) (events : List Event) : Prop :=
  limits.retain = .head ∧ ∃ first, first <+: events ∧
    countNewlines (stream first).text = limits.maxLines ∧
    endsWithNewline (stream first).text = true ∧
    (encode (stream first).text).length ≤ limits.maxBytes ∧
    (stream first).text ≠ (stream events).text ∧
    sanitizeOutput (Utf8.toWellFormed (stream first).text) ≠ sanitizeOutput (stream first).text

theorem window_all (hretain : limits.retain = .head) (bytes : List UInt8) :
    (window limits bytes).length = bytes.length ↔ bytes.length ≤ (headRange bytes limits).2 := by
  rw [window_head hretain, length_take]
  omega

theorem run_snapshot (limits : OutputLimits) (events : List Event)
    (hallowed : ∀ e ∈ events, e.Allowed limits) :
    (OutputBuffer.run limits events).snapshot.2 = shown limits (stream events).text ↔
      ¬Halves limits events := by
  obtain ⟨hholds, -⟩ := run_holds limits events hallowed
  have hstarts := run_starts limits events hallowed
  rw [snapshot_eq hholds]
  generalize hb : OutputBuffer.run limits events = b at hholds hstarts ⊢
  refine not_congr ⟨?_, ?_⟩
  · rintro ⟨hretain, ⟨hcut, hmore⟩, hdiffer⟩
    cases hholds.stores with
    | all _ hall _ =>
      rw [hall] at hmore
      exact absurd hmore (lt_irrefl _)
    | first _ hfull hne rest hall hrest hfills =>
      obtain ⟨first, hbegins, hstored, -⟩ := hstarts hfull
      rw [hholds.limits_eq] at hcut hfills
      rw [hstored] at hcut hmore hdiffer hfills hne
      have hencode : encode (stream first).text ≠ [] := fun hnil => hne (Utf8.encode_eq_nil.mp hnil)
      obtain ⟨hcount, hlast, hlength⟩ :=
        (headRange_all hencode hfills).mp ((window_all hretain _).mp hcut)
      refine ⟨hretain, first, hbegins, ?_, ?_, hlength, fun heq => ?_, hdiffer⟩
      · rw [countNewlines_eq]
        exact hcount
      · rw [endsWithNewline_eq]
        exact decide_eq_true hlast
      · rw [heq] at hmore
        exact absurd hmore (lt_irrefl _)
    | last htail _ _ _ _ =>
      rw [hholds.limits_eq, hretain] at htail
      cases htail
  · rintro ⟨hretain, first, hbegins, hcount, hended, hlength, hmore, hdiffer⟩
    rw [countNewlines_eq] at hcount
    rw [endsWithNewline_eq, decide_eq_true_eq] at hended
    have hencode : encode (stream first).text ≠ [] := by
      intro hnil
      rw [hnil] at hended
      cases hended
    have hne : (stream first).text ≠ [] := fun hnil => hencode (Utf8.encode_eq_nil.mpr hnil)
    have hfills : Fills limits (encode (stream first).text) := .inr hcount.ge
    obtain ⟨added, hwhole, hadded⟩ := stream_grows hallowed hbegins
    have hadded' : encode added ≠ [] := by
      intro hnil
      rw [Utf8.encode_eq_nil.mp hnil, append_nil] at hadded
      exact hmore hadded.symm
    have hstored : b.stored = (stream first).text := by
      cases hholds.stores with
      | all _ _ hfew =>
        rw [hholds.limits_eq] at hfew
        rcases hfew hretain with hnil | hnot
        · rw [hadded] at hnil
          exact absurd (append_eq_nil_iff.mp hnil).1 hne
        · rw [hadded, Utf8.encode_append_whole hwhole] at hnot
          exact absurd (hfills.append _) hnot
      | first _ hfull hne' rest hall hrest hfills' =>
        obtain ⟨first', hbegins', hstored, hfirst⟩ := hstarts hfull
        rw [hstored]
        rcases prefix_or_prefix_of_prefix hbegins hbegins' with hle | hle
        · exact (hfirst first hle hne hfills).symm
        · -- what is stored has as many lines, and only a newline ends them
          have hbefore : ∀ e ∈ first, e.Allowed limits := fun e he =>
            hallowed e (hbegins.subset he)
          obtain ⟨more, hwhole', hmore'⟩ := stream_grows hbefore hle
          rw [hstored, hholds.limits_eq] at hfills'
          rw [hmore', Utf8.encode_append_whole hwhole'] at hcount hended hlength
          rw [count_append] at hcount
          rw [length_append] at hlength
          have hlines := hfills'.resolve_left (by omega)
          rcases eq_or_ne (encode more) [] with hnil | hnonempty
          · rw [hmore', Utf8.encode_eq_nil.mp hnil, append_nil]
          · rw [getLast?_append_of_ne_nil _ hnonempty] at hended
            have hpos := newline_of_last hended
            omega
      | last htail _ _ _ _ =>
        rw [hholds.limits_eq, hretain] at htail
        cases htail
    refine ⟨hretain, ⟨?_, ?_⟩, ?_⟩
    · rw [hstored, hholds.limits_eq, window_all hretain, headRange_all hencode hfills]
      exact ⟨hcount, hended, hlength⟩
    · have hpos := length_pos_iff.mpr hadded'
      rw [hstored, hadded, Utf8.encode_append_whole hwhole, length_append]
      omega
    · rw [hstored]
      exact hdiffer

theorem not_halves_tail (hretain : limits.retain = .tail) (events : List Event) :
    ¬Halves limits events := by
  rintro ⟨hhead, -⟩
  rw [hretain] at hhead
  cases hhead

theorem stream_append (before after : List Event) :
    stream (before ++ after) = after.foldl Stream.apply (stream before) := by
  rw [stream, foldl_append]
  rfl

theorem stream_skip (before : List Event) {omitted : Text} (hne : omitted ≠ []) (chunk : Chunk)
    (after : List Event) : stream (before ++ .skip omitted chunk :: after) =
      stream (before ++ .push (.string omitted) :: .push chunk :: after) := by
  have hskip : (stream before).skip omitted = (stream before).push (.string omitted) := by
    rw [Stream.skip, Stream.push, decide_eq_true hne, Bool.or_true]
  rw [stream_append, stream_append, foldl_cons, foldl_cons, foldl_cons,
    Stream.apply, Stream.apply, Stream.apply, hskip]

/-- Every snapshot shows the window of the whole stream, unless the stream halves a surrogate pair;
and it does not matter whether output before more than a window is left out. -/
theorem run_exact (limits : OutputLimits) :
    (∀ events : List Event, (∀ e ∈ events, e.Allowed limits) → ((OutputBuffer.run limits
      events).snapshot.2 = shown limits (stream events).text ↔ ¬Halves limits events)) ∧
    (limits.retain = .tail → ∀ events events' : List Event, (∀ e ∈ events, e.Allowed limits) → (∀ e
      ∈ events', e.Allowed limits) → (stream events).text = (stream events').text →
      (OutputBuffer.run limits events).snapshot.2 = (OutputBuffer.run limits events').snapshot.2) ∧
    (limits.retain = .tail → ∀ before omitted chunk after, omitted ≠ [] →
      Exceeds limits (encode chunk.text) →
      (∀ e ∈ before ++ .push (.string omitted) :: .push chunk :: after, e.Allowed limits) →
        (OutputBuffer.run limits (before ++ .skip omitted chunk :: after)).snapshot.2 =
          (OutputBuffer.run limits
            (before ++ .push (.string omitted) :: .push chunk :: after)).snapshot.2) := by
  have htail : limits.retain = .tail → ∀ events : List Event, (∀ e ∈ events, e.Allowed limits) →
      (OutputBuffer.run limits events).snapshot.2 = shown limits (stream events).text :=
    fun hretain events hallowed =>
      (run_snapshot limits events hallowed).mpr (not_halves_tail hretain events)
  refine ⟨run_snapshot limits, fun hretain events events' hallowed hallowed' htext => ?_,
    fun hretain before omitted chunk after hne hexceeds hallowed => ?_⟩
  · rw [htail hretain events hallowed, htail hretain events' hallowed', htext]
  · have hskip : ∀ e ∈ before ++ .skip omitted chunk :: after, e.Allowed limits := by
      intro e he
      rcases mem_append.mp he with he | he
      · exact hallowed e (mem_append_left _ he)
      · rcases mem_cons.mp he with rfl | he
        · refine ⟨hretain, hallowed (.push (.string omitted)) ?_, hallowed (.push chunk) ?_,
            hexceeds⟩
          · exact mem_append_right _ mem_cons_self
          · exact mem_append_right _ (mem_cons_of_mem _ mem_cons_self)
        · exact hallowed e
            (mem_append_right _ (mem_cons_of_mem _ (mem_cons_of_mem _ he)))
    rw [htail hretain _ hskip, htail hretain _ hallowed, stream_skip before hne]

/-- Bytes of a character in two chunks, and lines behind them. -/
def splitLines : List Event :=
  [.push (.bytes [0xe2, 0x82]), .snapshot, .push (.bytes [0xac, 0x0a]),
    .push (.string [0x61, 0x0a, 0x62])]

/-- The first line, the last one of the same text in one chunk, and one with output left out. -/
theorem run_exact_lines :
    (OutputBuffer.run ⟨4, 1, .head⟩ splitLines).snapshot.2 =
      shown ⟨4, 1, .head⟩ (stream splitLines).text ∧
    (OutputBuffer.run ⟨4, 1, .tail⟩ splitLines).snapshot.2 =
      (OutputBuffer.run ⟨4, 1, .tail⟩
        [.push (.string [0x20ac, 0x0a, 0x61, 0x0a, 0x62])]).snapshot.2 ∧
    (OutputBuffer.run ⟨4, 1, .tail⟩ (splitLines ++ [.skip [0x78] (.string
        [0x61, 0x62, 0x63, 0x64, 0x65])])).snapshot.2 =
      (OutputBuffer.run ⟨4, 1, .tail⟩ (splitLines ++ [.push (.string [0x78]),
        .push (.string [0x61, 0x62, 0x63, 0x64, 0x65])])).snapshot.2 := by
  refine ⟨((run_exact ⟨4, 1, .head⟩).1 splitLines (by decide)).mpr ?_,
    (run_exact ⟨4, 1, .tail⟩).2.1 rfl _ _ (by decide) (by decide) (by decide),
    (run_exact ⟨4, 1, .tail⟩).2.2 rfl splitLines _ _ [] (by decide) (.inl (by decide)) (by decide)⟩
  rintro ⟨-, first, hfirst, -, -, -, -, hne⟩
  have hall : ∀ first ∈ splitLines.inits, sanitizeOutput (Utf8.toWellFormed (stream first).text) =
      sanitizeOutput (stream first).text := by decide
  exact hne (hall first ((mem_inits _ _).mpr hfirst))

/-- Half of a surrogate pair on the first line, and a second line. -/
def halved : List Event :=
  [.push (.string [0xd800, 0x0a]), .push (.string [0x62])]

/-- It is shown as it is, and as U+FFFD where the whole stream is shown. -/
theorem run_halved : (∀ e ∈ halved, e.Allowed ⟨100, 1, .head⟩) ∧
    (OutputBuffer.run ⟨100, 1, .head⟩ halved).snapshot.2 ≠
      shown ⟨100, 1, .head⟩ (stream halved).text := by
  refine ⟨by decide, fun heq => ?_⟩
  exact absurd (congrArg BoundedOutput.text heq) (by decide)

end

end KnightCode.Bounded
