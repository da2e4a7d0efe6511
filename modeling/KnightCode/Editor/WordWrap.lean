import KnightCode.Editor.Segments

/-!
# Word wrap of an editor's line

A line wider than the terminal is broken at the last place that allows a break, or else before the
grapheme that does not fit. A segment wider than the terminal is wrapped again grapheme by
grapheme: a paste marker ends there, a single grapheme is its own only grapheme and never does.
-/

namespace KnightCode.Editor

open List Option
variable {after group : List Text} {fuel : ℕ} {groups : List (List Text)} {segs : List SegmentData}
  {valid : Text → Bool}

structure TextChunk where
  text : Text
  startIndex : ℕ
  endIndex : ℕ

structure WrapState where
  chunks : List TextChunk
  currentWidth : ℕ
  chunkStart : ℕ
  /-- Where a break is allowed, and the columns before it. -/
  wrapOpp : Option (ℕ × ℕ)

variable (d : Display)

/-- The text up to a place becomes a chunk. -/
def WrapState.breakAt (s : WrapState) (line : Text) (index width : ℕ) : WrapState :=
  ⟨s.chunks ++ [⟨slice line s.chunkStart index, s.chunkStart, index⟩], width, index, none⟩

def WrapState.forceBreak (s : WrapState) (line : Text) (charIndex : ℕ) : WrapState :=
  if s.chunkStart < charIndex then s.breakAt line charIndex 0 else { s with wrapOpp := none }

/-- Overflow check before advancing. -/
def overflow (line : Text) (maxWidth : ℕ) (s : WrapState) (gWidth charIndex : ℕ) : WrapState :=
  if maxWidth < s.currentWidth + gWidth then
    match s.wrapOpp with
    | some (index, width) =>
      if s.currentWidth - width + gWidth ≤ maxWidth then
        s.breakAt line index (s.currentWidth - width)
      else s.forceBreak line charIndex
    | none => s.forceBreak line charIndex
  else s

/-- All chunks of a segment but its last one, which goes on. -/
def rewrapped (s : WrapState) (charIndex : ℕ) (subChunks : List TextChunk) : WrapState :=
  match subChunks.getLast? with
  | some last =>
    ⟨s.chunks ++ subChunks.dropLast.map fun sc => ⟨sc.text, charIndex + sc.startIndex, charIndex +
      sc.endIndex⟩, visibleWidth d last.text, charIndex + last.startIndex, none⟩
  | none => s

/-- White space before something else, or text beside CJK. -/
def breaksBetween (grapheme next : Text) : Bool :=
  let isWs := !isPasteMarker grapheme && isWhitespaceChar grapheme
  if isWs && (isPasteMarker next || !isWhitespaceChar next) then true
  else if !isWs && !isWhitespaceChar next then
    (!isPasteMarker grapheme && d.isCjk grapheme) || (!isPasteMarker next && d.isCjk next)
  else false

def advance (s : WrapState) (grapheme : Text) (next : Option SegmentData) : WrapState :=
  let width := s.currentWidth + visibleWidth d grapheme
  match next with
  | some next =>
    { s with
      currentWidth := width
      wrapOpp := if breaksBetween d grapheme next.segment then some (next.index, width)
        else s.wrapOpp }
  | none => { s with currentWidth := width }

def wrapSegment (rewrap : Text → Option (List TextChunk)) (line : Text) (maxWidth : ℕ)
    (s : WrapState) (seg : SegmentData) (next : Option SegmentData) : Option WrapState :=
  let s := overflow line maxWidth s (visibleWidth d seg.segment) seg.index
  if maxWidth < visibleWidth d seg.segment then
    (rewrap seg.segment).map (rewrapped d s seg.index)
  else some (advance d s seg.segment next)

def wrapSegments (rewrap : Text → Option (List TextChunk)) (line : Text) (maxWidth : ℕ) :
    List SegmentData → WrapState → Option WrapState
  | [], s => some s
  | seg :: rest, s =>
    (wrapSegment d rewrap line maxWidth s seg rest.head?).bind
      (wrapSegments rewrap line maxWidth rest)

/-- `none` when the calls within each other are more than the fuel. -/
def wordWrapLine (maxWidth : ℕ) :
    ℕ → Text → Option (List SegmentData) → Option (List TextChunk)
  | 0, _, _ => none
  | fuel + 1, line, preSegmented =>
    if line = [] ∨ maxWidth = 0 then some [⟨[], 0, 0⟩]
    else if visibleWidth d line ≤ maxWidth then some [⟨line, 0, line.length⟩]
    else
      (wrapSegments d (fun grapheme => wordWrapLine maxWidth fuel grapheme none) line maxWidth
        (preSegmented.getD (placed 0 (d.segment line))) ⟨[], 0, 0, none⟩).map fun s =>
          s.chunks ++ [⟨line.drop s.chunkStart, s.chunkStart, line.length⟩]

/-! ### Layouts -/

/-- Runs of graphemes as chunks, one behind the other. -/
def cut (index : ℕ) : List (List Text) → List TextChunk
  | [] => []
  | piece :: pieces =>
    ⟨piece.flatten, index, index + piece.flatten.length⟩ ::
      cut (index + piece.flatten.length) pieces

/-- Consecutive runs of the line's graphemes, none wider than allowed unless it is a single
grapheme. -/
structure LaidOut (line : Text) (maxWidth : ℕ) (chunks : List TextChunk) : Prop where
  pieces : ∃ pieces : List (List Text), pieces.flatten = d.segment line ∧ chunks = cut 0 pieces ∧
    ∀ piece ∈ pieces, visibleWidth d piece.flatten ≤ maxWidth ∨ ∃ g, piece = [g]
  slices : ∀ c ∈ chunks, c.text = slice line c.startIndex c.endIndex

variable {d}

theorem cut_shift (base index : ℕ) (pieces : List (List Text)) :
    ((cut index pieces).map fun sc =>
      (⟨sc.text, base + sc.startIndex, base + sc.endIndex⟩ : TextChunk)) =
      cut (base + index) pieces := by
  induction pieces generalizing index with
  | nil => rfl
  | cons p pieces ih => rw [cut, map_cons, ih, cut, add_assoc]

theorem cut_append (index : ℕ) (pieces more : List (List Text)) :
    cut index (pieces ++ more) =
      cut index pieces ++ cut (index + pieces.flatten.flatten.length) more := by
  induction pieces generalizing index with
  | nil => rfl
  | cons p pieces ih =>
    rw [cons_append, cut, ih, cut, cons_append, flatten_cons, flatten_append,
      length_append, add_assoc]

theorem cut_slices (before : Text) (pieces : List (List Text)) (after : Text) :
    ∀ c ∈ cut before.length pieces,
      c.text = slice (before ++ (pieces.flatten.flatten ++ after)) c.startIndex c.endIndex := by
  induction pieces generalizing before with
  | nil => exact fun _ h => (by cases h)
  | cons p pieces ih =>
    intro c hc
    rw [flatten_cons, flatten_append, append_assoc]
    rcases mem_cons.mp hc with rfl | hc
    · rw [slice_append, take_left]
    · rw [← append_assoc before]
      exact ih (before ++ p.flatten) c (by rw [length_append]; exact hc)

/-! ### One step -/

/-- Columns of a run of graphemes, each on its own. -/
def columns (d : Display) (gs : List Text) : ℕ :=
  (gs.map (visibleWidth d)).sum

theorem columns_append (gs hs : List Text) : columns d (gs ++ hs) = columns d gs + columns d hs := by
  rw [columns, map_append, sum_append, columns, columns]

/-- The chunks are the pieces; the graphemes behind them are on the line being filled. -/
structure Wrapped (d : Display) (maxWidth : ℕ) (pieces : List (List Text)) (current : List Text)
    (s : WrapState) : Prop where
  chunks : s.chunks = cut 0 pieces
  narrow : ∀ piece ∈ pieces, columns d piece ≤ maxWidth
  start : s.chunkStart = pieces.flatten.flatten.length
  width : s.currentWidth = columns d current
  fits : columns d current ≤ maxWidth
  opp : ∀ index width, s.wrapOpp = some (index, width) → ∃ first second,
    current = first ++ second ∧ index = s.chunkStart + first.flatten.length ∧
      width = columns d first

variable {line : Text} {maxWidth : ℕ} {pieces : List (List Text)} {current : List Text}
  {s : WrapState}

theorem slice_graphemes (hd : d.Lawful) {gs hs ks : List Text}
    (h : d.segment line = gs ++ (hs ++ ks)) :
    slice line gs.flatten.length (gs.flatten.length + hs.flatten.length) = hs.flatten := by
  rw [← hd.flatten line, h, flatten_append, flatten_append, slice_append, take_left]

theorem Wrapped.breakAt (hd : d.Lawful) (h : Wrapped d maxWidth pieces current s)
    {first second : List Text} (hcurrent : current = first ++ second)
    (hline : d.segment line = pieces.flatten ++ (current ++ after)) {index width : ℕ}
    (hindex : index = s.chunkStart + first.flatten.length) (hwidth : width = columns d second) :
    Wrapped d maxWidth (pieces ++ [first]) second (s.breakAt line index width) := by
  subst hcurrent hindex hwidth
  rw [append_assoc] at hline
  have hsum := columns_append (d := d) first second
  have hfits := h.fits
  have hflat : (pieces ++ [first]).flatten.flatten.length =
      pieces.flatten.flatten.length + first.flatten.length := by
    rw [flatten_append, flatten_append, length_append, flatten_singleton]
  refine ⟨?_, ?_, ?_, rfl, by omega, fun _ _ hopp => (by cases hopp)⟩
  · rw [WrapState.breakAt, h.chunks, cut_append, h.start, slice_graphemes hd hline, zero_add]
    rfl
  · intro piece hpiece
    rcases mem_append.mp hpiece with hpiece | hpiece
    · exact h.narrow piece hpiece
    · rw [mem_singleton.mp hpiece]
      omega
  · rw [WrapState.breakAt, hflat, h.start]

theorem Wrapped.forceBreak (hd : d.Lawful) (h : Wrapped d maxWidth pieces current s)
    (hline : d.segment line = pieces.flatten ++ (current ++ after)) {charIndex : ℕ}
    (hindex : charIndex = s.chunkStart + current.flatten.length) :
    ∃ pieces', pieces'.flatten = pieces.flatten ++ current ∧
      Wrapped d maxWidth pieces' [] (s.forceBreak line charIndex) := by
  rw [WrapState.forceBreak]
  split_ifs with hlt
  · exact ⟨pieces ++ [current], by rw [flatten_append, flatten_singleton],
      h.breakAt hd (append_nil _).symm hline hindex rfl⟩
  · have hempty : current = [] := by
      refine hd.eq_nil_of_flatten (t := line) (fun g hg => ?_)
        (length_eq_zero_iff.mp (by omega))
      rw [hline]
      exact mem_append_right _ (mem_append_left _ hg)
    subst hempty
    exact ⟨pieces, (append_nil _).symm, h.chunks, h.narrow, h.start, h.width, h.fits,
      fun _ _ hopp => (by cases hopp)⟩

theorem Wrapped.overflow (hd : d.Lawful) (h : Wrapped d maxWidth pieces current s)
    (hline : d.segment line = pieces.flatten ++ (current ++ after)) {charIndex : ℕ}
    (hindex : charIndex = s.chunkStart + current.flatten.length) (gWidth : ℕ) :
    ∃ pieces' current', pieces'.flatten ++ current' = pieces.flatten ++ current ∧
      Wrapped d maxWidth pieces' current' (overflow line maxWidth s gWidth charIndex) ∧
      (current' = [] ∨ columns d current' + gWidth ≤ maxWidth) := by
  have hforce : ∃ pieces' current', pieces'.flatten ++ current' = pieces.flatten ++ current ∧
      Wrapped d maxWidth pieces' current' (s.forceBreak line charIndex) ∧
      (current' = [] ∨ columns d current' + gWidth ≤ maxWidth) := by
    obtain ⟨pieces', hpieces, hwrapped⟩ := h.forceBreak hd hline hindex
    exact ⟨pieces', [], by rw [hpieces, append_nil], hwrapped, .inl rfl⟩
  rw [KnightCode.Editor.overflow]
  split_ifs with hover
  · cases hopp : s.wrapOpp with
    | none => exact hforce
    | some opp =>
      obtain ⟨index, width⟩ := opp
      obtain ⟨first, second, hcurrent, hplace, rfl⟩ := h.opp index width hopp
      have hleft : s.currentWidth - columns d first = columns d second := by
        rw [h.width, hcurrent, columns_append, Nat.add_sub_cancel_left]
      dsimp only
      split_ifs with hfits
      · refine ⟨pieces ++ [first], second, ?_, h.breakAt hd hcurrent hline hplace hleft,
          .inr (hleft ▸ hfits)⟩
        rw [flatten_append, flatten_singleton, append_assoc, hcurrent]
      · exact hforce
  · have hwidth := h.width
    exact ⟨pieces, current, rfl, h, .inr (by omega)⟩

variable {next : Option SegmentData}

theorem Wrapped.advance (h : Wrapped d maxWidth pieces current s)
    (hgroup : visibleWidth d group.flatten = columns d group)
    (hfits : columns d current + columns d group ≤ maxWidth)
    (hnext : ∀ seg, next = some seg →
      seg.index = s.chunkStart + current.flatten.length + group.flatten.length) :
    Wrapped d maxWidth pieces (current ++ group) (advance d s group.flatten next) := by
  have hwidth : s.currentWidth + visibleWidth d group.flatten = columns d (current ++ group) := by
    rw [h.width, hgroup, columns_append]
  have hkeeps : ∀ index width, s.wrapOpp = some (index, width) → ∃ first second,
      current ++ group = first ++ second ∧ index = s.chunkStart + first.flatten.length ∧
        width = columns d first := fun index width hopp => by
    obtain ⟨first, second, hcurrent, hindex, hw⟩ := h.opp index width hopp
    exact ⟨first, second ++ group, by rw [hcurrent, append_assoc], hindex, hw⟩
  rw [← columns_append] at hfits
  cases next with
  | none => exact ⟨h.chunks, h.narrow, h.start, hwidth, hfits, hkeeps⟩
  | some seg =>
    refine ⟨h.chunks, h.narrow, h.start, hwidth, hfits, fun index width hopp => ?_⟩
    rw [KnightCode.Editor.advance] at hopp
    dsimp only at hopp
    split_ifs at hopp
    · cases hopp
      refine ⟨current ++ group, [], (append_nil _).symm, ?_, hwidth⟩
      rw [hnext seg rfl, flatten_append, length_append]
      exact add_assoc _ _ _
    · exact hkeeps index width hopp

/-- A segment wider than the terminal comes back as runs of its graphemes. -/
structure Rewraps (d : Display) (maxWidth : ℕ) (group : List Text)
    (subChunks : Option (List TextChunk)) : Prop where
  pieces : ∃ pieces last, subChunks = some (cut 0 (pieces ++ [last])) ∧
    pieces.flatten ++ last = group ∧
    (∀ piece ∈ pieces, columns d piece ≤ maxWidth) ∧ columns d last ≤ maxWidth ∧
    visibleWidth d last.flatten = columns d last

theorem rewrapped_append (s : WrapState) (charIndex : ℕ) (sub : List TextChunk)
    (last : TextChunk) : rewrapped d s charIndex (sub ++ [last]) =
      ⟨s.chunks ++ sub.map fun sc =>
          ⟨sc.text, charIndex + sc.startIndex, charIndex + sc.endIndex⟩,
        visibleWidth d last.text, charIndex + last.startIndex, none⟩ := by
  rw [rewrapped, getLast?_concat, dropLast_concat]

theorem Wrapped.rewrapped (h : Wrapped d maxWidth pieces [] s) {subChunks : Option (List TextChunk)}
    (hrewraps : Rewraps d maxWidth group subChunks) :
    ∃ pieces' current' s', pieces'.flatten ++ current' = pieces.flatten ++ group ∧
      subChunks.map (rewrapped d s s.chunkStart) = some s' ∧
      Wrapped d maxWidth pieces' current' s' := by
  obtain ⟨sub, last, rfl, rfl, hsub, hlast, hcolumns⟩ := hrewraps.pieces
  refine ⟨pieces ++ sub, last, _, ?_, rfl, ?_⟩
  · rw [flatten_append, append_assoc]
  · rw [cut_append, cut, cut, rewrapped_append]
    refine ⟨?_, ?_, ?_, hcolumns, hlast, fun _ _ hopp => (by cases hopp)⟩
    · rw [cut_shift, h.chunks, h.start, cut_append, add_zero, zero_add, zero_add]
    · intro piece hpiece
      rcases mem_append.mp hpiece with hpiece | hpiece
      · exact h.narrow piece hpiece
      · exact hsub piece hpiece
    · rw [flatten_append, flatten_append, length_append, h.start]
      exact congrArg (_ + ·) (zero_add _)

/-- What a segment stands for: a grapheme, or the graphemes of a marker. -/
def IsSegment (group : List Text) : Prop :=
  (∃ g, group = [g]) ∨ isPasteMarker group.flatten = true

theorem IsSegment.width (hd : d.Lawful) {before : List Text} (h : IsSegment group)
    (hline : d.segment line = before ++ (group ++ after)) :
    visibleWidth d group.flatten = columns d group := by
  rcases h with ⟨g, rfl⟩ | hmarker
  · rw [flatten_singleton, columns, map_singleton, sum_singleton]
  · obtain ⟨id, hid⟩ := isPasteMarker_iff.mp hmarker
    have hsplit : d.segment line = before ++ group ++ after := by rw [hline, append_assoc]
    have hgroup := hd.slice hsplit
    rw [hd.ascii hid.printable] at hgroup
    have hsum := sum_visibleWidth_printable (d := d) hid.printable
    rw [hgroup] at hsum
    rw [visibleWidth_printable hid.printable, columns, hsum]

variable {rewrap : Text → Option (List TextChunk)}

theorem wrapSegment_wrapped (hd : d.Lawful) (h : Wrapped d maxWidth pieces current s)
    (hgroup : IsSegment group)
    (hline : d.segment line = pieces.flatten ++ (current ++ (group ++ after)))
    (hrewrap : maxWidth < visibleWidth d group.flatten →
      Rewraps d maxWidth group (rewrap group.flatten))
    (hnext : ∀ seg, next = some seg →
      seg.index = s.chunkStart + current.flatten.length + group.flatten.length) :
    ∃ pieces' current' s', pieces'.flatten ++ current' = pieces.flatten ++ (current ++ group) ∧
      wrapSegment d rewrap line maxWidth s
        ⟨group.flatten, s.chunkStart + current.flatten.length⟩ next = some s' ∧
      Wrapped d maxWidth pieces' current' s' := by
  have hwidth := hgroup.width hd (by rw [hline, ← append_assoc])
  obtain ⟨pieces', current', hkept, hover, hfits⟩ :=
    h.overflow hd hline rfl (visibleWidth d group.flatten)
  have hlength := congrArg (fun gs : List Text => gs.flatten.length) hkept
  simp only [flatten_append, length_append] at hlength
  rw [wrapSegment]
  dsimp only
  generalize overflow line maxWidth s (visibleWidth d group.flatten)
    (s.chunkStart + current.flatten.length) = o at hover ⊢
  have hplace : s.chunkStart + current.flatten.length =
      o.chunkStart + current'.flatten.length := by
    rw [h.start, hover.start, hlength]
  split_ifs with hwide
  · have hempty : current' = [] := hfits.resolve_right (by omega)
    subst hempty
    rw [flatten_nil, length_nil, add_zero] at hplace
    obtain ⟨more, last, s', hmore, hs', hwrapped⟩ := hover.rewrapped (hrewrap hwide)
    refine ⟨more, last, s', ?_, ?_, hwrapped⟩
    · rw [hmore, ← append_assoc, ← hkept, append_nil]
    · rw [hplace]
      exact hs'
  · refine ⟨pieces', current' ++ group, _, ?_, rfl, hover.advance hwidth ?_ ?_⟩
    · rw [← append_assoc, hkept, append_assoc]
    · rcases hfits with rfl | hfits
      · rw [columns, map_nil, sum_nil]
        omega
      · omega
    · intro seg hseg
      rw [hnext seg hseg, hplace]

/-! ### Runs -/

theorem wrapSegments_wrapped (hd : d.Lawful) {rewrap : Text → Option (List TextChunk)}
    {groups : List (List Text)} (hgroups : ∀ group ∈ groups, IsSegment group)
    (hrewrap : ∀ group ∈ groups, maxWidth < visibleWidth d group.flatten →
      Rewraps d maxWidth group (rewrap group.flatten)) (h : Wrapped d maxWidth pieces current s)
    (hline : d.segment line = pieces.flatten ++ (current ++ groups.flatten)) :
    ∃ pieces' current' s', pieces'.flatten ++ current' = d.segment line ∧
      wrapSegments d rewrap line maxWidth
        (placed (s.chunkStart + current.flatten.length) (groups.map flatten)) s = some s' ∧
      Wrapped d maxWidth pieces' current' s' := by
  induction groups generalizing pieces current s with
  | nil => exact ⟨pieces, current, s, by rw [hline, flatten_nil, append_nil], rfl, h⟩
  | cons group groups ih =>
    rw [flatten_cons] at hline
    have hnext : ∀ seg, (placed (s.chunkStart + current.flatten.length + group.flatten.length)
        (groups.map flatten)).head? = some seg →
        seg.index = s.chunkStart + current.flatten.length + group.flatten.length := by
      intro seg hseg
      cases groups with
      | nil => cases hseg
      | cons _ _ =>
        cases hseg
        rfl
    obtain ⟨pieces', current', s', hkept, hstep, hwrapped⟩ :=
      wrapSegment_wrapped hd h (hgroups group mem_cons_self) hline
        (hrewrap group mem_cons_self) hnext
    obtain ⟨pieces'', current'', s'', hall, hrun, hdone⟩ :=
      ih (fun g hg => hgroups g (mem_cons_of_mem _ hg))
        (fun g hg => hrewrap g (mem_cons_of_mem _ hg)) hwrapped
        (by rw [hline, ← append_assoc pieces'.flatten, hkept]; simp only [append_assoc])
    refine ⟨pieces'', current'', s'', hall, ?_, hdone⟩
    have hlength := congrArg (fun gs : List Text => gs.flatten.length) hkept
    simp only [flatten_append, length_append] at hlength
    have hplace : s'.chunkStart + current'.flatten.length =
        s.chunkStart + current.flatten.length + group.flatten.length := by
      rw [hwrapped.start, h.start, hlength, add_assoc]
    rw [hplace] at hrun
    rw [map_cons, placed, wrapSegments, hstep, bind_some]
    exact hrun

/-- The graphemes' columns added up are few enough, or those of the text are. -/
def FitsIn (d : Display) (maxWidth : ℕ) (piece : List Text) : Prop :=
  columns d piece ≤ maxWidth ∨ visibleWidth d piece.flatten ≤ maxWidth

variable {preSegmented : Option (List SegmentData)}

theorem wordWrapLine_pieces (hd : d.Lawful) (hmax : 1 ≤ maxWidth)
    (hmerged : Merged d line (preSegmented.getD (placed 0 (d.segment line))) groups)
    (hrewrap : ∀ group ∈ groups, maxWidth < visibleWidth d group.flatten →
      Rewraps d maxWidth group (wordWrapLine d maxWidth fuel group.flatten none)) :
    ∃ pieces last, pieces.flatten ++ last = d.segment line ∧
      wordWrapLine d maxWidth (fuel + 1) line preSegmented = some (cut 0 (pieces ++ [last])) ∧
      (∀ piece ∈ pieces, FitsIn d maxWidth piece) ∧ FitsIn d maxWidth last := by
  rw [wordWrapLine]
  have hwhole : visibleWidth d line ≤ maxWidth → ∃ pieces last,
      pieces.flatten ++ last = d.segment line ∧
      some [(⟨line, 0, line.length⟩ : TextChunk)] = some (cut 0 (pieces ++ [last])) ∧
      (∀ piece ∈ pieces, FitsIn d maxWidth piece) ∧ FitsIn d maxWidth last := fun hfits => by
    refine ⟨[], d.segment line, rfl, ?_, fun _ h => (by cases h), .inr ?_⟩
    · rw [nil_append, cut, hd.flatten, zero_add]
      rfl
    · rw [hd.flatten]
      exact hfits
  split_ifs with hempty hfits
  · rcases hempty with rfl | hzero
    · exact hwhole (Nat.zero_le _)
    · omega
  · exact hwhole hfits
  · have hstart : Wrapped d maxWidth [] [] ⟨[], 0, 0, none⟩ :=
      ⟨rfl, fun _ h => (by cases h), rfl, rfl, Nat.zero_le _, fun _ _ h => (by cases h)⟩
    obtain ⟨pieces, last, s, hall, hrun, hwrapped⟩ :=
      @wrapSegments_wrapped d line maxWidth [] [] _ hd
        (fun grapheme => wordWrapLine d maxWidth fuel grapheme none) groups hmerged.each hrewrap
        hstart hmerged.graphemes.symm
    refine ⟨pieces, last, hall, ?_, fun piece hpiece => .inl (hwrapped.narrow piece hpiece),
      .inl hwrapped.fits⟩
    have hrun' : wrapSegments d (fun grapheme => wordWrapLine d maxWidth fuel grapheme none)
        line maxWidth (placed 0 (groups.map flatten)) ⟨[], 0, 0, none⟩ = some s := hrun
    have hdrop : line.drop pieces.flatten.flatten.length = last.flatten := by
      conv_lhs => rw [← hd.flatten line, ← hall, flatten_append, drop_left]
    have hlength : line.length = pieces.flatten.flatten.length + last.flatten.length := by
      rw [← length_append, ← flatten_append, hall, hd.flatten]
    rw [hmerged.places, hrun', map_some, hwrapped.chunks, hwrapped.start, hdrop, hlength,
      cut_append, zero_add]
    rfl

theorem columns_printable {units : Text} (h : ∀ c ∈ units, isPrintable c = true) :
    visibleWidth d (units.map fun c => [c]).flatten = columns d (units.map fun c => [c]) := by
  rw [columns, sum_visibleWidth_printable h, ← flatMap_def, flatMap_singleton',
    visibleWidth_printable h]

theorem marker_rewraps (hd : d.Lawful) (hmax : 1 ≤ maxWidth) {marker : Text}
    (hmarker : isPasteMarker marker = true) :
    Rewraps d maxWidth (d.segment marker) (wordWrapLine d maxWidth 1 marker none) := by
  obtain ⟨id, hid⟩ := isPasteMarker_iff.mp hmarker
  have hsegment := hd.ascii hid.printable
  have hplaces : ∀ (index : ℕ) (t : Text), placed index (t.map fun c => [c]) =
      placed index ((t.map fun c => [[c]]).map List.flatten) := fun index t => by
    rw [List.map_map]
    rfl
  have hmerged : Merged d marker ((none : Option (List SegmentData)).getD
      (placed 0 (d.segment marker))) (marker.map fun c => [[c]]) :=
    ⟨by rw [hsegment, ← flatMap_def, map_eq_flatMap],
      by rw [getD_none, hsegment, hplaces],
      fun group hgroup => by
        obtain ⟨c, -, rfl⟩ := mem_map.mp hgroup
        exact .inl ⟨[c], rfl⟩⟩
  have hwide : ∀ group ∈ marker.map fun c => [[c]], maxWidth < visibleWidth d group.flatten →
      Rewraps d maxWidth group (wordWrapLine d maxWidth 0 group.flatten none) := by
    intro group hgroup hlt
    obtain ⟨c, hc, rfl⟩ := mem_map.mp hgroup
    have hone : visibleWidth d [c] = 1 := visibleWidth_printable (t := [c]) fun x hx => by
      rw [mem_singleton.mp hx]
      exact hid.printable c hc
    rw [flatten_singleton, hone] at hlt
    omega
  obtain ⟨pieces, last, hall, hrun, hpieces, hlast⟩ := wordWrapLine_pieces hd hmax hmerged hwide
  -- the marker's graphemes are its units, so a run's columns are the text's
  have hunits : ∀ piece, (∃ before after, d.segment marker = before ++ (piece ++ after)) →
      visibleWidth d piece.flatten = columns d piece := by
    rintro piece ⟨before, after, hsplit⟩
    rw [hsegment] at hsplit
    obtain ⟨front, behind, hmarker', -, hbehind⟩ := append_eq_map_iff.mp hsplit.symm
    obtain ⟨units, rest, hunits, rfl, -⟩ := append_eq_map_iff.mp hbehind.symm
    refine columns_printable fun c hc => hid.printable c ?_
    rw [hmarker', hunits]
    exact mem_append_right _ (mem_append_left _ hc)
  have hlastUnits := hunits last ⟨pieces.flatten, [], by rw [append_nil, hall]⟩
  refine ⟨pieces, last, hrun, hall, fun piece hpiece => ?_, ?_, hlastUnits⟩
  · obtain ⟨before, after, hsplit⟩ := append_of_mem hpiece
    have hcolumns := hunits piece ⟨before.flatten, after.flatten ++ last, by
      rw [← hall, hsplit, flatten_append, flatten_cons]
      simp only [append_assoc]⟩
    exact (hpieces piece hpiece).elim (fun hfits => hfits) fun hfits => hcolumns ▸ hfits
  · exact hlast.elim (fun hfits => hfits) fun hfits => hlastUnits ▸ hfits

/-! ### Graphemes wider than the terminal -/

theorem wrapSegments_none {seg : SegmentData} (hseg : seg ∈ segs)
    (hwide : maxWidth < visibleWidth d seg.segment) (hnone : rewrap seg.segment = none)
    (s : WrapState) : wrapSegments d rewrap line maxWidth segs s = none := by
  induction segs generalizing s with
  | nil => cases hseg
  | cons first segs ih =>
    rw [wrapSegments]
    rcases mem_cons.mp hseg with rfl | hseg
    · rw [wrapSegment, if_pos hwide, hnone]
      rfl
    · cases wrapSegment d rewrap line maxWidth s first segs.head? with
      | none => rfl
      | some next => exact ih hseg next

theorem wordWrapLine_grapheme (hd : d.Lawful) (hmax : 1 ≤ maxWidth) {g : Text}
    (hg : g ∈ d.segment line) (hwide : maxWidth < visibleWidth d g) (fuel : ℕ) :
    wordWrapLine d maxWidth fuel g none = none := by
  have hne : ¬(g = [] ∨ maxWidth = 0) := by
    rintro (rfl | hzero)
    · exact hd.ne_nil line hg
    · omega
  induction fuel with
  | zero => rfl
  | succ fuel ih =>
    rw [wordWrapLine, if_neg hne, if_neg (not_le.mpr hwide), getD_none, hd.segment_grapheme hg]
    have hmem : (⟨g, 0⟩ : SegmentData) ∈ placed 0 [g] := mem_cons_self
    rw [wrapSegments_none hmem hwide ih, map_none]

/-! ### Lines of the editor -/

theorem wrapSegments_mono {more : Text → Option (List TextChunk)}
    (h : ∀ g chunks, rewrap g = some chunks → more g = some chunks) {s' : WrapState}
    (hrun : wrapSegments d rewrap line maxWidth segs s = some s') :
    wrapSegments d more line maxWidth segs s = some s' := by
  induction segs generalizing s with
  | nil => exact hrun
  | cons seg segs ih =>
    rw [wrapSegments] at hrun ⊢
    obtain ⟨next, hnext, hrest⟩ := bind_eq_some_iff.mp hrun
    have hstep : wrapSegment d more line maxWidth s seg segs.head? = some next := by
      rw [wrapSegment] at hnext ⊢
      split_ifs at hnext ⊢
      · obtain ⟨chunks, hchunks, rfl⟩ := map_eq_some_iff.mp hnext
        rw [h _ _ hchunks, map_some]
      · exact hnext
    rw [hstep, bind_some]
    exact ih hrest

variable {chunks : List TextChunk}

theorem wordWrapLine_mono {more : ℕ} (hle : fuel ≤ more)
    (h : wordWrapLine d maxWidth fuel line preSegmented = some chunks) :
    wordWrapLine d maxWidth more line preSegmented = some chunks := by
  induction fuel generalizing more line preSegmented chunks with
  | zero => cases h
  | succ fuel ih =>
    obtain ⟨more, rfl⟩ := Nat.exists_eq_add_of_le' (Nat.one_le_of_lt hle)
    rw [wordWrapLine] at h ⊢
    split_ifs at h ⊢
    · exact h
    · exact h
    · obtain ⟨s, hs, rfl⟩ := map_eq_some_iff.mp h
      rw [wrapSegments_mono (fun g chunks hg => ih (by omega) hg) hs, map_some]

/-- With enough fuel the call returns, and what it returns is a layout of the line. -/
def Returns (d : Display) (maxWidth : ℕ) (line : Text) (segs : List SegmentData) : Prop :=
  ∃ fuel chunks, (∀ more, fuel ≤ more →
      wordWrapLine d maxWidth more line (some segs) = some chunks) ∧
    LaidOut d line maxWidth chunks

/-- Only paste markers are wider than the terminal. -/
def NarrowGraphemes (d : Display) (maxWidth : ℕ) (segs : List SegmentData) : Prop :=
  ∀ seg ∈ segs, isPasteMarker seg.segment = true ∨ visibleWidth d seg.segment ≤ maxWidth

theorem Spans.mem {index : ℕ} {segs : List SegmentData} {groups : List (List Text)}
    (h : Spans index segs groups) {seg : SegmentData} (hseg : seg ∈ segs) :
    seg.segment ∈ groups.flatten ∨ isPasteMarker seg.segment = true := by
  induction h with
  | nil => cases hseg
  | cons hstands _ ih =>
    rw [flatten_cons, mem_append]
    rcases mem_cons.mp hseg with rfl | hseg
    · cases hstands with
      | grapheme dropped => exact .inl (.inl mem_cons_self)
      | marker hmarker _ => exact .inr hmarker
    · exact (ih hseg).imp_left .inr

theorem mem_placed {index : ℕ} {texts : List Text} {text : Text} (h : text ∈ texts) :
    ∃ seg ∈ placed index texts, seg.segment = text := by
  induction texts generalizing index with
  | nil => cases h
  | cons first texts ih =>
    rcases mem_cons.mp h with rfl | h
    · exact ⟨_, mem_cons_self, rfl⟩
    · obtain ⟨seg, hseg, heq⟩ := @ih (index + first.length) h
      exact ⟨seg, mem_cons_of_mem _ hseg, heq⟩

/-- Graphemes in a row whose columns added up fit do fit together. -/
def NarrowRuns (d : Display) (maxWidth : ℕ) (line : Text) : Prop :=
  ∀ gs hs ks, d.segment line = gs ++ (hs ++ ks) → columns d hs ≤ maxWidth →
    visibleWidth d hs.flatten ≤ maxWidth

theorem narrowRuns_plain (hd : d.Lawful) (h : IsPlain line) : NarrowRuns d maxWidth line := by
  intro gs hs ks hsplit hfits
  rw [← append_assoc] at hsplit
  rw [visibleWidth_run hd h hsplit]
  exact hfits

theorem laidOut_cut (hd : d.Lawful) (hall : pieces.flatten = d.segment line)
    (hfits : ∀ piece ∈ pieces, visibleWidth d piece.flatten ≤ maxWidth) :
    LaidOut d line maxWidth (cut 0 pieces) where
  pieces := ⟨pieces, hall, rfl, fun piece hpiece => .inl (hfits piece hpiece)⟩
  slices c hc := by
    have htext := cut_slices [] pieces [] c hc
    rwa [append_nil, hall, hd.flatten, nil_append] at htext

theorem pieces_of_merged (hd : d.Lawful) (hmax : 1 ≤ maxWidth) (hmerged : Merged d line segs groups)
    (hnarrow : NarrowGraphemes d maxWidth segs) :
    ∃ pieces, pieces.flatten = d.segment line ∧
      (∀ more, 2 ≤ more → wordWrapLine d maxWidth more line (some segs) = some (cut 0 pieces)) ∧
      ∀ piece ∈ pieces, FitsIn d maxWidth piece := by
  have hwide : ∀ group ∈ groups, maxWidth < visibleWidth d group.flatten →
      Rewraps d maxWidth group (wordWrapLine d maxWidth 1 group.flatten none) := by
    intro group hgroup hlt
    obtain ⟨seg, hseg, heq⟩ := @mem_placed 0 (groups.map flatten) _
      (mem_map_of_mem hgroup)
    rw [← hmerged.places] at hseg
    have hmarker : isPasteMarker group.flatten = true := by
      have hone := hnarrow seg hseg
      rw [heq] at hone
      exact hone.resolve_right (not_le.mpr hlt)
    obtain ⟨before, after, hsplit⟩ := append_of_mem hgroup
    have hsplit' : d.segment line = before.flatten ++ group ++ after.flatten := by
      rw [← hmerged.graphemes, hsplit, flatten_append, flatten_cons, append_assoc]
    have hsegment := hd.slice hsplit'
    have hrewraps := marker_rewraps hd hmax hmarker
    rwa [hsegment] at hrewraps
  have hmerged' : Merged d line ((some segs).getD (placed 0 (d.segment line))) groups := hmerged
  obtain ⟨pieces, last, hall, hrun, hpieces, hlast⟩ := wordWrapLine_pieces hd hmax hmerged' hwide
  refine ⟨pieces ++ [last], ?_, fun more hle => wordWrapLine_mono hle hrun, ?_⟩
  · rw [flatten_append, flatten_singleton, hall]
  · intro piece hpiece
    rcases mem_append.mp hpiece with hpiece | hpiece
    · exact hpieces piece hpiece
    · rw [mem_singleton.mp hpiece]
      exact hlast

theorem returns_of_merged (hd : d.Lawful) (hmax : 1 ≤ maxWidth) (hruns : NarrowRuns d maxWidth line)
    (hmerged : Merged d line segs groups) (hnarrow : NarrowGraphemes d maxWidth segs) :
    Returns d maxWidth line segs := by
  obtain ⟨pieces, hall, hrun, hpieces⟩ := pieces_of_merged hd hmax hmerged hnarrow
  refine ⟨2, _, hrun, laidOut_cut hd hall fun piece hpiece => ?_⟩
  obtain ⟨before, after, hsplit⟩ := append_of_mem hpiece
  have hline : d.segment line = before.flatten ++ (piece ++ after.flatten) := by
    rw [← hall, hsplit, flatten_append, flatten_cons]
  exact (hpieces piece hpiece).elim (hruns _ _ _ hline) fun hfits => hfits

theorem returns_of_fits (hd : d.Lawful) (hmax : 1 ≤ maxWidth)
    (hfits : visibleWidth d line ≤ maxWidth) (segs : List SegmentData) :
    Returns d maxWidth line segs := by
  have hflat : ([d.segment line] : List (List Text)).flatten = d.segment line :=
    flatten_singleton
  have hcut : [(⟨line, 0, line.length⟩ : TextChunk)] = cut 0 [d.segment line] := by
    rw [cut, hd.flatten, zero_add]
    rfl
  refine ⟨1, cut 0 [d.segment line], fun more hle => ?_, laidOut_cut hd hflat fun piece hpiece => ?_⟩
  · refine wordWrapLine_mono hle ?_
    rw [wordWrapLine]
    split_ifs with hempty
    · rcases hempty with rfl | hzero
      · exact congrArg some hcut
      · omega
    · exact congrArg some hcut
  · rw [mem_singleton.mp hpiece, hd.flatten]
    exact hfits

theorem narrow_of_wrap (hd : d.Lawful) (hmax : 1 ≤ maxWidth)
    (hover : maxWidth < visibleWidth d line)
    (hrun : wordWrapLine d maxWidth fuel line (some (segmentWithMarkers d valid line)) =
      some chunks) : NarrowGraphemes d maxWidth (segmentWithMarkers d valid line) := by
  intro seg hseg
  by_contra hwide
  rw [not_or, not_le] at hwide
  obtain ⟨groups, hgroups, hspans⟩ := segmentWithMarkers_spans hd valid line
  have hmem := (hspans.mem hseg).resolve_right hwide.1
  rw [hgroups] at hmem
  have hempty : ¬(line = [] ∨ maxWidth = 0) := by
    rintro (rfl | hzero)
    · exact Nat.not_lt_zero _ hover
    · omega
  have hnone := wordWrapLine_grapheme hd hmax hmem hwide.2 fuel
  have hrun' := wordWrapLine_mono (Nat.le_succ fuel) hrun
  rw [wordWrapLine, if_neg hempty, if_neg (not_le.mpr hover), getD_some,
    wrapSegments_none hseg hwide.2 hnone] at hrun'
  cases hrun'

theorem narrow_of_returns (hd : d.Lawful) (hmax : 1 ≤ maxWidth)
    (hover : maxWidth < visibleWidth d line)
    (h : Returns d maxWidth line (segmentWithMarkers d valid line)) :
    NarrowGraphemes d maxWidth (segmentWithMarkers d valid line) := by
  obtain ⟨fuel, chunks, hrun, -⟩ := h
  exact narrow_of_wrap hd hmax hover (hrun fuel le_rfl)

theorem pieces_of_wrap (hd : d.Lawful) (hmax : 1 ≤ maxWidth)
    (hwhole : (segmentWithMarkers d valid line).flatMap SegmentData.segment = line)
    (hover : maxWidth < visibleWidth d line)
    (hrun : wordWrapLine d maxWidth fuel line (some (segmentWithMarkers d valid line)) =
      some chunks) : ∃ pieces, pieces.flatten = d.segment line ∧ chunks = cut 0 pieces := by
  obtain ⟨groups, hmerged⟩ := segmentWithMarkers_merged hd valid line hwhole
  obtain ⟨pieces, hall, hreturns, -⟩ :=
    pieces_of_merged hd hmax hmerged (narrow_of_wrap hd hmax hover hrun)
  have hmore := wordWrapLine_mono (le_max_left fuel 2) hrun
  rw [hreturns _ (le_max_right fuel 2)] at hmore
  exact ⟨pieces, hall, (Option.some.inj hmore).symm⟩

/-- The line is laid out when it fits, or when all its graphemes do, each run of them that fits
added up does fit, and the segments are the line; it never is when it does not fit and has a
grapheme that does not either. Runs fit in every line without tabs and escapes. -/
theorem wordWrapLine_returns (hd : d.Lawful) (hmax : 1 ≤ maxWidth) (valid : Text → Bool)
    (line : Text) :
    (visibleWidth d line ≤ maxWidth ∨ NarrowGraphemes d maxWidth (segmentWithMarkers d valid line) ∧
      NarrowRuns d maxWidth line ∧ (segmentWithMarkers d valid line).flatMap SegmentData.segment =
      line → Returns d maxWidth line (segmentWithMarkers d valid line)) ∧
    (Returns d maxWidth line (segmentWithMarkers d valid line) → visibleWidth d line ≤ maxWidth ∨
      NarrowGraphemes d maxWidth (segmentWithMarkers d valid line)) ∧
    (IsPlain line → NarrowRuns d maxWidth line) := by
  refine ⟨?_, fun h => ?_, narrowRuns_plain hd⟩
  · rintro (hfits | ⟨hnarrow, hruns, hwhole⟩)
    · exact returns_of_fits hd hmax hfits _
    · obtain ⟨groups, hmerged⟩ := segmentWithMarkers_merged hd valid line hwhole
      exact returns_of_merged hd hmax hruns hmerged hnarrow
  · rcases lt_or_ge maxWidth (visibleWidth d line) with hover | hfits
    · exact .inr (narrow_of_returns hd hmax hover h)
    · exact .inl hfits

/-- `a[paste #1]` -/
def markedLine : Text := 97 :: (markerStart ++ [49, 93])

/-- Four columns for a line with a marker of ten. -/
theorem wordWrapLine_returns_marked :
    Returns pairDisplay 4 markedLine (segmentWithMarkers pairDisplay (fun _ => true) markedLine) :=
  have hall := wordWrapLine_returns pairDisplay_lawful (by decide) (fun _ => true) markedLine
  hall.1 (.inr ⟨by rw [NarrowGraphemes]; decide, hall.2.2 (by decide), by decide⟩)

/-- One column for a character of two. -/
theorem wordWrapLine_wideGrapheme :
    pairDisplay.Lawful ∧
      ¬Returns pairDisplay 1 [0x4F60]
        (segmentWithMarkers pairDisplay (fun _ => true) [0x4F60]) := by
  refine ⟨pairDisplay_lawful, fun h => ?_⟩
  have hnarrow := narrow_of_returns pairDisplay_lawful (le_refl 1) (by decide) h
  exact absurd (hnarrow ⟨[0x4F60], 0⟩ mem_cons_self) (by decide)

end KnightCode.Editor
