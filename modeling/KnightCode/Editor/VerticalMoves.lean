import KnightCode.Editor.VisualLines

/-!
# Where vertical moves lead

Without paste markers a line's visual lines are the line cut at places where graphemes begin. So
each column of the line is in one of them, no move has to pass the rest of a segment, and the
cursor is within the target's line behind every move whose visual column is not negative. The
column is negative only when the remembered column is past the end of the cursor's line, and left
of where the last visual line begins.
-/

namespace KnightCode.Editor

open List Option
variable {vl : VisualLine} {col : ℤ} {lines : List Text}

/-- Visual lines of one line, from one column to another, one behind the other. -/
inductive Tiles (index : ℕ) : ℕ → ℕ → List VisualLine → Prop
  | last {start stop : ℕ} (h : start ≤ stop) :
      Tiles index start stop [⟨index, start, stop - start⟩]
  | cons {start mid stop : ℕ} {visualLines : List VisualLine} (h : start ≤ mid)
      (hrest : Tiles index mid stop visualLines) :
      Tiles index start stop (⟨index, start, mid - start⟩ :: visualLines)

variable {index start stop : ℕ} {visualLines rest : List VisualLine}

theorem Tiles.le (h : Tiles index start stop visualLines) : start ≤ stop := by
  induction h with
  | last h => exact h
  | cons h _ ih => exact h.trans ih

theorem Tiles.mem (h : Tiles index start stop visualLines) (hvl : vl ∈ visualLines) :
    vl.logicalLine = index ∧ vl.startCol + vl.length ≤ stop := by
  induction h with
  | last h =>
    rw [mem_singleton.mp hvl]
    refine ⟨rfl, ?_⟩
    dsimp only
    omega
  | @cons start mid stop visualLines h hrest ih =>
    rcases mem_cons.mp hvl with rfl | hvl
    · have hle := hrest.le
      refine ⟨rfl, ?_⟩
      dsimp only
      omega
    · exact ih hvl

theorem Tiles.head (h : Tiles index start stop visualLines) :
    visualLines.head?.map VisualLine.logicalLine = some index := by
  cases h <;> rfl

structure FoundAt (visualLines : List VisualLine) (line : ℕ) (col : ℤ) (k : ℕ) (vl : VisualLine) :
    Prop where
  get : visualLines[k]? = some vl
  line : vl.logicalLine = line
  start : vl.startCol ≤ col
  stop : col ≤ vl.startCol + vl.length

theorem Tiles.find (h : Tiles index start stop visualLines)
    (hrest : rest.head?.map VisualLine.logicalLine ≠ some index) (hstart : start ≤ col)
    (hstop : col ≤ stop) (base : ℕ) :
    ∃ k vl, findVisualLineFrom index col base (visualLines ++ rest) = some (base + k) ∧
      FoundAt (visualLines ++ rest) index col k vl := by
  induction h generalizing base with
  | @last start stop h =>
    have hlast : isLastSegmentOfLine ⟨index, start, stop - start⟩ rest.head? = true := by
      rw [isLastSegmentOfLine, bne_iff_ne]
      exact hrest
    refine ⟨0, ⟨index, start, stop - start⟩, ?_, rfl, rfl, hstart, ?_⟩
    · rw [singleton_append, findVisualLineFrom, if_pos]
      · rfl
      · refine ⟨rfl, by dsimp only; omega, ?_⟩
        rcases lt_or_ge col stop with hlt | hge
        · left
          dsimp only
          omega
        · refine .inr ⟨hlast, ?_⟩
          dsimp only
          omega
    · dsimp only
      omega
  | @cons start mid stop visualLines h hmore ih =>
    by_cases hmid : col < mid
    · refine ⟨0, ⟨index, start, mid - start⟩, ?_, rfl, rfl, hstart, ?_⟩
      · rw [cons_append, findVisualLineFrom, if_pos]
        · rfl
        · refine ⟨rfl, by dsimp only; omega, .inl ?_⟩
          dsimp only
          omega
      · dsimp only
        omega
    · obtain ⟨k, vl, hfind, hfound⟩ := ih (by omega) hstop (base + 1)
      refine ⟨k + 1, vl, ?_, ?_, hfound.line, hfound.start, hfound.stop⟩
      · have hnext : isLastSegmentOfLine ⟨index, start, mid - start⟩
            (visualLines ++ rest).head? = false := by
          have hhead := hmore.head
          rw [isLastSegmentOfLine]
          cases visualLines with
          | nil => cases hhead
          | cons first more =>
            rw [head?_cons] at hhead
            rw [cons_append, head?_cons, hhead]
            exact bne_self_eq_false _
        rw [cons_append, findVisualLineFrom, if_neg, hfind, add_right_comm, add_assoc]
        rintro ⟨-, -, hlt | ⟨hlast, -⟩⟩
        · dsimp only at hlt
          omega
        · rw [hnext] at hlast
          cases hlast
      · rw [cons_append, getElem?_cons_succ]
        exact hfound.get

theorem find_skip {line : ℕ} (h : ∀ vl ∈ visualLines, vl.logicalLine ≠ line) (col : ℤ)
    (base : ℕ) : findVisualLineFrom line col base (visualLines ++ rest) =
      findVisualLineFrom line col (base + visualLines.length) rest := by
  induction visualLines generalizing base with
  | nil => rfl
  | cons vl visualLines ih =>
    rw [cons_append, findVisualLineFrom, if_neg, ih, length_cons, add_right_comm, add_assoc]
    · exact fun other hother => h other (mem_cons_of_mem _ hother)
    · exact fun hfound => h vl mem_cons_self hfound.1

theorem find_some {line i base : ℕ} (h : findVisualLineFrom line col base visualLines = some i) :
    ∃ k vl, i = base + k ∧ visualLines[k]? = some vl ∧ vl.startCol ≤ col := by
  induction visualLines generalizing base with
  | nil => cases h
  | cons vl visualLines ih =>
    rw [findVisualLineFrom] at h
    split_ifs at h with hin
    · cases h
      exact ⟨0, vl, rfl, rfl, by omega⟩
    · obtain ⟨k, found, rfl, hget, hstart⟩ := ih h
      exact ⟨k + 1, found, by omega, hget, hstart⟩

/-! ### The layout of lines without markers -/

def Begins (d : Display) (line : Text) (col : ℕ) : Prop :=
  ∃ gs hs, d.segment line = gs ++ hs ∧ col = gs.flatten.length

/-- No marker of a registered paste is in the line. -/
def Unmarked (valid : Text → Bool) (line : Text) : Prop :=
  findMarkers valid 0 0 line = []

variable {d : Display} {host : Host} {valid : Text → Bool} {line : Text} {width : ℕ}

theorem Unmarked.segments (h : Unmarked valid line) :
    segmentWithMarkers d valid line = placed 0 (d.segment line) := by
  rw [segmentWithMarkers, show findMarkers valid 0 0 line = [] from h]
  rfl

theorem placed_texts (index : ℕ) (texts : List Text) :
    (placed index texts).flatMap SegmentData.segment = texts.flatten := by
  induction texts generalizing index with
  | nil => rfl
  | cons text texts ih => rw [placed, flatMap_cons, ih, flatten_cons]

theorem placed_begins {gs hs : List Text} {seg : SegmentData} (h : seg ∈ placed index (gs ++ hs)) :
    index + gs.flatten.length ≤ seg.index ∨
      seg.index + seg.segment.length ≤ index + gs.flatten.length := by
  induction gs generalizing index with
  | nil =>
    left
    induction hs generalizing index with
    | nil => cases h
    | cons first hs ih =>
      rcases mem_cons.mp h with rfl | h
      · exact le_rfl
      · have hle := ih h
        simp only [flatten_nil, length_nil] at hle ⊢
        omega
  | cons g gs ih =>
    rw [flatten_cons, length_append]
    rcases mem_cons.mp h with rfl | h
    · right
      dsimp only
      omega
    · have hle := ih h
      omega

structure LineLayout (d : Display) (index : ℕ) (line : Text) (visualLines : List VisualLine) :
    Prop where
  tiles : Tiles index 0 line.length visualLines
  begins : ∀ vl ∈ visualLines, Begins d line vl.startCol

def ofChunk (index : ℕ) (chunk : TextChunk) : VisualLine :=
  ⟨index, chunk.startIndex, chunk.endIndex - chunk.startIndex⟩

theorem cut_tiles (index start : ℕ) {pieces : List (List Text)} (hne : pieces ≠ []) :
    Tiles index start (start + pieces.flatten.flatten.length)
      ((cut start pieces).map (ofChunk index)) := by
  induction pieces generalizing start with
  | nil => exact absurd rfl hne
  | cons piece pieces ih =>
    rw [cut, map_cons, flatten_cons, flatten_append, length_append, ← add_assoc]
    cases pieces with
    | nil => exact .last (Nat.le_add_right _ _)
    | cons next pieces => exact .cons (Nat.le_add_right _ _) (ih _ (cons_ne_nil _ _))

theorem cut_begins (before : List (List Text)) (pieces : List (List Text)) :
    ∀ chunk ∈ cut before.flatten.flatten.length pieces, ∃ gs hs,
      before.flatten ++ pieces.flatten = gs ++ hs ∧ chunk.startIndex = gs.flatten.length := by
  induction pieces generalizing before with
  | nil => exact fun _ h => (by cases h)
  | cons piece pieces ih =>
    intro chunk hchunk
    rcases mem_cons.mp hchunk with rfl | hchunk
    · exact ⟨before.flatten, (piece :: pieces).flatten, rfl, rfl⟩
    · have hmore := ih (before ++ [piece]) chunk (by simpa using hchunk)
      simpa using hmore

theorem lineVisualLines_layout (hd : host.display.Lawful) (hwidth : 1 ≤ width)
    (hplain : Unmarked valid line)
    (h : lineVisualLines host valid width index line = some visualLines) :
    LineLayout host.display index line visualLines := by
  have hone : ∀ n, n = line.length → LineLayout host.display index line [⟨index, 0, n⟩] := by
    rintro n rfl
    refine ⟨.last (Nat.zero_le _), fun vl hvl => ?_⟩
    rw [mem_singleton.mp hvl]
    exact ⟨[], host.display.segment line, rfl, rfl⟩
  rw [lineVisualLines] at h
  split_ifs at h with hempty hfits
  · cases h
    exact hone 0 (by rw [hempty]; rfl)
  · cases h
    exact hone _ rfl
  · obtain ⟨chunks, hchunks, rfl⟩ := map_eq_some_iff.mp h
    have hwhole : (segmentWithMarkers host.display valid line).flatMap SegmentData.segment =
        line := by
      rw [hplain.segments, placed_texts, hd.flatten]
    obtain ⟨pieces, hall, rfl⟩ := pieces_of_wrap hd hwidth hwhole (not_le.mp hfits) hchunks
    have hne : pieces ≠ [] := by
      rintro rfl
      apply hempty
      rw [← hd.flatten line, ← hall]
      rfl
    refine ⟨?_, fun vl hvl => ?_⟩
    · have htiles := cut_tiles index 0 hne
      rwa [hall, hd.flatten, zero_add] at htiles
    · obtain ⟨chunk, hchunk, rfl⟩ := mem_map.mp hvl
      have hbegins := cut_begins [] pieces chunk hchunk
      rwa [hall] at hbegins

theorem visualLinesFrom_head (hd : host.display.Lawful) (hwidth : 1 ≤ width)
    (hplain : ∀ line ∈ lines, Unmarked valid line)
    (h : visualLinesFrom host valid width index lines = some visualLines) :
    ∀ line, visualLines.head?.map VisualLine.logicalLine = some line → line = index := by
  intro line hline
  cases lines with
  | nil =>
    cases h
    cases hline
  | cons first lines =>
    obtain ⟨firstLines, hfirst, hmore⟩ := bind_eq_some_iff.mp h
    obtain ⟨more, -, rfl⟩ := map_eq_some_iff.mp hmore
    have hhead := (lineVisualLines_layout hd hwidth (hplain first mem_cons_self)
      hfirst).tiles.head
    cases firstLines with
    | nil => cases hhead
    | cons vl firstLines =>
      rw [cons_append, head?_cons] at hline
      rw [head?_cons] at hhead
      exact Option.some.inj (hline.symm.trans hhead)

theorem visualLinesFrom_find (hd : host.display.Lawful) (hwidth : 1 ≤ width)
    (hplain : ∀ line ∈ lines, Unmarked valid line)
    (h : visualLinesFrom host valid width index lines = some visualLines) {k : ℕ}
    (hline : lines[k]? = some line) (hstart : 0 ≤ col) (hstop : col ≤ line.length) (base : ℕ) :
    ∃ j vl, findVisualLineFrom (index + k) col base visualLines = some (base + j) ∧
      FoundAt visualLines (index + k) col j vl := by
  induction lines generalizing index k base visualLines with
  | nil => cases hline
  | cons first lines ih =>
    obtain ⟨firstLines, hfirst, hmore⟩ := bind_eq_some_iff.mp h
    obtain ⟨more, hrest, rfl⟩ := map_eq_some_iff.mp hmore
    have hlayout := lineVisualLines_layout hd hwidth (hplain first mem_cons_self) hfirst
    have hplain' : ∀ line ∈ lines, Unmarked valid line :=
      fun line hline => hplain line (mem_cons_of_mem _ hline)
    cases k with
    | zero =>
      cases hline
      refine hlayout.tiles.find (fun hhead => ?_) hstart hstop base
      have := visualLinesFrom_head hd hwidth hplain' hrest _ hhead
      omega
    | succ k =>
      rw [getElem?_cons_succ] at hline
      obtain ⟨j, vl, hfind, hfound⟩ := ih hplain' hrest hline (base + firstLines.length)
      rw [add_right_comm, add_assoc] at hfind hfound
      refine ⟨firstLines.length + j, vl, ?_, ?_, hfound.line, hfound.start, hfound.stop⟩
      · rw [find_skip, hfind, add_assoc]
        intro vl hvl
        have := (hlayout.tiles.mem hvl).1
        omega
      · rw [getElem?_append_right (Nat.le_add_right _ _), Nat.add_sub_cancel_left]
        exact hfound.get

theorem visualLinesFrom_mem (hd : host.display.Lawful) (hwidth : 1 ≤ width)
    (hplain : ∀ line ∈ lines, Unmarked valid line)
    (h : visualLinesFrom host valid width index lines = some visualLines) (hvl : vl ∈ visualLines) :
    ∃ k line, vl.logicalLine = index + k ∧ lines[k]? = some line ∧
      vl.startCol + vl.length ≤ line.length ∧ Begins host.display line vl.startCol := by
  induction lines generalizing index visualLines with
  | nil =>
    cases h
    cases hvl
  | cons first lines ih =>
    obtain ⟨firstLines, hfirst, hmore⟩ := bind_eq_some_iff.mp h
    obtain ⟨more, hrest, rfl⟩ := map_eq_some_iff.mp hmore
    rcases mem_append.mp hvl with hvl | hvl
    · have hlayout := lineVisualLines_layout hd hwidth (hplain first mem_cons_self) hfirst
      have hmem := hlayout.tiles.mem hvl
      exact ⟨0, first, hmem.1, rfl, hmem.2, hlayout.begins vl hvl⟩
    · obtain ⟨k, line, hline, hget, hspec⟩ :=
        ih (fun line hline => hplain line (mem_cons_of_mem _ hline)) hrest hvl
      exact ⟨k + 1, line, by omega, hget, hspec⟩

/-! ### The columns -/

/-- The columns kept for vertical moves are no negative ones. -/
structure Sticky (e : Editor) : Prop where
  preferred : ∀ col, e.preferredVisualCol = some col → 0 ≤ col
  snapped : ∀ col, e.snappedFromCursorCol = some col → 0 ≤ col

theorem sticky_setCursorCol (e : Editor) (col : ℤ) : Sticky (e.setCursorCol col) :=
  ⟨fun _ h => (by cases h), fun _ h => (by cases h)⟩

/-- No marker of a registered paste is in the text. -/
def WithoutMarkers (e : Editor) : Prop :=
  ∀ line ∈ e.state.lines, Unmarked e.valid line

/-- The column the cursor was snapped from is within the cursor's line, or not left of where the
last visual line begins. -/
def SnappedWithin (e : Editor) (visualLines : List VisualLine) : Prop :=
  ∀ col, e.snappedFromCursorCol = some col → col ≤ e.state.currentLine.length ∨
    ∀ last ∈ visualLines.getLast?, (last.startCol : ℤ) ≤ col

theorem maxVisualCol_nonneg (visualLines : List VisualLine) (i : ℕ) (vl : VisualLine) :
    0 ≤ maxVisualCol visualLines i vl := by
  rw [maxVisualCol]
  split_ifs
  · omega
  · exact le_max_left _ _

theorem maxVisualCol_le (visualLines : List VisualLine) (i : ℕ) (vl : VisualLine) :
    maxVisualCol visualLines i vl ≤ vl.length := by
  rw [maxVisualCol]
  split_ifs
  · exact le_rfl
  · omega

structure MovesWithin (target : ℤ) (moved : Option ℤ × ℤ) : Prop where
  preferred : ∀ col, moved.1 = some col → 0 ≤ col
  nonneg : 0 ≤ moved.2
  le : moved.2 ≤ target

theorem freshMoveColumn_within {current target : ℤ} (hcurrent : 0 ≤ current)
    (htarget : 0 ≤ target) : MovesWithin target (freshMoveColumn current target) := by
  rw [freshMoveColumn]
  split_ifs with hshort
  · refine ⟨fun col hcol => ?_, htarget, le_rfl⟩
    cases hcol
    exact hcurrent
  · exact ⟨fun _ hcol => (by cases hcol), hcurrent, not_lt.mp hshort⟩

theorem computeVerticalMoveColumn_within {preferred : Option ℤ} {current source target : ℤ}
    (hpreferred : ∀ col, preferred = some col → 0 ≤ col) (hcurrent : 0 ≤ current)
    (htarget : 0 ≤ target) :
    MovesWithin target (computeVerticalMoveColumn preferred current source target) := by
  cases preferred with
  | none => exact freshMoveColumn_within hcurrent htarget
  | some col =>
    have hcol := hpreferred col rfl
    rw [computeVerticalMoveColumn]
    split_ifs with hmiddle hshort
    · exact freshMoveColumn_within hcurrent htarget
    · refine ⟨fun _ h => ?_, htarget, le_rfl⟩
      cases h
      exact hcol
    · rw [not_or, not_lt, not_lt] at hshort
      exact ⟨fun _ h => (by cases h), hcol, hshort.2⟩

variable {e : Editor}

theorem build_find (hd : host.display.Lawful) (hwidth : 1 ≤ e.lastWidth) (hplain : e.WithoutMarkers)
    (h : e.buildVisualLineMap host = some visualLines)
    (hline : e.state.cursorLine < e.state.lines.length) (hstart : 0 ≤ col)
    (hstop : col ≤ e.state.currentLine.length) :
    ∃ vl, FoundAt visualLines e.state.cursorLine col
      (findVisualLineAt visualLines e.state.cursorLine col) vl := by
  have hget : e.state.lines[e.state.cursorLine]? = some e.state.currentLine := by
    rw [EditorState.currentLine, EditorState.line, getElem?_eq_getElem hline, getD_some]
  obtain ⟨j, vl, hfind, hfound⟩ :=
    visualLinesFrom_find hd hwidth hplain h hget hstart hstop 0
  rw [zero_add] at hfind hfound
  refine ⟨vl, ?_⟩
  rw [findVisualLineAt, hfind, getD_some, zero_add]
  exact hfound

theorem currentVisualCol_nonneg (hd : host.display.Lawful) (hwidth : 1 ≤ e.lastWidth)
    (hplain : e.WithoutMarkers) (h : e.buildVisualLineMap host = some visualLines)
    (hwithin : e.state.CursorWithin) (hsticky : Sticky e) (hsnapped : e.SnappedWithin visualLines)
    (hvl : visualLines[e.findCurrentVisualLine visualLines]? = some vl) :
    0 ≤ e.currentVisualCol visualLines vl := by
  obtain ⟨hline, hstart, hstop⟩ := hwithin
  obtain ⟨found, hfound⟩ := build_find hd hwidth hplain h hline hstart hstop
  obtain rfl : vl = found := Option.some.inj (hvl.symm.trans hfound.get)
  rw [currentVisualCol]
  cases hcol : e.snappedFromCursorCol with
  | none =>
    have := hfound.start
    dsimp only
    omega
  | some col =>
    have hnonneg := hsticky.snapped col hcol
    dsimp only
    rw [hfound.line]
    by_cases hin : col ≤ e.state.currentLine.length
    · obtain ⟨at', hat⟩ := build_find hd hwidth hplain h hline hnonneg hin
      have := hat.start
      rw [hat.get]
      dsimp only [map_some, getD_some]
      omega
    · -- the column is in no visual line of the cursor's line, or in one that begins before it
      have hlast := (hsnapped col hcol).resolve_left hin
      rw [findVisualLineAt]
      cases hfind : findVisualLineFrom e.state.cursorLine col 0 visualLines with
      | some i =>
        obtain ⟨k, found', rfl, hget, hbegins⟩ := find_some hfind
        rw [getD_some, zero_add, hget]
        dsimp only [map_some, getD_some]
        omega
      | none =>
        rw [getD_none, ← getLast?_eq_getElem?]
        cases hget : visualLines.getLast? with
        | none => simpa using hnonneg
        | some last =>
          have := hlast last hget
          dsimp only [map_some, getD_some]
          omega

/-! ### The move -/

/-- Nothing but the cursor and the columns kept for it is different. -/
def OnlyCursor (e e' : Editor) : Prop :=
  ∃ cursorLine cursorCol preferred snapped, e' =
    { e with
      state := { e.state with cursorLine := cursorLine, cursorCol := cursorCol }
      preferredVisualCol := preferred
      snappedFromCursorCol := snapped }

theorem moveToVisualLine_onlyCursor (host : Host) (visualLines : List VisualLine)
    (current target : ℕ) (e : Editor) :
    OnlyCursor e (moveToVisualLine host visualLines current target e) := by
  fun_induction moveToVisualLine host visualLines current target e with
  | case1 target e currentVL _ targetVL _ _ _ _ _ _ _ _ _ _ _ ih =>
    obtain ⟨_, _, _, _, heq⟩ := ih
    rw [heq]
    exact ⟨_, _, _, _, rfl⟩
  | case2 => exact ⟨_, _, _, _, rfl⟩
  | case3 => exact ⟨_, _, _, _, rfl⟩
  | case4 => exact ⟨_, _, _, _, rfl⟩

theorem atomicAt_some {segments : List SegmentData} {seg : SegmentData}
    (h : atomicAt segments col = some seg) :
    seg ∈ segments ∧ (seg.index : ℤ) ≤ col ∧ col < seg.index + seg.segment.length := by
  rw [atomicAt] at h
  have hmem := mem_of_find?_eq_some h
  have hin := find?_some h
  rw [decide_eq_true_iff] at hin
  have hbefore := mem_takeWhile_imp hmem
  rw [decide_eq_true_iff] at hbefore
  exact ⟨(takeWhile_sublist _).subset hmem, hbefore, hin.2⟩

theorem moveToVisualLine_within (hd : host.display.Lawful) (hwidth : 1 ≤ e.lastWidth)
    (hplain : e.WithoutMarkers) (h : e.buildVisualLineMap host = some visualLines)
    (hwithin : e.state.CursorWithin) (hsticky : Sticky e) (hsnapped : e.SnappedWithin visualLines)
    (target : ℕ) :
    (moveToVisualLine host visualLines (e.findCurrentVisualLine visualLines) target
      e).state.CursorWithin ∧
    Sticky (moveToVisualLine host visualLines (e.findCurrentVisualLine visualLines) target e) := by
  rw [moveToVisualLine]
  cases hcurrent : visualLines[e.findCurrentVisualLine visualLines]? with
  | none => exact ⟨hwithin, hsticky⟩
  | some currentVL =>
    cases htarget : visualLines[target]? with
    | none => exact ⟨hwithin, hsticky⟩
    | some targetVL =>
      dsimp only
      obtain ⟨k, line, hk, hget, hfits, gs, hs, hgs, hbegins⟩ :=
        visualLinesFrom_mem hd hwidth hplain h (mem_of_getElem? htarget)
      rw [zero_add] at hk
      have hline : e.state.line targetVL.logicalLine = line := by
        rw [EditorState.line, hk, hget, getD_some]
      have hplain' : Unmarked e.valid line := hplain line (mem_of_getElem? hget)
      rw [hline]
      have hnonneg := currentVisualCol_nonneg hd hwidth hplain h hwithin hsticky hsnapped hcurrent
      have hmax := maxVisualCol_nonneg visualLines target targetVL
      have hmaxle := maxVisualCol_le visualLines target targetVL
      obtain ⟨hpreferred, hmoved, hle⟩ := @computeVerticalMoveColumn_within e.preferredVisualCol
        (e.currentVisualCol visualLines currentVL)
        (maxVisualCol visualLines (e.findCurrentVisualLine visualLines) currentVL)
        (maxVisualCol visualLines target targetVL) hsticky.preferred hnonneg hmax
      generalize computeVerticalMoveColumn _ _ _ _ = moved at hpreferred hmoved hle
      obtain ⟨preferred, col⟩ := moved
      dsimp only at hpreferred hmoved hle ⊢
      have hcol : min ((targetVL.startCol : ℤ) + col) line.length = targetVL.startCol + col := by
        omega
      rw [hcol]
      have hlines : targetVL.logicalLine < e.state.lines.length := by
        rw [hk]
        exact (List.getElem?_eq_some_iff.mp hget).1
      have hplaced : ∀ col : ℤ, 0 ≤ col → col ≤ line.length →
          EditorState.CursorWithin ⟨e.state.lines, targetVL.logicalLine, col⟩ := by
        intro col hpos hstop
        refine ⟨hlines, hpos, ?_⟩
        change col ≤ (e.state.line targetVL.logicalLine).length
        rw [hline]
        exact hstop
      cases hatomic : atomicAt (e.segment host line) (targetVL.startCol + col) with
      | none =>
        exact ⟨hplaced _ (by omega) (by omega), hpreferred, fun _ hsome => (by cases hsome)⟩
      | some seg =>
        obtain ⟨hseg, hindex, hstop⟩ := atomicAt_some hatomic
        have hnot : ¬(seg.index < targetVL.startCol ∧
            e.findCurrentVisualLine visualLines < target ∧
            pastContinuations visualLines targetVL.logicalLine
              (seg.index + seg.segment.length) (target + 1) < visualLines.length) := by
          rintro ⟨hlt, -⟩
          rw [segment, hplain'.segments, hgs] at hseg
          have := placed_begins hseg
          omega
        dsimp only
        rw [dif_neg hnot]
        refine ⟨hplaced _ (by omega) (by omega), hpreferred, fun other hsome => ?_⟩
        cases hsome
        omega

end KnightCode.Editor
