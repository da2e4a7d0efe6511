import KnightCode.Editor.ReferenceEdits
import KnightCode.Editor.Snapshots

/-!
# Moves on the reference

A move changes nothing but the cursor. Where it leads between two units, the reference's gap goes
there; a vertical move goes to the beginning of a segment, or to a column inside none.
-/

namespace KnightCode.Editor

open List Option Slices

variable {host : Host} {e e' : Editor} {g : Gap Piece}
variable {s : EditorState} {index : ℕ} {visualLines : List VisualLine}

theorem Between.holds (hbetween : Between g e'.state) (h : Holds e.snapshot g)
    (hpastes : e'.pastes = e.pastes) (hcounter : e'.pasteCounter = e.pasteCounter) :
    Holds e'.snapshot (Reference.moved e'.state g) := by
  obtain ⟨g', hlines, hstate⟩ := hbetween
  have hmoved : Reference.moved e'.state g = g' := by
    have hself := Gap.seek_self piece_shown_ne_nil g'
    rw [Reference.moved, hstate, ← hlines, gapState_cursorLine, gapState_cursorCol,
      Int.toNat_natCast]
    exact hself
  rw [hmoved]
  apply h.text hstate hpastes hcounter
  apply Registered.subset h.registered
  intro piece hpiece
  rw [Gap.items, hlines] at hpiece
  exact hpiece

theorem Holds.between (h : Holds e.snapshot g) : Between g e.state :=
  ⟨g, rfl, h.state⟩

theorem Holds.lines (h : Holds e.snapshot g) : e.state.lines = g.lines.map shown := by
  have hstate : e.state = gapState (g.flat Piece.shown) := h.state
  rw [hstate, gapState_lines, Gap.flat_lines]
  rfl

theorem between_at (hlines : s.lines = g.lines.map shown) {line kept left : List Piece}
    (hget : g.lines[s.cursorLine]? = some line) (hsplit : line = kept ++ left)
    (hcol : s.cursorCol = (shown kept).length) : Between g s := by
  rw [hsplit] at hget
  obtain ⟨hlt, hline⟩ := List.getElem?_eq_some_iff.mp hget
  have hall : (⟨g.lines.take s.cursorLine, kept, left, g.lines.drop (s.cursorLine + 1)⟩ :
      Gap Piece).lines = g.lines := by
    rw [Gap.lines, Gap.line, ← hline, ← drop_eq_getElem_cons hlt, take_append_drop]
  refine ⟨_, hall, ?_⟩
  obtain ⟨lines, cursorLine, cursorCol⟩ := s
  dsimp only at hlines hcol hlt hall
  have hflat := hall ▸ Gap.flat_lines (f := Piece.shown)
    (⟨g.lines.take cursorLine, kept, left, g.lines.drop (cursorLine + 1)⟩ : Gap Piece)
  rw [gapState, hflat, hlines, hcol, Gap.flat_above, length_map, length_take, min_eq_left hlt.le]
  rfl

theorem between_start (hlines : s.lines = g.lines.map shown) (hlt : s.cursorLine < s.lines.length)
    (hcol : s.cursorCol = 0) : Between g s := by
  rw [hlines, length_map] at hlt
  exact between_at hlines (getElem?_eq_getElem hlt) (nil_append _).symm hcol

theorem between_end (hlines : s.lines = g.lines.map shown) (hlt : s.cursorLine < s.lines.length)
    (hcol : s.cursorCol = s.currentLine.length) : Between g s := by
  rw [hlines, length_map] at hlt
  have hget := getElem?_eq_getElem hlt
  have hline : s.currentLine = shown g.lines[s.cursorLine] := by
    rw [EditorState.currentLine, EditorState.line, hlines, getElem?_map, hget]
    rfl
  apply between_at hlines hget (append_nil _).symm
  rw [hcol, hline]

theorem Holds.between_col (h : Holds e.snapshot g) {kept left : List Piece}
    (hsplit : g.before ++ g.after = kept ++ left) {col : ℤ} (hcol : col = (shown kept).length) :
    Between g ⟨e.state.lines, e.state.cursorLine, col⟩ := by
  have hstate : e.state = gapState (g.flat Piece.shown) := h.state
  have hindex : e.state.cursorLine = g.above.length := by
    rw [hstate, gapState_cursorLine, Gap.flat_above, length_map]
  refine between_at h.lines ?_ hsplit hcol
  rw [hindex]
  simp [Gap.lines, Gap.line]

theorem Holds.between_previous (h : Holds e.snapshot g) (hline : 0 < e.state.cursorLine) :
    Between g ⟨e.state.lines, e.state.cursorLine - 1,
      (e.state.line (e.state.cursorLine - 1)).length⟩ := by
  have hwithin := h.within.1
  refine between_end h.lines ?_ rfl
  change e.state.cursorLine - 1 < e.state.lines.length
  omega

/-! ### Moves within a line and to the next one -/

theorem moveToLineStart_between (h : Holds e.snapshot g) : Between g e.moveToLineStart.state :=
  h.between_col (nil_append _).symm rfl

theorem moveToLineEnd_between (h : Holds e.snapshot g) : Between g e.moveToLineEnd.state := by
  apply h.between_col (append_nil _).symm
  rw [h.line, shown_append]

theorem moveLeft_between (h : Holds e.snapshot g) (hparts : e.PartsBefore g (e.segment host)) :
    Between g (e.moveLeft host).state := by
  rw [moveLeft]
  cases (e.acted none).buildVisualLineMap host with
  | none => exact h.between
  | some visualLines =>
    dsimp only
    by_cases hcol : 0 < e.state.cursorCol
    · rw [if_pos (show 0 < (e.acted none).state.cursorCol from hcol)]
      obtain ⟨kept, group, hbefore, -, hlength⟩ := (hparts hcol).lastLength (h.before_ne_nil hcol)
      have hsplit : g.before ++ g.after = kept ++ (group ++ g.after) := by
        rw [hbefore, append_assoc]
      apply h.between_col hsplit
      change e.state.cursorCol - lastLength (e.segment host e.state.beforeCursor) = _
      rw [hlength, h.col, hbefore, shown_append, length_append]
      omega
    · rw [if_neg (show ¬0 < (e.acted none).state.cursorCol from hcol)]
      split_ifs with hline
      · exact h.between_previous hline
      · exact h.between

theorem moveRight_between (h : Holds e.snapshot g) (hparts : e.PartsAfter g (e.segment host)) :
    Between g (e.moveRight host).state := by
  rw [moveRight]
  cases (e.acted none).buildVisualLineMap host with
  | none => exact h.between
  | some visualLines =>
    dsimp only
    by_cases hcol : e.state.cursorCol < e.state.currentLine.length
    · rw [if_pos (show (e.acted none).state.cursorCol <
        (e.acted none).state.currentLine.length from hcol)]
      obtain ⟨group, kept, hafter, -, hlength⟩ := (hparts hcol).firstLength (h.after_ne_nil hcol)
      have hsplit : g.before ++ g.after = (g.before ++ group) ++ kept := by
        rw [hafter, append_assoc]
      apply h.between_col hsplit
      change e.state.cursorCol + firstLength (e.segment host e.state.afterCursor) = _
      rw [hlength, h.col, shown_append, length_append]
      omega
    · rw [if_neg (show ¬(e.acted none).state.cursorCol <
        (e.acted none).state.currentLine.length from hcol)]
      split_ifs with hline
      · exact between_start h.lines hline rfl
      · cases visualLines[(e.acted none).findCurrentVisualLine visualLines]? with
        | none => exact h.between
        | some currentVL => exact h.between

theorem moveWordBackwards_between (h : Holds e.snapshot g)
    (hparts : e.PartsBefore g (e.words host).segment) :
    Between g (e.moveWordBackwards host).state := by
  rw [moveWordBackwards]
  by_cases hcol : e.state.cursorCol = 0
  · rw [if_pos (show (e.acted none).state.cursorCol = 0 from hcol)]
    split_ifs with hline
    · exact h.between_previous hline
    · exact h.between
  · rw [if_neg (show ¬(e.acted none).state.cursorCol = 0 from hcol)]
    have hpos : 0 < e.state.cursorCol := lt_of_le_of_ne h.within.2.1 (Ne.symm hcol)
    obtain ⟨kept, removed, hbefore, hfind⟩ := findWordBackward_fits h hparts hpos
    have hsplit : g.before ++ g.after = kept ++ (removed ++ g.after) := by
      rw [hbefore, append_assoc]
    exact h.between_col hsplit hfind

theorem moveWordForwards_between (h : Holds e.snapshot g)
    (hparts : e.PartsAfter g (e.words host).segment) :
    Between g (e.moveWordForwards host).state := by
  rw [moveWordForwards]
  by_cases hcol : (e.state.currentLine.length : ℤ) ≤ e.state.cursorCol
  · rw [if_pos (show ((e.acted none).state.currentLine.length : ℤ) ≤
      (e.acted none).state.cursorCol from hcol)]
    split_ifs with hline
    · exact between_start h.lines hline rfl
    · exact h.between
  · rw [if_neg (show ¬((e.acted none).state.currentLine.length : ℤ) ≤
      (e.acted none).state.cursorCol from hcol)]
    obtain ⟨removed, kept, hafter, hfind⟩ := findWordForward_fits h hparts (not_le.mp hcol)
    have hsplit : g.before ++ g.after = (g.before ++ removed) ++ kept := by
      rw [hafter, append_assoc]
    apply h.between_col hsplit
    refine hfind.trans ?_
    rw [h.col, shown_append, length_append]
    push_cast
    rfl

/-! ### Vertical moves -/

variable {groups : List (List Piece)}

theorem atomicAt_none_fits {col : ℤ} (hnone : atomicAt (placed index (groups.map shown)) col = none)
    (hstart : index ≤ col) (hstop : col ≤ index + (shown groups.flatten).length) :
    ∃ kept left, groups.flatten = kept ++ left ∧ col = index + (shown kept).length := by
  induction groups generalizing index with
  | nil =>
    refine ⟨[], [], rfl, ?_⟩
    rw [flatten_nil, shown_nil, length_nil] at hstop
    rw [shown_nil, length_nil]
    omega
  | cons group groups ih =>
    by_cases hcol : col = index
    · refine ⟨[], (group :: groups).flatten, rfl, ?_⟩
      rw [shown_nil, length_nil]
      omega
    · rw [atomicAt, map_cons, placed, takeWhile_cons_of_pos (by simpa using hstart)]
        at hnone
      have hin : ¬(1 < (shown group).length ∧ col < index + (shown group).length) := fun hin => by
        rw [find?_cons_of_pos (by simpa using hin)] at hnone
        cases hnone
      rw [find?_cons_of_neg (by simpa using hin)] at hnone
      rw [flatten_cons, shown_append, length_append] at hstop
      obtain ⟨kept, left, hflatten, hkept⟩ := @ih (index + (shown group).length) hnone
        (by omega) (by push_cast at hstop ⊢; omega)
      refine ⟨group ++ kept, left, ?_, ?_⟩
      · rw [flatten_cons, hflatten, append_assoc]
      · rw [hkept, shown_append, length_append]
        push_cast
        omega

theorem placed_fits {seg : SegmentData} (hseg : seg ∈ placed index (groups.map shown)) :
    ∃ kept left, groups.flatten = kept ++ left ∧ seg.index = index + (shown kept).length := by
  induction groups generalizing index with
  | nil => cases hseg
  | cons group groups ih =>
    rcases mem_cons.mp hseg with rfl | hseg
    · exact ⟨[], (group :: groups).flatten, rfl, rfl⟩
    · obtain ⟨kept, left, hflatten, hkept⟩ := ih hseg
      refine ⟨group ++ kept, left, ?_, ?_⟩
      · rw [flatten_cons, hflatten, append_assoc]
      · rw [hkept, shown_append, length_append, add_assoc]

variable {segments : List SegmentData}

theorem Parts.fits {pieces : List Piece} (h : Parts segments pieces) {col : ℤ}
    (hnone : atomicAt segments col = none) (hstart : 0 ≤ col)
    (hstop : col ≤ (shown pieces).length) :
    ∃ kept left, pieces = kept ++ left ∧ col = (shown kept).length := by
  obtain ⟨groups, rfl, rfl, -⟩ := h
  have hfits := atomicAt_none_fits hnone (by exact_mod_cast hstart) (by simpa using hstop)
  simpa using hfits

theorem Parts.begins {pieces : List Piece} (h : Parts segments pieces) {seg : SegmentData}
    (hseg : seg ∈ segments) :
    ∃ kept left, pieces = kept ++ left ∧ seg.index = (shown kept).length := by
  obtain ⟨groups, rfl, rfl, -⟩ := h
  have hfits := placed_fits hseg
  simpa using hfits

theorem lineVisualLines_logical {valid : Text → Bool} {width : ℕ} {line : Text}
    (h : lineVisualLines host valid width index line = some visualLines) :
    ∀ vl ∈ visualLines, vl.logicalLine = index := by
  intro vl hvl
  rw [lineVisualLines] at h
  split_ifs at h
  · cases h
    rw [mem_singleton.mp hvl]
  · cases h
    rw [mem_singleton.mp hvl]
  · obtain ⟨chunks, -, rfl⟩ := map_eq_some_iff.mp h
    obtain ⟨chunk, -, rfl⟩ := mem_map.mp hvl
    rfl

theorem visualLinesFrom_logical {valid : Text → Bool} {width : ℕ} {lines : List Text}
    (h : visualLinesFrom host valid width index lines = some visualLines) :
    ∀ vl ∈ visualLines, vl.logicalLine < index + lines.length := by
  induction lines generalizing index visualLines with
  | nil =>
    cases h
    exact nofun
  | cons line lines ih =>
    obtain ⟨first, hfirst, hmore⟩ := bind_eq_some_iff.mp h
    obtain ⟨more, hrest, rfl⟩ := map_eq_some_iff.mp hmore
    intro vl hvl
    rw [length_cons]
    rcases mem_append.mp hvl with hvl | hvl
    · have hlogical := lineVisualLines_logical hfirst vl hvl
      omega
    · have hlogical := ih hrest vl hvl
      omega

theorem line_parts (hlines : e.state.lines = g.lines.map shown)
    (hparts : ∀ line ∈ g.lines, Parts (e.segment host (shown line)) line)
    (hlt : index < e.state.lines.length) : ∃ line, g.lines[index]? = some line ∧
      e.state.line index = shown line ∧ Parts (e.segment host (e.state.line index)) line := by
  rw [hlines, length_map] at hlt
  have hget := getElem?_eq_getElem hlt
  have hline : e.state.line index = shown g.lines[index] := by
    rw [EditorState.line, hlines, getElem?_map, hget]
    rfl
  refine ⟨g.lines[index], hget, hline, ?_⟩
  rw [hline]
  exact hparts _ (getElem_mem hlt)

theorem moveToVisualLine_between {current target : ℕ} (hlines : e.state.lines = g.lines.map shown)
    (hlogical : ∀ vl ∈ visualLines, vl.logicalLine < e.state.lines.length)
    (hparts : ∀ line ∈ g.lines, Parts (e.segment host (shown line)) line)
    (hcurrent : visualLines[current]?.isSome) (htarget : visualLines[target]?.isSome)
    (hnonneg : 0 ≤ (moveToVisualLine host visualLines current target e).state.cursorCol) :
    Between g (moveToVisualLine host visualLines current target e).state := by
  fun_induction moveToVisualLine host visualLines current target e with
  | case1 _ _ _ _ _ _ _ _ _ _ _ _ _ _ _ hnext ih =>
    apply ih hlines hlogical hparts _ hnonneg
    rw [getElem?_eq_getElem hnext.2.2]
    rfl
  | case2 _ e _ targetVL hvl _ _ _ _ _ _ _ seg hsegment =>
    obtain ⟨line, hget, -, hsegments⟩ :=
      line_parts hlines hparts (hlogical targetVL (mem_of_getElem? hvl))
    obtain ⟨kept, left, hsplit, hindex⟩ := hsegments.begins (atomicAt_some hsegment).1
    exact between_at hlines hget hsplit (congrArg _ hindex)
  | case3 _ e _ targetVL hvl _ _ col _ _ _ _ hnone =>
    obtain ⟨line, hget, hline, hsegments⟩ :=
      line_parts hlines hparts (hlogical targetVL (mem_of_getElem? hvl))
    have hle : min (targetVL.startCol + col) (e.state.line targetVL.logicalLine).length ≤
        ((shown line).length : ℤ) := by
      rw [hline]
      exact min_le_right _ _
    obtain ⟨kept, left, hsplit, hcol⟩ := hsegments.fits hnone hnonneg hle
    exact between_at hlines hget hsplit hcol
  | case4 target e hnone =>
    obtain ⟨currentVL, hcurrent⟩ := isSome_iff_exists.mp hcurrent
    obtain ⟨targetVL, htarget⟩ := isSome_iff_exists.mp htarget
    exact absurd htarget (hnone currentVL targetVL hcurrent)

theorem toVisualLine_between (h : Holds e.snapshot g)
    (hparts : ∀ line ∈ g.lines, Parts (e.segment host (shown line)) line)
    (hbuild : e.buildVisualLineMap host = some visualLines) {current target : ℕ}
    (hnonneg : 0 ≤ (moveToVisualLine host visualLines current target e).state.cursorCol) :
    Between g (moveToVisualLine host visualLines current target e).state := by
  by_cases hin : visualLines[current]?.isSome ∧ visualLines[target]?.isSome
  · have hlogical := visualLinesFrom_logical hbuild
    rw [zero_add] at hlogical
    exact moveToVisualLine_between h.lines hlogical hparts hin.1 hin.2 hnonneg
  · have hstays : moveToVisualLine host visualLines current target e = e := by
      rw [moveToVisualLine]
      split
      · next hcurrent htarget =>
        rw [hcurrent, htarget] at hin
        exact absurd ⟨rfl, rfl⟩ hin
      · rfl
    rw [hstays]
    exact h.between

theorem MovesTo.between {e' : Editor} (hmoves : MovesTo host e e') (h : Holds e.snapshot g)
    (hparts : ∀ line ∈ g.lines, Parts (e.segment host (shown line)) line)
    (hnonneg : 0 ≤ e'.state.cursorCol) : Between g e'.state := by
  cases hmoves with
  | stays => exact h.between
  | goes hbuild target =>
    exact toVisualLine_between (e := e.acted none) h hparts hbuild hnonneg

theorem navigateHistory_stays {direction : ℤ} (hstays : ¬e.Browses direction) :
    e.navigateHistory direction = e.acted none := by
  rw [navigateHistory, if_pos]
  by_contra hbrowses
  rw [not_or, not_or, not_lt, not_le] at hbrowses
  exact hstays hbrowses

theorem cursorUp_between (h : Holds e.snapshot g) (hstays : e.StaysOut host .cursorUp)
    (hmoves : e.MovesVertically host g .cursorUp) : Between g (e.cursorUp host).state := by
  have hnonneg : 0 ≤ (e.cursorUp host).state.cursorCol := hmoves.nonneg
  rw [cursorUp] at hnonneg ⊢
  cases hbuild : e.buildVisualLineMap host with
  | none => exact h.between
  | some visualLines =>
    rw [hbuild] at hnonneg
    dsimp only at hnonneg ⊢
    split_ifs at hnonneg ⊢ with hfirst hbrowse
    · rw [navigateHistory_stays (hstays visualLines hbuild hfirst hbrowse)]
      exact h.between
    · exact moveToLineStart_between h
    · exact (moveVertically_movesTo host _ _).between h hmoves.parts hnonneg

theorem cursorDown_between (h : Holds e.snapshot g) (hstays : e.StaysOut host .cursorDown)
    (hmoves : e.MovesVertically host g .cursorDown) : Between g (e.cursorDown host).state := by
  have hnonneg : 0 ≤ (e.cursorDown host).state.cursorCol := hmoves.nonneg
  rw [cursorDown] at hnonneg ⊢
  cases hbuild : e.buildVisualLineMap host with
  | none => exact h.between
  | some visualLines =>
    rw [hbuild] at hnonneg
    dsimp only at hnonneg ⊢
    split_ifs at hnonneg ⊢ with hlast hbrowse
    · rw [navigateHistory_stays (hstays hbrowse)]
      exact h.between
    · exact moveToLineEnd_between h
    · exact (moveVertically_movesTo host _ _).between h hmoves.parts hnonneg

theorem move_holds {r : Reference} (h : Holds e.snapshot r.gap) {act : Act} (hmove : IsMove act)
    (hmeets : r.Meets host e act) :
    Holds (e.step host act).snapshot (Reference.moved (e.step host act).state r.gap) := by
  have hmoved := step_moved host e hmove
  refine Between.holds ?_ h hmoved.pastes hmoved.counter
  cases act with
  | cursorUp => exact cursorUp_between h hmeets.1 hmeets.2
  | cursorDown => exact cursorDown_between h hmeets.1 hmeets.2
  | cursorLeft => exact moveLeft_between h hmeets
  | cursorRight => exact moveRight_between h hmeets
  | cursorLineStart => exact moveToLineStart_between h
  | cursorLineEnd => exact moveToLineEnd_between h
  | cursorWordLeft => exact moveWordBackwards_between h hmeets
  | cursorWordRight => exact moveWordForwards_between h hmeets
  | pageScroll direction pageSize =>
    exact (pageScroll_movesTo host _ _ _).between h hmeets.parts hmeets.nonneg
  | click visualLineIndex targetColumn =>
    rw [step, click]
    cases htarget : e.clickTarget host visualLineIndex targetColumn with
    | none => exact h.between
    | some target => exact hmeets target htarget
  | jumpToChar char forward =>
    rw [step, jumpToChar]
    cases htarget : jumpTarget (e.acted none).state char forward with
    | none => exact h.between
    | some target => exact hmeets target htarget
  | navigateHistory direction =>
    rw [step, navigateHistory_stays hmeets]
    exact h.between
  | addToHistory text =>
    have hstate : (e.addToHistory text).state = e.state := by
      rw [addToHistory]
      split_ifs <;> rfl
    rw [step, hstate]
    exact h.between
  | render layoutWidth => exact h.between
  | _ => exact hmove.elim

end KnightCode.Editor
