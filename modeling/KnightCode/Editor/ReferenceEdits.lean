import KnightCode.Editor.ReferenceText

/-!
# Deletions, kills and yanks on the reference

A deletion that finds the segments to be parts takes whole units, and a kill puts them on the
ring. A backspace over a paste leaves the registry to the others under their new numbers.
-/

namespace KnightCode.Editor

open List Slices JsonText

variable {host : Host} {e : Editor} {g : Gap Piece} {r : Gap.Range}

theorem Holds.before (h : Holds e.snapshot g) : e.state.beforeCursor = shown g.before := by
  have hstate : e.state = gapState (g.flat Piece.shown) := h.state
  rw [hstate, gapState_beforeCursor]
  rfl

theorem Holds.after (h : Holds e.snapshot g) : e.state.afterCursor = shown g.after := by
  have hstate : e.state = gapState (g.flat Piece.shown) := h.state
  rw [hstate, gapState_afterCursor]
  rfl

theorem Holds.col (h : Holds e.snapshot g) : e.state.cursorCol = (shown g.before).length := by
  have hstate : e.state = gapState (g.flat Piece.shown) := h.state
  rw [hstate, gapState_cursorCol]
  rfl

theorem Holds.line (h : Holds e.snapshot g) :
    e.state.currentLine = shown g.before ++ shown g.after := by
  have hstate : e.state = gapState (g.flat Piece.shown) := h.state
  rw [hstate, gapState_currentLine]
  rfl

theorem Holds.within (h : Holds e.snapshot g) : e.state.CursorWithin := by
  have hstate : e.state = gapState (g.flat Piece.shown) := h.state
  rw [hstate]
  exact gapState_within _

theorem Holds.before_ne_nil (h : Holds e.snapshot g) (hcol : 0 < e.state.cursorCol) :
    g.before ≠ [] := by
  intro hnil
  rw [h.col, hnil] at hcol
  exact lt_irrefl _ hcol

theorem Holds.after_ne_nil (h : Holds e.snapshot g)
    (hcol : e.state.cursorCol < e.state.currentLine.length) : g.after ≠ [] := by
  intro hnil
  rw [h.col, h.line, hnil, shown_nil, append_nil] at hcol
  exact lt_irrefl _ hcol

theorem Holds.without (h : Holds e.snapshot g) {e' : Editor} (htakes : TakesOut e g r)
    (hstate : e'.state = (e.takenOut r).state) (hpastes : e'.pastes = e.pastes)
    (hcounter : e'.pasteCounter = e.pasteCounter) :
    Holds e'.snapshot (g.without Piece.shown (.char newline) r).1 := by
  apply h.text (hstate.trans htakes.state) hpastes hcounter
  exact Registered.subset h.registered fun _ hmem => Gap.mem_items_without r hmem

/-! ### One grapheme -/

theorem markerId_chars {t : Text} (h : isPasteMarker t = false) : markerId t = none := by
  rw [markerId, h]
  rfl

theorem markerId_paste (n : ℕ) (content : Text) :
    markerId (shown [.paste n content]) = some (decimal n) := by
  have hmarker := paste_isMarker n content
  have hmatch := hmarker.matches []
  rw [append_nil] at hmatch
  rw [shown_cons, shown_nil, append_nil, markerId,
    if_pos (isPasteMarker_iff.mpr ⟨_, hmarker⟩), hmatch]
  rfl

section
variable (hcol : 0 < e.state.cursorCol) {seg : SegmentData}
  (hseg : (e.segment host e.state.beforeCursor).getLast? = some seg) {start : ℕ}
  (hstart : e.state.cursorCol - seg.segment.length = start)
include hcol hseg hstart

theorem handleBackspace_snapshot : (e.handleBackspace host).snapshot =
    ((match markerId seg.segment with
      | some id => e.removePaste host (number id)
      | none => e).takenOut (.back start)).snapshot := by
  have hsegment : ((e.exitHistoryBrowsing.acted none).pushUndoSnapshot.segment host
      (e.exitHistoryBrowsing.acted none).pushUndoSnapshot.state.beforeCursor).getLast? = some seg :=
    hseg
  rw [handleBackspace, if_pos (show 0 < (e.exitHistoryBrowsing.acted none).state.cursorCol from hcol)]
  dsimp only
  rw [hsegment, takenOut, ← hstart]
  dsimp only
  cases markerId seg.segment <;> rfl

end

theorem renumber_line (n : ℕ) (l : List Piece) :
    (l.flatMap fun piece => [renumbered n piece]) = l.map (renumbered n) :=
  map_eq_flatMap.symm

theorem renumber_lines (n : ℕ) (g : Gap Piece) :
    (Reference.renumber n g).lines = g.lines.map (map (renumbered n)) := by
  rw [Reference.renumber, Gap.flat_lines]
  exact map_congr_left fun l _ => renumber_line n l

variable {n : ℕ}

theorem removePaste_state (h : Holds e.snapshot g) (hremoves : e.RemovesAlone g n) :
    (e.removePaste host n).state = gapState ((Reference.renumber n g).flat Piece.shown) := by
  have hstate : e.state = gapState (g.flat Piece.shown) := h.state
  have hlines : e.state.lines.map (renumberLine host n 0) =
      ((Reference.renumber n g).flat Piece.shown).lines := by
    rw [hstate, gapState_lines, Gap.flat_lines, Gap.flat_lines, renumber_lines, map_map, map_map]
    apply map_congr_left
    intro line hline
    apply renumberLine_shown host (hremoves.above line hline)
    intro m content hmem
    have hitem : .paste m content ∈ g.items := mem_flatten.mpr ⟨line, hline, hmem⟩
    exact (h.number_le hitem).trans hremoves.small
  have hcol : e.state.cursorCol =
      (((Reference.renumber n g).flat Piece.shown).before.length : ℤ) := by
    have hbefore : ((Reference.renumber n g).flat Piece.shown).before =
        shown (g.before.map (renumbered n)) := congrArg shown (renumber_line n g.before)
    rw [h.col, hbefore, hremoves.columns]
  have hline : e.state.cursorLine = ((Reference.renumber n g).flat Piece.shown).above.length := by
    rw [hstate]
    simp [Reference.renumber]
  change (⟨e.state.lines.map (renumberLine host n 0), e.state.cursorLine, e.state.cursorCol⟩ :
    EditorState) = _
  rw [hlines, hcol, hline]
  rfl

theorem renumbered_registered (h : Holds e.snapshot g) {rest : List Piece}
    (hsub : ∀ piece ∈ rest, piece ∈ g.items) (halone : ∀ content, .paste n content ∉ rest) :
    Registered (renumberPastes n e.pastes) (rest.map (renumbered n)) := by
  intro m' content hmem
  obtain ⟨piece, hpiece, heq⟩ := mem_map.mp hmem
  cases piece with
  | char c => cases heq
  | paste m c =>
    rw [renumbered, Piece.paste.injEq] at heq
    obtain ⟨rfl, rfl⟩ := heq
    have hget : Assoc.get m e.pastes = some c := h.registered m c (hsub _ hpiece)
    have hne : m ≠ n := by
      rintro rfl
      exact halone c hpiece
    have hkeys : (Assoc.keys e.pastes).Nodup := h.keys
    rw [get_renumberPastes hkeys]
    split_ifs with hle hlt hlt
    · exact hget
    · omega
    · omega
    · rw [show m - 1 + 1 = m by omega]
      exact hget

theorem renumberPastes_le (h : Holds e.snapshot g) {content : Text}
    (hn : .paste n content ∈ g.items) :
    ∀ m ∈ Assoc.keys (renumberPastes n e.pastes), m ≤ e.pasteCounter - 1 := by
  intro m hm
  have hcounter := h.number_le hn
  have hkey : ∀ k, Assoc.get k e.pastes ≠ none → k ≤ e.pasteCounter := by
    intro k hk
    apply h.numbers
    by_contra hmem
    exact hk ((Assoc.get_eq_none_iff k e.pastes).mpr hmem)
  have hsome : Assoc.get m (renumberPastes n e.pastes) ≠ none := by
    rw [Ne, Assoc.get_eq_none_iff, not_not]
    exact hm
  have hkeys : (Assoc.keys e.pastes).Nodup := h.keys
  rw [get_renumberPastes hkeys] at hsome
  split_ifs at hsome with hlt
  · omega
  · have := hkey (m + 1) hsome
    omega

theorem removePaste_holds (h : Holds e.snapshot g) {content : Text} {kept : List Piece}
    (hbefore : g.before = kept ++ [.paste n content]) (hremoves : e.RemovesAlone g n) :
    Holds ((e.removePaste host n).takenOut (.back (shown kept).length)).snapshot
      ((Reference.renumber n g).without Piece.shown (.char newline)
        (.back (shown kept).length)).1 := by
  have hself : renumbered n (.paste n content) = .paste n content := by
    rw [renumbered, if_pos le_rfl]
  have hbefore' : (Reference.renumber n g).before =
      kept.map (renumbered n) ++ [.paste n content] := by
    have hline := renumber_line n g.before
    rw [Reference.renumber, Gap.flat_before, hline, hbefore, map_append, map_singleton, hself]
  have hlength : (shown kept).length = (shown (kept.map (renumbered n))).length := by
    have hcolumns := hremoves.columns
    rw [hbefore, map_append, map_singleton, hself, shown_append, shown_append,
      length_append, length_append] at hcolumns
    omega
  have hpos : 0 < (e.removePaste host n).state.cursorCol := by
    change 0 < e.state.cursorCol
    have hmarker := (paste_isMarker n content).ten_le
    rw [h.col, hbefore, shown_append, shown_cons, shown_nil, length_append, append_nil]
    omega
  have hrange : (e.removePaste host n).backRange ((shown kept).length : ℤ) =
      .back (shown kept).length := by
    rw [backRange, if_pos hpos, Int.toNat_natCast]
  have htakes : TakesOut (e.removePaste host n) (Reference.renumber n g)
      (.back (shown kept).length) := by
    rw [← hrange]
    apply backRange_takes (removePaste_state h hremoves)
    intro _
    exact ⟨_, _, hbefore', by rw [hlength]⟩
  have hwithout : ((Reference.renumber n g).without Piece.shown (.char newline)
      (.back (shown kept).length)).1 =
        Reference.renumber n ⟨g.above, kept, g.after, g.below⟩ := by
    have hline := renumber_line n kept
    rw [hlength, without_back hbefore', ← hline]
    rfl
  have hitems : (Reference.renumber n ⟨g.above, kept, g.after, g.below⟩).items =
      ((⟨g.above, kept, g.after, g.below⟩ : Gap Piece).items).map (renumbered n) := by
    rw [Gap.items, renumber_lines, ← map_flatten]
    rfl
  have hitem : .paste n content ∈ g.items := by
    rw [Gap.mem_items, hbefore]
    simp
  refine ⟨htakes.state, ?_, nodup_keys_renumberPastes h.keys n, renumberPastes_le h hitem⟩
  rw [hwithout, hitems]
  apply renumbered_registered h
  · intro piece hpiece
    rw [Gap.mem_items] at hpiece ⊢
    rw [hbefore, mem_append]
    grind
  · have halone := hremoves.alone
    rw [hbefore, dropLast_concat] at halone
    exact halone

theorem handleBackspace_holds (h : Holds e.snapshot g) (hparts : e.PartsBefore g (e.segment host))
    (hmarker : ∀ n content, g.before.getLast? = some (.paste n content) → e.RemovesAlone g n) :
    Holds (e.handleBackspace host).snapshot (Reference.backspaced host e g) := by
  by_cases hcol : 0 < e.state.cursorCol
  · have hne := h.before_ne_nil hcol
    have hsegments := hparts hcol
    obtain ⟨kept, group, hbefore, hpart, hlast⟩ := hsegments.last hne
    obtain ⟨seg, hseg, htext⟩ := Option.map_eq_some_iff.mp hlast
    have hlength : lastLength (e.segment host e.state.beforeCursor) = seg.segment.length := by
      rw [lastLength, hseg]
      rfl
    have hstart : e.state.cursorCol - seg.segment.length = ((shown kept).length : ℤ) := by
      rw [h.col, hbefore, htext, shown_append, length_append]
      push_cast
      omega
    have hrange : e.backspaceRange host = .back (shown kept).length := by
      rw [backspaceRange, backRange, if_pos hcol, hlength, hstart, Int.toNat_natCast]
    cases hpart with
    | chars t ht hnot =>
      rw [shown_chars] at htext
      have hbackspaced : Reference.backspaced host e g =
          (g.without Piece.shown (.char newline) (e.backspaceRange host)).1 := by
        obtain ⟨front, c, rfl⟩ := (eq_nil_or_concat' t).resolve_left ht
        have hchar : g.before.getLast? = some (.char c) := by
          rw [hbefore, chars_append, ← append_assoc]
          exact getLast?_concat
        rw [Reference.backspaced, hchar]
      have htakes : TakesOut e g (e.backspaceRange host) := by
        apply backRange_takes h.state
        intro _
        exact ⟨kept, chars t, hbefore, by rw [hlength, hstart]⟩
      rw [hbackspaced, handleBackspace_snapshot hcol hseg hstart, htext, markerId_chars hnot, ← hrange]
      refine h.without htakes rfl ?_ ?_
      · rw [hrange]
        rfl
      · rw [hrange]
        rfl
    | paste n content =>
      have hpaste : g.before.getLast? = some (.paste n content) := by
        rw [hbefore, getLast?_concat]
      rw [handleBackspace_snapshot hcol hseg hstart, htext, markerId_paste, Reference.backspaced, hpaste]
      dsimp only
      rw [number_decimal, hrange]
      exact removePaste_holds h hbefore (hmarker n content hpaste)
  · have hnil : g.before = [] := by
      rw [h.col] at hcol
      exact shown_eq_nil.mp (length_eq_zero_iff.mp (by omega))
    have htakes : TakesOut e g (e.backspaceRange host) :=
      backRange_takes h.state fun hpos => absurd hpos hcol
    have hcol' : ¬0 < (e.exitHistoryBrowsing.acted none).state.cursorCol := hcol
    rw [Reference.backspaced, hnil, getLast?_nil, handleBackspace, if_neg hcol']
    dsimp only
    rw [backspaceRange, backRange, if_neg hcol] at htakes ⊢
    by_cases hline : 0 < e.state.cursorLine
    · rw [if_pos hline] at htakes ⊢
      rw [if_pos (show 0 < (e.exitHistoryBrowsing.acted none).state.cursorLine from hline)]
      exact h.without htakes rfl rfl rfl
    · rw [if_neg hline] at htakes ⊢
      rw [if_neg (show ¬0 < (e.exitHistoryBrowsing.acted none).state.cursorLine from hline)]
      exact h.without htakes rfl rfl rfl

theorem handleForwardDelete_holds (h : Holds e.snapshot g)
    (hparts : e.PartsAfter g (e.segment host)) : Holds (e.handleForwardDelete host).snapshot
      (g.without Piece.shown (.char newline) (e.forwardDeleteRange host)).1 := by
  have htakes : TakesOut e g (e.forwardDeleteRange host) := by
    apply onwardRange_takes h.state
    intro hcol
    obtain ⟨group, kept, hafter, -, hlength⟩ := (hparts hcol).firstLength (h.after_ne_nil hcol)
    exact ⟨group, kept, hafter, by rw [hlength]⟩
  have hcount : e.state.cursorCol + (((e.state.cursorCol +
      (firstLength (e.segment host e.state.afterCursor) : ℤ)) - e.state.cursorCol).toNat : ℤ) =
        e.state.cursorCol + firstLength (e.segment host e.state.afterCursor) := by
    omega
  rw [handleForwardDelete]
  dsimp only
  rw [forwardDeleteRange, onwardRange] at htakes ⊢
  by_cases hcol : e.state.cursorCol < e.state.currentLine.length
  · rw [if_pos hcol] at htakes ⊢
    rw [if_pos (show (e.exitHistoryBrowsing.acted none).state.cursorCol <
      (e.exitHistoryBrowsing.acted none).state.currentLine.length from hcol)]
    refine h.without htakes ?_ rfl rfl
    rw [takenOut, hcount]
    rfl
  · rw [if_neg hcol] at htakes ⊢
    rw [if_neg (show ¬(e.exitHistoryBrowsing.acted none).state.cursorCol <
      (e.exitHistoryBrowsing.acted none).state.currentLine.length from hcol)]
    by_cases hbelow : e.state.cursorLine + 1 < e.state.lines.length
    · rw [if_pos hbelow] at htakes ⊢
      rw [if_pos (show (e.exitHistoryBrowsing.acted none).state.cursorLine + 1 <
        (e.exitHistoryBrowsing.acted none).state.lines.length from hbelow)]
      exact h.without htakes rfl rfl rfl
    · rw [if_neg hbelow] at htakes ⊢
      rw [if_neg (show ¬(e.exitHistoryBrowsing.acted none).state.cursorLine + 1 <
        (e.exitHistoryBrowsing.acted none).state.lines.length from hbelow)]
      exact h.without htakes rfl rfl rfl

/-! ### Kills -/

theorem findWordBackward_fits (h : Holds e.snapshot g)
    (hparts : e.PartsBefore g (e.words host).segment) (hcol : 0 < e.state.cursorCol) :
    ∃ kept removed, g.before = kept ++ removed ∧
      findWordBackward (e.words host) e.state.currentLine e.state.cursorCol =
        (shown kept).length := by
  have hsegments := hparts hcol
  rw [h.before] at hsegments
  rw [h.line, h.col]
  exact findWordBackward_parts hsegments (h.before_ne_nil hcol)

theorem findWordForward_fits (h : Holds e.snapshot g)
    (hparts : e.PartsAfter g (e.words host).segment)
    (hcol : e.state.cursorCol < e.state.currentLine.length) :
    ∃ removed kept, g.after = removed ++ kept ∧
      findWordForward (e.words host) e.state.currentLine e.state.cursorCol =
        e.state.cursorCol + (shown removed).length := by
  have hsegments := hparts hcol
  rw [h.after] at hsegments
  rw [h.line, h.col]
  exact findWordForward_parts hsegments (h.after_ne_nil hcol)

/-- A kill takes units away and puts them on the ring. -/
structure KillHolds (e e' : Editor) (g : Gap Piece) (k : Kill) (r : Gap.Range) : Prop where
  holds : Holds e'.snapshot (g.without Piece.shown (.char newline) r).1
  ring : e'.killRing = e.killRing.push (shown (g.without Piece.shown (.char newline) r).2)
    k.backward e.wasKill
  pastes : e'.pastes = e.pastes
  action : r = .nothing ∨ e'.lastAction = some .kill

theorem KillTakes.holds {e' : Editor} {k : Kill} (hkill : KillTakes e e' k r)
    (h : Holds e.snapshot g) (htakes : TakesOut e g r) : KillHolds e e' g k r := by
  refine ⟨h.without htakes hkill.state hkill.pastes hkill.counter, ?_, hkill.pastes, hkill.action⟩
  rw [hkill.ring, htakes.text]

theorem kill_holds (h : Holds e.snapshot g) (k : Kill)
    (hback : k = .wordBackwards → e.PartsBefore g (e.words host).segment)
    (honward : k = .wordForward → e.PartsAfter g (e.words host).segment) :
    KillHolds e (e.kill host k) g k (e.killRange host k) := by
  cases k with
  | toStartOfLine =>
    apply (deleteToStartOfLine_takes e).holds h
    apply backRange_takes h.state
    exact fun _ => ⟨[], g.before, rfl, rfl⟩
  | toEndOfLine =>
    apply (deleteToEndOfLine_takes h.within).holds h
    apply onwardRange_takes h.state
    intro _
    refine ⟨g.after, [], (append_nil _).symm, ?_⟩
    rw [h.line, h.col, length_append]
    push_cast
    rfl
  | wordBackwards =>
    have hfits := findWordBackward_fits h (hback rfl)
    refine (deleteWordBackwards_takes h.within fun hcol => ?_).holds h
      (backRange_takes h.state hfits)
    obtain ⟨kept, removed, -, hfind⟩ := hfits hcol
    rw [hfind]
    exact Int.natCast_nonneg _
  | wordForward =>
    have hfits := findWordForward_fits h (honward rfl)
    refine (deleteWordForward_takes fun hcol => ?_).holds h (onwardRange_takes h.state hfits)
    obtain ⟨removed, kept, -, hfind⟩ := hfits hcol
    rw [hfind]
    omega

/-! ### Yanks -/

theorem insertYankedText_registry (text : Text) (e : Editor) :
    (e.insertYankedText text).pastes = e.pastes ∧
      (e.insertYankedText text).pasteCounter = e.pasteCounter := by
  rw [insertYankedText]
  split_ifs <;> exact ⟨rfl, rfl⟩

theorem deleteYankedText_registry (e : Editor) : e.deleteYankedText.pastes = e.pastes ∧
    e.deleteYankedText.pasteCounter = e.pasteCounter := by
  rw [deleteYankedText]
  cases e.killRing.peek with
  | none => exact ⟨rfl, rfl⟩
  | some text =>
    dsimp only
    split_ifs <;> exact ⟨rfl, rfl⟩

theorem insertYankedText_shown (h : e.state = gapState (g.flat Piece.shown)) (entry : List Piece) :
    (e.insertYankedText (shown entry)).state =
      gapState ((g.insert (splitPieces entry)).flat Piece.shown) := by
  have hlines : (splitPieces entry).map (flatMap Piece.shown) = splitLines (shown entry) :=
    (splitLines_shown entry).symm
  rw [insertYankedText_gap h, Gap.flat_insert, hlines]

theorem Holds.insertYanked (h : Holds e.snapshot g) {entry : List Piece}
    (hentry : Registered e.pastes entry) :
    Holds (e.insertYankedText (shown entry)).snapshot (g.insert (splitPieces entry)) := by
  obtain ⟨hpastes, hcounter⟩ := insertYankedText_registry (shown entry) e
  apply h.text (insertYankedText_shown h.state entry) hpastes hcounter
  exact Registered.insert h.registered (registered_splitPieces hentry)

/-! ### Completions -/

theorem completedLine_eq (s : EditorState) (item : AutocompleteItem) (typed : Text) :
    completedLine s item typed =
      (sliceTo s.currentLine (s.cursorCol - typed.length) ++ (completion s item typed).1 ++
        adjustedAfterCursor s item typed,
        (sliceTo s.currentLine (s.cursorCol - typed.length)).length +
          (completion s item typed).2) := by
  rw [completedLine, completion]
  dsimp only
  split_ifs
  · simp [add_assoc]
  · simp
  · simp [add_assoc]
  · rfl

theorem completion_offset (s : EditorState) (item : AutocompleteItem) (typed : Text) :
    0 ≤ (completion s item typed).2 ∧
      (completion s item typed).2 ≤ (completion s item typed).1.length := by
  have hoffset : 0 ≤ cursorOffset item ∧ cursorOffset item ≤ item.value.length := by
    rw [cursorOffset]
    split_ifs with hdirectory
    · have := length_pos_of_mem (mem_of_getLast? hdirectory.2)
      omega
    · omega
  rw [completion]
  dsimp only
  split_ifs
  all_goals
    simp only [length_append, length_cons, length_nil]
    omega

theorem adjustedAfterCursor_shown (h : Holds e.snapshot g) (item : AutocompleteItem)
    (typed : Text) : ∃ after, (if adjustedAfterCursor e.state item typed = e.state.afterCursor
      then g.after else g.after.tail) = after ∧
        adjustedAfterCursor e.state item typed = shown after ∧ ∀ piece ∈ after, piece ∈ g.after := by
  have hcases : adjustedAfterCursor e.state item typed = e.state.afterCursor ∨
      adjustedAfterCursor e.state item typed = e.state.afterCursor.tail ∧
        e.state.afterCursor.head? = some 34 := by
    rw [adjustedAfterCursor]
    split_ifs with hquoted
    · exact .inr ⟨rfl, hquoted.2.2⟩
    · exact .inl rfl
  rcases hcases with hsame | ⟨htail, hhead⟩
  · exact ⟨g.after, if_pos hsame, hsame.trans h.after, fun _ hmem => hmem⟩
  · rw [h.after] at htail hhead ⊢
    cases hpieces : g.after with
    | nil =>
      rw [hpieces] at hhead
      cases hhead
    | cons piece more =>
      rw [hpieces] at htail hhead
      cases piece with
      | paste n content =>
        have hbracket : (Piece.paste n content).shown.head? = some 91 := by
          rw [Piece.shown, pasteMarker_eq]
          rfl
        rw [shown_cons, head?_append_of_ne_nil _ (piece_shown_ne_nil _), hbracket] at hhead
        cases hhead
      | char c =>
        have hmore : adjustedAfterCursor e.state item typed = shown more := htail
        refine ⟨more, if_neg ?_, hmore, fun _ hmem => mem_cons_of_mem _ hmem⟩
        rw [hmore]
        exact (cons_ne_self c (shown more)).symm

theorem applyCompletion_holds (h : Holds e.snapshot g) (item : AutocompleteItem) {typed : Text}
    (hfits : ∃ kept removed, g.before = kept ++ removed ∧ (shown removed).length = typed.length) :
    Holds (e.applyCompletion item typed).snapshot (Reference.completed e.state item typed g) := by
  obtain ⟨kept, removed, hbefore, hlength⟩ := hfits
  have hstart : e.state.cursorCol - typed.length = ((shown kept).length : ℤ) := by
    rw [h.col, hbefore, shown_append, length_append, ← hlength]
    push_cast
    omega
  have htyped : sliceTo e.state.currentLine (e.state.cursorCol - typed.length) = shown kept := by
    rw [hstart, h.line, hbefore, shown_append, append_assoc, sliceTo_append]
  have hcut : (Gap.cut Piece.shown (e.state.cursorCol - typed.length).toNat g.before).1 = kept := by
    have hself := Gap.cut_append piece_shown_ne_nil kept removed
    rw [hstart, Int.toNat_natCast, hbefore]
    exact congrArg Prod.fst hself
  obtain ⟨after, hafter, hadjusted, hsub⟩ := adjustedAfterCursor_shown h item typed
  obtain ⟨hnonneg, hle⟩ := completion_offset e.state item typed
  rw [Reference.completed, hcut, hafter]
  generalize hcompletion : completion e.state item typed = completed at hnonneg hle ⊢
  obtain ⟨text, offset⟩ := completed
  dsimp only at hnonneg hle ⊢
  have htake : text.take offset.toNat ++ text.drop offset.toNat = text := take_append_drop _ _
  have hstate : (e.applyCompletion item typed).state =
      gapState ⟨(g.flat Piece.shown).above, shown kept ++ text.take offset.toNat,
        text.drop offset.toNat ++ shown after, (g.flat Piece.shown).below⟩ := by
    have hset := @setLineCol_gap (e.pushUndoSnapshot.acted none) _ h.state
      (shown kept ++ text.take offset.toNat) (text.drop offset.toNat ++ shown after)
      ((shown kept).length + offset) (by
        rw [length_append, length_take]
        push_cast
        omega)
    rw [applyCompletion]
    change (((e.pushUndoSnapshot.acted none).setLine (completedLine e.state item typed).1).setCursorCol
      (completedLine e.state item typed).2).state = _
    rw [completedLine_eq, hcompletion, htyped, hadjusted]
    dsimp only
    rw [append_assoc, ← append_assoc (text.take _), htake] at hset
    rw [append_assoc]
    exact hset
  refine @Holds.text e (e.applyCompletion item typed) _ _ h ?_ rfl rfl ?_
  · rw [hstate]
    have hfront : shown (kept ++ chars (text.take offset.toNat)) =
        shown kept ++ text.take offset.toNat := by
      rw [shown_append, shown_chars]
    have hback : shown (chars (text.drop offset.toNat) ++ after) =
        text.drop offset.toNat ++ shown after := by
      rw [shown_append, shown_chars]
    rw [← hfront, ← hback]
    rfl
  · intro n content hmem
    apply h.registered
    have hfirst := @paste_not_mem_chars n content (text.take offset.toNat)
    have hsecond := @paste_not_mem_chars n content (text.drop offset.toNat)
    have hin := hsub (.paste n content)
    simp only [Gap.mem_items, mem_append, hbefore] at hmem ⊢
    grind

end KnightCode.Editor
