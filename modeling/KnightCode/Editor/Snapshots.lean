import KnightCode.Editor.Acts
import KnightCode.Editor.VerticalMoves

/-!
# What is beside the text

Whatever an operation does to the lines, it leaves the undo stack as it is or pushes the text,
cursor, registry and counter it has found.
-/

namespace KnightCode.Editor

open List

/-- The editor without its text, its cursor and the paste registry. -/
structure Beside where
  lastWidth : ℕ
  history : List Text
  historyIndex : ℤ
  historyDraft : Option EditorState
  killRing : KillRing
  lastAction : Option LastAction
  undoStack : List EditorSnapshot

def beside (e : Editor) : Beside :=
  { e with }

variable {e e' : Editor}

@[simp] theorem setCursorCol_beside (col : ℤ) : (e.setCursorCol col).beside = e.beside := rfl

@[simp] theorem place_beside (lines : List Text) (cursorLine : ℕ) (col : ℤ) :
    (e.place lines cursorLine col).beside = e.beside := rfl

@[simp] theorem mergeWithPrevious_beside : e.mergeWithPrevious.beside = e.beside := rfl

@[simp] theorem mergeWithNext_beside : e.mergeWithNext.beside = e.beside := rfl

variable {act : Act} {acts : List Act} (text : Text)

@[simp] theorem insertTextAtCursorInternal_beside :
    (e.insertTextAtCursorInternal text).beside = e.beside := by
  rw [insertTextAtCursorInternal]
  dsimp only
  split_ifs <;> rfl

@[simp] theorem insertYankedText_beside :
    (e.insertYankedText text).beside = e.exitHistoryBrowsing.beside := by
  rw [insertYankedText]
  split_ifs <;> rfl

@[simp] theorem deleteYankedText_beside : e.deleteYankedText.beside = e.beside := by
  rw [deleteYankedText]
  cases e.killRing.peek with
  | none => rfl
  | some text =>
    dsimp only
    split_ifs <;> rfl

@[simp] theorem moveWordBackwards_beside (host : Host) :
    (e.moveWordBackwards host).beside = (e.acted none).beside := by
  rw [moveWordBackwards]
  split_ifs <;> rfl

@[simp] theorem moveWordForwards_beside (host : Host) :
    (e.moveWordForwards host).beside = (e.acted none).beside := by
  rw [moveWordForwards]
  split_ifs <;> rfl

/-! ### The ring's entries -/

namespace KillRing

theorem push_entries {ring : KillRing} (h : [] ∉ ring) (text : Text) (prepend accumulate : Bool) :
    [] ∉ push ring text prepend accumulate := by
  by_cases hnil : text = []
  · rw [hnil, push_nil]
    exact h
  · cases accumulate with
    | false =>
      rw [push_fresh, if_neg hnil]
      simp [h, Ne.symm hnil]
    | true =>
      rcases eq_nil_or_concat' ring with rfl | ⟨ring, last, rfl⟩
      · rw [push_empty, if_neg hnil]
        simp [Ne.symm hnil]
      · rw [push_onto]
        simp only [mem_append, mem_singleton, not_or] at h ⊢
        refine ⟨h.1, ?_⟩
        split_ifs
        · simp [hnil]
        · simp [hnil]

theorem mem_rotate {ring : KillRing} {text : Text} (h : text ∈ ring.rotate) : text ∈ ring := by
  rw [rotate] at h
  cases hlast : ring.getLast? with
  | none =>
    rw [hlast] at h
    exact h
  | some last =>
    rw [hlast] at h
    rcases mem_cons.mp h with rfl | h
    · exact mem_of_getLast? hlast
    · exact dropLast_subset ring h

end KillRing

/-! ### What an operation may do there -/

/-- At most one snapshot is pushed, and it is that of before the operation; so is a draft kept. No
entry of the ring is empty, and no width is zero, that was not before. -/
structure Tame (e e' : Editor) : Prop where
  undoStack : e'.undoStack = e.undoStack ∨ e'.undoStack = e.undoStack ++ [e.snapshot]
  draft : e'.historyDraft = e.historyDraft ∨ e'.historyDraft = none ∨
    e'.historyDraft = some e.state
  width : e'.lastWidth = e.lastWidth ∨ 1 ≤ e'.lastWidth
  entries : [] ∉ e.killRing → [] ∉ e'.killRing

namespace Tame

theorem refl (e : Editor) : Tame e e :=
  ⟨.inl rfl, .inl rfl, .inl rfl, id⟩

theorem of_beside {e'' : Editor} (h : Tame e e') (heq : e''.beside = e'.beside) : Tame e e'' := by
  have hstack : e''.undoStack = e'.undoStack := congrArg Beside.undoStack heq
  have hdraft : e''.historyDraft = e'.historyDraft := congrArg Beside.historyDraft heq
  have hwidth : e''.lastWidth = e'.lastWidth := congrArg Beside.lastWidth heq
  have hring : e''.killRing = e'.killRing := congrArg Beside.killRing heq
  refine ⟨?_, ?_, ?_, ?_⟩
  · rw [hstack]
    exact h.undoStack
  · rw [hdraft]
    exact h.draft
  · rw [hwidth]
    exact h.width
  · rw [hring]
    exact h.entries

theorem acted (h : Tame e e') (action : Option LastAction) : Tame e (e'.acted action) :=
  { h with }

theorem exits (h : Tame e e') : Tame e e'.exitHistoryBrowsing :=
  ⟨h.undoStack, .inr (.inl rfl), h.width, h.entries⟩

theorem pushes (h : Tame e e') (hstack : e'.undoStack = e.undoStack)
    (hsnapshot : e'.snapshot = e.snapshot) : Tame e e'.pushUndoSnapshot := by
  refine ⟨.inr ?_, h.draft, h.width, h.entries⟩
  rw [pushUndoSnapshot, hstack, hsnapshot]

theorem killed (h : Tame e e') (text : Text) (backward wasKill : Bool) :
    Tame e (e'.killed text backward wasKill) := by
  refine ⟨h.undoStack, h.draft, h.width, fun hentries => ?_⟩
  exact KillRing.push_entries (h.entries hentries) text backward wasKill

end Tame

/-- Nothing a yank-pop goes by is different, or the last action is no yank. -/
structure Idle (e e' : Editor) : Prop where
  same : e'.lastAction = some .yank → e.lastAction = some .yank ∧ e'.state = e.state ∧
    e'.killRing = e.killRing ∧ e'.pastes = e.pastes

theorem Idle.refl (e : Editor) : Idle e e :=
  ⟨fun h => ⟨h, rfl, rfl, rfl⟩⟩

theorem Idle.of_action (h : e'.lastAction ≠ some .yank) : Idle e e' :=
  ⟨fun hyank => absurd hyank h⟩

theorem Idle.of_none (h : e'.lastAction = none) : Idle e e' :=
  .of_action (h.trans_ne (Option.some_ne_none _).symm)

/-- Besides, the ring is as it was. -/
structure Quiet (e e' : Editor) : Prop extends Tame e e' where
  ring : e'.killRing = e.killRing
  idle : Idle e e'

/-- Besides, the registry is as it was. -/
structure Moved (e e' : Editor) : Prop extends Quiet e e' where
  pastes : e'.pastes = e.pastes
  counter : e'.pasteCounter = e.pasteCounter

theorem Quiet.refl (e : Editor) : Quiet e e :=
  ⟨.refl e, rfl, .refl e⟩

theorem Moved.refl (e : Editor) : Moved e e :=
  ⟨.refl e, rfl, rfl⟩

theorem Quiet.of_tame (h : Tame e e') (hring : e'.killRing = e.killRing)
    (haction : e'.lastAction = none) : Quiet e e' :=
  ⟨h, hring, .of_none haction⟩

theorem Moved.of_tame (h : Tame e e') (hring : e'.killRing = e.killRing)
    (haction : e'.lastAction = none) (hpastes : e'.pastes = e.pastes)
    (hcounter : e'.pasteCounter = e.pasteCounter) : Moved e e' :=
  ⟨.of_tame h hring haction, hpastes, hcounter⟩

theorem acted_moved (e : Editor) : Moved e (e.acted none) :=
  .of_tame ((Tame.refl e).acted none) rfl rfl rfl rfl

theorem OnlyCursor.moved (h : OnlyCursor (e.acted none) e') : Moved e e' := by
  obtain ⟨_, _, _, _, rfl⟩ := h
  exact .of_tame (((Tame.refl e).acted none).of_beside rfl) rfl rfl rfl rfl

variable (host : Host)

/-! ### Edits -/

theorem insertCharacter_quiet (char : Text) (e : Editor) : Quiet e (e.insertCharacter char) := by
  rw [insertCharacter]
  split_ifs
  · exact ⟨(((Tame.refl e).exits.pushes rfl rfl).acted _).of_beside rfl, rfl, .of_action nofun⟩
  · exact ⟨((Tame.refl e).exits.acted _).of_beside rfl, rfl, .of_action nofun⟩

theorem insertInternal_quiet {text : Text} (h : Tame e e') (hring : e'.killRing = e.killRing)
    (haction : e'.lastAction = none) : Quiet e (e'.insertTextAtCursorInternal text) := by
  have hbeside := insertTextAtCursorInternal_beside (e := e') text
  exact .of_tame (h.of_beside hbeside) ((congrArg Beside.killRing hbeside).trans hring)
    ((congrArg Beside.lastAction hbeside).trans haction)

theorem handlePaste_quiet (e : Editor) : Quiet e (e.handlePaste text) := by
  have hpushed : Tame e (e.exitHistoryBrowsing.acted none).pushUndoSnapshot :=
    ((Tame.refl e).exits.acted none).pushes rfl rfl
  rw [handlePaste]
  dsimp only
  split_ifs
  · apply insertInternal_quiet
    · exact hpushed.of_beside rfl
    · rfl
    · rfl
  · exact insertInternal_quiet hpushed rfl rfl

theorem addNewLine_quiet (e : Editor) : Quiet e e.addNewLine :=
  .of_tame ((((Tame.refl e).exits.acted none).pushes rfl rfl).of_beside rfl) rfl rfl

theorem handleBackspace_quiet (e : Editor) : Quiet e (e.handleBackspace host) := by
  have hacted : Tame e (e.exitHistoryBrowsing.acted none) := (Tame.refl e).exits.acted none
  have hpushed := hacted.pushes rfl rfl
  rw [handleBackspace]
  dsimp only
  split_ifs
  · cases ((e.exitHistoryBrowsing.acted none).pushUndoSnapshot.segment host _).getLast? with
    | none => exact .of_tame hpushed rfl rfl
    | some seg =>
      dsimp only
      cases markerId seg.segment with
      | none | some id => exact .of_tame (hpushed.of_beside rfl) rfl rfl
  · exact .of_tame (hpushed.of_beside rfl) rfl rfl
  · exact .of_tame hacted rfl rfl

theorem handleForwardDelete_quiet (e : Editor) : Quiet e (e.handleForwardDelete host) := by
  have hacted : Tame e (e.exitHistoryBrowsing.acted none) := (Tame.refl e).exits.acted none
  have hpushed := hacted.pushes rfl rfl
  rw [handleForwardDelete]
  dsimp only
  split_ifs
  · exact .of_tame (hpushed.of_beside rfl) rfl rfl
  · exact .of_tame (hpushed.of_beside rfl) rfl rfl
  · exact .of_tame hacted rfl rfl

theorem setText_quiet (e : Editor) : Quiet e (e.setText text) := by
  have hexits : Tame e (e.acted none).exitHistoryBrowsing := ((Tame.refl e).acted none).exits
  have hpushed := hexits.pushes rfl rfl
  rw [setText, setTextInternal, if_neg Bool.false_ne_true]
  split_ifs
  · exact .of_tame (hpushed.of_beside rfl) rfl rfl
  · exact .of_tame (hexits.of_beside rfl) rfl rfl

theorem insertTextAtCursor_quiet (e : Editor) : Quiet e (e.insertTextAtCursor text) := by
  rw [insertTextAtCursor]
  split_ifs
  · exact .refl e
  · exact insertInternal_quiet (((Tame.refl e).pushes rfl rfl).acted none).exits rfl rfl

/-! ### Kills and yanks -/

theorem kill_cases (k : Kill) (e : Editor) : e.kill host k = e.exitHistoryBrowsing ∨
    Tame e (e.kill host k) ∧ (e.kill host k).lastAction = some .kill := by
  have hpushed := (Tame.refl e).exits.pushes rfl rfl
  cases k with
  | toStartOfLine =>
    rw [kill, deleteToStartOfLine]
    split_ifs
    · exact .inr ⟨(hpushed.killed _ _ _).of_beside rfl, rfl⟩
    · exact .inr ⟨(hpushed.killed _ _ _).of_beside mergeWithPrevious_beside, rfl⟩
    · exact .inl rfl
  | toEndOfLine =>
    rw [kill, deleteToEndOfLine]
    split_ifs
    · exact .inr ⟨(hpushed.killed _ _ _).of_beside rfl, rfl⟩
    · exact .inr ⟨(hpushed.killed _ _ _).of_beside mergeWithNext_beside, rfl⟩
    · exact .inl rfl
  | wordBackwards =>
    rw [kill, deleteWordBackwards]
    dsimp only
    split_ifs
    · exact .inr ⟨(hpushed.killed _ _ _).of_beside mergeWithPrevious_beside, rfl⟩
    · exact .inl rfl
    · have hmoved := (hpushed.acted none).of_beside (moveWordBackwards_beside host)
      exact .inr ⟨((hmoved.of_beside (setCursorCol_beside _)).killed _ _ _).of_beside rfl, rfl⟩
  | wordForward =>
    rw [kill, deleteWordForward]
    dsimp only
    split_ifs
    · exact .inr ⟨(hpushed.killed _ _ _).of_beside mergeWithNext_beside, rfl⟩
    · exact .inl rfl
    · have hmoved := (hpushed.acted none).of_beside (moveWordForwards_beside host)
      exact .inr ⟨((hmoved.of_beside (setCursorCol_beside _)).killed _ _ _).of_beside rfl, rfl⟩

theorem yank_tame (e : Editor) : Tame e e.yank := by
  rw [yank]
  cases e.killRing.peek with
  | none => exact .refl e
  | some text =>
    have hpushed : Tame e e.pushUndoSnapshot := (Tame.refl e).pushes rfl rfl
    exact (hpushed.exits.of_beside (insertYankedText_beside text)).acted _

theorem yankPop_tame (e : Editor) : Tame e e.yankPop := by
  rw [yankPop]
  dsimp only
  split_ifs
  · exact .refl e
  · have hdeleted : Tame e e.pushUndoSnapshot.deleteYankedText :=
      ((Tame.refl e).pushes rfl rfl).of_beside deleteYankedText_beside
    have hrotated : Tame e { e.pushUndoSnapshot.deleteYankedText with
        killRing := e.pushUndoSnapshot.deleteYankedText.killRing.rotate } :=
      ⟨hdeleted.undoStack, hdeleted.draft, hdeleted.width,
        fun hentries hmem => hdeleted.entries hentries (KillRing.mem_rotate hmem)⟩
    exact (hrotated.exits.of_beside (insertYankedText_beside _)).acted _

/-! ### Moves -/

theorem MovesTo.moved (h : MovesTo host e e') : Moved e e' := by
  cases h with
  | stays => exact acted_moved e
  | goes _ target => exact (moveToVisualLine_onlyCursor host _ _ _ _).moved

theorem setTextInternal_moved (h : Moved e e') (haction : e'.lastAction = none) {text : Text}
    {atStart : Bool} : Moved e (e'.setTextInternal text atStart) := by
  rw [setTextInternal]
  split_ifs
  · exact .of_tame (h.toTame.of_beside rfl) h.ring haction h.pastes h.counter
  · exact .of_tame (h.toTame.of_beside rfl) h.ring haction h.pastes h.counter

theorem showHistory_moved (h : Moved e e') (haction : e'.lastAction = none)
    (newIndex direction : ℤ) : Moved e (e'.showHistory newIndex direction) := by
  have hshown : Tame e { e' with historyIndex := newIndex } :=
    { h with }
  have hdropped : Tame e { e' with historyIndex := newIndex, historyDraft := none } :=
    ⟨h.undoStack, .inr (.inl rfl), h.width, h.entries⟩
  rw [showHistory]
  dsimp only
  split_ifs
  · cases e'.historyDraft with
    | none =>
      exact setTextInternal_moved (.of_tame hdropped h.ring haction h.pastes h.counter) haction
    | some draft => exact .of_tame (hdropped.of_beside rfl) h.ring haction h.pastes h.counter
  · exact setTextInternal_moved (.of_tame hshown h.ring haction h.pastes h.counter) haction

theorem navigateHistory_moved (direction : ℤ) (e : Editor) :
    Moved e (e.navigateHistory direction) := by
  have hpushed := ((Tame.refl e).acted none).pushes rfl rfl
  have hdraft : Moved e (e.acted none).keepDraft :=
    .of_tame ⟨hpushed.undoStack, .inr (.inr rfl), hpushed.width, hpushed.entries⟩ rfl rfl rfl rfl
  rw [navigateHistory]
  split_ifs
  · exact acted_moved e
  · exact showHistory_moved hdraft rfl _ _
  · exact showHistory_moved (acted_moved e) rfl _ _

theorem cursorUp_moved (e : Editor) : Moved e (e.cursorUp host) := by
  rw [cursorUp]
  cases e.buildVisualLineMap host with
  | none => exact .refl e
  | some visualLines =>
    dsimp only
    split_ifs
    · exact navigateHistory_moved _ e
    · exact .of_tame (((Tame.refl e).acted none).of_beside rfl) rfl rfl rfl rfl
    · exact (moveVertically_movesTo host _ e).moved

theorem cursorDown_moved (e : Editor) : Moved e (e.cursorDown host) := by
  rw [cursorDown]
  cases e.buildVisualLineMap host with
  | none => exact .refl e
  | some visualLines =>
    dsimp only
    split_ifs
    · exact navigateHistory_moved _ e
    · exact .of_tame (((Tame.refl e).acted none).of_beside rfl) rfl rfl rfl rfl
    · exact (moveVertically_movesTo host _ e).moved

theorem moveRight_moved (e : Editor) : Moved e (e.moveRight host) := by
  have hacted : Tame e (e.acted none) := (Tame.refl e).acted none
  rw [moveRight]
  cases (e.acted none).buildVisualLineMap host with
  | none => exact .of_tame hacted rfl rfl rfl rfl
  | some visualLines =>
    dsimp only
    split_ifs
    · exact .of_tame (hacted.of_beside rfl) rfl rfl rfl rfl
    · exact .of_tame (hacted.of_beside rfl) rfl rfl rfl rfl
    · cases visualLines[(e.acted none).findCurrentVisualLine visualLines]? with
      | none => exact .of_tame hacted rfl rfl rfl rfl
      | some currentVL => exact .of_tame (hacted.of_beside rfl) rfl rfl rfl rfl

theorem moveLeft_moved (e : Editor) : Moved e (e.moveLeft host) := by
  have hacted : Tame e (e.acted none) := (Tame.refl e).acted none
  rw [moveLeft]
  cases (e.acted none).buildVisualLineMap host with
  | none => exact .of_tame hacted rfl rfl rfl rfl
  | some visualLines =>
    dsimp only
    split_ifs
    · exact .of_tame (hacted.of_beside rfl) rfl rfl rfl rfl
    · exact .of_tame (hacted.of_beside rfl) rfl rfl rfl rfl
    · exact .of_tame hacted rfl rfl rfl rfl

theorem moveWordBackwards_moved (e : Editor) : Moved e (e.moveWordBackwards host) := by
  have htame := ((Tame.refl e).acted none).of_beside (moveWordBackwards_beside host)
  rw [moveWordBackwards] at htame ⊢
  split_ifs at htame ⊢ <;> exact .of_tame htame rfl rfl rfl rfl

theorem moveWordForwards_moved (e : Editor) : Moved e (e.moveWordForwards host) := by
  have htame := ((Tame.refl e).acted none).of_beside (moveWordForwards_beside host)
  rw [moveWordForwards] at htame ⊢
  split_ifs at htame ⊢ <;> exact .of_tame htame rfl rfl rfl rfl

theorem click_moved (visualLineIndex targetColumn : ℕ) (e : Editor) :
    Moved e (e.click host visualLineIndex targetColumn) := by
  rw [click]
  cases e.clickTarget host visualLineIndex targetColumn with
  | none => exact .refl e
  | some target =>
    have hacted := ((Tame.refl e).acted none).exits
    exact .of_tame (hacted.of_beside rfl) rfl rfl rfl rfl

theorem jumpToChar_moved (char : Text) (forward : Bool) (e : Editor) :
    Moved e (e.jumpToChar char forward) := by
  rw [jumpToChar]
  cases jumpTarget (e.acted none).state char forward with
  | none => exact acted_moved e
  | some found =>
    have hacted := (Tame.refl e).acted none
    exact .of_tame (hacted.of_beside (place_beside _ _ _)) rfl rfl rfl rfl

theorem addToHistory_moved (e : Editor) : Moved e (e.addToHistory text) := by
  rw [addToHistory]
  split_ifs
  · exact .refl e
  · exact ⟨⟨⟨.inl rfl, .inl rfl, .inl rfl, id⟩, rfl, ⟨fun h => ⟨h, rfl, rfl, rfl⟩⟩⟩, rfl, rfl⟩

theorem render_moved (layoutWidth : ℕ) (e : Editor) : Moved e (e.render layoutWidth) :=
  ⟨⟨⟨.inl rfl, .inl rfl, .inr (Nat.le_max_left _ _), id⟩, rfl, ⟨fun h => ⟨h, rfl, rfl, rfl⟩⟩⟩,
    rfl, rfl⟩

/-! ### Steps -/

/-- The act moves the cursor, or does nothing to the text. -/
def IsMove : Act → Prop
  | .cursorUp | .cursorDown | .cursorLeft | .cursorRight | .cursorLineStart | .cursorLineEnd
  | .cursorWordLeft | .cursorWordRight | .pageScroll _ _ | .click _ _ | .jumpToChar _ _
  | .navigateHistory _ | .addToHistory _ | .render _ => True
  | _ => False

theorem step_moved (e : Editor) (h : IsMove act) : Moved e (e.step host act) := by
  cases act with
  | cursorUp => exact cursorUp_moved host e
  | cursorDown => exact cursorDown_moved host e
  | cursorLeft => exact moveLeft_moved host e
  | cursorRight => exact moveRight_moved host e
  | cursorLineStart => exact .of_tame (((Tame.refl e).acted none).of_beside rfl) rfl rfl rfl rfl
  | cursorLineEnd => exact .of_tame (((Tame.refl e).acted none).of_beside rfl) rfl rfl rfl rfl
  | cursorWordLeft => exact moveWordBackwards_moved host e
  | cursorWordRight => exact moveWordForwards_moved host e
  | pageScroll direction pageSize => exact (pageScroll_movesTo host direction pageSize e).moved
  | click visualLineIndex targetColumn => exact click_moved host visualLineIndex targetColumn e
  | jumpToChar char forward => exact jumpToChar_moved char forward e
  | navigateHistory direction => exact navigateHistory_moved direction e
  | addToHistory text => exact addToHistory_moved text e
  | render layoutWidth => exact render_moved layoutWidth e
  | _ => exact h.elim

/-- The act is no kill, and takes no entry of the ring and no snapshot. -/
def IsQuiet : Act → Prop
  | .kill _ | .yank | .yankPop | .undo | .submit => False
  | _ => True

theorem isQuiet_or (act : Act) : IsQuiet act ∨ (∃ k, act = .kill k) ∨ act = .yank ∨
    act = .yankPop ∨ act = .undo ∨ act = .submit := by
  cases act with
  | kill k => exact .inr (.inl ⟨k, rfl⟩)
  | yank => exact .inr (.inr (.inl rfl))
  | yankPop => exact .inr (.inr (.inr (.inl rfl)))
  | undo => exact .inr (.inr (.inr (.inr (.inl rfl))))
  | submit => exact .inr (.inr (.inr (.inr (.inr rfl))))
  | _ => exact .inl trivial

theorem step_quiet (e : Editor) (h : IsQuiet act) : Quiet e (e.step host act) := by
  by_cases hmove : IsMove act
  · exact (step_moved host e hmove).toQuiet
  · cases act with
    | insertCharacter char => exact insertCharacter_quiet char e
    | paste text => exact handlePaste_quiet text e
    | addNewLine => exact addNewLine_quiet e
    | backspace => exact handleBackspace_quiet host e
    | forwardDelete => exact handleForwardDelete_quiet host e
    | setText text => exact setText_quiet text e
    | insertTextAtCursor text => exact insertTextAtCursor_quiet text e
    | applyCompletion item typed =>
      exact .of_tame ((((Tame.refl e).pushes rfl rfl).acted none).of_beside rfl) rfl rfl
    | kill k | yank | yankPop | undo | submit => exact h.elim
    | _ => exact absurd trivial hmove

theorem step_tame (e : Editor) (hundo : act ≠ .undo) (hsubmit : act ≠ .submit) :
    Tame e (e.step host act) := by
  rcases isQuiet_or act with hquiet | ⟨k, rfl⟩ | rfl | rfl | rfl | rfl
  · exact (step_quiet host e hquiet).toTame
  · rcases kill_cases host k e with hnothing | ⟨htame, -⟩
    · rw [step, hnothing]
      exact (Tame.refl e).exits
    · exact htame
  · exact yank_tame e
  · exact yankPop_tame e
  · exact absurd rfl hundo
  · exact absurd rfl hsubmit

theorem step_idle (e : Editor) (hyank : act ≠ .yank) (hpop : act ≠ .yankPop) :
    Idle e (e.step host act) := by
  rcases isQuiet_or act with hquiet | ⟨k, rfl⟩ | rfl | rfl | rfl | rfl
  · exact (step_quiet host e hquiet).idle
  · rw [step]
    rcases kill_cases host k e with hnothing | ⟨-, haction⟩
    · rw [hnothing]
      exact ⟨fun h => ⟨h, rfl, rfl, rfl⟩⟩
    · exact .of_action (by rw [haction]; exact nofun)
  · exact absurd rfl hyank
  · exact absurd rfl hpop
  · rw [step, undo]
    cases e.exitHistoryBrowsing.undoStack.getLast? with
    | none => exact ⟨fun h => ⟨h, rfl, rfl, rfl⟩⟩
    | some snapshot => exact .of_none rfl
  · exact .of_none rfl

/-! ### Undo -/

/-- No undo and no submission is among the acts. -/
def Keeps (acts : List Act) : Prop :=
  .undo ∉ acts ∧ .submit ∉ acts

theorem Keeps.cons (h : Keeps (act :: acts)) : act ≠ .undo ∧ act ≠ .submit ∧ Keeps acts := by
  rw [Keeps, mem_cons, mem_cons, not_or, not_or] at h
  exact ⟨fun heq => h.1.1 heq.symm, fun heq => h.2.1 heq.symm, h.1.2, h.2.2⟩

theorem run_undoStack (e : Editor) (hkeeps : Keeps acts) :
    e.undoStack <+: (e.run host acts).undoStack := by
  induction acts generalizing e with
  | nil => exact prefix_rfl
  | cons act acts ih =>
    obtain ⟨hundo, hsubmit, hrest⟩ := hkeeps.cons
    have hstep : e.undoStack <+: (e.step host act).undoStack := by
      rcases (step_tame host e hundo hsubmit).undoStack with hsame | hpushed
      · rw [hsame]
      · rw [hpushed]
        exact prefix_append _ _
    exact hstep.trans (ih (e.step host act) hrest)

theorem undo_snapshot {stack : List EditorSnapshot} {snapshot : EditorSnapshot}
    (h : e.undoStack = stack ++ [snapshot]) : e.undo.snapshot = snapshot := by
  have hlast : e.exitHistoryBrowsing.undoStack.getLast? = some snapshot := by
    change e.undoStack.getLast? = some snapshot
    rw [h, getLast?_concat]
  rw [undo, hlast]
  rfl

theorem undo_run (e : Editor) (hkeeps : Keeps acts)
    (hone : (e.run host acts).undoStack.length = e.undoStack.length + 1) :
    ∃ before act after, acts = before ++ act :: after ∧
      (e.run host before).undoStack = e.undoStack ∧
      (e.run host acts).undo.snapshot = (e.run host before).snapshot := by
  induction acts generalizing e with
  | nil => exact absurd hone (Nat.succ_ne_self _).symm
  | cons act acts ih =>
    obtain ⟨hundo, hsubmit, hrest⟩ := hkeeps.cons
    rcases (step_tame host e hundo hsubmit).undoStack with hsame | hpushed
    · have hone' : ((e.step host act).run host acts).undoStack.length =
          (e.step host act).undoStack.length + 1 := by
        rw [hsame]
        exact hone
      obtain ⟨before, first, after, rfl, hstack, hback⟩ := ih (e.step host act) hrest hone'
      exact ⟨act :: before, first, after, rfl, hstack.trans hsame, hback⟩
    · refine ⟨[], act, acts, rfl, rfl, ?_⟩
      have hprefix := run_undoStack host (e.step host act) hrest
      rw [hpushed] at hprefix
      have hlast := hprefix.eq_of_length (by rw [length_append]; exact hone.symm)
      exact undo_snapshot hlast.symm

end KnightCode.Editor
