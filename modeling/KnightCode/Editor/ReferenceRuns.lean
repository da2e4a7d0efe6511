import KnightCode.Editor.CursorRuns
import KnightCode.Editor.ReferenceMoves

/-!
# Runs of the editor and of the reference

The editor stands for the reference when its text and registry hold the reference's gap, its
kill ring shows the reference's, and its snapshots hold those of the reference. An act that finds
what it needs keeps that.
-/

namespace KnightCode.Editor

open List Option

variable {host : Host} {e : Editor} {r : Reference}

/-- The editor shows what the reference has, and knows its pastes. -/
structure Mirrors (e : Editor) (r : Reference) : Prop where
  now : Holds e.snapshot r.gap
  ring : e.killRing = r.killRing.map shown
  undo : List.Forall₂ Holds e.undoStack r.undoStack
  yanked : e.lastAction = some .yank → ∃ entry, r.killRing.getLast? = some entry ∧
    e.state = gapState ((r.yankedAt.insert (splitPieces entry)).flat Piece.shown) ∧
    Registered e.pastes r.yankedAt.items

theorem Mirrors.peek (h : Mirrors e r) : e.killRing.peek = r.killRing.getLast?.map shown := by
  rw [KillRing.peek, h.ring, getLast?_map]

theorem Mirrors.popsNothing (h : Mirrors e r) :
    r.popsNothing e ↔ e.lastAction ≠ some .yank ∨ e.killRing.length ≤ 1 := by
  rw [Reference.popsNothing, h.ring, length_map]

/-! ### The kill ring -/

theorem push_shown (ring : List (List Piece)) (removed : List Piece) (prepend accumulate : Bool) :
    (Reference.push ring removed prepend accumulate).map shown =
      KillRing.push (ring.map shown) (shown removed) prepend accumulate := by
  by_cases hnil : removed = []
  · have hsame : Reference.push ring removed prepend accumulate = ring := if_pos hnil
    rw [hsame, hnil, shown_nil, KillRing.push_nil]
  · have hshown : shown removed ≠ [] := fun h => hnil (shown_eq_nil.mp h)
    cases accumulate with
    | false =>
      rw [KillRing.push_fresh, if_neg hshown]
      simp [Reference.push, hnil]
    | true =>
      rcases eq_nil_or_concat' ring with rfl | ⟨ring, last, rfl⟩
      · rw [map_nil, KillRing.push_empty, if_neg hshown]
        simp [Reference.push, hnil]
      · rw [map_append, map_singleton, KillRing.push_onto]
        cases prepend <;> simp [Reference.push, hnil]

theorem rotate_shown (ring : List (List Piece)) :
    (Reference.rotate ring).map shown = KillRing.rotate (ring.map shown) := by
  rw [Reference.rotate, KillRing.rotate, getLast?_map]
  cases ring.getLast? with
  | none => rfl
  | some last => simp [map_dropLast]

variable {act : Act}

theorem step_killRing (host : Host) (e : Editor) (hkill : ∀ k, act ≠ .kill k)
    (hpop : act ≠ .yankPop) : (e.step host act).killRing = e.killRing := by
  rcases isQuiet_or act with hquiet | ⟨k, rfl⟩ | rfl | rfl | rfl | rfl
  · exact (step_quiet host e hquiet).ring
  · exact absurd rfl (hkill k)
  · rw [step, yank]
    cases e.killRing.peek with
    | none => rfl
    | some text => exact insertYankedText_killRing text e.pushUndoSnapshot
  · exact absurd rfl hpop
  · exact (undo_beside e).2.2.1
  · rfl

theorem Mirrors.kill (h : Mirrors e r) {k : Kill} (hmeets : r.Meets host e (.kill k)) :
    KillHolds e (e.kill host k) r.gap k (e.killRange host k) := by
  apply kill_holds h.now
  · rintro rfl
    exact hmeets
  · rintro rfl
    exact hmeets

theorem Mirrors.step_ring (h : Mirrors e r) (hmeets : r.Meets host e act) :
    (e.step host act).killRing = (r.ringAfter host e act).map shown := by
  by_cases hkill : ∃ k, act = .kill k
  · obtain ⟨k, rfl⟩ := hkill
    rw [Reference.ringAfter, push_shown, ← h.ring]
    exact (h.kill hmeets).ring
  · by_cases hpop : act = .yankPop
    · subst hpop
      rw [Reference.ringAfter, step, yankPop]
      by_cases hnothing : r.popsNothing e
      · rw [if_pos hnothing, if_pos (h.popsNothing.mp hnothing)]
        exact h.ring
      · rw [if_neg hnothing, if_neg (h.popsNothing.not.mp hnothing), rotate_shown, ← h.ring]
        dsimp only
        refine (insertYankedText_killRing _ _).trans ?_
        exact congrArg KillRing.rotate (deleteYankedText_killRing e.pushUndoSnapshot)
    · have hsame : r.ringAfter host e act = r.killRing := by
        cases act with
        | kill k => exact absurd ⟨k, rfl⟩ hkill
        | yankPop => exact absurd rfl hpop
        | _ => rfl
      rw [hsame, step_killRing host e (fun k heq => hkill ⟨k, heq⟩) hpop]
      exact h.ring

/-! ### The text -/

theorem Mirrors.yank (h : Mirrors e r) (hmeets : r.Meets host e .yank) :
    Holds e.yank.snapshot (r.gapAfter host e .yank) := by
  have hpeek := h.peek
  rw [Reference.gapAfter, Editor.yank]
  cases hlast : r.killRing.getLast? with
  | none =>
    rw [hlast] at hpeek
    rw [hpeek]
    exact h.now
  | some entry =>
    rw [hlast] at hpeek
    rw [hpeek]
    exact Holds.insertYanked (e := e.pushUndoSnapshot) h.now (hmeets entry hlast)

theorem Mirrors.popped (h : Mirrors e r) (hpops : ¬r.popsNothing e) :
    ∃ next, (Reference.rotate r.killRing).getLast? = some next ∧
      Registered e.pastes r.yankedAt.items ∧ e.yankPop.pastes = e.pastes ∧
      e.yankPop.pasteCounter = e.pasteCounter ∧ e.yankPop.state =
        gapState ((r.yankedAt.insert (splitPieces next)).flat Piece.shown) := by
  have hnot := h.popsNothing.not.mp hpops
  obtain ⟨entry, hlast, hstate, hregistered⟩ := h.yanked (not_not.mp (not_or.mp hnot).1)
  have hpeek : e.killRing.peek = some (shown entry) := by
    rw [h.peek, hlast]
    rfl
  have hne : Reference.rotate r.killRing ≠ [] := by
    rw [Reference.rotate, hlast]
    exact cons_ne_nil _ _
  obtain ⟨next, hnext⟩ : ∃ next, (Reference.rotate r.killRing).getLast? = some next :=
    ⟨_, getLast?_eq_some_getLast hne⟩
  have hrotated : e.killRing.rotate.peek = some (shown next) := by
    rw [h.ring, ← rotate_shown, KillRing.peek, getLast?_map, hnext]
    rfl
  have hring : e.pushUndoSnapshot.deleteYankedText.killRing = e.killRing :=
    deleteYankedText_killRing e.pushUndoSnapshot
  have hinserted : (r.yankedAt.insert (splitPieces entry)).flat Piece.shown =
      (r.yankedAt.flat Piece.shown).insert (splitLines (shown entry)) := by
    rw [Gap.flat_insert, splitLines_shown]
    rfl
  have hdeleted : e.pushUndoSnapshot.deleteYankedText.state =
      gapState (r.yankedAt.flat Piece.shown) := by
    rw [hinserted] at hstate
    exact @deleteYankedText_gap e.pushUndoSnapshot _ _ hpeek hstate
  have hpop : e.yankPop = (insertYankedText (shown next) { e.pushUndoSnapshot.deleteYankedText with
      killRing := e.killRing.rotate }).acted (some .yank) := by
    rw [yankPop, if_neg hnot]
    dsimp only
    rw [hring, hrotated, getD_some]
  obtain ⟨hpastes, hcounter⟩ := deleteYankedText_registry e.pushUndoSnapshot
  obtain ⟨hpastes', hcounter'⟩ := insertYankedText_registry (shown next)
    { e.pushUndoSnapshot.deleteYankedText with killRing := e.killRing.rotate }
  refine ⟨next, hnext, hregistered, ?_, ?_, ?_⟩
  · rw [hpop]
    exact hpastes'.trans hpastes
  · rw [hpop]
    exact hcounter'.trans hcounter
  · rw [hpop]
    apply insertYankedText_shown
    exact hdeleted

theorem Mirrors.yankPop (h : Mirrors e r) (hmeets : r.Meets host e .yankPop) :
    Holds e.yankPop.snapshot (r.gapAfter host e .yankPop) := by
  rw [Reference.gapAfter]
  by_cases hpops : r.popsNothing e
  · rw [if_pos hpops, Editor.yankPop, if_pos (h.popsNothing.mp hpops)]
    exact h.now
  · obtain ⟨next, hnext, hregistered, hpastes, hcounter, hstate⟩ := h.popped hpops
    rw [if_neg hpops, hnext, getD_some]
    apply h.now.text hstate hpastes hcounter
    exact Registered.insert hregistered (registered_splitPieces (hmeets hpops next hnext))

theorem forall₂_concat {α β : Type*} {R : α → β → Prop} {l : List α} {ms : List β} {m : β}
    (h : List.Forall₂ R l (ms ++ [m])) : ∃ ls a, l = ls ++ [a] ∧ List.Forall₂ R ls ms ∧ R a m := by
  obtain ⟨a, rest, ha, hnil, hdrop⟩ :=
    forall₂_cons_right_iff.mp (forall₂_drop_append l ms [m] h)
  rw [forall₂_nil_right_iff.mp hnil] at hdrop
  refine ⟨l.take ms.length, a, ?_, forall₂_take_append l ms [m] h, ha⟩
  rw [← hdrop, take_append_drop]

theorem Mirrors.undo_holds (h : Mirrors e r) :
    Holds e.undo.snapshot (r.undoStack.getLast?.getD r.gap) := by
  have hundo := h.undo
  rcases eq_nil_or_concat' r.undoStack with hnil | ⟨gaps, g, hgaps⟩
  · rw [hnil] at hundo ⊢
    have hstack : e.exitHistoryBrowsing.undoStack = [] := forall₂_nil_right_iff.mp hundo
    rw [Editor.undo, hstack]
    exact h.now
  · rw [hgaps] at hundo ⊢
    obtain ⟨stack, last, hstack, -, hlast⟩ := forall₂_concat hundo
    rw [undo_snapshot hstack, getLast?_concat, getD_some]
    exact hlast

theorem Mirrors.step_now (h : Mirrors e r) (hmeets : r.Meets host e act) :
    Holds (e.step host act).snapshot (r.gapAfter host e act) := by
  cases act with
  | insertCharacter char => exact insertCharacter_holds h.now char
  | paste text => exact handlePaste_holds h.now text
  | addNewLine => exact addNewLine_holds h.now
  | backspace => exact handleBackspace_holds h.now hmeets.1 hmeets.2
  | forwardDelete => exact handleForwardDelete_holds h.now hmeets
  | kill k => exact (h.kill hmeets).holds
  | yank => exact h.yank hmeets
  | yankPop => exact h.yankPop hmeets
  | undo => exact h.undo_holds
  | setText text => exact setText_holds text e
  | insertTextAtCursor text => exact insertTextAtCursor_holds h.now text
  | applyCompletion item typed => exact applyCompletion_holds h.now item hmeets
  | submit => exact submitValue_holds e
  | _ => exact move_holds h.now trivial hmeets

/-! ### Snapshots and yanks -/

theorem Mirrors.step_undo (h : Mirrors e r) (act : Act) :
    List.Forall₂ Holds (e.step host act).undoStack (r.undoAfter host e act) := by
  by_cases hundo : act = .undo
  · subst hundo
    rw [step, (undo_beside e).2.2.2, Reference.undoAfter]
    have hstacks := h.undo
    rcases eq_nil_or_concat' r.undoStack with hnil | ⟨gaps, g, hgaps⟩
    · rw [hnil] at hstacks ⊢
      rw [forall₂_nil_right_iff.mp hstacks]
      exact .nil
    · rw [hgaps] at hstacks ⊢
      obtain ⟨stack, last, hstack, hrest, -⟩ := forall₂_concat hstacks
      rw [hstack, dropLast_concat, dropLast_concat]
      exact hrest
  · by_cases hsubmit : act = .submit
    · subst hsubmit
      exact .nil
    · have hafter : r.undoAfter host e act =
          if (e.step host act).undoStack.length = e.undoStack.length then r.undoStack
          else r.undoStack ++ [r.gap] := by
        cases act with
        | undo => exact absurd rfl hundo
        | submit => exact absurd rfl hsubmit
        | _ => rfl
      rw [hafter]
      rcases (step_tame host e hundo hsubmit).undoStack with hsame | hpushed
      · rw [if_pos (congrArg length hsame), hsame]
        exact h.undo
      · rw [if_neg, hpushed]
        · exact rel_append h.undo (.cons h.now .nil)
        · rw [hpushed, length_append]
          exact Nat.succ_ne_self _

theorem Mirrors.step_yanked (h : Mirrors e r) (hmeets : r.Meets host e act)
    (haction : (e.step host act).lastAction = some .yank) :
    ∃ entry, (r.ringAfter host e act).getLast? = some entry ∧
      (e.step host act).state =
        gapState (((r.step host e act).yankedAt.insert (splitPieces entry)).flat Piece.shown) ∧
      Registered (e.step host act).pastes (r.step host e act).yankedAt.items := by
  by_cases hyank : act = .yank
  · subst hyank
    have hpeek := h.peek
    cases hlast : r.killRing.getLast? with
    | none =>
      -- nothing to yank, and so the last action was none
      rw [hlast] at hpeek
      have hsame : e.yank = e := by
        rw [Editor.yank, hpeek]
        rfl
      rw [step, hsame] at haction
      obtain ⟨entry, hentry, -⟩ := h.yanked haction
      rw [hlast] at hentry
      cases hentry
    | some entry =>
      rw [hlast] at hpeek
      have hyanked : e.yank =
          (e.pushUndoSnapshot.insertYankedText (shown entry)).acted (some .yank) := by
        rw [Editor.yank, hpeek]
        rfl
      refine ⟨entry, hlast, ?_, ?_⟩
      · rw [step, hyanked]
        exact insertYankedText_shown (e := e.pushUndoSnapshot) h.now.state entry
      · rw [step, hyanked]
        have hpastes := (insertYankedText_registry (shown entry) e.pushUndoSnapshot).1
        change Registered (e.pushUndoSnapshot.insertYankedText (shown entry)).pastes r.gap.items
        rw [hpastes]
        exact h.now.registered
  · have hat : (r.step host e act).yankedAt = r.yankedAt := by
      cases act with
      | yank => exact absurd rfl hyank
      | _ => rfl
    rw [hat]
    by_cases hpop : act = .yankPop
    · subst hpop
      by_cases hpops : r.popsNothing e
      · have hsame : e.yankPop = e := by
          rw [Editor.yankPop, if_pos (h.popsNothing.mp hpops)]
        rw [step, hsame] at haction ⊢
        rw [Reference.ringAfter, if_pos hpops]
        exact h.yanked haction
      · obtain ⟨next, hnext, hregistered, hpastes, -, hstate⟩ := h.popped hpops
        rw [Reference.ringAfter, if_neg hpops, step, hpastes]
        exact ⟨next, hnext, hstate, hregistered⟩
    · obtain ⟨hlast, hstate, -, hpastes⟩ := (step_idle host e hyank hpop).same haction
      have hring : r.ringAfter host e act = r.killRing := by
        cases act with
        | kill k =>
          have hnothing := ((h.kill hmeets).action).resolve_right fun hkill => by
            rw [step, hkill] at haction
            cases haction
          rw [Reference.ringAfter, hnothing]
          exact if_pos rfl
        | yankPop => exact absurd rfl hpop
        | _ => rfl
      rw [hring, hstate, hpastes]
      exact h.yanked hlast

/-! ### Runs -/

theorem Mirrors.step (h : Mirrors e r) (hmeets : r.Meets host e act) :
    Mirrors (e.step host act) (r.step host e act) :=
  ⟨h.step_now hmeets, h.step_ring hmeets, h.step_undo act, h.step_yanked hmeets⟩

theorem initial_mirrors : Mirrors initial Reference.initial :=
  ⟨⟨rfl, fun _ _ hmem => (by cases hmem), nodup_nil, fun _ hmem => (by cases hmem)⟩, rfl, .nil,
    fun h => (by cases h)⟩

theorem run_mirrors (h : Mirrors e r) {acts : List Act} (hmeets : r.MeetsAll host e acts) :
    Mirrors (e.run host acts) (r.run host e acts) ∧
      (r.run host e acts).Clear (e.run host acts) := by
  induction acts generalizing e r with
  | nil => exact ⟨h, hmeets⟩
  | cons act acts ih => exact ih (h.step hmeets.2.1) hmeets.2.2

theorem meetsAll_front {before after : List Act} (h : r.MeetsAll host e (before ++ after)) :
    r.MeetsAll host e before := by
  induction before generalizing e r with
  | nil =>
    cases after with
    | nil => exact h
    | cons act after => exact h.1
  | cons act before ih => exact ⟨h.1, h.2.1, ih h.2.2⟩

end KnightCode.Editor
