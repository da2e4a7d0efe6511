import KnightCode.Delta.TrackerRuns

/-!
# What a tracker adopts

The adopted preparations of a tracker form a chain of values and revisions, whatever the callers
interleave. A preparation that was adopted, aborted or overtaken is refused for good, and handles of
a context that was closed reach nothing but that context.
-/

namespace KnightCode.Delta

open List Option

variable {Value Overlay Write : Type}

namespace Tracking
variable {w : Tracking Value Overlay}

/-- Each adoption is based on the value and the revision that the one before it installed. -/
def Linked : Value → ℕ → List (Option ℕ × PreparedImpl Value) → Value → ℕ → Prop
  | value, revision, [], value', revision' => value' = value ∧ revision' = revision
  | value, revision, (baseRevision, prepared) :: rest, value', revision' =>
    baseRevision = some revision ∧ prepared.base = value ∧
      Linked prepared.value (revision + 1) rest value' revision'

variable {adopted : List (Option ℕ × PreparedImpl Value)} {revision revision' : ℕ}

theorem Linked.revisions {value value' : Value}
    (h : Linked value revision adopted value' revision') :
    ∀ base ∈ adopted.map Prod.fst, ∃ later, revision ≤ later ∧ base = some later := by
  induction adopted generalizing value revision with
  | nil => exact fun _ hmem => by cases hmem
  | cons first rest ih =>
    obtain ⟨hbase, -, hrest⟩ := h
    intro base hmem
    obtain rfl | hmem := mem_cons.mp hmem
    · exact ⟨revision, le_refl _, hbase⟩
    · obtain ⟨later, hlater, hsome⟩ := ih hrest base hmem
      exact ⟨later, Nat.le_of_succ_le hlater, hsome⟩

theorem Linked.nodup {value value' : Value} (h : Linked value revision adopted value' revision') :
    (adopted.map Prod.fst).Nodup := by
  induction adopted generalizing value revision with
  | nil => exact nodup_nil
  | cons first rest ih =>
    obtain ⟨hbase, -, hrest⟩ := h
    refine nodup_cons.mpr ⟨fun hmem => ?_, ih hrest⟩
    obtain ⟨later, hlater, hsome⟩ := hrest.revisions _ hmem
    have hlt := some.inj (hbase.symm.trans hsome)
    omega

/-- The change of a context: it may still be prepared, or it was settled. -/
def Owns (change context : ℕ) (w : Tracking Value Overlay) : Prop :=
  (∃ found, w.contexts[context]? = some found) ∧
    (w.changes[change]? = some ⟨some context, none, false⟩ ∨
      w.changes[change]? = some ⟨none, some context, true⟩ ∧ Closed context w ∨
      w.changes[change]? = some ⟨none, none, true⟩ ∧ Settled context w)

theorem Owns.of_changes {change context : ℕ} {w' : Tracking Value Overlay}
    (h : Owns change context w) (he : Evolves w w')
    (hchanges : w'.changes[change]? = w.changes[change]?) : Owns change context w' := by
  obtain ⟨⟨found, hfound⟩, hcases⟩ := h
  obtain ⟨next, hnext, -⟩ := he.contexts context found hfound
  refine ⟨⟨next, hnext⟩, ?_⟩
  rw [hchanges]
  exact hcases.imp_right fun h => h.imp (fun h => ⟨h.1, h.2.evolves he⟩)
    fun h => ⟨h.1, h.2.evolves he⟩

/-- What holds of every state that callers can reach. -/
structure Inv (w : Tracking Value Overlay) : Prop where
  registered : RegisteredBut none w
  dated : Dated w
  prepareds : ∀ prepared ∈ w.prepareds, Closed prepared.context w
  changes : ∀ change : ℕ, change < w.changes.length → ∃ context, Owns change context w

theorem inv_empty : Inv (empty : Tracking Value Overlay) := by
  constructor
  · intro id context hid
    cases hid
  · intro id context hid
    cases hid
  · intro prepared hmem
    cases hmem
  · intro change hlt
    cases hlt

/-! ### The effect of `abort()` and `prepare()` on the change -/

theorem abortStatus_settles {id : ℕ} (h : Closed id w) :
    Touches id w (w.abortStatus id) ∧ Settled id (w.abortStatus id) := by
  obtain ⟨context, hcontext, hrank⟩ := h
  unfold abortStatus
  simp only [hcontext]
  by_cases hprepared : context.status = .prepared
  · rw [if_pos hprepared]
    refine ⟨touches_setContext id _ w, { context with status := .aborted }, ?_, le_refl 2⟩
    rw [get_setStatus, hcontext]
    rfl
  · rw [if_neg hprepared]
    refine ⟨.refl id w, context, hcontext, ?_⟩
    cases hstatus : context.status with
    | opened => rw [hstatus] at hrank; cases hrank
    | prepared => exact absurd hstatus hprepared
    | _ => exact le_refl 2

theorem abortChange_spec {change context : ℕ} (h : Owns change context w) :
    Touches context w { w.abortChange change with changes := w.changes } ∧
      Settled context (w.abortChange change) ∧
      (w.abortChange change).changes = w.changes.set change ⟨none, none, true⟩ := by
  obtain ⟨⟨found, hfound⟩, hchange | ⟨hchange, hclosed⟩ | ⟨hchange, hsettled⟩⟩ := h
  · obtain ⟨hcloses, hsettled⟩ := closes_abortContext hfound
    have hrun : w.abortChange change = { w.abortContext context with
        changes := (w.abortContext context).changes.set change ⟨none, none, true⟩ } := by
      simp [abortChange, hchange]
    rw [hrun, hcloses.touches.changes]
    exact ⟨{ hcloses.touches with changes := rfl }, hsettled, rfl⟩
  · obtain ⟨htouches, hsettled⟩ := abortStatus_settles hclosed
    have hrun : w.abortChange change = { w.abortStatus context with
        changes := (w.abortStatus context).changes.set change ⟨none, none, true⟩ } := by
      simp [abortChange, hchange]
    rw [hrun, htouches.changes]
    exact ⟨{ htouches with changes := rfl }, hsettled, rfl⟩
  · have hrun : w.abortChange change =
        { w with changes := w.changes.set change ⟨none, none, true⟩ } := by
      simp [abortChange, hchange]
    rw [hrun]
    exact ⟨.refl context w, hsettled, rfl⟩

section Engine

variable (engine : OverlayEngine Value Overlay Write)
variable {change context id : ℕ} {w : Tracking Value Overlay}

theorem prepare_spec (h : Owns change context w) :
    (∃ error, w.prepare engine change = (w, .error error)) ∨
      Owns change context (w.prepare engine change).1 ∧
        Closed context (w.prepare engine change).1 ∧
        ∃ next, (w.prepare engine change).1.changes = w.changes.set change next := by
  obtain ⟨error, hrun⟩ | ⟨found, contextId, held, hfound, hunsettled, hcontext, hheld, hwritable,
    hresult, preparedStatus, hstatus, hok, hrun⟩ := prepare_cases engine change w
  · exact .inl ⟨error, hrun⟩
  · right
    obtain ⟨hlt, -⟩ := List.getElem?_eq_some_iff.mp hfound
    obtain ⟨-, hchange | ⟨hchange, -⟩ | ⟨hchange, -⟩⟩ := h
    · rw [hchange] at hfound
      obtain rfl := some.inj hfound
      obtain rfl := some.inj hcontext
      have hset := closes_prepared hheld hwritable
      obtain ⟨mid, added, hcloses, hmid, herror, -⟩ := prepareContext_spec engine hset.closed
      have hboth := hset.trans hcloses
      rw [hmid] at hrun
      have hchanges : (w.prepare engine change).1.changes =
          w.changes.set change ⟨none, preparedStatus, true⟩ := by
        rw [hrun, ← hboth.touches.changes]
      have hclosed : Closed context (w.prepare engine change).1 := by
        rw [hrun]
        exact hboth.closed
      refine ⟨⟨⟨_, hclosed.choose_spec.1⟩, ?_⟩, hclosed, _, hchanges⟩
      rw [hchanges, getElem?_set_self hlt]
      cases hcase : (w.prepare engine change).2 with
      | ok result =>
        rw [hok hcase]
        exact .inr (.inl ⟨rfl, hclosed⟩)
      | error error =>
        obtain rfl | rfl := hstatus
        · refine .inr (.inr ⟨rfl, ?_⟩)
          rw [hrun]
          exact herror error (hresult.symm.trans hcase)
        · exact .inr (.inl ⟨rfl, hclosed⟩)
    · rw [hchange] at hfound
      obtain rfl := some.inj hfound
      cases hunsettled
    · rw [hchange] at hfound
      obtain rfl := some.inj hfound
      cases hunsettled

/-! ### One action -/

variable [DecidableEq Value]
variable {owner : ℕ} (action : TrackerAction Value Write)
variable (actions : List (TrackerAction Value Write))

theorem perform_value (h : RegisteredBut none w) (owner : ℕ) :
    (w.adoptedBy owner action = [] ∧ KeepsValue owner w (w.perform engine action).1) ∨
      ∃ id, action = .adopt owner id ∧ (w.adopt owner id).2 = .ok () := by
  cases action with
  | adopt owner' id =>
    cases hresult : (w.adopt owner' id).2 with
    | error error =>
      refine .inl ⟨by simp [adoptedBy, hresult, Except.toBool], ?_⟩
      obtain ⟨error', mid, hrun, -, hvalues⟩ | ⟨_, _, _, -, -, -, -, -, -, -, hrun⟩ :=
        adopt_cases owner' id w
      · rw [perform, hrun]
        exact hvalues owner
      · rw [hrun] at hresult
        cases hresult
    | ok result =>
      by_cases howner : owner' = owner
      · subst howner
        exact .inr ⟨id, rfl, hresult⟩
      · exact .inl ⟨by simp [adoptedBy, howner],
          (adopt_spec hresult h).2.2.2.1 owner (Ne.symm howner)⟩
  | track initial => exact .inl ⟨rfl, (follows_track initial w).2 owner⟩
  | beginChange other => exact .inl ⟨rfl, (follows_beginChange engine other w).2 owner⟩
  | draftWrite id write => exact .inl ⟨rfl, (follows_draftWrite engine id write w).2 owner⟩
  | resumeWrite id write => exact .inl ⟨rfl, (follows_resumeWrite engine id write w).2 owner⟩
  | prepare id => exact .inl ⟨rfl, (follows_prepare engine id w).2 owner⟩
  | prepareReplace other value =>
    exact .inl ⟨rfl, (follows_prepareReplace engine other value w).2 owner⟩
  | abortChange id => exact .inl ⟨rfl, (follows_abortChange id w).2 owner⟩
  | abortPrepared id => exact .inl ⟨rfl, (follows_abortPrepared id w).2 owner⟩

theorem perform_follows (h : RegisteredBut none w) : Follows w (w.perform engine action).1 := by
  cases action with
  | adopt owner id =>
    cases hresult : (w.adopt owner id).2 with
    | error error =>
      obtain ⟨error', mid, hrun, hfollows, -⟩ | ⟨_, _, _, -, -, -, -, -, -, -, hrun⟩ :=
        adopt_cases owner id w
      · rw [perform, hrun]
        exact hfollows
      · rw [hrun] at hresult
        cases hresult
    | ok result =>
      obtain ⟨hevolves, hregistered, hdated, -⟩ := adopt_spec hresult h
      exact ⟨hevolves, fun _ => hregistered, hdated⟩
  | track initial => exact (follows_track initial w).1
  | beginChange owner => exact (follows_beginChange engine owner w).1
  | draftWrite id write => exact (follows_draftWrite engine id write w).1
  | resumeWrite id write => exact (follows_resumeWrite engine id write w).1
  | prepare id => exact (follows_prepare engine id w).1
  | prepareReplace owner value => exact (follows_prepareReplace engine owner value w).1
  | abortChange id => exact (follows_abortChange id w).1
  | abortPrepared id => exact (follows_abortPrepared id w).1

/-! ### Changes keep their contexts -/

omit [DecidableEq Value] in
@[simp] theorem setContext_changes (id : ℕ)
    (f : OverlayContext Value Overlay → OverlayContext Value Overlay)
    (w : Tracking Value Overlay) : (w.setContext id f).changes = w.changes := rfl

omit [DecidableEq Value] in
@[simp] theorem setStatus_changes (id : ℕ) (status : Status) (w : Tracking Value Overlay) :
    (w.setStatus id status).changes = w.changes := rfl

omit [DecidableEq Value] in
@[simp] theorem clearContext_changes (id : ℕ) (w : Tracking Value Overlay) :
    (w.clearContext id).changes = w.changes :=
  (touches_clearContext id w).changes

omit [DecidableEq Value] in
@[simp] theorem abortContext_changes (id : ℕ) (w : Tracking Value Overlay) :
    (w.abortContext id).changes = w.changes := by
  cases hcontext : w.contexts[id]? with
  | none => simp [abortContext, hcontext]
  | some context => exact (closes_abortContext hcontext).1.touches.changes

omit [DecidableEq Value] in
@[simp] theorem abortStatus_changes (id : ℕ) (w : Tracking Value Overlay) :
    (w.abortStatus id).changes = w.changes := by
  unfold abortStatus
  repeat' split
  all_goals simp

omit [DecidableEq Value] in
@[simp] theorem invalidate_changes (owner winner : ℕ) (w : Tracking Value Overlay) :
    (w.invalidate owner winner).changes = w.changes := by
  have hstale : ∀ id (w : Tracking Value Overlay),
      (w.staleCompetitor winner id).changes = w.changes := by
    intro id w
    unfold staleCompetitor
    split_ifs <;> simp
  have hfold : ∀ (ids : List ℕ) (w : Tracking Value Overlay),
      (ids.foldl (staleCompetitor winner) w).changes = w.changes := by
    intro ids
    induction ids with
    | nil => exact fun _ => rfl
    | cons id ids ih => exact fun w => (ih _).trans (hstale id w)
  unfold invalidate
  cases w.trackers[owner]? with
  | none => rfl
  | some tracker => exact hfold _ _

theorem adopt_changes (owner id : ℕ) (w : Tracking Value Overlay) :
    (w.adopt owner id).1.changes = w.changes := by
  unfold adopt
  repeat' split
  all_goals simp

omit [DecidableEq Value] in
theorem resumeWrite_changes (id : ℕ) (write : Write) (w : Tracking Value Overlay) :
    (w.resumeWrite engine id write).1.changes = w.changes := by
  unfold resumeWrite
  repeat' split
  all_goals simp

omit [DecidableEq Value] in
theorem prepareContext_changes (id : ℕ) (w : Tracking Value Overlay) :
    (w.prepareContext engine id).1.changes = w.changes := by
  unfold prepareContext
  repeat' split
  all_goals simp

/-- A change is only set by its own `prepare()` and `abort()`. -/
theorem perform_changes (w : Tracking Value Overlay) :
    (w.perform engine action).1.changes = w.changes ∨
      (∃ id next, (action = .prepare id ∨ action = .abortChange id) ∧
        (w.perform engine action).1.changes = w.changes.set id next) ∨
      ∃ owner change, action = .beginChange owner ∧
        (w.perform engine action).1.changes = w.changes ++ [change] := by
  cases action with
  | track initial => exact .inl rfl
  | beginChange owner =>
    simp only [perform, beginChange]
    split
    · exact .inl rfl
    · exact .inr (.inr ⟨owner, _, rfl, rfl⟩)
  | draftWrite id write =>
    left
    obtain ⟨error, hdraft⟩ | hdraft := draftWrite_cases engine id write w
    · rw [perform, hdraft]
    · rw [perform, hdraft, resumeWrite_changes]
  | resumeWrite id write => exact .inl (by rw [perform, resumeWrite_changes])
  | prepare id =>
    obtain ⟨error, hrun⟩ | ⟨_, contextId, _, -, -, -, -, -, -, preparedStatus, -, -, hrun⟩ :=
      prepare_cases engine id w
    · exact .inl (by rw [perform, hrun])
    · refine .inr (.inl ⟨id, ⟨none, preparedStatus, true⟩, .inl rfl, ?_⟩)
      simp only [perform, hrun, prepareContext_changes, setStatus_changes]
  | prepareReplace owner value =>
    left
    simp only [perform, prepareReplace]
    split
    · rfl
    · rw [prepareContext_changes]
  | abortChange id =>
    simp only [perform, abortChange]
    split
    · exact .inl rfl
    · next found hfound =>
      split_ifs
      · refine .inr (.inl ⟨id, { found with preparedStatus := none }, .inr rfl, ?_⟩)
        cases found.preparedStatus <;> simp
      · refine .inr (.inl ⟨id, { found with context := none, settled := true }, .inr rfl, ?_⟩)
        cases found.context <;> simp
  | abortPrepared id =>
    left
    simp only [perform, abortPrepared]
    split
    · rfl
    · rw [abortContext_changes]
  | adopt owner id => exact .inl (by rw [perform, adopt_changes])

theorem perform_change (w : Tracking Value Overlay) (hlt : change < w.changes.length) :
    (w.perform engine action).1.changes[change]? = w.changes[change]? ∨
      action = .prepare change ∨ action = .abortChange change := by
  obtain hsame | ⟨id, next, haction, hset⟩ | ⟨owner, added, -, happend⟩ :=
    perform_changes engine action w
  · exact .inl (by rw [hsame])
  · by_cases hid : id = change
    · exact .inr (hid ▸ haction)
    · rw [hset, getElem?_set_ne hid]
      exact .inl rfl
  · rw [happend]
    exact .inl (getElem?_append_left hlt)

theorem perform_length (w : Tracking Value Overlay) :
    (w.perform engine action).1.changes.length = w.changes.length ∨
      ∃ owner, action = .beginChange owner := by
  obtain hsame | ⟨id, next, -, hset⟩ | ⟨owner, added, haction, -⟩ := perform_changes engine action w
  · exact .inl (by rw [hsame])
  · exact .inl (by rw [hset, length_set])
  · exact .inr ⟨owner, haction⟩

omit [DecidableEq Value] in
theorem beginChange_owns (owner : ℕ) (w : Tracking Value Overlay) :
    (w.beginChange engine owner).changes.length = w.changes.length ∨
      (w.beginChange engine owner).changes.length = w.changes.length + 1 ∧
        Owns w.changes.length w.contexts.length (w.beginChange engine owner) := by
  unfold beginChange
  cases w.trackers[owner]? with
  | none => exact .inl rfl
  | some tracker =>
    refine .inr ⟨length_append, ⟨_, getElem?_concat_length⟩, .inl ?_⟩
    exact getElem?_concat_length

theorem perform_owns (hreg : RegisteredBut none w) (h : Owns change context w) :
    Owns change context (w.perform engine action).1 := by
  have hevolves := (perform_follows engine action hreg).evolves
  have hlt : change < w.changes.length := by
    obtain ⟨-, hchange | ⟨hchange, -⟩ | ⟨hchange, -⟩⟩ := h
    all_goals exact (List.getElem?_eq_some_iff.mp hchange).1
  obtain hsame | rfl | rfl := perform_change engine action w hlt
  · exact h.of_changes hevolves hsame
  · obtain ⟨error, hrun⟩ | ⟨howns, -⟩ := prepare_spec engine h
    · rw [perform, hrun]
      exact h
    · exact howns
  · obtain ⟨-, hsettled, hchanges⟩ := abortChange_spec h
    refine ⟨⟨_, hsettled.choose_spec.1⟩, .inr (.inr ⟨?_, hsettled⟩)⟩
    rw [perform, hchanges, getElem?_set_self hlt]

theorem perform_inv (h : Inv w) : Inv (w.perform engine action).1 := by
  have hfollows := perform_follows engine action h.registered
  refine ⟨hfollows.registered h.registered, hfollows.dated h.dated, fun prepared hmem => ?_,
    fun change hlt => ?_⟩
  · obtain hmem | hclosed := hfollows.evolves.made prepared hmem
    · exact (h.prepareds prepared hmem).evolves hfollows.evolves
    · exact hclosed
  by_cases hold : change < w.changes.length
  · obtain ⟨context, howns⟩ := h.changes change hold
    exact ⟨context, perform_owns engine action h.registered howns⟩
  · obtain hlength | ⟨owner, rfl⟩ := perform_length engine action w
    · omega
    · obtain hlength | ⟨hlength, howns⟩ := beginChange_owns engine owner w
      · exact absurd (hlength ▸ hlt) hold
      · have hnew : change = w.changes.length := by
          have hlt' : change < (w.beginChange engine owner).changes.length := hlt
          omega
        subst hnew
        exact ⟨_, howns⟩

theorem run_inv (h : Inv w) : Inv (w.run engine actions) := by
  induction actions generalizing w with
  | nil => exact h
  | cons action actions ih => exact ih (perform_inv engine action h)

theorem run_evolves (h : Inv w) : Evolves w (w.run engine actions) := by
  induction actions generalizing w with
  | nil => exact .refl w
  | cons action actions ih =>
    exact (perform_follows engine action h.registered).evolves.trans
      (ih (perform_inv engine action h))

theorem run_owns (h : Inv w) (howns : Owns change context w) :
    Owns change context (w.run engine actions) := by
  induction actions generalizing w with
  | nil => exact howns
  | cons action actions ih =>
    exact ih (perform_inv engine action h) (perform_owns engine action h.registered howns)

/-! ### The chain -/

variable {tracker : TrackerImpl Value}

theorem adoptions_linked (owner : ℕ) (actions : List (TrackerAction Value Write)) (h : Inv w)
    (htracker : w.trackers[owner]? = some tracker) :
    ∃ next, (w.run engine actions).trackers[owner]? = some next ∧
      Linked tracker.value tracker.revision (w.adoptions engine owner actions) next.value
        next.revision := by
  induction actions generalizing w tracker with
  | nil => exact ⟨tracker, htracker, rfl, rfl⟩
  | cons action actions ih =>
    have hinv := perform_inv engine action h
    obtain ⟨hnone, hkeeps⟩ | ⟨id, rfl, hok⟩ := perform_value engine action h.registered owner
    · obtain ⟨mid, hmid, hvalue, hrevision⟩ := hkeeps tracker htracker
      obtain ⟨next, hnext, hlinked⟩ := ih hinv hmid
      refine ⟨next, hnext, ?_⟩
      rw [adoptions, hnone, nil_append, ← hvalue, ← hrevision]
      exact hlinked
    · obtain ⟨-, -, -, -, -, found, prepared, mid, hfound, hprepared, hbase, hvalue, hmid,
        hmidValue, hmidRevision, -⟩ := adopt_spec hok h.registered
      rw [htracker] at hfound
      obtain rfl := some.inj hfound
      obtain ⟨next, hnext, hlinked⟩ := ih hinv hmid
      refine ⟨next, hnext, ?_⟩
      have hadopted : w.adoptedBy owner (.adopt owner id : TrackerAction Value Write) =
          [(w.baseRevision prepared, prepared)] := by
        simp [adoptedBy, hok, hprepared, Except.toBool]
      rw [adoptions, hadopted, hbase]
      rw [hmidValue, hmidRevision] at hlinked
      exact ⟨rfl, hvalue, hlinked⟩

/-! ### Refusals -/

omit engine in
/-- The adoption throws and leaves every value and revision. -/
def Refuses (owner id : ℕ) (w : Tracking Value Overlay) : Prop :=
  (∃ error, (w.adopt owner id).2 = .error error) ∧
    ∀ other, KeepsValue other w (w.adopt owner id).1

omit engine in
theorem refuses_of (h : ∀ prepared context tracker, w.prepareds[id]? = some prepared →
      w.contexts[prepared.context]? = some context → w.trackers[owner]? = some tracker →
      context.owner = owner → context.status = .prepared →
      context.baseRevision = tracker.revision → False) : Refuses owner id w := by
  obtain ⟨error, mid, hrun, -, hvalues⟩ | ⟨tracker, prepared, context, htracker, hprepared,
    hcontext, howner, hstatus, hrevision, -⟩ := adopt_cases owner id w
  · rw [Refuses, hrun]
    exact ⟨⟨error, rfl⟩, hvalues⟩
  · exact (h prepared context tracker hprepared hcontext htracker howner hstatus hrevision).elim

omit engine in
theorem refuses_of_settled {prepared : PreparedImpl Value}
    (hprepared : w.prepareds[id]? = some prepared) (hsettled : Settled prepared.context w) :
    Refuses owner id w := by
  refine refuses_of fun found context tracker hfound hcontext _ _ hstatus _ => ?_
  rw [hprepared] at hfound
  obtain rfl := some.inj hfound
  obtain ⟨settled, hid, hrank⟩ := hsettled
  rw [hcontext] at hid
  obtain rfl := some.inj hid
  rw [hstatus] at hrank
  exact absurd hrank (by decide)

omit engine in
theorem refuses_foreign (h : ∀ prepared context, w.prepareds[id]? = some prepared →
      w.contexts[prepared.context]? = some context → context.owner ≠ owner) : Refuses owner id w :=
  refuses_of fun prepared context _ hprepared hcontext _ howner _ _ =>
    h prepared context hprepared hcontext howner

/-- After the action the preparation is consumed, aborted or stale. -/
def Spends (id : ℕ) (w : Tracking Value Overlay) : TrackerAction Value Write → Prop
  | .adopt owner other => (w.adopt owner other).2 = .ok () ∧
      ∃ prepared context, w.prepareds[id]? = some prepared ∧
        w.contexts[prepared.context]? = some context ∧ context.owner = owner
  | .abortPrepared other => other = id ∧ ∃ prepared, w.prepareds[id]? = some prepared
  | .abortChange change => ∃ prepared, w.prepareds[id]? = some prepared ∧
      Owns change prepared.context w
  | _ => False

theorem run_revision (owner : ℕ) (actions : List (TrackerAction Value Write)) (h : Inv w)
    (htracker : w.trackers[owner]? = some tracker) :
    ∃ next, (w.run engine actions).trackers[owner]? = some next ∧
      tracker.revision ≤ next.revision := by
  have hle : ∀ (adopted : List (Option ℕ × PreparedImpl Value)) (value value' : Value)
      (revision revision' : ℕ), Linked value revision adopted value' revision' →
        revision ≤ revision' := by
    intro adopted
    induction adopted with
    | nil => exact fun _ _ _ _ h => h.2.ge
    | cons first rest ih => exact fun _ _ _ _ h => Nat.le_of_succ_le (ih _ _ _ _ h.2.2)
  obtain ⟨next, hnext, hlinked⟩ := adoptions_linked engine owner actions h htracker
  exact ⟨next, hnext, hle _ _ _ _ _ hlinked⟩

variable {action : TrackerAction Value Write}

theorem refuses_of_spends (h : Inv w) (hspends : Spends id w action)
    (after : List (TrackerAction Value Write)) (owner : ℕ) :
    Refuses owner id ((w.perform engine action).1.run engine after) := by
  have hinv := perform_inv engine action h
  have hrun := run_evolves engine after hinv
  have hevolves := (perform_follows engine action h.registered).evolves.trans hrun
  cases action with
  | adopt winner other =>
    obtain ⟨hok, prepared, context, hprepared, hcontext, rfl⟩ := hspends
    obtain ⟨-, -, -, -, -, tracker, -, mid, htracker, -, -, -, hmid, -, hrevision, -⟩ :=
      adopt_spec hok h.registered
    obtain ⟨next, hnext, hle⟩ := run_revision engine context.owner after hinv hmid
    obtain ⟨dated, hdated, hbase⟩ := h.dated _ context hcontext
    rw [htracker] at hdated
    obtain rfl := some.inj hdated
    refine refuses_of fun found later tracker' hfound hlater htracker' howner _ hsame => ?_
    rw [hevolves.prepared hprepared] at hfound
    obtain rfl := some.inj hfound
    obtain ⟨later', hlater', hcontextLe⟩ := hevolves.contexts _ context hcontext
    rw [hlater] at hlater'
    obtain rfl := some.inj hlater'
    rw [hcontextLe.owner] at howner
    rw [← howner, hnext] at htracker'
    obtain rfl := some.inj htracker'
    rw [hcontextLe.baseRevision] at hsame
    omega
  | abortPrepared other =>
    obtain ⟨rfl, prepared, hprepared⟩ := hspends
    refine refuses_of fun found later tracker hfound hlater _ _ hstatus _ => ?_
    rw [hevolves.prepared hprepared] at hfound
    obtain rfl := some.inj hfound
    have habort : (w.perform engine (.abortPrepared other)).1 =
        w.abortContext prepared.context := by
      rw [perform, abortPrepared, hprepared]
    rw [habort] at hrun hlater
    obtain ⟨context, hcontext, -⟩ := h.prepareds prepared (mem_of_getElem? hprepared)
    have hsettled := (closes_abortContext hcontext).2.evolves hrun
    obtain ⟨settled, hid, hrank⟩ := hsettled
    rw [hlater] at hid
    obtain rfl := some.inj hid
    rw [hstatus] at hrank
    exact absurd hrank (by decide)
  | abortChange change =>
    obtain ⟨prepared, hprepared, howns⟩ := hspends
    exact refuses_of_settled (hevolves.prepared hprepared)
      ((abortChange_spec howns).2.1.evolves hrun)
  | _ => exact hspends.elim

/-! ### Old handles -/

/-- The action adopts over the context, aborts it or prepares it. -/
def Ends (context : ℕ) (w : Tracking Value Overlay) : TrackerAction Value Write → Prop
  | .adopt owner id => (w.adopt owner id).2 = .ok () ∧
      ∃ found, w.contexts[context]? = some found ∧ found.owner = owner
  | .abortPrepared id => ∃ prepared, w.prepareds[id]? = some prepared ∧ prepared.context = context
  | .abortChange change => Owns change context w
  | .prepare change => Owns change context w ∧ (w.prepare engine change).2 = .ok ()
  | _ => False

theorem closed_of_ends (h : Inv w) (hends : Ends engine context w action) :
    Closed context (w.perform engine action).1 := by
  cases action with
  | adopt owner id =>
    obtain ⟨hok, found, hfound, howner⟩ := hends
    exact (adopt_spec hok h.registered).2.2.2.2.1 context found hfound howner
  | abortPrepared id =>
    obtain ⟨prepared, hprepared, rfl⟩ := hends
    exact (h.prepareds prepared (mem_of_getElem? hprepared)).evolves
      (perform_follows engine (.abortPrepared id) h.registered).evolves
  | abortChange change => exact (abortChange_spec hends).2.1.closed
  | prepare change =>
    obtain ⟨howns, hok⟩ := hends
    obtain ⟨error, hrun⟩ | ⟨-, hclosed, -⟩ := prepare_spec engine howns
    · rw [hrun] at hok
      cases hok
    · exact hclosed
  | _ => exact hends.elim

omit [DecidableEq Value] in
theorem draftWrite_of_closed (h : Closed context w) (write : Write) :
    ∃ error, w.draftWrite engine context write = (w, .error error) := by
  obtain ⟨found, hfound, hrank⟩ := h
  unfold draftWrite
  simp only [hfound]
  cases hwritable : assertWritable found with
  | ok writable =>
    rw [opened_of_assertWritable hwritable] at hrank
    cases hrank
  | error error =>
    refine ⟨error, ?_⟩
    cases hroot : found.root <;> simp only

omit [DecidableEq Value] in
theorem touches_resumeWrite (context : ℕ) (write : Write) (w : Tracking Value Overlay) :
    Touches context w (w.resumeWrite engine context write).1 := by
  unfold resumeWrite
  repeat' split
  all_goals first | exact .refl context w | exact touches_setContext context _ w

omit [DecidableEq Value] in
theorem prepare_of_closed (howns : Owns change context w) (h : Closed context w) :
    ∃ error, w.prepare engine change = (w, .error error) := by
  obtain ⟨error, hrun⟩ | ⟨found, contextId, held, hfound, hunsettled, hcontext, hheld, hwritable,
    -⟩ := prepare_cases engine change w
  · exact ⟨error, hrun⟩
  · obtain ⟨-, hchange | ⟨hchange, -⟩ | ⟨hchange, -⟩⟩ := howns
    · rw [hchange] at hfound
      obtain rfl := some.inj hfound
      obtain rfl := some.inj hcontext
      obtain ⟨closed, hclosed, hrank⟩ := h
      rw [hheld] at hclosed
      obtain rfl := some.inj hclosed
      rw [opened_of_assertWritable hwritable] at hrank
      cases hrank
    · rw [hchange] at hfound
      obtain rfl := some.inj hfound
      cases hunsettled
    · rw [hchange] at hfound
      obtain rfl := some.inj hfound
      cases hunsettled

/-- Its draft writes nothing and nothing is prepared from it; what is left of a write in progress,
and an abort, reach its own context only. -/
structure Inert (context : ℕ) (w : Tracking Value Overlay) : Prop where
  draft : ∀ write, ∃ error, w.draftWrite engine context write = (w, .error error)
  resumed : ∀ write, Touches context w (w.resumeWrite engine context write).1
  prepare : ∀ change, Owns change context w → ∃ error,
    w.prepare engine change = (w, .error error)
  abort : ∀ change, Owns change context w →
    Touches context w { w.abortChange change with changes := w.changes }

omit [DecidableEq Value] in
theorem inert_of_closed (h : Closed context w) : Inert engine context w :=
  ⟨draftWrite_of_closed engine h, fun write => touches_resumeWrite engine context write w,
    fun _ howns => prepare_of_closed engine howns h, fun _ howns => (abortChange_spec howns).1⟩

/-! ### Adoption -/

/-- After any actions of the callers: the adoptions of a tracker are linked and no revision is
adopted on twice; foreign and spent preparations are refused, and change no value; and the handles
of a context that was adopted over, aborted or prepared are inert. -/
theorem tracker_adoption (before after : List (TrackerAction Value Write))
    (action : TrackerAction Value Write) (w : Tracking Value Overlay)
    (hw : w = empty.run engine before) :
    (∀ (owner : ℕ) tracker, w.trackers[owner]? = some tracker →
      ∃ next, (w.run engine after).trackers[owner]? = some next ∧
        Linked tracker.value tracker.revision (w.adoptions engine owner after) next.value
          next.revision ∧ ((w.adoptions engine owner after).map Prod.fst).Nodup) ∧
    (∀ owner id : ℕ, (∀ prepared context, w.prepareds[id]? = some prepared →
      w.contexts[prepared.context]? = some context → context.owner ≠ owner) → Refuses owner id w) ∧
    (∀ id, Spends id w action → ∀ owner,
      Refuses owner id ((w.perform engine action).1.run engine after)) ∧
    (∀ context, Ends engine context w action →
      Inert engine context ((w.perform engine action).1.run engine after)) ∧
    ∀ change, change < w.changes.length → ∃ context, Owns change context w ∧
      Owns change context ((w.perform engine action).1.run engine after) := by
  subst hw
  have hinv := run_inv engine before inv_empty
  have hnext := perform_inv engine action hinv
  refine ⟨fun owner tracker htracker => ?_, fun owner id h => refuses_foreign h,
    fun id hspends owner => refuses_of_spends engine hinv hspends after owner,
    fun context hends => ?_, fun change hlt => ?_⟩
  · obtain ⟨next, hnext, hlinked⟩ := adoptions_linked engine owner after hinv htracker
    exact ⟨next, hnext, hlinked, hlinked.nodup⟩
  · exact inert_of_closed engine
      ((closed_of_ends engine hinv hends).evolves (run_evolves engine after hnext))
  · obtain ⟨context, howns⟩ := hinv.changes change hlt
    exact ⟨context, howns, run_owns engine after hnext
      (perform_owns engine action hinv.registered howns)⟩

end Engine

/-- A draft is one number, and a write replaces it. -/
def cellEngine : OverlayEngine ℕ ℕ ℕ where
  createNode value := value
  nodeBase overlay := overlay
  write value _ := (value, .ok ())
  emitOperations overlay := .ok [.replace (.num overlay)]
  materialize _ overlay _ := .ok overlay
  equalTrustedJson := Nat.beq
  toJson value := .num value

/-- Two changes of one revision are prepared; once the first is adopted, the other is refused. -/
theorem tracker_adoption_overtaken :
    Refuses 0 1 (((empty.run cellEngine [.track 0, .beginChange 0, .beginChange 0,
      .draftWrite 0 5, .draftWrite 1 7, .prepare 0, .prepare 1]).perform cellEngine
        (.adopt 0 0)).1.run cellEngine []) :=
  (tracker_adoption cellEngine [.track 0, .beginChange 0, .beginChange 0, .draftWrite 0 5,
    .draftWrite 1 7, .prepare 0, .prepare 1] [] (.adopt 0 0) _ rfl).2.2.1 1
      ⟨rfl, _, _, rfl, rfl, rfl⟩ 0

end Tracking

end KnightCode.Delta
