import KnightCode.Durable.InboxBoundary

/-!
# The inbox over whole runs

Every commit keeps the books in agreement, and none fails for its submissions: what a commit reads
of a record is what the inbox and the run say of it. The runs follow by induction.
-/

namespace KnightCode.Inbox

open List Option Except
variable {commit : Commit}

open Delta (Json)

/-- A commit that led from `c` to `c'`, through correct boundaries only. -/
structure Kept (c c' : Conversation) : Prop where
  agrees : Agrees c'.items c'
  onward : Onward c c'
  boundaries : ∃ passed, c'.boundaries = c.boundaries ++ passed ∧ ∀ b ∈ passed, b.Correct

variable {c c' : Conversation}

theorem Kept.of_quiet (h : Agrees c'.items c') (hquiet : Quiet c c') : Kept c c' :=
  ⟨h, hquiet.onward, [], by rw [hquiet.boundaries, append_nil], fun _ hb => by cases hb⟩

theorem Kept.trans {d e : Conversation} (h : Kept c d) (h' : Kept d e) : Kept c e := by
  obtain ⟨passed, hpassed, hcorrect⟩ := h.boundaries
  obtain ⟨passed', hpassed', hcorrect'⟩ := h'.boundaries
  refine ⟨h'.agrees, h.onward.trans h'.onward, passed ++ passed', ?_, ?_⟩
  · rw [hpassed', hpassed, append_assoc]
  · intro b hb
    exact (mem_append.mp hb).elim (hcorrect b) (hcorrect' b)

variable {boundary : Boundary} {c : Conversation}

theorem kept_boundary (h : Agrees c.items c) (hb : boundary.head = c.latestHead) (place : At)
    (now : ℕ) :
    ∃ result c', applyBoundary c boundary place now = .ok (result, c') ∧ Kept c c' ∧
      c'.run = c.run ∧
      ∀ id ∈ result.users, ∃ r, Assoc.get id c'.submissions = some r ∧ r.status ≠ .queued := by
  obtain ⟨result, c', b, hrun, hagrees, hon, hlive, hpassed, hcorrect, husers⟩ :=
    applyBoundary_spec h hb place now
  refine ⟨result, c', hrun, ⟨hagrees, hon, [b], hpassed, ?_⟩, hlive, husers⟩
  intro b' hb'
  rw [mem_singleton.mp hb']
  exact hcorrect

theorem kept_append (h : Agrees c.items c) {draft : EntryDraft} (hfits : c.Fits draft.head) :
    Kept c (c.appendEntry draft none).2 :=
  ⟨h.append hfits, onward_append c draft none, [], (append_nil _).symm,
    fun _ hb => by cases hb⟩

/-! ### Runs -/

theorem endRun_spec (h : Agrees c.items c) (task : ℕ) (ending : RunEnd) :
    ∃ c', endRun c task ending = .ok c' ∧ Agrees c'.items c' ∧ Quiet c c' := by
  unfold endRun
  cases hrun : c.run with
  | none => exact ⟨c, rfl, h, .refl c⟩
  | some run =>
    by_cases htask : run.taskId ≠ task
    · exact ⟨c, if_pos htask, h, .refl c⟩
    · dsimp only
      rw [if_neg htask]
      have hids := h.running run hrun
      cases ending with
      | done answer =>
        obtain ⟨d, hd, hagrees, hquiet, -, hitems⟩ :=
          @Agrees.settleAll _ _ h (.done answer) (fun _ h => by cases h) _ hids
        refine ⟨{ d with run := none }, by dsimp only; rw [hd]; rfl, ?_,
          ⟨⟨hquiet.onward.inherited, hquiet.onward.entries, hquiet.onward.submissions⟩,
            hquiet.entries, hquiet.boundaries⟩⟩
        rw [← hitems] at hagrees
        exact hagrees.congr (le_refl _) rfl rfl rfl (fun _ h => by cases h)
      | unanswered reason detail settlement =>
        by_cases hafter : run.afterRun = true
        · refine ⟨{ c with run := none }, if_pos hafter, ?_,
            ⟨⟨rfl, prefix_refl _, fun _ r hr => ⟨r, hr, .refl r⟩⟩, rfl, rfl⟩⟩
          exact h.congr (le_refl _) rfl rfl rfl (fun _ h => by cases h)
        · dsimp only
          rw [if_neg hafter]
          generalize settlement.getD (reason, detail) = settled
          obtain ⟨d, hd, hagrees, hquiet, -, hitems⟩ :=
            @Agrees.settleAll _ _ h (.unanswered settled.1 settled.2) (fun _ h => by cases h) _ hids
          rw [← hitems] at hagrees
          refine ⟨{ d with
              run := none
              runFailure := some { taskId := task, inputs := run.inputs, reason, detail,
                                   first := run.first } }, by rw [hd]; rfl, ?_,
            ⟨⟨hquiet.onward.inherited, hquiet.onward.entries, hquiet.onward.submissions⟩,
              hquiet.entries, hquiet.boundaries⟩⟩
          exact hagrees.congr (le_refl _) rfl rfl rfl (fun _ h => by cases h)

theorem holdRun_spec (h : Agrees c.items c) (task answer : ℕ) :
    holdRun c task answer = .ok none ∨ ∃ c', holdRun c task answer = .ok (some c') ∧ Kept c c' := by
  unfold holdRun
  cases hrun : c.run with
  | none => exact .inl rfl
  | some run =>
    by_cases htask : run.taskId ≠ task
    · exact .inl (if_pos htask)
    · right
      dsimp only
      rw [if_neg htask]
      obtain ⟨d, hd, hagrees, hquiet, -, hitems⟩ :=
        @Agrees.settleAll _ _ h (.done answer) (fun _ h => by cases h) _ (h.running run hrun)
      refine ⟨{ d with run := some { run with inputs := [], afterRun := true } },
        by rw [hd]; rfl, Kept.of_quiet ?_
          ⟨⟨hquiet.onward.inherited, hquiet.onward.entries, hquiet.onward.submissions⟩,
            hquiet.entries, hquiet.boundaries⟩⟩
      rw [← hitems] at hagrees
      refine hagrees.congr (le_refl _) rfl rfl rfl ?_
      rintro _ hheld id hid
      obtain rfl := some.inj hheld
      cases hid

theorem kept_startRun (h : Agrees c.items c) {inputs : List ℕ}
    (hinputs : ∀ id ∈ inputs, ∃ r, Assoc.get id c.submissions = some r ∧ r.status ≠ .queued)
    (first : Option ℕ) (keepFailure : Bool) : Kept c (startRun c inputs first keepFailure) := by
  refine ⟨?_, ⟨rfl, prefix_refl _, fun _ r hr => ⟨r, hr, .refl r⟩⟩, [],
    (append_nil _).symm, fun _ hb => by cases hb⟩
  refine h.congr (Nat.le_succ _) rfl rfl rfl ?_
  intro run hrun
  obtain rfl := some.inj hrun
  exact hinputs

theorem kept_startSelected (h : Agrees c.items c) {result : BoundaryResult}
    (husers : ∀ id ∈ result.users, ∃ r, Assoc.get id c.submissions = some r ∧ r.status ≠ .queued)
    (keepFailure : Bool) : Kept c (startSelected c result keepFailure) := by
  unfold startSelected
  split_ifs
  · exact Kept.of_quiet h (.refl c)
  · exact kept_startRun h husers _ _

theorem kept_handOver (h : Agrees c.items c) (task : ℕ) : Kept c (handOver c task) := by
  refine ⟨?_, ⟨rfl, prefix_refl _, fun _ r hr => ⟨r, hr, .refl r⟩⟩, [],
    (append_nil _).symm, fun _ hb => by cases hb⟩
  refine h.congr (Nat.le_succ _) rfl rfl rfl ?_
  intro run hrun id hid
  obtain ⟨old, hold, rfl⟩ := map_eq_some_iff.mp hrun
  refine h.running old hold id ?_
  split_ifs at hid <;> exact hid

/-! ### Withdrawals -/

theorem Agrees.withdraw (h : Agrees c.items c) {item : InboxItem} (hitem : item ∈ c.items)
    (reason : Text) :
    ∃ c', c.changeSubmission item.id (.unanswered reason none) = .ok c' ∧
      Agrees (c.items.filter (fun i => i.id ≠ item.id)) c' ∧ Quiet c c' ∧ c'.items = c.items := by
  obtain ⟨r, hr, hawaits⟩ := h.waiting item hitem
  have hsettled : r.status.settled = false := by rw [hawaits.1]; rfl
  have hon := SubmissionRecord.unansweredWith_onward hsettled reason none
  exact ⟨_, changeSubmission_unanswered hr hsettled reason none,
    h.settle hr hon (fun h => by cases h), ⟨onward_set hr hon, rfl, rfl⟩, rfl⟩

theorem eraseIdx_eq_filter {items left : List InboxItem} {item : InboxItem}
    (hsorted : ((items ++ item :: left).map InboxItem.id).Pairwise (· < ·)) :
    (items ++ item :: left).filter (fun i => i.id ≠ item.id) =
      (items ++ item :: left).eraseIdx items.length := by
  rw [eraseIdx_append_of_length_le (le_refl _), Nat.sub_self, eraseIdx_cons_zero,
    filter_append, filter_cons_of_neg (by simp)]
  rw [map_append, pairwise_append] at hsorted
  obtain ⟨-, hleft, hcross⟩ := hsorted
  have hafter := (pairwise_cons.mp hleft).1
  congr 1
  · rw [filter_eq_self]
    intro i hi
    have := hcross i.id (mem_map_of_mem hi) item.id (mem_map_of_mem mem_cons_self)
    exact decide_eq_true (ne_of_lt this)
  · rw [filter_eq_self]
    intro i hi
    exact decide_eq_true (ne_of_gt (hafter i.id (mem_map_of_mem hi)))

theorem withdrawFrom_spec (h : Agrees c.items c) (reason : Text) {items left : List InboxItem}
    (hitems : c.items = items ++ left) :
    ∃ c', withdrawFrom reason items.zipIdx.reverse c = .ok c' ∧ Agrees c'.items c' ∧ Quiet c c' ∧
      c'.items = items.filter InboxItem.isWrite ++ left := by
  induction items using reverseRecOn generalizing c left with
  | nil => exact ⟨c, rfl, h, .refl c, hitems⟩
  | append_singleton items item ih =>
    rw [append_assoc, singleton_append] at hitems
    rw [zipIdx_append, reverse_append]
    cases item with
    | write id draft =>
      obtain ⟨c', hrun, hagrees, hquiet, hleft⟩ := ih h hitems
      refine ⟨c', hrun, hagrees, hquiet, ?_⟩
      rw [hleft, filter_append, append_assoc]
      rfl
    | user id mode content entry =>
      have hmem : InboxItem.user id mode content entry ∈ c.items := by
        rw [hitems]
        exact mem_append_right _ mem_cons_self
      obtain ⟨d, hd, hagrees, hquiet, hsame⟩ := h.withdraw hmem reason
      have hsorted := h.sorted
      rw [hitems] at hsorted
      have herase := eraseIdx_eq_filter hsorted
      rw [← hitems] at herase
      have hrest : (c.items.eraseIdx items.length) = items ++ left := by
        rw [hitems, eraseIdx_append_of_length_le (le_refl _), Nat.sub_self, eraseIdx_cons_zero]
      let d' : Conversation := { d with items := items ++ left }
      have hagrees' : Agrees d'.items d' := by
        rw [herase, hrest] at hagrees
        exact hagrees.congr (le_refl _) rfl rfl rfl hagrees.running
      obtain ⟨c', hrun, hagrees'', hquiet', hleft⟩ := ih hagrees' rfl
      refine ⟨c', ?_, hagrees'', ?_, ?_⟩
      · simp only [zipIdx_cons, zipIdx_nil, zero_add, reverse_singleton,
          singleton_append, withdrawFrom]
        rw [show c.changeSubmission id (.unanswered reason none) = .ok d from hd]
        change withdrawFrom reason items.zipIdx.reverse
          { d with items := d.items.eraseIdx items.length } = _
        rw [hsame, hrest]
        exact hrun
      · refine Quiet.trans (d := d') ?_ hquiet'
        exact ⟨⟨hquiet.onward.inherited, hquiet.onward.entries, hquiet.onward.submissions⟩,
          hquiet.entries, hquiet.boundaries⟩
      · rw [hleft, filter_append]
        simp [InboxItem.isWrite]

theorem withdrawQueuedInputs_spec (h : Agrees c.items c) (reason : Text) :
    ∃ c', withdrawQueuedInputs c reason = .ok c' ∧ Agrees c'.items c' ∧ Quiet c c' ∧
      c'.items = c.items.filter InboxItem.isWrite := by
  obtain ⟨c', hrun, hagrees, hquiet, hleft⟩ :=
    withdrawFrom_spec h reason (append_nil c.items).symm
  exact ⟨c', hrun, hagrees, hquiet, by rw [hleft, append_nil]⟩

theorem removeInboxItem_eq (hsorted : (c.items.map InboxItem.id).Pairwise (· < ·)) (id : ℕ) :
    removeInboxItem c id = { c with items := c.items.filter (fun i => i.id ≠ id) } := by
  unfold removeInboxItem
  cases hfind : c.items.findIdx? (fun item => item.id = id) with
  | none =>
    rw [findIdx?_eq_none_iff] at hfind
    have hself : c.items.filter (fun i => i.id ≠ id) = c.items := by
      rw [filter_eq_self]
      intro i hi
      exact decide_eq_true (of_decide_eq_false (hfind i hi))
    rw [hself]
  | some index =>
    obtain ⟨hlt, hp, -⟩ := findIdx?_eq_some_iff_getElem.mp hfind
    have hsplit : c.items = c.items.take index ++ c.items[index] :: c.items.drop (index + 1) := by
      rw [getElem_cons_drop, take_append_drop]
    have hid : c.items[index].id = id := of_decide_eq_true hp
    have hsorted' := hsorted
    rw [hsplit] at hsorted'
    have := eraseIdx_eq_filter hsorted'
    rw [← hsplit, hid, length_take, min_eq_left hlt.le] at this
    rw [this]

theorem kept_abort (h : Agrees c.items c) (id : ℕ) : ∃ c', abort c id = .ok c' ∧ Kept c c' := by
  unfold abort
  cases hr : Assoc.get id c.submissions with
  | none => exact ⟨c, rfl, Kept.of_quiet h (.refl c)⟩
  | some r =>
    by_cases hqueued : r.status = .queued
    · obtain ⟨item, hitem, rfl⟩ := h.listed id r hr hqueued
      obtain ⟨d, hd, hagrees, hquiet, hsame⟩ := h.withdraw hitem (ascii "aborted")
      refine ⟨removeInboxItem d item.id, ?_, ?_⟩
      · dsimp only
        rw [if_pos hqueued, hd]
        rfl
      · rw [removeInboxItem_eq (by rw [hsame]; exact h.sorted), hsame]
        refine Kept.of_quiet (hagrees.congr (le_refl _) rfl rfl rfl hagrees.running) ?_
        exact ⟨⟨hquiet.onward.inherited, hquiet.onward.entries, hquiet.onward.submissions⟩,
          hquiet.entries, hquiet.boundaries⟩
    · exact ⟨c, if_neg hqueued, Kept.of_quiet h (.refl c)⟩

/-! ### Admissions -/

theorem kept_created (h : Agrees c.items c) {draft : EntryDraft} (hfits : c.Fits draft.head)
    {record : SubmissionRecord} (hstatus : record.status ≠ .queued)
    (hentry : record.entry = some (c.next + 1)) :
    Kept c ((c.appendEntry draft (some (c.next + 2))).2.createSubmission record).2 := by
  have hunminted : ∀ r, Assoc.get (c.next + 2) c.submissions = some r → r.entry = none := by
    intro r hr
    have := h.minted _ (mem_map_of_mem (Assoc.mem_of_get hr))
    exact absurd this (by omega)
  have hmint := h.mint
  have hcreate := @Agrees.create _ _ hmint record [] (fun _ h => by cases h) (Nat.zero_le _)
    (fun hq => absurd hq hstatus)
  rw [append_nil] at hcreate
  have hget : Assoc.get (c.next + 2) (c.mintId.2.createSubmission record).2.submissions =
      some record := by
    rw [get_create hmint.minted]
    exact if_pos rfl
  refine ⟨?_, ?_, [], (append_nil _).symm, fun _ hb => by cases hb⟩
  · exact h.append_placing hfits hcreate rfl rfl (by
      change c.next + 1 ≤ c.next + 1 + 1
      omega) hunminted hget hentry
  · have hon := (onward_mint c).trans (onward_create hmint record)
    exact ⟨hon.inherited, prefix_append _ _, hon.submissions⟩

theorem fits_displayOnly {entry : EntryDraft} (h : isDisplayOnly entry = true) :
    c.Fits entry.head := by
  unfold isDisplayOnly at h
  rw [Bool.and_eq_true, Bool.and_eq_true, isNone_iff_eq_none,
    isNone_iff_eq_none] at h
  rw [h.1.2]
  exact fits_none c

/-- A commit went through, or it refused the admission. -/
def Answers (c : Conversation) (x : Except TxError Conversation) : Prop :=
  (∃ e, x = .error e ∧ e.refusal = true) ∨ ∃ c', x = .ok c' ∧ Kept c c'

theorem Answers.of_kept {x : Except TxError Conversation} (hx : x = .ok c') (h : Kept c c') :
    Answers c x :=
  .inr ⟨c', hx, h⟩

theorem answers_placeWrite (h : Agrees c.items c) (requestId : Option Text) {entry : EntryDraft}
    (hfits : c.Fits entry.head) : Kept c (placeWrite c requestId entry).2 :=
  kept_created h hfits (fun h => by cases h) rfl

theorem answers_idleWrite (h : Agrees c.items c) (requestId : Option Text) (entry : EntryDraft)
    (modes : QueueModes) : Kept c (admitIdleWrite c requestId entry modes).2 := by
  unfold admitIdleWrite
  by_cases hstale : isStale (prepareBoundary c modes) entry = true
  · rw [if_pos hstale]
    have hcreate := @Agrees.create _ _ h
      { type := .write, requestId, status := .unanswered, reason := some (ascii "stale") } []
      (fun _ h => by cases h) (Nat.zero_le _) (fun hq => by cases hq)
    rw [append_nil] at hcreate
    exact ⟨hcreate, onward_create h _, [], (append_nil _).symm, fun _ hb => by cases hb⟩
  · rw [if_neg hstale]
    exact answers_placeWrite h requestId
      (@fits_of_not_stale (prepareBoundary c modes) c rfl _ (Bool.eq_false_iff.mpr hstale))

theorem answers_idleInput (h : Agrees c.items c) (requestId : Option Text) (content : Json)
    (entry : Option InputEntry) (now : ℕ) :
    Kept c (admitIdleInput c requestId content entry now).2 := by
  have hfits : c.Fits (inputEntry content entry now).head := by
    unfold inputEntry
    cases entry <;> exact fits_none c
  let record : SubmissionRecord :=
    { type := .input, requestId, status := .placed, entry := some (c.next + 1) }
  have hstatus : record.status ≠ .queued := fun h => by cases h
  have hkept := kept_created h hfits hstatus rfl
  refine hkept.trans (kept_startRun hkept.agrees ?_ _ _)
  intro id hid
  obtain rfl := mem_singleton.mp hid
  refine ⟨record, ?_, hstatus⟩
  have hget : Assoc.get (c.next + 2) (c.mintId.2.createSubmission record).2.submissions =
      some record := by
    rw [get_create h.mint.minted]
    exact if_pos rfl
  exact hget

theorem answers_queued (h : Agrees c.items c) {type : SubmissionType} (requestId : Option Text)
    {item : ℕ → InboxItem} (hid : ∀ id, (item id).id = id)
    (htype : ∀ id, type = if (item id).isWrite then .write else .input) (now : ℕ)
    (modes : QueueModes) :
    ∃ admission c', admitQueued c type requestId item now modes = .ok (admission, c') ∧
      Kept c c' := by
  let record : SubmissionRecord := { type, requestId, status := .queued }
  let d : Conversation :=
    { (c.createSubmission record).2 with items := c.items ++ [item (c.next + 1)] }
  have hcreate := @Agrees.create _ _ h record [item (c.next + 1)]
    (by
      intro i hi
      obtain rfl := mem_singleton.mp hi
      exact ⟨hid _, rfl, rfl, htype _⟩) (le_refl _) (fun _ h => by cases h)
  have hd : Kept c d := by
    refine ⟨hcreate.congr (le_refl _) rfl rfl rfl hcreate.running, ?_, [],
      (append_nil _).symm, fun _ hb => by cases hb⟩
    have hon := onward_create h record
    exact ⟨hon.inherited, hon.entries, hon.submissions⟩
  unfold admitQueued
  by_cases hbusy : c.run.isSome = true
  · exact ⟨⟨c.next + 1, .queued⟩, d, if_pos hbusy, hd⟩
  · obtain ⟨result, e, hrun, hkept, -, husers⟩ :=
      @kept_boundary (prepareBoundary c modes) d hd.agrees rfl .final now
    let status : Status :=
      if type = .write then .done
      else if result.users.getLast? = some (c.next + 1) then .placed else .queued
    refine ⟨⟨c.next + 1, status⟩, startSelected e result false, ?_,
      hd.trans (hkept.trans (kept_startSelected hkept.agrees husers false))⟩
    change (if c.run.isSome = true then _ else
      applyBoundary d (prepareBoundary c modes) .final now >>= _) = _
    rw [if_neg hbusy, hrun]
    rfl

theorem answers_continue (h : Agrees c.items c) (requestId : Option Text) (now : ℕ)
    (modes : QueueModes) : Answers c ((admitContinue c requestId now modes).map Prod.snd) := by
  unfold admitContinue
  by_cases hbusy : c.run.isSome = true
  · refine .inl ⟨.conversationBusy, ?_, rfl⟩
    rw [if_pos hbusy]
    rfl
  · let record : SubmissionRecord := { type := .continue, requestId, status := .placed }
    let d : Conversation := (c.createSubmission record).2
    have hcreate := @Agrees.create _ _ h record [] (fun _ h => by cases h) (Nat.zero_le _)
      (fun hq => by cases hq)
    rw [append_nil] at hcreate
    have hd : Kept c d := ⟨hcreate, onward_create h record, [], (append_nil _).symm,
      fun _ hb => by cases hb⟩
    obtain ⟨result, e, hrun, hkept, -, husers⟩ :=
      @kept_boundary (prepareBoundary c modes) d hd.agrees rfl .final now
    have hself : ∃ r, Assoc.get (c.next + 1) e.submissions = some r ∧ r.status ≠ .queued := by
      have hget := get_create h.minted record (c.next + 1)
      rw [if_pos rfl] at hget
      obtain ⟨r, hr, hon⟩ := hkept.onward.submissions _ _ hget
      exact ⟨r, hr, hon.placed (fun h => by cases h)⟩
    have hinputs : ∀ id ∈ result.users ++ [c.next + 1],
        ∃ r, Assoc.get id e.submissions = some r ∧ r.status ≠ .queued := by
      intro id hid
      rcases mem_append.mp hid with hid | hid
      · exact husers id hid
      · obtain rfl := mem_singleton.mp hid
        exact hself
    refine Answers.of_kept ?_ (hd.trans (hkept.trans (kept_startRun hkept.agrees hinputs
      ((e.runFailure.bind RunFailure.first) <|> result.first) false)))
    rw [if_neg hbusy]
    change Except.map Prod.snd (applyBoundary d (prepareBoundary c modes) .final now >>= _) = _
    rw [hrun]
    rfl

theorem answers_write (h : Agrees c.items c) (requestId : Option Text) (entry : EntryDraft)
    (now : ℕ) (modes : QueueModes) :
    ∃ admission c', admitWrite c requestId entry now modes = .ok (admission, c') ∧ Kept c c' := by
  unfold admitWrite
  by_cases hdisplay : isDisplayOnly entry = true ∧ ¬ hasQueuedReset c.items = true
  · exact ⟨_, _, if_pos hdisplay, answers_placeWrite h requestId (fits_displayOnly hdisplay.1)⟩
  · rw [if_neg hdisplay]
    by_cases hwait : c.run.isSome = true ∨ c.items ≠ []
    · rw [if_pos hwait]
      exact @answers_queued c h .write requestId (fun id => .write id entry) (fun _ => rfl)
        (fun _ => rfl) now modes
    · exact ⟨_, _, if_neg hwait, answers_idleWrite h requestId entry modes⟩

theorem answers_input (h : Agrees c.items c) (requestId : Option Text) (content : Json)
    (whenBusy : Option WhenBusy) (whenIdleReject : Bool) (entry : Option InputEntry) (now : ℕ)
    (modes : QueueModes) :
    Answers c ((admitInput c requestId content whenBusy whenIdleReject entry now modes).map
      Prod.snd) := by
  unfold admitInput
  by_cases hbusy : c.run.isSome = true ∧ whenBusy = some .reject
  · exact .inl ⟨.conversationBusy, by rw [if_pos hbusy]; rfl, rfl⟩
  by_cases hidle : ¬ c.run.isSome = true ∧ whenIdleReject = true
  · exact .inl ⟨.conversationIdle, by rw [if_neg hbusy, if_pos hidle]; rfl, rfl⟩
  rw [if_neg hbusy, if_neg hidle]
  by_cases hwait : c.run.isSome = true ∨ c.items ≠ []
  · obtain ⟨admission, c', hrun, hkept⟩ := @answers_queued c h .input requestId
      (fun id => .user id (if whenBusy = some .steer then .steer else .followUp) content entry)
      (fun _ => rfl) (fun _ => rfl) now modes
    exact Answers.of_kept (by rw [if_pos hwait, hrun]; rfl) hkept
  · exact Answers.of_kept (by rw [if_neg hwait]; rfl)
      (answers_idleInput h requestId content entry now)

theorem answers_admit (h : Agrees c.items c) (draft : SubmissionDraft) (now : ℕ)
    (modes : QueueModes) : Answers c ((admitSubmission c draft now modes).map Prod.snd) := by
  have hfresh : Answers c ((admitFresh c draft now modes).map Prod.snd) := by
    cases draft with
    | write requestId entry =>
      obtain ⟨admission, c', hrun, hkept⟩ := answers_write h requestId entry now modes
      exact Answers.of_kept (by rw [admitFresh, hrun]; rfl) hkept
    | input requestId content whenBusy whenIdleReject entry =>
      exact answers_input h requestId content whenBusy whenIdleReject entry now modes
    | «continue» requestId => exact answers_continue h requestId now modes
  have hchecked : Answers c ((admitChecked c draft now modes).map Prod.snd) := by
    unfold admitChecked
    cases existing c draft with
    | none => exact hfresh
    | some known =>
      dsimp only
      by_cases htype : known.2.type ≠ draft.type
      · rw [if_pos htype]
        exact .inl ⟨.requestType (draft.requestId.getD []) known.2.type, rfl, rfl⟩
      · rw [if_neg htype]
        exact Answers.of_kept rfl (Kept.of_quiet h (.refl c))
  unfold admitSubmission
  cases hcheck : draft.check with
  | error e =>
    refine .inl ⟨e, rfl, ?_⟩
    have hkind : ∀ entry, checkInputEntry entry = .error e → e.refusal = true := by
      intro entry hentry
      unfold checkInputEntry at hentry
      split_ifs at hentry
      obtain rfl := error.inj hentry
      rfl
    unfold SubmissionDraft.check at hcheck
    split at hcheck
    · exact hkind _ hcheck
    all_goals cases hcheck
  | ok => exact hchecked

/-! ### Commits of a run -/

theorem Onward.users {c c' : Conversation} (h : Onward c c') {users : List ℕ}
    (husers : ∀ id ∈ users, ∃ r, Assoc.get id c.submissions = some r ∧ r.status ≠ .queued) :
    ∀ id ∈ users, ∃ r, Assoc.get id c'.submissions = some r ∧ r.status ≠ .queued := by
  intro id hid
  obtain ⟨r, hr, hq⟩ := husers id hid
  obtain ⟨r', hr', hon⟩ := h.submissions id r hr
  exact ⟨r', hr', hon.placed hq⟩

theorem kept_passFinal (h : Agrees c.items c) (task : ℕ) (hb : boundary.head = c.latestHead)
    (now answer : ℕ) :
    ∃ c', passFinal c task boundary now answer = .ok c' ∧ Kept c c' := by
  obtain ⟨result, d, hrun, hkept, -, husers⟩ := kept_boundary h hb .final now
  obtain ⟨e, hend, hagrees, hquiet⟩ := endRun_spec hkept.agrees task (.done answer)
  have husers' := hquiet.onward.users husers
  refine ⟨startSelected e result false, ?_, (hkept.trans (Kept.of_quiet hagrees hquiet)).trans
    (kept_startSelected hagrees husers' false)⟩
  unfold passFinal
  rw [hrun]
  change (endRun d task (.done answer) >>= _) = _
  rw [hend]
  rfl

theorem kept_holdOrPass (h : Agrees c.items c) (task : ℕ) (afterRun : Bool)
    (hb : boundary.head = c.latestHead) (now answer : ℕ) :
    ∃ c', holdOrPass c task afterRun boundary now answer = .ok c' ∧ Kept c c' := by
  cases afterRun with
  | false => exact kept_passFinal h task hb now answer
  | true =>
    unfold holdOrPass
    rw [if_pos rfl]
    rcases holdRun_spec h task answer with hnone | ⟨c', hheld, hkept⟩
    · rw [hnone]
      exact kept_passFinal h task hb now answer
    · rw [hheld]
      exact ⟨c', rfl, hkept⟩

theorem kept_answer (h : Agrees c.items c) (task : ℕ) (message : Json) (continuation : Option Json)
    (afterRun : Bool) (modes : QueueModes) (now : ℕ) :
    ∃ c', answer c task message continuation afterRun modes now = .ok c' ∧ Kept c c' := by
  have hfits : c.Fits (answerDraft message).head := fits_none c
  have hkept := kept_append h hfits
  have hb : (prepareBoundary c modes).head = (c.appendEntry (answerDraft message) none).2.latestHead :=
    (latestHead_append c (answerDraft message) none).symm
  unfold answer
  generalize (if hasUserItem c.items = true ∨ hasQueuedReset c.items = true then none
    else continuation) = continues
  cases continues with
  | some content =>
    obtain ⟨result, d, hrun, hkept', -⟩ := kept_boundary hkept.agrees hb .final now
    have hfits' : d.Fits (inputEntry content none now).head := fits_none d
    have happend := kept_append hkept'.agrees hfits'
    refine ⟨_, ?_, (hkept.trans hkept').trans (happend.trans (kept_handOver happend.agrees task))⟩
    change (applyBoundary (c.appendEntry (answerDraft message) none).2
      (prepareBoundary c modes) .final now >>= _) = _
    rw [hrun]
    rfl
  | none =>
    obtain ⟨c', hrun, hkept'⟩ := kept_holdOrPass hkept.agrees task afterRun hb now (c.next + 1)
    exact ⟨c', hrun, hkept.trans hkept'⟩

theorem kept_endFailedRun (h : Agrees c.items c) (task : ℕ) (policy : AfterFailedRun)
    (hb : boundary.head = c.latestHead) (ending : RunEnd) (now : ℕ) :
    ∃ c', endFailedRun c task policy boundary ending now = .ok c' ∧ Kept c c' := by
  obtain ⟨d, hend, hagrees, hquiet⟩ := endRun_spec h task ending
  have hkept := Kept.of_quiet hagrees hquiet
  unfold endFailedRun
  rw [hend]
  cases policy with
  | keep => exact ⟨d, rfl, hkept⟩
  | withdraw =>
    obtain ⟨e, hrun, hagrees', hquiet', -⟩ := withdrawQueuedInputs_spec hagrees (ascii "run_failed")
    refine ⟨e, ?_, hkept.trans (Kept.of_quiet hagrees' hquiet')⟩
    change (withdrawQueuedInputs d (ascii "run_failed") >>= _) = _
    rw [hrun]
    rfl
  | «continue» =>
    obtain ⟨result, e, hrun, hkept', -, husers⟩ :=
      kept_boundary hagrees (hb.trans hquiet.latestHead.symm) .final now
    refine ⟨_, ?_, hkept.trans (hkept'.trans (kept_startSelected hkept'.agrees husers true))⟩
    change (applyBoundary d boundary .final now >>= _) = _
    rw [hrun]
    rfl

theorem kept_handOff (h : Agrees c.items c) (hb : boundary.head = c.latestHead)
    (handoff : Option Json) (now : ℕ) :
    Kept c (handOff c boundary handoff now).2 ∧
      (handOff c boundary handoff now).1.head = (handOff c boundary handoff now).2.latestHead := by
  cases handoff with
  | none => exact ⟨Kept.of_quiet h (.refl c), hb⟩
  | some content =>
    refine ⟨kept_append h (fun id current hhead => by cases hhead), ?_⟩
    exact (latestHead_append c { kind := RESET_KIND, head := some .self,
                                 model := some (.arr [userMessage content now]) } none).symm

theorem kept_passTools (h : Agrees c.items c) (task : ℕ) (hb : boundary.head = c.latestHead)
    (now : ℕ) : ∃ c', passTools c task boundary now = .ok c' ∧ Kept c c' := by
  obtain ⟨result, d, hrun, hkept, -, husers⟩ := kept_boundary h hb .postTools now
  unfold passTools
  rw [hrun]
  by_cases hreset : result.reset = true
  · obtain ⟨e, hend, hagrees, hquiet⟩ :=
      endRun_spec hkept.agrees task (.unanswered (ascii "reset") none none)
    have husers' := hquiet.onward.users husers
    refine ⟨_, ?_, (hkept.trans (Kept.of_quiet hagrees hquiet)).trans
      (kept_startSelected hagrees husers' true)⟩
    change (if result.reset = true then
      endRun d task (.unanswered (ascii "reset") none none) >>= _ else _) = _
    rw [if_pos hreset, hend]
    rfl
  · let run := d.run.map (fun run =>
      if run.taskId = task then { run with inputs := run.inputs ++ result.users } else run)
    have hd : Kept d { d with run } := by
      refine ⟨hkept.agrees.congr (le_refl _) rfl rfl rfl ?_,
        ⟨rfl, prefix_refl _, fun _ r hr => ⟨r, hr, .refl r⟩⟩, [], (append_nil _).symm,
        fun _ hb => by cases hb⟩
      intro live hlive id hid
      obtain ⟨old, hold, rfl⟩ := map_eq_some_iff.mp hlive
      split_ifs at hid
      · rcases mem_append.mp hid with hid | hid
        · exact hkept.agrees.running old hold id hid
        · exact husers id hid
      · exact hkept.agrees.running old hold id hid
    exact ⟨_, if_neg hreset, hkept.trans (hd.trans (kept_handOver hd.agrees task))⟩

theorem kept_finishToolRound (h : Agrees c.items c) (task assistant : ℕ) (handoff : Option Json)
    (ending : RoundEnd) (modes : QueueModes) (now : ℕ) :
    ∃ c', finishToolRound c task assistant handoff ending modes now = .ok c' ∧ Kept c c' := by
  obtain ⟨hkept, hb⟩ := @kept_handOff (prepareBoundary c modes) c h rfl handoff now
  unfold finishToolRound
  generalize handOff c (prepareBoundary c modes) handoff now = off at hkept hb
  obtain ⟨boundary, d⟩ := off
  cases ending with
  | terminate afterRun =>
    obtain ⟨c', hrun, hkept'⟩ := kept_holdOrPass hkept.agrees task afterRun hb now assistant
    exact ⟨c', hrun, hkept.trans hkept'⟩
  | turnLimit policy detail =>
    obtain ⟨c', hrun, hkept'⟩ := kept_endFailedRun hkept.agrees task policy hb
      (.unanswered (ascii "turn_limit") (some detail) none) now
    exact ⟨c', hrun, hkept.trans hkept'⟩
  | next =>
    obtain ⟨c', hrun, hkept'⟩ := kept_passTools hkept.agrees task hb now
    exact ⟨c', hrun, hkept.trans hkept'⟩

/-! ### Every commit -/

theorem kept_summary (h : Agrees c.items c) {firstKept : ℕ} {model data : Json}
    (hadmits : c.Admits (.summary firstKept model data)) :
    Kept c (c.appendEntry
      { kind := COMPACTION_KIND, model, data, head := some (.entry firstKept) } none).2 := by
  refine kept_append h ?_
  intro id current hhead hcurrent
  obtain rfl : firstKept = id := by simpa using hhead
  exact hadmits.2 current hcurrent

theorem answers_commit (h : Agrees c.items c) (hadmits : c.Admits commit) :
    Answers c (c.commit commit) := by
  cases commit with
  | submit draft now modes =>
    exact answers_admit h draft now modes
  | abort id =>
    obtain ⟨c', hrun, hkept⟩ := kept_abort h id
    exact Answers.of_kept hrun hkept
  | withdraw reason =>
    obtain ⟨c', hrun, hagrees, hquiet, -⟩ := withdrawQueuedInputs_spec h reason
    exact Answers.of_kept hrun (Kept.of_quiet hagrees hquiet)
  | append kind model data => exact Answers.of_kept rfl (kept_append h (fits_none c))
  | summary firstKept model data => exact Answers.of_kept rfl (kept_summary h hadmits)
  | answer task message continuation afterRun modes now =>
    obtain ⟨c', hrun, hkept⟩ := kept_answer h task message continuation afterRun modes now
    exact Answers.of_kept hrun hkept
  | endAnsweredRun task answer modes now =>
    obtain ⟨c', hrun, hkept⟩ :=
      @kept_passFinal (prepareBoundary c modes) c h task rfl now answer
    exact Answers.of_kept hrun hkept
  | endAnsweredCutOff task answer =>
    obtain ⟨c', hrun, hagrees, hquiet⟩ := endRun_spec h task (.done answer)
    exact Answers.of_kept hrun (Kept.of_quiet hagrees hquiet)
  | finishToolRound task assistant handoff ending modes now =>
    obtain ⟨c', hrun, hkept⟩ := kept_finishToolRound h task assistant handoff ending modes now
    exact Answers.of_kept hrun hkept
  | endFailedRun task message policy ending modes now =>
    have happend : Kept c (appendAnswer c message) ∧
        (appendAnswer c message).latestHead = c.latestHead := by
      cases message with
      | none => exact ⟨Kept.of_quiet h (.refl c), rfl⟩
      | some message =>
        exact ⟨kept_append h (fits_none c), latestHead_append c (answerDraft message) none⟩
    obtain ⟨c', hrun, hkept⟩ := @kept_endFailedRun (prepareBoundary c modes) _
      happend.1.agrees task policy happend.2.symm ending now
    exact Answers.of_kept hrun (happend.1.trans hkept)
  | mint => exact Answers.of_kept rfl ⟨h.mint, onward_mint c, [], (append_nil _).symm,
      fun _ hb => by cases hb⟩

theorem kept_step (h : Agrees c.items c) (hstep : system.step c commit c') : Kept c c' := by
  obtain ⟨hadmits, hrun⟩ := hstep
  rcases answers_commit h hadmits with ⟨e, herror, -⟩ | ⟨d, hd, hkept⟩
  · rw [herror] at hrun
    cases hrun
  · rw [hd] at hrun
    obtain rfl := ok.inj hrun
    exact hkept

/-- The books, with every boundary passed so far. -/
def Books (c : Conversation) : Prop :=
  Agrees c.items c ∧ ∀ b ∈ c.boundaries, b.Correct

theorem books_step (h : Books c) (hstep : system.step c commit c') : Books c' := by
  have hkept := kept_step h.1 hstep
  obtain ⟨passed, hpassed, hcorrect⟩ := hkept.boundaries
  refine ⟨hkept.agrees, ?_⟩
  intro b hb
  rw [hpassed] at hb
  exact (mem_append.mp hb).elim (h.2 b) (hcorrect b)

theorem books_reachable (h : system.Reachable c) : Books c := by
  refine System.ReachableBy.invariant ?_ (fun s a t hs _ ht => books_step hs ht) h
  intro c hc
  refine ⟨Agrees.created hc, ?_⟩
  rw [hc.2.2.2.2.2.2]
  intro b hb
  cases hb

theorem onward_run (h : Books c) (hrun : system.Steps (fun _ _ => True) c c') : Onward c c' := by
  refine System.Steps.relation (I := Books) Onward.refl (fun _ _ _ => Onward.trans) ?_ hrun h
  intro s a t hs _ ht
  exact ⟨books_step hs ht, (kept_step hs.1 ht).onward⟩

/-! ### The head -/

/-- Entry `id` lies before the active range. -/
def Conversation.Cut (c : Conversation) (id : ℕ) : Prop :=
  ∃ head, c.latestHead = some head ∧ id < head

/-- Along a chain of markers an entry that one of them cuts stays cut: a reset keeps only itself
and what comes after. -/
theorem cut_of_chain {m : Marker} {rest : List Marker} {id : ℕ}
    (hchain : (m :: rest).IsChain Marker.Leads) (hnew : ∀ m' ∈ rest, id < m'.id)
    (hcut : id < m.head) : ∀ m', (m :: rest).getLast? = some m' → id < m'.head := by
  induction rest generalizing m with
  | nil =>
    intro m' hm'
    obtain rfl : m = m' := by simpa using hm'
    exact hcut
  | cons n rest ih =>
    obtain ⟨hleads, hrest⟩ := isChain_cons_cons.mp hchain
    have hn : id < n.head := by
      rcases hleads with hle | hself
      · exact hcut.trans_le hle
      · rw [hself]
        exact hnew n mem_cons_self
    intro m' hm'
    exact ih hrest (fun m' hm' => hnew m' (mem_cons_of_mem _ hm')) hn m'
      (by rwa [getLast?_cons_cons] at hm')

theorem cut_onward (h' : Agrees c'.items c') (hon : Onward c c') {e : EntryRecord}
    (he : e ∈ c.entries) (hcut : c.Cut e.id) : c'.Cut e.id := by
  obtain ⟨head, hhead, hlt⟩ := hcut
  obtain ⟨new, hnew⟩ := hon.entries
  have hmarkers : c'.markers = c.markers ++ new.filterMap EntryRecord.marker := by
    rw [Conversation.markers, Conversation.markers, hon.inherited, ← hnew, filterMap_append,
      append_assoc]
  rw [Conversation.latestHead, Conversation.latestHeadMarker_eq, map_eq_some_iff] at hhead
  obtain ⟨m, hm, rfl⟩ := hhead
  obtain ⟨before, hbefore⟩ := getLast?_eq_some_iff.mp hm
  have hchain := h'.heads
  rw [hmarkers, hbefore, append_assoc, singleton_append] at hchain
  have hlater : ∀ m' ∈ new.filterMap EntryRecord.marker, e.id < m'.id := by
    intro m' hm'
    obtain ⟨e', he', hmarker⟩ := mem_filterMap.mp hm'
    obtain ⟨_, -, rfl⟩ := map_eq_some_iff.mp hmarker
    have hsorted := h'.entryIds
    rw [← hnew, map_append, pairwise_append] at hsorted
    exact hsorted.2.2 e.id (mem_map_of_mem he) e'.id (mem_map_of_mem he')
  have hlast := cut_of_chain (List.IsChain.right_of_append hchain) hlater hlt
  have hsome : ∃ m', (m :: new.filterMap EntryRecord.marker).getLast? = some m' :=
    ⟨_, getLast?_eq_some_getLast (cons_ne_nil _ _)⟩
  obtain ⟨m', hm'⟩ := hsome
  refine ⟨m'.head, ?_, hlast m' hm'⟩
  rw [Conversation.latestHead, Conversation.latestHeadMarker_eq, hmarkers, hbefore,
    append_assoc, singleton_append, getLast?_append, hm']
  rfl

theorem heads_pairwise {markers : List Marker} (hchain : markers.IsChain Marker.Leads)
    (hids : (markers.map Marker.id).Pairwise (· < ·)) (hback : ∀ m ∈ markers, m.head ≤ m.id) :
    markers.Pairwise (fun m m' => m.head ≤ m'.head) := by
  induction markers with
  | nil => exact .nil
  | cons m rest ih =>
    obtain ⟨hm, hids⟩ := pairwise_cons.mp hids
    cases rest with
    | nil => exact pairwise_singleton _ _
    | cons n rest =>
      obtain ⟨hleads, hrest⟩ := isChain_cons_cons.mp hchain
      have ih := ih hrest hids (fun m' hm' => hback m' (mem_cons_of_mem _ hm'))
      have hn : m.head ≤ n.head := by
        rcases hleads with hle | hself
        · exact hle
        · rw [hself]
          exact (hback m mem_cons_self).trans
            (le_of_lt (hm n.id (mem_map_of_mem mem_cons_self)))
      refine pairwise_cons.mpr ⟨?_, ih⟩
      intro m' hm'
      rcases mem_cons.mp hm' with rfl | hm'
      · exact hn
      · exact hn.trans ((pairwise_cons.mp ih).1 m' hm')

/-! ### The inbox and the submissions -/

/-- The queued submissions, in ID order. -/
def Conversation.queued (c : Conversation) : List ℕ :=
  Assoc.keys (c.submissions.filter (fun x => x.2.status = .queued))

theorem items_eq_queued (h : Agrees c.items c) : c.items.map InboxItem.id = c.queued := by
  have hkeys : (Assoc.keys c.submissions).Nodup := h.keys.imp (fun h => ne_of_lt h)
  have hsorted : c.queued.Pairwise (· < ·) := h.keys.sublist (filter_sublist.map _)
  have hmem : ∀ id, id ∈ c.items.map InboxItem.id ↔ id ∈ c.queued := by
    intro id
    constructor
    · intro hid
      obtain ⟨item, hitem, rfl⟩ := mem_map.mp hid
      obtain ⟨r, hr, hawaits⟩ := h.waiting item hitem
      exact mem_map.mpr ⟨(item.id, r),
        mem_filter.mpr ⟨Assoc.mem_of_get hr, decide_eq_true hawaits.1⟩, rfl⟩
    · intro hid
      obtain ⟨x, hx, rfl⟩ := mem_map.mp hid
      obtain ⟨hx, hqueued⟩ := mem_filter.mp hx
      obtain ⟨item, hitem, hid⟩ := h.listed x.1 x.2 (Assoc.get_of_mem hkeys hx)
        (of_decide_eq_true hqueued)
      exact mem_map.mpr ⟨item, hitem, hid⟩
  have hperm : (c.items.map InboxItem.id).Perm c.queued :=
    (perm_ext_iff_of_nodup (h.sorted.imp (fun h => ne_of_lt h))
      (hsorted.imp (fun h => ne_of_lt h))).mpr hmem
  exact hperm.eq_of_pairwise (fun a b _ _ hab hba => absurd (hab.trans hba) (lt_irrefl a))
    h.sorted hsorted

/-- Over every run the inbox holds the queued submissions in ID order; submissions only go on, and
one entry at most places each; every boundary was correct; and what a marker cut stays cut. -/
theorem inbox_runs {c : Conversation} (h : system.Reachable c) :
    (c.items.map InboxItem.id = c.queued ∧ c.queued.Pairwise (· < ·)) ∧
    ((c.entries.filterMap EntryRecord.placing).Nodup ∧ ∀ e ∈ c.entries, ∀ id, e.placing = some id →
      ∃ r, Assoc.get id c.submissions = some r ∧ r.entry = some e.id) ∧
    (∀ b ∈ c.boundaries, b.Correct) ∧
    (c.markers.IsChain Marker.Leads ∧
      ((∀ m ∈ c.markers, m.head ≤ m.id) → c.markers.Pairwise (fun m m' => m.head ≤ m'.head))) ∧
    (∀ c', system.Steps (fun _ _ => True) c c' →
      Onward c c' ∧ ∀ e ∈ c.entries, c.Cut e.id → c'.Cut e.id) ∧
    ∀ commit e, c.Admits commit → c.commit commit = .error e → e.refusal = true := by
  obtain ⟨hagrees, hcorrect⟩ := books_reachable h
  have hqueued := items_eq_queued hagrees
  refine ⟨⟨hqueued, hqueued ▸ hagrees.sorted⟩, ⟨hagrees.placings, hagrees.placed⟩, hcorrect,
    ⟨hagrees.heads, heads_pairwise hagrees.heads hagrees.markers_sorted⟩, ?_, ?_⟩
  · intro c' hrun
    have hon := onward_run ⟨hagrees, hcorrect⟩ hrun
    have hbooks := books_reachable (h.steps hrun)
    exact ⟨hon, fun e he hcut => cut_onward hbooks.1 hon he hcut⟩
  · intro commit e hadmits herror
    rcases answers_commit hagrees hadmits with ⟨e', he', hrefusal⟩ | ⟨c', hc', -⟩
    · rw [herror] at he'
      obtain rfl := error.inj he'
      exact hrefusal
    · rw [herror] at hc'
      cases hc'

def fresh : Conversation where
  next := 0
  inherited := none
  entries := []
  submissions := []
  items := []
  run := none
  runFailure := none
  boundaries := []

theorem fresh_reachable : system.Reachable fresh :=
  ⟨fresh, ⟨(fun _ h => by cases h), rfl, rfl, rfl, rfl, rfl, rfl⟩, .refl _⟩

/-- What the commits of a list lead to, each one that is refused left out. -/
def Conversation.after (c : Conversation) (commits : List Commit) : Conversation :=
  commits.foldl (fun c commit => (c.commit commit).toOption.getD c) c

theorem after_reachable (h : system.Reachable c) {commits : List Commit}
    (hadmits : ∀ commit ∈ commits, ∀ c : Conversation, c.Admits commit) :
    system.Reachable (c.after commits) := by
  induction commits generalizing c with
  | nil => exact h
  | cons commit commits ih =>
    refine ih ?_ fun each heach => hadmits each (mem_cons_of_mem _ heach)
    dsimp only
    cases hcommit : c.commit commit with
    | error e => exact h
    | ok c' => exact h.steps (.single ⟨hadmits commit mem_cons_self c, hcommit⟩ trivial)

def steerWith (text : Text) : Commit :=
  .submit (.input none (.str text) (some .steer) false none) 0 ⟨.all, .all⟩

def headWrite (head : Head) : Commit :=
  .submit (.write none { kind := RESET_KIND, head := some head }) 0 ⟨.all, .all⟩

/-- A run whose tools are behind a steer and a reset, and an input queued for the next one. -/
def steered : Conversation :=
  fresh.after [steerWith (ascii "a"), steerWith (ascii "b"), headWrite .self,
    .finishToolRound 3 2 none .next ⟨.all, .all⟩ 0, steerWith (ascii "c")]

theorem inbox_runs_steered :
    (steered.items.map InboxItem.id = steered.queued ∧ steered.queued.Pairwise (· < ·)) ∧
    ((steered.entries.filterMap EntryRecord.placing).Nodup ∧ ∀ e ∈ steered.entries, ∀ id, e.placing
      = some id → ∃ r, Assoc.get id steered.submissions = some r ∧ r.entry = some e.id) ∧
    (∀ b ∈ steered.boundaries, b.Correct) ∧
    (steered.markers.IsChain Marker.Leads ∧ ((∀ m ∈ steered.markers, m.head ≤ m.id) →
      steered.markers.Pairwise (fun m m' => m.head ≤ m'.head))) ∧
    (∀ c', system.Steps (fun _ _ => True) steered c' →
      Onward steered c' ∧ ∀ e ∈ steered.entries, steered.Cut e.id → c'.Cut e.id) ∧
    ∀ commit e, steered.Admits commit → steered.commit commit = .error e → e.refusal = true :=
  inbox_runs (after_reachable fresh_reachable (by simp [Conversation.Admits, steerWith, headWrite]))

example : steered.queued = [9] ∧ steered.markers.map Marker.head = [6] ∧
    steered.boundaries.length = 1 := by decide +kernel

/-- A head is not checked against the entries there are: after one that names an entry of the
future, a reset starts below it. -/
theorem head_ahead_then_reset :
    ∃ c, system.Reachable c ∧ ¬ c.markers.Pairwise (fun m m' => m.head ≤ m'.head) := by
  refine ⟨_, @after_reachable fresh fresh_reachable [headWrite (.entry 10), headWrite .self]
    (by simp [Conversation.Admits, headWrite]), fun h => ?_⟩
  have := (pairwise_cons.mp h).1 ⟨3, 3⟩ mem_cons_self
  exact absurd this (by decide)

end KnightCode.Inbox
