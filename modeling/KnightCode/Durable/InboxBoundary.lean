import KnightCode.Durable.InboxBooks

/-!
# What a boundary does

A boundary takes every write and the user items its modes select, places them one after the other,
and leaves the others in order. Each placement leaves the books in agreement with one item less.
-/

namespace KnightCode.Inbox

open List
variable {items : List InboxItem} {c : Conversation} {item : InboxItem}

open Delta (Json)

def EntryRecord.Is (e : EntryRecord) (draft : EntryDraft) : Prop :=
  e.kind = draft.kind ∧ e.model = draft.model ∧ e.data = draft.data ∧ e.edits = draft.edits ∧
    e.head = Conversation.resolveHead e.id draft.head

def Carries (item : InboxItem) (e : EntryRecord) : Prop :=
  e.placing = some item.id ∧
    match item with
    | .write _ draft => e.Is draft
    | .user _ _ content entry => ∃ now, e.Is (inputEntry content entry now)

/-- From `c` to `c'` the items `taken` left the queue; an entry was appended for each of `placed`. -/
structure Passed (items taken placed : List InboxItem) (c c' : Conversation) : Prop where
  agrees : Agrees (items.filter (fun item => item.id ∉ taken.map InboxItem.id)) c'
  onward : Onward c c'
  run : c'.run = c.run
  items : c'.items = c.items
  boundaries : c'.boundaries = c.boundaries
  entries : ∃ new, c'.entries = c.entries ++ new ∧ List.Forall₂ Carries placed new

theorem Passed.nil (h : Agrees items c) : Passed items [] [] c c where
  agrees := by
    rw [filter_eq_self.mpr (fun _ _ => by simp)]
    exact h
  onward := .refl c
  run := rfl
  items := rfl
  boundaries := rfl
  entries := ⟨[], (append_nil _).symm, .nil⟩

theorem Passed.trans {taken placed taken' placed' : List InboxItem} {d e : Conversation}
    (h : Passed items taken placed c d)
    (h' : Passed (items.filter (fun item => item.id ∉ taken.map InboxItem.id)) taken' placed' d e) :
    Passed items (taken ++ taken') (placed ++ placed') c e where
  agrees := by
    have heq : (items.filter (fun item => item.id ∉ taken.map InboxItem.id)).filter
        (fun item => item.id ∉ taken'.map InboxItem.id) =
        items.filter (fun item => item.id ∉ (taken ++ taken').map InboxItem.id) := by
      rw [filter_filter]
      apply filter_congr
      intro item _
      rw [map_append]
      simp only [mem_append, not_or, Bool.decide_and]
      exact Bool.and_comm _ _
    rw [← heq]
    exact h'.agrees
  onward := h.onward.trans h'.onward
  run := h'.run.trans h.run
  items := h'.items.trans h.items
  boundaries := h'.boundaries.trans h.boundaries
  entries := by
    obtain ⟨new, hnew, hcarries⟩ := h.entries
    obtain ⟨new', hnew', hcarries'⟩ := h'.entries
    refine ⟨new ++ new', ?_, ?_⟩
    · rw [hnew', hnew, append_assoc]
    · exact rel_append hcarries hcarries'

theorem filter_not_singleton (items : List InboxItem) (item : InboxItem) :
    items.filter (fun i => i.id ∉ [item].map InboxItem.id) =
      items.filter (fun i => i.id ≠ item.id) := by
  apply filter_congr
  intro i _
  simp

theorem Passed.place (h : Agrees items c) {r : SubmissionRecord}
    (hr : Assoc.get item.id c.submissions = some r) (hawaits : r.Awaits item) {draft : EntryDraft}
    (hfits : c.Fits draft.head)
    (hcarries : ∀ e : EntryRecord, e.placing = some item.id → e.Is draft → Carries item e) :
    Passed items [item] [item] c (c.place item.id r draft) where
  agrees := by
    rw [filter_not_singleton]
    exact h.place hr hawaits hfits
  onward := onward_place hr hawaits draft
  run := rfl
  items := rfl
  boundaries := rfl
  entries := ⟨_, rfl, .cons (hcarries _ rfl ⟨rfl, rfl, rfl, rfl, rfl⟩) .nil⟩

theorem Passed.settle (h : Agrees items c) {r : SubmissionRecord}
    (hr : Assoc.get item.id c.submissions = some r) (hawaits : r.Awaits item) (reason : Text)
    (detail : Option Json) :
    Passed items [item] [] c
      { c with submissions :=
          Assoc.set item.id (r.unansweredWith reason detail) c.submissions } where
  agrees := by
    rw [filter_not_singleton]
    exact h.settle hr (SubmissionRecord.unansweredWith_onward (by rw [hawaits.1]; rfl) _ _)
      (fun h => by cases h)
  onward := onward_set hr
    (SubmissionRecord.unansweredWith_onward (by rw [hawaits.1]; rfl) reason detail)
  run := rfl
  items := rfl
  boundaries := rfl
  entries := ⟨[], (append_nil _).symm, .nil⟩

/-! ### The head during a boundary -/

theorem latestHead_append (c : Conversation) (draft : EntryDraft) (placing : Option ℕ) :
    (c.appendEntry draft placing).2.latestHead =
      (Conversation.resolveHead (c.next + 1) draft.head <|> c.latestHead) := by
  simp only [Conversation.latestHead, Conversation.latestHeadMarker, Conversation.appendEntry,
    Conversation.mintId, reverse_append, reverse_singleton, singleton_append,
    findSome?_cons, EntryRecord.marker]
  cases Conversation.resolveHead (c.next + 1) draft.head <;> rfl

theorem Boundary.advance_head (boundary : Boundary) (id : ℕ) (draft : EntryDraft) :
    (boundary.advance id draft).head =
      (Conversation.resolveHead id draft.head <|> boundary.head) := by
  unfold Boundary.advance Conversation.resolveHead
  cases draft.head with
  | none => rfl
  | some head => cases head <;> rfl

variable {boundary : Boundary}

theorem fits_of_not_stale {c : Conversation} (hb : boundary.head = c.latestHead)
    {draft : EntryDraft} (hstale : isStale boundary draft = false) : c.Fits draft.head := by
  intro id current hhead hcurrent
  unfold isStale at hstale
  rw [hhead, hb, hcurrent] at hstale
  exact not_lt.mp (of_decide_eq_false hstale)

theorem fits_none (c : Conversation) : c.Fits none := by
  intro id current hhead
  cases hhead

/-! ### The two loops -/

theorem sublist_of_cons {taken : List InboxItem}
    (hsorted : (items.map InboxItem.id).Pairwise (· < ·)) (hsub : (item :: taken).Sublist items) :
    taken.Sublist (items.filter (fun i => i.id ∉ [item].map InboxItem.id)) := by
  have hne : ∀ i ∈ taken, item.id < i.id := by
    have := hsorted.sublist (hsub.map InboxItem.id)
    intro i hi
    exact (pairwise_cons.mp this).1 i.id (mem_map_of_mem hi)
  have hself : taken.filter (fun i => i.id ∉ [item].map InboxItem.id) = taken := by
    rw [filter_eq_self]
    intro i hi
    have := hne i hi
    simp only [map_cons, map_nil, mem_singleton, decide_eq_true_eq]
    omega
  rw [← hself]
  exact ((sublist_cons_self item taken).trans hsub).filter _

/-- Where a write of a boundary ended: placed with it, or stale. -/
def Decided (placed : List InboxItem) (c : Conversation) (item : InboxItem) : Prop :=
  ∃ r, Assoc.get item.id c.submissions = some r ∧
    ((item ∈ placed ∧ r.status = .done) ∨
      (item ∉ placed ∧ r.status = .unanswered ∧ r.reason = some (ascii "stale")))

theorem placeWrites_spec {items : List InboxItem} {c : Conversation} (h : Agrees items c)
    (hb : boundary.head = c.latestHead) {writes : List (InboxItem × ℕ)}
    (hsub : (writes.map Prod.fst).Sublist items) (hw : ∀ x ∈ writes, x.1.isWrite = true)
    (first : Option ℕ) :
    ∃ boundary' first' c' placed,
      placeWrites writes boundary first c = .ok (boundary', first', c') ∧
      Passed items (writes.map Prod.fst) placed c c' ∧ placed.Sublist (writes.map Prod.fst) ∧
      ∀ x ∈ writes, Decided placed c' x.1 := by
  induction writes generalizing items c boundary first with
  | nil => exact ⟨boundary, first, c, [], rfl, .nil h, .slnil, by simp⟩
  | cons x writes ih =>
    obtain ⟨item, index⟩ := x
    cases item with
    | user => exact absurd (hw _ mem_cons_self) (by simp [InboxItem.isWrite])
    | write id draft =>
      rw [map_cons] at hsub
      have hw' : ∀ x ∈ writes, x.1.isWrite = true := fun x hx => hw x (mem_cons_of_mem _ hx)
      have hrest := sublist_of_cons h.sorted hsub
      obtain ⟨r, hr, hawaits⟩ := h.waiting _ (hsub.subset mem_cons_self)
      have hout : ∀ placed : List InboxItem, placed.Sublist (writes.map Prod.fst) →
          InboxItem.write id draft ∉ placed := by
        intro placed hplaced hmem
        have := mem_filter.mp (hrest.subset (hplaced.subset hmem))
        simp at this
      by_cases hstale : isStale boundary draft = true
      · have hstep := Passed.settle h hr hawaits (ascii "stale") none
        obtain ⟨b', f', c', placed, hrun, hpassed, hplaced, hdecided⟩ :=
          ih hstep.agrees hb hrest hw' first
        refine ⟨b', f', c', placed, ?_, hstep.trans hpassed, hplaced.cons _, ?_⟩
        · rw [placeWrites, if_pos hstale]
          have hchange :=
            changeSubmission_unanswered hr (by rw [hawaits.1]; rfl) (ascii "stale") none
          change (c.changeSubmission id (.unanswered (ascii "stale") none) >>= _) = _
          rw [show c.changeSubmission id (.unanswered (ascii "stale") none) = _ from hchange]
          exact hrun
        · intro x hx
          rcases mem_cons.mp hx with rfl | hx
          · obtain ⟨r', hr', hon⟩ := hpassed.onward.submissions id _ (Assoc.get_set_self _ _ _)
            obtain rfl := hon.settled rfl
            exact ⟨_, hr', .inr ⟨hout placed hplaced, rfl, rfl⟩⟩
          · exact hdecided x hx
      · rw [Bool.not_eq_true] at hstale
        have hstep := Passed.place h hr hawaits (fits_of_not_stale hb hstale)
          (fun e he hi => ⟨he, hi⟩)
        have hb' : (boundary.advance (c.next + 1) draft).head =
            (c.place (InboxItem.write id draft).id r draft).latestHead := by
          rw [Boundary.advance_head, hb]
          exact (latestHead_append c draft (some id)).symm
        obtain ⟨b', f', c', placed, hrun, hpassed, hplaced, hdecided⟩ :=
          ih hstep.agrees hb' hrest hw' (first <|> some (c.next + 1))
        refine ⟨b', f', c', .write id draft :: placed, ?_, hstep.trans hpassed,
          hplaced.cons_cons _, ?_⟩
        · rw [placeWrites, if_neg (by rw [hstale]; decide)]
          have hchange := Conversation.place_eq hr hawaits draft
          change ((c.appendEntry draft (some id)).2.changeSubmission id (.placed (c.next + 1)) >>=
            _) = _
          rw [show (c.appendEntry draft (some id)).2.changeSubmission id (.placed (c.next + 1)) = _
            from hchange]
          exact hrun
        · intro x hx
          rcases mem_cons.mp hx with rfl | hx
          · obtain ⟨r', hr', hon⟩ := hpassed.onward.submissions id _ (Assoc.get_set_self _ _ _)
            have hdone : (r.placedAt (c.next + 1)).status = .done := by
              simp [SubmissionRecord.placedAt, hawaits.2.2, InboxItem.isWrite]
            obtain rfl := hon.settled (by rw [hdone]; rfl)
            exact ⟨_, hr', .inl ⟨mem_cons_self, hdone⟩⟩
          · obtain ⟨r', hr', hcase⟩ := hdecided x hx
            have hne : x.1 ≠ .write id draft := by
              rintro heq
              exact hout _ (List.Sublist.refl _) (heq ▸ mem_map_of_mem hx)
            refine ⟨r', hr', hcase.imp (fun h => ⟨mem_cons_of_mem _ h.1, h.2⟩) ?_⟩
            rintro ⟨hnot, hrest⟩
            refine ⟨?_, hrest⟩
            rw [mem_cons]
            exact fun h => h.elim hne hnot

theorem placeUsers_spec (h : Agrees items c) (now : ℕ) {users : List (InboxItem × ℕ)}
    (hsub : (users.map Prod.fst).Sublist items) (hu : ∀ x ∈ users, x.1.isWrite = false)
    (placed : List ℕ) (first : Option ℕ) :
    ∃ first' c', placeUsers now users placed first c =
        .ok (placed ++ users.map (fun x => x.1.id), first', c') ∧
      Passed items (users.map Prod.fst) (users.map Prod.fst) c c' := by
  induction users generalizing items c placed first with
  | nil => exact ⟨first, c, by rw [map_nil, append_nil]; rfl, .nil h⟩
  | cons x users ih =>
    obtain ⟨item, index⟩ := x
    cases item with
    | write => exact absurd (hu _ mem_cons_self) (by simp [InboxItem.isWrite])
    | user id mode content entry =>
      rw [map_cons] at hsub
      have hrest := sublist_of_cons h.sorted hsub
      obtain ⟨r, hr, hawaits⟩ := h.waiting _ (hsub.subset mem_cons_self)
      have hfits : c.Fits (inputEntry content entry now).head := by
        unfold inputEntry
        cases entry <;> exact fits_none c
      have hstep := Passed.place h hr hawaits hfits (fun e he hi => ⟨he, now, hi⟩)
      obtain ⟨f', c', hrun, hpassed⟩ := ih hstep.agrees hrest
        (fun x hx => hu x (mem_cons_of_mem _ hx)) (placed ++ [id]) (first <|> some (c.next + 1))
      refine ⟨f', c', ?_, hstep.trans hpassed⟩
      have hchange := Conversation.place_eq hr hawaits (inputEntry content entry now)
      rw [placeUsers]
      change ((c.appendEntry (inputEntry content entry now) (some id)).2.changeSubmission id
        (.placed (c.next + 1)) >>= _) = _
      rw [show (c.appendEntry (inputEntry content entry now) (some id)).2.changeSubmission id
        (.placed (c.next + 1)) = _ from hchange]
      rw [append_assoc] at hrun
      exact hrun

/-! ### What it selects -/

def takes (items : List InboxItem) (mode : UserMode) (queueMode : QueueMode) (item : InboxItem) :
    Bool :=
  item.hasMode mode && (queueMode = .all ||
    (items.find? (InboxItem.hasMode mode)).map InboxItem.id == some item.id)

/-- What a boundary takes of `items`. -/
def selects (items : List InboxItem) (modes : QueueModes) (final : Bool) (item : InboxItem) :
    Bool :=
  item.isWrite || takes items .steer modes.steeringMode item ||
    (final && takes items .followUp modes.followUpMode item)

theorem pick_eq (hsorted : (items.map InboxItem.id).Pairwise (· < ·)) (mode : UserMode)
    (queueMode : QueueMode) :
    pick items mode queueMode = items.zipIdx.filter (fun x => takes items mode queueMode x.1) := by
  cases queueMode with
  | all =>
    unfold pick indexes
    apply filter_congr
    intro x _
    simp [takes]
  | oneAtATime =>
    have := Positions.take_one_filter InboxItem.id (InboxItem.hasMode mode)
      (hsorted.imp (fun h => ne_of_lt h)) 0
    unfold pick indexes
    rw [this]
    apply filter_congr
    intro x _
    simp [takes]

theorem hasMode_not_write {mode : UserMode} (h : item.hasMode mode = true) :
    item.isWrite = false := by
  cases item with
  | user => rfl
  | write => cases h

theorem hasMode_unique (h : item.hasMode .steer = true) : item.hasMode .followUp = false := by
  cases item with
  | user id mode content entry =>
    obtain rfl : mode = .steer := of_decide_eq_true h
    rfl
  | write => rfl

theorem takes_hasMode {mode : UserMode} {queueMode : QueueMode}
    (h : takes items mode queueMode item = true) : item.hasMode mode = true :=
  (Bool.and_eq_true_iff.mp h).1

theorem pickUsers_eq (hsorted : (items.map InboxItem.id).Pairwise (· < ·)) (modes : QueueModes)
    (final : Bool) :
    pickUsers items modes final =
      items.zipIdx.filter (fun x => !x.1.isWrite && selects items modes final x.1) := by
  unfold pickUsers
  apply Positions.sort_filter
  have hfollow : (if final then pick items .followUp modes.followUpMode else []) =
      items.zipIdx.filter (fun x => final && takes items .followUp modes.followUpMode x.1) := by
    cases final with
    | true => simpa using pick_eq hsorted _ _
    | false => simp
  rw [pick_eq hsorted, hfollow]
  refine (Positions.filter_or_perm _ _ _ ?_).trans (List.Perm.of_eq ?_)
  · intro x _ hsteer
    have := hasMode_unique (takes_hasMode hsteer)
    rw [takes, this, Bool.false_and, Bool.and_false]
  · apply filter_congr
    intro x _
    cases hwrite : x.1.isWrite with
    | false => simp [selects, hwrite]
    | true =>
      have hnone : ∀ mode queueMode, takes items mode queueMode x.1 = false := by
        intro mode queueMode
        rw [Bool.eq_false_iff]
        intro h
        rw [hasMode_not_write (takes_hasMode h)] at hwrite
        cases hwrite
      simp [hnone]

/-- Every write is placed in turn or found stale, then the selected user items are placed, and the
items nothing selected are left; all in the order of their IDs. -/
structure BoundaryRun.Correct (b : BoundaryRun) : Prop where
  sorted : (b.items.map InboxItem.id).Pairwise (· < ·)
  left : b.itemsAfter = b.items.filter (fun item =>
    !selects b.items b.modes (decide (b.place = .final) || hasQueuedReset b.items) item)
  appended : ∃ writes new, b.entriesAfter = b.entries ++ new ∧
    writes.Sublist (b.items.filter InboxItem.isWrite) ∧
    (∀ item ∈ b.items, item.isWrite = true →
      ∃ r, Assoc.get item.id b.submissionsAfter = some r ∧
        ((item ∈ writes ∧ r.status = .done) ∨
          (item ∉ writes ∧ r.status = .unanswered ∧ r.reason = some (ascii "stale")))) ∧
    List.Forall₂ Carries (writes ++ b.items.filter (fun item => !item.isWrite &&
      selects b.items b.modes (decide (b.place = .final) || hasQueuedReset b.items) item)) new
  ordered : (b.entriesAfter.map EntryRecord.id).Pairwise (· < ·)

theorem mem_taken (hsorted : (items.map InboxItem.id).Pairwise (· < ·)) (p : InboxItem → Bool)
    (hitem : item ∈ items) : item.id ∈ (items.filter p).map InboxItem.id ↔ p item = true := by
  constructor
  · intro h
    obtain ⟨item', hitem', hid⟩ := mem_map.mp h
    obtain ⟨hitem', hp⟩ := mem_filter.mp hitem'
    have := inj_on_of_nodup_map (hsorted.imp (fun h => ne_of_lt h)) hitem' hitem hid
    rwa [← this]
  · exact fun hp => mem_map_of_mem (mem_filter.mpr ⟨hitem, hp⟩)

theorem filter_not_taken (hsorted : (items.map InboxItem.id).Pairwise (· < ·))
    (p : InboxItem → Bool) :
    items.filter (fun item => item.id ∉ (items.filter p).map InboxItem.id) =
      items.filter (fun item => !p item) := by
  apply filter_congr
  intro item hitem
  have := mem_taken hsorted p hitem
  cases hp : p item <;> simp [this, hp]

theorem applyBoundary_spec (h : Agrees c.items c) (hb : boundary.head = c.latestHead) (place : At)
    (now : ℕ) :
    ∃ result c' b, applyBoundary c boundary place now = .ok (result, c') ∧
      Agrees c'.items c' ∧ Onward c c' ∧ c'.run = c.run ∧
      c'.boundaries = c.boundaries ++ [b] ∧ b.Correct ∧
      ∀ id ∈ result.users, ∃ r, Assoc.get id c'.submissions = some r ∧ r.status ≠ .queued := by
  let final := decide (place = .final) || hasQueuedReset c.items
  let selected := selects c.items boundary.modes final
  let user : InboxItem → Bool := fun item => !item.isWrite && selected item
  have hwrites : (indexes InboxItem.isWrite c.items).map Prod.fst =
      c.items.filter InboxItem.isWrite := Positions.filter_fst _ _
  have hpicked : pickUsers c.items boundary.modes final = c.items.zipIdx.filter (fun x => user x.1) :=
    pickUsers_eq h.sorted _ _
  have husers : (pickUsers c.items boundary.modes final).map Prod.fst = c.items.filter user := by
    rw [hpicked]
    exact Positions.filter_fst user _
  -- The writes are all out of the queue before the first user item is placed.
  obtain ⟨boundary', first, d, writes, hplace, hpassed, hsub, hdecided⟩ :=
    @placeWrites_spec _ _ _ h hb (indexes InboxItem.isWrite c.items)
      (hwrites ▸ filter_sublist) (fun x hx => (mem_filter.mp hx).2) none
  rw [hwrites] at hpassed hsub
  have hremain := filter_not_taken h.sorted InboxItem.isWrite
  have husersub : ((pickUsers c.items boundary.modes final).map Prod.fst).Sublist
      (c.items.filter (fun item =>
        item.id ∉ (c.items.filter InboxItem.isWrite).map InboxItem.id)) := by
    rw [husers, hremain]
    exact monotone_filter_right _ (fun item hitem => (Bool.and_eq_true_iff.mp hitem).1)
  obtain ⟨first', e, hplace', hpassed'⟩ := placeUsers_spec hpassed.agrees now husersub
    (by
      intro x hx
      rw [hpicked] at hx
      have := (Bool.and_eq_true_iff.mp (mem_filter.mp hx).2).1
      exact Bool.not_eq_true' x.1.isWrite |>.mp this) [] first
  rw [husers] at hpassed'
  let left := Positions.removeAt c.items
    (((indexes InboxItem.isWrite c.items ++ pickUsers c.items boundary.modes final).map
      Prod.snd).mergeSort (fun i j => decide (j ≤ i)))
  have hleft : left = c.items.filter (fun item => !selected item) := by
    have hperm : (indexes InboxItem.isWrite c.items ++
        pickUsers c.items boundary.modes final).Perm
        (c.items.zipIdx.filter (fun x => selected x.1)) := by
      rw [hpicked]
      refine (Positions.filter_or_perm _ _ _ ?_).trans (List.Perm.of_eq ?_)
      · intro x _ hx
        simp [user, hx]
      · apply filter_congr
        intro x _
        cases hx : x.1.isWrite <;> simp [user, selected, selects, hx]
    unfold left
    rw [Positions.sort_positions hperm, Positions.removeAt_reverse_filter]
    exact Positions.filter_fst (fun item => !selected item) _
  have htrans := hpassed.trans hpassed'
  have htaken : c.items.filter (fun item => item.id ∉
      (c.items.filter InboxItem.isWrite ++ c.items.filter user).map InboxItem.id) =
      c.items.filter (fun item => !selected item) := by
    apply filter_congr
    intro item hitem
    have hw := mem_taken h.sorted InboxItem.isWrite hitem
    have hu := mem_taken h.sorted user hitem
    have hselected : selected item = (item.isWrite || user item) := by
      cases hx : item.isWrite <;> simp [user, selected, selects, hx]
    rw [map_append, Bool.eq_iff_iff, decide_eq_true_iff, mem_append, hw, hu, hselected]
    simp
  have hagrees := htrans.agrees
  rw [htaken, ← hleft] at hagrees
  let b : BoundaryRun :=
    { place
      modes := boundary.modes
      items := c.items
      entries := c.entries
      itemsAfter := left
      entriesAfter := e.entries
      submissionsAfter := e.submissions }
  refine ⟨⟨[] ++ (pickUsers c.items boundary.modes final).map (fun x => x.1.id), first',
      hasQueuedReset c.items⟩,
    { e with items := left, boundaries := e.boundaries ++ [b] }, b, ?_, ?_, ?_,
    htrans.run, ?_, ?_, ?_⟩
  · unfold applyBoundary
    change (placeWrites (indexes InboxItem.isWrite c.items) boundary none c >>= _) = _
    rw [hplace]
    change (placeUsers now (pickUsers c.items boundary.modes final) [] first d >>= _) = _
    rw [hplace']
    rfl
  · exact hagrees.congr (le_refl _) rfl rfl rfl hagrees.running
  · exact ⟨htrans.onward.inherited, htrans.onward.entries, htrans.onward.submissions⟩
  · rw [← htrans.boundaries]
  · obtain ⟨new, hnew, hcarries⟩ := htrans.entries
    refine ⟨h.sorted, hleft, ⟨writes, new, hnew, hsub, ?_, hcarries⟩, hagrees.entryIds⟩
    intro item hitem hwrite
    have hmem : item ∈ (indexes InboxItem.isWrite c.items).map Prod.fst :=
      hwrites ▸ mem_filter.mpr ⟨hitem, hwrite⟩
    obtain ⟨x, hx, rfl⟩ := mem_map.mp hmem
    obtain ⟨r, hr, hcase⟩ := hdecided x hx
    obtain ⟨r', hr', hon⟩ := hpassed'.onward.submissions _ r hr
    have hsettled : r.status.settled = true := by
      rcases hcase with ⟨-, hs⟩ | ⟨-, hs, -⟩ <;> rw [hs] <;> rfl
    obtain rfl := hon.settled hsettled
    exact ⟨r', hr', hcase⟩
  · intro id hid
    rw [nil_append] at hid
    obtain ⟨x, hx, rfl⟩ := mem_map.mp hid
    have hmem : x.1 ∈ c.items.filter user := husers ▸ mem_map_of_mem hx
    obtain ⟨r, hr, -⟩ := h.waiting x.1 (mem_of_mem_filter hmem)
    obtain ⟨r', hr', -⟩ := htrans.onward.submissions _ r hr
    refine ⟨r', hr', ?_⟩
    intro hqueued
    obtain ⟨item, hitem, hid⟩ := htrans.agrees.listed _ r' hr' hqueued
    have := of_decide_eq_true (mem_filter.mp hitem).2
    refine this ?_
    rw [hid]
    exact mem_map_of_mem (mem_append_right _ hmem)

end KnightCode.Inbox
