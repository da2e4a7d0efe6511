import KnightCode.Durable.Submissions

/-!
# The books of the inbox

`Agrees items c` says that the queued submissions of `c` are the ones `items` stands for, that each
submission was placed at most once, that the inputs of the run are placed, and that the head only
moves forward. A commit takes it from one state to the next through the few writes below.
-/

namespace KnightCode.Inbox

open List Option
variable {item : InboxItem} {items : List InboxItem} {id : ℕ}

open Delta (Json)

/-- How a submission goes on: nothing it has reached is taken back. -/
structure SubmissionRecord.Onward (r r' : SubmissionRecord) : Prop where
  type : r'.type = r.type
  requestId : r'.requestId = r.requestId
  entry : ∀ e, r.entry = some e → r'.entry = some e
  placed : r.status ≠ .queued → r'.status ≠ .queued
  settled : r.status.settled → r' = r

theorem SubmissionRecord.Onward.refl (r : SubmissionRecord) : r.Onward r :=
  ⟨rfl, rfl, fun _ h => h, fun h => h, fun _ => rfl⟩

variable {r : SubmissionRecord}

theorem SubmissionRecord.Onward.trans {s t : SubmissionRecord} (h : r.Onward s) (h' : s.Onward t) :
    r.Onward t where
  type := h'.type.trans h.type
  requestId := h'.requestId.trans h.requestId
  entry e he := h'.entry e (h.entry e he)
  placed hr := h'.placed (h.placed hr)
  settled hr := by
    obtain rfl := h.settled hr
    exact h'.settled hr

/-- Entries are only appended, and every submission goes on. -/
structure Onward (c c' : Conversation) : Prop where
  inherited : c'.inherited = c.inherited
  entries : c.entries <+: c'.entries
  submissions : ∀ id r, Assoc.get id c.submissions = some r →
    ∃ r', Assoc.get id c'.submissions = some r' ∧ r.Onward r'

theorem Onward.refl (c : Conversation) : Onward c c :=
  ⟨rfl, prefix_refl _, fun _ r h => ⟨r, h, .refl r⟩⟩

variable {c : Conversation}

theorem Onward.trans {d e : Conversation} (h : Onward c d) (h' : Onward d e) : Onward c e where
  inherited := h'.inherited.trans h.inherited
  entries := h.entries.trans h'.entries
  submissions id r hr := by
    obtain ⟨s, hs, hrs⟩ := h.submissions id r hr
    obtain ⟨t, ht, hst⟩ := h'.submissions id s hs
    exact ⟨t, ht, hrs.trans hst⟩

/-- Nothing is appended and no boundary is passed. -/
structure Quiet (c c' : Conversation) : Prop where
  onward : Onward c c'
  entries : c'.entries = c.entries
  boundaries : c'.boundaries = c.boundaries

theorem Quiet.refl (c : Conversation) : Quiet c c :=
  ⟨.refl c, rfl, rfl⟩

theorem Quiet.trans {d e : Conversation} (h : Quiet c d) (h' : Quiet d e) : Quiet c e :=
  ⟨h.onward.trans h'.onward, h'.entries.trans h.entries, h'.boundaries.trans h.boundaries⟩

theorem Quiet.latestHead {c' : Conversation} (h : Quiet c c') : c'.latestHead = c.latestHead := by
  rw [Conversation.latestHead, Conversation.latestHeadMarker, h.entries, h.onward.inherited]
  rfl

/-! ### Head markers -/

namespace Conversation

/-- The markers of the active range, oldest first. -/
def markers (c : Conversation) : List Marker :=
  c.inherited.toList ++ c.entries.filterMap EntryRecord.marker

theorem latestHeadMarker_eq (c : Conversation) : c.latestHeadMarker = c.markers.getLast? := by
  have hfind : c.entries.reverse.findSome? EntryRecord.marker =
      (c.entries.filterMap EntryRecord.marker).getLast? := by
    rw [← head?_filterMap, filterMap_reverse, head?_reverse]
  unfold latestHeadMarker markers
  rw [hfind, getLast?_append]
  cases (c.entries.filterMap EntryRecord.marker).getLast? with
  | some marker => rfl
  | none => cases c.inherited <;> rfl

end Conversation

/-- A later marker keeps no entry the earlier one cut, or is a reset. -/
def Marker.Leads (m m' : Marker) : Prop :=
  m.head ≤ m'.head ∨ m'.head = m'.id

/-- A head that does not reach before the active range. -/
def Conversation.Fits (c : Conversation) (head : Option Head) : Prop :=
  ∀ id current, head = some (.entry id) → c.latestHead = some current → current ≤ id

def SubmissionRecord.Awaits (r : SubmissionRecord) (item : InboxItem) : Prop :=
  r.status = .queued ∧ r.entry = none ∧ r.type = if item.isWrite then .write else .input

/-- The books agree: `items` are the queued submissions of `c`, and so on. -/
structure Agrees (items : List InboxItem) (c : Conversation) : Prop where
  sorted : (items.map InboxItem.id).Pairwise (· < ·)
  waiting : ∀ item ∈ items, ∃ r, Assoc.get item.id c.submissions = some r ∧ r.Awaits item
  listed : ∀ id r, Assoc.get id c.submissions = some r → r.status = .queued →
    ∃ item ∈ items, item.id = id
  keys : (Assoc.keys c.submissions).Pairwise (· < ·)
  minted : ∀ id ∈ Assoc.keys c.submissions, id ≤ c.next
  entryIds : (c.entries.map EntryRecord.id).Pairwise (· < ·)
  entryMinted : ∀ e ∈ c.entries, e.id ≤ c.next
  placings : (c.entries.filterMap EntryRecord.placing).Nodup
  placed : ∀ e ∈ c.entries, ∀ id, e.placing = some id →
    ∃ r, Assoc.get id c.submissions = some r ∧ r.entry = some e.id
  running : ∀ run, c.run = some run → ∀ id ∈ run.inputs,
    ∃ r, Assoc.get id c.submissions = some r ∧ r.status ≠ .queued
  heads : c.markers.IsChain Marker.Leads
  inherited : ∀ marker, c.inherited = some marker → marker.id ≤ c.next
  later : ∀ marker, c.inherited = some marker → ∀ e ∈ c.entries, marker.id < e.id

namespace Agrees

variable {items : List InboxItem} {c c' : Conversation}
variable {r : SubmissionRecord}

theorem created (h : c.Created) : Agrees c.items c := by
  obtain ⟨hinherited, hentries, hsubmissions, hitems, hrun, -, -⟩ := h
  have hmarkers : c.markers.IsChain Marker.Leads := by
    rw [Conversation.markers, hentries]
    cases c.inherited with
    | none => exact .nil
    | some marker => exact .singleton marker
  constructor
  all_goals simp_all [Assoc.keys]

theorem congr (h : Agrees items c) (hnext : c.next ≤ c'.next)
    (hinherited : c'.inherited = c.inherited) (hentries : c'.entries = c.entries)
    (hsubmissions : c'.submissions = c.submissions)
    (hrun : ∀ run, c'.run = some run → ∀ id ∈ run.inputs,
      ∃ r, Assoc.get id c.submissions = some r ∧ r.status ≠ .queued) : Agrees items c' where
  sorted := h.sorted
  waiting := by rw [hsubmissions]; exact h.waiting
  listed := by rw [hsubmissions]; exact h.listed
  keys := by rw [hsubmissions]; exact h.keys
  minted id hid := by
    rw [hsubmissions] at hid
    exact (h.minted id hid).trans hnext
  entryIds := by rw [hentries]; exact h.entryIds
  entryMinted e he := by
    rw [hentries] at he
    exact (h.entryMinted e he).trans hnext
  placings := by rw [hentries]; exact h.placings
  placed := by rw [hentries, hsubmissions]; exact h.placed
  running := by rw [hsubmissions]; exact hrun
  heads := by rw [Conversation.markers, hinherited, hentries]; exact h.heads
  inherited marker hm := (h.inherited marker (hinherited ▸ hm)).trans hnext
  later := by rw [hinherited, hentries]; exact h.later

theorem mint (h : Agrees items c) : Agrees items c.mintId.2 :=
  h.congr (Nat.le_succ _) rfl rfl rfl h.running

theorem markers_sorted (h : Agrees items c) : (c.markers.map Marker.id).Pairwise (· < ·) := by
  have hid : ∀ e m, EntryRecord.marker e = some m → m.id = e.id := by
    intro e m hm
    obtain ⟨head, -, rfl⟩ := map_eq_some_iff.mp hm
    rfl
  rw [Conversation.markers, map_append, pairwise_append]
  refine ⟨?_, ?_, ?_⟩
  · cases c.inherited with
    | none => exact .nil
    | some marker => exact pairwise_singleton _ _
  · have hsorted := h.entryIds
    rw [pairwise_map] at hsorted ⊢
    rw [pairwise_filterMap]
    refine hsorted.imp ?_
    intro a b hab m hm m' hm'
    rwa [hid a m hm, hid b m' hm']
  · intro a ha b hb
    obtain ⟨m, hm, rfl⟩ := mem_map.mp ha
    obtain ⟨m', hm', rfl⟩ := mem_map.mp hb
    obtain ⟨e, he, hmarker⟩ := mem_filterMap.mp hm'
    rw [hid e m' hmarker]
    exact h.later m (mem_toList.mp hm) e he

variable {draft : EntryDraft}

theorem heads_append (h : Agrees items c) (hfits : c.Fits draft.head) (placing : Option ℕ) :
    (c.appendEntry draft placing).2.markers.IsChain Marker.Leads := by
  have hmarkers : (c.appendEntry draft placing).2.markers =
      c.markers ++ ((Conversation.resolveHead (c.next + 1) draft.head).map
        (fun head => ⟨c.next + 1, head⟩ : ℕ → Marker)).toList := by
    simp only [Conversation.markers, Conversation.appendEntry, Conversation.mintId,
      filterMap_append, append_assoc]
    cases hhead : Conversation.resolveHead (c.next + 1) draft.head <;>
      simp [EntryRecord.marker]
  rw [hmarkers]
  cases hhead : draft.head with
  | none => simpa [Conversation.resolveHead] using h.heads
  | some head =>
    have hlast : ∀ new : Marker, (∀ current, c.latestHead = some current →
        current ≤ new.head ∨ new.head = new.id) → (c.markers ++ [new]).IsChain Marker.Leads := by
      intro new hnew
      rw [isChain_append]
      refine ⟨h.heads, .singleton new, ?_⟩
      intro m hm m' hm'
      obtain rfl : new = m' := by simpa using hm'
      refine hnew m.head ?_
      rw [Conversation.latestHead, Conversation.latestHeadMarker_eq, hm]
      rfl
    cases head with
    | self => exact hlast _ (fun _ _ => .inr rfl)
    | entry id => exact hlast _ (fun current hc => .inl (hfits id current hhead hc))

theorem entryIds_append (h : Agrees items c) (draft : EntryDraft) (placing : Option ℕ) :
    ((c.appendEntry draft placing).2.entries.map EntryRecord.id).Pairwise (· < ·) ∧
      ∀ e ∈ (c.appendEntry draft placing).2.entries, e.id ≤ c.next + 1 := by
  constructor
  · simp only [Conversation.appendEntry, Conversation.mintId, map_append, map_cons,
      map_nil, pairwise_append, pairwise_singleton, true_and, mem_singleton]
    refine ⟨h.entryIds, ?_⟩
    rintro id hid _ rfl
    obtain ⟨e, he, rfl⟩ := mem_map.mp hid
    exact Nat.lt_succ_of_le (h.entryMinted e he)
  · intro e he
    rcases mem_append.mp he with he | he
    · exact (h.entryMinted e he).trans (Nat.le_succ _)
    · rw [mem_singleton.mp he]

theorem later_append (h : Agrees items c) (draft : EntryDraft) (placing : Option ℕ)
    (marker : Marker) (hm : c.inherited = some marker) :
    ∀ e ∈ (c.appendEntry draft placing).2.entries, marker.id < e.id := by
  intro e he
  rcases mem_append.mp he with he | he
  · exact h.later marker hm e he
  · rw [mem_singleton.mp he]
    exact Nat.lt_succ_of_le (h.inherited marker hm)

theorem append (h : Agrees items c) (hfits : c.Fits draft.head) :
    Agrees items (c.appendEntry draft none).2 where
  sorted := h.sorted
  waiting := h.waiting
  listed := h.listed
  keys := h.keys
  minted id hid := (h.minted id hid).trans (Nat.le_succ _)
  entryIds := (h.entryIds_append draft none).1
  entryMinted := (h.entryIds_append draft none).2
  placings := by
    simpa [Conversation.appendEntry, Conversation.mintId, filterMap_append] using h.placings
  placed e he id hid := by
    rcases mem_append.mp he with he | he
    · exact h.placed e he id hid
    · rw [mem_singleton.mp he] at hid
      cases hid
  running := h.running
  heads := h.heads_append hfits none
  inherited marker hm := (h.inherited marker hm).trans (Nat.le_succ _)
  later := h.later_append draft none

theorem settle (h : Agrees items c) {id : ℕ} {r' : SubmissionRecord}
    (hr : Assoc.get id c.submissions = some r) (hon : r.Onward r') (hr' : r'.status ≠ .queued) :
    Agrees (items.filter (fun item => item.id ≠ id))
      { c with submissions := Assoc.set id r' c.submissions } where
  sorted := h.sorted.sublist (filter_sublist.map _)
  waiting item hitem := by
    obtain ⟨hitem, hne⟩ := mem_filter.mp hitem
    rw [Assoc.get_set_ne (Ne.symm (of_decide_eq_true hne))]
    exact h.waiting item hitem
  listed id' s hs hqueued := by
    rw [Assoc.get_set] at hs
    by_cases hid : id = id'
    · rw [if_pos hid, some.injEq] at hs
      exact absurd (hs ▸ hqueued) hr'
    · rw [if_neg hid] at hs
      obtain ⟨item, hitem, rfl⟩ := h.listed id' s hs hqueued
      exact ⟨item, mem_filter.mpr ⟨hitem, decide_eq_true (Ne.symm hid)⟩, rfl⟩
  keys := by rw [Assoc.keys_set hr]; exact h.keys
  minted := by rw [Assoc.keys_set hr]; exact h.minted
  entryIds := h.entryIds
  entryMinted := h.entryMinted
  placings := h.placings
  placed e he id' hplacing := by
    obtain ⟨s, hs, hentry⟩ := h.placed e he id' hplacing
    by_cases hid : id = id'
    · subst hid
      obtain rfl : r = s := some.inj (hr.symm.trans hs)
      exact ⟨r', Assoc.get_set_self _ _ _, hon.entry _ hentry⟩
    · exact ⟨s, (Assoc.get_set_ne hid _ _).trans hs, hentry⟩
  running run hrun id' hid' := by
    obtain ⟨s, hs, hqueued⟩ := h.running run hrun id' hid'
    by_cases hid : id = id'
    · subst hid
      exact ⟨r', Assoc.get_set_self _ _ _, hr'⟩
    · exact ⟨s, (Assoc.get_set_ne hid _ _).trans hs, hqueued⟩
  heads := h.heads
  inherited := h.inherited
  later := h.later

theorem filter_of_not_queued (h : Agrees items c) {id : ℕ}
    (hr : Assoc.get id c.submissions = some r) (hqueued : r.status ≠ .queued) :
    items.filter (fun item => item.id ≠ id) = items := by
  rw [filter_eq_self]
  intro item hitem
  refine decide_eq_true ?_
  rintro rfl
  obtain ⟨s, hs, hawaits, -⟩ := h.waiting item hitem
  obtain rfl : r = s := some.inj (hr.symm.trans hs)
  exact hqueued hawaits

theorem append_placing (h : Agrees items c) (hfits : c.Fits draft.head) {id : ℕ}
    {items' : List InboxItem} (hagrees : Agrees items' c') (hentries : c'.entries = c.entries)
    (hinherited : c'.inherited = c.inherited) (hnext : c.next + 1 ≤ c'.next)
    (hnew : ∀ r, Assoc.get id c.submissions = some r → r.entry = none)
    (hget : Assoc.get id c'.submissions = some r) (hentry : r.entry = some (c.next + 1)) :
    Agrees items' { c' with entries := (c.appendEntry draft (some id)).2.entries } where
  sorted := hagrees.sorted
  waiting := hagrees.waiting
  listed := hagrees.listed
  keys := hagrees.keys
  minted := hagrees.minted
  entryIds := (h.entryIds_append draft (some id)).1
  entryMinted e he := ((h.entryIds_append draft (some id)).2 e he).trans hnext
  placings := by
    have : (c.entries.filterMap EntryRecord.placing ++ [id]).Nodup := by
      rw [nodup_append]
      refine ⟨h.placings, nodup_singleton id, ?_⟩
      rintro id' hid' _ hid rfl
      obtain rfl := mem_singleton.mp hid
      obtain ⟨e, he, hplacing⟩ := mem_filterMap.mp hid'
      obtain ⟨s, hs, hs'⟩ := h.placed e he id' hplacing
      rw [hnew s hs] at hs'
      cases hs'
    simpa [Conversation.appendEntry, Conversation.mintId, filterMap_append] using this
  placed e he id' hplacing := by
    rcases mem_append.mp he with he | he
    · exact hagrees.placed e (hentries ▸ he) id' hplacing
    · obtain rfl := mem_singleton.mp he
      obtain rfl : id = id' := some.inj hplacing
      exact ⟨r, hget, hentry⟩
  running := hagrees.running
  heads := by
    have := h.heads_append hfits (some id)
    rw [Conversation.markers] at this ⊢
    rw [hinherited]
    exact this
  inherited := hagrees.inherited
  later marker hm := h.later_append draft (some id) marker (hinherited ▸ hm)

end Agrees

/-! ### Placing, settling and creating -/

def SubmissionRecord.placedAt (r : SubmissionRecord) (entry : ℕ) : SubmissionRecord :=
  { r with status := if r.type = .input then .placed else .done, entry := some entry }

theorem SubmissionRecord.placedAt_status (r : SubmissionRecord) (entry : ℕ) :
    (r.placedAt entry).status ≠ .queued := by
  unfold placedAt
  dsimp only
  split_ifs <;> decide

theorem SubmissionRecord.Awaits.placedAt (h : r.Awaits item) (entry : ℕ) :
    r.Onward (r.placedAt entry) where
  type := rfl
  requestId := rfl
  entry e he := by
    rw [h.2.1] at he
    cases he
  placed hne := absurd h.1 hne
  settled hs := by
    rw [h.1] at hs
    cases hs

namespace Conversation

/-- `c` once the submission with record `r` was placed as `draft`. -/
def place (c : Conversation) (id : ℕ) (r : SubmissionRecord) (draft : EntryDraft) : Conversation :=
  { (c.appendEntry draft (some id)).2 with
    submissions := Assoc.set id (r.placedAt (c.next + 1)) c.submissions }

theorem place_eq {c : Conversation} {id : ℕ} {r : SubmissionRecord} {item : InboxItem}
    (hr : Assoc.get id c.submissions = some r) (hawaits : r.Awaits item) (draft : EntryDraft) :
    (c.appendEntry draft (some id)).2.changeSubmission id (.placed (c.next + 1)) =
      .ok (c.place id r draft) := by
  have hget : Assoc.get id (c.appendEntry draft (some id)).2.submissions = some r := hr
  unfold changeSubmission
  rw [hget]
  simp [applySubmissionChange, hawaits.1, Status.settled, bind, Except.bind]
  rfl

end Conversation

theorem Agrees.place (h : Agrees items c) (hr : Assoc.get item.id c.submissions = some r)
    (hawaits : r.Awaits item) {draft : EntryDraft} (hfits : c.Fits draft.head) :
    Agrees (items.filter (fun i => i.id ≠ item.id)) (c.place item.id r draft) := by
  have hsettled := h.settle hr (hawaits.placedAt (c.next + 1)) (r.placedAt_status _)
  let d : Conversation :=
    { c with
      next := c.next + 1
      submissions := Assoc.set item.id (r.placedAt (c.next + 1)) c.submissions }
  have hd : Agrees (items.filter (fun i => i.id ≠ item.id)) d :=
    hsettled.congr (Nat.le_succ _) rfl rfl rfl hsettled.running
  refine h.append_placing hfits hd rfl rfl (le_refl _) ?_ (Assoc.get_set_self _ _ _) rfl
  intro s hs
  obtain rfl : r = s := some.inj (hr.symm.trans hs)
  exact hawaits.2.1

theorem onward_mint (c : Conversation) : Onward c c.mintId.2 :=
  ⟨rfl, prefix_refl _, fun _ r h => ⟨r, h, .refl r⟩⟩

theorem onward_append (c : Conversation) (draft : EntryDraft) (placing : Option ℕ) :
    Onward c (c.appendEntry draft placing).2 :=
  ⟨rfl, prefix_append _ _, fun _ r h => ⟨r, h, .refl r⟩⟩

theorem onward_set {r' : SubmissionRecord} (hr : Assoc.get id c.submissions = some r)
    (hon : r.Onward r') : Onward c { c with submissions := Assoc.set id r' c.submissions } := by
  refine ⟨rfl, prefix_refl _, ?_⟩
  intro id' s hs
  by_cases hid : id = id'
  · subst hid
    obtain rfl : r = s := some.inj (hr.symm.trans hs)
    exact ⟨r', Assoc.get_set_self _ _ _, hon⟩
  · exact ⟨s, (Assoc.get_set_ne hid _ _).trans hs, .refl s⟩

theorem onward_place (hr : Assoc.get id c.submissions = some r) (hawaits : r.Awaits item)
    (draft : EntryDraft) : Onward c (c.place id r draft) :=
  (onward_append c draft (some id)).trans
    (onward_set (c := (c.appendEntry draft (some id)).2) hr (hawaits.placedAt _))

/-! ### Settlements -/

def SubmissionRecord.unansweredWith (r : SubmissionRecord) (reason : Text) (detail : Option Json) :
    SubmissionRecord :=
  { r with status := .unanswered, reason := some reason, detail := detail }

theorem SubmissionRecord.unansweredWith_onward (h : r.status.settled = false) (reason : Text)
    (detail : Option Json) : r.Onward (r.unansweredWith reason detail) where
  type := rfl
  requestId := rfl
  entry _ he := he
  placed _ h := by cases h
  settled hs := by
    rw [h] at hs
    cases hs

def SubmissionRecord.answered (r : SubmissionRecord) (answer : ℕ) : SubmissionRecord :=
  { r with status := .done, answer := some answer }

theorem SubmissionRecord.answered_onward (h : r.status.settled = false) (answer : ℕ) :
    r.Onward (r.answered answer) where
  type := rfl
  requestId := rfl
  entry _ he := he
  placed _ hs := by cases hs
  settled hs := by
    rw [h] at hs
    cases hs

theorem changeSubmission_settled (hr : Assoc.get id c.submissions = some r)
    (hs : r.status.settled = true) (change : SubmissionChange) :
    c.changeSubmission id change = .ok c := by
  unfold Conversation.changeSubmission
  rw [hr]
  simp [applySubmissionChange, hs, bind, Except.bind, Assoc.set_get hr]

theorem changeSubmission_unanswered (hr : Assoc.get id c.submissions = some r)
    (hs : r.status.settled = false) (reason : Text) (detail : Option Json) :
    c.changeSubmission id (.unanswered reason detail) =
      .ok { c with submissions := Assoc.set id (r.unansweredWith reason detail) c.submissions } := by
  unfold Conversation.changeSubmission
  rw [hr]
  simp [applySubmissionChange, hs, bind, Except.bind]
  rfl

theorem changeSubmission_done (hr : Assoc.get id c.submissions = some r) (hs : r.status = .placed)
    (answer : ℕ) :
    c.changeSubmission id (.done answer) =
      .ok { c with submissions := Assoc.set id (r.answered answer) c.submissions } := by
  unfold Conversation.changeSubmission
  rw [hr]
  simp [applySubmissionChange, hs, Status.settled, bind, Except.bind]
  rfl

theorem Status.placed_of {status : Status} (h : status ≠ .queued) (hs : status.settled = false) :
    status = .placed := by
  cases status <;> simp_all [Status.settled]

theorem Agrees.change_placed (h : Agrees items c) (hr : Assoc.get id c.submissions = some r)
    (hq : r.status ≠ .queued) {change : SubmissionChange}
    (hchange : ∀ entry, change ≠ .placed entry) :
    ∃ c', c.changeSubmission id change = .ok c' ∧ Agrees items c' ∧ Quiet c c' ∧
      c'.run = c.run ∧ c'.items = c.items := by
  by_cases hs : r.status.settled = true
  · exact ⟨c, changeSubmission_settled hr hs change, h, .refl c, rfl, rfl⟩
  · rw [Bool.not_eq_true] at hs
    have hset : ∀ r', r.Onward r' → r'.status ≠ .queued →
        Agrees items { c with submissions := Assoc.set id r' c.submissions } := by
      intro r' hon hr'
      have := h.settle hr hon hr'
      rwa [h.filter_of_not_queued hr hq] at this
    cases change with
    | placed entry => exact absurd rfl (hchange entry)
    | done answer =>
      have hon := SubmissionRecord.answered_onward hs answer
      exact ⟨_, changeSubmission_done hr (Status.placed_of hq hs) answer,
        hset _ hon (fun h => by cases h), ⟨onward_set hr hon, rfl, rfl⟩, rfl, rfl⟩
    | unanswered reason detail =>
      have hon := SubmissionRecord.unansweredWith_onward hs reason detail
      exact ⟨_, changeSubmission_unanswered hr hs reason detail, hset _ hon (fun h => by cases h),
        ⟨onward_set hr hon, rfl, rfl⟩, rfl, rfl⟩

theorem Agrees.settleAll {items : List InboxItem} {c : Conversation} (h : Agrees items c)
    {change : SubmissionChange} (hchange : ∀ entry, change ≠ .placed entry) {ids : List ℕ}
    (hids : ∀ id ∈ ids, ∃ r, Assoc.get id c.submissions = some r ∧ r.status ≠ .queued) :
    ∃ c', Conversation.settleAll change ids c = .ok c' ∧ Agrees items c' ∧ Quiet c c' ∧
      c'.run = c.run ∧ c'.items = c.items := by
  induction ids generalizing c with
  | nil => exact ⟨c, rfl, h, .refl c, rfl, rfl⟩
  | cons id ids ih =>
    obtain ⟨r, hr, hq⟩ := hids id mem_cons_self
    obtain ⟨d, hd, hagrees, hquiet, hrun, hitems⟩ := h.change_placed hr hq hchange
    have hids' : ∀ id ∈ ids, ∃ r, Assoc.get id d.submissions = some r ∧ r.status ≠ .queued := by
      intro id' hid'
      obtain ⟨s, hs, hq⟩ := hids id' (mem_cons_of_mem _ hid')
      obtain ⟨t, ht, hst⟩ := hquiet.onward.submissions id' s hs
      exact ⟨t, ht, hst.placed hq⟩
    obtain ⟨e, he, hagrees', hquiet', hrun', hitems'⟩ := ih hagrees hids'
    refine ⟨e, ?_, hagrees', hquiet.trans hquiet', hrun'.trans hrun, hitems'.trans hitems⟩
    rw [Conversation.settleAll, hd]
    exact he

/-! ### New submissions -/

theorem get_create (hminted : ∀ id ∈ Assoc.keys c.submissions, id ≤ c.next)
    (record : SubmissionRecord) (id : ℕ) :
    Assoc.get id (c.createSubmission record).2.submissions =
      if id = c.next + 1 then some record else Assoc.get id c.submissions := by
  have hnew : c.next + 1 ∉ Assoc.keys c.submissions := fun h =>
    Nat.not_succ_le_self _ (hminted _ h)
  have := Assoc.get_concat (c.next + 1) id record hnew
  by_cases hid : id = c.next + 1
  · rw [if_pos hid, hid]
    rw [hid, if_pos rfl] at this
    exact this
  · rw [if_neg hid]
    rw [if_neg (Ne.symm hid)] at this
    exact this

theorem Agrees.create {items : List InboxItem} {c : Conversation} (h : Agrees items c)
    {record : SubmissionRecord} {new : List InboxItem}
    (hnew : ∀ item ∈ new, item.id = c.next + 1 ∧ record.Awaits item)
    (hone : new.length ≤ 1) (hqueued : record.status = .queued → new ≠ []) :
    Agrees (items ++ new) (c.createSubmission record).2 := by
  have hget := get_create h.minted record
  have hold : ∀ id r, Assoc.get id c.submissions = some r →
      Assoc.get id (c.createSubmission record).2.submissions = some r := by
    intro id r hr
    have hmem : id ∈ Assoc.keys c.submissions := by
      by_contra hnone
      rw [(Assoc.get_eq_none_iff id c.submissions).mpr hnone] at hr
      cases hr
    have hne : id ≠ c.next + 1 := fun he => Nat.not_succ_le_self _ (he ▸ h.minted id hmem)
    rw [hget, if_neg hne, hr]
  constructor
  case sorted =>
    rw [map_append, pairwise_append]
    refine ⟨h.sorted, ?_, ?_⟩
    · rw [pairwise_map]
      cases new with
      | nil => exact .nil
      | cons a rest =>
        obtain rfl := length_eq_zero_iff.mp (Nat.le_zero.mp (Nat.le_of_succ_le_succ hone))
        exact pairwise_singleton _ _
    · intro a ha b hb
      obtain ⟨i, hi, rfl⟩ := mem_map.mp ha
      obtain ⟨j, hj, rfl⟩ := mem_map.mp hb
      obtain ⟨r, hr, -⟩ := h.waiting i hi
      have hmem : i.id ∈ Assoc.keys c.submissions :=
        mem_map_of_mem (Assoc.mem_of_get hr)
      rw [(hnew j hj).1]
      exact Nat.lt_succ_of_le (h.minted _ hmem)
  case waiting =>
    intro item hitem
    rcases mem_append.mp hitem with hitem | hitem
    · obtain ⟨r, hr, hawaits⟩ := h.waiting item hitem
      exact ⟨r, hold _ _ hr, hawaits⟩
    · obtain ⟨hid, hawaits⟩ := hnew item hitem
      exact ⟨record, by rw [hget, if_pos hid], hawaits⟩
  case listed =>
    intro id r hr hq
    rw [hget] at hr
    by_cases hid : id = c.next + 1
    · rw [if_pos hid, some.injEq] at hr
      subst hr
      obtain ⟨item, hitem⟩ := exists_mem_of_ne_nil _ (hqueued hq)
      exact ⟨item, mem_append_right _ hitem, (hnew item hitem).1.trans hid.symm⟩
    · rw [if_neg hid] at hr
      obtain ⟨item, hitem, rfl⟩ := h.listed id r hr hq
      exact ⟨item, mem_append_left _ hitem, rfl⟩
  case keys =>
    simp only [Conversation.createSubmission, Conversation.mintId, Assoc.keys, map_append, map_cons,
      map_nil, pairwise_append, pairwise_singleton, true_and, mem_singleton]
    refine ⟨h.keys, ?_⟩
    rintro id hid _ rfl
    exact Nat.lt_succ_of_le (h.minted id hid)
  case minted =>
    intro id hid
    simp only [Conversation.createSubmission, Conversation.mintId, Assoc.keys, map_append,
      map_cons, map_nil, mem_append, mem_singleton] at hid
    rcases hid with hid | rfl
    · exact (h.minted id hid).trans (Nat.le_succ _)
    · exact le_refl _
  case entryIds => exact h.entryIds
  case entryMinted => exact fun e he => (h.entryMinted e he).trans (Nat.le_succ _)
  case placings => exact h.placings
  case placed =>
    intro e he id hid
    obtain ⟨r, hr, hentry⟩ := h.placed e he id hid
    exact ⟨r, hold _ _ hr, hentry⟩
  case running =>
    intro run hrun id hid
    obtain ⟨r, hr, hq⟩ := h.running run hrun id hid
    exact ⟨r, hold _ _ hr, hq⟩
  case heads => exact h.heads
  case inherited => exact fun marker hm => (h.inherited marker hm).trans (Nat.le_succ _)
  case later => exact h.later

theorem onward_create (h : Agrees items c) (record : SubmissionRecord) :
    Onward c (c.createSubmission record).2 := by
  refine ⟨rfl, prefix_refl _, ?_⟩
  intro id r hr
  have hmem : id ∈ Assoc.keys c.submissions := mem_map_of_mem (Assoc.mem_of_get hr)
  have hne : id ≠ c.next + 1 := fun he => Nat.not_succ_le_self _ (he ▸ h.minted id hmem)
  exact ⟨r, by rw [get_create h.minted, if_neg hne, hr], .refl r⟩

end KnightCode.Inbox
