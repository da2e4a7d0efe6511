import KnightCode.Sync.Session

/-!
# What the copies share with the remote

Every call knows of the copy's commits only what it shares with the remote's log, and pulls apply
only to a copy whose commits all are the remote's. A local commit keeps this while no sync state in
use says `pulling` past the copy's head.
-/

namespace KnightCode.Sync

open List

variable {D W : Type} {log log' commits commits' : List W}
variable {seq : ℕ}

/-! ### The remote's chain -/

/-- What a slot keeps once it is created. -/
def BatchInfo.identity (batch : BatchInfo D) : ℕ × ℕ × D × Bool :=
  (batch.after, batch.upTo, batch.device, batch.archive)

/-- Batches that continue from `seq`, each from where the one before ends. -/
def GapFree : ℕ → List (BatchInfo D) → Prop
  | _, [] => True
  | seq, batch :: rest => batch.after = seq ∧ seq < batch.upTo ∧ GapFree batch.upTo rest

variable {batches : List (BatchInfo D)}

theorem GapFree.le (h : GapFree seq batches) : ∀ batch ∈ batches, seq ≤ batch.after := by
  induction batches generalizing seq with
  | nil => exact fun _ hm => absurd hm not_mem_nil
  | cons batch rest ih =>
    obtain ⟨hafter, hlt, hrest⟩ := h
    intro other hm
    obtain rfl | hm := mem_cons.mp hm
    · exact hafter.ge
    · exact hlt.le.trans (ih hrest other hm)

theorem GapFree.increasing (h : GapFree seq batches) :
    batches.Pairwise fun batch other => batch.after < other.after := by
  induction batches generalizing seq with
  | nil => exact .nil
  | cons batch rest ih =>
    obtain ⟨hafter, hlt, hrest⟩ := h
    refine .cons (fun other hm => ?_) (ih hrest)
    have hle := hrest.le other hm
    omega

/-- One batch at most takes a sequence in. -/
theorem GapFree.eq_of_spans (h : GapFree seq batches) {batch other : BatchInfo D} {at' : ℕ}
    (hm : batch ∈ batches) (hm' : other ∈ batches) (hbatch : batch.after ≤ at' ∧ at' < batch.upTo)
    (hother : other.after ≤ at' ∧ at' < other.upTo) : batch = other := by
  induction batches generalizing seq with
  | nil => exact absurd hm not_mem_nil
  | cons first rest ih =>
    obtain ⟨-, -, hrest⟩ := h
    obtain rfl | hin := mem_cons.mp hm
    · obtain rfl | hin' := mem_cons.mp hm'
      · rfl
      · have hle := hrest.le other hin'
        omega
    · obtain rfl | hin' := mem_cons.mp hm'
      · have hle := hrest.le batch hin
        omega
      · exact ih hrest hin hin'

theorem endOf_cons (seq : ℕ) (batch : BatchInfo D) (rest : List (BatchInfo D)) :
    endOf seq (batch :: rest) = endOf batch.upTo rest := by
  cases rest with
  | nil => rfl
  | cons other rest => simp [endOf, getLast?_cons]

theorem GapFree.append {seq : ℕ} {batches : List (BatchInfo D)} (h : GapFree seq batches)
    {batch : BatchInfo D} (hafter : batch.after = endOf seq batches)
    (hlt : batch.after < batch.upTo) : GapFree seq (batches ++ [batch]) := by
  induction batches generalizing seq with
  | nil => exact ⟨hafter, lt_of_eq_of_lt hafter.symm hlt, trivial⟩
  | cons other rest ih =>
    obtain ⟨hother, hseq, hrest⟩ := h
    rw [endOf_cons] at hafter
    exact ⟨hother, hseq, ih hrest hafter⟩

variable {batches' : List (BatchInfo D)}

theorem gapFree_congr (h : batches'.map BatchInfo.identity = batches.map BatchInfo.identity)
    (hgap : GapFree seq batches) : GapFree seq batches' := by
  induction batches generalizing seq batches' with
  | nil =>
    rw [map_nil, map_eq_nil_iff] at h
    subst h
    trivial
  | cons batch rest ih =>
    obtain ⟨batch', rest', rfl, hbatch, hrest⟩ := map_eq_cons_iff.mp h
    obtain ⟨hafter, hlt, hgap⟩ := hgap
    obtain ⟨hafter', hupTo, -⟩ : batch'.after = batch.after ∧ batch'.upTo = batch.upTo ∧
        (batch'.device, batch'.archive) = (batch.device, batch.archive) := by
      simpa [BatchInfo.identity] using hbatch
    exact ⟨hafter'.trans hafter, hupTo ▸ hlt, hupTo ▸ ih hrest hgap⟩

theorem endOf_congr (h : batches'.map BatchInfo.identity = batches.map BatchInfo.identity) :
    endOf seq batches' = endOf seq batches := by
  have hlast := congrArg (fun identities => (identities.getLast?.map (·.2.1)).getD seq) h
  simpa [endOf, getLast?_map, Function.comp_def, BatchInfo.identity] using hlast

variable {batch : BatchInfo D}

theorem mem_of_chainGet (h : chainGet batches seq = some batch) :
    batch ∈ batches ∧ batch.after = seq := by
  refine ⟨mem_reverse.mp (mem_of_find?_eq_some h), ?_⟩
  simpa using find?_some h

theorem mem_of_mem_follow {fuel : ℕ} (h : batch ∈ follow batches fuel seq) : batch ∈ batches := by
  induction fuel generalizing seq with
  | zero => exact absurd h not_mem_nil
  | succ fuel ih =>
    unfold follow at h
    cases hget : chainGet batches seq with
    | none =>
      rw [hget] at h
      exact absurd h not_mem_nil
    | some next =>
      rw [hget] at h
      obtain rfl | hm := mem_cons.mp h
      · exact (mem_of_chainGet hget).1
      · exact ih hm

theorem GapFree.follow_eq (done : List (BatchInfo D)) {rest : List (BatchInfo D)}
    (hdone : ∀ batch ∈ done, batch.after < seq) (h : GapFree seq rest)
    (hall : (done ++ rest).Pairwise fun batch other => batch.after < other.after) :
    follow (done ++ rest) rest.length seq = rest := by
  induction rest generalizing done seq with
  | nil => rfl
  | cons batch rest ih =>
    obtain ⟨hafter, hlt, hrest⟩ := h
    have hget : chainGet (done ++ batch :: rest) seq = some batch := by
      have hnone : rest.reverse.find? (fun other => decide (other.after = seq)) = none := by
        refine find?_eq_none.mpr fun other hm => ?_
        have hle := hrest.le other (mem_reverse.mp hm)
        simp only [decide_eq_true_eq]
        omega
      simp [chainGet, find?_append, hnone, hafter]
    have hdone' : ∀ other ∈ done ++ [batch], other.after < batch.upTo := by
      intro other hm
      obtain hm | hm := mem_append.mp hm
      · exact (hdone other hm).trans hlt
      · rw [mem_singleton.mp hm, hafter]
        exact hlt
    have hstep := ih (done ++ [batch]) hdone' hrest (by simpa using hall)
    rw [append_assoc, singleton_append] at hstep
    simp only [length_cons, follow, hget, hstep]

variable {listing : RemoteListing D}

theorem GapFree.remoteHead_eq (h : GapFree LOG_START listing.batches) :
    remoteHead listing = endOf LOG_START listing.batches := by
  have hfollow := GapFree.follow_eq [] (fun _ hm => absurd hm not_mem_nil) h
    h.increasing
  rw [nil_append] at hfollow
  rw [remoteHead, hfollow]

theorem mem_of_mem_remoteHistory {start : Option ℕ}
    (h : batch ∈ (remoteHistory listing start).batches) : batch ∈ listing.batches := by
  unfold remoteHistory at h
  dsimp only at h
  split_ifs at h
  · exact mem_of_mem_follow h
  · split at h
    · obtain rfl | hm := mem_cons.mp h
      · exact mem_of_find?_eq_some ‹_›
      · exact mem_of_mem_follow hm
    · exact mem_of_mem_follow h

/-! ### What the remote holds -/

theorem writes_outboxRows (after : ℕ) (commits : List W) :
    (outboxRows after commits).map (·.writes) = commits := by
  induction commits generalizing after with
  | nil => rfl
  | cons writes rest ih => rw [outboxRows, map_cons, ih]

def OutboxCommit.OfLog (commit : OutboxCommit W) (log : List W) : Prop :=
  ∃ i, commit.seq = i + 1 ∧ log[i]? = some commit.writes

variable {commit : OutboxCommit W}

theorem OutboxCommit.OfLog.grow (h : commit.OfLog log) (hlog : log <+: log') :
    commit.OfLog log' := by
  obtain ⟨i, hseq, hi⟩ := h
  exact ⟨i, hseq, getElem?_of_prefix hlog hi⟩

theorem ofLog_of_mem_outboxRows (before commits : List W)
    (h : commit ∈ outboxRows before.length commits) (hlog : before ++ commits <+: log) :
    commit.OfLog log := by
  induction commits generalizing before with
  | nil => exact absurd h not_mem_nil
  | cons writes rest ih =>
    obtain rfl | hm := mem_cons.mp h
    · refine ⟨before.length, rfl, getElem?_of_prefix hlog ?_⟩
      simp
    · refine ih (before ++ [writes]) ?_ (by simpa using hlog)
      simpa using hm

/-- The log's commits after `after`, up to `upTo`. -/
def segment (log : List W) (after upTo : ℕ) : List W :=
  (log.take upTo).drop after

variable {after upTo : ℕ}

theorem segment_grow (hlog : log <+: log') (hle : upTo ≤ log.length) :
    segment log' after upTo = segment log after upTo := by
  rw [segment, segment, (List.AgreeUpTo.of_isPrefix hlog hle).take]

theorem take_append_segment (h : after ≤ upTo) :
    log.take after ++ segment log after upTo = log.take upTo := by
  have htake : (log.take upTo).take after = log.take after := by
    rw [take_take, min_eq_left h]
  rw [segment, ← htake, take_append_drop]

theorem ofLog_of_mem_segment (hle : after ≤ upTo) (hupTo : upTo ≤ log.length)
    (h : commit ∈ outboxRows after (segment log after upTo)) : commit.OfLog log := by
  refine ofLog_of_mem_outboxRows (log.take after) (segment log after upTo) ?_ ?_
  · rwa [length_take_of_le (hle.trans hupTo)]
  · rw [take_append_segment hle]
    exact take_prefix _ _

/-- The remote's slots are one chain from the start, and what it holds are the log's commits. -/
structure Remote.Kept (remote : Remote D W) : Prop where
  chain : GapFree LOG_START remote.list.batches
  head : endOf LOG_START remote.list.batches = remote.log.length
  bodies : ∀ slot ∈ remote.slots, slot.upTo ≤ remote.log.length ∧
    slot.body = outboxRows slot.after (segment remote.log slot.after slot.upTo)
  archives : ∀ slot ∈ remote.slots, slot.archive = true → slot.after = LOG_START
  snapshots : ∀ seq body, Assoc.get seq remote.snapshots = some body →
    seq ≤ remote.log.length ∧ body = outboxRows 0 (remote.log.take seq)

namespace Remote
variable {remote : Remote D W}

theorem Kept.empty : (Remote.empty : Remote D W).Kept where
  chain := trivial
  head := rfl
  bodies := fun _ hm => absurd hm not_mem_nil
  archives := fun _ hm => absurd hm not_mem_nil
  snapshots := fun _ _ h => by cases h

theorem Kept.lt (h : remote.Kept) {slot : Slot D W} (hm : slot ∈ remote.slots) :
    slot.after < slot.upTo := by
  have hgap := h.chain
  have hm' : slot.toBatchInfo ∈ remote.list.batches := mem_map_of_mem hm
  revert hm' hgap
  generalize remote.list.batches = batches
  generalize LOG_START = seq
  intro hgap hm'
  induction batches generalizing seq with
  | nil => exact absurd hm' not_mem_nil
  | cons batch rest ih =>
    obtain ⟨hafter, hlt, hrest⟩ := hgap
    obtain hbatch | hm' := mem_cons.mp hm'
    · rw [hbatch]
      exact hafter.symm ▸ hlt
    · exact ih _ hrest hm'

theorem mem_of_slot {after : ℕ} {slot : Slot D W} (h : remote.slot after = some slot) :
    slot ∈ remote.slots ∧ slot.after = after :=
  ⟨mem_of_find?_eq_some h, by simpa using find?_some h⟩

theorem putBatch_cases (after upTo : ℕ) (device : D) (archive : Bool)
    (body : List (OutboxCommit W)) (remote : Remote D W) :
    (remote.putBatch after upTo device archive body = (.created, remote.create ⟨⟨after, upTo,
      device, false, archive⟩, body⟩) ∧ after = remoteHead remote.list) ∨
    (∃ existing ∈ remote.slots, existing.after = after ∧ remote.putBatch after upTo device archive
      body = (.slotExists existing.upTo existing.device, remote)) ∨
    ∃ head, remote.putBatch after upTo device archive body = (.notHead head, remote) := by
  unfold putBatch
  cases hslot : remote.slot after with
  | some existing =>
    obtain ⟨hmem, hafter⟩ := mem_of_slot hslot
    exact .inr (.inl ⟨existing, hmem, hafter, rfl⟩)
  | none =>
    by_cases hhead : after = remoteHead remote.list
    · exact .inl ⟨if_pos hhead, hhead⟩
    · exact .inr (.inr ⟨_, if_neg hhead⟩)

theorem log_create (slot : Slot D W) (remote : Remote D W) :
    (remote.create slot).log = remote.log ++ slot.body.map (·.writes) := by
  simp [log, create]

theorem Kept.log_create (h : remote.Kept) (hhead : after = remoteHead remote.list)
    (hshared : List.AgreeUpTo after commits remote.log) (hle : after ≤ upTo) (info : BatchInfo D) :
    (remote.create ⟨info, outboxRows after (segment commits after upTo)⟩).log =
      commits.take upTo := by
  have hlength : after = remote.log.length := by
    rw [hhead, h.chain.remoteHead_eq, h.head]
  have hcommits : commits.take after = remote.log := by
    rw [hshared.take, hlength, take_length]
  rw [Remote.log_create, writes_outboxRows, ← hcommits, take_append_segment hle]

theorem Kept.create {remote : Remote D W} (h : remote.Kept) (device : D) {archive : Bool}
    (hhead : after = remoteHead remote.list) (hshared : List.AgreeUpTo after commits remote.log)
    (hlt : after < upTo) (hupTo : upTo ≤ commits.length)
    (harchive : archive = true → after = LOG_START) :
    (remote.create ⟨⟨after, upTo, device, false, archive⟩,
      outboxRows after (segment commits after upTo)⟩).Kept := by
  have hlog := h.log_create hhead hshared hlt.le ⟨after, upTo, device, false, archive⟩
  have hgrow : remote.log <+: commits.take upTo := by
    rw [← hlog, Remote.log_create]
    exact prefix_append _ _
  have hlength : (commits.take upTo).length = upTo := length_take_of_le hupTo
  have hbatches : (remote.create ⟨⟨after, upTo, device, false, archive⟩,
      outboxRows after (segment commits after upTo)⟩).list.batches =
      remote.list.batches ++ [⟨after, upTo, device, false, archive⟩] := by
    simp [list, Remote.create]
  constructor
  · rw [hbatches]
    exact h.chain.append (hhead.trans h.chain.remoteHead_eq) hlt
  · rw [hbatches, hlog, hlength]
    simp [endOf]
  · intro slot hm
    rw [hlog]
    obtain hm | hm := mem_append.mp hm
    · obtain ⟨hle, hbody⟩ := h.bodies slot hm
      exact ⟨hle.trans hgrow.length_le, by rw [segment_grow hgrow hle, hbody]⟩
    · rw [mem_singleton.mp hm]
      refine ⟨hlength.ge, ?_⟩
      simp only [segment, take_take, min_self]
  · intro slot hm
    obtain hm | hm := mem_append.mp hm
    · exact h.archives slot hm
    · rw [mem_singleton.mp hm]
      exact harchive
  · intro seq body hbody
    obtain ⟨hle, hbody⟩ := h.snapshots seq body hbody
    rw [hlog]
    exact ⟨hle.trans hgrow.length_le,
      by rw [← (List.AgreeUpTo.of_isPrefix hgrow hle).take, hbody]⟩

theorem Kept.of_slots {remote' : Remote D W} (h : remote.Kept) (change : Slot D W → Slot D W)
    (hslots : remote'.slots = remote.slots.map change)
    (hchange : ∀ slot, (change slot).identity = slot.identity ∧ (change slot).body = slot.body)
    (hsnapshots : ∀ seq body, Assoc.get seq remote'.snapshots = some body →
      seq ≤ remote.log.length ∧ body = outboxRows 0 (remote.log.take seq)) :
    remote'.Kept ∧ remote'.log = remote.log := by
  have hlog : remote'.log = remote.log := by
    simp [log, hslots, flatMap_map, hchange]
  have hbatches : remote'.list.batches.map BatchInfo.identity =
      remote.list.batches.map BatchInfo.identity := by
    simp [list, hslots, hchange]
  have hidentity : ∀ slot, (change slot).after = slot.after ∧ (change slot).upTo = slot.upTo ∧
      (change slot).archive = slot.archive := by
    intro slot
    have hslot := (hchange slot).1
    simp only [BatchInfo.identity, Prod.mk.injEq] at hslot
    exact ⟨hslot.1, hslot.2.1, hslot.2.2.2⟩
  refine ⟨⟨gapFree_congr hbatches h.chain, ?_, ?_, ?_, ?_⟩, hlog⟩
  · rw [endOf_congr hbatches, h.head, hlog]
  · intro slot hm
    rw [hslots] at hm
    obtain ⟨slot, hslot, rfl⟩ := mem_map.mp hm
    obtain ⟨hafter, hupTo, -⟩ := hidentity slot
    rw [hlog, hafter, hupTo, (hchange slot).2]
    exact h.bodies slot hslot
  · intro slot hm
    rw [hslots] at hm
    obtain ⟨slot, hslot, rfl⟩ := mem_map.mp hm
    obtain ⟨hafter, -, harchive⟩ := hidentity slot
    rw [harchive, hafter]
    exact h.archives slot hslot
  · rwa [hlog]

end Remote

end KnightCode.Sync
