import KnightCode.Sync.SyncSafety
import Mathlib.Data.Nat.Find

/-!
# A copy that lost commits

One device and its copy, which a crash takes back to fewer commits and which a stopped pull leaves
partway, and the calls it makes once it has committed again. What the rest of the world does to the
remote may come between any two awaits. Which commits the copy lost shows in its sync state and in
the slots its device created; the commits it has made since take their sequences, and once they are
as many a call takes them for what was lost.
-/

namespace KnightCode.Sync

open List

variable {D W : Type} {log log' commits commits' : List W}
variable {device : D} {remote : Remote D W}

/-- A power loss: the first `kept` commits are left, of an outbox that started no later. -/
def Store.lose (kept floor : ℕ) (store : Store W) : Store W :=
  ⟨store.commits.take kept, min (min floor store.floor) (store.commits.take kept).length,
    min_le_right _ _⟩

def Copy.lose (kept floor : ℕ) (copy : Copy W) : Copy W :=
  { copy with store := copy.store.map (Store.lose kept floor) }

/-- What other devices and folds do to the remote. -/
inductive Elsewhere (D W : Type)
  | create (device : D) (archive : Bool) (writes : List W)
  | putSnapshot (upTo : ℕ)
  | foldBatch (after : ℕ)
  | deleteSnapshot (upTo : ℕ)

namespace Elsewhere

def Allowed (device : D) (remote : Remote D W) : Elsewhere D W → Prop
  | create other archive writes =>
    other ≠ device ∧ writes ≠ [] ∧ (archive = true → remoteHead remote.list = LOG_START)
  | putSnapshot upTo => upTo ≤ remote.log.length
  | foldBatch _ | deleteSnapshot _ => True

def perform (remote : Remote D W) : Elsewhere D W → Remote D W
  | create other archive writes =>
    let head := remoteHead remote.list
    remote.create ⟨⟨head, head + writes.length, other, false, archive⟩, outboxRows head writes⟩
  | putSnapshot upTo => remote.putSnapshot upTo (outboxRows 0 (remote.log.take upTo))
  | foldBatch after => remote.foldBatch after
  | deleteSnapshot upTo => remote.deleteSnapshot upTo

end Elsewhere

/-- The call underway on the device. -/
inductive Call (D W : Type)
  | idle
  | upload (upload : Upload D)
  | pull (pull : Pull D W)

structure Lone (D W : Type) where
  remote : Remote D W
  copy : Copy W
  call : Call D W

inductive LoneAct (D W : Type)
  | commit (writes : W)
  | crash (kept floor : ℕ)
  | openStore
  | upload
  | pull
  | next (choice : UploadChoice)
  | stop
  | elsewhere (change : Elsewhere D W)

namespace Lone

variable [DecidableEq D] (device : D) (size : OutboxCommit W → ℕ) (limit : ℕ)

/-- The call underway takes its next await, and what it answers when that ends it. -/
def advance (choice : UploadChoice) (s : Lone D W) :
    Lone D W × Option (UploadResult ⊕ PullResult) :=
  match s.call with
  | .idle => (s, none)
  | .upload upload =>
    match upload.resume device choice s.remote s.copy with
    | (remote, copy, .inl upload) => (⟨remote, copy, .upload upload⟩, none)
    | (remote, copy, .inr result) => (⟨remote, copy, .idle⟩, some (.inl result))
  | .pull pull =>
    match pull.resume size limit s.remote s.copy with
    | (copy, .inl pull) => (⟨s.remote, copy, .pull pull⟩, none)
    | (copy, .inr result) => (⟨s.remote, copy, .idle⟩, some (.inr result))

def perform (s : Lone D W) : LoneAct D W → Lone D W
  | .commit writes =>
    { s with copy := ⟨s.copy.store.map (Store.commit writes), s.copy.state⟩ }
  | .crash kept floor => { s with copy := s.copy.lose kept floor, call := .idle }
  | .openStore => { s with copy := s.copy.openStore }
  | .upload => { s with call := .upload .reading }
  | .pull => { s with call := .pull (.entered s.copy.store.isSome) }
  | .next choice => (s.advance device size limit choice).1
  | .stop => { s with call := .idle }
  | .elsewhere change => { s with remote := change.perform s.remote }

def Call.IsIdle : Call D W → Prop
  | .idle => True
  | _ => False

def Call.IsPull : Call D W → Prop
  | .pull _ => True
  | _ => False

/-- The copy does not commit while a pull is underway. -/
def Allowed (s : Lone D W) : LoneAct D W → Prop
  | .commit _ => ¬ Call.IsPull s.call ∧ s.copy.store.isSome
  | .upload => Call.IsIdle s.call ∧ s.copy.store.isSome
  | .pull => Call.IsIdle s.call
  | .elsewhere change => change.Allowed device s.remote
  | .crash _ _ | .openStore | .next _ | .stop => True

/-- The remote holds nothing yet; the copy has a store, or none, and no sync state. -/
def system : System (Lone D W) (LoneAct D W) where
  init s := ∃ store, s = ⟨.empty, ⟨store, none⟩, .idle⟩
  step s a t := s.Allowed device a ∧ t = s.perform device size limit a

/-- The copy's commits through `seq` are the remote's. -/
def Shares (s : Lone D W) (seq : ℕ) : Prop :=
  List.AgreeUpTo seq s.copy.commits s.remote.log

open Classical in
/-- How many of the copy's commits are the remote's. -/
noncomputable def kept (s : Lone D W) : ℕ :=
  Nat.findGreatest s.Shares s.copy.head

/-- How many commits the copy has that it made itself. -/
noncomputable def own (s : Lone D W) : ℕ :=
  s.copy.head - s.kept

/-- How many of the remote's commits through `seq` the copy lost, or did not pull. -/
noncomputable def lost (s : Lone D W) (seq : ℕ) : ℕ :=
  seq - s.kept

/-- An upload that looks at the sync state finds no commits of the copy's own, or more of them than
a pull left out; and of what was synced nothing lost, or more than the copy has made since. One that
found a slot of its device finds that of the slot. A pull finds no commits of the copy's own, or
more of them than were left out and lost. -/
def Meets (s : Lone D W) : LoneAct D W → Prop
  | .next _ =>
    match s.call with
    | .upload (.starting _) =>
      (∀ pulling, pullingOf s.copy.state = some pulling → s.own = 0 ∨ s.lost pulling < s.own) ∧
        ∀ synced, s.copy.state.bind (·.syncedHead) = some synced →
          s.lost synced = 0 ∨ s.own < s.lost synced
    | .upload (.trimming _ _) =>
      ∀ slot ∈ s.remote.slots, slot.device = device → slot.after ≤ s.kept →
        s.lost slot.upTo = 0 ∨ s.own < s.lost slot.upTo
    | .pull (.planning true _ _) =>
      s.own = 0 ∨ (∀ pulling, pullingOf s.copy.state = some pulling → s.lost pulling < s.own) ∧
        ∀ synced, s.copy.state.bind (·.syncedHead) = some synced → s.lost synced < s.own
    | _ => True
  | _ => True

/-- One step of a call from `s` to `t`, with what it answers: it creates a slot only after commits
the copy shares, it applies the remote's commits only to a copy that has nothing else, and it says
shared only what is. -/
structure Honest (s t : Lone D W) (result : Option (UploadResult ⊕ PullResult)) : Prop where
  slots : Uploaded s.copy.commits device s.remote t.remote
  applied : Pulled s.remote.log s.copy.commits t.copy.commits
  uploaded : ∀ answer seq, result = some (.inl answer) → answer.shares = some seq → t.Shares seq
  idle : ∀ seq, result = some (.inl (.idle seq)) → t.copy.commits <+: t.remote.log
  resolved : ∀ head, result = some (.inr (.resolved head)) → t.copy.commits <+: t.remote.log

end Lone

/-! ### Lost commits -/

namespace Lone

variable {s : Lone D W} {seq : ℕ}

theorem shares_iff : s.Shares seq ↔ seq ≤ s.kept := by
  classical
  refine ⟨fun h => Nat.le_findGreatest h.left h, fun hle => ?_⟩
  have hkept : s.Shares s.kept :=
    Nat.findGreatest_spec (P := s.Shares) (Nat.zero_le _) (.zero _ _)
  exact hkept.of_le hle

theorem kept_le (s : Lone D W) : s.kept ≤ s.copy.head := by
  classical
  exact Nat.findGreatest_le _

theorem own_eq_zero : s.own = 0 ↔ s.Shares s.copy.head := by
  rw [shares_iff, own]
  exact Nat.sub_eq_zero_iff_le

theorem spared_iff : (s.lost seq = 0 ∨ s.own < s.lost seq) ↔ s.Shares seq ∨ s.copy.head < seq := by
  have hle := s.kept_le
  rw [shares_iff, lost, own]
  omega

theorem lost_lt_own (hown : s.own ≠ 0) : s.lost seq < s.own ↔ seq < s.copy.head := by
  have hle := s.kept_le
  rw [own] at hown
  rw [lost, own]
  omega

theorem sharedHead_cases (state : Option SyncState) (head : ℕ) :
    (∃ pulling, pullingOf state = some pulling ∧ head ≤ pulling ∧ sharedHead state head = head) ∨
      (∀ pulling, pullingOf state = some pulling → pulling < head) ∧
        sharedHead state head = (state.bind (·.syncedHead)).getD LOG_START := by
  cases state with
  | none => exact .inr ⟨(fun _ h => by cases h), rfl⟩
  | some state =>
    obtain ⟨synced, pulling⟩ := state
    cases pulling with
    | none => exact .inr ⟨(fun _ h => by cases h), rfl⟩
    | some pulling =>
      by_cases hle : head ≤ pulling
      · exact .inl ⟨pulling, rfl, hle, if_pos hle⟩
      · refine .inr ⟨fun other hother => ?_, if_neg hle⟩
        cases hother
        exact not_le.mp hle

variable {device : D}

/-- A copy with no commits of its own meets the condition. -/
theorem meets_of_own (hown : s.own = 0) (a : LoneAct D W) : s.Meets device a := by
  have hspared : ∀ seq, s.lost seq = 0 ∨ s.own < s.lost seq := fun seq => by omega
  cases a with
  | next choice =>
    unfold Meets
    dsimp only
    split
    · exact ⟨fun _ _ => .inl hown, fun synced _ => hspared synced⟩
    · exact fun slot _ _ _ => hspared slot.upTo
    · exact .inl hown
    · trivial
  | _ => trivial

variable {state : Option SyncState}

/-- What the condition says of the sequence that the code goes by. -/
theorem meets_starting {choice : UploadChoice} (hcall : s.call = .upload (.starting state)) :
    s.Meets device (.next choice) ↔
      (sharedHead s.copy.state s.copy.head ≤ s.copy.head →
        s.Shares (sharedHead s.copy.state s.copy.head)) := by
  simp only [Meets, hcall]
  obtain ⟨pulling, hpulling, hle, hshared⟩ | ⟨hpast, hshared⟩ :=
    sharedHead_cases s.copy.state s.copy.head
  · rw [hshared]
    refine ⟨fun h _ => ?_, fun h => ?_⟩
    · by_contra hshares
      have hown : s.own ≠ 0 := fun hown => hshares (own_eq_zero.mp hown)
      have hlt := (lost_lt_own hown).mp ((h.1 pulling hpulling).resolve_left hown)
      omega
    · have hown := own_eq_zero.mpr (h le_rfl)
      exact ⟨fun _ _ => .inl hown, fun synced _ => by omega⟩
  · rw [hshared]
    refine ⟨fun h hle => ?_, fun h => ⟨fun pulling hpulling => ?_, fun synced hsynced => ?_⟩⟩
    · cases hsynced : s.copy.state.bind (·.syncedHead) with
      | none => exact .zero _ _
      | some synced =>
        rw [hsynced] at hle
        exact (spared_iff.mp (h.2 synced hsynced)).resolve_right (not_lt.mpr hle)
    · by_cases hown : s.own = 0
      · exact .inl hown
      · exact .inr ((lost_lt_own hown).mpr (hpast pulling hpulling))
    · rw [hsynced] at h
      refine spared_iff.mpr ?_
      obtain hle | hlt := le_or_gt synced s.copy.head
      · exact .inl (h hle)
      · exact .inr hlt

theorem meets_planning {choice : UploadChoice} {listing : RemoteListing D}
    (hcall : s.call = .pull (.planning true listing state)) :
    s.Meets device (.next choice) ↔ (s.copy.head ≤ sharedHead s.copy.state s.copy.head →
      s.Shares s.copy.head) := by
  simp only [Meets, hcall]
  by_cases hown : s.own = 0
  · exact ⟨fun _ _ => own_eq_zero.mp hown, fun _ => .inl hown⟩
  have hshares : ¬ s.Shares s.copy.head := fun h => hown (own_eq_zero.mpr h)
  simp only [hown, false_or, lost_lt_own hown]
  obtain ⟨pulling, hpulling, hle, hshared⟩ | ⟨hpast, hshared⟩ :=
    sharedHead_cases s.copy.state s.copy.head
  · rw [hshared]
    refine ⟨fun h _ => absurd (h.1 pulling hpulling) (not_lt.mpr hle), fun h => ?_⟩
    exact absurd (h le_rfl) hshares
  · rw [hshared]
    refine ⟨fun h hle => ?_, fun h => ⟨hpast, fun synced hsynced => ?_⟩⟩
    · cases hsynced : s.copy.state.bind (·.syncedHead) with
      | none =>
        rw [hsynced] at hle
        have hzero : s.copy.head = 0 := Nat.le_zero.mp hle
        exact hzero.symm ▸ .zero _ _
      | some synced =>
        have hlt := h.2 synced hsynced
        rw [hsynced] at hle
        exact absurd hlt (not_lt.mpr hle)
    · rw [hsynced] at h
      exact not_le.mp fun hle => hshares (h hle)

end Lone

/-! ### What a call keeps -/

/-- A sequence an upload goes by before it compares it: the copy has all of it, or it ends a slot of
the device that begins within what the copy has. -/
def Follows (device : D) (commits : List W) (remote : Remote D W) (seq : ℕ) : Prop :=
  List.AgreeUpTo seq commits remote.log ∨ ∃ after archive,
    (after, seq, device, archive) ∈ remote.slots.map (·.identity) ∧
      List.AgreeUpTo after commits remote.log

variable {remote' : Remote D W} {seq : ℕ} {copy : Copy W}

theorem Follows.grow (h : Follows device commits remote seq) (hcommits : commits <+: commits')
    (hlog : remote.log <+: remote'.log)
    (hslots : remote.slots.map (·.identity) ⊆ remote'.slots.map (·.identity)) :
    Follows device commits' remote' seq := by
  obtain hagree | ⟨after, archive, hslot, hafter⟩ := h
  · exact .inl (hagree.grow hcommits hlog)
  · exact .inr ⟨after, archive, hslots hslot, hafter.grow hcommits hlog⟩

def Call.Holds (device : D) (copy : Copy W) (remote : Remote D W) : Call D W → Prop
  | .idle => True
  | .upload running => running.Holds (· = copy.state) (Follows device copy.commits remote)
      remote.log copy.commits device
  | .pull running => running.Holds (· = copy.state) remote.log copy.commits

theorem Call.Holds.grow_remote {call : Call D W} (h : call.Holds device copy remote)
    (hlog : remote.log <+: remote'.log)
    (hslots : remote.slots.map (·.identity) ⊆ remote'.slots.map (·.identity)) :
    call.Holds device copy remote' := by
  cases call with
  | idle => trivial
  | upload running =>
    exact Upload.Holds.grow h (fun _ _ hsame => hsame)
      (fun _ hseq => hseq.grow prefix_rfl hlog hslots) prefix_rfl hlog
  | pull running => exact Pull.Holds.grow_log h (fun _ hsame => hsame) hlog

variable {synced : ℕ}

theorem Upload.loop_misled (hle : synced ≤ copy.head)
    (hshares : ¬ List.AgreeUpTo synced copy.commits log) (uploaded : Option ℕ) :
    loop (D := D) synced uploaded copy = .inl (.ranging synced uploaded) := by
  have hstart : synced ≠ LOG_START := by
    rintro rfl
    exact hshares (.zero _ _)
  unfold loop
  rw [if_neg (not_lt.mpr hle), if_neg (fun h => hstart h.1)]

/-! ### Runs -/

theorem Elsewhere.kept {change : Elsewhere D W} (h : remote.Kept)
    (hallowed : change.Allowed device remote) :
    (change.perform remote).Kept ∧ remote.log <+: (change.perform remote).log ∧
      remote.slots.map (·.identity) ⊆ (change.perform remote).slots.map (·.identity) := by
  cases change with
  | create other archive writes =>
    obtain ⟨-, hwrites, harchive⟩ := hallowed
    have hhead : remoteHead remote.list = remote.log.length :=
      h.chain.remoteHead_eq.trans h.head
    have hshared : List.AgreeUpTo (remoteHead remote.list) (remote.log ++ writes) remote.log :=
      (List.AgreeUpTo.of_isPrefix (prefix_append _ _) hhead.le).symm
    have hpos : 0 < writes.length := length_pos_iff.mpr hwrites
    have hlt : remoteHead remote.list < remoteHead remote.list + writes.length := by omega
    have hle : remoteHead remote.list + writes.length ≤ (remote.log ++ writes).length := by
      simp [hhead]
    have hkept := h.create other rfl hshared hlt hle harchive
    have hbody : segment (remote.log ++ writes) (remoteHead remote.list)
        (remoteHead remote.list + writes.length) = writes := by
      rw [segment, hhead, take_of_length_le (by simp), drop_left]
    rw [hbody] at hkept
    refine ⟨hkept, Remote.log_create _ _ ▸ prefix_append _ _, ?_⟩
    exact map_subset _ (subset_append_left _ _)
  | putSnapshot upTo =>
    obtain ⟨hkept, hlog, hslots⟩ := folded_snapshots h
      (Assoc.set upTo (outboxRows 0 (remote.log.take upTo)) remote.snapshots)
      (fun seq body hget => by
        rw [Assoc.get_set] at hget
        split_ifs at hget with hseq
        · cases hget
          exact ⟨hseq ▸ hallowed, hseq ▸ rfl⟩
        · exact h.snapshots seq body hget)
    exact ⟨hkept, ⟨[], (append_nil _).trans hlog.symm⟩, hslots ▸ List.Subset.refl _⟩
  | foldBatch after =>
    obtain ⟨hkept, hlog, hslots⟩ := folded_foldBatch h after
    exact ⟨hkept, ⟨[], (append_nil _).trans hlog.symm⟩, hslots ▸ List.Subset.refl _⟩
  | deleteSnapshot upTo =>
    obtain ⟨hkept, hlog, hslots⟩ := folded_snapshots h (Assoc.erase upTo remote.snapshots)
      (fun seq body hget => by
        rw [Assoc.get_erase] at hget
        split_ifs at hget
        exact h.snapshots seq body hget)
    exact ⟨hkept, ⟨[], (append_nil _).trans hlog.symm⟩, hslots ▸ List.Subset.refl _⟩

namespace Lone

structure Inv (device : D) (s : Lone D W) : Prop where
  remote : s.remote.Kept
  call : s.call.Holds device s.copy s.remote

variable {device : D} {size : OutboxCommit W → ℕ} {limit : ℕ} {s : Lone D W}
variable {choice : UploadChoice}

theorem meets_trimming {uploaded : Option ℕ} (hcall : s.call = .upload (.trimming synced uploaded))
    (hfollows : Follows device s.copy.commits s.remote synced)
    (hmeets : s.Meets device (.next choice)) (hle : synced ≤ s.copy.head) : s.Shares synced := by
  obtain hagree | ⟨after, archive, hslot, hafter⟩ := hfollows
  · exact hagree
  simp only [Meets, hcall] at hmeets
  obtain ⟨slot, hm, hidentity⟩ := mem_map.mp hslot
  simp only [BatchInfo.identity, Prod.mk.injEq] at hidentity
  obtain ⟨rfl, rfl, hdevice, -⟩ := hidentity
  have hspared := hmeets slot hm hdevice (shares_iff.mp hafter)
  exact (spared_iff.mp hspared).resolve_right (not_lt.mpr hle)

variable [DecidableEq D]

theorem Inv.upload (h : s.Inv device) {upload : Upload D} (hcall : s.call = .upload upload)
    (choice : UploadChoice) (hmeets : s.Meets device (.next choice)) :
    (s.advance device size limit choice).1.Inv device ∧
      s.Honest device (s.advance device size limit choice).1
        (s.advance device size limit choice).2 := by
  obtain ⟨remote, copy, call⟩ := s
  obtain rfl : call = .upload upload := hcall
  obtain ⟨hkept, hholds⟩ := h
  have hholds : upload.Holds (· = copy.state) (Follows device copy.commits remote) remote.log
      copy.commits device := hholds
  cases hnext : upload.resume device choice remote copy with
  | mk remote' rest =>
    obtain ⟨copy', next⟩ := rest
    have hreading : upload = .reading → copy.state = copy'.state := by
      rintro rfl
      cases hnext
      rfl
    have hstarting : ∀ state, upload = .starting state → state = copy.state →
        sharedHead state copy.head ≤ copy.head →
          List.AgreeUpTo (sharedHead state copy.head) copy.commits remote.log := by
      rintro state rfl rfl
      exact (meets_starting rfl).mp hmeets
    obtain ⟨hslots, hcommits, houtcome⟩ := Upload.holds_resume (T := Follows device copy.commits)
      (R := (· = copy'.state)) hkept hreading hstarting
      (fun synced uploaded heq hfollows hle => by
        subst heq
        exact meets_trimming rfl hfollows hmeets hle)
      (fun slot hm hdevice hafter => .inr ⟨slot.after, slot.archive,
        mem_map.mpr ⟨slot, hm, by rw [← hdevice]; rfl⟩, hafter⟩)
      (fun _ hagree => .inl hagree) hholds hnext
    have hkept' := (hslots.slots hkept).1
    have happlied : Pulled remote.log copy.commits copy'.commits := hcommits ▸ .same
    rw [← hcommits] at houtcome
    cases next with
    | inl upload' =>
      simp only [Lone.advance, hnext]
      exact ⟨⟨hkept', houtcome.holds upload' rfl⟩, hslots, happlied,
        (fun _ _ heq => by cases heq), (fun _ heq => by cases heq), (fun _ heq => by cases heq)⟩
    | inr result =>
      simp only [Lone.advance, hnext]
      refine ⟨⟨hkept', trivial⟩, hslots, happlied, fun answer seq heq => ?_, fun seq heq => ?_,
        fun _ heq => by cases heq⟩
      · cases heq
        exact houtcome.shares _ seq rfl
      · cases heq
        exact houtcome.idle seq rfl

theorem Inv.pull (h : s.Inv device) {pull : Pull D W} (hcall : s.call = .pull pull)
    (choice : UploadChoice) (hmeets : s.Meets device (.next choice)) :
    (s.advance device size limit choice).1.Inv device ∧
      s.Honest device (s.advance device size limit choice).1
        (s.advance device size limit choice).2 := by
  obtain ⟨remote, copy, call⟩ := s
  obtain rfl : call = .pull pull := hcall
  obtain ⟨hkept, hholds⟩ := h
  have hholds : pull.Holds (· = copy.state) remote.log copy.commits := hholds
  cases hnext : pull.resume size limit remote copy with
  | mk copy' next =>
    have hreading : ∀ opened listing, pull = .reading opened listing →
        copy.state = copy'.state := by
      rintro opened listing rfl
      cases hnext
      rfl
    have hplanning : ∀ opened listing state, pull = .planning opened listing state →
        pull.Holds (· = copy.state) remote.log copy.commits →
        ¬ sharedHead state (copy.pullHead opened) < copy.pullHead opened →
        copy.commits <+: remote.log := by
      rintro opened listing state rfl ⟨hclosed, -, rfl⟩ hshared
      cases opened with
      | false => exact hclosed rfl
      | true =>
        exact agreeUpTo_length_iff.mp ((meets_planning rfl).mp hmeets (not_lt.mp hshared))
    obtain ⟨hpulled, -, houtcome⟩ := Pull.holds_resume (R := (· = copy'.state)) hkept hreading
      hplanning hholds hnext
    cases next with
    | inl pull' =>
      simp only [Lone.advance, hnext]
      exact ⟨⟨hkept, houtcome.1 pull' rfl⟩, .same, hpulled,
        (fun _ _ heq => by cases heq), (fun _ heq => by cases heq), (fun _ heq => by cases heq)⟩
    | inr result =>
      simp only [Lone.advance, hnext]
      refine ⟨⟨hkept, trivial⟩, .same, hpulled, (fun _ _ heq => by cases heq),
        (fun _ heq => by cases heq), fun head heq => ?_⟩
      cases heq
      exact (houtcome.2 _ head rfl rfl).1

theorem Inv.advance (h : s.Inv device) (choice : UploadChoice)
    (hmeets : s.Meets device (.next choice)) :
    (s.advance device size limit choice).1.Inv device ∧
      s.Honest device (s.advance device size limit choice).1
        (s.advance device size limit choice).2 := by
  cases hcall : s.call with
  | upload upload => exact h.upload hcall choice hmeets
  | pull pull => exact h.pull hcall choice hmeets
  | idle =>
    have hsame : s.advance device size limit choice = (s, none) := by
      unfold Lone.advance
      rw [hcall]
    rw [hsame]
    exact ⟨h, .same, .same, (fun _ _ heq => by cases heq), (fun _ heq => by cases heq),
      (fun _ heq => by cases heq)⟩

theorem Inv.commit (h : s.Inv device) (hpull : ¬ Call.IsPull s.call) (writes : W) :
    (s.perform device size limit (.commit writes)).Inv device := by
  obtain ⟨remote, copy, call⟩ := s
  obtain ⟨hkept, hcall⟩ := h
  refine ⟨hkept, ?_⟩
  have hgrow : copy.commits <+:
      (⟨copy.store.map (Store.commit writes), copy.state⟩ : Copy W).commits := by
    unfold Copy.commits
    cases copy.store with
    | none => exact prefix_rfl
    | some store => exact prefix_append _ _
  cases call with
  | idle => trivial
  | upload upload =>
    exact Upload.Holds.grow hcall (fun _ _ hsame => hsame)
      (fun _ hseq => hseq.grow hgrow prefix_rfl (Subset.refl _)) hgrow prefix_rfl
  | pull pull => exact absurd trivial hpull

theorem Inv.openStore (h : s.Inv device) : (s.perform device size limit .openStore).Inv device := by
  obtain ⟨remote, copy, call⟩ := s
  obtain ⟨hkept, hcall⟩ := h
  refine ⟨hkept, ?_⟩
  have hcommits := commits_openStore copy
  cases call with
  | idle => trivial
  | upload upload =>
    exact Upload.Holds.grow hcall (fun _ _ hsame => hsame)
      (fun _ hseq => hcommits.symm ▸ hseq) (hcommits.symm ▸ prefix_rfl) prefix_rfl
  | pull pull =>
    exact Pull.Holds.pulled hcall (fun _ hsame => hsame) (hcommits.symm ▸ .same)

theorem Inv.perform (h : s.Inv device) {a : LoneAct D W} (hallowed : s.Allowed device a)
    (hmeets : s.Meets device a) : (s.perform device size limit a).Inv device := by
  cases a with
  | commit writes => exact h.commit hallowed.1 writes
  | crash kept floor | upload | stop => exact ⟨h.remote, trivial⟩
  | openStore => exact h.openStore
  | pull =>
    refine ⟨h.remote, fun hclosed => ?_⟩
    have hcommits : s.copy.commits = [] := by
      unfold Copy.commits
      cases hstore : s.copy.store with
      | none => rfl
      | some store =>
        rw [hstore] at hclosed
        cases hclosed
    show s.copy.commits <+: s.remote.log
    rw [hcommits]
    exact nil_prefix
  | next choice => exact (h.advance choice hmeets).1
  | elsewhere change =>
    obtain ⟨hkept, hlog, hslots⟩ := Elsewhere.kept h.remote hallowed
    exact ⟨hkept, h.call.grow_remote hlog hslots⟩

theorem inv_of_reachable (h : (system device size limit).ReachableBy (Meets device) s) :
    s.Inv device := by
  refine h.invariant ?_ ?_
  · rintro _ ⟨store, rfl⟩
    exact ⟨.empty, trivial⟩
  · rintro s a _ hs hmeets ⟨hallowed, rfl⟩
    exact hs.perform hallowed hmeets

/-! ### Calls that are misled -/

/-- The call went on although the copy has commits of its own up to what it goes by: an upload from
a sequence the copy does not share, a pull over all the copy has. -/
def Misled (s t : Lone D W) (result : Option (UploadResult ⊕ PullResult)) : Prop :=
  (∃ seq uploaded, t.call = .upload (.ranging seq uploaded) ∧ ¬ t.Shares seq) ∨
    (∃ pull, s.call = .pull pull) ∧ result ≠ some (.inr .unsyncedCommits) ∧ ¬ s.Shares s.copy.head

variable {state : Option SyncState}

theorem misled_starting (h : s.Inv device) (hcall : s.call = .upload (.starting state))
    (hmeets : ¬ s.Meets device (.next choice)) :
    s.Misled (s.advance device size limit choice).1 (s.advance device size limit choice).2 := by
  obtain ⟨remote, copy, call⟩ := s
  obtain rfl : call = .upload (.starting state) := hcall
  obtain rfl : state = copy.state := h.call
  rw [meets_starting rfl] at hmeets
  obtain ⟨hle, hshares⟩ := Classical.not_imp.mp hmeets
  refine .inl ⟨sharedHead copy.state copy.head, none, ?_⟩
  have hloop := Upload.loop_misled (D := D) hle hshares none
  simp only [advance, Upload.resume, hloop]
  exact ⟨trivial, hshares⟩

theorem misled_trimming (h : s.Inv device) {uploaded : Option ℕ}
    (hcall : s.call = .upload (.trimming synced uploaded))
    (hmeets : ¬ s.Meets device (.next choice)) (hshares : ¬ s.Shares synced) :
    s.Misled (s.advance device size limit choice).1 (s.advance device size limit choice).2 := by
  have hle : synced ≤ s.copy.head := by
    have hcallHolds := h.call
    rw [hcall] at hcallHolds
    obtain hagree | ⟨after, archive, hslot, hafter⟩ := hcallHolds.1
    · exact absurd hagree hshares
    obtain ⟨slot, hm, hidentity⟩ := mem_map.mp hslot
    simp only [BatchInfo.identity, Prod.mk.injEq] at hidentity
    obtain ⟨rfl, rfl, -, -⟩ := hidentity
    simp only [Meets, hcall, not_forall] at hmeets
    obtain ⟨other, hother, -, hbegins, hspared⟩ := hmeets
    rw [spared_iff, not_or, shares_iff, not_le, not_lt] at hspared
    rw [shares_iff, not_le] at hshares
    have heq : slot.toBatchInfo = other.toBatchInfo := h.remote.chain.eq_of_spans
      (mem_map_of_mem hm) (mem_map_of_mem hother) ⟨shares_iff.mp hafter, hshares⟩
      ⟨hbegins, hspared.1⟩
    rw [heq]
    exact hspared.2
  obtain ⟨remote, copy, call⟩ := s
  obtain rfl : call = .upload (.trimming synced uploaded) := hcall
  have hcommits := commits_trim (min synced copy.head) copy
  have hhead : (copy.trim (min synced copy.head)).head = copy.head :=
    congrArg length hcommits
  have hshares : ¬ List.AgreeUpTo synced (copy.trim (min synced copy.head)).commits
      remote.log := hcommits.symm ▸ hshares
  refine .inl ⟨synced, uploaded, ?_⟩
  have hloop := Upload.loop_misled (D := D) (hhead.symm ▸ hle) hshares uploaded
  simp only [advance, Upload.resume, hloop]
  exact ⟨trivial, hshares⟩

omit [DecidableEq D] in
theorem loop_ne_unsynced (listing : RemoteListing D) (copy : Copy W) (bodies : List PullBody) :
    Pull.loop true listing copy bodies ≠ .inr .unsyncedCommits := by
  unfold Pull.loop
  cases bodies.dropWhile fun body => body.upTo ≤ copy.pullHead true with
  | nil =>
    dsimp only
    rw [if_pos rfl, Pull.close]
    split_ifs <;> exact fun heq => by cases heq
  | cons body rest => exact fun heq => by cases heq

theorem misled_planning (h : s.Inv device) {listing : RemoteListing D}
    (hcall : s.call = .pull (.planning true listing state))
    (hmeets : ¬ s.Meets device (.next choice)) :
    s.Misled (s.advance device size limit choice).1 (s.advance device size limit choice).2 := by
  obtain ⟨remote, copy, call⟩ := s
  obtain rfl : call = .pull (.planning true listing state) := hcall
  obtain rfl : state = copy.state := h.call.2.2
  rw [meets_planning rfl] at hmeets
  obtain ⟨hle, hshares⟩ := Classical.not_imp.mp hmeets
  refine .inr ⟨⟨_, rfl⟩, ?_, hshares⟩
  have hresume : (Pull.planning true listing copy.state).resume size limit remote copy =
      (copy, Pull.loop true listing copy (remoteHistory listing (some copy.head)).bodies) :=
    if_neg (not_lt.mpr hle)
  have hloop := loop_ne_unsynced listing copy (remoteHistory listing (some copy.head)).bodies
  simp only [advance, hresume]
  cases hnext : Pull.loop true listing copy (remoteHistory listing (some copy.head)).bodies with
  | inl next => exact fun heq => by cases heq
  | inr result =>
    rintro heq
    obtain rfl : result = .unsyncedCommits := by
      cases heq
      rfl
    exact hloop hnext

theorem misled_of_not_meets (h : s.Inv device) (hmeets : ¬ s.Meets device (.next choice)) :
    s.Misled (s.advance device size limit choice).1 (s.advance device size limit choice).2 ∨
      ∃ synced uploaded, s.call = .upload (.trimming synced uploaded) ∧ s.Shares synced := by
  cases hcall : s.call with
  | idle => exact absurd (by simp only [Meets, hcall]) hmeets
  | upload upload =>
    cases upload with
    | starting state => exact .inl (misled_starting h hcall hmeets)
    | trimming synced uploaded =>
      by_cases hshares : s.Shares synced
      · exact .inr ⟨synced, uploaded, rfl, hshares⟩
      · exact .inl (misled_trimming h hcall hmeets hshares)
    | _ => exact absurd (by simp only [Meets, hcall]) hmeets
  | pull pull =>
    cases pull with
    | planning opened listing state =>
      cases opened with
      | false => exact absurd (by simp only [Meets, hcall]) hmeets
      | true => exact .inl (misled_planning h hcall hmeets)
    | _ => exact absurd (by simp only [Meets, hcall]) hmeets

/-- Along every run whose calls find the copy short of what it lost, a call tells honestly what the
copy shares; and a call that finds it otherwise goes on misled, or has not come to the slot yet. -/
theorem loss_detected (device : D) (size : OutboxCommit W → ℕ) (limit : ℕ) (s : Lone D W)
    (choice : UploadChoice) :
    ((system device size limit).ReachableBy (Meets device) s → s.Meets device (.next choice) →
      s.Honest device (s.advance device size limit choice).1
        (s.advance device size limit choice).2) ∧
    ((system device size limit).ReachableBy (Meets device) s → ¬ s.Meets device (.next choice) →
      s.Misled (s.advance device size limit choice).1 (s.advance device size limit choice).2 ∨
        ∃ synced uploaded, s.call = .upload (.trimming synced uploaded) ∧ s.Shares synced) :=
  ⟨fun hs hmeets => ((inv_of_reachable hs).advance choice hmeets).2,
    fun hs hmeets => misled_of_not_meets (inv_of_reachable hs) hmeets⟩

/-! ### After a power loss -/

/-- Three commits uploaded, of which a crash leaves one, and one more since. -/
def lostRun : List (LoneAct Bool ℕ) :=
  .upload :: replicate 8 (.next ⟨2, false⟩) ++ [.crash 1 0, .commit 9]

def saved : Lone Bool ℕ :=
  ⟨.empty, ⟨some ⟨[1, 2, 3], 0, Nat.zero_le _⟩, none⟩, .idle⟩

theorem along_lost : (system true (fun _ => 1) 1).Along (Meets true)
    (perform true (fun _ => 1) 1) saved lostRun :=
  ⟨⟨⟨trivial, rfl⟩, rfl⟩, trivial, ⟨trivial, rfl⟩, trivial, ⟨trivial, rfl⟩,
    ⟨(fun _ h => by cases h), (fun _ h => by cases h)⟩, ⟨trivial, rfl⟩, trivial, ⟨trivial, rfl⟩,
    trivial, ⟨trivial, rfl⟩, trivial, ⟨trivial, rfl⟩, trivial, ⟨trivial, rfl⟩,
    meets_of_own (own_eq_zero.mpr ⟨le_rfl, le_rfl, rfl⟩) _, ⟨trivial, rfl⟩, trivial,
    ⟨trivial, rfl⟩, trivial, ⟨⟨id, rfl⟩, rfl⟩, trivial, trivial⟩

/-- The copy after the loss. -/
def short : Lone Bool ℕ :=
  lostRun.foldl (perform true (fun _ => 1) 1) saved

theorem reachable_short (acts : List (LoneAct Bool ℕ)) {ok : Lone Bool ℕ → LoneAct Bool ℕ → Prop}
    (hok : ∀ s a, Meets true s a → ok s a)
    (h : (system true (fun _ => 1) 1).Along ok (perform true (fun _ => 1) 1) short acts) :
    (system true (fun _ => 1) 1).ReachableBy ok (acts.foldl (perform true (fun _ => 1) 1) short) :=
  ⟨saved, ⟨_, rfl⟩, (along_lost.steps.mono hok).trans h.steps⟩

/-- The upload after the loss sees that the head is below what was uploaded. -/
theorem loss_detected_behind : ∃ s : Lone Bool ℕ,
    s.Honest true (s.advance true (fun _ => 1) 1 ⟨2, false⟩).1
        (s.advance true (fun _ => 1) 1 ⟨2, false⟩).2 ∧
      (s.advance true (fun _ => 1) 1 ⟨2, false⟩).2 = some (.inl (.behind 2 3)) := by
  have hreach := reachable_short [.upload, .next ⟨2, false⟩] (fun _ _ h => h)
    ⟨⟨⟨trivial, rfl⟩, rfl⟩, trivial, ⟨trivial, rfl⟩, trivial, trivial⟩
  refine ⟨_, (loss_detected true (fun _ => 1) 1 _ ⟨2, false⟩).1 hreach ⟨(fun _ h => by cases h),
    fun synced hsynced => spared_iff.mpr (.inr ?_)⟩, rfl⟩
  obtain rfl : 3 = synced := Option.some.inj hsynced
  exact (by decide : 2 < 3)

/-- The pull after the loss applies the remote's third commit onto the copy's own second. -/
theorem commit_after_loss : ∃ s : Lone Bool ℕ, (system true (fun _ => 1) 1).Reachable s ∧
    s.copy.commits = [1, 9] ∧ s.remote.log = [1, 2, 3] ∧
    (s.advance true (fun _ => 1) 1 ⟨2, false⟩).1.copy.commits = [1, 9, 3] ∧
    ¬ s.Honest true (s.advance true (fun _ => 1) 1 ⟨2, false⟩).1
      (s.advance true (fun _ => 1) 1 ⟨2, false⟩).2 := by
  have hreach := reachable_short (.pull :: replicate 8 (.next ⟨2, false⟩))
    (fun _ _ _ => trivial)
    ⟨⟨trivial, rfl⟩, trivial, ⟨trivial, rfl⟩, trivial, ⟨trivial, rfl⟩, trivial, ⟨trivial, rfl⟩,
      trivial, ⟨trivial, rfl⟩, trivial, ⟨trivial, rfl⟩, trivial, ⟨trivial, rfl⟩, trivial,
      ⟨trivial, rfl⟩, trivial, ⟨trivial, rfl⟩, trivial, trivial⟩
  refine ⟨_, hreach, rfl, rfl, rfl, fun h => ?_⟩
  have happlied : Pulled [1, 2, 3] [1, 9] [1, 9, 3] := h.applied
  obtain heq | ⟨hbefore, -⟩ := happlied.same_or
  · cases heq
  · exact absurd hbefore (by decide)

end Lone

end KnightCode.Sync
