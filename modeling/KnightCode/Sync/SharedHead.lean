import KnightCode.Sync.SessionRuns

/-!
# What the calls know of a copy

A sync state in use is sound for the copy's commits, an upload knows a shared head, and a pull past
its first check finds all of the copy's commits on the remote. One lemma for each: they hold after
the call's own step, and they outlive what the other calls and the remote do.
-/

namespace KnightCode.Sync

open List Option

variable {D W : Type} {log log' commits commits' : List W}
variable {state : Option SyncState} {device : D} {copy : Copy W}

/-! ### Sync states -/

def pullingOf (state : Option SyncState) : Option ℕ :=
  state.bind (·.pulling)

/-- The synced head is shared, and with a head up to `pulling` all of the copy's commits are. -/
structure Sound (log commits : List W) (state : Option SyncState) : Prop where
  synced : List.AgreeUpTo ((state.bind (·.syncedHead)).getD LOG_START) commits log
  pulling : ∀ pulling, pullingOf state = some pulling → commits.length ≤ pulling → commits <+: log

/-- A pull applied commits: the copy's are all the remote's, as they were before. -/
inductive Pulled (log commits : List W) : List W → Prop
  | same : Pulled log commits commits
  | applied {commits' : List W} (hbefore : commits <+: log) (hafter : commits' <+: log)
      (hgrow : commits <+: commits') : Pulled log commits commits'

theorem Pulled.grow (h : Pulled log commits commits') : commits <+: commits' := by
  cases h with
  | same => exact prefix_rfl
  | applied _ _ hgrow => exact hgrow

theorem Pulled.same_or (h : Pulled log commits commits') :
    commits' = commits ∨ commits <+: log ∧ commits' <+: log ∧ commits <+: commits' := by
  cases h with
  | same => exact .inl rfl
  | applied hbefore hafter hgrow => exact .inr ⟨hbefore, hafter, hgrow⟩

theorem Pulled.isPrefix (h : Pulled log commits commits') (hlog : commits <+: log) :
    commits' <+: log := by
  cases h with
  | same => exact hlog
  | applied _ hafter _ => exact hafter

theorem Sound.none (log commits : List W) : Sound log commits none :=
  ⟨.zero _ _, fun _ h => by cases h⟩

theorem Sound.of_agree {head : ℕ} (h : List.AgreeUpTo head commits log) :
    Sound log commits (some ⟨some head, Option.none⟩) :=
  ⟨h, fun _ h => by cases h⟩

theorem Sound.shared (h : Sound log commits state) :
    List.AgreeUpTo (sharedHead state commits.length) commits log := by
  cases state with
  | none => exact .zero _ _
  | some state =>
    cases hpulling : state.pulling with
    | none => simpa [sharedHead, hpulling] using h.synced
    | some pulling =>
      by_cases hle : commits.length ≤ pulling
      · simp only [sharedHead, hpulling, if_pos hle]
        exact agreeUpTo_length_iff.mpr (h.pulling pulling (by simp [pullingOf, hpulling]) hle)
      · simpa [sharedHead, hpulling, hle] using h.synced

theorem Sound.grow_log (h : Sound log commits state) (hlog : log <+: log') :
    Sound log' commits state :=
  ⟨h.synced.grow prefix_rfl hlog,
    fun pulling hpulling hle => (h.pulling pulling hpulling hle).trans hlog⟩

theorem Sound.pulled (h : Sound log commits state) (hpulled : Pulled log commits commits') :
    Sound log commits' state := by
  refine ⟨h.synced.grow hpulled.grow prefix_rfl, fun pulling hpulling hle => ?_⟩
  exact hpulled.isPrefix (h.pulling pulling hpulling (hpulled.grow.length_le.trans hle))

theorem Sound.commit (h : Sound log commits state) (writes : W)
    (hmeets : ∀ pulling, pullingOf state = some pulling → pulling ≤ commits.length) :
    Sound log (commits ++ [writes]) state := by
  refine ⟨h.synced.grow (prefix_append _ _) prefix_rfl, fun pulling hpulling hle => ?_⟩
  have hmeet := hmeets pulling hpulling
  rw [length_append, length_singleton] at hle
  omega

/-! ### Uploads -/

/-- What an upload's last batch ended at is shared. -/
def Told (log commits : List W) (uploaded : Option ℕ) : Prop :=
  ∀ head, uploaded = some head → List.AgreeUpTo head commits log

theorem Told.none (log commits : List W) : Told log commits none :=
  fun _ h => by cases h

variable {uploaded : Option ℕ}

theorem Told.grow (h : Told log commits uploaded) (hcommits : commits <+: commits')
    (hlog : log <+: log') : Told log' commits' uploaded :=
  fun head huploaded => (h head huploaded).grow hcommits hlog

/-- The sequence a result of an upload says the copy shares with the remote. -/
def UploadResult.shares : UploadResult → Option ℕ
  | .uploaded head | .idle head => some head
  | .diverged seq | .staleEpoch seq => some seq
  | .behind _ _ | .outboxUnavailable => none

theorem UploadResult.shares_of_head {result : UploadResult} {head : ℕ}
    (h : result.head = some head) : result.shares = some head := by
  cases result with
  | uploaded _ => exact h
  | idle _ => exact h
  | _ => cases h

/-- What an upload goes by, where `S` holds of the sync state it read and `T` of a sequence it has
not compared with the head yet. -/
def Upload.Holds (S : Option SyncState → Prop) (T : ℕ → Prop) (log commits : List W) (device : D) :
    Upload D → Prop
  | .reading => True
  | .starting state => S state
  | .exporting uploaded => 0 < commits.length ∧ Told log commits uploaded
  | .ranging synced uploaded => List.AgreeUpTo synced commits log ∧ Told log commits uploaded
  | .putting after upTo archive uploaded =>
    List.AgreeUpTo after commits log ∧ after < upTo ∧ upTo ≤ commits.length ∧
      (archive = true → after = LOG_START) ∧ Told log commits uploaded
  | .answered after upTo result uploaded =>
    List.AgreeUpTo after commits log ∧ (match result with
      | .created => List.AgreeUpTo upTo commits log
      | .slotExists held owner => owner = device → T held
      | _ => True) ∧ Told log commits uploaded
  | .recording synced uploaded | .trimming synced uploaded => T synced ∧ Told log commits uploaded

/-- An upload at its next await, or ended with what it tells. -/
structure UploadOutcome (S : Option SyncState → Prop) (T : ℕ → Prop) (log commits : List W)
    (device : D) (next : Upload D ⊕ UploadResult) : Prop where
  holds : ∀ upload, next = .inl upload → upload.Holds S T log commits device
  shares : ∀ answer seq, next = .inr answer → answer.shares = some seq →
    List.AgreeUpTo seq commits log
  idle : ∀ seq, next = .inr (.idle seq) → commits <+: log

variable {S R : Option SyncState → Prop} {T T' : ℕ → Prop}

namespace Upload

variable {device : D} {upload : Upload D}

theorem Holds.grow (h : upload.Holds S T log commits device)
    (hstate : ∀ state, upload = .starting state → S state → R state)
    (hseq : ∀ seq, T seq → T' seq) (hcommits : commits <+: commits') (hlog : log <+: log') :
    upload.Holds R T' log' commits' device := by
  cases upload with
  | reading => trivial
  | starting state => exact hstate state rfl h
  | exporting uploaded =>
    exact ⟨h.1.trans_le hcommits.length_le, h.2.grow hcommits hlog⟩
  | ranging synced uploaded => exact ⟨h.1.grow hcommits hlog, h.2.grow hcommits hlog⟩
  | putting after upTo archive uploaded =>
    obtain ⟨hafter, hlt, hupTo, harchive, htold⟩ := h
    exact ⟨hafter.grow hcommits hlog, hlt, hupTo.trans hcommits.length_le, harchive,
      htold.grow hcommits hlog⟩
  | answered after upTo result uploaded =>
    obtain ⟨hafter, hresult, htold⟩ := h
    refine ⟨hafter.grow hcommits hlog, ?_, htold.grow hcommits hlog⟩
    cases result with
    | created => exact hresult.grow hcommits hlog
    | slotExists held owner => exact fun howner => hseq held (hresult howner)
    | notHead head => trivial
    | staleEpoch => trivial
  | recording synced uploaded => exact ⟨hseq synced h.1, h.2.grow hcommits hlog⟩
  | trimming synced uploaded => exact ⟨hseq synced h.1, h.2.grow hcommits hlog⟩

theorem Holds.outcome (h : upload.Holds S T log commits device) :
    UploadOutcome S T log commits device (.inl upload) :=
  ⟨(fun _ heq => by cases heq; exact h), (fun _ _ heq => by cases heq),
    (fun _ heq => by cases heq)⟩

theorem outcome_of_result {result : UploadResult}
    (h : ∀ seq, result.shares = some seq → List.AgreeUpTo seq commits log)
    (hidle : ∀ seq, result = .idle seq → commits <+: log) :
    UploadOutcome S T log commits device (.inr result) :=
  ⟨(fun _ heq => by cases heq), (fun _ seq heq => by cases heq; exact h seq),
    (fun seq heq => by cases heq; exact hidle seq rfl)⟩

theorem loop_outcome {synced : ℕ} {copy : Copy W}
    (hsynced : synced ≤ copy.head → List.AgreeUpTo synced copy.commits log)
    (htold : Told log copy.commits uploaded) :
    UploadOutcome S T log copy.commits device (loop synced uploaded copy) := by
  unfold loop
  split_ifs with hbehind hfloor
  · exact outcome_of_result (fun _ h => by cases h) (fun _ h => by cases h)
  · refine Holds.outcome ⟨?_, htold⟩
    have hle : copy.floor ≤ copy.commits.length := by
      unfold Copy.floor Copy.commits
      cases copy.store with
      | none => exact le_rfl
      | some store => exact store.floor_le
    omega
  · exact Holds.outcome ⟨hsynced (not_lt.mp hbehind), htold⟩

theorem answer_outcome [DecidableEq D] {after upTo : ℕ} {result : PutBatchResult D}
    (hagree : ∀ seq, List.AgreeUpTo seq commits log → T seq)
    (h : (Upload.answered after upTo result uploaded).Holds S T log commits device) :
    UploadOutcome R T log commits device (answer device after upTo uploaded result) := by
  obtain ⟨hafter, hresult, htold⟩ := h
  have hat : ∀ {answer : UploadResult}, answer.shares = some after →
      (∀ seq, answer ≠ .idle seq) →
      UploadOutcome R T log commits device (.inr answer) := fun hanswer hidle =>
    outcome_of_result (fun seq heq => Option.some.inj (hanswer.symm.trans heq) ▸ hafter)
      fun seq heq => absurd heq (hidle seq)
  cases result with
  | created =>
    refine Holds.outcome ⟨hagree _ hresult, fun head hhead => ?_⟩
    cases hhead
    exact hresult
  | slotExists held owner =>
    simp only [answer]
    split_ifs with howner
    · exact Holds.outcome ⟨hresult howner, htold⟩
    · exact hat rfl fun _ heq => by cases heq
  | notHead head | staleEpoch => exact hat rfl fun _ heq => by cases heq

end Upload

theorem commits_trim (throughSeq : ℕ) (copy : Copy W) :
    (copy.trim throughSeq).commits = copy.commits := by
  unfold Copy.trim Copy.commits
  cases copy.store with
  | none => rfl
  | some store =>
    simp only [map_some, getD_some, Store.trim]
    split_ifs <;> rfl

/-- What an upload's step does to the remote: nothing, or a slot of its device that continues the
log with the copy's own commits. -/
inductive Uploaded (commits : List W) (device : D) (remote : Remote D W) : Remote D W → Prop
  | same : Uploaded commits device remote remote
  | created (after upTo : ℕ) (archive : Bool) (hhead : after = remoteHead remote.list)
      (hshared : List.AgreeUpTo after commits remote.log) (hlt : after < upTo)
      (hupTo : upTo ≤ commits.length) (harchive : archive = true → after = LOG_START) :
    Uploaded commits device remote (remote.create ⟨⟨after, upTo, device, false, archive⟩,
      outboxRows after (segment commits after upTo)⟩)

variable {remote : Remote D W}
variable {remote' : Remote D W} {choice : UploadChoice} {copy' : Copy W} {upload : Upload D}
variable {next : Upload D ⊕ UploadResult}

theorem Uploaded.grow (h : Uploaded commits device remote remote') :
    remote.log <+: remote'.log := by
  cases h with
  | same => exact prefix_rfl
  | created => exact Remote.log_create _ _ ▸ prefix_append _ _

theorem Uploaded.slots (h : Uploaded commits device remote remote') (hkept : remote.Kept) :
    remote'.Kept ∧ remote.slots <+: remote'.slots ∧ ∀ slot ∈ remote'.slots, slot ∈ remote.slots ∨
      (slot.device = device ∧ remote'.log <+: commits ∧ slot.upTo = remote'.log.length) := by
  cases h with
  | same => exact ⟨hkept, prefix_rfl, fun slot hm => .inl hm⟩
  | created after upTo archive hhead hshared hlt hupTo harchive =>
    have hlog := hkept.log_create hhead hshared hlt.le ⟨after, upTo, device, false, archive⟩
    refine ⟨hkept.create device hhead hshared hlt hupTo harchive, prefix_append _ _,
      fun slot hm => ?_⟩
    obtain hm | hm := mem_append.mp hm
    · exact .inl hm
    · rw [mem_singleton.mp hm, hlog]
      exact .inr ⟨rfl, take_prefix _ _, (length_take_of_le hupTo).symm⟩

/-- A step of an upload changes the remote as said and none of the copy's commits. -/
theorem Upload.holds_resume [DecidableEq D] {T : Remote D W → ℕ → Prop} (hkept : remote.Kept)
    (hreading : upload = .reading → R copy.state)
    (hstarting : ∀ state, upload = .starting state → S state → sharedHead state copy.head ≤
      copy.head → List.AgreeUpTo (sharedHead state copy.head) copy.commits remote.log)
    (htrimming : ∀ synced uploaded, upload = .trimming synced uploaded → T remote synced →
      synced ≤ copy.head → List.AgreeUpTo synced copy.commits remote.log)
    (howned : ∀ slot ∈ remote.slots, slot.device = device →
      List.AgreeUpTo slot.after copy.commits remote.log → T remote slot.upTo)
    (hagree : ∀ seq, List.AgreeUpTo seq copy.commits remote.log → T remote seq)
    (h : upload.Holds S (T remote) remote.log copy.commits device)
    (hnext : upload.resume device choice remote copy = (remote', copy', next)) :
    Uploaded copy.commits device remote remote' ∧ copy'.commits = copy.commits ∧
      UploadOutcome R (T remote') remote'.log copy.commits device next := by
  cases upload with
  | reading =>
    cases hnext
    exact ⟨.same, rfl, Holds.outcome (hreading rfl)⟩
  | starting state =>
    cases hnext
    exact ⟨.same, rfl, loop_outcome (hstarting state rfl h) (.none _ _)⟩
  | exporting uploaded =>
    cases hnext
    exact ⟨.same, rfl, Holds.outcome ⟨.zero _ _, h.1, le_rfl, fun _ => rfl, h.2⟩⟩
  | ranging synced uploaded =>
    obtain ⟨hsynced, htold⟩ := h
    simp only [resume] at hnext
    split_ifs at hnext with hfloor hend
    · cases hnext
      exact ⟨.same, rfl, outcome_of_result (fun _ h => by cases h) (fun _ h => by cases h)⟩
    · cases hnext
      have hwhole : copy.commits <+: remote.log :=
        agreeUpTo_length_iff.mp (hsynced.of_le hend)
      refine ⟨.same, rfl, outcome_of_result (fun seq hseq => ?_) fun _ _ => hwhole⟩
      cases uploaded with
      | none =>
        cases hseq
        exact hsynced
      | some head => exact htold seq hseq
    · cases hnext
      have hlt : synced < copy.commits.length := not_le.mp hend
      refine ⟨.same, rfl, Holds.outcome ⟨hsynced, ?_, min_le_right _ _, (fun h => by cases h),
        htold⟩⟩
      unfold Copy.head
      omega
  | putting after upTo archive uploaded =>
    obtain ⟨hafter, hlt, hupTo, harchive, htold⟩ := h
    simp only [resume] at hnext
    split_ifs at hnext with hstale
    · cases hnext
      exact ⟨.same, rfl, Holds.outcome ⟨hafter, trivial, htold⟩⟩
    · obtain ⟨hput, hhead⟩ | ⟨existing, hexisting, hbegins, hput⟩ | ⟨head, hput⟩ :=
        remote.putBatch_cases after upTo device archive
          (outboxRows after ((copy.commits.take upTo).drop after))
      · rw [hput] at hnext
        cases hnext
        have hcreated : Uploaded copy.commits device remote _ :=
          .created after upTo archive hhead hafter hlt hupTo harchive
        have hlog := hkept.log_create hhead hafter hlt.le ⟨after, upTo, device, false, archive⟩
        have hshared := (List.AgreeUpTo.of_isPrefix ( take_prefix upTo copy.commits)
          (length_take_of_le hupTo).ge).symm
        rw [← hlog] at hshared
        exact ⟨hcreated, rfl, Holds.outcome ⟨hafter.grow prefix_rfl hcreated.grow, hshared,
          htold.grow prefix_rfl hcreated.grow⟩⟩
      · rw [hput] at hnext
        cases hnext
        refine ⟨.same, rfl, Holds.outcome ⟨hafter, fun howner => ?_, htold⟩⟩
        exact howned existing hexisting howner (hbegins ▸ hafter)
      · rw [hput] at hnext
        cases hnext
        exact ⟨.same, rfl, Holds.outcome ⟨hafter, trivial, htold⟩⟩
  | answered after upTo result uploaded =>
    cases hnext
    exact ⟨.same, rfl, answer_outcome hagree h⟩
  | recording synced uploaded =>
    cases hnext
    exact ⟨.same, rfl, Holds.outcome h⟩
  | trimming synced uploaded =>
    cases hnext
    have hcommits := commits_trim (min synced copy.head) copy
    have hhead : (copy.trim (min synced copy.head)).head = copy.head :=
      congrArg length hcommits
    have htold : Told remote.log (copy.trim (min synced copy.head)).commits uploaded :=
      hcommits.symm ▸ h.2
    refine ⟨.same, hcommits, ?_⟩
    rw [← hcommits]
    exact loop_outcome (fun hle => hcommits.symm ▸ htrimming synced uploaded rfl h.1 (hhead ▸ hle))
      htold

/-! ### Sound uploads -/

/-- An upload all of whose sequences are shared. -/
def Upload.Knows (log commits : List W) (device : D) (upload : Upload D) : Prop :=
  upload.Holds (Sound log commits) (fun seq => List.AgreeUpTo seq commits log) log commits device

theorem Upload.Knows.grow (h : upload.Knows log commits device)
    (hstate : ∀ state, upload = .starting state → Sound log commits state → Sound log' commits' state)
    (hcommits : commits <+: commits') (hlog : log <+: log') : upload.Knows log' commits' device :=
  Holds.grow h hstate (fun _ hseq => hseq.grow hcommits hlog) hcommits hlog

theorem Upload.state_resume [DecidableEq D] (hstate : Sound remote.log copy.commits copy.state)
    (hlog : remote.log <+: remote'.log) (h : upload.Knows remote.log copy.commits device)
    (hnext : upload.resume device choice remote copy = (remote', copy', next)) :
    Sound remote'.log copy.commits copy'.state := by
  by_cases hrecording : ∃ synced uploaded, upload = .recording synced uploaded
  · obtain ⟨synced, uploaded, rfl⟩ := hrecording
    cases hnext
    exact .of_agree h.1
  · suffices hsame : copy'.state = copy.state from hsame ▸ hstate.grow_log hlog
    cases upload with
    | recording synced uploaded => exact absurd ⟨synced, uploaded, rfl⟩ hrecording
    | ranging synced uploaded | putting after upTo archive uploaded =>
      simp only [resume] at hnext
      split_ifs at hnext <;> cases hnext <;> rfl
    | _ =>
      cases hnext
      rfl

theorem Upload.knows_resume [DecidableEq D] (hkept : remote.Kept)
    (howned : ∀ slot ∈ remote.slots, slot.device = device →
      List.AgreeUpTo slot.upTo copy.commits remote.log)
    (hstate : Sound remote.log copy.commits copy.state)
    (h : upload.Knows remote.log copy.commits device)
    (hnext : upload.resume device choice remote copy = (remote', copy', next)) :
    Uploaded copy.commits device remote remote' ∧ copy'.commits = copy.commits ∧
      Sound remote'.log copy.commits copy'.state ∧
      UploadOutcome (Sound remote'.log copy.commits)
        (fun seq => List.AgreeUpTo seq copy.commits remote'.log) remote'.log copy.commits device
        next := by
  have hgrows : upload = .reading → Sound remote'.log copy.commits copy.state := by
    rintro rfl
    cases hnext
    exact hstate
  obtain ⟨huploaded, hcommits, houtcome⟩ := Upload.holds_resume
    (T := fun remote seq => List.AgreeUpTo seq copy.commits remote.log) hkept hgrows
    (fun _ _ hsound _ => hsound.shared) (fun _ _ _ hagree _ => hagree)
    (fun slot hm hdevice _ => howned slot hm hdevice) (fun _ hagree => hagree) h hnext
  exact ⟨huploaded, hcommits, state_resume hstate huploaded.grow h hnext, houtcome⟩

/-! ### Pulls -/

/-- Only the slot after the start can be an archive. -/
def RemoteListing.Archives (listing : RemoteListing D) : Prop :=
  ∀ batch ∈ listing.batches, batch.archive = true → batch.after = LOG_START

def PullBody.Whole (body : PullBody) : Prop :=
  body.archive = true → body.snapshot = true ∨ body.key = LOG_START

theorem RemoteListing.Archives.bodies {listing : RemoteListing D} (h : listing.Archives)
    (start : Option ℕ) : ∀ body ∈ (remoteHistory listing start).bodies, body.Whole := by
  intro body hm
  obtain hm | hm := mem_append.mp hm
  · cases hsnapshot : (remoteHistory listing start).snapshot with
    | none =>
      rw [hsnapshot] at hm
      exact absurd hm not_mem_nil
    | some seq =>
      rw [hsnapshot] at hm
      rw [mem_singleton.mp hm]
      exact fun _ => .inl rfl
  · obtain ⟨batch, hbatch, rfl⟩ := mem_map.mp hm
    exact fun harchive => .inr (h batch (mem_of_mem_remoteHistory hbatch) harchive)

theorem Remote.Kept.listed (h : remote.Kept) : remote.list.Archives := by
  intro batch hm
  obtain ⟨slot, hslot, rfl⟩ := mem_map.mp hm
  exact h.archives slot hslot

variable {body : PullBody}

theorem Remote.Kept.read (h : remote.Kept) (hwhole : body.Whole) {lines : List (OutboxCommit W)}
    (hread : body.read remote = some lines) :
    (∀ line ∈ lines, line.OfLog remote.log) ∧
      (body.archive = true → lines.map (·.writes) <+: remote.log) := by
  unfold PullBody.read at hread
  split_ifs at hread with hsnapshot
  · obtain ⟨hle, rfl⟩ := h.snapshots _ _ hread
    refine ⟨fun line hline => ?_, fun _ => ?_⟩
    · refine ofLog_of_mem_segment (Nat.zero_le body.key) hle ?_
      simpa [segment] using hline
    · rw [writes_outboxRows]
      exact take_prefix _ _
  · obtain ⟨slot, hslot, hbody⟩ := bind_eq_some_iff.mp hread
    split_ifs at hbody
    obtain ⟨hm, hafter⟩ := mem_of_slot hslot
    obtain ⟨hle, hlines⟩ := h.bodies slot hm
    obtain rfl := (Option.some.inj hbody).symm.trans hlines
    refine ⟨fun line hline => ofLog_of_mem_segment (h.lt hm).le hle hline, fun harchive => ?_⟩
    have hstart : slot.after = LOG_START := by
      obtain hs | hkey := hwhole harchive
      · exact absurd hs hsnapshot
      · exact hafter.trans hkey
    rw [writes_outboxRows, segment, hstart]
    exact take_prefix _ _

/-- What a pull goes by, where `S` holds of the sync state it read; from its first check on the
copy's commits are the remote's. -/
def Pull.Holds (S : Option SyncState → Prop) (log commits : List W) : Pull D W → Prop
  | .entered opened => opened = false → commits <+: log
  | .reading opened listing => (opened = false → commits <+: log) ∧ listing.Archives
  | .planning opened listing state =>
    (opened = false → commits <+: log) ∧ listing.Archives ∧ S state
  | .fetching _ _ body rest => commits <+: log ∧ ∀ other ∈ body :: rest, other.Whole
  | .marking _ _ body lines rest state =>
    commits <+: log ∧ (∀ other ∈ rest, other.Whole) ∧ (∀ line ∈ lines, line.OfLog log) ∧
      (body.archive = true → lines.map (·.writes) <+: log) ∧
      List.AgreeUpTo (state.syncedHead.getD LOG_START) commits log
  | .importing _ lines rest =>
    commits <+: log ∧ (∀ other ∈ rest, other.Whole) ∧ lines.map (·.writes) <+: log
  | .opening _ lines rest =>
    commits <+: log ∧ (∀ other ∈ rest, other.Whole) ∧ ∀ line ∈ lines, line.OfLog log
  | .decoding _ lines chunk rest | .applying _ lines chunk rest =>
    commits <+: log ∧ (∀ other ∈ rest, other.Whole) ∧ ∀ line ∈ chunk ++ lines, line.OfLog log
  | .clearing _ rest state =>
    commits <+: log ∧ (∀ other ∈ rest, other.Whole) ∧
      List.AgreeUpTo (state.syncedHead.getD LOG_START) commits log
  | .finishing _ => commits <+: log
  | .recording head | .trimming head => commits <+: log ∧ head ≤ commits.length

variable {pull : Pull D W}

theorem Pull.Holds.grow_log (h : pull.Holds S log commits)
    (hstate : ∀ state, S state → R state) (hlog : log <+: log') : pull.Holds R log' commits := by
  cases pull with
  | entered opened => exact fun hopened => (h hopened).trans hlog
  | reading opened listing => exact ⟨fun hopened => (h.1 hopened).trans hlog, h.2⟩
  | planning opened listing state =>
    exact ⟨fun hopened => (h.1 hopened).trans hlog, h.2.1, hstate state h.2.2⟩
  | fetching opened listing body rest => exact ⟨h.1.trans hlog, h.2⟩
  | marking opened listing body lines rest state =>
    obtain ⟨hcommits, hrest, hlines, harchive, hsynced⟩ := h
    exact ⟨hcommits.trans hlog, hrest, fun line hline => (hlines line hline).grow hlog,
      fun h => (harchive h).trans hlog, hsynced.grow prefix_rfl hlog⟩
  | importing listing lines rest => exact ⟨h.1.trans hlog, h.2.1, h.2.2.trans hlog⟩
  | opening listing lines rest | decoding listing lines chunk rest
  | applying listing lines chunk rest =>
    exact ⟨h.1.trans hlog, h.2.1, fun line hline => (h.2.2 line hline).grow hlog⟩
  | clearing listing rest state =>
    exact ⟨h.1.trans hlog, h.2.1, h.2.2.grow prefix_rfl hlog⟩
  | finishing listing => exact List.IsPrefix.trans h hlog
  | recording head => exact ⟨h.1.trans hlog, h.2⟩
  | trimming head => exact ⟨h.1.trans hlog, h.2⟩

theorem Pull.Holds.pulled (h : pull.Holds S log commits) (hstate : ∀ state, S state → R state)
    (hpulled : Pulled log commits commits') : pull.Holds R log commits' := by
  cases pull with
  | entered opened => exact fun hopened => hpulled.isPrefix (h hopened)
  | reading opened listing => exact ⟨fun hopened => hpulled.isPrefix (h.1 hopened), h.2⟩
  | planning opened listing state =>
    exact ⟨fun hopened => hpulled.isPrefix (h.1 hopened), h.2.1, hstate state h.2.2⟩
  | fetching opened listing body rest | importing listing lines rest
  | opening listing lines rest | decoding listing lines chunk rest
  | applying listing lines chunk rest => exact ⟨hpulled.isPrefix h.1, h.2⟩
  | marking opened listing body lines rest state =>
    obtain ⟨hcommits, hrest, hlines, harchive, hsynced⟩ := h
    exact ⟨hpulled.isPrefix hcommits, hrest, hlines, harchive, hsynced.grow hpulled.grow prefix_rfl⟩
  | clearing listing rest state =>
    exact ⟨hpulled.isPrefix h.1, h.2.1, h.2.2.grow hpulled.grow prefix_rfl⟩
  | finishing listing => exact hpulled.isPrefix h
  | recording head => exact ⟨hpulled.isPrefix h.1, h.2.trans hpulled.grow.length_le⟩
  | trimming head => exact ⟨hpulled.isPrefix h.1, h.2.trans hpulled.grow.length_le⟩

/-- A pull at its next await, or resolved with the copy's commits all on the remote. -/
def PullOutcome (S : Option SyncState → Prop) (log commits : List W)
    (next : Pull D W ⊕ PullResult) : Prop :=
  (∀ pull, next = .inl pull → pull.Holds S log commits) ∧
    ∀ result head, next = .inr result → result.head = some head →
      commits <+: log ∧ head ≤ commits.length

namespace Pull

theorem Holds.outcome {pull : Pull D W} (h : pull.Holds S log commits) :
    PullOutcome S log commits (.inl pull) :=
  ⟨(fun _ heq => by cases heq; exact h), (fun _ _ heq => by cases heq)⟩

theorem outcome_of_result {result : PullResult}
    (h : ∀ head, result.head = some head → commits <+: log ∧ head ≤ commits.length) :
    PullOutcome (D := D) S log commits (.inr result) :=
  ⟨(fun _ heq => by cases heq), (fun _ head heq => by cases heq; exact h head)⟩

theorem close_outcome {copy : Copy W} (hlog : copy.commits <+: log)
    (listing : RemoteListing D) : PullOutcome S log copy.commits (close listing copy) := by
  unfold close
  split_ifs
  · exact outcome_of_result fun _ h => by cases h
  · exact Holds.outcome ⟨hlog, le_rfl⟩

theorem loop_outcome {copy : Copy W} (hlog : copy.commits <+: log) (opened : Bool)
    (listing : RemoteListing D) {bodies : List PullBody} (hwhole : ∀ body ∈ bodies, body.Whole) :
    PullOutcome S log copy.commits (loop opened listing copy bodies) := by
  unfold loop
  have hsuffix := dropWhile_suffix
    (l := bodies) fun body => decide (body.upTo ≤ copy.pullHead opened)
  cases hrest : bodies.dropWhile fun body => body.upTo ≤ copy.pullHead opened with
  | nil =>
    dsimp only
    split_ifs
    · exact close_outcome hlog listing
    · exact Holds.outcome hlog
  | cons body rest =>
    refine Holds.outcome ⟨hlog, fun other hm => hwhole other (hsuffix.subset ?_)⟩
    rw [hrest]
    exact hm

end Pull

variable {chunk : List (OutboxCommit W)}

theorem Store.applyBatch_isPrefix {store store' : Store W}
    (h : store.applyBatch chunk = some store') (hlog : store.commits <+: log)
    (hchunk : ∀ commit ∈ chunk, commit.OfLog log) :
    store'.commits <+: log ∧ store.commits <+: store'.commits := by
  induction chunk generalizing store with
  | nil =>
    cases h
    exact ⟨hlog, prefix_rfl⟩
  | cons commit rest ih =>
    unfold applyBatch at h
    split_ifs at h with hseq
    obtain ⟨i, hi, hwrites⟩ := hchunk commit mem_cons_self
    obtain rfl : i = store.commits.length := Nat.succ.inj (hi.symm.trans hseq)
    obtain ⟨hafter, hgrow⟩ := ih h (prefix_append_singleton hlog hwrites)
      fun other hm => hchunk other (mem_cons_of_mem _ hm)
    exact ⟨hafter, (prefix_append _ _).trans hgrow⟩

theorem commits_openStore (copy : Copy W) : copy.openStore.commits = copy.commits := by
  unfold Copy.openStore Copy.commits
  cases copy.store <;> rfl

theorem Sound.of_isPrefix {state : SyncState} (hlog : commits <+: log)
    (hsynced : List.AgreeUpTo (state.syncedHead.getD LOG_START) commits log) :
    Sound log commits (some state) :=
  ⟨hsynced, fun _ _ _ => hlog⟩

variable {opened : Bool}

theorem Sound.prefix_of_shared (h : Sound log copy.commits state)
    (hclosed : opened = false → copy.commits <+: log)
    (hshared : ¬ sharedHead state (copy.pullHead opened) < copy.pullHead opened) :
    copy.commits <+: log := by
  cases opened with
  | false => exact hclosed rfl
  | true =>
    have hle : copy.commits.length ≤ sharedHead state copy.commits.length := not_lt.mp hshared
    exact agreeUpTo_length_iff.mp (h.shared.of_le hle)

theorem agree_pullHead (hlog : copy.commits <+: log) (opened : Bool) :
    List.AgreeUpTo (copy.pullHead opened) copy.commits log := by
  cases opened with
  | false => exact .zero _ _
  | true => exact .of_isPrefix hlog le_rfl

/-- A step of a pull: it applies commits of the remote's or none, and leaves the sync state or sets
one whose synced head is shared, with a copy that is the remote's. -/
structure Pull.Resumed (S : Option SyncState → Prop) (log : List W) (copy copy' : Copy W)
    (next : Pull D W ⊕ PullResult) : Prop where
  pulled : Pulled log copy.commits copy'.commits
  state : copy'.state = copy.state ∨ ∃ state, copy'.state = some state ∧ copy'.commits <+: log ∧
    List.AgreeUpTo (state.syncedHead.getD LOG_START) copy'.commits log
  outcome : PullOutcome S log copy'.commits next

namespace Pull

variable {size : OutboxCommit W → ℕ} {limit : ℕ} {copy' : Copy W} {next : Pull D W ⊕ PullResult}

theorem Resumed.refl (h : PullOutcome S log copy.commits next) : Resumed S log copy copy next :=
  ⟨.same, .inl rfl, h⟩

theorem Resumed.refused {result : PullResult} (h : result.head = none) :
    Resumed (D := D) S log copy copy (.inr result) :=
  .refl (outcome_of_result fun head hhead => by rw [h] at hhead; cases hhead)

variable {listing : RemoteListing D} {rest : List PullBody} {lines : List (OutboxCommit W)}

theorem resumed_fetching (hkept : remote.Kept)
    (h : (Pull.fetching opened listing body rest : Pull D W).Holds S remote.log copy.commits)
    (hnext : (Pull.fetching opened listing body rest).resume size limit remote copy =
      (copy', next)) :
    Resumed R remote.log copy copy' next := by
  obtain ⟨hlog, hwhole⟩ := h
  simp only [resume] at hnext
  cases hread : body.read remote with
  | none =>
    rw [hread] at hnext
    cases hnext
    exact .refused rfl
  | some lines =>
    rw [hread] at hnext
    cases hnext
    obtain ⟨hlines, harchive⟩ := hkept.read (hwhole body mem_cons_self) hread
    exact .refl (Holds.outcome ⟨hlog, fun other hm => hwhole other (mem_cons_of_mem _ hm), hlines,
      harchive, agree_pullHead hlog opened⟩)

theorem resumed_marking {state : SyncState}
    (h : (Pull.marking opened listing body lines rest state).Holds S remote.log copy.commits)
    (hnext : (Pull.marking opened listing body lines rest state).resume size limit remote copy =
      (copy', next)) : Resumed R remote.log copy copy' next := by
  obtain ⟨hlog, hwhole, hlines, harchive, hsynced⟩ := h
  simp only [resume] at hnext
  split_ifs at hnext with harchived hopened hopened
  · cases hnext
    exact ⟨.same, .inr ⟨state, rfl, hlog, hsynced⟩, outcome_of_result fun _ h => by cases h⟩
  · cases hnext
    exact ⟨.same, .inr ⟨state, rfl, hlog, hsynced⟩,
      Holds.outcome ⟨hlog, hwhole, harchive harchived⟩⟩
  · cases hnext
    exact ⟨.same, .inr ⟨state, rfl, hlog, hsynced⟩, Holds.outcome ⟨hlog, hwhole, hlines⟩⟩
  · cases hnext
    exact ⟨.same, .inr ⟨state, rfl, hlog, hsynced⟩, Holds.outcome ⟨hlog, hwhole, hlines⟩⟩

theorem resumed_importing (h : (Pull.importing listing lines rest).Holds S remote.log copy.commits)
    (hnext : (Pull.importing listing lines rest).resume size limit remote copy = (copy', next)) :
    Resumed R remote.log copy copy' next := by
  obtain ⟨hlog, hwhole, hlines⟩ := h
  simp only [resume] at hnext
  cases hstore : copy.store with
  | some store =>
    rw [hstore] at hnext
    cases hnext
    exact .refused rfl
  | none =>
    rw [hstore] at hnext
    cases hnext
    have hempty : copy.commits = [] := by
      simp [Copy.commits, hstore]
    exact ⟨.applied hlog hlines (hempty ▸ nil_prefix), .inl rfl,
      Holds.outcome ⟨hlines, hwhole, .of_isPrefix hlines le_rfl⟩⟩

theorem resumed_decoding
    (h : (Pull.decoding listing lines chunk rest).Holds S remote.log copy.commits)
    (hnext : (Pull.decoding listing lines chunk rest).resume size limit remote copy =
      (copy', next)) :
    Resumed R remote.log copy copy' next := by
  obtain ⟨hlog, hwhole, hlines⟩ := h
  cases lines with
  | nil =>
    cases chunk with
    | nil =>
      cases hnext
      exact .refl (Holds.outcome ⟨hlog, hwhole, .of_isPrefix hlog le_rfl⟩)
    | cons line chunk =>
      cases hnext
      exact .refl (Holds.outcome ⟨hlog, hwhole, hlines⟩)
  | cons line lines =>
    have hskip : ∀ other ∈ chunk ++ lines, other.OfLog remote.log := by
      intro other hm
      refine hlines other ?_
      simp only [mem_append, mem_cons] at hm ⊢
      exact hm.imp_right .inr
    have htaken : ∀ other ∈ chunk ++ [line] ++ lines, other.OfLog remote.log := by
      rwa [append_assoc, singleton_append]
    simp only [resume] at hnext
    split_ifs at hnext
    · cases hnext
      exact .refl (Holds.outcome ⟨hlog, hwhole, hskip⟩)
    · cases hnext
      exact .refl (Holds.outcome ⟨hlog, hwhole, htaken⟩)
    · cases hnext
      exact .refl (Holds.outcome ⟨hlog, hwhole, htaken⟩)

theorem resumed_applying
    (h : (Pull.applying listing lines chunk rest).Holds S remote.log copy.commits)
    (hnext : (Pull.applying listing lines chunk rest).resume size limit remote copy =
      (copy', next)) :
    Resumed R remote.log copy copy' next := by
  obtain ⟨hlog, hwhole, hlines⟩ := h
  simp only [resume] at hnext
  cases happlied : copy.store.bind fun store => store.applyBatch chunk with
  | none =>
    rw [happlied] at hnext
    cases hnext
    exact .refused rfl
  | some store' =>
    rw [happlied] at hnext
    cases hnext
    obtain ⟨store, hstore, hbatch⟩ := bind_eq_some_iff.mp happlied
    have hcommits : copy.commits = store.commits := by
      simp [Copy.commits, hstore]
    rw [hcommits] at hlog
    obtain ⟨hafter, hgrow⟩ := Store.applyBatch_isPrefix hbatch hlog
      fun commit hm => hlines commit (mem_append_left _ hm)
    have hpulled : Pulled remote.log copy.commits store'.commits := by
      rw [hcommits]
      exact .applied hlog hafter hgrow
    exact ⟨hpulled, .inl rfl, Holds.outcome ⟨hafter, hwhole,
      fun line hm => hlines line (mem_append_right _ (by simpa using hm))⟩⟩

theorem resumed_finishing (hlog : copy.commits <+: remote.log)
    (hnext : (Pull.finishing listing : Pull D W).resume size limit remote copy = (copy', next)) :
    Resumed R remote.log copy copy' next := by
  cases hnext
  have hsame := commits_openStore copy
  have hopened : copy.openStore.commits <+: remote.log := by
    rw [hsame]
    exact hlog
  exact ⟨hsame.symm ▸ .same, .inl rfl, close_outcome hopened listing⟩

theorem holds_resume (hkept : remote.Kept)
    (hreading : ∀ opened listing, pull = .reading opened listing → R copy.state)
    (hplanning : ∀ opened listing state, pull = .planning opened listing state → pull.Holds S
      remote.log copy.commits → ¬ sharedHead state (copy.pullHead opened) < copy.pullHead opened →
      copy.commits <+: remote.log) (h : pull.Holds S remote.log copy.commits)
    (hnext : pull.resume size limit remote copy = (copy', next)) :
    Resumed R remote.log copy copy' next := by
  cases pull with
  | entered opened =>
    cases hnext
    exact .refl (Holds.outcome ⟨h, hkept.listed⟩)
  | reading opened listing =>
    cases hnext
    exact .refl (Holds.outcome ⟨h.1, h.2, hreading opened listing rfl⟩)
  | planning opened listing state =>
    simp only [resume] at hnext
    split_ifs at hnext with hshared
    · cases hnext
      exact .refused rfl
    · cases hnext
      exact .refl (loop_outcome (hplanning opened listing state rfl h hshared) _ _ (h.2.1.bodies _))
  | fetching opened listing body rest => exact resumed_fetching hkept h hnext
  | marking opened listing body lines rest state => exact resumed_marking h hnext
  | importing listing lines rest => exact resumed_importing h hnext
  | opening listing lines rest =>
    cases hnext
    have hsame := commits_openStore copy
    exact ⟨hsame.symm ▸ .same, .inl rfl, hsame.symm ▸ Holds.outcome h⟩
  | decoding listing lines chunk rest => exact resumed_decoding h hnext
  | applying listing lines chunk rest => exact resumed_applying h hnext
  | clearing listing rest state =>
    obtain ⟨hlog, hwhole, hsynced⟩ := h
    cases hnext
    exact ⟨.same, .inr ⟨state, rfl, hlog, hsynced⟩, loop_outcome hlog true listing hwhole⟩
  | finishing listing => exact resumed_finishing h hnext
  | recording head =>
    cases hnext
    exact ⟨.same, .inr ⟨_, rfl, h.1, .of_isPrefix h.1 h.2⟩, Holds.outcome h⟩
  | trimming head =>
    cases hnext
    have hsame := commits_trim head copy
    refine ⟨hsame.symm ▸ .same, .inl rfl, outcome_of_result fun result hresult => ?_⟩
    cases hresult
    exact hsame.symm ▸ h

/-! ### Sound pulls -/

def Knows (log commits : List W) (pull : Pull D W) : Prop :=
  pull.Holds (Sound log commits) log commits

theorem Knows.grow_log (h : pull.Knows log commits) (hlog : log <+: log') :
    pull.Knows log' commits :=
  Holds.grow_log h (fun _ hsound => hsound.grow_log hlog) hlog

theorem Knows.pulled (h : pull.Knows log commits) (hpulled : Pulled log commits commits') :
    pull.Knows log commits' :=
  Holds.pulled h (fun _ hsound => hsound.pulled hpulled) hpulled

theorem knows_resume (hkept : remote.Kept) (hstate : Sound remote.log copy.commits copy.state)
    (hknows : pull.Knows remote.log copy.commits)
    (hnext : pull.resume size limit remote copy = (copy', next)) :
    Pulled remote.log copy.commits copy'.commits ∧
      Sound remote.log copy'.commits copy'.state ∧
      PullOutcome (Sound remote.log copy'.commits) remote.log copy'.commits next := by
  have hreading : ∀ opened listing, pull = .reading opened listing →
      Sound remote.log copy'.commits copy.state := by
    rintro opened listing rfl
    cases hnext
    exact hstate
  obtain ⟨hpulled, hset, houtcome⟩ := holds_resume hkept hreading
    (fun opened listing state heq h hshared => by
      subst heq
      exact h.2.2.prefix_of_shared h.1 hshared) hknows hnext
  refine ⟨hpulled, ?_, houtcome⟩
  obtain hsame | ⟨state, hset, hlog, hsynced⟩ := hset
  · exact hsame ▸ hstate.pulled hpulled
  · exact hset ▸ .of_isPrefix hlog hsynced

end Pull

end KnightCode.Sync
