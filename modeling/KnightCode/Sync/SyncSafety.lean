import KnightCode.Sync.SharedHead

/-!
# Sync safety

Over every run of a session's devices and folds: the remote's slots stay one chain, a copy shares
the head its sync state and head say, and a copy that went its own way gets no commit of the
remote's. The exception is a copy that commits after a pull was refused at an archive, where the
sync state still says `pulling`.
-/

namespace KnightCode.Sync

open Function List

variable {D W : Type} {log log' commits commits' : List W}
variable {remote : Remote D W}

/-! ### Folds -/

def Fold.Knows (log : List W) : Fold D W → Prop
  | .restoring _ scratch pull =>
    Sound log scratch.commits scratch.state ∧ pull.Knows log scratch.commits
  | .exporting _ scratch => scratch.commits <+: log
  | .snapshotting _ upTo body => upTo ≤ log.length ∧ body = outboxRows 0 (log.take upTo)
  | .entered | .folding _ _ => True

theorem Fold.Knows.grow {fold : Fold D W} (h : fold.Knows log) (hlog : log <+: log') :
    fold.Knows log' := by
  cases fold with
  | entered => trivial
  | restoring listing scratch pull => exact ⟨h.1.grow_log hlog, h.2.grow_log hlog⟩
  | exporting listing scratch => exact List.IsPrefix.trans h hlog
  | snapshotting listing upTo body =>
    obtain ⟨hle, hbody⟩ := h
    exact ⟨hle.trans hlog.length_le, by rw [← (List.AgreeUpTo.of_isPrefix hlog hle).take, hbody]⟩
  | folding afters snapshots => trivial

/-- What steps of a fold do to the remote: its log and the slots' identities stay. -/
structure Folded (remote remote' : Remote D W) : Prop where
  kept : remote'.Kept
  log : remote'.log = remote.log
  slots : remote'.slots.map (·.identity) = remote.slots.map (·.identity)

theorem Folded.refl (h : remote.Kept) : Folded remote remote :=
  ⟨h, rfl, rfl⟩

theorem folded_snapshots (h : remote.Kept) (snapshots : List (ℕ × List (OutboxCommit W)))
    (hsnapshots : ∀ seq body, Assoc.get seq snapshots = some body →
      seq ≤ remote.log.length ∧ body = outboxRows 0 (remote.log.take seq)) :
    Folded remote { remote with snapshots := snapshots } :=
  ⟨{ h with snapshots := hsnapshots }, rfl, rfl⟩

theorem folded_foldBatch (h : remote.Kept) (after : ℕ) :
    Folded remote (remote.foldBatch after) := by
  have hchange : ∀ slot : Slot D W,
      (if slot.after = after then { slot with folded := true } else slot).identity =
        slot.identity ∧
      (if slot.after = after then { slot with folded := true } else slot).body = slot.body := by
    intro slot
    split_ifs <;> exact ⟨rfl, rfl⟩
  obtain ⟨hkept, hlog⟩ :
      (remote.foldBatch after).Kept ∧ (remote.foldBatch after).log = remote.log :=
    h.of_slots _ rfl hchange h.snapshots
  refine ⟨hkept, hlog, ?_⟩
  simp [Remote.foldBatch, hchange]

variable {next : Option (Fold D W)}

theorem Fold.knows_resume {size : OutboxCommit W → ℕ} {limit : ℕ} {remote' : Remote D W}
    {fold : Fold D W} (hkept : remote.Kept) (hknows : fold.Knows remote.log)
    (hnext : fold.resume size limit remote = (remote', next)) :
    Folded remote remote' ∧ ∀ fold, next = some fold → fold.Knows remote.log := by
  cases fold with
  | entered =>
    simp only [resume] at hnext
    split_ifs at hnext
    · cases hnext
      exact ⟨.refl hkept, fun _ h => by cases h⟩
    · cases hnext
      refine ⟨.refl hkept, fun fold h => ?_⟩
      cases h
      exact ⟨.none _ _, fun _ => nil_prefix⟩
  | restoring listing scratch pull =>
    simp only [resume] at hnext
    cases hpull : pull.resume size limit remote scratch with
    | mk scratch' next' =>
      rw [hpull] at hnext
      obtain ⟨-, hsound, houtcome⟩ := Pull.knows_resume hkept hknows.1 hknows.2 hpull
      cases next' with
      | inl pull' =>
        cases hnext
        refine ⟨.refl hkept, fun fold h => ?_⟩
        cases h
        exact ⟨hsound, houtcome.1 pull' rfl⟩
      | inr result =>
        cases result with
        | resolved head =>
          cases hnext
          refine ⟨.refl hkept, fun fold h => ?_⟩
          cases h
          exact (houtcome.2 _ head rfl rfl).1
        | unsyncedCommits | historyUnavailable | refused =>
          cases hnext
          exact ⟨.refl hkept, fun _ h => by cases h⟩
  | exporting listing scratch =>
    cases hnext
    refine ⟨.refl hkept, fun fold h => ?_⟩
    cases h
    have hlog : scratch.commits <+: remote.log := hknows
    refine ⟨hlog.length_le, ?_⟩
    have hagree := (List.AgreeUpTo.of_isPrefix hlog le_rfl).take
    rw [take_length] at hagree
    rw [Copy.head, ← hagree]
  | snapshotting listing upTo body =>
    cases hnext
    refine ⟨folded_snapshots hkept _ fun seq other hget => ?_, fun fold h => ?_⟩
    · rw [Assoc.get_set] at hget
      split_ifs at hget with hseq
      · cases hget
        exact hseq ▸ hknows
      · exact hkept.snapshots seq other hget
    · cases h
      trivial
  | folding afters snapshots =>
    cases afters with
    | cons after afters =>
      cases hnext
      refine ⟨folded_foldBatch hkept after, fun fold h => ?_⟩
      cases h
      trivial
    | nil =>
      cases snapshots with
      | nil =>
        cases hnext
        exact ⟨.refl hkept, fun _ h => by cases h⟩
      | cons seq snapshots =>
        cases hnext
        refine ⟨folded_snapshots hkept _ fun other body hget => ?_, fun fold h => ?_⟩
        · rw [Assoc.get_erase] at hget
          split_ifs at hget
          exact hkept.snapshots other body hget
        · cases h
          trivial

/-! ### Devices -/

theorem of_update_none {α β : Type} [DecidableEq α] {f : α → Option β} {k k' : α} {v : β}
    (h : update f k none k' = some v) : f k' = some v := by
  simp only [update_apply] at h
  split_ifs at h
  exact h

structure Peer.Inv (log : List W) (device : D) (peer : Peer D W) : Prop where
  state : Sound log peer.copy.commits peer.copy.state
  uploads : ∀ call upload, peer.uploads call = some upload →
    upload.Knows log peer.copy.commits device
  pulls : ∀ call pull, peer.pulls call = some pull → pull.Knows log peer.copy.commits
  reported : ∀ head ∈ peer.reported, List.AgreeUpTo head peer.copy.commits log

/-- Some sync state in use says `pulling`. -/
def Peer.Pulling (peer : Peer D W) (pulling : ℕ) : Prop :=
  pullingOf peer.copy.state = some pulling ∨
    ∃ call state, peer.uploads call = some (.starting state) ∧ pullingOf state = some pulling

namespace Peer

variable {device : D} {peer : Peer D W}
variable {copy : Copy W}

theorem Inv.new (store : Option (Store W)) : (Peer.new store : Peer D W).Inv [] device where
  state := .none _ _
  uploads := fun _ _ h => by cases h
  pulls := fun _ _ h => by cases h
  reported := fun _ h => absurd h not_mem_nil

theorem Inv.grow_log (h : peer.Inv log device) (hlog : log <+: log') : peer.Inv log' device where
  state := h.state.grow_log hlog
  uploads := fun call upload hcall => (h.uploads call upload hcall).grow
    (fun _ _ hsound => hsound.grow_log hlog) prefix_rfl hlog
  pulls := fun call pull hcall => (h.pulls call pull hcall).grow_log hlog
  reported := fun head hm => (h.reported head hm).grow prefix_rfl hlog

theorem Inv.pulled (h : peer.Inv log device) (hpulled : Pulled log peer.copy.commits copy.commits)
    (hstate : Sound log copy.commits copy.state) :
    ({ peer with copy := copy } : Peer D W).Inv log device where
  state := hstate
  uploads := fun call upload hcall => (h.uploads call upload hcall).grow
    (fun _ _ hsound => hsound.pulled hpulled) hpulled.grow prefix_rfl
  pulls := fun call pull hcall => (h.pulls call pull hcall).pulled hpulled
  reported := fun head hm => (h.reported head hm).grow hpulled.grow prefix_rfl

theorem Inv.pullAt (h : peer.Inv log device) (hpulled : Pulled log peer.copy.commits copy.commits)
    (hstate : Sound log copy.commits copy.state) {next : Pull D W ⊕ PullResult}
    (hnext : PullOutcome (Sound log copy.commits) log copy.commits next) (call : ℕ) :
    (peer.pullAt call copy next).Inv log device := by
  have hpeer := h.pulled hpulled hstate
  refine ⟨hpeer.state, hpeer.uploads, fun other pull hother => ?_, fun head hm => ?_⟩
  · simp only [Peer.pullAt, update_apply] at hother
    split_ifs at hother
    · cases next with
      | inl next =>
        cases hother
        exact hnext.1 _ rfl
      | inr result => cases hother
    · exact hpeer.pulls other pull hother
  · obtain hm | hm := mem_append.mp hm
    · cases next with
      | inl next => exact absurd hm not_mem_nil
      | inr result =>
        obtain ⟨hlog, hle⟩ := hnext.2 result head rfl (by simpa using hm)
        exact .of_isPrefix hlog hle
    · exact hpeer.reported head hm

theorem Inv.uploadAt (h : peer.Inv log device) (hcommits : copy.commits = peer.copy.commits)
    (hstate : Sound log copy.commits copy.state) {next : Upload D ⊕ UploadResult}
    (hnext : UploadOutcome (Sound log copy.commits)
      (fun seq => List.AgreeUpTo seq copy.commits log) log copy.commits device next) (call : ℕ) :
    (peer.uploadAt call copy next).Inv log device := by
  have hpeer : ({ peer with copy := copy } : Peer D W).Inv log device :=
    h.pulled (hcommits ▸ .same) hstate
  refine ⟨hpeer.state, fun other upload hother => ?_, hpeer.pulls, fun head hm => ?_⟩
  · simp only [Peer.uploadAt, update_apply] at hother
    split_ifs at hother
    · cases next with
      | inl next =>
        cases hother
        exact hnext.1 _ rfl
      | inr result => cases hother
    · exact hpeer.uploads other upload hother
  · obtain hm | hm := mem_append.mp hm
    · cases next with
      | inl next => exact absurd hm not_mem_nil
      | inr result =>
        exact hnext.shares result head rfl (UploadResult.shares_of_head (by simpa using hm))
    · exact hpeer.reported head hm

theorem Inv.stop (h : peer.Inv log device) {peer' : Peer D W} (hcopy : peer'.copy = peer.copy)
    (hreported : peer'.reported = peer.reported)
    (huploads : ∀ call upload, peer'.uploads call = some upload → peer.uploads call = some upload)
    (hpulls : ∀ call pull, peer'.pulls call = some pull → peer.pulls call = some pull) :
    peer'.Inv log device where
  state := hcopy ▸ h.state
  uploads := fun call upload hcall => hcopy ▸ h.uploads call upload (huploads call upload hcall)
  pulls := fun call pull hcall => hcopy ▸ h.pulls call pull (hpulls call pull hcall)
  reported := hcopy ▸ hreported ▸ h.reported

theorem Inv.commit (h : peer.Inv log device) {store : Store W}
    (hstore : peer.copy.store = some store) (hpulls : ∀ call, peer.pulls call = none)
    (hmeets : ∀ pulling, peer.Pulling pulling → pulling ≤ peer.copy.head) (writes : W) :
    ({ peer with copy := ⟨some (store.commit writes), peer.copy.state⟩ } : Peer D W).Inv log
      device := by
  have hcommits : peer.copy.commits = store.commits := by
    simp [Copy.commits, hstore]
  have hgrow : peer.copy.commits <+: store.commits ++ [writes] :=
    hcommits ▸ prefix_append _ _
  constructor
  · show Sound log (store.commits ++ [writes]) peer.copy.state
    rw [← hcommits]
    exact h.state.commit writes fun pulling hpulling => hmeets pulling (.inl hpulling)
  · intro call upload hcall
    show upload.Knows log (store.commits ++ [writes]) device
    refine (h.uploads call upload hcall).grow (fun state hstarting hsound => ?_) hgrow
      prefix_rfl
    rw [← hcommits]
    exact hsound.commit writes fun pulling hpulling =>
      hmeets pulling (.inr ⟨call, state, hstarting ▸ hcall, hpulling⟩)
  · intro call pull hcall
    rw [hpulls call] at hcall
    cases hcall
  · exact fun head hm => (h.reported head hm).grow hgrow prefix_rfl

end Peer

/-! ### Sessions -/

structure Session.Inv (s : Session D W) : Prop where
  remote : s.remote.Kept
  owners : ∀ slot ∈ s.remote.slots,
    List.AgreeUpTo slot.upTo (s.peers slot.device).copy.commits s.remote.log
  peers : ∀ device, (s.peers device).Inv s.remote.log device
  folds : ∀ call fold, s.folds call = some fold → fold.Knows s.remote.log

/-- A local commit finds no sync state in use that says `pulling` past the copy's head. -/
def Session.Meets (s : Session D W) : Act D W → Prop
  | .commit device _ =>
    ∀ pulling, (s.peers device).Pulling pulling → pulling ≤ (s.peers device).copy.head
  | _ => True

/-- What one step does: the log grows, slots keep what they are, a copy gets commits of its own or
the next ones of the log, and a slot is created only from a copy whose commits the log is. -/
structure Session.Moves (s : Session D W) (act : Act D W) (t : Session D W) : Prop where
  log : s.remote.log <+: t.remote.log
  slots : s.remote.slots.map (·.identity) <+: t.remote.slots.map (·.identity)
  commits : ∀ device,
    Pulled s.remote.log (s.peers device).copy.commits (t.peers device).copy.commits ∨
    ∃ writes, act = .commit device writes ∧
      (t.peers device).copy.commits = (s.peers device).copy.commits ++ [writes]
  created : ∀ slot ∈ t.remote.slots, slot.identity ∈ s.remote.slots.map (·.identity) ∨
    t.remote.log <+: (s.peers slot.device).copy.commits

namespace Session

variable {s : Session D W}
variable {device : D} {peer : Peer D W} {act : Act D W} {size : OutboxCommit W → ℕ} {limit : ℕ}
  {t : Session D W} {call : Option (Upload Bool)} {pull : Option (Pull Bool ℕ)}

variable {remote : Remote D W}

theorem Inv.upload_folds (h : s.Inv) (hlog : s.remote.log <+: remote.log) :
    ∀ call fold, s.folds call = some fold → fold.Knows remote.log :=
  fun call fold hcall => (h.folds call fold hcall).grow hlog

theorem Inv.owned (h : s.Inv) (device : D) : ∀ slot ∈ s.remote.slots, slot.device = device →
    List.AgreeUpTo slot.upTo (s.peers device).copy.commits s.remote.log := by
  rintro slot hm rfl
  exact h.owners slot hm

variable [DecidableEq D]

theorem commits_setPeer (hgrow : (s.peers device).copy.commits <+: peer.copy.commits) (other : D) :
    (s.peers other).copy.commits <+: ((s.setPeer device peer).peers other).copy.commits := by
  simp only [setPeer, update_apply]
  split_ifs with hdevice
  · exact hdevice ▸ hgrow
  · exact prefix_rfl

theorem Inv.setPeer (h : s.Inv) (hpeer : peer.Inv s.remote.log device)
    (hgrow : (s.peers device).copy.commits <+: peer.copy.commits) :
    (s.setPeer device peer).Inv := by
  refine ⟨h.remote, fun slot hm => ?_, fun other => ?_, h.folds⟩
  · exact (h.owners slot hm).grow (commits_setPeer hgrow _) prefix_rfl
  · simp only [Session.setPeer, update_apply]
    split_ifs with hdevice
    · exact hdevice ▸ hpeer
    · exact h.peers other

theorem moves_setPeer
    (hcommits : Pulled s.remote.log (s.peers device).copy.commits peer.copy.commits ∨ ∃ writes, act
      = .commit device writes ∧ peer.copy.commits = (s.peers device).copy.commits ++ [writes]) :
    s.Moves act (s.setPeer device peer) := by
  refine ⟨prefix_rfl, prefix_rfl, fun other => ?_, fun slot hm => .inl (mem_map_of_mem hm)⟩
  simp only [setPeer, update_apply]
  split_ifs with hdevice
  · exact hdevice ▸ hcommits
  · exact .inl .same

theorem Inv.upload (h : s.Inv) {call : ℕ} {choice : UploadChoice} {upload : Upload D}
    {copy : Copy W} {next : Upload D ⊕ UploadResult}
    (hcall : (s.peers device).uploads call = some upload)
    (hnext : upload.resume device choice s.remote (s.peers device).copy = (remote, copy, next))
    (act : Act D W) :
    Inv { s.setPeer device ((s.peers device).uploadAt call copy next) with remote := remote } ∧
      s.Moves act
        { s.setPeer device ((s.peers device).uploadAt call copy next) with remote := remote } := by
  obtain ⟨huploaded, hcommits, hstate, houtcome⟩ := Upload.knows_resume h.remote (h.owned device)
    (h.peers device).state ((h.peers device).uploads call upload hcall) hnext
  obtain ⟨hkept, hslots, hcreated⟩ := huploaded.slots h.remote
  have hlog := huploaded.grow
  have hsame : ∀ other, ((s.setPeer device
      ((s.peers device).uploadAt call copy next)).peers other).copy.commits =
      (s.peers other).copy.commits := by
    intro other
    simp only [Session.setPeer, update_apply]
    split_ifs with hdevice
    · exact hdevice ▸ hcommits
    · rfl
  refine ⟨⟨hkept, fun slot hm => ?_, fun other => ?_, h.upload_folds hlog⟩,
    ⟨hlog, hslots.map _, fun other => .inl ?_, fun slot hm => ?_⟩⟩
  · show List.AgreeUpTo slot.upTo ((s.setPeer device _).peers slot.device).copy.commits _
    rw [hsame]
    obtain hm | ⟨hdevice, hprefix, hupTo⟩ := hcreated slot hm
    · exact (h.owners slot hm).grow prefix_rfl hlog
    · rw [hdevice, hupTo]
      exact (List.AgreeUpTo.of_isPrefix hprefix le_rfl).symm
  · show ((s.setPeer device _).peers other).Inv remote.log other
    simp only [Session.setPeer, update_apply]
    split_ifs with hdevice
    · subst hdevice
      rw [← hcommits] at hstate houtcome
      exact ((h.peers other).grow_log hlog).uploadAt hcommits hstate houtcome call
    · exact (h.peers other).grow_log hlog
  · show Pulled s.remote.log _ ((s.setPeer device _).peers other).copy.commits
    rw [hsame]
    exact .same
  · obtain hm | ⟨hdevice, hprefix, -⟩ := hcreated slot hm
    · exact .inl (mem_map_of_mem hm)
    · exact .inr (hdevice ▸ hprefix)

omit [DecidableEq D] in
theorem Inv.fold (h : s.Inv) {call : ℕ} {fold : Fold D W} (hcall : s.folds call = some fold)
    (hnext : fold.resume size limit s.remote = (remote, next)) (act : Act D W) :
    Inv { s with remote := remote, folds := update s.folds call next } ∧
      s.Moves act { s with remote := remote, folds := update s.folds call next } := by
  obtain ⟨⟨hkept, hlog, hslots⟩, hknows⟩ :=
    Fold.knows_resume h.remote (h.folds call fold hcall) hnext
  have hidentity : ∀ slot ∈ remote.slots, ∃ old ∈ s.remote.slots,
      old.identity = slot.identity := by
    intro slot hm
    have hm' : slot.identity ∈ s.remote.slots.map (·.identity) :=
      hslots ▸ mem_map_of_mem hm
    exact mem_map.mp hm'
  refine ⟨⟨hkept, fun slot hm => ?_, fun device => ?_, fun other fold hother => ?_⟩,
    ⟨hlog ▸ prefix_rfl, hslots ▸ prefix_rfl, fun _ => .inl .same, fun slot hm => ?_⟩⟩
  · obtain ⟨old, hold, hsame⟩ := hidentity slot hm
    simp only [BatchInfo.identity, Prod.mk.injEq] at hsame
    show List.AgreeUpTo slot.upTo (s.peers slot.device).copy.commits remote.log
    rw [hlog, ← hsame.2.1, ← hsame.2.2.1]
    exact h.owners old hold
  · show (s.peers device).Inv remote.log device
    rw [hlog]
    exact h.peers device
  · show fold.Knows remote.log
    rw [hlog]
    simp only [update_apply] at hother
    split_ifs at hother
    · exact hknows fold hother
    · exact h.folds other fold hother
  · obtain ⟨old, hold, hsame⟩ := hidentity slot hm
    exact .inl (hsame ▸ mem_map_of_mem hold)

omit [DecidableEq D] in
theorem Inv.withFolds (h : s.Inv) {folds : ℕ → Option (Fold D W)}
    (hfolds : ∀ call fold, folds call = some fold → fold.Knows s.remote.log) (act : Act D W) :
    Inv { s with folds := folds } ∧ s.Moves act { s with folds := folds } :=
  ⟨⟨h.remote, h.owners, h.peers, hfolds⟩, prefix_rfl, prefix_rfl, fun _ => .inl .same,
    fun _ hm => .inl (mem_map_of_mem hm)⟩

theorem inv_step (h : s.Inv) (hmeets : s.Meets act) (hstep : Step size limit s act t) :
    t.Inv ∧ s.Moves act t := by
  cases hstep with
  | commit device writes store hstore hpulls hstopped =>
    have hcommits : (s.peers device).copy.commits = store.commits := by
      simp [Copy.commits, hstore]
    have happend : store.commits ++ [writes] = (s.peers device).copy.commits ++ [writes] := by
      rw [hcommits]
    exact ⟨h.setPeer ((h.peers device).commit hstore hpulls hmeets writes)
      (hcommits ▸ prefix_append _ _), moves_setPeer (.inr ⟨writes, rfl, happend⟩)⟩
  | openStore device =>
    have hpulled : Pulled s.remote.log (s.peers device).copy.commits
        (s.peers device).copy.openStore.commits := commits_openStore (s.peers device).copy ▸ .same
    exact ⟨h.setPeer ((h.peers device).pulled hpulled ((h.peers device).state.pulled hpulled))
      hpulled.grow, moves_setPeer (.inl hpulled)⟩
  | upload device call hstore hfree =>
    have hknows : (Upload.reading : Upload D).Knows s.remote.log (s.peers device).copy.commits
        device := trivial
    exact ⟨h.setPeer ((h.peers device).uploadAt rfl (h.peers device).state hknows.outcome call)
      prefix_rfl, moves_setPeer (.inl .same)⟩
  | uploadNext device call choice upload remote copy next hcall hnext =>
    exact h.upload hcall hnext _
  | uploadStop device call =>
    exact ⟨h.setPeer ((h.peers device).stop rfl rfl (fun _ _ => of_update_none)
      (fun _ _ => id)) prefix_rfl, moves_setPeer (.inl .same)⟩
  | pull device call hfree =>
    have hknows : (Pull.entered (s.peers device).copy.store.isSome : Pull D W).Knows s.remote.log
        (s.peers device).copy.commits := by
      intro hopened
      have hstore : (s.peers device).copy.store = none := by simpa using hopened
      simp [Copy.commits, hstore]
    exact ⟨h.setPeer ((h.peers device).pullAt .same (h.peers device).state hknows.outcome call)
      prefix_rfl, moves_setPeer (.inl .same)⟩
  | pullNext device call pull copy next hcall hnext =>
    obtain ⟨hpulled, hstate, houtcome⟩ := Pull.knows_resume h.remote (h.peers device).state
      ((h.peers device).pulls call pull hcall) hnext
    exact ⟨h.setPeer ((h.peers device).pullAt hpulled hstate houtcome call) hpulled.grow,
      moves_setPeer (.inl hpulled)⟩
  | pullStop device call hcall =>
    exact ⟨h.setPeer ((h.peers device).stop rfl rfl (fun _ _ => id)
      (fun _ _ => of_update_none)) prefix_rfl, moves_setPeer (.inl .same)⟩
  | fold call hfree =>
    refine h.withFolds (fun other fold hother => ?_) _
    simp only [update_apply] at hother
    split_ifs at hother
    · cases hother
      trivial
    · exact h.folds other fold hother
  | foldNext call fold remote next hcall hnext => exact h.fold hcall hnext _
  | foldStop call => exact h.withFolds (fun other fold hother =>
    h.folds other fold (of_update_none hother)) _

/-! ### The result -/

/-- The remote's slots are one gap-free chain that holds its commits, every copy shares the head
its sync state and head say, and copies that reported heads agree up to the smaller one. -/
structure Safe (s : Session D W) : Prop where
  chain : GapFree LOG_START s.remote.list.batches
  bodies : ∀ slot ∈ s.remote.slots,
    slot.body = outboxRows slot.after (segment s.remote.log slot.after slot.upTo)
  shared : ∀ device, List.AgreeUpTo
    (sharedHead (s.peers device).copy.state (s.peers device).copy.head)
    (s.peers device).copy.commits s.remote.log
  reported : ∀ device other, ∀ head ∈ (s.peers device).reported,
    ∀ head' ∈ (s.peers other).reported, List.AgreeUpTo (head ⊓ head')
      (s.peers device).copy.commits (s.peers other).copy.commits

/-- Neither history continues the other. -/
def Diverged (log commits : List W) : Prop :=
  ¬ commits <+: log ∧ ¬ log <+: commits

/-- Slots keep what they are. A copy that diverged stays so, gets only commits of its own and
creates no slot; any copy that gets others' commits had the first `n` of the log and then has the
first `n'`. -/
structure Continues (s : Session D W) (act : Act D W) (t : Session D W) : Prop where
  slots : s.remote.slots.map (·.identity) <+: t.remote.slots.map (·.identity)
  diverged : ∀ device, Diverged s.remote.log (s.peers device).copy.commits →
    Diverged t.remote.log (t.peers device).copy.commits ∧
    ((t.peers device).copy.commits = (s.peers device).copy.commits ∨ ∃ writes, act = .commit device
      writes ∧ (t.peers device).copy.commits = (s.peers device).copy.commits ++ [writes]) ∧
    ∀ slot ∈ t.remote.slots, slot.device = device →
      slot.identity ∈ s.remote.slots.map (·.identity)
  pulled : ∀ device, (∀ writes, act ≠ .commit device writes) →
    (t.peers device).copy.commits = (s.peers device).copy.commits ∨
    ∃ n n', n ≤ n' ∧ n' ≤ s.remote.log.length ∧
      (s.peers device).copy.commits = s.remote.log.take n ∧
      (t.peers device).copy.commits = s.remote.log.take n'

omit [DecidableEq D] in
theorem Inv.safe (h : s.Inv) : s.Safe where
  chain := h.remote.chain
  bodies := fun slot hm => (h.remote.bodies slot hm).2
  shared := fun device => (h.peers device).state.shared
  reported := fun device other head hm head' hm' =>
    ((h.peers device).reported head hm).min ((h.peers other).reported head' hm')

omit [DecidableEq D] in
theorem Moves.continues (h : s.Moves act t) : s.Continues act t := by
  refine ⟨h.slots, fun device hdiverged => ?_, fun device hact => ?_⟩
  · have hown : (t.peers device).copy.commits = (s.peers device).copy.commits ∨
        ∃ writes, act = .commit device writes ∧
          (t.peers device).copy.commits = (s.peers device).copy.commits ++ [writes] := by
      obtain hpulled | hown := h.commits device
      · exact .inl (hpulled.same_or.resolve_right fun happlied => hdiverged.1 happlied.1)
      · exact .inr hown
    have hgrow : (s.peers device).copy.commits <+: (t.peers device).copy.commits := by
      obtain hsame | ⟨writes, -, happend⟩ := hown
      · exact hsame ▸ prefix_rfl
      · exact happend ▸ prefix_append _ _
    refine ⟨⟨fun hcommits => ?_, fun hlog => ?_⟩, hown, fun slot hm hdevice => ?_⟩
    · obtain hor | hor := prefix_or_prefix_of_prefix (hgrow.trans hcommits) h.log
      · exact hdiverged.1 hor
      · exact hdiverged.2 hor
    · obtain hor | hor := prefix_or_prefix_of_prefix hgrow (h.log.trans hlog)
      · exact hdiverged.1 hor
      · exact hdiverged.2 hor
    · obtain hold | hlog := h.created slot hm
      · exact hold
      · exact absurd (h.log.trans (hdevice ▸ hlog)) hdiverged.2
  · obtain hpulled | ⟨writes, hcommit, -⟩ := h.commits device
    · obtain hsame | ⟨hbefore, hafter, hgrow⟩ := hpulled.same_or
      · exact .inl hsame
      · exact .inr ⟨_, _, hgrow.length_le, hafter.length_le,
          prefix_iff_eq_take.mp hbefore, prefix_iff_eq_take.mp hafter⟩
    · exact absurd hcommit (hact writes)

omit [DecidableEq D] in
theorem inv_init (stores : D → Option (Store W)) :
    (⟨.empty, fun device => .new (stores device), fun _ => none⟩ : Session D W).Inv where
  remote := .empty
  owners := fun _ hm => absurd hm not_mem_nil
  peers := fun device => .new (stores device)
  folds := fun _ _ h => by cases h

theorem inv_of_reachable (h : (system size limit).ReachableBy Meets s) : s.Inv := by
  refine h.invariant ?_ fun s act t hinv hmeets hstep => (inv_step hinv hmeets hstep).1
  rintro s ⟨stores, rfl⟩
  exact inv_init stores

/-- A commit under a `pulling` past the head is the remote's own by chance, or the copy no longer
shares what its sync state says. -/
theorem commit_of_safe {writes : W} {pulling : ℕ}
    (hstep : Step size limit s (.commit device writes) t)
    (hpulling : pullingOf (s.peers device).copy.state = some pulling)
    (hlt : (s.peers device).copy.head < pulling) (hsafe : t.Safe) :
    s.remote.log[(s.peers device).copy.head]? = some writes := by
  cases hstep with
  | commit device writes store hstore hpulls hstopped =>
    have hcommits : (s.peers device).copy.commits = store.commits := by
      simp [Copy.commits, hstore]
    have hhead : (s.peers device).copy.head = store.commits.length := by
      rw [Copy.head, hcommits]
    obtain ⟨state, hstate, hstatePulling⟩ := Option.bind_eq_some_iff.mp hpulling
    have hshared := hsafe.shared device
    have hlength : (store.commits ++ [writes]).length ≤ pulling := by
      rw [length_append, length_singleton]
      omega
    simp only [setPeer, update_self, hstate] at hshared
    have hall : sharedHead (some state) (store.commits ++ [writes]).length =
        (store.commits ++ [writes]).length := by
      simp only [sharedHead, hstatePulling, if_pos hlength]
    have hagree : List.AgreeUpTo (store.commits ++ [writes]).length (store.commits ++ [writes])
        s.remote.log := hall ▸ hshared
    rw [hhead]
    refine getElem?_of_prefix (agreeUpTo_length_iff.mp hagree) ?_
    simp

/-- In every run whose commits meet the condition every state is safe and every step continues
the session; and a commit that does not meet it breaks the shared head, unless it is by chance the
remote's commit of that sequence. -/
theorem session_sync (size : OutboxCommit W → ℕ) (limit : ℕ) :
    (∀ s t : Session D W, (system size limit).ReachableBy Meets s → (system size limit).Steps Meets
      s t → t.Safe ∧ s.remote.slots.map (·.identity) <+: t.remote.slots.map (·.identity)) ∧
    (∀ (s : Session D W) (act : Act D W) (t : Session D W), (system size limit).ReachableBy Meets s
      → s.Meets act → Step size limit s act t → s.Continues act t) ∧
    (∀ (s : Session D W) (device : D) (writes : W) (t : Session D W) (pulling : ℕ),
      (system size limit).ReachableBy Meets s → Step size limit s (.commit device writes) t →
      pullingOf (s.peers device).copy.state = some pulling →
      (s.peers device).copy.head < pulling → t.Safe →
      s.remote.log[(s.peers device).copy.head]? = some writes) := by
  refine ⟨fun s t hreach hsteps => ⟨(inv_of_reachable (hreach.steps hsteps)).safe, ?_⟩, fun s act t
    hreach hmeets hstep => (inv_step (inv_of_reachable hreach) hmeets hstep).2.continues, fun s
    device writes t pulling _ hstep hpulling hlt hsafe => commit_of_safe hstep hpulling hlt hsafe⟩
  refine hsteps.relation (I := Inv)
    (R := fun s t => s.remote.slots.map (·.identity) <+: t.remote.slots.map (·.identity))
    (fun _ => prefix_rfl) (fun _ _ _ => List.IsPrefix.trans) ?_ (inv_of_reachable hreach)
  intro s act t hinv hmeets hstep
  obtain ⟨hinv', hmoves⟩ := inv_step hinv hmeets hstep
  exact ⟨hinv', hmoves.slots⟩

/-! ### A commit after a refused pull -/

/-- An archive is uploaded from an outbox that was turned on late; the pull of another device's
empty store is refused at it and leaves `pulling` in the sync state. -/
theorem reachable_refused : ∃ s : Session Bool ℕ,
    (system (fun _ => 1) 1).ReachableBy Meets s ∧ s.remote.log = [1] ∧
      (s.peers false).copy = ⟨some .empty, some ⟨some 0, some 1⟩⟩ ∧
      (∀ call, (s.peers false).pulls call = none) ∧ (s.peers false).stopped = false := by
  have hstart : (system (fun _ => 1) 1).ReachableBy Meets (⟨.empty, fun device => .new
      (some (if device then ⟨[1], 1, le_rfl⟩ else .empty)), fun _ => none⟩ : Session Bool ℕ) :=
    ⟨_, ⟨_, rfl⟩, .refl _⟩
  have hupload := hstart.steps (.single (.upload _ true 0 rfl rfl) trivial)
  have hread := hupload.steps (.single (.uploadNext _ true 0 ⟨0, false⟩ _ _ _ _ rfl rfl) trivial)
  have hasked := hread.steps (.single (.uploadNext _ true 0 ⟨0, false⟩ _ _ _ _ rfl rfl) trivial)
  have hsent := hasked.steps (.single (.uploadNext _ true 0 ⟨0, false⟩ _ _ _ _ rfl rfl) trivial)
  have hanswer := hsent.steps (.single (.uploadNext _ true 0 ⟨0, false⟩ _ _ _ _ rfl rfl) trivial)
  have hpull := hanswer.steps (.single (.pull _ false 0 rfl) trivial)
  have hhead := hpull.steps (.single (.pullNext _ false 0 _ _ _ rfl rfl) trivial)
  have hstate := hhead.steps (.single (.pullNext _ false 0 _ _ _ rfl rfl) trivial)
  have hmarked := hstate.steps (.single (.pullNext _ false 0 _ _ _ rfl rfl) trivial)
  have hpage := hmarked.steps (.single (.pullNext _ false 0 _ _ _ rfl rfl) trivial)
  have hrefused := hpage.steps (.single (.pullNext _ false 0 _ _ _ rfl rfl) trivial)
  refine ⟨_, hrefused, rfl, rfl, fun call => ?_, rfl⟩
  cases call <;> rfl

/-- The copy whose pull was refused commits, and does not share what its sync state says. -/
theorem commit_after_refusal :
    ∃ t : Session Bool ℕ, (system (fun _ => 1) 1).Reachable t ∧ ¬ t.Safe := by
  obtain ⟨s, ⟨s₀, hinit, hsteps⟩, hlog, hcopy, hpulls, hstopped⟩ := reachable_refused
  have hstep : Step (fun _ => 1) 1 s (.commit false 2) _ :=
    Step.commit s false 2 .empty (by rw [hcopy]) hpulls hstopped
  refine ⟨_, ⟨s₀, hinit, (hsteps.mono fun _ _ _ => trivial).tail hstep trivial⟩, fun hsafe => ?_⟩
  have hchance := commit_of_safe hstep (by rw [hcopy]; rfl) (by rw [hcopy]; exact Nat.zero_lt_one)
    hsafe
  rw [hcopy, hlog] at hchance
  cases hchance

/-- The result at the states before the refused copy commits. -/
theorem session_sync_refused : ∃ s : Session Bool ℕ,
    s.Safe ∧ s.Continues (.openStore true)
      (s.setPeer true { s.peers true with copy := (s.peers true).copy.openStore }) ∧
      ∀ t, Step (fun _ => 1) 1 s (.commit false 2) t → ¬ t.Safe := by
  obtain ⟨s, hreach, hlog, hcopy, -, -⟩ := reachable_refused
  refine ⟨s, ((session_sync (fun _ => 1) 1).1 s s hreach (.refl s)).1, (session_sync (fun _ => 1)
    1).2.1 s _ _ hreach trivial (Step.openStore s true), fun t hstep hsafe => ?_⟩
  have hchance := (session_sync (fun _ => 1) 1).2.2 s false 2 t 1 hreach hstep
    (by rw [hcopy]; rfl) (by rw [hcopy]; exact Nat.zero_lt_one) hsafe
  rw [hcopy, hlog] at hchance
  cases hchance

end Session

end KnightCode.Sync
