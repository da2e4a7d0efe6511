import KnightCode.Files.MutationQueue

/-!
# Runs of file mutations

A lookup that finds the file gives the real path of the place that the path names, so that calls
for one place have one key. Where the file is missing, the path itself is the key, which is that
real path only for a path without links. In a run in which every lookup of a missing file is for
such a path, the operations on one place run one at a time and in the order of the calls, no call
waits for one that has failed, and no key is left when all calls have ended.
-/

namespace KnightCode.Files

open Function List Option Except

variable {Φ π : Type*}

/-! ### One call's phase -/

variable {s : State Φ π} {i : ℕ} {phase phase₀ : Phase π} {c : Call π}

theorem State.phase_of_call (h : s.calls[i]? = some c) : s.phase i = some c.phase := by
  rw [State.phase, h, map_some]

theorem State.exists_call (h : s.phase i = some phase) :
    ∃ c, s.calls[i]? = some c ∧ c.phase = phase :=
  map_eq_some_iff.mp h

theorem State.set_call (s : State Φ π) (i j : ℕ) (phase : Phase π) : (s.set i phase).calls[j]? =
    (s.calls[j]?).map fun c => if i = j then { c with phase } else c := by
  rw [State.set]
  dsimp only
  rw [getElem?_modify]
  cases s.calls[j]? with
  | none => rfl
  | some c => split_ifs <;> rfl

theorem State.set_phase (h : s.phase i = some phase₀) (phase : Phase π) (j : ℕ) :
    (s.set i phase).phase j = if j = i then some phase else s.phase j := by
  obtain ⟨c, hc, -⟩ := State.exists_call h
  rw [State.phase, State.set_call, State.phase, Option.map_map]
  by_cases hj : j = i
  · subst hj
    rw [hc, map_some, comp_apply, if_pos rfl, if_pos rfl]
  · have hi : ¬i = j := Ne.symm hj
    rw [if_neg hj]
    cases s.calls[j]? with
    | none => rfl
    | some c' => rw [map_some, map_some, comp_apply, if_neg hi]

def State.add (s : State Φ π) (filePath : π) : State Φ π :=
  { s with calls := s.calls ++ [⟨filePath, .registering⟩] }

theorem State.add_phase (s : State Φ π) (filePath : π) (j : ℕ) :
    (s.add filePath).phase j = if j = s.calls.length then some .registering else s.phase j := by
  rw [State.phase, State.phase, State.add]
  dsimp only
  rw [getElem?_append]
  rcases lt_trichotomy j s.calls.length with hlt | rfl | hgt
  · rw [if_pos hlt, if_neg hlt.ne]
  · rw [if_neg (lt_irrefl _), if_pos rfl, Nat.sub_self]
    rfl
  · rw [if_neg hgt.not_gt, if_neg hgt.ne', getElem?_eq_none hgt.le, getElem?_eq_none]
    exact Nat.sub_pos_of_lt hgt

theorem State.ticket_of_phase (h : s.phase i = some phase) : s.lock.ticket i = phase.ticket := by
  rw [State.lock]
  dsimp only
  rw [h, bind_some]

theorem State.add_lock (s : State Φ π) (filePath : π) : (s.add filePath).lock = s.lock := by
  have hticket : (s.add filePath).lock.ticket = s.lock.ticket := by
    funext j
    rw [State.lock, State.lock]
    dsimp only
    rw [State.add_phase]
    split_ifs with hj
    · subst hj
      have hnone : s.phase s.calls.length = none := by
        rw [State.phase, getElem?_eq_none le_rfl, map_none]
      rw [hnone]
      rfl
    · rfl
  calc (s.add filePath).lock
      = ⟨(s.add filePath).lock.ticket, s.fileMutationQueues⟩ := rfl
    _ = s.lock := by rw [hticket]; rfl

theorem State.set_ticket (h : s.phase i = some phase₀) (phase : Phase π) :
    (s.set i phase).lock.ticket = update s.lock.ticket i phase.ticket := by
  funext j
  rw [update_apply, State.lock, State.lock]
  dsimp only
  rw [State.set_phase h]
  split_ifs
  · rw [bind_some]
  · rfl

theorem State.set_lock (h : s.phase i = some phase₀) (phase : Phase π)
    (hticket : phase.ticket = phase₀.ticket) : (s.set i phase).lock = s.lock := by
  have hupdate : (s.set i phase).lock.ticket = s.lock.ticket := by
    rw [State.set_ticket h, hticket, ← State.ticket_of_phase h, update_eq_self]
  calc (s.set i phase).lock
      = ⟨(s.set i phase).lock.ticket, s.fileMutationQueues⟩ := rfl
    _ = s.lock := by rw [hupdate]; rfl

theorem Phase.Ended.registered (h : phase.Ended) : phase.Registered := by
  cases phase with
  | registering => cases h
  | found key => cases h
  | queued key queue | running key queue | done key queue failed | rejected error => trivial

theorem Phase.Ended.released (h : phase.Ended) {t : Ticket π} (ht : phase.ticket = some t) :
    t.stage = .released := by
  cases phase with
  | registering | found key | queued key queue | running key queue => cases h
  | done key queue failed =>
    obtain rfl := Option.some.inj ht
    rfl
  | rejected error => cases ht

theorem Phase.Registered.cases (h : phase.Registered) :
    phase.Ended ∨ ∃ t, phase.ticket = some t ∧ (t.stage = .released → phase.Ended) := by
  cases phase with
  | registering => cases h
  | found key => cases h
  | queued key queue | running key queue => exact .inr ⟨_, rfl, fun hstage => by cases hstage⟩
  | done key queue failed => exact .inl trivial
  | rejected error => exact .inl trivial

/-- The operation of the call is running. -/
def Phase.Running : Phase π → Prop
  | .running _ _ => True
  | _ => False

/-- The operation of the call has started. -/
def Phase.Started : Phase π → Prop
  | .running _ _ => True
  | .done _ _ _ => True
  | _ => False

theorem Phase.Running.started (h : phase.Running) : phase.Started ∧ ¬phase.Ended := by
  cases phase with
  | running key queue => exact ⟨trivial, fun hended => hended⟩
  | _ => cases h

theorem Phase.Started.ticket (h : phase.Started) :
    ∃ t, phase.ticket = some t ∧ t.stage ≠ .waiting := by
  cases phase with
  | registering | found key | queued key queue | rejected error => cases h
  | running key queue | done key queue failed => exact ⟨_, rfl, Stage.noConfusion⟩

/-! ### What every step keeps -/

/-- The key of a call is the real path of the place that its path names. -/
def Call.Keyed (location : π → π) (c : Call π) : Prop :=
  (∀ key, c.phase = .found (.ok key) → key = location c.filePath) ∧
    ∀ t, c.phase.ticket = some t → t.key = location c.filePath

/-- A path that is found is the real path of the place that its path names, at any time. -/
def Locates (env : FileSystem Φ π) (location : π → π) : Prop :=
  ∀ disk filePath path, env.realpath disk (env.resolve filePath) = .ok path →
    path = location filePath

/-- A lookup of a missing file is for a path that is the real path of its place. -/
def Located (env : FileSystem Φ π) (location : π → π) (s : State Φ π) (e : Event Φ π) : Prop :=
  ∀ i c error, e = .lookup i → s.calls[i]? = some c →
    env.realpath s.disk (env.resolve c.filePath) = .error error → isMissingPathError error = true →
    env.resolve c.filePath = location c.filePath

theorem getMutationQueueKey_located {env : FileSystem Φ π} {location : π → π}
    (hlocates : Locates env location) (hok : Located env location s (.lookup i))
    (hc : s.calls[i]? = some c) {key : π}
    (hkey : getMutationQueueKey env s.disk c.filePath = .ok key) : key = location c.filePath := by
  rw [getMutationQueueKey] at hkey
  cases hpath : env.realpath s.disk (env.resolve c.filePath) with
  | ok path =>
    rw [hpath] at hkey
    obtain rfl := ok.inj hkey
    exact hlocates _ _ _ hpath
  | error error =>
    rw [hpath] at hkey
    dsimp only at hkey
    split_ifs at hkey with hmissing
    obtain rfl := ok.inj hkey
    exact hok i c error rfl hc hpath hmissing

structure Queued (location : π → π) (s : State Φ π) : Prop where
  valid : s.lock.Valid
  keyed : ∀ c ∈ s.calls, c.Keyed location
  inOrder : ∀ i j phase, j < i → s.phase i = some phase → phase ≠ .registering →
    ∃ phase', s.phase j = some phase' ∧ phase'.Registered

/-- Every call before this one is registered. -/
def State.Before (s : State Φ π) (i : ℕ) : Prop :=
  ∀ j, j < i → ∃ phase, s.phase j = some phase ∧ phase.Registered

section

variable {location : π → π} {s : State Φ π} {i : ℕ} {phase₀ phase : Phase π}

theorem Queued.before (hs : Queued location s) (h : s.phase i = some phase)
    (hphase : phase ≠ .registering) : s.Before i :=
  fun j hj => hs.inOrder i j phase hj h hphase

theorem Queued.before_next (hs : Queued location s)
    (hqueue : ∀ previous, i = previous + 1 → ∃ phase, s.phase previous = some phase ∧
      phase.Registered) : s.Before i := by
  intro j hj
  obtain ⟨previous, rfl⟩ := Nat.exists_eq_add_of_lt hj
  obtain ⟨phase, hphase, hregistered⟩ := hqueue (j + previous) rfl
  rcases Nat.eq_zero_or_pos previous with rfl | hpos
  · exact ⟨phase, hphase, hregistered⟩
  · refine hs.inOrder (j + previous) j phase (by omega) hphase ?_
    rintro rfl
    exact hregistered

theorem Queued.set_inOrder (hs : Queued location s) (h : s.phase i = some phase₀)
    (hbefore : s.Before i) (hregistered : phase₀.Registered → phase.Registered) (k j : ℕ)
    (phase' : Phase π) (hj : j < k) (hphase' : (s.set i phase).phase k = some phase')
    (hne : phase' ≠ .registering) :
    ∃ phase'', (s.set i phase).phase j = some phase'' ∧ phase''.Registered := by
  have hold : ∃ phase'', s.phase j = some phase'' ∧ phase''.Registered := by
    rw [State.set_phase h] at hphase'
    split_ifs at hphase' with hk
    · subst hk
      exact hbefore j hj
    · exact hs.inOrder k j phase' hj hphase' hne
  obtain ⟨phase'', hphase'', hold⟩ := hold
  rw [State.set_phase h]
  split_ifs with hji
  · subst hji
    obtain rfl := Option.some.inj (hphase''.symm.trans h)
    exact ⟨phase, rfl, hregistered hold⟩
  · exact ⟨phase'', hphase'', hold⟩

theorem Queued.set_keyed (hs : Queued location s)
    (hnew : ∀ c, s.calls[i]? = some c → ({ c with phase } : Call π).Keyed location) :
    ∀ c ∈ (s.set i phase).calls, c.Keyed location := by
  intro c hc
  obtain ⟨j, hj⟩ := mem_iff_getElem?.mp hc
  rw [State.set_call] at hj
  obtain ⟨c', hc', rfl⟩ := map_eq_some_iff.mp hj
  split_ifs with hij
  · subst hij
    exact hnew c' hc'
  · exact hs.keyed c' (mem_of_getElem? hc')

theorem Queued.keyed_next (hs : Queued location s) (h : s.phase i = some phase₀)
    (hc : s.calls[i]? = some c) {t : Ticket π} {stage : Stage}
    (hticket : phase.ticket = some { t with stage := stage }) (hticket₀ : phase₀.ticket = some t) :
    ({ c with phase } : Call π).Keyed location := by
  have hphase₀ := State.phase_of_call hc
  rw [h] at hphase₀
  have hkey := (hs.keyed c (mem_of_getElem? hc)).2 t (by
    rw [← Option.some.inj hphase₀, hticket₀])
  refine ⟨fun key hfound => ?_, fun t' ht' => ?_⟩
  · dsimp only at hfound
    rw [hfound] at hticket
    cases hticket
  · obtain rfl := Option.some.inj (hticket.symm.trans ht')
    exact hkey

theorem Queued.later (hs : Queued location s) {key : Except Thrown π}
    (h : s.phase i = some (.found key)) (j : ℕ) (t : Ticket π) (ht : s.lock.ticket j = some t) :
    j < i := by
  obtain ⟨phase', hphase', hticket⟩ := bind_eq_some_iff.mp ht
  by_contra hle
  rcases Nat.lt_or_eq_of_le (not_lt.mp hle) with hlt | rfl
  · have hne : phase' ≠ .registering := by
      rintro rfl
      cases hticket
    obtain ⟨phase'', hphase'', hregistered⟩ := hs.inOrder j i phase' hlt hphase' hne
    obtain rfl := Option.some.inj (hphase''.symm.trans h)
    exact hregistered
  · obtain rfl := Option.some.inj (hphase'.symm.trans h)
    cases hticket

theorem Queued.ended_before (hs : Queued location s) {i j : ℕ} {c c' : Call π}
    (hc : s.calls[i]? = some c) (hc' : s.calls[j]? = some c') (hlt : i < j)
    (hplace : location c.filePath = location c'.filePath) (hstarted : c'.phase.Started) :
    c.phase.Ended := by
  obtain ⟨t', ht', hstage⟩ := hstarted.ticket
  have hne : c'.phase ≠ .registering := fun heq => by
    rw [heq] at ht'
    cases ht'
  obtain ⟨phase, hphase, hregistered⟩ := hs.before (State.phase_of_call hc') hne i hlt
  obtain rfl := Option.some.inj (hphase.symm.trans (State.phase_of_call hc))
  rcases hregistered.cases with hended | ⟨t, ht, hreleased⟩
  · exact hended
  · have hkey := (hs.keyed c (mem_of_getElem? hc)).2 t ht
    have hkey' := (hs.keyed c' (mem_of_getElem? hc')).2 t' ht'
    have hlock := State.ticket_of_phase (State.phase_of_call hc)
    have hlock' := State.ticket_of_phase (State.phase_of_call hc')
    refine hreleased (hs.valid.begun j t' (hlock'.trans ht') hstage i t hlt (hlock.trans ht) ?_)
    rw [hkey, hkey', hplace]

end

theorem State.start_lock (h : s.phase i = some phase) {key : π} {queue : Option ℕ} :
    (s.set i (.running key queue)).lock = s.lock.start i ⟨key, queue, .waiting⟩ := by
  have hticket := State.set_ticket h (.running key queue)
  rw [TicketLock.start]
  change TicketLock.mk (s.set i (.running key queue)).lock.ticket _ = _
  rw [hticket]
  rfl

variable [DecidableEq π] {env : FileSystem Φ π} {location : π → π}

theorem State.register_lock (h : s.phase i = some phase) {key : π} :
    State.lock { s.set i (.queued key (s.fileMutationQueues key)) with
      fileMutationQueues := update s.fileMutationQueues key (some i) } =
        s.lock.take i key := by
  have hticket := State.set_ticket h (.queued key (s.fileMutationQueues key))
  rw [TicketLock.take]
  change TicketLock.mk (s.set i (.queued key (s.fileMutationQueues key))).lock.ticket _ = _
  rw [hticket]
  rfl

theorem State.finish_lock (h : s.phase i = some phase) {key : π} {queue : Option ℕ}
    (failed : Bool) :
    State.lock { s.set i (.done key queue failed) with
      fileMutationQueues :=
        if s.fileMutationQueues key = some i then update s.fileMutationQueues key none
        else s.fileMutationQueues } = s.lock.release i ⟨key, queue, .started⟩ := by
  have hticket := State.set_ticket h (.done key queue failed)
  rw [TicketLock.release]
  change TicketLock.mk (s.set i (.done key queue failed)).lock.ticket _ = _
  rw [hticket]
  rfl

theorem init_queued (s : State Φ π) (h : (mutationSystem env).init s) : Queued location s := by
  have hticket : ∀ i, s.phase i = none := fun i => by
    rw [State.phase, h.1]
    rfl
  have hnone : ∀ i t, s.lock.ticket i ≠ some t := fun i t ht => by
    obtain ⟨phase, hphase, -⟩ := bind_eq_some_iff.mp ht
    rw [hticket] at hphase
    cases hphase
  have hlast : ∀ key i, s.lock.last key ≠ some i := fun key i hi => by
    rw [State.lock, h.2] at hi
    cases hi
  exact {
    valid := {
      last_some := fun key i hi => absurd hi (hlast key i)
      last_none := fun key _ bound j t _ ht => absurd ht (hnone j t)
      previous_some := fun i t m ht => absurd ht (hnone i t)
      previous_none := fun i t ht => absurd ht (hnone i t)
      begun := fun i t ht => absurd ht (hnone i t) }
    keyed := fun c hc => by
      rw [h.1] at hc
      cases hc
    inOrder := fun i j phase _ hphase => by
      rw [hticket] at hphase
      cases hphase }

theorem step_queued (hlocates : Locates env location) (s : State Φ π) (e : Event Φ π)
    (s' : State Φ π) (hs : Queued location s) (hok : Located env location s e)
    (hstep : (mutationSystem env).step s e s') : Queued location s' := by
  cases hstep with
  | call filePath =>
    change Queued location (s.add filePath)
    refine { valid := ?_, keyed := fun c hc => ?_, inOrder := fun i j phase hj hphase hne => ?_ }
    · rw [State.add_lock]
      exact hs.valid
    · rcases mem_append.mp hc with hc | hc
      · exact hs.keyed c hc
      · rw [mem_singleton.mp hc]
        exact ⟨fun key hkey => (by cases hkey), fun t ht => (by cases ht)⟩
    · rw [State.add_phase] at hphase ⊢
      split_ifs at hphase with hi
      · exact absurd (Option.some.inj hphase).symm hne
      · have hlt : i < s.calls.length := by
          obtain ⟨c, hc, -⟩ := State.exists_call hphase
          exact (List.getElem?_eq_some_iff.mp hc).1
        rw [if_neg (hj.trans hlt).ne]
        exact hs.inOrder i j phase hj hphase hne
  | @lookup i filePath h hqueue =>
    have hphase := State.phase_of_call h
    refine { valid := ?_, keyed := hs.set_keyed fun c hc => ?_, inOrder := ?_ }
    · rw [State.set_lock hphase (.found _) rfl]
      exact hs.valid
    · obtain rfl := Option.some.inj (hc.symm.trans h)
      refine ⟨fun key hkey => ?_, fun t ht => by cases ht⟩
      exact getMutationQueueKey_located hlocates hok h (Phase.found.inj hkey)
    · exact hs.set_inOrder hphase (hs.before_next hqueue) fun hregistered => hregistered
  | @register i key h =>
    refine { valid := ?_, keyed := hs.set_keyed fun c hc => ?_, inOrder := ?_ }
    · have hlock := hs.valid.take key (hs.later h)
      rw [← State.register_lock h] at hlock
      exact hlock
    · have hphase := State.phase_of_call hc
      rw [h] at hphase
      refine ⟨fun key' hkey => (by cases hkey), fun t ht => ?_⟩
      obtain rfl := Option.some.inj ht
      exact (hs.keyed c (mem_of_getElem? hc)).1 key (Option.some.inj hphase).symm
    · exact hs.set_inOrder h (hs.before h (by simp)) fun _ => trivial
  | @reject i error h =>
    refine { valid := ?_, keyed := hs.set_keyed fun c hc => ?_, inOrder := ?_ }
    · rw [State.set_lock h (.rejected error) rfl]
      exact hs.valid
    · exact ⟨fun key hkey => (by cases hkey), fun t ht => (by cases ht)⟩
    · exact hs.set_inOrder h (hs.before h (by simp)) fun _ => trivial
  | @start i key queue h hqueue =>
    have hticket := State.ticket_of_phase h
    refine { valid := ?_, keyed := hs.set_keyed fun c hc => ?_, inOrder := ?_ }
    · have hlock := hs.valid.start hticket rfl hqueue
      rw [← State.start_lock h] at hlock
      exact hlock
    · exact hs.keyed_next h hc rfl rfl
    · exact hs.set_inOrder h (hs.before h (by simp)) fun _ => trivial
  | @finish i key queue h failed =>
    have hticket := State.ticket_of_phase h
    refine { valid := ?_, keyed := hs.set_keyed fun c hc => ?_, inOrder := ?_ }
    · have hlock := hs.valid.release hticket rfl
      rw [← State.finish_lock h failed] at hlock
      exact hlock
    · exact hs.keyed_next h hc rfl rfl
    · exact hs.set_inOrder h (hs.before h (by simp)) fun _ => trivial
  | change disk =>
    exact { valid := hs.valid, keyed := hs.keyed, inOrder := hs.inOrder }

/-! ### Operations on one place -/

def Event.target : Event Φ π → Option ℕ
  | .call _ => none
  | .lookup i => some i
  | .register i => some i
  | .start i => some i
  | .finish i _ => some i
  | .change _ => none

/-- Operations on one place run one at a time, in the order of the calls; a call is held up neither
by calls that have ended, however, nor by registered ones for other places; and a key is left only
while a call is queued or running under it. -/
structure Serialized (env : FileSystem Φ π) (location : π → π) (s : State Φ π) : Prop where
  alone : ∀ (i j : ℕ) (c c' : Call π), s.calls[i]? = some c → s.calls[j]? = some c' →
    location c.filePath = location c'.filePath → c.phase.Running → c'.phase.Running → i = j
  inOrder : ∀ (i j : ℕ) (c c' : Call π), s.calls[i]? = some c → s.calls[j]? = some c' → i < j →
    location c.filePath = location c'.filePath → c'.phase.Started → c.phase.Ended
  unblocked : ∀ (j : ℕ) (c : Call π), s.calls[j]? = some c → ¬c.phase.Ended →
    (∀ (i : ℕ) (c' : Call π), i < j → s.calls[i]? = some c' → c'.phase.Ended ∨
      c'.phase.Registered ∧ location c'.filePath ≠ location c.filePath) →
    ∃ e s', e.target = some j ∧ Step env s e s'
  emptied : ∀ key, (∀ c ∈ s.calls, ∀ queue, c.phase ≠ .queued key queue ∧
    c.phase ≠ .running key queue) → s.fileMutationQueues key = none

section

variable {s : State Φ π}

theorem Queued.unblocked (hs : Queued location s) (j : ℕ) (c : Call π) (hc : s.calls[j]? = some c)
    (hended : ¬c.phase.Ended) (hfree : ∀ i c', i < j → s.calls[i]? = some c' → c'.phase.Ended ∨
      c'.phase.Registered ∧ location c'.filePath ≠ location c.filePath) :
    ∃ e s', e.target = some j ∧ Step env s e s' := by
  have hphase := State.phase_of_call hc
  obtain ⟨filePath, phase⟩ := c
  cases phase with
  | registering =>
    refine ⟨.lookup j, _, rfl, .lookup hc fun previous hj => ?_⟩
    have hlt : previous < s.calls.length := by
      have := (List.getElem?_eq_some_iff.mp hc).1
      omega
    refine ⟨_, State.phase_of_call (getElem?_eq_getElem hlt), ?_⟩
    rcases hfree previous _ (by omega) (getElem?_eq_getElem hlt) with hprevious | hprevious
    · exact hprevious.registered
    · exact hprevious.1
  | found key =>
    cases key with
    | ok key => exact ⟨.register j, _, rfl, .register hphase⟩
    | error error => exact ⟨.register j, _, rfl, .reject hphase⟩
  | queued key queue =>
    have hlock := State.ticket_of_phase hphase
    refine ⟨.start j, _, rfl, .start hphase (hs.valid.resolved hlock fun i t hi ht hkey => ?_)⟩
    obtain ⟨phase', hphase', hticket⟩ := bind_eq_some_iff.mp ht
    obtain ⟨c', hc', rfl⟩ := State.exists_call hphase'
    rcases hfree i c' hi hc' with hprevious | ⟨-, hother⟩
    · exact hprevious.released hticket
    · have hkey' := (hs.keyed c' (mem_of_getElem? hc')).2 t hticket
      have hkey'' := (hs.keyed _ (mem_of_getElem? hc)).2 _ rfl
      exact absurd (hkey'.symm.trans (hkey.trans hkey'')) hother
  | running key queue => exact ⟨.finish j false, _, rfl, .finish hphase false⟩
  | done key queue failed | rejected error => exact absurd trivial hended

theorem Queued.serialized (hs : Queued location s) : Serialized env location s where
  alone := by
    intro i j c c' hc hc' hplace hrunning hrunning'
    obtain ⟨hstarted, hended⟩ := hrunning.started
    obtain ⟨hstarted', hended'⟩ := hrunning'.started
    rcases lt_trichotomy i j with hlt | heq | hgt
    · exact absurd (hs.ended_before hc hc' hlt hplace hstarted') hended
    · exact heq
    · exact absurd (hs.ended_before hc' hc hgt hplace.symm hstarted) hended'
  inOrder := fun i j c c' hc hc' hlt hplace => hs.ended_before hc hc' hlt hplace
  unblocked := hs.unblocked
  emptied := by
    intro key hnone
    cases hlast : s.fileMutationQueues key with
    | none => rfl
    | some i =>
      obtain ⟨t, ht, hkey, hstage, -⟩ := hs.valid.last_some key i hlast
      obtain ⟨phase, hphase, hticket⟩ := bind_eq_some_iff.mp ht
      obtain ⟨⟨filePath, phase⟩, hc, rfl⟩ := State.exists_call hphase
      have hcall := hnone _ (mem_of_getElem? hc)
      cases phase with
      | queued key' queue | running key' queue =>
        cases hticket
        cases hkey
        simp at hcall
      | done key' queue failed =>
        cases hticket
        exact absurd rfl hstage
      | _ => cases hticket

end

/-- In every run whose lookups of missing files are for real paths, mutations are serialized. -/
theorem mutations_serialized (env : FileSystem Φ π) (location : π → π)
    (hlocates : Locates env location) (s : State Φ π)
    (hs : (mutationSystem env).ReachableBy (Located env location) s) : Serialized env location s :=
  (hs.invariant init_queued (step_queued hlocates)).serialized

/-! ### A link to a directory -/

def linkedDirectory : FileSystem Bool String where
  resolve := fun path => path
  realpath := fun isThere _ => if isThere then .ok "/real/new" else .error ⟨some "ENOENT"⟩

theorem linkedDirectory_locates : Locates linkedDirectory fun _ => "/real/new" := by
  intro disk filePath path hpath
  cases disk with
  | false => cases hpath
  | true => exact (ok.inj hpath).symm

/-- A call through the link and one past it, both before the file is there, run together. -/
theorem linked_overlap : ∃ s, (mutationSystem linkedDirectory).Reachable s ∧
    ¬Serialized linkedDirectory (fun _ => "/real/new") s := by
  have hstart : (mutationSystem linkedDirectory).Steps (fun _ _ => True)
    ⟨false, [], fun _ => none⟩ ⟨false, [], fun _ => none⟩ := .refl _
  have hrun := (((((((hstart.tail
      (Step.call _ "/link/new") trivial).tail
      (Step.call _ "/real/new") trivial).tail
      (Step.lookup (i := 0) rfl fun _ h => absurd h.symm (Nat.succ_ne_zero _)) trivial).tail
      (Step.register (i := 0) rfl) trivial).tail
      (Step.start (i := 0) rfl .none) trivial).tail
      (Step.lookup (i := 1) rfl fun previous h => by
        obtain rfl := Nat.succ.inj h
        exact ⟨_, rfl, trivial⟩) trivial).tail
      (Step.register (i := 1) rfl) trivial).tail
      (Step.start (i := 1) rfl .none) trivial
  refine ⟨_, ⟨_, ⟨rfl, rfl⟩, hrun⟩, fun hserialized => ?_⟩
  have hsame := hserialized.alone 0 1 ⟨"/link/new", .running "/link/new" none⟩
    ⟨"/real/new", .running "/real/new" none⟩ rfl rfl rfl trivial trivial
  cases hsame

theorem located_there {s : State Bool String} (hs : s.disk = true) (e : Event Bool String) :
    Located linkedDirectory (fun _ => "/real/new") s e := by
  intro i c error _ _ hmissing _
  rw [hs] at hmissing
  cases hmissing

/-- When the file is there, the second call waits. -/
theorem mutations_serialized_there : ∃ s : State Bool String,
    s.phase 0 = some (.running "/real/new" none) ∧
      s.phase 1 = some (.queued "/real/new" (some 0)) ∧
      Serialized linkedDirectory (fun _ => "/real/new") s := by
  have hstart : (mutationSystem linkedDirectory).Steps
    (Located linkedDirectory fun _ => "/real/new")
    ⟨true, [], fun _ => none⟩ ⟨true, [], fun _ => none⟩ := .refl _
  have hrun := ((((((hstart.tail
      (Step.call _ "/link/new") (located_there rfl _)).tail
      (Step.call _ "/real/new") (located_there rfl _)).tail
      (Step.lookup (i := 0) rfl fun _ h => absurd h.symm (Nat.succ_ne_zero _))
        (located_there rfl _)).tail
      (Step.register (i := 0) rfl) (located_there rfl _)).tail
      (Step.start (i := 0) rfl .none) (located_there rfl _)).tail
      (Step.lookup (i := 1) rfl fun previous h => by
        obtain rfl := Nat.succ.inj h
        exact ⟨_, rfl, trivial⟩) (located_there rfl _)).tail
      (Step.register (i := 1) rfl) (located_there rfl _)
  exact ⟨_, rfl, rfl, mutations_serialized linkedDirectory _ linkedDirectory_locates _
    ⟨_, ⟨rfl, rfl⟩, hrun⟩⟩

end KnightCode.Files
