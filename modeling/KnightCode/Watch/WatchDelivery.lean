import KnightCode.Watch.WatchRuns

/-!
# What a watch delivers

While a watch is open, what it keeps pending leads from the value of the last value call to that of
its source, unless a failure lies between the two. So every call brings the listener to the newest
frame, and at rest nothing is left to bring.
-/

namespace KnightCode

open Delta Option

variable {Context Failure : Type}

namespace Watching
variable {value source : Json} {log : Log Context Failure} {w : Watch Context Failure}
  {s s' : Watching Context Failure} {toError : Failure → Failure} {a : WatchAct Context Failure}

/-! ### What is pending -/

structure Pends (value source : Json) (log : Log Context Failure) (w : Watch Context Failure) :
    Prop where
  shown : w.value = lastValue value log
  retired : w.retired = unreported log
  context : w.newestContext.isSome = (pendingFrame log).isSome
  newest : ∀ frame, pendingFrame log = some (.value frame) →
    frame.value = source ∧ w.newestValue = some source ∧ w.failure = none
  failed : ∀ error, pendingFrame log = some (.failed error) →
    w.failure = some error ∧ w.replace = true
  /-- After a failure nothing is kept. -/
  replacing : w.replace = true → w.ops = .empty ∧ w.lone = none ∧
    (pendingFrame log = none → afterFailure log = true)
  leads : w.replace = false → w.ops.Leads (lastValue value log) source ∧
    afterFailure log = false ∧ w.failure = none
  settled : w.replace = false → pendingFrame log = none →
    w.ops = .empty ∧ w.lone = none ∧ unreported log = false
  lone : ∀ frame, w.lone = some frame → pendingFrame log = some (.value frame) ∧
    applyCanonical (lastValue value log) frame.ops = some source ∧ frame.retired = unreported log

theorem Pends.congr {w' : Watch Context Failure} (h : Pends value source log w)
    (hkept : w'.kept = w.kept) : Pends value source log w' := by
  simp only [Watch.kept, Prod.mk.injEq] at hkept
  obtain ⟨hvalue, hops, hlone, hnewest, hcontext, hretired, hfailure, hreplace⟩ := hkept
  constructor
  · rw [hvalue]
    exact h.shown
  · rw [hretired]
    exact h.retired
  · rw [hcontext]
    exact h.context
  · rw [hnewest, hfailure]
    exact h.newest
  · rw [hfailure, hreplace]
    exact h.failed
  · rw [hreplace, hops, hlone]
    exact h.replacing
  · rw [hreplace, hops, hfailure]
    exact h.leads
  · rw [hreplace, hops, hlone]
    exact h.settled
  · rw [hlone]
    exact h.lone

theorem kept_pending (w : Watch Context Failure) : w.pending.kept = w.kept := by
  unfold Watch.pending Watch.schedule
  split_ifs <;> rfl

theorem pends_new (value : Json) :
    Pends value value [] (Watch.new value : Watch Context Failure) where
  shown := rfl
  retired := rfl
  context := rfl
  newest := fun _ h => by cases h
  failed := fun _ h => by cases h
  replacing := fun h => by cases h
  leads := fun _ => ⟨rfl, rfl, rfl⟩
  settled := fun _ _ => ⟨rfl, rfl, rfl⟩
  lone := fun _ h => by cases h

theorem pends_fail (h : Pends value source log w) (hopen : w.opened = true) (error : Failure)
    (context : Context) :
    Pends value source (.frame (.failed error) :: log) (w.fail error context) := by
  unfold Watch.fail
  rw [if_pos hopen]
  apply Pends.congr _ (kept_pending _)
  exact {
    shown := h.shown
    retired := h.retired
    context := rfl
    newest := fun frame hframe => by cases hframe
    failed := fun error' hframe => by
      cases hframe
      exact ⟨rfl, rfl⟩
    replacing := fun _ => ⟨rfl, rfl, fun hnone => by cases hnone⟩
    leads := fun hfalse => by cases hfalse
    settled := fun hfalse => by cases hfalse
    lone := fun frame hnone => by cases hnone }

theorem pends_value (h : Pends value source log w) (hopen : w.opened = true) (call : WatchValueCall)
    (hfits : applyCanonical source call.ops = some call.value) (context : Context) :
    Pends value call.value (.frame (.value call) :: log) (w.advance (.value call) context) := by
  simp only [Watch.advance]
  rw [if_pos hopen]
  apply Pends.congr _ (kept_pending _)
  have hnewest : ∀ frame, (some (.value call) : Option (WatchCall Failure)) =
      some (.value frame) → frame = call := by
    rintro frame ⟨⟩
    rfl
  have hretired : (w.retired || call.retired) = (call.retired || unreported log) := by
    rw [h.retired, Bool.or_comm]
  cases hreplace : w.replace with
  | true =>
    obtain ⟨hops, hlone, -⟩ := h.replacing hreplace
    exact {
      shown := h.shown
      retired := hretired
      context := rfl
      newest := fun frame hframe => by
        rw [hnewest frame hframe]
        exact ⟨rfl, rfl, rfl⟩
      failed := fun error hframe => by cases hframe
      replacing := fun _ => ⟨hops, hlone, fun hnone => by cases hnone⟩
      leads := fun hfalse => by cases hfalse
      settled := fun _ hnone => by cases hnone
      lone := fun frame hframe => by simp [hlone] at hframe }
  | false =>
    obtain ⟨hleads, hafter, hfailure⟩ := h.leads hreplace
    exact {
      shown := h.shown
      retired := hretired
      context := rfl
      newest := fun frame hframe => by
        rw [hnewest frame hframe]
        exact ⟨rfl, rfl, hfailure⟩
      failed := fun error hframe => by cases hframe
      replacing := fun htrue => by cases htrue
      leads := fun _ => ⟨PendingOps.push_leads hleads hfits, hafter, hfailure⟩
      settled := fun _ hnone => by cases hnone
      lone := fun frame hframe => by
        have hidle : w.newestContext.isNone = true ∧ frame = call := by
          by_cases hnone : w.newestContext.isNone = true
          · simp only [Bool.false_eq_true, if_false, if_pos hnone] at hframe
            cases hframe
            exact ⟨hnone, rfl⟩
          · simp [hnone] at hframe
        obtain ⟨hnone, rfl⟩ := hidle
        have hlast : pendingFrame log = none := by
          have hcontext := h.context
          rw [isNone_iff_eq_none.mp hnone] at hcontext
          simpa using hcontext.symm
        obtain ⟨hempty, -, hreported⟩ := h.settled hreplace hlast
        rw [hempty] at hleads
        have hbase : lastValue value log = source := hleads
        refine ⟨rfl, ?_, ?_⟩
        · exact (congrArg (applyCanonical · frame.ops) hbase).trans hfits
        · exact (by simp [unreported, hreported]) }

/-! ### The next call -/

/-- The watch once its next call was made. -/
def afterNext (w : Watch Context Failure) : Watch Context Failure :=
  { w.next.2 with value := w.next.1.valueAfter w.next.2.value, calls := w.next.2.calls + 1 }

theorem pends_called {call : WatchValueCall} (context : Context) (hkept : w.kept =
      (call.value, .empty, none, none, none, false, none, false)) (hvalue : call.value = source) :
    Pends value source (.called (.value call) context :: log) w := by
  simp only [Watch.kept, Prod.mk.injEq] at hkept
  obtain ⟨hshown, hops, hlone, hnewest, hcontext, hretired, hfailure, hreplace⟩ := hkept
  constructor
  · exact hshown
  · exact hretired
  · rw [hcontext]
    rfl
  · intro frame hframe
    cases hframe
  · intro error hframe
    cases hframe
  · intro htrue
    rw [hreplace] at htrue
    cases htrue
  · intro _
    rw [hops]
    exact ⟨hvalue, rfl, hfailure⟩
  · exact fun _ _ => ⟨hops, hlone, rfl⟩
  · intro frame hframe
    rw [hlone] at hframe
    cases hframe

theorem next_spec (h : Pends value source log w) (hdelivered : Delivered value log)
    {context : Context} (hcontext : w.newestContext = some context) :
    Delivered value (.called w.next.1 context :: log) ∧
      Pends value source (.called w.next.1 context :: log) (afterNext w) := by
  obtain ⟨frame, hframe⟩ : ∃ frame, pendingFrame log = some frame := by
    rw [← isSome_iff_exists, ← h.context, hcontext]
    rfl
  cases frame with
  | failed error =>
    obtain ⟨hfailure, hreplace⟩ := h.failed error hframe
    obtain ⟨hops, hlone, -⟩ := h.replacing hreplace
    have hnext : w.next = (.failed error, { w with newestContext := none, failure := none }) := by
      simp [Watch.next, Watch.nextAfterFailure, hreplace, hfailure]
    have hafter : afterNext w =
        { w with newestContext := none, failure := none, calls := w.calls + 1 } := by
      simp [afterNext, hnext, WatchCall.valueAfter]
    rw [hafter, hnext]
    refine ⟨⟨hframe, hdelivered⟩, ?_⟩
    exact {
      shown := h.shown
      retired := h.retired
      context := rfl
      newest := fun frame hnone => by cases hnone
      failed := fun error hnone => by cases hnone
      replacing := fun _ => ⟨hops, hlone, fun _ => rfl⟩
      leads := fun hfalse => by simp [hreplace] at hfalse
      settled := fun hfalse => by simp [hreplace] at hfalse
      lone := fun frame hsome => by simp [hlone] at hsome }
  | value frame =>
    obtain ⟨hsource, hnewest, hfailure⟩ := h.newest frame hframe
    cases hreplace : w.replace with
    | true =>
      obtain ⟨hops, hlone, -⟩ := h.replacing hreplace
      have hnext : w.next = (.value ⟨source, [.replace source], w.retired⟩,
          { w with newestContext := none, newestValue := none, retired := false,
                   replace := false }) := by
        simp [Watch.next, Watch.nextAfterFailure, hreplace, hfailure, hnewest]
      have hafter : (afterNext w).kept =
          (source, .empty, none, none, none, false, none, false) := by
        simp [afterNext, hnext, WatchCall.valueAfter, Watch.kept, hops, hlone, hfailure]
      rw [hnext]
      exact ⟨⟨⟨frame, hframe, hsource⟩, rfl, fun _ => rfl, h.retired, hdelivered⟩,
        pends_called context hafter rfl⟩
    | false =>
      obtain ⟨hleads, hafterFailure, -⟩ := h.leads hreplace
      have hnever : ∀ {p : Prop}, afterFailure log = true → p := by
        intro p htrue
        simp [hafterFailure] at htrue
      cases hlone : w.lone with
      | some call =>
        obtain ⟨hcall, hops, hretired⟩ := h.lone call hlone
        have hcallValue : call.value = source := (h.newest call hcall).1
        have hnext : w.next.1 = .value call := by simp [Watch.next, hreplace, hlone]
        have hafter : (afterNext w).kept =
            (call.value, .empty, none, none, none, false, none, false) := by
          simp [afterNext, Watch.next, hreplace, hlone, WatchCall.valueAfter, Watch.kept, hfailure]
        rw [hnext]
        refine ⟨⟨⟨call, hcall, rfl⟩, ?_, fun htrue => hnever htrue, hretired, hdelivered⟩,
          pends_called context hafter hcallValue⟩
        rw [hcallValue]
        exact applyOps_of_canonical hops
      | none =>
        have hnext : w.next.1 = .value ⟨source, w.ops.take.getD [.replace source], w.retired⟩ := by
          simp [Watch.next, hreplace, hlone, hnewest]
        have hafter : (afterNext w).kept =
            (source, .empty, none, none, none, false, none, false) := by
          simp [afterNext, Watch.next, hreplace, hlone, WatchCall.valueAfter, Watch.kept, hfailure,
            hnewest]
        rw [hnext]
        refine ⟨⟨⟨frame, hframe, hsource⟩, ?_, fun htrue => hnever htrue, h.retired, hdelivered⟩,
          pends_called context hafter rfl⟩
        cases htake : w.ops.take with
        | none => rfl
        | some ops => exact applyOps_of_canonical (PendingOps.take_leads hleads htake)

/-! ### Runs -/

structure Inv (value : Json) (s : Watching Context Failure) : Prop where
  scheduled : Scheduled s.watch
  delivered : Delivered value s.log
  pends : s.watch.terminated = none → Pends value s.source s.log s.watch

/-- A step that makes no call and logs no frame, and keeps what is pending while the watch is
open. -/
theorem inv_quiet (h : Inv value s) (hscheduled : Scheduled w)
    (hkept : w.terminated = none → s.watch.terminated = none ∧ w.kept = s.watch.kept) :
    Inv value { s with watch := w } :=
  ⟨hscheduled, h.delivered, fun hopen => (h.pends (hkept hopen).1).congr (hkept hopen).2⟩

theorem kept_terminate {w : Watch Context Failure} {result : WatchEnd Failure}
    (hopen : (w.terminate result).terminated = none) :
    w.terminated = none ∧ (w.terminate result).kept = w.kept := by
  rw [terminated_terminate] at hopen
  cases hterminated : w.terminated <;> simp [hterminated] at hopen

theorem kept_advance (hclosed : w.opened = false) (call : WatchCall Failure) (context : Context) :
    w.advance call context = w := by
  cases call <;> simp [Watch.advance, Watch.fail, hclosed]

theorem inv_advance (h : Inv value s) (hopen : s.watch.opened = true) (call : WatchCall Failure)
    (context : Context) (hfits : Fits s.source call) :
    Inv value
      { watch := s.watch.advance call context
        source := call.valueAfter s.source
        log := .frame call :: s.log } := by
  have hnone : s.watch.terminated = none := by
    simp only [Watch.opened, Bool.and_eq_true] at hopen
    simpa using hopen.1
  refine ⟨scheduled_advance h.scheduled call context, h.delivered, fun _ => ?_⟩
  cases call with
  | failed error => exact pends_fail (h.pends hnone) hopen error context
  | value call => exact pends_value (h.pends hnone) hopen call hfits context

theorem inv_deliver (h : Inv value s) (hterminated : w.terminated = s.watch.terminated)
    (hkept : w.kept = s.watch.kept) (hscheduled : Scheduled w.loop.1) :
    Inv value (s.deliver w.loop) := by
  have hpends : w.terminated = none → Pends value s.source s.log w := by
    intro hopen
    rw [hterminated] at hopen
    exact (h.pends hopen).congr hkept
  obtain ⟨hrun, -⟩ | ⟨hrun, -, -, -, -⟩ | ⟨context, hcontext, hopen, -, hrun⟩ := loop_cases w
  · rw [hrun] at hscheduled ⊢
    exact ⟨hscheduled, h.delivered, fun hopen => (hpends hopen).congr rfl⟩
  · rw [hrun] at hscheduled ⊢
    refine ⟨hscheduled, h.delivered, fun hopen => ?_⟩
    obtain ⟨hnone, hkept'⟩ := kept_terminate (w := w) hopen
    exact (hpends hnone).congr hkept'
  · rw [hrun] at hscheduled ⊢
    obtain ⟨hdelivered, hafter⟩ := next_spec (hpends hopen) h.delivered hcontext
    exact ⟨hscheduled, hdelivered, fun _ => hafter⟩

theorem inv_microtask (h : Inv value s) (hone : 0 < s.watch.microtasks) :
    Inv value (s.deliver s.watch.microtask) := by
  have hscheduled := scheduled_microtask h.scheduled hone
  unfold Watch.microtask at hscheduled ⊢
  by_cases hno : (s.watch.running || s.watch.terminated.isSome || !s.watch.started) = true
  · rw [if_pos hno] at hscheduled ⊢
    exact inv_quiet h hscheduled fun hopen => ⟨hopen, rfl⟩
  · rw [if_neg hno] at hscheduled ⊢
    exact inv_deliver h rfl rfl hscheduled

theorem inv_step (h : Inv value s) (hstep : Step toError s a s') : Inv value s' := by
  cases hstep with
  | advance call context hopen hfits => exact inv_advance h hopen call context hfits
  | ignored call context hclosed =>
    rw [kept_advance hclosed]
    exact h
  | start =>
    apply inv_quiet h (scheduled_start h.scheduled)
    intro hopen
    unfold Watch.start Watch.schedule at hopen ⊢
    split_ifs at hopen ⊢ <;> exact ⟨hopen, rfl⟩
  | stop => exact inv_quiet h (scheduled_terminate h.scheduled _) kept_terminate
  | abort => exact inv_quiet h (scheduled_terminate h.scheduled _) kept_terminate
  | observeAbort aborted =>
    apply inv_quiet h (scheduled_observeAbort h.scheduled aborted)
    intro hopen
    unfold Watch.observeAbort at hopen ⊢
    split_ifs at hopen ⊢
    · exact ⟨hopen, rfl⟩
    · exact kept_terminate (w := { s.watch with abortListener := true }) hopen
    · exact ⟨hopen, rfl⟩
  | signalAborted =>
    apply inv_quiet h (scheduled_signalAborted h.scheduled)
    intro hopen
    unfold Watch.signalAborted at hopen ⊢
    split_ifs at hopen ⊢
    · exact kept_terminate hopen
    · exact ⟨hopen, rfl⟩
  | sourceEnd result => exact inv_quiet h (scheduled_terminate h.scheduled _) kept_terminate
  | endAfterDelivery =>
    apply inv_quiet h (scheduled_endAfterDelivery h.scheduled)
    intro hopen
    unfold Watch.endAfterDelivery at hopen ⊢
    split_ifs at hopen ⊢
    · exact ⟨hopen, rfl⟩
    · exact kept_terminate (w := { s.watch with ending := true }) hopen
    · exact ⟨hopen, rfl⟩
  | microtask hone => exact inv_microtask h hone
  | returned hone => exact inv_deliver h rfl rfl (scheduled_returned h.scheduled hone)
  | threw error hone =>
    apply inv_quiet h (scheduled_threw h.scheduled error hone)
    intro hopen
    unfold Watch.threw at hopen ⊢
    split_ifs at hopen ⊢ <;> exact ⟨hopen, rfl⟩
  | reported error hone =>
    apply inv_quiet h (scheduled_reported h.scheduled toError hone)
    exact fun hopen => @kept_terminate _ _ { s.watch with reporting := s.watch.reporting.tail }
      (.listenerError (toError error)) hopen

/-! ### What a step adds and what closes a watch -/

/-- A step logs the frame it takes, or the call it makes: from a microtask while no call runs, or
when the running call has returned. -/
def Adds (s : Watching Context Failure) (a : WatchAct Context Failure)
    (s' : Watching Context Failure) : Prop :=
  s'.log = s.log ∨
    (∃ call context, a = .advance call context ∧ s.watch.opened = true ∧
      s'.log = .frame call :: s.log) ∨
    ∃ call context, s'.log = .called call context :: s.log ∧ s.watch.terminated = none ∧
      s'.watch.calls = 1 ∧
      (a = .microtask ∧ s.watch.calls + s.watch.reporting.length = 0 ∨
        a = .returned ∧ s.watch.calls = 1)

/-- What an act may close the watch with. Only when nothing is pending and no call runs does the
watch end by itself. -/
def ClosesWith (toError : Failure → Failure) (s : Watching Context Failure) :
    WatchAct Context Failure → WatchEnd Failure → Prop
  | .stop, result => result = .stopped
  | .abort, result => result = .aborted
  | .observeAbort _, result => result = .aborted
  | .signalAborted, result => result = .aborted
  | .sourceEnd given, result => result = given
  | .reported, result =>
    ∃ error, s.watch.reporting.head? = some error ∧ result = .listenerError (toError error)
  | .endAfterDelivery, result =>
    result = .ended ∧ pendingFrame s.log = none ∧ s.watch.calls = 0
  | .microtask, result =>
    result = .ended ∧ s.watch.ending = true ∧ pendingFrame s.log = none ∧ s.watch.calls = 0
  | .returned, result =>
    result = .ended ∧ s.watch.ending = true ∧ pendingFrame s.log = none ∧ s.watch.calls = 1
  | _, _ => False

structure Closes (toError : Failure → Failure) (s : Watching Context Failure)
    (a : WatchAct Context Failure) (s' : Watching Context Failure) : Prop where
  once : ∀ result, s.watch.closed = some result →
    s'.watch.closed = some result ∧ s'.log = s.log
  cause : ∀ result, s.watch.closed = none → s'.watch.closed = some result →
    ClosesWith toError s a result

/-- A started watch waits for its source. -/
structure AtRest (w : Watch Context Failure) : Prop where
  started : w.started = true
  terminated : w.terminated = none
  microtasks : w.microtasks = 0
  calls : w.calls = 0
  reporting : w.reporting = []

theorem terminated_pending (w : Watch Context Failure) : w.pending.terminated = w.terminated := by
  unfold Watch.pending Watch.schedule
  split_ifs <;> rfl

theorem terminated_advance (w : Watch Context Failure) (call : WatchCall Failure)
    (context : Context) : (w.advance call context).terminated = w.terminated := by
  cases call with
  | failed error =>
    simp only [Watch.advance, Watch.fail]
    split_ifs
    · exact terminated_pending _
    · rfl
  | value call =>
    simp only [Watch.advance]
    by_cases hopen : w.opened = true
    · rw [if_pos hopen]
      exact terminated_pending _
    · rw [if_neg hopen]

theorem terminated_start (w : Watch Context Failure) : w.start.terminated = w.terminated := by
  unfold Watch.start Watch.schedule
  split_ifs <;> rfl

theorem closes_of (h : Inv value s) (h' : Inv value s') (honce : s.watch.terminated.isSome = true →
      s'.watch.terminated = s.watch.terminated ∧ s'.log = s.log)
    (hcause : s.watch.terminated = none → ∀ result, s'.watch.terminated = some result →
      ClosesWith toError s a result) : Closes toError s a s' := by
  constructor
  · intro result hclosed
    rw [h.scheduled.closed] at hclosed
    rw [h'.scheduled.closed]
    obtain ⟨hsame, hlog⟩ := honce (by rw [hclosed]; rfl)
    exact ⟨hsame.trans hclosed, hlog⟩
  · intro result hclosed hclosed'
    rw [h.scheduled.closed] at hclosed
    rw [h'.scheduled.closed] at hclosed'
    exact hcause hclosed result hclosed'

theorem terminated_of_terminate {result : WatchEnd Failure} :
    (w.terminated.isSome = true → (w.terminate result).terminated = w.terminated) ∧
      (w.terminated = none → ∀ result', (w.terminate result).terminated = some result' →
        result' = result) := by
  rw [terminated_terminate]
  cases w.terminated with
  | none =>
    refine ⟨(fun hfalse => by cases hfalse), fun _ result' hresult => ?_⟩
    cases hresult
    rfl
  | some _ => exact ⟨fun _ => rfl, fun hfalse => by cases hfalse⟩

theorem pendingFrame_none (h : Inv value s) (hopen : s.watch.terminated = none)
    (hcontext : s.watch.newestContext = none) : pendingFrame s.log = none := by
  have hsame := (h.pends hopen).context
  rw [hcontext] at hsame
  simpa using hsame.symm

/-- A turn of a drain closes a watch only when nothing is pending, and calls no listener of a closed
one. -/
theorem loop_closes (h : Inv value s) (hterminated : w.terminated = s.watch.terminated)
    (hkept : w.kept = s.watch.kept) (hending : w.ending = s.watch.ending) :
    (s.watch.terminated.isSome = true → (s.deliver w.loop).watch.terminated = s.watch.terminated ∧
        (s.deliver w.loop).log = s.log) ∧
      (s.watch.terminated = none → ∀ result,
        (s.deliver w.loop).watch.terminated = some result →
          result = .ended ∧ s.watch.ending = true ∧ pendingFrame s.log = none) := by
  have hcontext : w.newestContext = s.watch.newestContext := by
    simp only [Watch.kept, Prod.mk.injEq] at hkept
    exact hkept.2.2.2.2.1
  obtain ⟨hrun, -⟩ | ⟨hrun, hopen, -, hidle, hyes⟩ | ⟨context, -, hopen, -, hrun⟩ := loop_cases w
  · rw [hrun]
    refine ⟨fun _ => ⟨hterminated, rfl⟩, fun hnone result hresult => ?_⟩
    have hsome : w.terminated = some result := hresult
    rw [hterminated, hnone] at hsome
    cases hsome
  · rw [hrun]
    have hnone : s.watch.terminated = none := hterminated ▸ hopen
    refine ⟨fun hsome => by simp [hnone] at hsome, fun _ result hresult => ?_⟩
    exact ⟨terminated_of_terminate.2 hopen result hresult, hending ▸ hyes,
      pendingFrame_none h hnone (hcontext ▸ hidle)⟩
  · rw [hrun]
    have hnone : s.watch.terminated = none := hterminated ▸ hopen
    refine ⟨fun hsome => by simp [hnone] at hsome, fun _ result hresult => ?_⟩
    have hsome : w.next.2.terminated = some result := hresult
    rw [(next_flags w).2.2.2.1, hopen] at hsome
    cases hsome

theorem microtask_cases (w : Watch Context Failure) :
    (w.microtask = ({ w with microtasks := w.microtasks - 1, scheduled := false }, none)) ∨
      w.running = false ∧ w.microtask = Watch.loop
        { w with microtasks := w.microtasks - 1, scheduled := false, running := true } := by
  unfold Watch.microtask
  by_cases hno : (w.running || w.terminated.isSome || !w.started) = true
  · rw [if_pos hno]
    exact .inl rfl
  · rw [if_neg hno]
    simp only [Bool.or_eq_true, Bool.not_eq_true', not_or, Bool.not_eq_true] at hno
    exact .inr ⟨hno.1.1, rfl⟩

theorem not_running (h : Scheduled w) (hrunning : w.running = false) :
    w.calls + w.reporting.length = 0 := by
  have hcalls := h.calls
  rw [hrunning] at hcalls
  simpa using hcalls

theorem closes_step (h : Inv value s) (hstep : Step toError s a s') : Closes toError s a s' := by
  have h' := inv_step h hstep
  apply closes_of h h'
  · intro hsome
    cases hstep with
    | advance call context hopen hfits =>
      simp [Watch.opened] at hopen
      simp [hopen.1] at hsome
    | ignored call context hclosed => exact ⟨terminated_advance _ _ _, rfl⟩
    | start => exact ⟨terminated_start _, rfl⟩
    | stop | abort | sourceEnd result => exact ⟨terminated_of_terminate.1 hsome, rfl⟩
    | observeAbort aborted =>
      have hnoop : s.watch.observeAbort aborted = s.watch := by simp [Watch.observeAbort, hsome]
      exact ⟨congrArg Watch.terminated hnoop, rfl⟩
    | signalAborted =>
      refine ⟨?_, rfl⟩
      dsimp only [Watch.signalAborted]
      split_ifs
      · exact terminated_of_terminate.1 hsome
      · rfl
    | endAfterDelivery =>
      have hnoop : s.watch.endAfterDelivery = s.watch := by simp [Watch.endAfterDelivery, hsome]
      exact ⟨congrArg Watch.terminated hnoop, rfl⟩
    | microtask hone =>
      obtain hrun | ⟨-, hrun⟩ := microtask_cases s.watch
      · rw [hrun]
        exact ⟨rfl, rfl⟩
      · rw [hrun]
        exact (loop_closes (w := { s.watch with
          microtasks := s.watch.microtasks - 1, scheduled := false, running := true }) h rfl rfl
            rfl).1 hsome
    | returned hone =>
      exact (loop_closes (w := { s.watch with calls := s.watch.calls - 1 }) h rfl rfl rfl).1 hsome
    | threw error hone =>
      refine ⟨?_, rfl⟩
      dsimp only [Watch.threw]
      rw [if_pos hsome]
    | reported error hone =>
      exact ⟨(terminated_of_terminate
        (w := { s.watch with reporting := s.watch.reporting.tail })).1 hsome, rfl⟩
  · intro hopen result hresult
    have hnever : ∀ {p : Prop}, s.watch.terminated = some result → p := by
      intro p hfalse
      rw [hopen] at hfalse
      cases hfalse
    cases hstep with
    | advance call context hopened hfits | ignored call context hclosed =>
      exact hnever ((terminated_advance _ _ _).symm.trans hresult)
    | start => exact hnever ((terminated_start _).symm.trans hresult)
    | stop | abort | sourceEnd given => exact terminated_of_terminate.2 hopen result hresult
    | observeAbort aborted =>
      dsimp only [Watch.observeAbort] at hresult
      split_ifs at hresult
      · exact hnever hresult
      · exact (terminated_of_terminate (w := { s.watch with abortListener := true })).2 hopen
          result hresult
      · exact hnever hresult
    | signalAborted =>
      dsimp only [Watch.signalAborted] at hresult
      split_ifs at hresult
      · exact terminated_of_terminate.2 hopen result hresult
      · exact hnever hresult
    | endAfterDelivery =>
      dsimp only [Watch.endAfterDelivery] at hresult
      split_ifs at hresult with hno hidle
      · exact hnever hresult
      · simp only [Bool.and_eq_true, Bool.not_eq_true', isNone_iff_eq_none] at hidle
        have hcalls := not_running h.scheduled hidle.1
        refine ⟨?_, pendingFrame_none h hopen hidle.2, by omega⟩
        exact (terminated_of_terminate (w := { s.watch with ending := true })).2 hopen
          result hresult
      · exact hnever hresult
    | microtask hone =>
      obtain hrun | ⟨hrunning, hrun⟩ := microtask_cases s.watch
      · rw [hrun] at hresult
        exact hnever hresult
      · rw [hrun] at hresult
        obtain ⟨hended, hending, hidle⟩ := (loop_closes (w := { s.watch with
          microtasks := s.watch.microtasks - 1, scheduled := false, running := true }) h rfl rfl
            rfl).2 hopen result hresult
        have hcalls := not_running h.scheduled hrunning
        exact ⟨hended, hending, hidle, by omega⟩
    | returned hone =>
      obtain ⟨hended, hending, hidle⟩ := (loop_closes (w := { s.watch with
        calls := s.watch.calls - 1 }) h rfl rfl rfl).2 hopen result hresult
      have hcalls := (awaited h.scheduled (lt_of_lt_of_le hone (Nat.le_add_right _ _))).2
      exact ⟨hended, hending, hidle, by omega⟩
    | threw error hone =>
      dsimp only [Watch.threw] at hresult
      split_ifs at hresult
      · exact hnever hresult
      · exact hnever hresult
    | reported error hone =>
      exact ⟨error, hone, (terminated_of_terminate
        (w := { s.watch with reporting := s.watch.reporting.tail })).2 hopen result hresult⟩

theorem loop_adds (hterminated : w.terminated = s.watch.terminated) (hcalls : w.calls = 0) :
    (s.deliver w.loop).log = s.log ∨
      ∃ call context, (s.deliver w.loop).log = .called call context :: s.log ∧
        s.watch.terminated = none ∧ (s.deliver w.loop).watch.calls = 1 := by
  obtain ⟨hrun, -⟩ | ⟨hrun, -⟩ | ⟨context, -, hopen, -, hrun⟩ := loop_cases w
  · rw [hrun]
    exact .inl rfl
  · rw [hrun]
    exact .inl rfl
  · rw [hrun]
    refine .inr ⟨w.next.1, context, rfl, hterminated ▸ hopen, ?_⟩
    have hsame := (next_flags w).2.2.2.2.2.2.1
    simp [deliver, hsame, hcalls]

theorem adds_step (h : Inv value s) (hstep : Step toError s a s') : Adds s a s' := by
  cases hstep with
  | advance call context hopen hfits => exact .inr (.inl ⟨call, context, rfl, hopen, rfl⟩)
  | microtask hone =>
    obtain hrun | ⟨hrunning, hrun⟩ := microtask_cases s.watch
    · rw [hrun]
      exact .inl rfl
    · have hidle := not_running h.scheduled hrunning
      obtain hsame | ⟨call, context, hlog, hopen, hone⟩ := loop_adds (s := s) (w := { s.watch with
        microtasks := s.watch.microtasks - 1, scheduled := false, running := true }) rfl
          (Nat.eq_zero_of_add_eq_zero_right hidle)
      · rw [hrun]
        exact .inl hsame
      · rw [hrun]
        exact .inr (.inr ⟨call, context, hlog, hopen, hone, .inl ⟨rfl, hidle⟩⟩)
  | returned hone =>
    have hcalls := (awaited h.scheduled (lt_of_lt_of_le hone (Nat.le_add_right _ _))).2
    have hrunning : s.watch.calls = 1 := by omega
    obtain hsame | ⟨call, context, hlog, hopen, hone⟩ := loop_adds (s := s)
      (w := { s.watch with calls := s.watch.calls - 1 }) rfl (by simp [hrunning])
    · exact .inl hsame
    · exact .inr (.inr ⟨call, context, hlog, hopen, hone, .inr ⟨rfl, hrunning⟩⟩)
  | _ => exact .inl rfl

/-- At rest nothing is pending and the source has not ended. A retirement is still to be reported
only while a failure was the last call. -/
theorem at_rest (h : Inv value s) (hrest : AtRest s.watch) :
    pendingFrame s.log = none ∧ s.watch.ending = false ∧
      (unreported s.log = true → afterFailure s.log = true) := by
  have hscheduled : s.watch.scheduled = false := by
    by_contra hyes
    simp only [Bool.not_eq_false] at hyes
    have hmicrotasks := h.scheduled.microtasks
    simp [hyes, hrest.microtasks] at hmicrotasks
  have hrunning : s.watch.running = false := by
    by_contra hyes
    simp only [Bool.not_eq_false] at hyes
    have hcalls := h.scheduled.calls
    simp [hyes, hrest.calls, hrest.reporting] at hcalls
  have hcontext : s.watch.newestContext = none := by
    by_contra hsome
    have hwaits := h.scheduled.waits hrest.terminated hrest.started
      (isSome_iff_ne_none.mpr hsome)
    simp [hscheduled, hrunning] at hwaits
  have hidle := pendingFrame_none h hrest.terminated hcontext
  refine ⟨hidle, ?_, fun hretired => ?_⟩
  · by_contra hyes
    simp only [Bool.not_eq_false] at hyes
    have hends := h.scheduled.ends hrest.terminated hyes
    simp [hcontext, hrunning] at hends
  · have hpends := h.pends hrest.terminated
    cases hreplace : s.watch.replace with
    | true => exact (hpends.replacing hreplace).2.2 hidle
    | false =>
      have hreported := (hpends.settled hreplace hidle).2.2
      simp [hreported] at hretired

/-! ### Delivery -/

/-- What is promised of a watch, in one state and of every step from it. -/
structure Delivery (toError : Failure → Failure) (value : Json) (s : Watching Context Failure) :
    Prop where
  delivered : Delivered value s.log
  one : s.watch.calls + s.watch.reporting.length ≤ 1
  rest : AtRest s.watch → pendingFrame s.log = none ∧ s.watch.ending = false ∧
    (unreported s.log = true → afterFailure s.log = true)
  step : ∀ a s', Step toError s a s' → Adds s a s' ∧ Closes toError s a s'

/-- However frames, the handle, aborts, microtasks and completions interleave, a watch delivers. -/
theorem watch_delivery (toError : Failure → Failure) (value : Json) (s : Watching Context Failure)
    (h : (system toError value).Reachable s) : Delivery toError value s := by
  have hinv : Inv value s := by
    apply h.invariant
    · rintro s rfl
      refine ⟨⟨⟨rfl, rfl, fun _ => rfl, (fun hfalse => by cases hfalse)⟩, rfl,
        (fun hfalse => by cases hfalse), (fun _ hfalse => by cases hfalse),
        (fun _ hfalse => by cases hfalse)⟩, trivial, fun _ => pends_new value⟩
    · exact fun s a s' hI _ hstep => inv_step hI hstep
  refine ⟨hinv.delivered, ?_, at_rest hinv, fun a s' hstep => ?_⟩
  · rw [hinv.scheduled.calls]
    split_ifs
    · exact le_refl 1
    · exact Nat.zero_le 1
  · exact ⟨adds_step hinv hstep, closes_step hinv hstep⟩

/-- A watch whose listener is in its first call. -/
def calling : Watching Unit Unit :=
  let call : WatchValueCall := ⟨.bool true, [.replace (.bool true)], true⟩
  let taken : Watching Unit Unit :=
    { watch := (Watch.new .null).start.advance (.value call) ()
      source := call.value
      log := [.frame (.value call)] }
  taken.deliver taken.watch.microtask

/-- Meanwhile two frames come, which are folded, and the source ends. -/
def folded : Watching Unit Unit :=
  let next : WatchCall Unit := .value ⟨.null, [.replace .null], false⟩
  let last : WatchCall Unit := .value ⟨.bool false, [.replace (.bool false)], false⟩
  { watch := ((calling.watch.advance next ()).advance last ()).endAfterDelivery
    source := .bool false
    log := .frame last :: .frame next :: calling.log }

def ended : Watching Unit Unit :=
  let called := folded.deliver folded.watch.returned
  called.deliver called.watch.returned

theorem watch_delivery_ended : ended.log.length = 5 ∧ ended.watch.closed = some .ended ∧
    Delivery id .null ended := by
  refine ⟨rfl, rfl, watch_delivery id .null ended ⟨new .null, rfl, ?_⟩⟩
  have hstarted : (@system Unit Unit id .null).Steps (fun _ _ => True) (new .null) _ :=
    (System.Steps.refl _).tail (Step.start _) trivial
  have htaken := hstarted.tail (Step.advance _
    (.value ⟨.bool true, [.replace (.bool true)], true⟩) () rfl rfl) trivial
  have hcalling : system id .null |>.Steps (fun _ _ => True) (new .null) calling :=
    htaken.tail (Step.microtask _ one_pos) trivial
  have hnext := hcalling.tail (Step.advance calling
    (.value ⟨.null, [.replace .null], false⟩) () rfl rfl) trivial
  have hlast := hnext.tail (Step.advance _
    (.value ⟨.bool false, [.replace (.bool false)], false⟩) () rfl rfl) trivial
  have hfolded : system id .null |>.Steps (fun _ _ => True) (new .null) folded :=
    hlast.tail (Step.endAfterDelivery _) trivial
  exact (hfolded.tail (Step.returned _ one_pos) trivial).tail
    (Step.returned _ one_pos) trivial

end Watching

end KnightCode
