import KnightCode.Library.System
import KnightCode.Watch.Watch

/-!
# Watch delivery

The acts of the source, of the listener and of the microtask queue interleave freely. While the
watch is open, what it keeps pending leads from the value of the last value call to the value of the
source, or a failure lies between the two and the next value call replaces the root.
-/

namespace KnightCode

open Delta List

variable {Context Failure : Type}

namespace Watching
variable {w : Watch Context Failure}

/-! ### The history -/

abbrev Log (Context Failure : Type) := List (WatchEvent Context Failure)

def lastValue (value : Json) : Log Context Failure → Json
  | [] => value
  | .called (.value call) _ :: _ => call.value
  | _ :: rest => lastValue value rest

def unreported : Log Context Failure → Bool
  | [] => false
  | .called (.value _) _ :: _ => false
  | .frame (.value call) :: rest => call.retired || unreported rest
  | _ :: rest => unreported rest

def afterFailure : Log Context Failure → Bool
  | [] => false
  | .called (.value _) _ :: _ => false
  | .called (.failed _) _ :: _ => true
  | .frame _ :: rest => afterFailure rest

/-- The newest frame since the last call. -/
def pendingFrame : Log Context Failure → Option (WatchCall Failure)
  | .frame call :: _ => some call
  | _ => none

/-- Every call delivers the newest frame then. A value call's operations lead to its value from that
of the value call before, or replace the root after a failed call, and it reports a retirement when
there was one since. -/
def Delivered (value : Json) : Log Context Failure → Prop
  | [] => True
  | .frame _ :: rest => Delivered value rest
  | .called (.failed error) _ :: rest =>
    pendingFrame rest = some (.failed error) ∧ Delivered value rest
  | .called (.value call) _ :: rest =>
    (∃ frame, pendingFrame rest = some (.value frame) ∧ frame.value = call.value) ∧
      applyOps (lastValue value rest) call.ops = .ok call.value ∧
      (afterFailure rest = true → call.ops = [.replace call.value]) ∧
      call.retired = unreported rest ∧ Delivered value rest

/-! ### Steps -/

/-- A value frame's operations turn the source's value into its own. They are a tracker's:
each segment is a key of the object, or an index of the array, it is used on. -/
def Fits (source : Json) : WatchCall Failure → Prop
  | .value call => applyCanonical source call.ops = some call.value
  | .failed _ => True

/-- What an act does; a microtask, a completion and a report need one in progress. -/
inductive Step (toError : Failure → Failure) :
    Watching Context Failure → WatchAct Context Failure → Watching Context Failure → Prop
  | advance (s : Watching Context Failure) (call : WatchCall Failure) (context : Context)
      (h : s.watch.opened = true) (hfits : Fits s.source call) :
    Step toError s (.advance call context)
      { watch := s.watch.advance call context
        source := call.valueAfter s.source
        log := .frame call :: s.log }
  | ignored (s : Watching Context Failure) (call : WatchCall Failure) (context : Context)
      (h : s.watch.opened = false) :
    Step toError s (.advance call context) { s with watch := s.watch.advance call context }
  | start (s : Watching Context Failure) : Step toError s .start { s with watch := s.watch.start }
  | stop (s : Watching Context Failure) : Step toError s .stop { s with watch := s.watch.stop }
  | abort (s : Watching Context Failure) : Step toError s .abort { s with watch := s.watch.abort }
  | observeAbort (s : Watching Context Failure) (aborted : Bool) :
    Step toError s (.observeAbort aborted) { s with watch := s.watch.observeAbort aborted }
  | signalAborted (s : Watching Context Failure) :
    Step toError s .signalAborted { s with watch := s.watch.signalAborted }
  | sourceEnd (s : Watching Context Failure) (result : WatchEnd Failure) :
    Step toError s (.sourceEnd result) { s with watch := s.watch.terminate result }
  | endAfterDelivery (s : Watching Context Failure) :
    Step toError s .endAfterDelivery { s with watch := s.watch.endAfterDelivery }
  | microtask (s : Watching Context Failure) (h : 0 < s.watch.microtasks) :
    Step toError s .microtask (s.deliver s.watch.microtask)
  | returned (s : Watching Context Failure) (h : 0 < s.watch.calls) :
    Step toError s .returned (s.deliver s.watch.returned)
  | threw (s : Watching Context Failure) (error : Failure) (h : 0 < s.watch.calls) :
    Step toError s (.threw error) { s with watch := s.watch.threw error }
  | reported (s : Watching Context Failure) (error : Failure)
      (h : s.watch.reporting.head? = some error) :
    Step toError s .reported { s with watch := s.watch.reported toError error }

def system (toError : Failure → Failure) (value : Json) :
    System (Watching Context Failure) (WatchAct Context Failure) where
  init := (· = new value)
  step := Step toError

/-! ### Scheduling -/

/-- What holds of the flags whether or not a drain is at work. -/
structure Flags (w : Watch Context Failure) : Prop where
  microtasks : w.microtasks = if w.scheduled then 1 else 0
  closed : w.closed = w.terminated
  listener : w.terminated = none → w.listener = w.started
  ended : w.terminated.isSome = true → w.listener = false ∧ w.newestContext = none

/-- The flags agree with what is queued and awaited, and nothing pending is forgotten. -/
structure Scheduled (w : Watch Context Failure) : Prop extends Flags w where
  calls : w.calls + w.reporting.length = if w.running then 1 else 0
  begun : w.running = true → w.started = true
  waits : w.terminated = none → w.started = true → w.newestContext.isSome = true →
    w.scheduled = true ∨ w.running = true
  ends : w.terminated = none → w.ending = true →
    w.newestContext.isSome = true ∨ w.running = true

/-- A drain is between two calls. -/
structure Draining (w : Watch Context Failure) : Prop extends Flags w where
  running : w.running = true
  started : w.started = true
  calls : w.calls = 0
  reporting : w.reporting = []

theorem scheduled_schedule (h : Flags w)
    (hcalls : w.calls + w.reporting.length = if w.running then 1 else 0)
    (hbegun : w.running = true → w.started = true) (hends : w.terminated = none → w.ending = true →
      w.newestContext.isSome = true ∨ w.running = true) : Scheduled w.schedule := by
  unfold Watch.schedule
  split_ifs with hno
  · refine ⟨h, hcalls, hbegun, fun hopen _ _ => ?_, hends⟩
    simpa [hopen] using hno
  · simp only [Bool.or_eq_true, not_or, Bool.not_eq_true] at hno
    refine ⟨⟨?_, h.closed, h.listener, h.ended⟩, hcalls, hbegun, fun _ _ _ => .inl rfl, hends⟩
    simp [h.microtasks, hno.1.1]

theorem scheduled_pending (h : Flags w)
    (hcalls : w.calls + w.reporting.length = if w.running then 1 else 0)
    (hbegun : w.running = true → w.started = true) (hends : w.terminated = none → w.ending = true →
      w.newestContext.isSome = true ∨ w.running = true) : Scheduled w.pending := by
  unfold Watch.pending
  split_ifs with hstarted
  · exact scheduled_schedule h hcalls hbegun hends
  · exact ⟨h, hcalls, hbegun, fun _ hyes _ => absurd hyes hstarted, hends⟩

theorem flags_terminate (h : Flags w) (result : WatchEnd Failure) : Flags (w.terminate result) := by
  unfold Watch.terminate
  split_ifs with hterminated
  · exact h
  · have hopen : w.terminated = none := by simpa using hterminated
    have hclosed : w.closed = none := h.closed.trans hopen
    exact ⟨h.microtasks, by simp [hclosed], fun hfalse => (by cases hfalse),
      fun _ => ⟨rfl, rfl⟩⟩

theorem terminated_terminate (w : Watch Context Failure) (result : WatchEnd Failure) :
    (w.terminate result).terminated = w.terminated.or (some result) := by
  unfold Watch.terminate
  cases hterminated : w.terminated <;> simp [hterminated]

theorem terminate_runtime (w : Watch Context Failure) (result : WatchEnd Failure) :
    (w.terminate result).calls = w.calls ∧ (w.terminate result).reporting = w.reporting ∧
      (w.terminate result).running = w.running ∧ (w.terminate result).started = w.started := by
  unfold Watch.terminate
  split_ifs <;> exact ⟨rfl, rfl, rfl, rfl⟩

theorem scheduled_terminate (h : Scheduled w) (result : WatchEnd Failure) :
    Scheduled (w.terminate result) := by
  obtain ⟨hcalls, hreporting, hrunning, hstarted⟩ := terminate_runtime w result
  have hended : ∀ {p : Prop}, (w.terminate result).terminated = none → p := by
    intro p hfalse
    rw [terminated_terminate] at hfalse
    cases hterminated : w.terminated <;> simp [hterminated] at hfalse
  refine ⟨flags_terminate h.toFlags result, ?_, ?_, fun hfalse => hended hfalse,
    fun hfalse => hended hfalse⟩
  · rw [hcalls, hreporting, hrunning]
    exact h.calls
  · rw [hrunning, hstarted]
    exact h.begun

theorem scheduled_advance (h : Scheduled w) (call : WatchCall Failure) (context : Context) :
    Scheduled (w.advance call context) := by
  have hopened : w.opened = true → w.terminated = none ∧ w.ending = false := by
    simp [Watch.opened]
  cases call with
  | failed error =>
    simp only [Watch.advance, Watch.fail]
    split_ifs with hopen
    · obtain ⟨hnone, -⟩ := hopened hopen
      apply scheduled_pending
      · exact ⟨h.microtasks, h.closed, h.listener, fun hsome => by simp [hnone] at hsome⟩
      · exact h.calls
      · exact h.begun
      · exact fun _ _ => .inl rfl
    · exact h
  | value call =>
    simp only [Watch.advance]
    by_cases hopen : w.opened = true
    · obtain ⟨hnone, -⟩ := hopened hopen
      rw [if_pos hopen]
      apply scheduled_pending
      · exact ⟨h.microtasks, h.closed, h.listener, fun hsome => by simp [hnone] at hsome⟩
      · exact h.calls
      · exact h.begun
      · exact fun _ _ => .inl rfl
    · rw [if_neg hopen]
      exact h

theorem scheduled_start (h : Scheduled w) : Scheduled w.start := by
  unfold Watch.start
  split_ifs with hno
  · exact h
  · simp only [Bool.or_eq_true, not_or, Bool.not_eq_true] at hno
    apply scheduled_schedule
    · exact ⟨h.microtasks, h.closed, fun _ => rfl, fun hsome => by simp [hno.2] at hsome⟩
    · exact h.calls
    · exact fun _ => rfl
    · exact h.ends

theorem scheduled_observeAbort (h : Scheduled w) (aborted : Bool) :
    Scheduled (w.observeAbort aborted) := by
  have hobserved : Scheduled { w with abortListener := true } :=
    ⟨{ h with }, h.calls, h.begun, h.waits, h.ends⟩
  unfold Watch.observeAbort
  split_ifs
  · exact h
  · exact scheduled_terminate hobserved _
  · exact hobserved

theorem scheduled_signalAborted (h : Scheduled w) : Scheduled w.signalAborted := by
  unfold Watch.signalAborted
  split_ifs
  · exact scheduled_terminate h _
  · exact h

theorem scheduled_endAfterDelivery (h : Scheduled w) : Scheduled w.endAfterDelivery := by
  have hcalls := h.calls
  have hflags : Flags { w with ending := true } := { h with }
  unfold Watch.endAfterDelivery
  split_ifs with hno hidle
  · exact h
  · obtain ⟨hcalls', hreporting, hrunning, hstarted⟩ :=
      terminate_runtime { w with ending := true } .ended
    have hopen : w.terminated = none := by
      simp only [Bool.or_eq_true, not_or, Bool.not_eq_true] at hno
      simpa using hno.1
    have hended : ∀ {p : Prop},
        (({ w with ending := true } : Watch Context Failure).terminate .ended).terminated = none →
          p := by
      intro p hfalse
      simp [terminated_terminate, hopen] at hfalse
    refine ⟨flags_terminate hflags _, ?_, ?_, fun hfalse => hended hfalse,
      fun hfalse => hended hfalse⟩
    · rw [hcalls', hreporting, hrunning]
      exact hcalls
    · rw [hrunning, hstarted]
      exact h.begun
  · refine ⟨hflags, hcalls, h.begun, h.waits, fun _ _ => ?_⟩
    simp only [Bool.and_eq_true, Bool.not_eq_true', not_and, Bool.not_eq_true,
      Option.isNone_eq_false_iff] at hidle
    by_cases hrunning : w.running = true
    · exact .inr hrunning
    · exact .inl (hidle (by simpa using hrunning))

theorem flags_loop {next : Watch Context Failure} (h : Flags w)
    (hnext : next.scheduled = w.scheduled ∧ next.microtasks = w.microtasks ∧
      next.closed = w.closed ∧ next.terminated = w.terminated ∧ next.listener = w.listener ∧
      next.started = w.started) (hopen : w.terminated = none) : Flags next := by
  obtain ⟨hscheduled, hmicrotasks, hclosed, hterminated, hlistener, hstarted⟩ := hnext
  refine ⟨?_, ?_, fun _ => ?_, fun hsome => ?_⟩
  · rw [hmicrotasks, hscheduled]
    exact h.microtasks
  · rw [hclosed, hterminated]
    exact h.closed
  · rw [hlistener, hstarted]
    exact h.listener hopen
  · rw [hterminated, hopen] at hsome
    cases hsome

theorem next_flags (w : Watch Context Failure) :
    w.next.2.scheduled = w.scheduled ∧ w.next.2.microtasks = w.microtasks ∧
      w.next.2.closed = w.closed ∧ w.next.2.terminated = w.terminated ∧
      w.next.2.listener = w.listener ∧ w.next.2.started = w.started ∧
      w.next.2.calls = w.calls ∧ w.next.2.reporting = w.reporting ∧
      w.next.2.running = w.running := by
  unfold Watch.next Watch.nextAfterFailure
  split_ifs
  · cases w.failure <;> exact ⟨rfl, rfl, rfl, rfl, rfl, rfl, rfl, rfl, rfl⟩
  · cases w.lone <;> exact ⟨rfl, rfl, rfl, rfl, rfl, rfl, rfl, rfl, rfl⟩

theorem loop_cases (w : Watch Context Failure) :
    (w.loop = ({ w with running := false }, none) ∧
        (w.terminated.isSome = true ∨ w.listener = false ∨
          w.newestContext = none ∧ w.ending = false)) ∨
      (w.loop = ({ w.terminate .ended with running := false }, none) ∧ w.terminated = none ∧
        w.listener = true ∧ w.newestContext = none ∧ w.ending = true) ∨
      ∃ context, w.newestContext = some context ∧ w.terminated = none ∧ w.listener = true ∧
        w.loop = ({ w.next.2 with
          value := w.next.1.valueAfter w.next.2.value
          calls := w.next.2.calls + 1 }, some (w.next.1, context)) := by
  unfold Watch.loop
  by_cases hstop : (w.terminated.isSome || !w.listener) = true
  · rw [if_pos hstop]
    simp only [Bool.or_eq_true, Bool.not_eq_true'] at hstop
    exact .inl ⟨rfl, hstop.imp_right .inl⟩
  · rw [if_neg hstop]
    simp only [Bool.or_eq_true, Bool.not_eq_true', not_or, Bool.not_eq_false] at hstop
    obtain ⟨hterminated, hlistener⟩ := hstop
    have hopen : w.terminated = none := by simpa using hterminated
    cases hcontext : w.newestContext with
    | none =>
      cases hending : w.ending with
      | true => exact .inr (.inl ⟨by simp, hopen, hlistener, rfl, rfl⟩)
      | false => exact .inl ⟨by simp [hcontext, hending], .inr (.inr ⟨rfl, rfl⟩)⟩
    | some context => exact .inr (.inr ⟨context, rfl, hopen, hlistener, rfl⟩)

theorem scheduled_loop (h : Draining w) : Scheduled w.loop.1 := by
  obtain ⟨hrun, hcases⟩ | ⟨hrun, hopen, -, hcontext, hending⟩ | ⟨context, hcontext, hopen,
    hlistener, hrun⟩ := loop_cases w
  · rw [hrun]
    have hidle : w.terminated = none → w.newestContext = none ∧ w.ending = false := by
      intro hnone
      obtain hterminated | hlistener | hidle := hcases
      · simp [hnone] at hterminated
      · simp [h.listener hnone, h.started] at hlistener
      · exact hidle
    refine ⟨{ h with }, ?_,
      (fun hfalse => by cases hfalse),
      fun hnone _ hsome => ?_, fun hnone hending => ?_⟩
    · simp [h.calls, h.reporting]
    · have hcontext : w.newestContext.isSome = true := hsome
      simp [(hidle hnone).1] at hcontext
    · have hyes : w.ending = true := hending
      simp [(hidle hnone).2] at hyes
  · rw [hrun]
    obtain ⟨hcalls, hreporting, -, -⟩ := terminate_runtime w .ended
    have hflags := flags_terminate h.toFlags .ended
    have hended : (w.terminate .ended).terminated = some .ended := by
      simp [terminated_terminate, hopen]
    refine ⟨{ hflags with }, ?_,
      (fun hfalse => by cases hfalse),
      fun hnone _ _ => ?_, fun hnone _ => ?_⟩
    · simp [hcalls, hreporting, h.calls, h.reporting]
    · exact absurd (hended.symm.trans hnone) (by simp)
    · exact absurd (hended.symm.trans hnone) (by simp)
  · rw [hrun]
    obtain ⟨hscheduled, hmicrotasks, hclosed, hterminated, hlistener', hstarted, hcalls,
      hreporting, hrunning⟩ := next_flags w
    have hflags := flags_loop h.toFlags
      ⟨hscheduled, hmicrotasks, hclosed, hterminated, hlistener', hstarted⟩ hopen
    have hrun' : w.next.2.running = true := hrunning.trans h.running
    refine ⟨⟨hflags.microtasks, hflags.closed, hflags.listener, fun hsome => ?_⟩, ?_,
      fun _ => hstarted.trans h.started, fun _ _ _ => .inr hrun', fun _ _ => .inr hrun'⟩
    · have hsome' : w.next.2.terminated.isSome = true := hsome
      simp [hterminated, hopen] at hsome'
    · simp [hcalls, hreporting, hrun', h.calls, h.reporting]

theorem scheduled_microtask (h : Scheduled w) (hone : 0 < w.microtasks) :
    Scheduled w.microtask.1 := by
  have hscheduled : w.scheduled = true := by
    by_contra hno
    rw [h.microtasks, if_neg hno] at hone
    exact lt_irrefl _ hone
  have hmicrotasks : w.microtasks - 1 = 0 := by
    rw [h.microtasks, if_pos hscheduled]
  have hflags : Flags { w with microtasks := w.microtasks - 1, scheduled := false } :=
    ⟨hmicrotasks, h.closed, h.listener, h.ended⟩
  unfold Watch.microtask
  by_cases hno : (w.running || w.terminated.isSome || !w.started) = true
  · rw [if_pos hno]
    simp only [Bool.or_eq_true, Bool.not_eq_true'] at hno
    refine ⟨hflags, h.calls, h.begun, fun hnone hstarted _ => ?_, h.ends⟩
    obtain (hrunning | hterminated) | hfalse := hno
    · exact .inr hrunning
    · simp [show w.terminated = none from hnone] at hterminated
    · exact absurd (hfalse.symm.trans hstarted) (by simp)
  · rw [if_neg hno]
    simp only [Bool.or_eq_true, Bool.not_eq_true', not_or, Bool.not_eq_true,
      Bool.not_eq_false] at hno
    obtain ⟨⟨hrunning, -⟩, hstarted⟩ := hno
    have hcalls := h.calls
    simp only [hrunning, Bool.false_eq_true, if_false, Nat.add_eq_zero_iff,
      length_eq_zero_iff] at hcalls
    exact scheduled_loop ⟨{ hflags with }, rfl,
      hstarted, hcalls.1, hcalls.2⟩

theorem awaited (h : Scheduled w) (hone : 0 < w.calls + w.reporting.length) :
    w.running = true ∧ w.calls + w.reporting.length = 1 := by
  have hcalls := h.calls
  by_cases hrunning : w.running = true
  · rw [if_pos hrunning] at hcalls
    exact ⟨hrunning, hcalls⟩
  · rw [if_neg hrunning] at hcalls
    exact absurd hcalls hone.ne'

theorem scheduled_reported (h : Scheduled w) (toError : Failure → Failure) {error : Failure}
    (hone : w.reporting.head? = some error) : Scheduled (w.reported toError error) := by
  obtain ⟨rest, hreporting⟩ : ∃ rest, w.reporting = error :: rest := by
    cases hlist : w.reporting with
    | nil => simp [hlist] at hone
    | cons head rest =>
      rw [hlist] at hone
      cases hone
      exact ⟨rest, rfl⟩
  obtain ⟨-, hsum⟩ := awaited h (by simp [hreporting])
  have hflags : Flags { w with reporting := w.reporting.tail } :=
    { h with }
  have hterminated := flags_terminate hflags (.listenerError (toError error))
  obtain ⟨hcalls, hreporting', -, -⟩ :=
    terminate_runtime { w with reporting := w.reporting.tail } (.listenerError (toError error))
  have hclosed : (({ w with reporting := w.reporting.tail } : Watch Context Failure).terminate
      (.listenerError (toError error))).terminated.isSome = true := by
    rw [terminated_terminate]
    cases w.terminated <;> rfl
  have hended : ∀ {p : Prop}, (({ w with reporting := w.reporting.tail } :
      Watch Context Failure).terminate (.listenerError (toError error))).terminated = none → p := by
    intro p hnone
    rw [hnone] at hclosed
    cases hclosed
  have hrest : w.calls + w.reporting.tail.length = 0 := by
    rw [hreporting] at hsum ⊢
    simp only [length_cons, tail_cons] at hsum ⊢
    omega
  exact ⟨{ hterminated with },
    (congrArg₂ (fun calls reports => calls + length reports) hcalls hreporting').trans hrest,
    (fun hfalse => by cases hfalse), fun hnone => hended hnone, fun hnone => hended hnone⟩

theorem scheduled_threw (h : Scheduled w) (error : Failure) (hone : 0 < w.calls) :
    Scheduled (w.threw error) := by
  obtain ⟨hrunning, hsum⟩ := awaited h (lt_of_lt_of_le hone (Nat.le_add_right _ _))
  have hcalls : w.calls = 1 ∧ w.reporting = [] := by
    rw [← length_eq_zero_iff]
    omega
  unfold Watch.threw
  by_cases hterminated : w.terminated.isSome = true
  · rw [if_pos hterminated]
    have hended : ∀ {p : Prop}, w.terminated = none → p := by
      intro p hnone
      rw [hnone] at hterminated
      cases hterminated
    exact ⟨{ h with }, by simp [hcalls.1, hcalls.2],
      (fun hfalse => by cases hfalse), fun hnone => hended hnone, fun hnone => hended hnone⟩
  · rw [if_neg hterminated]
    exact ⟨{ h with }, by simp [hcalls.1, hcalls.2, hrunning],
      h.begun, h.waits, h.ends⟩

theorem scheduled_returned (h : Scheduled w) (hone : 0 < w.calls) : Scheduled w.returned.1 := by
  obtain ⟨hrunning, hsum⟩ := awaited h (lt_of_lt_of_le hone (Nat.le_add_right _ _))
  have hcalls : w.calls - 1 = 0 ∧ w.reporting = [] := by
    rw [← length_eq_zero_iff]
    omega
  exact scheduled_loop ⟨{ h with }, hrunning, h.begun hrunning,
    hcalls.1, hcalls.2⟩

end Watching

end KnightCode
