import KnightCode.Watch.Watch

/-!
# Native watches

A native source hands its watch values without operations, and each value is a call of its own. The
lifecycle is stated over what the watch keeps pending, so that the array of a `NativeWatch` and the
queue it stands for run under the same acts.
-/

namespace KnightCode

variable {V C E Q T K : Type}

inductive NativeWatchCall (T E : Type)
  | value (value : T)
  | failed (error : E)
  deriving DecidableEq

/-- The members a watch class adds to the lifecycle. Values `V` with contexts `C` go in; values `T`
and contexts `K` come out. -/
structure NativeQueue (V C E Q T K : Type) where
  /-- `replaced` is what `replace()` returns at this time. -/
  advance : (value replaced : V) → C → Q → Q
  fail : E → C → Q → Q
  pendingContext : Q → Option K
  next : Q → Option (NativeWatchCall T E × Q)
  release : Q → Q

/-! ### The lifecycle -/

/-- What the lifecycle knows besides the value and what is pending. -/
structure WatchFlags (E : Type) where
  detach : Bool
  report : Bool
  listener : Bool
  /-- What the promise `closed` was resolved with. -/
  closed : Option (WatchEnd E)
  started : Bool
  scheduled : Bool
  running : Bool
  ending : Bool
  /-- `#end` -/
  terminated : Option (WatchEnd E)
  abortListener : Bool
  /-- Queued microtasks, awaited listener calls, and errors being reported. -/
  microtasks : ℕ
  calls : ℕ
  reporting : List E

namespace WatchFlags

def new : WatchFlags E where
  detach := true
  report := true
  listener := false
  closed := none
  started := false
  scheduled := false
  running := false
  ending := false
  terminated := none
  abortListener := false
  microtasks := 0
  calls := 0
  reporting := []

def opened (f : WatchFlags E) : Bool :=
  f.terminated.isNone && !f.ending

def schedule (f : WatchFlags E) : WatchFlags E :=
  if f.scheduled || f.running || f.terminated.isSome then f
  else { f with scheduled := true, microtasks := f.microtasks + 1 }

/-- Something became pending. -/
def pending (f : WatchFlags E) : WatchFlags E :=
  if f.started then f.schedule else f

def terminate (result : WatchEnd E) (f : WatchFlags E) : WatchFlags E :=
  { f with
    terminated := some result
    detach := false
    report := false
    listener := false
    abortListener := false
    closed := f.closed.or (some result) }

end WatchFlags

structure WatchLifecycle (Q T E : Type) where
  flags : WatchFlags E
  value : T
  queue : Q

/-- A watch, and the calls its listener got with their contexts, newest first. -/
structure NativeWatching (Q T K E : Type) where
  watch : WatchLifecycle Q T E
  log : List (NativeWatchCall T E × K)

namespace WatchLifecycle

variable (q : NativeQueue V C E Q T K) (w : WatchLifecycle Q T E)

def terminate (result : WatchEnd E) : WatchLifecycle Q T E :=
  if w.flags.terminated.isSome then w
  else { w with flags := w.flags.terminate result, queue := q.release w.queue }

def advance (value replaced : V) (context : C) : WatchLifecycle Q T E :=
  if w.flags.opened then
    { w with flags := w.flags.pending, queue := q.advance value replaced context w.queue }
  else w

def fail (error : E) (context : C) : WatchLifecycle Q T E :=
  if w.flags.opened then
    { w with flags := w.flags.pending, queue := q.fail error context w.queue }
  else w

def start : WatchLifecycle Q T E :=
  if w.flags.started || w.flags.terminated.isSome then w
  else { w with flags := { w.flags with started := true, listener := true }.schedule }

/-- Follow a signal, which may be aborted already. -/
def observeAbort (aborted : Bool) : WatchLifecycle Q T E :=
  if w.flags.abortListener || w.flags.terminated.isSome then w
  else if aborted then terminate q { w with flags := { w.flags with abortListener := true } } .aborted
  else { w with flags := { w.flags with abortListener := true } }

/-- The source sends nothing more after its last frames. -/
def endAfterDelivery : WatchLifecycle Q T E :=
  if w.flags.terminated.isSome || w.flags.ending then w
  else if !w.flags.running && (q.pendingContext w.queue).isNone then
    terminate q { w with flags := { w.flags with ending := true } } .ended
  else { w with flags := { w.flags with ending := true } }

/-- The drain leaves its loop. -/
def rest : WatchLifecycle Q T E :=
  { w with flags := { w.flags with running := false } }

def called (call : NativeWatchCall T E) (queue : Q) : WatchLifecycle Q T E where
  flags := { w.flags with calls := w.flags.calls + 1 }
  value := match call with
    | .value value => value
    | .failed _ => w.value
  queue := queue

/-- The loop of a drain, up to its next await: the call it makes, with its context. -/
def loop : WatchLifecycle Q T E × Option (NativeWatchCall T E × K) :=
  if w.flags.terminated.isSome || !w.flags.listener then (w.rest, none)
  else
    match q.pendingContext w.queue, q.next w.queue with
    | some context, some (call, queue) => (w.called call queue, some (call, context))
    | _, _ => ((if w.flags.ending then terminate q w .ended else w).rest, none)

/-- A queued microtask: `#drain`. -/
def microtask : WatchLifecycle Q T E × Option (NativeWatchCall T E × K) :=
  let popped : WatchFlags E :=
    { w.flags with microtasks := w.flags.microtasks - 1, scheduled := false }
  if w.flags.running || w.flags.terminated.isSome || !w.flags.started then
    ({ w with flags := popped }, none)
  else loop q { w with flags := { popped with running := true } }

def returned : WatchLifecycle Q T E × Option (NativeWatchCall T E × K) :=
  loop q { w with flags := { w.flags with calls := w.flags.calls - 1 } }

/-- The awaited listener call threw or rejected. -/
def threw (error : E) : WatchLifecycle Q T E :=
  if w.flags.terminated.isSome then
    { w with flags := { w.flags with calls := w.flags.calls - 1, running := false } }
  else
    { w with
      flags :=
        { w.flags with calls := w.flags.calls - 1, reporting := error :: w.flags.reporting } }

/-- The report of a listener's error returned. -/
def reported (toError : E → E) (error : E) : WatchLifecycle Q T E :=
  (terminate q { w with flags := { w.flags with reporting := w.flags.reporting.tail } }
    (.listenerError (toError error))).rest

end WatchLifecycle

inductive NativeAct (V C E : Type)
  | advance (value replaced : V) (context : C)
  | fail (error : E) (context : C)
  | start
  | stop
  | abort
  | observeAbort (aborted : Bool)
  | signalAborted
  | sourceEnd (result : WatchEnd E)
  | endAfterDelivery
  | microtask
  | returned
  | threw (error : E)
  | reported

namespace NativeWatching

/-- The watch after an act that may call the listener. -/
def deliver (s : NativeWatching Q T K E)
    (result : WatchLifecycle Q T E × Option (NativeWatchCall T E × K)) : NativeWatching Q T K E where
  watch := result.1
  log := result.2.toList ++ s.log

/-- One act. A microtask, a completion and a report do nothing when none is in progress. -/
def perform (q : NativeQueue V C E Q T K) (toError : E → E) (s : NativeWatching Q T K E) :
    NativeAct V C E → NativeWatching Q T K E
  | .advance value replaced context => { s with watch := s.watch.advance q value replaced context }
  | .fail error context => { s with watch := s.watch.fail q error context }
  | .start => { s with watch := s.watch.start }
  | .stop => { s with watch := s.watch.terminate q .stopped }
  | .abort => { s with watch := s.watch.terminate q .aborted }
  | .observeAbort aborted => { s with watch := s.watch.observeAbort q aborted }
  | .signalAborted =>
    if s.watch.flags.abortListener then { s with watch := s.watch.terminate q .aborted } else s
  | .sourceEnd result => { s with watch := s.watch.terminate q result }
  | .endAfterDelivery => { s with watch := s.watch.endAfterDelivery q }
  | .microtask => if s.watch.flags.microtasks = 0 then s else s.deliver (s.watch.microtask q)
  | .returned => if s.watch.flags.calls = 0 then s else s.deliver (s.watch.returned q)
  | .threw error =>
    if s.watch.flags.calls = 0 then s else { s with watch := s.watch.threw error }
  | .reported =>
    match s.watch.flags.reporting.head? with
    | some error => { s with watch := s.watch.reported q toError error }
    | none => s

end NativeWatching

/-! ### The array of a native watch -/

def MAX_PENDING_NATIVE_VALUES : ℕ := 100

/-- A slot of `#pending` that is in use. -/
inductive NativeSlot (V C : Type)
  | value (value : V)
  | context (context : C)
  deriving DecidableEq

structure NativeWatch (V C E : Type) where
  /-- `#pending`: values, each followed by its frame's context, from `head` on. -/
  pending : List (Option (NativeSlot V C))
  head : ℕ
  /-- Whether the source gave a `replace`. -/
  replace : Bool
  failure : Option E
  failureContext : Option C

namespace NativeWatch

/-- `items.copyWithin(0, start)` -/
def copyWithin {α : Type} (start : ℕ) (items : List α) : List α :=
  items.drop start ++ items.drop (items.length - start)

def advance (value replaced : V) (context : C) (n : NativeWatch V C E) : NativeWatch V C E :=
  if n.pending.length - n.head < 2 * MAX_PENDING_NATIVE_VALUES then
    { n with
      failure := none
      failureContext := none
      pending := n.pending ++ [some (.value value), some (.context context)] }
  else
    { n with
      failure := none
      failureContext := none
      head := 0
      pending := [some (.value (if n.replace then replaced else value)), some (.context context)] }

def fail (error : E) (context : C) (n : NativeWatch V C E) : NativeWatch V C E :=
  { n with pending := [], head := 0, failure := some error, failureContext := some context }

def pendingContext (n : NativeWatch V C E) : Option (NativeSlot V C) :=
  (n.failureContext.map .context).or n.pending[n.head + 1]?.join

/-- The array once the pair at `head` was taken. -/
def taken (n : NativeWatch V C E) : NativeWatch V C E :=
  if n.head + 2 = n.pending.length then { n with pending := [], head := 0 }
  else if 2 * MAX_PENDING_NATIVE_VALUES ≤ n.head + 2 then
    { n with
      pending :=
        (copyWithin (n.head + 2) n.pending).take (n.pending.length - (n.head + 2))
      head := 0 }
  else
    { n with
      pending := (n.pending.set n.head none).set (n.head + 1) none
      head := n.head + 2 }

/-- The pending failure, or whatever the slot at `head` holds. -/
def next (n : NativeWatch V C E) :
    Option (NativeWatchCall (Option (NativeSlot V C)) E × NativeWatch V C E) :=
  match n.failure with
  | some error => some (.failed error, { n with failure := none, failureContext := none })
  | none => some (.value n.pending[n.head]?.join, n.taken)

def release (n : NativeWatch V C E) : NativeWatch V C E :=
  { n with pending := [], head := 0, replace := false, failure := none, failureContext := none }

def queue : NativeQueue V C E (NativeWatch V C E) (Option (NativeSlot V C)) (NativeSlot V C) where
  advance := advance
  fail := fail
  pendingContext := pendingContext
  next := next
  release := release

def new (replace : Bool) (value : V) :
    NativeWatching (NativeWatch V C E) (Option (NativeSlot V C)) (NativeSlot V C) E where
  watch := ⟨.new, some (.value value), ⟨[], 0, replace, none, none⟩⟩
  log := []

end NativeWatch

/-! ### The queue it stands for -/

inductive NativeWaiting (V C E : Type)
  /-- Values in order, each with its own frame's context. -/
  | values (entries : List (V × C))
  | failed (error : E) (context : C)

structure NativeReference (V C E : Type) where
  replace : Bool
  waiting : NativeWaiting V C E

namespace NativeReference

/-- A value goes behind the others, drops a failure, and empties a full queue. -/
def advance (value replaced : V) (context : C) (r : NativeReference V C E) :
    NativeReference V C E :=
  match r.waiting with
  | .failed _ _ => { r with waiting := .values [(value, context)] }
  | .values entries =>
    if entries.length < MAX_PENDING_NATIVE_VALUES then
      { r with waiting := .values (entries ++ [(value, context)]) }
    else { r with waiting := .values [(if r.replace then replaced else value, context)] }

/-- A failure drops what was pending. -/
def fail (error : E) (context : C) (r : NativeReference V C E) : NativeReference V C E :=
  { r with waiting := .failed error context }

def pendingContext (r : NativeReference V C E) : Option C :=
  match r.waiting with
  | .values entries => entries.head?.map Prod.snd
  | .failed _ context => some context

def next (r : NativeReference V C E) : Option (NativeWatchCall V E × NativeReference V C E) :=
  match r.waiting with
  | .values [] => none
  | .values ((value, _) :: rest) => some (.value value, { r with waiting := .values rest })
  | .failed error _ => some (.failed error, { r with waiting := .values [] })

def release (_ : NativeReference V C E) : NativeReference V C E :=
  ⟨false, .values []⟩

def queue : NativeQueue V C E (NativeReference V C E) V C where
  advance := advance
  fail := fail
  pendingContext := pendingContext
  next := next
  release := release

def new (replace : Bool) (value : V) : NativeWatching (NativeReference V C E) V C E where
  watch := ⟨.new, value, ⟨replace, .values []⟩⟩
  log := []

end NativeReference

end KnightCode
