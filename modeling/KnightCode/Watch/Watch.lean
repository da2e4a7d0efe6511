import KnightCode.Delta.PendingOps

/-!
# Watches

A watch hands the frames of its source to one listener, one call at a time, folding what arrives
meanwhile. What runs later is part of its state: the queued microtasks, each of which starts a
drain, and the listener calls that a drain awaits.
-/

namespace KnightCode

open Delta

variable {Context Failure : Type}

inductive WatchEnd (Failure : Type)
  | stopped
  | aborted
  | ended
  | listenerError (error : Failure)
  | failed (error : Failure)

structure WatchValueCall where
  value : Json
  ops : List Op
  retired : Bool

inductive WatchCall (Failure : Type)
  | value (call : WatchValueCall)
  | failed (error : Failure)

def WatchCall.valueAfter (value : Json) : WatchCall Failure → Json
  | .value call => call.value
  | .failed _ => value

structure Watch (Context Failure : Type) where
  detach : Bool
  report : Bool
  listener : Bool
  /-- What the promise `closed` was resolved with. -/
  closed : Option (WatchEnd Failure)
  value : Json
  started : Bool
  scheduled : Bool
  running : Bool
  /-- The source sends nothing more. -/
  ending : Bool
  /-- `#end` -/
  terminated : Option (WatchEnd Failure)
  abortListener : Bool
  ops : PendingOps
  lone : Option WatchValueCall
  newestValue : Option Json
  newestContext : Option Context
  /-- A pending frame was a retirement. -/
  retired : Bool
  failure : Option Failure
  /-- A failure came after the last value call. -/
  replace : Bool
  /-- Queued microtasks, awaited listener calls, and errors being reported. -/
  microtasks : ℕ
  calls : ℕ
  reporting : List Failure

namespace Watch

def new (value : Json) : Watch Context Failure where
  detach := true
  report := true
  listener := false
  closed := none
  value := value
  started := false
  scheduled := false
  running := false
  ending := false
  terminated := none
  abortListener := false
  ops := .empty
  lone := none
  newestValue := none
  newestContext := none
  retired := false
  failure := none
  replace := false
  microtasks := 0
  calls := 0
  reporting := []

/-- The value shown, and what waits for the next call. -/
def kept (w : Watch Context Failure) : Json × PendingOps × Option WatchValueCall × Option Json ×
    Option Context × Bool × Option Failure × Bool :=
  (w.value, w.ops, w.lone, w.newestValue, w.newestContext, w.retired, w.failure, w.replace)

def opened (w : Watch Context Failure) : Bool :=
  w.terminated.isNone && !w.ending

def schedule (w : Watch Context Failure) : Watch Context Failure :=
  if w.scheduled || w.running || w.terminated.isSome then w
  else { w with scheduled := true, microtasks := w.microtasks + 1 }

/-- Something became pending. -/
def pending (w : Watch Context Failure) : Watch Context Failure :=
  if w.started then w.schedule else w

def release (w : Watch Context Failure) : Watch Context Failure :=
  { w with
    ops := .empty
    lone := none
    newestValue := none
    newestContext := none
    retired := false
    failure := none
    replace := false }

def terminate (result : WatchEnd Failure) (w : Watch Context Failure) : Watch Context Failure :=
  if w.terminated.isSome then w
  else
    { w.release with
      terminated := some result
      detach := false
      report := false
      listener := false
      abortListener := false
      closed := w.closed.or (some result) }

/-! ### Frames -/

def fail (error : Failure) (context : Context) (w : Watch Context Failure) :
    Watch Context Failure :=
  if w.opened then
    pending { w with
      ops := .empty
      lone := none
      newestValue := none
      failure := some error
      newestContext := some context
      replace := true }
  else w

/-- After a failure the operations are not kept. -/
def advance (call : WatchCall Failure) (context : Context) (w : Watch Context Failure) :
    Watch Context Failure :=
  match call with
  | .failed error => w.fail error context
  | .value call =>
    if w.opened then
      pending { w with
        failure := if w.replace then none else w.failure
        lone := if w.replace then w.lone else if w.newestContext.isNone then some call else none
        ops := if w.replace then w.ops else w.ops.push call.ops
        newestValue := some call.value
        newestContext := some context
        retired := w.retired || call.retired }
    else w

/-- The pending failure, or the value after one. The value is set with the context. -/
def nextAfterFailure (w : Watch Context Failure) : WatchCall Failure × Watch Context Failure :=
  match w.failure with
  | some error => (.failed error, { w with newestContext := none, failure := none })
  | none =>
    let value := w.newestValue.getD .null
    (.value ⟨value, [.replace value], w.retired⟩,
      { w with newestContext := none, newestValue := none, retired := false, replace := false })

def next (w : Watch Context Failure) : WatchCall Failure × Watch Context Failure :=
  if w.replace then w.nextAfterFailure
  else
    let value := w.newestValue.getD .null
    let batch := w.ops.take
    let taken : Watch Context Failure :=
      { w with
        ops := .empty
        lone := none
        newestValue := none
        newestContext := none
        retired := false }
    match w.lone with
    | some call => (.value call, taken)
    | none => (.value ⟨value, batch.getD [.replace value], w.retired⟩, taken)

/-! ### Delivery -/

/-- The loop of a drain, up to its next await: the call it makes, with its context. -/
def loop (w : Watch Context Failure) :
    Watch Context Failure × Option (WatchCall Failure × Context) :=
  if w.terminated.isSome || !w.listener then ({ w with running := false }, none)
  else
    match w.newestContext with
    | none =>
      let ended := if w.ending then w.terminate .ended else w
      ({ ended with running := false }, none)
    | some context =>
      let (call, taken) := w.next
      ({ taken with value := call.valueAfter taken.value, calls := taken.calls + 1 },
        some (call, context))

/-- A queued microtask: `#drain`. -/
def microtask (w : Watch Context Failure) :
    Watch Context Failure × Option (WatchCall Failure × Context) :=
  let popped : Watch Context Failure :=
    { w with microtasks := w.microtasks - 1, scheduled := false }
  if w.running || w.terminated.isSome || !w.started then (popped, none)
  else loop { popped with running := true }

def returned (w : Watch Context Failure) :
    Watch Context Failure × Option (WatchCall Failure × Context) :=
  loop { w with calls := w.calls - 1 }

/-- The awaited listener call threw or rejected. -/
def threw (error : Failure) (w : Watch Context Failure) : Watch Context Failure :=
  let popped : Watch Context Failure := { w with calls := w.calls - 1 }
  if w.terminated.isSome then { popped with running := false }
  else { popped with reporting := error :: w.reporting }

/-- The report of a listener's error returned. -/
def reported (toError : Failure → Failure) (error : Failure) (w : Watch Context Failure) :
    Watch Context Failure :=
  { ({ w with reporting := w.reporting.tail } : Watch Context Failure).terminate
      (.listenerError (toError error)) with running := false }

/-! ### The handle -/

/-- `start()`, which throws when it cannot. -/
def start (w : Watch Context Failure) : Watch Context Failure :=
  if w.started || w.terminated.isSome then w
  else schedule { w with started := true, listener := true }

def stop (w : Watch Context Failure) : Watch Context Failure :=
  w.terminate .stopped

def abort (w : Watch Context Failure) : Watch Context Failure :=
  w.terminate .aborted

/-- Follow a signal, which may be aborted already. -/
def observeAbort (aborted : Bool) (w : Watch Context Failure) : Watch Context Failure :=
  if w.abortListener || w.terminated.isSome then w
  else
    let observed : Watch Context Failure := { w with abortListener := true }
    if aborted then observed.abort else observed

def signalAborted (w : Watch Context Failure) : Watch Context Failure :=
  if w.abortListener then w.abort else w

/-- The source sends nothing more after its last frames. -/
def endAfterDelivery (w : Watch Context Failure) : Watch Context Failure :=
  if w.terminated.isSome || w.ending then w
  else
    let ended : Watch Context Failure := { w with ending := true }
    if !w.running && w.newestContext.isNone then ended.terminate .ended else ended

end Watch

/-! ### A watch, its source and its listener -/

inductive WatchEvent (Context Failure : Type)
  | frame (call : WatchCall Failure)
  | called (call : WatchCall Failure) (context : Context)

/-- A watch with the value of its source while it takes frames, and what happened, newest first. -/
structure Watching (Context Failure : Type) where
  watch : Watch Context Failure
  source : Json
  log : List (WatchEvent Context Failure)

inductive WatchAct (Context Failure : Type)
  | advance (call : WatchCall Failure) (context : Context)
  | start
  | stop
  | abort
  | observeAbort (aborted : Bool)
  | signalAborted
  | sourceEnd (result : WatchEnd Failure)
  | endAfterDelivery
  | microtask
  | returned
  | threw (error : Failure)
  | reported

namespace Watching

def new (value : Json) : Watching Context Failure :=
  ⟨Watch.new value, value, []⟩

/-- The watch after an act that may call the listener. -/
def deliver (s : Watching Context Failure)
    (result : Watch Context Failure × Option (WatchCall Failure × Context)) :
    Watching Context Failure :=
  { s with
    watch := result.1
    log := (result.2.map fun called => WatchEvent.called called.1 called.2).toList ++ s.log }

end Watching

end KnightCode
