import KnightCode.Library.System
import KnightCode.Library.Assoc
import Mathlib.Data.List.Perm.Subperm

/-!
# The call window

The calls of a link's consumer side: at most the peer's N in flight, the others waiting in order.
The consumer side sends the calls, the aborts and the releases, and settles each call; the provider
side runs the calls of the holds it knows, at most N at once. Two ordered directions join them.
-/

namespace KnightCode.Calls

/-- A call through the consumer side: its place among the calls started, and its hold. -/
structure OutgoingCall where
  key : ℕ
  hold : ℕ
deriving DecidableEq

inductive ToProvider
  | hold (hold : ℕ)
  | release (hold : ℕ)
  | call (call hold : ℕ)
  | abort (call : ℕ)

/-- `bound`, `state` and what else leaves the calls alone is not modelled. -/
inductive ToConsumer
  | reply (call : ℕ)
  | failed (hold : ℕ)
  | loading (hold : ℕ)
  | gone (hold : ℕ)

/-- How a call settled. -/
inductive Settlement
  | answered
  | aborted
  | released
  | gone
  | failed
  | loading
  | closed
deriving DecidableEq

/-- A call's promise was resolved or rejected, with the id the call was sent by, if it was. -/
structure Settled where
  call : OutgoingCall
  id : Option ℕ
  settlement : Settlement

/-- `limit` is the peer's N, 0 before its `hello`. -/
structure CallWindow where
  limit : ℕ
  inFlight : ℤ
  waiting : List OutgoingCall

structure ConsumerSide where
  /-- The holds of this host's references on the link. -/
  entries : List ℕ
  calls : List (ℕ × OutgoingCall)
  window : CallWindow
  nextHold : ℕ
  nextCall : ℕ
  started : ℕ
  settled : List Settled
  /-- What it sent and has not arrived. -/
  wire : List ToProvider
  closed : Bool

namespace ConsumerSide

def new : ConsumerSide where
  entries := []
  calls := []
  window := ⟨0, 0, []⟩
  nextHold := 0
  nextCall := 0
  started := 0
  settled := []
  wire := []
  closed := false

def settle (call : OutgoingCall) (id : Option ℕ) (settlement : Settlement) (c : ConsumerSide) :
    ConsumerSide :=
  { c with settled := c.settled ++ [⟨call, id, settlement⟩] }

/-! ### The window -/

/-- A call that got its slot is sent, with the next id. -/
def take (call : OutgoingCall) (c : ConsumerSide) : ConsumerSide :=
  { c with
    window := { c.window with inFlight := c.window.inFlight + 1 }
    nextCall := c.nextCall + 1
    calls := c.calls ++ [(c.nextCall, call)]
    wire := c.wire ++ [.call c.nextCall call.hold] }

/-- Send the waiting calls in order while slots are free. -/
def drainList : List OutgoingCall → ConsumerSide → ConsumerSide
  | [], c => { c with window := { c.window with waiting := [] } }
  | call :: rest, c =>
    if c.window.limit ≤ c.window.inFlight then
      { c with window := { c.window with waiting := call :: rest } }
    else drainList rest (c.take call)

def drain (c : ConsumerSide) : ConsumerSide :=
  drainList c.window.waiting c

/-- The call is sent now when a slot is free and nothing waits. -/
def submit (call : OutgoingCall) (c : ConsumerSide) : ConsumerSide :=
  if c.window.waiting = [] ∧ c.window.inFlight < c.window.limit then c.take call
  else { c with window := { c.window with waiting := c.window.waiting ++ [call] } }

/-- The peer's `hello` arrived. -/
def opened (limit : ℕ) (c : ConsumerSide) : ConsumerSide :=
  drain { c with window := { c.window with limit } }

/-- A call in flight ended. -/
def freed (c : ConsumerSide) : ConsumerSide :=
  drain { c with window := { c.window with inFlight := c.window.inFlight - 1 } }

/-- Take a call out of the table: its slot is free. -/
def remove (id : ℕ) (c : ConsumerSide) : ConsumerSide :=
  freed { c with calls := Assoc.erase id c.calls }

/-! ### The operations -/

/-- Hold an object on the link. -/
def attach (c : ConsumerSide) : ConsumerSide :=
  { c with
    entries := c.entries ++ [c.nextHold]
    nextHold := c.nextHold + 1
    wire := c.wire ++ [.hold c.nextHold] }

def call (hold : ℕ) (c : ConsumerSide) : ConsumerSide :=
  if hold ∈ c.entries then submit ⟨c.started, hold⟩ { c with started := c.started + 1 } else c

/-- The caller of a call cancelled: one that settled is not listened to any more. -/
def cancel (key : ℕ) (c : ConsumerSide) : ConsumerSide :=
  match c.window.waiting.find? (fun call => call.key = key) with
  | some call =>
    settle call none .aborted
      { c with window := { c.window with waiting := c.window.waiting.filter (· ≠ call) } }
  | none =>
    match c.calls.find? (fun call => call.2.key = key) with
    | some (id, call) =>
      (freed { c with calls := Assoc.erase id c.calls, wire := c.wire ++ [.abort id] }).settle call
        (some id) .aborted
    | none => c

/-- The hold's waiting calls leave the window and are rejected. -/
def rejectWaiting (hold : ℕ) (settlement : Settlement) (c : ConsumerSide) : ConsumerSide :=
  (c.window.waiting.filter (fun call => call.hold = hold)).foldl
    (fun c call => c.settle call none settlement)
    { c with
      window :=
        { c.window with waiting := c.window.waiting.filter (fun call => call.hold ≠ hold) } }

/-- The waiting calls leave first: a freed slot must not send one of them. What is sent meanwhile is
on other holds. -/
def failCalls (hold : ℕ) (settlement : Settlement) (c : ConsumerSide) : ConsumerSide :=
  let failed := c.calls.filter (fun call => call.2.hold = hold)
  let waiting := c.window.waiting.filter (fun call => call.hold = hold)
  let removed := failed.foldl (fun c call => c.remove call.1)
    { c with
      window :=
        { c.window with waiting := c.window.waiting.filter (fun call => call.hold ≠ hold) } }
  failed.foldl (fun c call => c.settle call.2 (some call.1) settlement)
    (waiting.foldl (fun c call => c.settle call none settlement) removed)

/-- Drop the hold from the tables. -/
def forget (hold : ℕ) (settlement : Settlement) (c : ConsumerSide) : ConsumerSide :=
  failCalls hold settlement { c with entries := c.entries.filter (· ≠ hold) }

/-- A hold that a reference has was released; so too when a part of it was past the limits. -/
def release (hold : ℕ) (c : ConsumerSide) : ConsumerSide :=
  if hold ∈ c.entries then forget hold .released { c with wire := c.wire ++ [.release hold] } else c

/-- A reply to a call given up is ignored. -/
def reply (id : ℕ) (c : ConsumerSide) : ConsumerSide :=
  match Assoc.get id c.calls with
  | none => c
  | some call => (c.remove id).settle call (some id) .answered

def message (message : ToConsumer) (c : ConsumerSide) : ConsumerSide :=
  match message with
  | .reply id => c.reply id
  | .failed hold => if hold ∈ c.entries then c.rejectWaiting hold .failed else c
  | .loading hold => if hold ∈ c.entries then c.rejectWaiting hold .loading else c
  | .gone hold => if hold ∈ c.entries then c.forget hold .gone else c

/-- The link closed: calls in flight and waiting are rejected. -/
def close (c : ConsumerSide) : ConsumerSide :=
  c.window.waiting.foldl (fun c call => c.settle call none .closed)
    (c.calls.foldl (fun c call => c.settle call.2 (some call.1) .closed)
      { c with
        calls := []
        entries := []
        window := { c.window with waiting := [] }
        closed := true })

end ConsumerSide

/-! ### The provider -/

/-- Why a provider's end of the link closed. -/
inductive Closing
  | disconnected
  | holdInUse
  | callInUse
  | tooManyCalls
  /-- A method outside the bound variant, or arguments that are no JSON. -/
  | malformed
deriving DecidableEq

/-- What the checks of a call on a known hold find. -/
inductive Check
  | runs
  | refused
  | malformed

/-- The holds a provider side knows and the calls it runs, each with its hold. -/
structure Ledger where
  entries : List ℕ
  calls : List (ℕ × ℕ)

structure ProviderSide where
  limit : ℕ
  ledger : Ledger
  /-- What it sent and has not arrived. -/
  wire : List ToConsumer
  closed : Option Closing

namespace ProviderSide

def new (limit : ℕ) : ProviderSide where
  limit := limit
  ledger := ⟨[], []⟩
  wire := []
  closed := none

def send (message : ToConsumer) (p : ProviderSide) : ProviderSide :=
  { p with wire := p.wire ++ [message] }

/-- The holds are released and the calls aborted. -/
def close (closing : Closing) (p : ProviderSide) : ProviderSide :=
  { p with ledger := ⟨[], []⟩, closed := some closing }

def hold (id : ℕ) (p : ProviderSide) : ProviderSide :=
  if id ∈ p.ledger.entries then p.close .holdInUse
  else { p with ledger := { p.ledger with entries := p.ledger.entries ++ [id] } }

/-- Forget a hold and every call on it. -/
def forget (id : ℕ) (p : ProviderSide) : ProviderSide :=
  { p with
    ledger :=
      { entries := p.ledger.entries.filter (· ≠ id)
        calls := p.ledger.calls.filter (fun call => call.2 ≠ id) } }

def release (id : ℕ) (p : ProviderSide) : ProviderSide :=
  if id ∈ p.ledger.entries then p.forget id else p

def call (id hold : ℕ) (check : Check) (p : ProviderSide) : ProviderSide :=
  if id ∈ p.ledger.calls.map Prod.fst then p.close .callInUse
  else if hold ∉ p.ledger.entries then p
  else if p.limit ≤ p.ledger.calls.length then p.close .tooManyCalls
  else
    match check with
    | .refused => p.send (.reply id)
    | .malformed => p.close .malformed
    | .runs => { p with ledger := { p.ledger with calls := p.ledger.calls ++ [(id, hold)] } }

def abort (id : ℕ) (p : ProviderSide) : ProviderSide :=
  { p with
    ledger := { p.ledger with calls := p.ledger.calls.filter (fun call => call.1 ≠ id) } }

def message (message : ToProvider) (check : Check) (p : ProviderSide) : ProviderSide :=
  match message with
  | .hold id => p.hold id
  | .release id => p.release id
  | .call id hold => p.call id hold check
  | .abort id => p.abort id

/-- A call ended with a result or an error; nothing is sent for one already gone. -/
def reply (id : ℕ) (p : ProviderSide) : ProviderSide :=
  if id ∈ p.ledger.calls.map Prod.fst then (p.abort id).send (.reply id) else p

/-- A hold left its object's binding with an error, or its relay's upstream dropped: the calls on it
are rejected. -/
def unbound (hold : ℕ) (p : ProviderSide) : ProviderSide :=
  (p.ledger.calls.filter (fun call => call.2 = hold)).foldl (fun p call => p.reply call.1) p

def ended (hold : ℕ) (p : ProviderSide) : ProviderSide :=
  if hold ∈ p.ledger.entries then (p.forget hold).send (.gone hold) else p

end ProviderSide

/-! ### The link -/

structure Link where
  consumer : ConsumerSide
  provider : ProviderSide

inductive Act
  | hello
  | attach
  | call (hold : ℕ)
  | cancel (key : ℕ)
  | release (hold : ℕ)
  | deliver
  /-- The next message reaches the provider. -/
  | arrive (check : Check)
  | reply (call : ℕ)
  | unbound (hold : ℕ)
  | failed (hold : ℕ)
  | loading (hold : ℕ)
  | ended (hold : ℕ)
  /-- Each end sees the link close in its own time. -/
  | consumerClosed
  | providerClosed

namespace Link

def deliver (l : Link) : Link :=
  match l.provider.wire with
  | [] => l
  | message :: wire =>
    { consumer := l.consumer.message message, provider := { l.provider with wire } }

def arrive (check : Check) (l : Link) : Link :=
  match l.consumer.wire with
  | [] => l
  | message :: wire =>
    { consumer := { l.consumer with wire }, provider := l.provider.message message check }

def perform (l : Link) : Act → Link
  | .hello => { l with consumer := l.consumer.opened l.provider.limit }
  | .attach => { l with consumer := l.consumer.attach }
  | .call hold => { l with consumer := l.consumer.call hold }
  | .cancel key => { l with consumer := l.consumer.cancel key }
  | .release hold => { l with consumer := l.consumer.release hold }
  | .deliver => l.deliver
  | .consumerClosed => { l with consumer := l.consumer.close }
  | .arrive check => l.arrive check
  | .reply call => { l with provider := l.provider.reply call }
  | .unbound hold => { l with provider := l.provider.unbound hold }
  | .failed hold => { l with provider := l.provider.send (.failed hold) }
  | .loading hold => { l with provider := l.provider.send (.loading hold) }
  | .ended hold => { l with provider := l.provider.ended hold }
  | .providerClosed => { l with provider := l.provider.close .disconnected }

/-- An end that closed does nothing more. -/
def Enabled (l : Link) : Act → Prop
  | .hello | .attach | .call _ | .cancel _ | .release _ | .deliver | .consumerClosed =>
    l.consumer.closed = false
  | _ => l.provider.closed = none

end Link

def system (limit : ℕ) : System Link Act where
  init l := l = ⟨.new, .new limit⟩
  step l act l' := l.Enabled act ∧ l' = l.perform act

end KnightCode.Calls
