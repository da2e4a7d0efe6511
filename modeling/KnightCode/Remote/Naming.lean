import KnightCode.Library.System
import KnightCode.Library.JsonText

/-!
# The names a hold's calls are decoded by

A call carries the index of its method in the variant its consumer is bound to. One hold of a link,
with what its provider decodes calls by, what its consumer is bound to, and the two ordered
directions between them. Whether the object is live, when a slot of the window frees, and when the
rest of the link sends or acknowledges its own messages is left open. Relayed holds, whose calls go
on to another link, are left out.
-/

namespace KnightCode.Naming

/-- The method names of a bound variant; the wire's indexes point into them. -/
abbrev Names := List Text

/-- `told` says that the consumer was told a failure. A hold unbound with `loading` keeps the names
it was bound with; a rebinding keeps them until this host's message `until` is acknowledged. -/
inductive HoldState
  | unplaced
  | pending (told : Bool) (previous : Option Names)
  | binding (previous : Option Names)
  | bound (names : Names) (previous : Option (Names × ℕ))
  | refused
  | released

/-- What the object shows the hold. -/
inductive Shown
  | live
  | loading
  | failed
deriving DecidableEq

/-- Messages to the consumer. `own` is any other `bound` or `state` of the provider's own; `kept`
are the names the provider goes on decoding by until the `bound` is acknowledged, not part of the
message. -/
inductive Down
  | bound (names : Names) (kept : Option Names)
  | own
  | loading
  | failed
  | gone

/-- Messages to the provider. `names` are those the consumer was bound to when it sent the call,
not part of the message. -/
inductive Up
  | call (index : ℕ) (names : Names)
  | ack
  | release

/-- What the consumer's reference shows. -/
inductive RefState
  | loading
  | live (names : Names)
  | failed
  | ended

/-- How a call was taken when it arrived: run as a method, refused, not known any more, or a
protocol error. -/
inductive Outcome
  | dispatched (name : Text)
  | refused
  | ignored
  | malformed
deriving DecidableEq

structure Answer where
  index : ℕ
  names : Names
  outcome : Outcome
deriving DecidableEq

structure Provider where
  hold : HoldState
  ownSent : ℕ
  ownAcked : ℕ

/-- `parked` are calls made while loading, by name; `queued` are calls waiting for a slot of the
call window, with the names their index points into. -/
structure Consumer where
  state : RefState
  parked : List Text
  queued : List (ℕ × Names)

structure Link where
  provider : Provider
  consumer : Consumer
  down : List Down
  up : List Up
  answers : List Answer
  closed : Bool

namespace Provider

def acknowledged (p : Provider) (own : ℕ) : Bool :=
  own ≤ p.ownAcked

/-- The names its calls are decoded by. -/
def names (p : Provider) : Option Names :=
  match p.hold with
  | .bound names none => some names
  | .bound names (some (previous, until_)) =>
    if p.acknowledged until_ then some names else some previous
  | .pending _ previous => previous
  | .binding previous => previous
  | .unplaced | .refused | .released => none

/-- The hold leaves its binding: with a failure its names go too. -/
def unbind (p : Provider) (failed : Bool) : Provider × List Down :=
  if failed then ({ p with hold := .pending false none }, [])
  else ({ p with hold := .pending false p.names }, [.loading])

/-- The pending part of `moved`. -/
def movePending (p : Provider) (shown : Shown) : Provider × List Down :=
  match p.hold with
  | .pending told previous =>
    match shown, told with
    | .live, _ => ({ p with hold := .binding previous }, [])
    | .failed, _ => ({ p with hold := .pending true none }, [.failed])
    | .loading, true => ({ p with hold := .pending false none }, [.loading])
    | .loading, false => (p, [])
  | _ => (p, [])

/-- Unbind, then the pending part. -/
def unbindMoved (p : Provider) (shown : Shown) : Provider × List Down :=
  let (p, sent) := p.unbind (decide (shown = .failed))
  let (p, sent') := p.movePending shown
  (p, sent ++ sent')

/-- The object's state changed; `attachable` says that it still is the instance the hold is bound
to. -/
def moved (p : Provider) (shown : Shown) (attachable : Bool) : Provider × List Down :=
  match p.hold with
  | .bound .. =>
    if shown = .live ∨ attachable = true then (p, []) else p.unbindMoved shown
  | .binding _ => if shown = .live then (p, []) else p.unbindMoved shown
  | _ => p.movePending shown

/-- A slot is free for the hold's `bound`. -/
def bindTo (p : Provider) (names : Names) : Provider × List Down :=
  match p.hold with
  | .binding previous =>
    ({ p with
        hold := .bound names (previous.map (fun previous => (previous, p.ownSent + 1)))
        ownSent := p.ownSent + 1 }, [.bound names previous])
  | _ => (p, [])

/-- The object left the hold, which waits refused. -/
def removed (p : Provider) : Provider × List Down :=
  match p.hold with
  | .pending .. | .binding _ | .bound .. => ({ p with hold := .refused }, [.failed])
  | _ => (p, [])

/-- The hold is placed where it is served, or refused. -/
def start (p : Provider) (refuse : Bool) : Provider × List Down :=
  match p.hold with
  | .unplaced =>
    if refuse then ({ p with hold := .refused }, [.failed])
    else ({ p with hold := .pending false none }, [])
  | _ => (p, [])

/-- A refused hold starts again. -/
def restart (p : Provider) : Provider × List Down :=
  match p.hold with
  | .refused => ({ p with hold := .unplaced }, [.loading])
  | _ => (p, [])

/-- The object ended, or the hold was revoked. -/
def ended (p : Provider) : Provider × List Down :=
  match p.hold with
  | .released => (p, [])
  | _ => ({ p with hold := .released }, [.gone])

/-- The method a call that arrived runs as. -/
def method (p : Provider) (index : ℕ) : Outcome :=
  match p.hold with
  | .released => .ignored
  | _ =>
    match p.names with
    | none => .refused
    | some names =>
      match names[index]? with
      | none => .malformed
      | some name => .dispatched name

end Provider

namespace Consumer

def indexes (names : Names) (methods : List Text) : List ℕ :=
  (methods.filter (· ∈ names)).map (fun method => names.idxOf method)

/-- The calls that go out while the reference goes live: the parked ones and those that code run
by it makes, as far as `room` slots are free. -/
def flushed (c : Consumer) (names : Names) (meanwhile : List Text) : List ℕ :=
  indexes names (c.parked ++ meanwhile)

/-- A `bound` was applied: the reference is live. -/
def wentLive (c : Consumer) (names : Names) (meanwhile : List Text) (room : ℕ) :
    Consumer × List Up :=
  let calls := c.flushed names meanwhile
  ({ state := .live names
     parked := []
     queued := c.queued ++ (calls.drop room).map (fun index => (index, names)) },
    (calls.take room).map (fun index => .call index names))

def give (c : Consumer) : Consumer :=
  { c with state := .ended, parked := [], queued := [] }

/-- A `bound` message, acknowledged after the references went live. -/
def bound (c : Consumer) (names : Names) (meanwhile : List Text) (room : ℕ) (oversized : Bool) :
    Consumer × List Up :=
  match c.state with
  | .ended => (c, [.ack])
  | _ =>
    if oversized then (c.give, [.release, .ack])
    else
      let (c, sent) := c.wentLive names meanwhile room
      (c, sent ++ [.ack])

/-- `loading`: calls waiting for a slot are rejected. -/
def loading (c : Consumer) : Consumer :=
  match c.state with
  | .ended => c
  | _ => { c with state := .loading, queued := [] }

/-- `failed`: parked calls are rejected too. -/
def failed (c : Consumer) : Consumer :=
  match c.state with
  | .ended => c
  | _ => { state := .failed, parked := [], queued := [] }

/-- A message of the provider; the last three say what happens while a `bound` is applied. -/
def receive (c : Consumer) (message : Down) (meanwhile : List Text) (room : ℕ) (oversized : Bool) :
    Consumer × List Up :=
  match message with
  | .bound names _ => c.bound names meanwhile room oversized
  | .own => (c, [.ack])
  | .loading => (c.loading, [])
  | .failed => (c.failed, [])
  | .gone => (c.give, [])

/-- A call of `method`; `free` says that it gets a slot at once. -/
def call (c : Consumer) (method : Text) (free : Bool) : Consumer × List Up :=
  match c.state with
  | .live names =>
    if method ∈ names then
      if free then (c, [.call (names.idxOf method) names])
      else ({ c with queued := c.queued ++ [(names.idxOf method, names)] }, [])
    else (c, [])
  | .loading => ({ c with parked := c.parked ++ [method] }, [])
  | .failed | .ended => (c, [])

/-- A slot freed. -/
def drain (c : Consumer) : Consumer × List Up :=
  match c.queued with
  | [] => (c, [])
  | (index, names) :: queued => ({ c with queued }, [.call index names])

def release (c : Consumer) : Consumer × List Up :=
  match c.state with
  | .ended => (c, [])
  | _ => (c.give, [.release])

end Consumer

/-! ### The link -/

inductive Act
  | moved (shown : Shown) (attachable : Bool)
  | bindTo (names : Names)
  /-- Another message of the provider's own. -/
  | own
  | removed
  | start (refuse : Bool)
  | restart
  | ended
  /-- The next message reaches the consumer. -/
  | deliver (meanwhile : List Text) (room : ℕ) (oversized : Bool)
  | call (method : Text) (free : Bool)
  | drain
  | cancelParked (place : ℕ)
  | cancelQueued (place : ℕ)
  | release
  /-- The next message reaches the provider. -/
  | arrive

namespace Link

def provide (s : Link) (step : Provider × List Down) : Link :=
  { s with provider := step.1, down := s.down ++ step.2 }

def consume (s : Link) (step : Consumer × List Up) : Link :=
  { s with consumer := step.1, up := s.up ++ step.2 }

def deliver (s : Link) (meanwhile : List Text) (room : ℕ) (oversized : Bool) : Link :=
  match s.down with
  | [] => s
  | message :: down =>
    { s with down }.consume (s.consumer.receive message meanwhile room oversized)

/-- A call that arrives: a protocol error closes the link. -/
def answer (s : Link) (index : ℕ) (names : Names) : Link :=
  let outcome := s.provider.method index
  { s with
    answers := s.answers ++ [⟨index, names, outcome⟩]
    closed := decide (outcome = .malformed) }

def arrive (s : Link) : Link :=
  match s.up with
  | [] => s
  | .call index names :: up => { s with up }.answer index names
  | .ack :: up =>
    { s with up, provider := { s.provider with ownAcked := s.provider.ownAcked + 1 } }
  | .release :: up => { s with up, provider := { s.provider with hold := .released } }

def perform (s : Link) : Act → Link
  | .moved shown attachable => s.provide (s.provider.moved shown attachable)
  | .bindTo names => s.provide (s.provider.bindTo names)
  | .own => s.provide ({ s.provider with ownSent := s.provider.ownSent + 1 }, [.own])
  | .removed => s.provide s.provider.removed
  | .start refuse => s.provide (s.provider.start refuse)
  | .restart => s.provide s.provider.restart
  | .ended => s.provide s.provider.ended
  | .deliver meanwhile room oversized => s.deliver meanwhile room oversized
  | .call method free => s.consume (s.consumer.call method free)
  | .drain => s.consume s.consumer.drain
  | .cancelParked place =>
    s.consume ({ s.consumer with parked := s.consumer.parked.eraseIdx place }, [])
  | .cancelQueued place =>
    s.consume ({ s.consumer with queued := s.consumer.queued.eraseIdx place }, [])
  | .release => s.consume s.consumer.release
  | .arrive => s.arrive

/-- A hold that was just sent. -/
def fresh : Link where
  provider := ⟨.unplaced, 0, 0⟩
  consumer := ⟨.loading, [], []⟩
  down := []
  up := []
  answers := []
  closed := false

end Link

/-- A link does nothing once it closed. -/
def system : System Link Act where
  init s := s = Link.fresh
  step s act s' := s.closed = false ∧ s' = s.perform act

/-! ### What goes wrong, and when -/

/-- Every call that is on its way, or that the consumer may still send by a binding of the past,
carries an index into `names`. -/
structure Link.Speaks (s : Link) (names : Names) : Prop where
  calls : ∀ index sent, Up.call index sent ∈ s.up → sent = names
  live : ∀ bound, s.consumer.state = .live bound → bound = names
  bounds : ∀ bound kept, Down.bound bound kept ∈ s.down → bound = names

/-- A hold that goes loading keeps the names its consumer has: it has no older ones, they are the
same, or the `bound` that brought the newer ones was acknowledged. -/
def Link.KeepsNames (s : Link) : Prop :=
  ∀ names previous until_, s.provider.hold = .bound names (some (previous, until_)) →
    s.provider.acknowledged until_ = false → previous = names

/-- No call goes out between the `bound` that changes the names and its acknowledgement. -/
def Link.HoldsBack (s : Link) (meanwhile : List Text) (room : ℕ) : Prop :=
  ∀ names kept down, s.down = .bound names (some kept) :: down →
    kept = names ∨ (s.consumer.flushed names meanwhile).take room = []

/-- The steps that lose no names. -/
def Link.Safe (s : Link) : Act → Prop
  | .moved .loading false => s.KeepsNames
  | .bindTo names => s.provider.hold = .binding none → s.Speaks names
  | .deliver meanwhile room false => s.HoldsBack meanwhile room
  | _ => True

/-- The call ran as the method its consumer meant, or did not run at all. -/
def Answer.Right (a : Answer) : Prop :=
  a.outcome = .refused ∨ a.outcome = .ignored ∨
    ∃ name, a.outcome = .dispatched name ∧ a.names[a.index]? = some name

end KnightCode.Naming
