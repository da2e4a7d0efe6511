import KnightCode.Remote.Hold

/-!
# The provider side of an origin

The holds a peer sent for one origin, the calls on them, and the window: at most `WINDOW`
unacknowledged messages of this host's own, with what waits meanwhile. Messages of upstream hosts
are relayed at once. Acknowledgements carry no tag, so the senders of the messages in flight are
kept in order.
-/

namespace KnightCode.Remote

open Function Delta

variable {Failure : Type}

def WINDOW : ℕ := 2

/-- Who sent a `bound` or `state` message in flight: this host, or the upstream link a relay
forwarded it from. -/
inductive Sender
  | own
  | link (link : ℕ)
deriving DecidableEq

inductive Reply (Failure : Type)
  | result (value : Json)
  | error (error : Failure)

inductive ConsumerMessage (Failure : Type)
  | bound (holds : List (BoundEntry Failure))
  | state (holds : List (StateEntry Failure))
  | reply (call : ℕ) (reply : Reply Failure)
  | failed (hold : ℕ) (error : Failure)
  | loading (hold : ℕ)
  | gone (hold : ℕ) (error : Failure)

inductive UpstreamMessage
  | hold (id : ℕ)
  | release (id : ℕ)
  | call (id : ℕ)
  | abort (id : ℕ)
  | retry (id : ℕ)
  | ack
  | closed

/-- A message that left, with its sender when it is acknowledged, the holds as they were then, those
whose state waited, and whether it refused a call that was not admitted. -/
structure Departure (Failure : Type) where
  message : ConsumerMessage Failure
  sender : Option Sender
  holds : ℕ → Hold Failure
  waiting : List ℕ
  refusal : Bool

inductive Entry
  | served (hold : ℕ)
  | relayed (hold : ℕ)
deriving DecidableEq

/-- A relayed hold, with its upstream link while its path has one. -/
structure RelayedHold where
  id : ℕ
  upstream : Option ℕ

/-- What an object shows its holds. -/
inductive RefState (Failure : Type)
  | live
  | loading
  | failed (error : Failure)

/-- Where an arriving hold goes. -/
inductive Placement (Failure : Type)
  | unplaced
  | refused (error : Failure)
  | path (upstream : Option ℕ)
  | object (shown : RefState Failure)

/-- A `call` message, with what its checks find: a method or arguments that are a protocol error,
arguments past a limit. -/
structure CallMessage (Failure : Type) where
  call : ℕ
  hold : ℕ
  malformed : Bool
  oversized : Option Failure

structure ProviderSide (Failure : Type) where
  limit : ℕ
  calls : List (ℕ × Entry)
  entries : List (ℕ × Entry)
  sent : List Sender
  inFlight : ℕ
  ownSent : ℕ
  ownAcked : ℕ
  /-- The holds the current batch touched, those whose state waits, and those whose binding does. -/
  touched : List ℕ
  waiting : List ℕ
  binding : List ℕ
  bindingTurn : Bool
  relay : Option (List ℕ)
  holds : ℕ → Hold Failure
  made : ℕ
  relays : ℕ → RelayedHold
  relaysMade : ℕ
  closed : Bool
  out : List (Departure Failure)
  upstream : List (ℕ × UpstreamMessage)

namespace ProviderSide

def new (limit : ℕ) : ProviderSide Failure where
  limit := limit
  calls := []
  entries := []
  sent := []
  inFlight := 0
  ownSent := 0
  ownAcked := 0
  touched := []
  waiting := []
  binding := []
  bindingTurn := false
  relay := none
  holds := fun hold => { Hold.new hold with state := .released }
  made := 0
  relays := fun id => ⟨id, none⟩
  relaysMade := 0
  closed := false
  out := []
  upstream := []

def send (message : ConsumerMessage Failure) (side : ProviderSide Failure) : ProviderSide Failure :=
  { side with out := side.out ++ [⟨message, none, side.holds, side.waiting, false⟩] }

def sendUpstream (link : ℕ) (message : UpstreamMessage) (side : ProviderSide Failure) :
    ProviderSide Failure :=
  { side with upstream := side.upstream ++ [(link, message)] }

def modify (hold : ℕ) (change : Hold Failure → Hold Failure) (side : ProviderSide Failure) :
    ProviderSide Failure :=
  { side with holds := update side.holds hold (change (side.holds hold)) }

/-! ### The window -/

/-- A message of this host's own takes a slot. -/
def sendOwn (message : ConsumerMessage Failure) (side : ProviderSide Failure) :
    ProviderSide Failure :=
  { side with
    inFlight := side.inFlight + 1
    ownSent := side.ownSent + 1
    sent := side.sent ++ [.own]
    out := side.out ++ [⟨message, some .own, side.holds, side.waiting, false⟩] }

/-- Nothing waits and a slot is free. -/
def free (side : ProviderSide Failure) : Bool :=
  side.binding = [] ∧ side.waiting = [] ∧ side.inFlight < WINDOW

def each {E : Type} (toEntry : ℕ → Hold Failure → E × Hold Failure) :
    List ℕ → (ℕ → Hold Failure) → List E × (ℕ → Hold Failure)
  | [], holds => ([], holds)
  | hold :: rest, holds =>
    let (entry, next) := toEntry hold (holds hold)
    let (entries, holds) := each toEntry rest (update holds hold next)
    (entry :: entries, holds)

/-- The waiting state as one message; waiting bindings take the next slot. -/
def sendWaiting (objects : Objects Failure) (side : ProviderSide Failure) : ProviderSide Failure :=
  let (entries, holds) := each (fun _ => Hold.pendingEntry objects.sources) side.waiting side.holds
  sendOwn (.state entries)
    { side with waiting := [], bindingTurn := side.binding ≠ [], holds := holds }

/-- The waiting bindings as one message. -/
def sendBindings (objects : Objects Failure) (side : ProviderSide Failure) : ProviderSide Failure :=
  let (entries, holds) := each
    (fun hold => Hold.boundEntry objects.sources (objects.instances hold)) side.binding side.holds
  sendOwn (.bound entries) { side with binding := [], bindingTurn := false, holds := holds }

def fillSlots (objects : Objects Failure) : ℕ → ProviderSide Failure → ProviderSide Failure
  | 0, side => side
  | room + 1, side =>
    if side.binding ≠ [] ∧ (side.waiting = [] ∨ side.bindingTurn) then
      fillSlots objects room (side.sendBindings objects)
    else if side.waiting ≠ [] then fillSlots objects room (side.sendWaiting objects)
    else side

def slotFreed (objects : Objects Failure) (side : ProviderSide Failure) : ProviderSide Failure :=
  side.fillSlots objects (WINDOW - side.inFlight)

/-- A hold's changes wait for a slot. -/
def wait (hold : ℕ) (side : ProviderSide Failure) : ProviderSide Failure :=
  { side.modify hold Hold.queue with
    waiting := if hold ∈ side.waiting then side.waiting else side.waiting ++ [hold] }

/-- The end of a batch: one message with an entry per touched hold, or all of them wait. -/
def flush (side : ProviderSide Failure) : ProviderSide Failure :=
  let holds := side.touched.filter fun hold => (side.holds hold).bound
  let taken : ProviderSide Failure := { side with touched := [] }
  if side.free then
    if holds = [] then taken
    else
      let (entries, next) := each (fun _ => Hold.entry) holds side.holds
      sendOwn (.state entries) { taken with holds := next }
  else
    holds.foldl (fun side hold => side.wait hold) taken

def bind (hold : ℕ) (objects : Objects Failure) (side : ProviderSide Failure) :
    ProviderSide Failure :=
  if side.free then
    let (entry, next) := (side.holds hold).boundEntry objects.sources (objects.instances hold)
    sendOwn (.bound [entry]) { side with holds := update side.holds hold next }
  else if hold ∈ side.binding then side
  else { side with binding := side.binding ++ [hold] }

/-- A hold stopped waiting for a slot. -/
def unbind (hold : ℕ) (side : ProviderSide Failure) : ProviderSide Failure :=
  { side with
    waiting := side.waiting.filter (· ≠ hold)
    binding := side.binding.filter (· ≠ hold) }

/-! ### Closing -/

/-- End an entry whose side closed: a served hold is released, a relayed one dropped. -/
def drop (entry : Entry) (side : ProviderSide Failure) : ProviderSide Failure :=
  match entry with
  | .served hold => side.modify hold fun hold => { hold with state := .released }
  | .relayed hold =>
    { side with
      relays := update side.relays hold { side.relays hold with upstream := none } }

/-- The link closed, or the origin did. -/
def close (side : ProviderSide Failure) : ProviderSide Failure :=
  let dropped := side.entries.foldl (fun side entry => side.drop entry.2) side
  { dropped with
    entries := []
    calls := []
    touched := []
    closed := true
    upstream := dropped.upstream ++ (side.relay.getD []).map fun link => (link, .closed) }

/-- Drop this side once it holds nothing. -/
def settle (side : ProviderSide Failure) : ProviderSide Failure :=
  if side.closed = false ∧ side.entries = [] ∧ side.calls = [] ∧ side.sent = [] then side.close
  else side

/-! ### Calls -/

/-- A call ended: the state waiting for a slot goes first. -/
def reply (call : ℕ) (reply : Reply Failure) (objects : Objects Failure)
    (side : ProviderSide Failure) : ProviderSide Failure :=
  match Assoc.get call side.calls with
  | none => side
  | some _ =>
    let ended : ProviderSide Failure := { side with calls := Assoc.erase call side.calls }
    let stated := if ended.waiting ≠ [] then ended.sendWaiting objects else ended
    (stated.send (.reply call reply)).settle

/-- Answer a call before it was admitted: it took no slot. -/
def refuse (call : ℕ) (error : Failure) (side : ProviderSide Failure) : ProviderSide Failure :=
  { side with
    out := side.out ++ [⟨.reply call (.error error), none, side.holds, side.waiting, true⟩] }

def replyAll (entry : Entry) (error : Failure) (objects : Objects Failure)
    (side : ProviderSide Failure) : ProviderSide Failure :=
  (side.calls.filter (·.2 = entry)).foldl
    (fun side call => side.reply call.1 (.error error) objects) side

/-- A `call` message. One on a relayed hold without an upstream link is answered at once. -/
def call (message : CallMessage Failure) (notReady unavailable : Failure)
    (objects : Objects Failure) (side : ProviderSide Failure) : ProviderSide Failure :=
  if (Assoc.get message.call side.calls).isSome then side.close
  else
    match Assoc.get message.hold side.entries with
    | none => side
    | some entry =>
      if side.limit ≤ side.calls.length then side.close
      else
        let registered : ProviderSide Failure :=
          { side with calls := Assoc.set message.call entry side.calls }
        match entry with
        | .relayed hold =>
          match message.oversized, (side.relays hold).upstream with
          | some error, _ => side.refuse message.call error
          | none, none => registered.reply message.call (.error unavailable) objects
          | none, some link => registered.sendUpstream link (.call message.call)
        | .served hold =>
          if (side.holds hold).callable = false then
            side.refuse message.call ((side.holds hold).refusal notReady)
          else if message.malformed then side.close
          else
            match message.oversized with
            | some error => side.refuse message.call error
            | none => registered

def abort (call : ℕ) (side : ProviderSide Failure) : ProviderSide Failure :=
  match Assoc.get call side.calls with
  | none => side.settle
  | some entry =>
    let aborted : ProviderSide Failure := { side with calls := Assoc.erase call side.calls }
    match entry with
    | .served _ => aborted.settle
    | .relayed hold =>
      match (side.relays hold).upstream with
      | some link => (aborted.sendUpstream link (.abort call)).settle
      | none => aborted.settle

/-- An `ack` answers the oldest message in flight. -/
def ack (objects : Objects Failure) (side : ProviderSide Failure) : ProviderSide Failure :=
  match side.sent with
  | [] => side.settle
  | .link link :: sent => (sendUpstream link .ack { side with sent := sent }).settle
  | .own :: sent =>
    (slotFreed objects
      { side with
        sent := sent
        inFlight := side.inFlight - 1
        ownAcked := side.ownAcked + 1 }).settle

/-! ### Holds -/

def forget (entry : Entry) (id : ℕ) (side : ProviderSide Failure) : ProviderSide Failure :=
  let forgotten : ProviderSide Failure :=
    { side with
      entries :=
        if Assoc.get id side.entries = some entry then Assoc.erase id side.entries
        else side.entries
      calls := side.calls.filter (·.2 ≠ entry) }
  match entry with
  | .served hold => (forgotten.unbind hold).settle
  | .relayed _ => forgotten.settle

/-- A served hold left its object's binding: its calls in flight are rejected. -/
def unbound (hold : ℕ) (error : Failure) (objects : Objects Failure)
    (side : ProviderSide Failure) : ProviderSide Failure :=
  (side.unbind hold).replyAll (.served hold) error objects

/-- A pending hold: bound once its object is live, told each failure, and the attempt after one. -/
def movePending (hold : ℕ) (shown : RefState Failure) (objects : Objects Failure)
    (side : ProviderSide Failure) : ProviderSide Failure :=
  match (side.holds hold).state with
  | .pending told previous =>
    match shown, told with
    | .live, _ =>
      (side.modify hold fun hold => { hold with state := .binding previous }).bind hold objects
    | .failed error, _ =>
      (side.send (.failed (side.holds hold).id error)).modify hold fun hold =>
        { hold with state := .pending (some error) false }
    | .loading, some _ =>
      (side.send (.loading (side.holds hold).id)).modify hold fun hold =>
        { hold with state := .pending none false }
    | .loading, none => side
  | _ => side

/-- The hold goes back to pending, with an error or loading. -/
def unbindHold (hold : ℕ) (error : Option Failure) (objects : Objects Failure)
    (side : ProviderSide Failure) : ProviderSide Failure :=
  let previous := (side.holds hold).callable
  let unfollowed := side.modify hold Hold.unfollow
  match error with
  | some error =>
    (unfollowed.unbound hold error objects).modify hold fun hold =>
      { hold with state := .pending none false }
  | none =>
    ((unfollowed.unbind hold).modify hold fun hold =>
      { hold with state := .pending none previous }).send (.loading (side.holds hold).id)

/-- The object's state changed; `attached` says that it still is the instance the hold is bound
to. -/
def moved (hold : ℕ) (shown : RefState Failure) (attached : Bool) (objects : Objects Failure)
    (side : ProviderSide Failure) : ProviderSide Failure :=
  let error : Option Failure :=
    match shown with
    | .failed error => some error
    | _ => none
  let live : Bool :=
    match shown with
    | .live => true
    | _ => false
  match (side.holds hold).state with
  | .bound _ _ =>
    if live || attached then side
    else (side.unbindHold hold error objects).movePending hold shown objects
  | .binding _ =>
    if live then side else (side.unbindHold hold error objects).movePending hold shown objects
  | _ => side.movePending hold shown objects

/-- A hold that cannot be taken waits refused. -/
def refuseHold (hold : ℕ) (error : Failure) (side : ProviderSide Failure) : ProviderSide Failure :=
  (side.modify hold fun hold => { hold with state := .refused error }).send
    (.failed (side.holds hold).id error)

/-- The object left the hold, which waits refused. -/
def removed (hold : ℕ) (error : Failure) (objects : Objects Failure) (side : ProviderSide Failure) :
    ProviderSide Failure :=
  match (side.holds hold).state with
  | .pending _ _ | .binding _ | .bound _ _ =>
    ((side.modify hold Hold.unfollow).unbound hold error objects).refuseHold hold error
  | _ => side

/-- A relayed hold is held on its path's link. -/
def attach (hold link : ℕ) (side : ProviderSide Failure) : ProviderSide Failure :=
  let links := side.relay.getD []
  sendUpstream link (.hold (side.relays hold).id)
    { side with
      relay := some (if link ∈ links then links else links ++ [link])
      relays := update side.relays hold { side.relays hold with upstream := some link } }

def start (hold : ℕ) (placement : Placement Failure) (objects : Objects Failure)
    (side : ProviderSide Failure) : ProviderSide Failure :=
  match placement with
  | .unplaced => side.modify hold fun hold => { hold with state := .unplaced }
  | .refused error => side.refuseHold hold error
  | .path upstream =>
    let id := (side.holds hold).id
    let relay := side.relaysMade
    let replaced : ProviderSide Failure :=
      { side.drop (.served hold) with
        relays := update side.relays relay ⟨id, none⟩
        relaysMade := relay + 1
        entries := Assoc.set id (.relayed relay) side.entries }
    match upstream with
    | some link => replaced.attach relay link
    | none => replaced
  | .object shown => side.movePending hold shown objects

def hold (id : ℕ) (placement : Placement Failure) (objects : Objects Failure)
    (side : ProviderSide Failure) : ProviderSide Failure :=
  if (Assoc.get id side.entries).isSome then side.close
  else
    start side.made placement objects
      { side with
        entries := Assoc.set id (.served side.made) side.entries
        holds := update side.holds side.made (Hold.new id)
        made := side.made + 1 }

/-- A hold that holds nothing starts again, announced when it was refused. -/
def restart (hold : ℕ) (placement : Placement Failure) (objects : Objects Failure)
    (side : ProviderSide Failure) : ProviderSide Failure :=
  let pending := side.modify hold fun hold => { hold with state := .pending none false }
  match (side.holds hold).state with
  | .unplaced => pending.start hold placement objects
  | .refused _ => (pending.send (.loading (side.holds hold).id)).start hold placement objects
  | _ => side

def release (id : ℕ) (side : ProviderSide Failure) : ProviderSide Failure :=
  match Assoc.get id side.entries with
  | none => side.settle
  | some (.served hold) => ((side.forget (.served hold) id).drop (.served hold)).settle
  | some (.relayed hold) =>
    let released := (side.forget (.relayed hold) id).drop (.relayed hold)
    match (side.relays hold).upstream with
    | some link => (released.sendUpstream link (.release id)).settle
    | none => released.settle

def ended (hold : ℕ) (error : Failure) (side : ProviderSide Failure) : ProviderSide Failure :=
  match (side.holds hold).state with
  | .released => side
  | _ =>
    let id := (side.holds hold).id
    ((side.forget (.served hold) id).drop (.served hold)).send (.gone id error)

/-! ### Relaying -/

def relayedHold (id link : ℕ) (side : ProviderSide Failure) : Option ℕ :=
  match Assoc.get id side.entries with
  | some (.relayed hold) => if (side.relays hold).upstream = some link then some hold else none
  | _ => none

/-- Forward a `bound` or `state` message with entries left, which joins the messages in flight. -/
def forwardState (message : ConsumerMessage Failure) (link : ℕ) (side : ProviderSide Failure) :
    ProviderSide Failure :=
  { side with
    sent := side.sent ++ [.link link]
    out := side.out ++ [⟨message, some (.link link), side.holds, side.waiting, false⟩] }

def forward (message : ConsumerMessage Failure) (link : ℕ) (objects : Objects Failure)
    (side : ProviderSide Failure) : ProviderSide Failure :=
  if link ∉ side.relay.getD [] then side
  else
    match message with
    | .bound holds =>
      let kept := holds.filter fun entry => (side.relayedHold entry.hold link).isSome
      if kept = [] then side.sendUpstream link .ack else side.forwardState (.bound kept) link
    | .state holds =>
      let kept := holds.filter fun entry => (side.relayedHold entry.hold link).isSome
      if kept = [] then side.sendUpstream link .ack else side.forwardState (.state kept) link
    | .reply call reply =>
      match Assoc.get call side.calls with
      | some (.relayed hold) =>
        if (side.relays hold).upstream = some link then side.reply call reply objects else side
      | _ => side
    | .gone id error =>
      match side.relayedHold id link with
      | none => side
      | some hold =>
        (forget (.relayed hold) id (side.drop (.relayed hold))).send (.gone id error)
    | .failed id error =>
      if (side.relayedHold id link).isSome then side.send (.failed id error) else side
    | .loading id => if (side.relayedHold id link).isSome then side.send (.loading id) else side

def upstreamDropped (hold : ℕ) (error : Failure) (objects : Objects Failure)
    (side : ProviderSide Failure) : ProviderSide Failure :=
  match (side.relays hold).upstream with
  | none => side
  | some _ =>
    ((side.drop (.relayed hold)).replyAll (.relayed hold) error objects).send
      (.loading (side.relays hold).id)

/-- A relayed hold was revoked while it waited for its path's link. -/
def revoked (hold : ℕ) (error : Failure) (side : ProviderSide Failure) : ProviderSide Failure :=
  (forget (.relayed hold) (side.relays hold).id (side.drop (.relayed hold))).send
    (.gone (side.relays hold).id error)

def unlinked (link : ℕ) (side : ProviderSide Failure) : ProviderSide Failure :=
  { side with relay := side.relay.map fun links => links.filter (· ≠ link) }

/-! ### Batches -/

/-- A source a hold follows changed in the current batch. -/
def touch (hold index : ℕ) (change : WatchCall Failure) (side : ProviderSide Failure) :
    ProviderSide Failure :=
  let advanced := side.modify hold fun hold => hold.advance index change
  if (side.holds hold).touched then advanced
  else { advanced with touched := side.touched ++ [hold] }

end ProviderSide

end KnightCode.Remote
