import KnightCode.Watch.Watch

/-!
# Holds

A hold served over a link: where it stands, the state members it follows once it is bound, and what
they have for the next message. Sources and objects belong to the host and are referred to by
number.
-/

namespace KnightCode.Remote

open Delta

variable {Failure : Type}

/-- What a source shows: a value, or a failure it may recover from. -/
inductive Shown (Failure : Type)
  | value (value : Json)
  | failed (error : Failure)

/-- The value a source is read for; one that failed has nothing pending and is not read. -/
def Shown.json : Shown Failure → Json
  | .value shown => shown
  | .failed _ => .null

inductive StateMember
  | source (source : ℕ)
  | constant (value : Json)

structure Instance where
  variant : ℕ
  members : List StateMember

/-- What the host's sources and the objects of its holds show. -/
structure Objects (Failure : Type) where
  sources : ℕ → Shown Failure
  instances : ℕ → Instance

/-- A state member a bound hold follows. -/
structure Followed where
  source : ℕ
  encoder : Encoder
  pending : PendingOps

inductive HoldState (Failure : Type)
  | unplaced
  /-- With the failure its consumer was told, and whether it still takes calls by the names it was
  bound with. -/
  | pending (told : Option Failure) (previous : Bool)
  | binding (previous : Bool)
  /-- The instance it is bound to, and the members it follows by their index, in the order they were
  subscribed. -/
  | bound (object : Instance) (followed : List (ℕ × Followed))
  | refused (error : Failure)
  | released

abbrev Wire := List (List Json)

structure BoundEntry (Failure : Type) where
  hold : ℕ
  variant : ℕ
  members : List (ℕ × Json)
  failed : List (ℕ × Failure)

structure StateEntry (Failure : Type) where
  hold : ℕ
  members : List (ℕ × Wire)
  failed : List (ℕ × Failure)
  retired : List ℕ

structure Hold (Failure : Type) where
  id : ℕ
  state : HoldState Failure
  /-- The members the current batch changed, with their operations, in order. -/
  changes : List (ℕ × List Op)
  /-- The members that failed since the last message that carried this hold. -/
  failed : List (ℕ × Failure)
  retired : List ℕ
  touched : Bool

namespace Hold

def new (id : ℕ) : Hold Failure where
  id := id
  state := .pending none false
  changes := []
  failed := []
  retired := []
  touched := false

def followed (hold : Hold Failure) : List (ℕ × Followed) :=
  match hold.state with
  | .bound _ followed => followed
  | _ => []

def bound (hold : Hold Failure) : Bool :=
  match hold.state with
  | .bound _ _ => true
  | _ => false

/-- Whether calls on it reach its object. -/
def callable (hold : Hold Failure) : Bool :=
  match hold.state with
  | .bound _ _ => true
  | .pending _ previous => previous
  | .binding previous => previous
  | _ => false

/-- What a call it does not take is refused with. -/
def refusal (notReady : Failure) (hold : Hold Failure) : Failure :=
  match hold.state with
  | .refused error => error
  | .pending (some told) _ => told
  | _ => notReady

def setFollowed (followed : List (ℕ × Followed)) (hold : Hold Failure) : Hold Failure :=
  match hold.state with
  | .bound object _ => { hold with state := .bound object followed }
  | _ => hold

/-- Change the record of a member. -/
def follow (index : ℕ) (change : Followed → Followed) (followed : List (ℕ × Followed)) :
    List (ℕ × Followed) :=
  match Assoc.get index followed with
  | some member => Assoc.set index (change member) followed
  | none => followed

/-! ### Calls of the sources it follows -/

def memberFailed (index : ℕ) (error : Failure) (hold : Hold Failure) : Hold Failure :=
  { hold.setFollowed (follow index (fun member => { member with pending := .empty }) hold.followed)
    with failed := Assoc.set index error hold.failed }

def memberHealed (index : ℕ) (hold : Hold Failure) : Hold Failure :=
  { hold with failed := Assoc.erase index hold.failed }

/-- A frame of a member's source. -/
def advance (index : ℕ) (call : WatchCall Failure) (hold : Hold Failure) : Hold Failure :=
  let touched : Hold Failure := { hold with touched := true }
  match call with
  | .failed error => touched.memberFailed index error
  | .value call =>
    let healed := touched.memberHealed index
    { healed with
      changes := if call.ops = [] then healed.changes else healed.changes ++ [(index, call.ops)]
      retired :=
        if call.retired ∧ index ∉ healed.retired then healed.retired ++ [index]
        else healed.retired }

/-! ### Entries -/

/-- Take the current batch's changes. -/
def take (hold : Hold Failure) : List (ℕ × List Op) × Hold Failure :=
  (hold.changes, { hold with changes := [], touched := false })

/-- An entry with the failures and retirements since the last one. A failed member's retirement
travels with its next value. -/
def toEntry (members : List (ℕ × Wire)) (hold : Hold Failure) : StateEntry Failure × Hold Failure :=
  let kept := hold.retired.filter fun index => index ∈ Assoc.keys hold.failed
  (⟨hold.id, members, hold.failed, hold.retired.filter fun index => index ∉ kept⟩,
    { hold with failed := [], retired := kept })

/-- Each change encoded with its member's encoder. -/
def encodeChanges : List (ℕ × List Op) → List (ℕ × Followed) →
    List (ℕ × Wire) × List (ℕ × Followed)
  | [], followed => ([], followed)
  | (index, ops) :: rest, followed =>
    match Assoc.get index followed with
    | none => encodeChanges rest followed
    | some member =>
      let (wire, encoder) := encode member.encoder ops
      let (members, followed) :=
        encodeChanges rest (Assoc.set index { member with encoder := encoder } followed)
      ((index, wire) :: members, followed)

/-- This batch's entry. -/
def entry (hold : Hold Failure) : StateEntry Failure × Hold Failure :=
  let (changes, taken) := hold.take
  let (members, followed) := encodeChanges changes taken.followed
  (taken.setFollowed followed).toEntry members

/-- The window is full: this batch's operations join the members' pending queues. -/
def queue (hold : Hold Failure) : Hold Failure :=
  let (changes, taken) := hold.take
  taken.setFollowed <| changes.foldl (fun followed (index, ops) =>
    follow index (fun member => { member with pending := member.pending.push ops }) followed)
      taken.followed

def encodePending (sources : ℕ → Shown Failure) : List (ℕ × Followed) →
    List (ℕ × Wire) × List (ℕ × Followed)
  | [] => ([], [])
  | (index, member) :: rest =>
    let (members, followed) := encodePending sources rest
    if member.pending.size = 0 then (members, (index, member) :: followed)
    else
      let ops := member.pending.take.getD [.replace (sources member.source).json]
      if ops = [] then (members, (index, { member with pending := .empty }) :: followed)
      else
        let (wire, encoder) := encode member.encoder ops
        ((index, wire) :: members,
          (index, { member with encoder := encoder, pending := .empty }) :: followed)

/-- The entry of a freed slot. -/
def pendingEntry (sources : ℕ → Shown Failure) (hold : Hold Failure) :
    StateEntry Failure × Hold Failure :=
  let (members, followed) := encodePending sources hold.followed
  (hold.setFollowed followed).toEntry members

/-- The snapshot of the members from an index on: those with a value, those that failed, and those
to follow. -/
def snapshot (sources : ℕ → Shown Failure) : ℕ → List StateMember →
    List (ℕ × Json) × List (ℕ × Failure) × List (ℕ × Followed)
  | _, [] => ([], [], [])
  | index, .constant value :: rest =>
    let (members, failed, followed) := snapshot sources (index + 1) rest
    ((index, value) :: members, failed, followed)
  | index, .source source :: rest =>
    let (members, failed, followed) := snapshot sources (index + 1) rest
    let member : ℕ × Followed := (index, ⟨source, encoder, .empty⟩)
    match sources source with
    | .value value => ((index, value) :: members, failed, member :: followed)
    | .failed error => (members, (index, error) :: failed, member :: followed)

/-- The binding: the snapshot and the subscriptions in one step. -/
def boundEntry (sources : ℕ → Shown Failure) (object : Instance) (hold : Hold Failure) :
    BoundEntry Failure × Hold Failure :=
  let (members, failed, followed) := snapshot sources 0 object.members
  (⟨hold.id, object.variant, members, failed⟩,
    { hold with state := .bound object followed, changes := [], failed := [], retired := [] })

/-- The hold lost its binding: nothing of it is sent any more. -/
def unfollow (hold : Hold Failure) : Hold Failure :=
  { hold with changes := [], failed := [], retired := [], touched := false }

end Hold

end KnightCode.Remote
