import KnightCode.Library.Assoc

/-!
# The writer of one Session

The line admits each commit as a part. The writer sends the parts admitted while no call is in
flight as one storage call and publishes the parts of a call one by one, in line order; a held part
has no writes and is published when the parts before it are. A flush runs in segments: each
definition below runs up to the next `await`, and `Flight` says where it is suspended and what it
holds there. A scope that runs the publication at once is one whose two waits end at once.

Parts are numbered by admission. What the writer does to the outside is logged as `Action`s.
-/

namespace KnightCode.GroupCommit

/-- What a promise is rejected with. -/
inductive Thrown (ε : Type*)
  | value (value : ε)
  | error (message : String)
  | sessionFailed (cause : Thrown ε)
  deriving DecidableEq

inductive FailureKind
  | adoption
  | listener
  deriving DecidableEq

structure PublishFailure (ε : Type*) where
  kind : FailureKind
  error : Thrown ε
  deriving DecidableEq

/-- One logical commit the line admitted: stored, or held in memory only. -/
structure PartSpec (κ ω : Type*) where
  index : ℕ
  writes : Option ω
  keys : List κ
  deriving DecidableEq

structure Part (κ ω : Type*) extends PartSpec κ ω where
  number : ℕ
  deriving DecidableEq

/-- How a part that will not resolve settles: with an error of its own, or `SessionFailed`. -/
inductive FailedOutcome (ε : Type*)
  | own (error : Thrown ε)
  | failed

structure CommitResult (ε : Type*) where
  stored : ℕ
  refused : Option (Thrown ε)

structure Stop (ε : Type*) where
  error : Thrown ε
  line : ℕ
  external : Bool

structure Failing (κ ω ε : Type*) where
  part : Part κ ω
  outcome : FailedOutcome ε
  published : Bool

/-- The local variables of `#publish`. -/
structure Loop (κ ω ε : Type*) where
  seqs : List (Option ℕ)
  result : Option (CommitResult ε)
  rejected : Option (Thrown ε)
  stop : Option (Stop ε)
  failing : List (Failing κ ω ε)
  storedIndex : ℕ
  published : ℕ

/-- Where a flush is suspended. -/
inductive Flight (κ ω ε : Type*)
  | storing (parts : List (Part κ ω))
  | hopping (l : Loop κ ω ε) (part : Part κ ω) (seq : Option ℕ) (rest : List (Part κ ω))
  | publishing (l : Loop κ ω ε) (part : Part κ ω) (seq : Option ℕ) (rest : List (Part κ ω))
  /-- in `host.publishing()`, which has run it -/
  | ran (l : Loop κ ω ε) (part : Part κ ω) (rest : List (Part κ ω))
      (external : Option (Thrown ε)) (failure : Option (PublishFailure ε))
  | failing (l : Loop κ ω ε)
  /-- `#send` is done, `#flush` goes on in a microtask -/
  | returning

inductive Action (ε : Type*)
  | sent (parts : List ℕ)
  | published (part : ℕ) (seq : Option ℕ) (failure : Option (PublishFailure ε))
  | discarded (part : ℕ)
  | resolved (part : ℕ)
  | rejected (part : ℕ) (error : Thrown ε)
  | opened (part : ℕ)
  | failed (error : Thrown ε) (line : Option ℕ) (own : List ℕ)
  | reported (error : Thrown ε)
  deriving DecidableEq

/-- The writer, with the failure of its Session and what it did so far. -/
structure Writer (κ ω ε : Type*) where
  admitted : ℕ
  queue : List (Part κ ω)
  flight : Option (Flight κ ω ε)
  unpublished : List (κ × ℕ)
  newest : Option ℕ
  failure : Option (Thrown ε)
  trace : List (Action ε)

def Writer.empty {κ ω ε : Type*} : Writer κ ω ε where
  admitted := 0
  queue := []
  flight := none
  unpublished := []
  newest := none
  failure := none
  trace := []

variable {κ ω ε : Type*} [DecidableEq κ]

def record (s : Writer κ ω ε) (a : Action ε) : Writer κ ω ε :=
  { s with trace := s.trace ++ [a] }

/-- The Session's `fail()`: its first failure stands. -/
def fail (s : Writer κ ω ε) (error : Thrown ε) (line : Option ℕ) (own : List ℕ) :
    Writer κ ω ε :=
  match s.failure with
  | some _ => s
  | none => { record s (.failed error line own) with failure := some error }

/-- Drop the keys a part is still the newest writer of. -/
def unregister (s : Writer κ ω ε) (part : Part κ ω) : Writer κ ω ε :=
  { s with
    unpublished := part.keys.foldl
      (fun m key => if Assoc.get key m = some part.number then Assoc.erase key m else m)
      s.unpublished }

def openGate (s : Writer κ ω ε) (part : Part κ ω) : Writer κ ω ε :=
  { record s (.opened part.number) with
    newest := if s.newest = some part.number then none else s.newest }

/-- Settle a part that will never be published. -/
def unpublish (s : Writer κ ω ε) (part : Part κ ω) (error : Thrown ε) : Writer κ ω ε :=
  let s := record s (.discarded part.number)
  let s := record s (.rejected part.number error)
  let s := unregister s part
  openGate s part

def unpublishAll (s : Writer κ ω ε) (parts : List (Part κ ω)) (error : Thrown ε) :
    Writer κ ω ε :=
  parts.foldl (fun s part => unpublish s part error) s

/-- `SessionFailed` with the Session's failure, or with `error` until the Session records it. -/
def sessionFailed (s : Writer κ ω ε) (error : Thrown ε) : Thrown ε :=
  .sessionFailed (s.failure.getD error)

/-- `stop!.error`, where a missing `stop` is a `TypeError`. -/
def stopError (l : Loop κ ω ε) : Thrown ε :=
  match l.stop with
  | some stop => stop.error
  | none => .error "Cannot read properties of undefined (reading 'error')"

def settleFailed (l : Loop κ ω ε) (s : Writer κ ω ε) (f : Failing κ ω ε) : Writer κ ω ε :=
  let error :=
    match f.outcome with
    | .own error => error
    | .failed => sessionFailed s (stopError l)
  if f.published then openGate (record s (.rejected f.part.number error)) f.part
  else unpublish s f.part error

/-- Settle the failing parts of a call, once the Session failed. -/
def settleFailing (s : Writer κ ω ε) (l : Loop κ ω ε) : Writer κ ω ε :=
  l.failing.foldl (settleFailed l) s

/-- Parts admitted while a failed call ran are never sent. -/
def dropQueue (s : Writer κ ω ε) : Writer κ ω ε :=
  match s.failure with
  | some error => unpublishAll { s with queue := [] } s.queue (.sessionFailed error)
  | none => s

/-- The end of `#publish`. -/
def finish (s : Writer κ ω ε) (l : Loop κ ω ε) : Writer κ ω ε :=
  { dropQueue (settleFailing s l) with flight := some .returning }

def outcomeAfter (l : Loop κ ω ε) (stop : Stop ε) (stored : Bool) : FailedOutcome ε :=
  match l.rejected with
  | some error => if stored ∧ stop.external = false then .own error else .failed
  | none => .failed

/-- Why a stored part has no receipt. -/
def missing (l : Loop κ ω ε) : Thrown ε :=
  match l.rejected, l.result with
  | some error, _ => error
  | none, some ⟨stored, some refused⟩ =>
    if l.storedIndex = stored then refused
    else .error "Storage committed without adopting the batch"
  | none, _ => .error "Storage committed without adopting the batch"

def publishLoop (s : Writer κ ω ε) (l : Loop κ ω ε) : List (Part κ ω) → Writer κ ω ε
  | [] =>
    if l.rejected.isSome ∨ l.stop.isSome then { s with flight := some (.failing l) }
    else finish s l
  | part :: rest =>
    let stored := part.writes.isSome
    let next := { l with storedIndex := if stored then l.storedIndex + 1 else l.storedIndex }
    match l.stop with
    | some stop =>
      publishLoop s
        { next with failing := l.failing ++ [⟨part, outcomeAfter l stop stored, false⟩] } rest
    | none =>
      let seq := if stored then l.seqs[l.storedIndex]?.join else none
      if stored ∧ seq = none then
        publishLoop s
          { next with
            failing := l.failing ++ [⟨part, .own (missing l), false⟩]
            stop := some ⟨missing l, part.index, false⟩ } rest
      else
        let wait := if 0 < l.published then Flight.hopping else Flight.publishing
        { s with flight := some (wait { next with published := l.published + 1 } part seq rest) }

/-- `#send` of the queue, while nothing is in flight. -/
def pump (s : Writer κ ω ε) : Writer κ ω ε :=
  if s.flight.isSome ∨ s.queue = [] then s
  else
    let parts := s.queue
    let stored := parts.filter (fun part => part.writes.isSome)
    let s := { s with queue := [] }
    match s.failure with
    | some error =>
      { unpublishAll s parts (.sessionFailed error) with flight := some .returning }
    | none =>
      if stored ≠ [] then
        { record s (.sent (stored.map Part.number)) with flight := some (.storing parts) }
      else publishLoop s ⟨[], none, none, none, [], 0, 0⟩ parts

def newPart (s : Writer κ ω ε) (spec : PartSpec κ ω) : Part κ ω :=
  { spec with number := s.admitted }

/-- Register the keys of a new part and queue it. -/
def enqueue (s : Writer κ ω ε) (spec : PartSpec κ ω) : Writer κ ω ε :=
  let part := newPart s spec
  { s with
    admitted := s.admitted + 1
    unpublished := part.keys.foldl (fun m key => Assoc.set key part.number m) s.unpublished
    newest := some part.number
    queue := s.queue ++ [part] }

def admitPart (s : Writer κ ω ε) (spec : PartSpec κ ω) : Writer κ ω ε :=
  pump (enqueue s spec)

/-- The storage call settled, with the receipts so far. -/
def stored (s : Writer κ ω ε) (parts : List (Part κ ω)) (seqs : List (Option ℕ))
    (result : Except (Thrown ε) (CommitResult ε)) : Writer κ ω ε :=
  match s.failure with
  | some error =>
    { unpublishAll s parts (.sessionFailed error) with flight := some .returning }
  | none =>
    match result with
    | .ok result => publishLoop s ⟨seqs, some result, none, none, [], 0, 0⟩ parts
    | .error rejected => publishLoop s ⟨seqs, none, some rejected, none, [], 0, 0⟩ parts

/-- The scope runs the publication, unless the Session failed meanwhile. -/
def publish (s : Writer κ ω ε) (l : Loop κ ω ε) (part : Part κ ω) (seq : Option ℕ)
    (rest : List (Part κ ω)) (failure : Option (PublishFailure ε)) : Writer κ ω ε :=
  match s.failure with
  | some error => { s with flight := some (.ran l part rest (some error) none) }
  | none =>
    { record (unregister s part) (.published part.number seq failure) with
      flight := some (.ran l part rest none failure) }

/-- An outcome of its own for a part that was published. -/
def Loop.failed (l : Loop κ ω ε) (part : Part κ ω) (error : Thrown ε) : Loop κ ω ε :=
  { l with failing := l.failing ++ [⟨part, .own error, true⟩] }

/-- The part is published: it resolves, unless the Session failed meanwhile. -/
def settlePublished (s : Writer κ ω ε) (part : Part κ ω)
    (failure : Option (PublishFailure ε)) : Writer κ ω ε :=
  match s.failure, failure with
  | some error, none => openGate (record s (.rejected part.number (.sessionFailed error))) part
  | _, _ => openGate (record s (.resolved part.number)) part

def afterScope (s : Writer κ ω ε) (l : Loop κ ω ε) (part : Part κ ω) (rest : List (Part κ ω))
    (external : Option (Thrown ε)) (failure : Option (PublishFailure ε)) : Writer κ ω ε :=
  match external with
  | some error =>
    publishLoop s
      { l with
        stop := some ⟨error, part.index, true⟩
        failing := l.failing ++ [⟨part, .failed, false⟩] } rest
  | none =>
    match failure with
    | some ⟨.adoption, error⟩ =>
      publishLoop s { l.failed part error with stop := some ⟨error, part.index, false⟩ } rest
    | _ =>
      match l.rejected with
      | some rejected =>
        -- The call rejected: an own observer's throw is only reported.
        let s := match failure with
          | some failure => record s (.reported failure.error)
          | none => s
        publishLoop s (l.failed part rejected) rest
      | none =>
        let l := match failure with
          | some failure => { l with stop := some ⟨failure.error, part.index, false⟩ }
          | none => l
        publishLoop (settlePublished s part failure) l rest

/-- The lines whose outcome is an error of their own. -/
def Loop.own (l : Loop κ ω ε) : List ℕ :=
  l.failing.filterMap fun f =>
    match f.outcome with
    | .own _ => some f.part.index
    | .failed => none

/-- The Session fails, and what the failure decides is settled. -/
def failSession (s : Writer κ ω ε) (l : Loop κ ω ε) : Writer κ ω ε :=
  match l.rejected, l.stop with
  | some error, _ => finish (fail s error l.own.head? l.own) l
  | none, some stop => finish (fail s stop.error (some stop.line) l.own) l
  | none, none => finish s l

/-- `#flush` goes on. -/
def flushed (s : Writer κ ω ε) : Writer κ ω ε :=
  pump { s with flight := none }

end KnightCode.GroupCommit
