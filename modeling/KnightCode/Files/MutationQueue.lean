import KnightCode.Library.System
import KnightCode.Library.TicketLock

/-!
# The queue of file mutations

Operations on a file run one after another. A call first waits for the lookups of the calls before
it, then looks up the file's real path, which is the key of its queue, and takes the place behind
the call that is last in that queue. A lookup, the place in the queue, the operation and its end are
steps of their own; what is on the disk may change before each of them.
-/

namespace KnightCode.Files

/-- What a lookup throws, with its `code` when it is an object that has one. -/
structure Thrown where
  code : Option String
deriving DecidableEq

/-- The paths of the system: `resolve` of node:path, and `realpath` on a disk. -/
structure FileSystem (Φ π : Type*) where
  resolve : π → π
  realpath : Φ → π → Except Thrown π

def isMissingPathError (error : Thrown) : Bool :=
  error.code = some "ENOENT" ∨ error.code = some "ENOTDIR"

/-- Where a call is. A promise that a call awaits is that of another call, or none. -/
inductive Phase (π : Type*)
  | registering
  | found (key : Except Thrown π)
  | queued (key : π) (currentQueue : Option ℕ)
  | running (key : π) (currentQueue : Option ℕ)
  | done (key : π) (currentQueue : Option ℕ) (failed : Bool)
  | rejected (error : Thrown)

structure Call (π : Type*) where
  filePath : π
  phase : Phase π

structure State (Φ π : Type*) where
  disk : Φ
  calls : List (Call π)
  fileMutationQueues : π → Option ℕ

inductive Event (Φ π : Type*)
  | call (filePath : π)
  | lookup (i : ℕ)
  | register (i : ℕ)
  | start (i : ℕ)
  | finish (i : ℕ) (failed : Bool)
  | change (disk : Φ)

namespace Phase

variable {π : Type*}

/-- The registration of the call has ended, with or without a place in a queue. -/
def Registered : Phase π → Prop
  | registering => False
  | found _ => False
  | queued _ _ => True
  | running _ _ => True
  | done _ _ _ => True
  | rejected _ => True

def Ended : Phase π → Prop
  | done _ _ _ => True
  | rejected _ => True
  | _ => False

/-- The call's place in the queue of its key. -/
def ticket : Phase π → Option (Ticket π)
  | queued key currentQueue => some ⟨key, currentQueue, .waiting⟩
  | running key currentQueue => some ⟨key, currentQueue, .started⟩
  | done key currentQueue _ => some ⟨key, currentQueue, .released⟩
  | _ => none

end Phase

section

variable {Φ π : Type*}

def State.phase (s : State Φ π) (i : ℕ) : Option (Phase π) :=
  (s.calls[i]?).map Call.phase

/-- The places in the queues. -/
def State.lock (s : State Φ π) : TicketLock π where
  ticket := fun i => (s.phase i).bind Phase.ticket
  last := s.fileMutationQueues

def State.set (s : State Φ π) (i : ℕ) (phase : Phase π) : State Φ π :=
  { s with calls := s.calls.modify i fun call => { call with phase } }

variable (env : FileSystem Φ π)

def getMutationQueueKey (disk : Φ) (filePath : π) : Except Thrown π :=
  let resolvedPath := env.resolve filePath
  match env.realpath disk resolvedPath with
  | .ok path => .ok path
  | .error error => if isMissingPathError error then .ok resolvedPath else .error error

variable [DecidableEq π]

/-- `withFileMutationQueue`, step by step. -/
inductive Step : State Φ π → Event Φ π → State Φ π → Prop
  | call (s : State Φ π) (filePath : π) :
    Step s (.call filePath) { s with calls := s.calls ++ [⟨filePath, .registering⟩] }
  /-- `registrationQueue` holds a registration back until the one before it has ended. -/
  | lookup {s : State Φ π} {i : ℕ} {filePath : π} (h : s.calls[i]? = some ⟨filePath, .registering⟩)
      (hqueue : ∀ previous, i = previous + 1 → ∃ phase, s.phase previous = some phase ∧
        phase.Registered) :
    Step s (.lookup i) (s.set i (.found (getMutationQueueKey env s.disk filePath)))
  | register {s : State Φ π} {i : ℕ} {key : π} (h : s.phase i = some (.found (.ok key))) :
    Step s (.register i)
      { s.set i (.queued key (s.fileMutationQueues key)) with
        fileMutationQueues := Function.update s.fileMutationQueues key (some i) }
  | reject {s : State Φ π} {i : ℕ} {error : Thrown} (h : s.phase i = some (.found (.error error))) :
    Step s (.register i) (s.set i (.rejected error))
  /-- `chainedQueue` is resolved when the queue before it is and its call has released it. -/
  | start {s : State Φ π} {i : ℕ} {key : π} {currentQueue : Option ℕ}
      (h : s.phase i = some (.queued key currentQueue)) (hqueue : s.lock.Resolved currentQueue) :
    Step s (.start i) (s.set i (.running key currentQueue))
  | finish {s : State Φ π} {i : ℕ} {key : π} {currentQueue : Option ℕ}
      (h : s.phase i = some (.running key currentQueue)) (failed : Bool) :
    Step s (.finish i failed)
      { s.set i (.done key currentQueue failed) with
        fileMutationQueues :=
          if s.fileMutationQueues key = some i then Function.update s.fileMutationQueues key none
          else s.fileMutationQueues }
  | change (s : State Φ π) (disk : Φ) : Step s (.change disk) { s with disk }

def mutationSystem : System (State Φ π) (Event Φ π) where
  init := fun s => s.calls = [] ∧ s.fileMutationQueues = fun _ => none
  step := Step env

end

end KnightCode.Files
