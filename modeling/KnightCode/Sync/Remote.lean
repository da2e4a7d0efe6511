import Mathlib.Data.List.MinMax
import KnightCode.Library.Assoc
import KnightCode.Library.Prefix

/-!
# A session on the remote

Slots that are created once, snapshots folded from them, and the history a copy applies to reach
the remote's head. A sequence numbers a session's commits from one; an archive of a store is
represented by the outbox commits its state results from.
-/

namespace KnightCode.Sync

variable {D W : Type}

/-- The sequence before every commit. -/
def LOG_START : ℕ := 0

structure OutboxCommit (W : Type) where
  seq : ℕ
  writes : W

def outboxRows (after : ℕ) : List W → List (OutboxCommit W)
  | [] => []
  | writes :: rest => ⟨after + 1, writes⟩ :: outboxRows (after + 1) rest

/-- A slot: the commits after `after`, up to `upTo`, uploaded by `device`. -/
structure BatchInfo (D : Type) where
  after : ℕ
  upTo : ℕ
  device : D
  folded : Bool
  archive : Bool
deriving DecidableEq

structure Slot (D W : Type) extends BatchInfo D where
  body : List (OutboxCommit W)

structure RemoteListing (D : Type) where
  batches : List (BatchInfo D)
  snapshots : List ℕ

structure Remote (D W : Type) where
  slots : List (Slot D W)
  snapshots : List (ℕ × List (OutboxCommit W))

inductive PutBatchResult (D : Type)
  | created
  | slotExists (upTo : ℕ) (device : D)
  | notHead (head : ℕ)
  | staleEpoch

/-- What a copy applies to reach the remote's head. -/
structure RemoteHistory (D : Type) where
  snapshot : Option ℕ
  batches : List (BatchInfo D)
  head : ℕ

/-- `chain.get` on the map from each batch's start to the batch. -/
def chainGet (batches : List (BatchInfo D)) (seq : ℕ) : Option (BatchInfo D) :=
  batches.reverse.find? fun batch => batch.after = seq

/-- The batches that continue from `seq`, each from where the one before ends; each is met once, so
`fuel` is their number. -/
def follow (batches : List (BatchInfo D)) : ℕ → ℕ → List (BatchInfo D)
  | 0, _ => []
  | fuel + 1, seq =>
    match chainGet batches seq with
    | none => []
    | some batch => batch :: follow batches fuel batch.upTo

def endOf (seq : ℕ) (batches : List (BatchInfo D)) : ℕ :=
  (batches.getLast?.map (·.upTo)).getD seq

def remoteHistory (listing : RemoteListing D) (start : Option ℕ) : RemoteHistory D :=
  let fuel := listing.batches.length
  if start = none ∨ start = some LOG_START then
    let snapshot := listing.snapshots.max?
    let seq := snapshot.getD LOG_START
    let batches := follow listing.batches fuel seq
    ⟨snapshot, batches, endOf seq batches⟩
  else
    let seq := start.getD LOG_START
    -- A pull that stopped inside a batch finishes it.
    match listing.batches.find? fun batch => batch.after < seq ∧ seq < batch.upTo with
    | some inside =>
      let batches := inside :: follow listing.batches fuel inside.upTo
      ⟨none, batches, endOf seq batches⟩
    | none =>
      let batches := follow listing.batches fuel seq
      ⟨none, batches, endOf seq batches⟩

/-- The furthest head the remote's history reaches. -/
def remoteHead (listing : RemoteListing D) : ℕ :=
  endOf LOG_START (follow listing.batches listing.batches.length LOG_START)

namespace Remote

def empty : Remote D W :=
  ⟨[], []⟩

def list (remote : Remote D W) : RemoteListing D :=
  ⟨remote.slots.map (·.toBatchInfo), remote.snapshots.map (·.1)⟩

def slot (after : ℕ) (remote : Remote D W) : Option (Slot D W) :=
  remote.slots.find? fun slot => slot.after = after

def create (slot : Slot D W) (remote : Remote D W) : Remote D W :=
  { remote with slots := remote.slots ++ [slot] }

/-- Create the slot after `after` unless it exists or the history does not end at `after`. -/
def putBatch (after upTo : ℕ) (device : D) (archive : Bool) (body : List (OutboxCommit W))
    (remote : Remote D W) : PutBatchResult D × Remote D W :=
  match remote.slot after with
  | some existing => (.slotExists existing.upTo existing.device, remote)
  | none =>
    if after = remoteHead remote.list then
      (.created, remote.create ⟨⟨after, upTo, device, false, archive⟩, body⟩)
    else (.notHead (remoteHead remote.list), remote)

/-- A batch's body, `none` when its slot is folded or absent. -/
def getBatch (after : ℕ) (remote : Remote D W) : Option (List (OutboxCommit W)) :=
  (remote.slot after).bind fun slot => if slot.folded then none else some slot.body

def getSnapshot (upTo : ℕ) (remote : Remote D W) : Option (List (OutboxCommit W)) :=
  Assoc.get upTo remote.snapshots

def putSnapshot (upTo : ℕ) (body : List (OutboxCommit W)) (remote : Remote D W) : Remote D W :=
  { remote with snapshots := Assoc.set upTo body remote.snapshots }

/-- Drop the body of a slot, the slot staying taken. -/
def foldBatch (after : ℕ) (remote : Remote D W) : Remote D W :=
  { remote with
    slots := remote.slots.map fun slot =>
      if slot.after = after then { slot with folded := true } else slot }

def deleteSnapshot (upTo : ℕ) (remote : Remote D W) : Remote D W :=
  { remote with snapshots := Assoc.erase upTo remote.snapshots }

/-- Every commit the remote ever took, in the order of its slots. -/
def log (remote : Remote D W) : List W :=
  remote.slots.flatMap fun slot => slot.body.map (·.writes)

end Remote

end KnightCode.Sync
