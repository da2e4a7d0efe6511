import KnightCode.Durable.MemoryStorage
import KnightCode.Library.System

/-!
# Document incarnations

The reads of documents, at present and at past sequence numbers, and what they are about: what the
writes of accepted batches say of a document, in order. A document is an incarnation from the batch
that creates it to the one that retires it, and its value the fold of the contents it was given.
-/

namespace KnightCode.Memory

open SortedIds

structure DocumentQuery where
  scope : Scope
  point : DocumentPoint
  kind : Option String

variable {ρ : Type}

namespace State

variable (s : State ρ)

/-! ### Reads -/

def addressIndex (key : DocumentAddress) : DocumentAddressIndex :=
  (Assoc.get key s.documentAddresses).getD ⟨[], none⟩

def firstAlive (point : DocumentPoint) : List ℤ → Except StorageError (Option DocumentRecord)
  | [] => .ok none
  | id :: ids =>
    match Assoc.get id s.documents with
    | none => .error .undefined
    | some stored =>
      if stored.record.isAliveAt point then .ok (some stored.record) else firstAlive point ids

def findDocument (address : DocumentAddress) (point : DocumentPoint) :
    Except StorageError (Option DocumentRecord) :=
  match point with
  | .current =>
    match (s.addressIndex address).currentId with
    | none => .ok none
    | some id =>
      match Assoc.get id s.documents with
      | none => .error .undefined
      | some stored => .ok (some stored.record)
  | .seq seq => s.firstAlive (.seq seq) (s.addressIndex address).ids

def collect (query : DocumentQuery) : ℕ → List ℤ → Except StorageError (List DocumentRecord)
  | 0, _ => .ok []
  | _, [] => .ok []
  | budget + 1, id :: ids =>
    match Assoc.get id s.documents with
    | none => .error .undefined
    | some stored =>
      if query.kind.any (stored.record.kind ≠ ·) then collect query (budget + 1) ids
      else if stored.record.isAliveAt query.point then
        (collect query budget ids).map (stored.record :: ·)
      else collect query (budget + 1) ids

def scopeIds (scope : Scope) : List ℤ :=
  (Assoc.get scope s.documentIdsByScope).getD []

def scanDocuments (query : DocumentQuery) (limit : ℕ) (cursor : Option Cursor) :
    Except StorageError (Page DocumentRecord) :=
  let ids := s.scopeIds query.scope
  if cursor.any fun cursor =>
      cursor.after < -MAX_SAFE_INTEGER ∨ MAX_SAFE_INTEGER < cursor.after then
    .error (.request "Invalid storage cursor")
  else do
    let values ← s.collect query (limit + 1) (ids.drop (cursor.elim 0 (upperBound ids ·.after)))
    page (·.id) values limit .ascending

end State

/-! ### What batches did -/

def incarnation (deeds : DocumentActions) : Option DocumentRecord :=
  (deeds.findSome? fun deed => deed.2.create.map (deed.1, ·)).map fun created =>
    ⟨created.2, created.1, deeds.findSome? fun deed => if deed.2.retire then some deed.1 else none⟩

def DocumentPoint.reaches (point : DocumentPoint) (seq : ℤ) : Bool :=
  match point with
  | .current => true
  | .seq at' => seq ≤ at'

/-- Whether the incarnation some deeds make was there, unretired, at a point. -/
def Alive (deeds : DocumentActions) (point : DocumentPoint) : Prop :=
  ∃ record, incarnation (deeds.filter (point.reaches ·.1)) = some record ∧ record.retiredAt = none

def contents (deeds : DocumentActions) (point : DocumentPoint) : List DocumentContent :=
  (deeds.filter (point.reaches ·.1)).filterMap (·.2.content)

/-- One content after what the ones before it made: a base replaces it, a delta applies to it. -/
def foldStep (made : Option (Except Delta.DeltaError (ℤ × Delta.Json))) (content : DocumentContent) :
    Option (Except Delta.DeltaError (ℤ × Delta.Json)) :=
  match content with
  | .base version value => some (.ok (version, value))
  | .delta version ops => made.map fun made => do
      let before ← made
      let value ← Delta.applyOps before.2 ops
      return (version, value)

/-- The version and value that contents make one after another, from a base on. -/
def foldContents (contents : List DocumentContent) :
    Option (Except Delta.DeltaError (ℤ × Delta.Json)) :=
  contents.foldl foldStep none

def DocumentContent.isDelta : DocumentContent → Bool
  | .base .. => false
  | .delta .. => true

def deltasSinceBase (contents : List DocumentContent) : ℕ :=
  (contents.reverse.takeWhile (·.isDelta)).length

/-- A read gives what the contents make, or throws as the application of their operations does. -/
def ReadsFold (record : DocumentRecord) (contents : List DocumentContent)
    (read : Except StorageError (Option State.StoredDocument)) : Prop :=
  match foldContents contents with
  | none => False
  | some (.ok (version, value)) =>
    read = .ok (some ⟨record, version, value, deltasSinceBase contents⟩)
  | some (.error _) => ∃ error, read = .error (.delta error)

/-! ### Runs -/

/-- The writes of a batch and its sequence number. -/
abbrev Batch (ρ : Type) := Writes ρ × ℤ

/-- What a write says of a document; a copy brings what its source held. -/
def StorageWrite.deed (held : DocumentCopySource → Option (ℤ × Delta.Json)) (id : ℤ) :
    StorageWrite ρ → Option DocumentAction
  | .create record version value =>
    if record.id = id then some ⟨some record, some (.base version value), false⟩ else none
  | .copy record source =>
    if record.id = id then
      some ⟨some record, (held source).map fun made => .base made.1 made.2, false⟩
    else none
  | .change id' content => if id' = id then some ⟨none, some content, false⟩ else none
  | .retire id' => if id' = id then some ⟨none, none, true⟩ else none
  | _ => none

/-- What the contents of a source made up to its point. -/
def heldBy (deeds : ℤ → DocumentActions) (source : DocumentCopySource) :
    Option (ℤ × Delta.Json) :=
  match foldContents (contents (deeds source.id) source.at') with
  | some (.ok made) => some made
  | _ => none

/-- What the writes of batches say of each document, in order. -/
def deeds (log : List (Batch ρ)) : ℤ → DocumentActions :=
  log.foldl (fun deeds batch id =>
    deeds id ++ (batch.1.filterMap (·.deed (heldBy deeds) id)).map (batch.2, ·)) fun _ => []

/-- A batch is prepared at a sequence number; one that is accepted is applied and logged. -/
def commitLogged (owned : ℕ → Bool) (w : State ρ × List (Batch ρ)) (batch : Batch ρ) :
    State ρ × List (Batch ρ) :=
  match w.1.prepareCommit owned batch.1 batch.2 with
  | .ok prepared => (w.1.apply prepared, w.2 ++ [batch])
  | .error _ => w

/-- A storage and the batches it accepted. -/
def documentSystem (ρ : Type) (owned : ℕ → Bool) :
    System (State ρ × List (Batch ρ)) (Batch ρ) where
  init := fun w => w = (State.init, [])
  step := fun w event w' => w' = commitLogged owned w event

end KnightCode.Memory
