import KnightCode.Delta.ApplyImmutable
import KnightCode.Library.SortedIds

/-!
# Memory storage

The records of a `MemoryStorage`, its indexes, and a commit: a batch is checked whole before any of
it is stored, copies of documents are read from what is stored before it, and the commands on one
document are gathered into one action. Tasks and submissions are kept as ids of their tables.
-/

namespace KnightCode.Memory

open SortedIds

inductive TableName
  | conversation
  | entry
  | task
  | submission
  | document
  deriving DecidableEq

def TableName.text : TableName → String
  | .conversation => "conversation"
  | .entry => "entry"
  | .task => "task"
  | .submission => "submission"
  | .document => "document"

/-- `{ conversationId, at }` of a conversation's parent, the entry included. -/
structure Fork where
  conversationId : ℤ
  at' : ℤ

structure ConversationRecord where
  id : ℤ
  parent : Option Fork
  /-- `{ conversationId, taskId }` -/
  owner : Option (ℤ × ℤ)

structure EntryRecord (ρ : Type) where
  id : ℤ
  conversationId : ℤ
  head : Option ℤ
  rest : ρ

inductive Scope
  | session
  | conversation (conversationId : ℤ)
  | task (taskId : ℤ)
  deriving DecidableEq

inductive History
  | latest
  | rewindable
  deriving DecidableEq

inductive ForkMode
  | asOf
  | current
  | initial
  deriving DecidableEq

structure DocumentCreate where
  id : ℤ
  kind : String
  key : Option String
  scope : Scope
  history : Option History
  fork : Option ForkMode

structure DocumentRecord extends DocumentCreate where
  createdAt : ℤ
  retiredAt : Option ℤ

/-- What `addressKey` and `scopeKey` make texts of, one for one. -/
structure DocumentAddress where
  kind : String
  scope : Scope
  key : Option String
  deriving DecidableEq

def recordAddressKey (record : DocumentCreate) : DocumentAddress where
  kind := record.kind
  scope := record.scope
  key := record.key

inductive DocumentPoint
  | current
  | seq (seq : ℤ)

inductive DocumentContent
  | base (version : ℤ) (value : Delta.Json)
  | delta (version : ℤ) (ops : List Delta.Op)

def DocumentContent.version : DocumentContent → ℤ
  | .base version _ => version
  | .delta version _ => version

structure DocumentRevision where
  content : DocumentContent
  seq : ℤ

structure StoredDocumentState where
  record : DocumentRecord
  revisions : List DocumentRevision

structure DocumentCopySource where
  id : ℤ
  at' : DocumentPoint

inductive StorageWrite (ρ : Type)
  | conversation (value : ConversationRecord)
  | entry (value : EntryRecord ρ)
  | task (id : ℤ)
  | submission (id : ℤ)
  | create (record : DocumentCreate) (version : ℤ) (value : Delta.Json)
  | copy (record : DocumentCreate) (source : DocumentCopySource)
  | change (id : ℤ) (content : DocumentContent)
  | retire (id : ℤ)

abbrev Writes (ρ : Type) := List (StorageWrite ρ)

structure DocumentAction where
  create : Option DocumentCreate
  content : Option DocumentContent
  retire : Bool

abbrev DocumentActions := List (ℤ × DocumentAction)

structure DocumentAddressIndex where
  ids : List ℤ
  currentId : Option ℤ

structure State (ρ : Type) where
  recordTypes : List (ℤ × TableName)
  conversations : List (ℤ × ConversationRecord)
  entries : List (ℤ × EntryRecord ρ)
  entryIds : List (ℤ × List ℤ)
  headEntryIds : List (ℤ × List ℤ)
  entryCommitSeqs : List (ℤ × ℤ)
  documents : List (ℤ × StoredDocumentState)
  documentAddresses : List (DocumentAddress × DocumentAddressIndex)
  documentIdsByScope : List (Scope × List ℤ)
  nextId : ℤ
  nextSeq : ℤ

inductive StorageError
  /-- `StorageRequestError` -/
  | request (message : String)
  | error (message : String)
  | copy (id : ℤ) (cause : StorageError)
  /-- What applying operations throws. -/
  | delta (error : Delta.DeltaError)
  /-- `TypeError`: a property of `undefined` -/
  | undefined
  /-- A loop that does not end. -/
  | endless

def MAX_SAFE_INTEGER : ℤ := 9007199254740991

variable {ρ : Type}

def DocumentRecord.isAliveAt (record : DocumentRecord) : DocumentPoint → Bool
  | .current => record.retiredAt.isNone
  | .seq seq => record.createdAt ≤ seq && record.retiredAt.all (seq < ·)

def DocumentCreate.isCurrentOnly (record : DocumentCreate) : Bool :=
  match record.scope with
  | .conversation _ => record.history = some .latest
  | _ => true

def insertMapId {κ : Type} [DecidableEq κ] (index : List (κ × List ℤ)) (key : κ) (id : ℤ) :
    List (κ × List ℤ) :=
  Assoc.set key (insertSorted ((Assoc.get key index).getD []) id) index

namespace State

def init : State ρ where
  recordTypes := []
  conversations := []
  entries := []
  entryIds := []
  headEntryIds := []
  entryCommitSeqs := []
  documents := []
  documentAddresses := []
  documentIdsByScope := []
  nextId := 2
  nextSeq := 1

variable (s : State ρ)

/-! ### Documents as stored -/

/-- The deltas of a document from a base on, applied one after another. `owned` tells of an
operation, counted from the base, whether its target was copied by an earlier one. -/
def replay (owned : ℕ → Bool) (id version : ℤ) :
    ℕ → Delta.Json → List DocumentRevision → Except StorageError Delta.Json
  | _, value, [] => .ok value
  | n, value, revision :: revisions =>
    match revision.content with
    | .delta version' ops =>
      if version' ≠ version then
        .error (.error s!"Document {id} crosses a stored version boundary without a base")
      else do
        let next ← (Delta.applyImmutableFrom owned n value ops).mapError .delta
        replay owned id version (n + ops.length) next revisions
    | .base .. => .error (.error s!"Document {id} crosses a stored version boundary without a base")

def lastBase : List DocumentRevision → Option (ℤ × Delta.Json × List DocumentRevision)
  | [] => none
  | revision :: revisions =>
    match lastBase revisions, revision.content with
    | some found, _ => some found
    | none, .base version value => some (version, value, revisions)
    | none, .delta .. => none

structure StoredDocument where
  record : DocumentRecord
  version : ℤ
  value : Delta.Json
  deltasSinceBase : ℕ

def materializeDocument (owned : ℕ → Bool) (id : ℤ) (point : DocumentPoint) :
    Except StorageError (Option StoredDocument) :=
  match Assoc.get id s.documents with
  | none => .ok none
  | some stored =>
    let past : Option ℤ :=
      match point with
      | .current => none
      | .seq seq => some seq
    if past.isSome && stored.record.isCurrentOnly then
      .error (.request s!"Document {id} does not retain historical content")
    else if ¬ stored.record.isAliveAt point then .ok none
    else
      let revisions := stored.revisions.filter fun revision => past.all (revision.seq ≤ ·)
      match lastBase revisions with
      | none => .error (.error s!"Document {id} is missing a required base")
      | some (version, value, deltas) => do
        let value ← replay owned id version 0 value deltas
        return some ⟨stored.record, version, value, deltas.length⟩

/-! ### Checking a batch -/

def changedDocumentIds (writes : Writes ρ) : List ℤ :=
  writes.filterMap fun write =>
    match write with
    | .create record .. => some record.id
    | .copy record _ => some record.id
    | .change id _ => some id
    | .retire id => some id
    | _ => none

/-- The creation a copy stands for. -/
def resolveCopy (owned : ℕ → Bool) (changed : List ℤ) (record : DocumentCreate)
    (source : DocumentCopySource) : Except StorageError (StorageWrite ρ) :=
  if source.id ∈ changed then
    .error (.error s!"Fork source document {source.id} is changed in the copy batch")
  else do
    match ← s.materializeDocument owned source.id source.at' with
    | none => .error (.error s!"Fork source document {source.id} cannot be read")
    | some stored =>
      match stored.record.scope, record.scope with
      | .conversation _, .conversation _ =>
        if stored.record.kind ≠ record.kind ∨ stored.record.key ≠ record.key ∨
            stored.record.history ≠ record.history ∨ stored.record.fork ≠ record.fork then
          .error (.error s!"Fork source document {source.id} does not match the copied record")
        else .ok (.create record stored.version stored.value)
      | _, _ =>
        .error (.error s!"Fork source document {source.id} does not match the copied record")

def resolveWrite (owned : ℕ → Bool) (changed : List ℤ) :
    StorageWrite ρ → Except StorageError (StorageWrite ρ)
  | .copy record source =>
    (s.resolveCopy owned changed record source).mapError (.copy record.id)
  | write => .ok write

def resolveDocumentCopies (owned : ℕ → Bool) (writes : Writes ρ) :
    Except StorageError (Writes ρ) :=
  writes.mapM (s.resolveWrite owned (changedDocumentIds writes))

def claim : StorageWrite ρ → Option (TableName × ℤ)
  | .conversation value => some (.conversation, value.id)
  | .entry value => some (.entry, value.id)
  | .task id => some (.task, id)
  | .submission id => some (.submission, id)
  | .create record .. => some (.document, record.id)
  | .copy record _ => some (.document, record.id)
  | .change .. => none
  | .retire _ => none

/-- `checkGlobalIds`, `claimed` being the ids of the batch so far. -/
def checkGlobalIds (claimed : List (ℤ × TableName)) :
    Writes ρ → Except StorageError Unit
  | [] => .ok ()
  | write :: writes =>
    match claim write with
    | none => checkGlobalIds claimed writes
    | some (table, id) =>
      let existing := Assoc.get id s.recordTypes
      let earlier := Assoc.get id claimed
      let once := table = .conversation ∨ table = .entry ∨ table = .document
      match existing, earlier with
      | some existing, earlier =>
        if once ∨ existing ≠ table then
          .error (.error ("ID " ++ toString id ++ " already belongs to " ++ existing.text))
        else if earlier.any (· ≠ table) then
          .error (.error s!"ID {id} is written as two record types")
        else checkGlobalIds (Assoc.set id table claimed) writes
      | none, some earlier =>
        if once then .error (.error s!"ID {id} is written more than once")
        else if earlier ≠ table then .error (.error s!"ID {id} is written as two record types")
        else checkGlobalIds (Assoc.set id table claimed) writes
      | none, none => checkGlobalIds (Assoc.set id table claimed) writes

def addAction (actions : DocumentActions) (write : StorageWrite ρ) :
    Except StorageError DocumentActions :=
  match write with
  | .create record version value =>
    let action := (Assoc.get record.id actions).getD ⟨none, none, false⟩
    if action.create.isSome || action.content.isSome then
      .error (.error ("Document " ++ toString record.id ++ " has more than one content command"))
    else .ok (Assoc.set record.id
      { action with create := some record, content := some (.base version value) } actions)
  | .change id content =>
    let action := (Assoc.get id actions).getD ⟨none, none, false⟩
    if action.content.isSome then
      .error (.error s!"Document {id} has more than one content command")
    else .ok (Assoc.set id { action with content := some content } actions)
  | .retire id =>
    let action := (Assoc.get id actions).getD ⟨none, none, false⟩
    if action.retire then .error (.error s!"Document {id} is retired more than once")
    else .ok (Assoc.set id { action with retire := true } actions)
  | _ => .ok actions

def prepareDocumentActions (writes : Writes ρ) :
    Except StorageError DocumentActions :=
  writes.foldlM addAction []

def checkAction (id : ℤ) (action : DocumentAction) : Except StorageError Unit :=
  match Assoc.get id s.documents, action.create with
  | none, none => .error (.error s!"Unknown document: {id}")
  | some _, some _ => .error (.error s!"Document {id} already exists")
  | existing, _ =>
    if (existing.bind (·.record.retiredAt)).isSome then
      .error (.error s!"Document {id} is retired")
    else
      match action.content with
      | some (.delta version _) =>
        match existing.bind (·.revisions.getLast?) with
        | none => .error (.error s!"Document {id} delta has no base")
        | some previous =>
          if previous.content.version ≠ version then
            .error (.error s!"Document {id} version transition requires a base")
          else .ok ()
      | _ => .ok ()

def actionKey (id : ℤ) (action : DocumentAction) : Option DocumentAddress :=
  match action.create with
  | some record => some (recordAddressKey record)
  | none => (Assoc.get id s.documents).map (recordAddressKey ·.record.toDocumentCreate)

def currentId (key : DocumentAddress) : Option ℤ :=
  (Assoc.get key s.documentAddresses).bind (·.currentId)

def countLive (counts : List (DocumentAddress × ℤ)) (key : DocumentAddress) (id : ℤ)
    (action : DocumentAction) : List (DocumentAddress × ℤ) :=
  let current := s.currentId key
  let live := (Assoc.get key counts).getD (if current.isNone then 0 else 1)
  let live := if action.retire && current = some id then live - 1 else live
  let live := if action.create.isSome && !action.retire then live + 1 else live
  Assoc.set key live counts

def checkDocumentActions (counts : List (DocumentAddress × ℤ)) :
    DocumentActions → Except StorageError Unit
  | [] =>
    if counts.any (1 < ·.2) then
      .error (.error "Document address already has a current incarnation")
    else .ok ()
  | (id, action) :: actions => do
    s.checkAction id action
    match s.actionKey id action with
    | none => .error .undefined
    | some key => checkDocumentActions (s.countLive counts key id action) actions

end State

/-- A checked batch. -/
structure PreparedMemoryCommit (ρ : Type) where
  seq : ℤ
  writes : Writes ρ
  actions : DocumentActions

namespace State

variable (s : State ρ)

def prepareCommit (owned : ℕ → Bool) (writes : Writes ρ) (seq : ℤ) :
    Except StorageError (PreparedMemoryCommit ρ) :=
  if seq < s.nextSeq ∨ MAX_SAFE_INTEGER < seq then
    .error (.error s!"Commit sequence {seq} does not strictly increase")
  else do
    let writes ← s.resolveDocumentCopies owned writes
    s.checkGlobalIds [] writes
    let actions ← prepareDocumentActions writes
    s.checkDocumentActions [] actions
    return ⟨seq, writes, actions⟩

theorem prepareCommit_ok {s : State ρ} {owned : ℕ → Bool} {writes : Writes ρ} {seq : ℤ}
    {prepared : PreparedMemoryCommit ρ} (h : s.prepareCommit owned writes seq = .ok prepared) :
    prepared.seq = seq ∧ s.nextSeq ≤ seq ∧
      s.resolveDocumentCopies owned writes = .ok prepared.writes ∧
      s.checkGlobalIds [] prepared.writes = .ok () ∧
      prepareDocumentActions prepared.writes = .ok prepared.actions ∧
      s.checkDocumentActions [] prepared.actions = .ok () := by
  rw [prepareCommit] at h
  split_ifs at h with hseq
  obtain ⟨resolved, hresolved, h⟩ := Except.bind_eq_ok h
  obtain ⟨_, hids, h⟩ := Except.bind_eq_ok h
  obtain ⟨actions, hactions, h⟩ := Except.bind_eq_ok h
  obtain ⟨_, hchecked, h⟩ := Except.bind_eq_ok h
  cases h
  exact ⟨rfl, not_lt.mp fun hlt => hseq (.inl hlt), hresolved, hids, hactions, hchecked⟩

/-! ### Storing a batch -/

def applyWrite (seq : ℤ) : StorageWrite ρ → State ρ
  | .conversation value => { s with
      recordTypes := Assoc.set value.id .conversation s.recordTypes
      conversations := Assoc.set value.id value s.conversations
      nextId := max s.nextId (value.id + 1) }
  | .entry value => { s with
      recordTypes := Assoc.set value.id .entry s.recordTypes
      entries := Assoc.set value.id value s.entries
      entryCommitSeqs := Assoc.set value.id seq s.entryCommitSeqs
      entryIds := insertMapId s.entryIds value.conversationId value.id
      headEntryIds :=
        if value.head.isSome then insertMapId s.headEntryIds value.conversationId value.id
        else s.headEntryIds
      nextId := max s.nextId (value.id + 1) }
  | .task id => { s with
      recordTypes := Assoc.set id .task s.recordTypes
      nextId := max s.nextId (id + 1) }
  | .submission id => { s with
      recordTypes := Assoc.set id .submission s.recordTypes
      nextId := max s.nextId (id + 1) }
  | _ => s

/-- The document an action's content makes: created, or with one more revision. A base drops the
history of a document that keeps none. -/
def reviseBy (seq : ℤ) (action : DocumentAction) (stored : Option StoredDocumentState) :
    Option StoredDocumentState :=
  match action.create, action.content, stored with
  | some create, some content, _ => some {
      record := ⟨create, seq, if action.retire then some seq else none⟩
      revisions := [⟨content, seq⟩] }
  | none, some (.base version value), some stored =>
    let revision : DocumentRevision := ⟨.base version value, seq⟩
    some { stored with revisions :=
      if stored.record.isCurrentOnly then [revision] else stored.revisions ++ [revision] }
  | none, some (.delta version ops), some stored =>
    some { stored with revisions := stored.revisions ++ [⟨.delta version ops, seq⟩] }
  | _, _, stored => stored

def retireBy (seq : ℤ) (action : DocumentAction) (stored : StoredDocumentState) :
    StoredDocumentState :=
  let record :=
    if action.retire && action.create.isNone then { stored.record with retiredAt := some seq }
    else stored.record
  { record := record
    revisions := if action.retire && record.isCurrentOnly then [] else stored.revisions }

def actOn (seq : ℤ) (action : DocumentAction) (stored : Option StoredDocumentState) :
    Option StoredDocumentState :=
  (reviseBy seq action stored).map (retireBy seq action)

def indexAction (id : ℤ) (action : DocumentAction) (index : DocumentAddressIndex) :
    DocumentAddressIndex :=
  let ids := if action.create.isSome then insertSorted index.ids id else index.ids
  let current := if action.retire && index.currentId = some id then none else index.currentId
  ⟨ids, if action.create.isSome && !action.retire then some id else current⟩

def applyAction (seq id : ℤ) (action : DocumentAction) : State ρ :=
  match actOn seq action (Assoc.get id s.documents) with
  | none => s
  | some stored =>
    let key := recordAddressKey stored.record.toDocumentCreate
    { s with
      recordTypes :=
        if action.create.isSome then Assoc.set id .document s.recordTypes else s.recordTypes
      documents := Assoc.set id stored s.documents
      documentAddresses :=
        if action.create.isSome || action.retire then
          Assoc.set key
            (indexAction id action ((Assoc.get key s.documentAddresses).getD ⟨[], none⟩))
            s.documentAddresses
        else s.documentAddresses
      documentIdsByScope :=
        if action.create.isSome then insertMapId s.documentIdsByScope stored.record.scope id
        else s.documentIdsByScope
      nextId := if action.create.isSome then max s.nextId (id + 1) else s.nextId }

def applyDocumentActions (seq : ℤ) (actions : DocumentActions) : State ρ :=
  actions.foldl (fun s action => s.applyAction seq action.1 action.2) s

/-- `applyPreparedCommit`. -/
def apply (prepared : PreparedMemoryCommit ρ) : State ρ :=
  let s := prepared.writes.foldl (fun s write => s.applyWrite prepared.seq write) s
  { s.applyDocumentActions prepared.seq prepared.actions with nextSeq := prepared.seq + 1 }

def mintId : Except StorageError (ℤ × State ρ) :=
  if MAX_SAFE_INTEGER < s.nextId then .error (.error "ID space is exhausted")
  else .ok (s.nextId, { s with nextId := s.nextId + 1 })

end State

end KnightCode.Memory

/-! ### Scans -/

namespace KnightCode.Memory

inductive ScanOrder
  | ascending
  | descending
  deriving DecidableEq

structure Cursor where
  after : ℤ
  order : Option ScanOrder

structure Page (τ : Type) where
  items : List τ
  next : Option Cursor

def ScanOrder.text : ScanOrder → String
  | .ascending => "ascending"
  | .descending => "descending"

/-- `scanStart`: the order of a scan and the last id a page before returned. -/
def scanStart (requested : Option ScanOrder) (cursor : Option Cursor) (fallback : ScanOrder) :
    Except StorageError (ScanOrder × Option ℤ) :=
  match cursor with
  | none => .ok (requested.getD fallback, none)
  | some cursor =>
    if cursor.after < -MAX_SAFE_INTEGER ∨ MAX_SAFE_INTEGER < cursor.after then
      .error (.request "Invalid storage cursor")
    else
      let order := cursor.order.getD fallback
      if requested.any (· ≠ order) then
        .error (.request ("The cursor continues a " ++ order.text ++ " scan; the query asks for " ++
          (requested.getD order).text))
      else .ok (order, some cursor.after)

def page {τ : Type} (id : τ → ℤ) (values : List τ) (limit : ℕ) (order : ScanOrder) :
    Except StorageError (Page τ) :=
  let items := values.take limit
  if values.length ≤ limit then .ok ⟨items, none⟩
  else
    match items.getLast? with
    | none => .error .undefined
    | some last => .ok ⟨items, some ⟨id last, some order⟩⟩

theorem page_eq {τ : Type} (id : τ → ℤ) (values : List τ) {limit : ℕ} (hlimit : 1 ≤ limit)
    (order : ScanOrder) :
    page id (values.take (limit + 1)) limit order = .ok ⟨values.take limit,
      if values.length ≤ limit then none
      else (values.take limit).getLast?.map fun e => ⟨id e, some order⟩⟩ := by
  rw [page, List.take_take, min_eq_left (Nat.le_succ limit), List.length_take]
  by_cases hle : values.length ≤ limit
  · rw [if_pos (le_trans (min_le_right _ _) hle), if_pos hle]
  · rw [if_neg (by omega), if_neg hle]
    cases hlast : (values.take limit).getLast? with
    | some last => rfl
    | none =>
      have hnil := congrArg List.length (List.getLast?_eq_none_iff.mp hlast)
      rw [List.length_take, List.length_nil] at hnil
      omega

end KnightCode.Memory
