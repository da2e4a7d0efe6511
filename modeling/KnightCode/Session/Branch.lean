import KnightCode.Session.Migration

/-!
# Extracting a branch

`createBranchedSession` makes the path to a leaf a session of its own. The labels are cut out of the
path and made again at its end from what they resolve to; the entries behind a label get the entry
before it as their parent, and a compaction that kept from a label keeps from the entry behind it. A
persisted manager writes the new file, and takes everything back when that fails.
-/

namespace KnightCode.Session

variable {ρ : Type}

/-- A manager; its lock is a handle. -/
structure SessionManager (ρ : Type) where
  sessionId : Text
  sessionFile : Option Text
  cwd : Text
  persist : Bool
  flushed : Bool
  fileEntries : List (FileEntry ρ)
  byId : EntryIndex ρ
  labels : Labels
  leafId : Ident
  lock : Option ℕ

/-- `_buildIndex` -/
def SessionManager.buildIndex (m : SessionManager ρ) : SessionManager ρ :=
  let entries := sessionEntries m.fileEntries
  { m with
    byId := buildEntryIndex entries
    labels := resolveLabels entries
    leafId := (entries.getLast?.map (·.id)).getD .null }

/-- A user or assistant message. -/
def SessionEntry.isConversation (entry : SessionEntry ρ) : Bool :=
  match entry.body with
  | .message message => message.role = .user ∨ message.role = .assistant
  | _ => false

def SessionManager.hasConversation (m : SessionManager ρ) : Bool :=
  (sessionEntries m.fileEntries).any SessionEntry.isConversation

/-! ### The path without its labels -/

def SessionEntry.isLabel (entry : SessionEntry ρ) : Bool :=
  match entry.body with
  | .label _ _ => true
  | _ => false

/-- The loop over the path. -/
structure Rechain (ρ : Type) where
  pathWithoutLabels : Entries ρ
  replacementByLabelId : List (Ident × Ident)
  pendingLabelIds : List Ident
  pathParentId : Ident

/-- The labels passed since the last entry are replaced by the next one. -/
def Rechain.replacements (s : Rechain ρ) (id : Ident) : List (Ident × Ident) :=
  s.pendingLabelIds.foldl (fun replacements labelId => Assoc.set labelId id replacements)
    s.replacementByLabelId

/-- A compaction keeps from what replaces the entry it kept from. -/
def redirect (replacements : List (Ident × Ident)) (entry : SessionEntry ρ) : SessionEntry ρ :=
  match entry.body with
  | .compaction compaction =>
    { entry with
      body := .compaction { compaction with
        firstKeptEntryId :=
          if compaction.firstKeptEntryId = entry.id then entry.id
          else (Assoc.get compaction.firstKeptEntryId replacements).getD
            compaction.firstKeptEntryId } }
  | _ => entry

def Rechain.step (s : Rechain ρ) (entry : SessionEntry ρ) : Rechain ρ :=
  if entry.isLabel then { s with pendingLabelIds := s.pendingLabelIds ++ [entry.id] }
  else
    { pathWithoutLabels := s.pathWithoutLabels ++
        [redirect (s.replacements entry.id) { entry with parentId := s.pathParentId }]
      replacementByLabelId := s.replacements entry.id
      pendingLabelIds := []
      pathParentId := entry.id }

def rechain (path : Entries ρ) : Rechain ρ :=
  path.foldl Rechain.step ⟨[], [], [], .null⟩

def pathWithoutLabels (path : Entries ρ) : Entries ρ :=
  (rechain path).pathWithoutLabels

/-! ### The labels -/

structure LabelToWrite where
  targetId : Ident
  label : Text
  timestamp : Text

def labelsToWrite (labels : Labels) (pathEntryIds : List Ident) : List LabelToWrite :=
  (labels.labelsById.filter fun label => label.1 ∈ pathEntryIds).map fun label =>
    ⟨label.1, label.2, (Assoc.get label.1 labels.labelTimestampsById).getD []⟩

def LabelToWrite.entry (label : LabelToWrite) (id parentId : Ident) : SessionEntry ρ :=
  ⟨id, parentId, label.timestamp, .label label.targetId (some label.label)⟩

def persistedLabelEntries (randomUUID : ℕ → Uuid) :
    List Ident → ℕ → Ident → List LabelToWrite → Entries ρ
  | _, _, _, [] => []
  | pathEntryIds, n, parentId, label :: labels =>
    let drawn := generateId randomUUID (fun id => id ∈ pathEntryIds) n
    label.entry drawn.1 parentId ::
      persistedLabelEntries randomUUID (pathEntryIds ++ [drawn.1]) drawn.2 drawn.1 labels

def inMemoryLabelEntries (randomUUID : ℕ → Uuid) (pathEntryIds : List Ident) :
    Entries ρ → ℕ → Ident → List LabelToWrite → Entries ρ
  | labelEntries, _, _, [] => labelEntries
  | labelEntries, n, parentId, label :: labels =>
    let drawn := generateId randomUUID
      (fun id => id ∈ pathEntryIds ++ labelEntries.map (·.id)) n
    inMemoryLabelEntries randomUUID pathEntryIds (labelEntries ++ [label.entry drawn.1 parentId])
      drawn.2 drawn.1 labels

def lastEntryId (entries : Entries ρ) : Ident :=
  match entries.getLast? with
  | some last => if last.id.truthy then last.id else .null
  | none => .null

/-! ### The new session -/

/-- How the steps go that may fail. -/
structure BranchSteps where
  /-- `_assertWritable` -/
  writable : Bool
  /-- The path `canonicalSessionPath` gives, if it does not throw. -/
  newSessionFile : Option Text
  lock : Option ℕ
  fileExists : Bool
  stillWritable : Bool
  /-- The file is opened, and all entries written to it, and it is closed. -/
  written : Bool

def SessionManager.newHeader (m : SessionManager ρ) (sessionId timestamp : Text) : SessionHeader :=
  ⟨some 3, sessionId, timestamp, m.cwd, if m.persist then m.sessionFile else none⟩

/-- A persisted manager's fields, set for the new session. -/
def SessionManager.enter (m : SessionManager ρ) (sessionId newSessionFile : Text) (lock : ℕ)
    (fileEntries : List (FileEntry ρ)) : SessionManager ρ :=
  { ({ m with
        fileEntries := fileEntries
        sessionId := sessionId
        sessionFile := some newSessionFile
        lock := some lock } : SessionManager ρ).buildIndex with
    flushed := false }

/-- The fields put back, the index and the labels built again. -/
def SessionManager.restore (m previous : SessionManager ρ) : SessionManager ρ :=
  { ({ m with
        fileEntries := previous.fileEntries
        sessionId := previous.sessionId
        sessionFile := previous.sessionFile } : SessionManager ρ).buildIndex with
    leafId := previous.leafId
    flushed := previous.flushed
    lock := previous.lock }

/-- What a call leaves, and whether it returned. -/
structure Branched (ρ : Type) where
  returned : Bool
  manager : SessionManager ρ

section

variable (steps : BranchSteps) (randomUUID : ℕ → Uuid) (sessionId timestamp : Text)
  (path : Entries ρ) (m : SessionManager ρ)

def branchPersisted : Branched ρ :=
  let kept := pathWithoutLabels path
  let ids := kept.map (·.id)
  match steps.newSessionFile with
  | none => ⟨false, m⟩
  | some newSessionFile =>
    let labelEntries :=
      persistedLabelEntries randomUUID ids 0 (lastEntryId kept) (labelsToWrite m.labels ids)
    match steps.lock with
    | none => ⟨false, m⟩
    | some lock =>
      if steps.fileExists then ⟨false, m.restore m⟩
      else
        let entered := m.enter sessionId newSessionFile lock
          (.session (m.newHeader sessionId timestamp) :: (kept ++ labelEntries).map FileEntry.entry)
        if entered.hasConversation then
          if steps.stillWritable ∧ steps.written then ⟨true, { entered with flushed := true }⟩
          else ⟨false, entered.restore m⟩
        else ⟨true, entered⟩

def branchInMemory : Branched ρ :=
  let kept := pathWithoutLabels path
  let ids := kept.map (·.id)
  let labelEntries :=
    inMemoryLabelEntries randomUUID ids [] 0 (lastEntryId kept) (labelsToWrite m.labels ids)
  ⟨true, ({ m with
    fileEntries := .session (m.newHeader sessionId timestamp) ::
      (kept ++ labelEntries).map FileEntry.entry
    sessionId := sessionId } : SessionManager ρ).buildIndex⟩

/-- `createBranchedSession`, once the path to the leaf is walked. -/
def branchPath : Branched ρ :=
  if path = [] then ⟨false, m⟩
  else if m.persist then branchPersisted steps randomUUID sessionId timestamp path m
  else branchInMemory randomUUID sessionId timestamp path m

end

/-- `createBranchedSession` with a session id that is valid; it does not return where the walk to
the root does not end. -/
def createBranchedSession (steps : BranchSteps) (randomUUID : ℕ → Uuid)
    (sessionId timestamp : Text) (leafId : Ident) (fuel : ℕ) (m : SessionManager ρ) :
    Option (Branched ρ) :=
  if m.persist ∧ !steps.writable then some ⟨false, m⟩
  else (pathTo m.byId fuel (lookup m.byId leafId)).map fun path =>
    branchPath steps randomUUID sessionId timestamp path m

end KnightCode.Session
