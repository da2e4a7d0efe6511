import KnightCode.Library.Assoc
import KnightCode.Library.Links
import KnightCode.Library.JsonText

/-!
# Entries of a session tree

An entry names its parent. Files are loaded without checking these links: an id may be anything, be
missing or be there twice, and a parent may be missing, come later or be the entry itself. An index
finds the last entry of an id; a path goes up from a leaf.
-/

namespace KnightCode.Session

/-- What an id, or a parent's, may parse to: as the key of a map, and whether it is truthy. -/
inductive Ident
  | undefined
  | null
  | string (text : Text)
  | other (truthy : Bool) (identity : ℕ)
  deriving DecidableEq

def Ident.truthy : Ident → Bool
  | .undefined => false
  | .null => false
  | .string text => text ≠ []
  | .other truthy _ => truthy

/-! ### Messages -/

inductive Role
  | system
  | user
  | assistant
  | toolResult
  | custom
  | bashExecution
  | branchSummary
  | compactionSummary
  | hookMessage
  | other (name : Text)
  deriving DecidableEq

/-- A block of a message's content. -/
inductive Block (ρ : Type)
  | text (text : Text)
  | toolCall (id : Text) (rest : ρ)
  | other (rest : ρ)

inductive MessageContent (ρ : Type)
  /-- `null`, or none. -/
  | missing
  | text (text : Text)
  | blocks (blocks : List (Block ρ))

/-- The fields of a message besides its role, content and time. -/
inductive MessageFields (ρ : Type)
  | assistant (provider model : Text) (rest : ρ)
  | toolResult (toolCallId : Text) (rest : ρ)
  | custom (customType : Text) (display : Bool) (details : ρ)
  | branchSummary (summary : Text) (fromId : Ident)
  | compactionSummary (summary : Text) (tokensBefore : ℤ)
  | other (rest : ρ)

structure AgentMessage (ρ : Type) where
  role : Role
  content : MessageContent ρ
  fields : MessageFields ρ
  timestamp : Option ℤ

/-! ### Entries -/

structure CompactionEntry (ρ : Type) where
  summary : Text
  firstKeptEntryId : Ident
  /-- Of version 1, counted with the header. -/
  firstKeptEntryIndex : Option ℕ
  tokensBefore : ℤ
  systemMessage : Option (AgentMessage ρ)
  rest : ρ

/-- What an entry is besides its place in the tree. -/
inductive Body (ρ : Type)
  | message (message : AgentMessage ρ)
  | thinkingLevelChange (thinkingLevel : Text)
  | modelChange (provider modelId : Text)
  | compaction (compaction : CompactionEntry ρ)
  | branchSummary (fromId : Ident) (summary : Text) (rest : ρ)
  | customMessage (customType : Text) (content : MessageContent ρ) (display : Bool) (details : ρ)
  | contextEdit (targetId : Ident) (replacement : Option (MessageContent ρ))
  | label (targetId : Ident) (label : Option Text)
  /-- A usage, custom or session info entry. -/
  | state (rest : ρ)

structure SessionEntry (ρ : Type) where
  id : Ident
  parentId : Ident
  timestamp : Text
  body : Body ρ

abbrev Entries (ρ : Type) :=
  List (SessionEntry ρ)

structure SessionHeader where
  version : Option ℕ
  id : Text
  timestamp : Text
  cwd : Text
  parentSession : Option Text

inductive FileEntry (ρ : Type)
  | session (header : SessionHeader)
  | entry (entry : SessionEntry ρ)

variable {ρ : Type}

/-- `byId`: the last entry of an id. -/
abbrev EntryIndex (ρ : Type) := List (Ident × SessionEntry ρ)

def buildEntryIndex (entries : Entries ρ) : EntryIndex ρ :=
  entries.foldl (fun index entry => Assoc.set entry.id entry index) []

/-! ### Paths -/

def lookup (index : EntryIndex ρ) (id : Ident) : Option (SessionEntry ρ) :=
  if id.truthy then Assoc.get id index else none

/-- The entry a path goes on to. -/
def parentOf (index : EntryIndex ρ) (entry : SessionEntry ρ) : Option (SessionEntry ρ) :=
  lookup index entry.parentId

/-- The path from the root to an entry, if the walk to the root ends within `fuel` entries. -/
def pathTo (index : EntryIndex ρ) (fuel : ℕ) (leaf : Option (SessionEntry ρ)) :
    Option (Entries ρ) :=
  match leaf with
  | none => some []
  | some leaf => (Links.walk (parentOf index) fuel leaf).map List.reverse

/-- `leafId` of `buildSessionPath`. -/
inductive LeafId
  | undefined
  | null
  | of (id : Ident)

def LeafId.entry (entries : Entries ρ) (index : EntryIndex ρ) :
    LeafId → Option (SessionEntry ρ)
  | .undefined => entries.getLast?
  | .null => none
  | .of id => (lookup index id).or entries.getLast?

def buildSessionPath (entries : Entries ρ) (leafId : LeafId) (fuel : ℕ) :
    Option (Entries ρ) :=
  pathTo (buildEntryIndex entries) fuel (leafId.entry entries (buildEntryIndex entries))

/-- `getBranch` of a manager that loaded the entries. -/
def getBranch (entries : Entries ρ) (startId : Ident) (fuel : ℕ) :
    Option (Entries ρ) :=
  pathTo (buildEntryIndex entries) fuel (lookup (buildEntryIndex entries) startId)

/-! ### Labels -/

structure Labels where
  labelsById : List (Ident × Text)
  labelTimestampsById : List (Ident × Text)

/-- A label that is not empty is set, another one cleared. -/
def Labels.change (labels : Labels) (targetId : Ident) (timestamp : Text) :
    Option Text → Labels
  | some (c :: label) =>
    ⟨Assoc.set targetId (c :: label) labels.labelsById,
      Assoc.set targetId timestamp labels.labelTimestampsById⟩
  | _ => ⟨Assoc.erase targetId labels.labelsById, Assoc.erase targetId labels.labelTimestampsById⟩

def Labels.read (labels : Labels) (entry : SessionEntry ρ) : Labels :=
  match entry.body with
  | .label targetId label => labels.change targetId entry.timestamp label
  | _ => labels

def resolveLabels (entries : Entries ρ) : Labels :=
  entries.foldl Labels.read ⟨[], []⟩

end KnightCode.Session
