import KnightCode.Library.Assoc
import KnightCode.Library.JsonCut
import KnightCode.Library.System

/-!
# The entries of a session and its file

A session keeps its entries in memory and in a file, one JSON text a line. An append puts its entry
in memory, then writes it; when the write fails it takes the entry back. A new session writes its
file only once it holds a user or assistant message, all entries at once. Loading a file skips lines
that are no JSON.
-/

namespace KnightCode.SessionManager

open JsonText (Value parse)

/-- A JSON object: the header, or an entry with an id and its parent's. -/
abbrev FileEntry := Value

def isString (s : Text) : Option Value → Bool
  | some (.string t) => t = s
  | _ => false

def string? : Option Value → Option Text
  | some (.string s) => some s
  | _ => none

def id? (e : FileEntry) : Option Text :=
  string? (e.get (ascii "id"))

def parentId? (e : FileEntry) : Option Text :=
  string? (e.get (ascii "parentId"))

/-- A session header with an id. -/
def isHeader (e : FileEntry) : Bool :=
  isString (ascii "session") (e.get (ascii "type")) && (id? e).isSome

/-- A user or assistant message. -/
def isConversation (e : FileEntry) : Bool :=
  isString (ascii "message") (e.get (ascii "type")) &&
    match e.get (ascii "message") with
    | some message =>
      isString (ascii "user") (message.get (ascii "role")) ||
        isString (ascii "assistant") (message.get (ascii "role"))
    | none => false

/-! ### The file -/

/-- What `trim` removes. -/
def isBlank (c : UInt16) : Bool :=
  (9 ≤ c && c ≤ 13) || c = 32 || c = 0xA0 || c = 0x1680 || (0x2000 ≤ c && c ≤ 0x200A) ||
    c = 0x2028 || c = 0x2029 || c = 0x202F || c = 0x205F || c = 0x3000 || c = 0xFEFF

def parseSessionEntryLine (line : Text) : Option FileEntry :=
  if line.all isBlank then none else parse line

def lines (pending : Text) : Text → List Text
  | [] => [pending]
  | c :: t => if c = 10 then pending :: lines [] t else lines (pending ++ [c]) t

def lineEntry (line : Text) : Option FileEntry :=
  (parseSessionEntryLine line).filter Value.truthy

def fileEntries (bytes : List UInt8) : List FileEntry :=
  (lines [] (Utf8.decode bytes)).filterMap lineEntry

def loadEntriesFromFile (file : Option (List UInt8)) : List FileEntry :=
  match file with
  | none => []
  | some bytes => if (fileEntries bytes).head?.any isHeader then fileEntries bytes else []

def line (e : FileEntry) : List UInt8 :=
  Utf8.encode (e.print ++ [10])

/-- A file ends with a line feed. -/
def repairFinalNewline (bytes : List UInt8) : List UInt8 :=
  if bytes.getLast?.all (· = 10) then bytes else bytes ++ [10]

/-! ### The manager -/

structure Manager where
  flushed : Bool
  fileEntries : List FileEntry
  byId : List (Text × FileEntry)
  leafId : Option Text

namespace Manager

def hasConversation (m : Manager) : Bool :=
  m.fileEntries.any isConversation

def indexEntry (m : Manager) (e : FileEntry) : Manager :=
  if isString (ascii "session") (e.get (ascii "type")) then m
  else
    match id? e with
    | some id => { m with byId := Assoc.set id e m.byId, leafId := some id }
    | none => m

/-- The index of the entries; the last one is the leaf. -/
def buildIndex (m : Manager) : Manager :=
  m.fileEntries.foldl indexEntry { m with byId := [], leafId := none }

def push (id : Text) (e : FileEntry) (m : Manager) : Manager :=
  { m with
    fileEntries := m.fileEntries ++ [e]
    byId := Assoc.set id e m.byId
    leafId := some id }

/-- An entry that was not written is taken back. -/
def pop (id : Text) (leafId : Option Text) (m : Manager) : Manager :=
  { m with
    fileEntries := m.fileEntries.dropLast
    byId := Assoc.erase id m.byId
    leafId }

end Manager

/-- How a write to the file goes: it may throw when it opens the file, or after some bytes. -/
inductive Write
  | complete
  | refused
  | torn (bytes : ℕ)

/-- What a persist leaves, and whether it returned. -/
structure Persisted where
  returned : Bool
  flushed : Bool
  file : Option (List UInt8)

def persist (entry : FileEntry) (write : Write) (m : Manager) (file : Option (List UInt8)) :
    Persisted :=
  if m.flushed then
    match write with
    | .complete => ⟨true, true, some (file.getD [] ++ line entry)⟩
    | .refused => ⟨false, true, file⟩
    | .torn n => ⟨false, true, some (file.getD [] ++ (line entry).take n)⟩
  else if m.hasConversation = false then ⟨true, false, file⟩
  else
    match file, write with
    -- the exclusive create refuses a file that is there
    | some bytes, _ => ⟨false, false, some bytes⟩
    | none, .complete => ⟨true, true, some (m.fileEntries.flatMap line)⟩
    | none, .refused => ⟨false, false, none⟩
    | none, .torn n => ⟨false, false, some ((m.fileEntries.flatMap line).take n)⟩

/-- What an append is given: an entry without its id and parent. -/
structure Draft where
  type : Text
  timestamp : Text
  leading : List (Text × Value)
  rest : List (Text × Value)
  fresh : ∀ m ∈ leading ++ rest, m.1 ∉ [ascii "type", ascii "id", ascii "parentId"]

def Draft.entry (id : Text) (parentId : Option Text) (d : Draft) : FileEntry :=
  .object ((ascii "type", .string d.type) :: (d.leading ++ [(ascii "id", .string id),
    (ascii "parentId", (parentId.map Value.string).getD .null),
    (ascii "timestamp", .string d.timestamp)] ++ d.rest))

/-- The session and its file, with the entries it began with and those that appends added. -/
structure World where
  manager : Manager
  file : Option (List UInt8)
  opened : List FileEntry
  added : List FileEntry

inductive Act
  | append (draft : Draft) (id : Text) (write : Write)
  | branch (branchFromId : Text)
  | resetLeaf

namespace World

/-- The entry an append makes, and what its write leaves. -/
def persisting (draft : Draft) (id : Text) (write : Write) (w : World) : Persisted :=
  persist (draft.entry id w.manager.leafId) write
    (w.manager.push id (draft.entry id w.manager.leafId)) w.file

def appendEntry (draft : Draft) (id : Text) (write : Write) (w : World) : World :=
  let entry := draft.entry id w.manager.leafId
  let pushed := w.manager.push id entry
  let persisted := w.persisting draft id write
  if persisted.returned then
    { w with
      manager := { pushed with flushed := persisted.flushed }
      file := persisted.file
      added := w.added ++ [entry] }
  else
    { w with
      manager := { pushed.pop id w.manager.leafId with flushed := persisted.flushed }
      file := persisted.file }

def branch (branchFromId : Text) (w : World) : World :=
  if (Assoc.get branchFromId w.manager.byId).isSome then
    { w with manager := { w.manager with leafId := some branchFromId } }
  else w

def resetLeaf (w : World) : World :=
  { w with manager := { w.manager with leafId := none } }

def perform (w : World) : Act → World
  | .append draft id write => w.appendEntry draft id write
  | .branch branchFromId => w.branch branchFromId
  | .resetLeaf => w.resetLeaf

def newSession (header : FileEntry) : World where
  manager := ⟨false, [header], [], none⟩
  file := none
  opened := [header]
  added := []

/-- A session file of the current version is opened. -/
def openSession (bytes : List UInt8) : World where
  manager := Manager.buildIndex ⟨true, fileEntries bytes, [], none⟩
  file := some (repairFinalNewline bytes)
  opened := fileEntries bytes
  added := []

end World

def newHeader (id timestamp cwd : Text) (parentSession : Option Text) : FileEntry :=
  .object ([(ascii "type", .string (ascii "session")), (ascii "version", .number ⟨[51], rfl⟩),
    (ascii "id", .string id), (ascii "timestamp", .string timestamp), (ascii "cwd", .string cwd)] ++
    (parentSession.toList.map fun path => (ascii "parentSession", .string path)))

/-- An id is generated that no entry has. -/
def World.Generates (w : World) : Act → Prop
  | .append _ id _ => Assoc.get id w.manager.byId = none
  | _ => True

def system : System World Act where
  init w :=
    (∃ id timestamp cwd parentSession,
        w = World.newSession (newHeader id timestamp cwd parentSession)) ∨
      ∃ bytes, (fileEntries bytes).head?.any isHeader = true ∧
        (∀ e ∈ fileEntries bytes, (id? e).isSome) ∧ w = World.openSession bytes
  step w act w' := w.Generates act ∧ w' = w.perform act

/-! ### What is promised -/

/-- Entries behind the first ones have their parents among the entries before them. -/
def Parented (n : ℕ) (entries : List FileEntry) : Prop :=
  ∀ front e back, entries = front ++ e :: back → n ≤ front.length →
    ∀ id, parentId? e = some id → ∃ parent ∈ front, id? parent = some id

structure World.Kept (w : World) : Prop where
  /-- Memory holds what the appends that returned added. -/
  entries : w.manager.fileEntries = w.opened ++ w.added
  /-- Once a new session holds a message, the file holds the same. -/
  loads : w.manager.flushed = true ∨ w.manager.hasConversation = true →
    loadEntriesFromFile w.file = w.manager.fileEntries
  parented : Parented w.opened.length w.manager.fileEntries
  fails : ∀ draft id write, w.Generates (.append draft id write) →
    (w.persisting draft id write).returned = false →
    (w.appendEntry draft id write).manager = w.manager
  /-- An append whose write does not fail returns. -/
  succeeds : ∀ draft id, (w.persisting draft id .complete).returned = true

/-! ### When it is kept -/

def atLineStart (file : Option (List UInt8)) : Bool :=
  (file.getD []).getLast?.all (· = 10)

/-- A first write fails only before it creates the file. An append writes only behind a line feed,
and one that fails leaves no more than a proper part of its entry's text. -/
def World.Calm (w : World) : Act → Prop
  | .append draft id write =>
    let entry := draft.entry id w.manager.leafId
    match write with
    | .refused => True
    | .complete => w.manager.flushed = true → atLineStart w.file = true
    | .torn n =>
      if w.manager.flushed then
        n = 0 ∨ atLineStart w.file = true ∧ n < (Utf8.encode entry.print).length
      else (w.manager.push id entry).hasConversation = false
  | _ => True

end KnightCode.SessionManager
