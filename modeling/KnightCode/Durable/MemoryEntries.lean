import KnightCode.Durable.MemoryStorage
import KnightCode.Library.System

/-!
# Entries over forks

A conversation sees its own entries and, up to its fork point, what its parent sees. The reads walk
from a conversation to its parent with a bound that the fork points lower: newest first, oldest
first over the segments in reverse, for one entry, and for the newest entry with a head.
-/

namespace KnightCode.Memory

open SortedIds

structure EntryQuery where
  conversationId : ℤ
  minEntryId : Option ℤ
  maxEntryId : Option ℤ
  order : Option ScanOrder

variable {ρ : Type}

namespace State

variable (s : State ρ)

def ownIds (conversationId : ℤ) : List ℤ :=
  (Assoc.get conversationId s.entryIds).getD []

def headIds (conversationId : ℤ) : List ℤ :=
  (Assoc.get conversationId s.headEntryIds).getD []

/-- `entries.get(id)`, of which a field is read. -/
def lookup (id : ℤ) : Except StorageError (EntryRecord ρ) :=
  match Assoc.get id s.entries with
  | none => .error .undefined
  | some entry => .ok entry

/-- `upperBound(ids, upper)`, all of them without a bound. -/
def upperIndex (ids : List ℤ) : Option ℤ → ℕ
  | none => ids.length
  | some upper => upperBound ids upper

/-- `Math.min(upper, at)`. -/
def lower (upper : Option ℤ) (at' : ℤ) : ℤ :=
  upper.elim at' (min · at')

/-- The loop of `visibleEntries`. -/
def visibleFrom (minId : Option ℤ) : ℕ → ℤ → Option ℤ → Except StorageError (List (EntryRecord ρ))
  | 0, _, _ => .error .endless
  | fuel + 1, current, upper => do
    let ids := s.ownIds current
    let own ← (((ids.take (upperIndex ids upper)).reverse).takeWhile
      fun id => !minId.any (id < ·)).mapM s.lookup
    match Assoc.get current s.conversations with
    | none => .error .undefined
    | some conversation =>
      match conversation.parent with
      | none => return own
      | some parent =>
        let upper := lower upper parent.at'
        if minId.any (upper < ·) then return own
        else
          let rest ← visibleFrom minId fuel parent.conversationId (some upper)
          return own ++ rest

def visibleEntries (conversationId : ℤ) (minId maxId : Option ℤ) :
    Except StorageError (List (EntryRecord ρ)) :=
  match Assoc.get conversationId s.conversations with
  | none => .error (.request s!"Unknown conversation: {conversationId}")
  | some _ => s.visibleFrom minId s.conversations.length conversationId maxId

/-- The segments of the fork chain, each with its bound. -/
def segmentsFrom (minId : Option ℤ) :
    ℕ → ℤ → Option ℤ → Except StorageError (List (ℤ × Option ℤ))
  | 0, _, _ => .error .endless
  | fuel + 1, current, upper =>
    match Assoc.get current s.conversations with
    | none => .error .undefined
    | some conversation =>
      match conversation.parent with
      | none => .ok [(current, upper)]
      | some parent =>
        let below := lower upper parent.at'
        if minId.any (below < ·) then .ok [(current, upper)]
        else do
          let rest ← segmentsFrom minId fuel parent.conversationId (some below)
          return (current, upper) :: rest

def segmentEntries (minId : Option ℤ) (segment : ℤ × Option ℤ) :
    Except StorageError (List (EntryRecord ρ)) :=
  let ids := s.ownIds segment.1
  ((ids.drop (minId.elim 0 (lowerBound ids ·))).takeWhile
    fun id => !segment.2.any (· < id)).mapM s.lookup

def visibleEntriesAscending (conversationId : ℤ) (minId maxId : Option ℤ) :
    Except StorageError (List (EntryRecord ρ)) :=
  match Assoc.get conversationId s.conversations with
  | none => .error (.request s!"Unknown conversation: {conversationId}")
  | some _ => do
    let segments ← s.segmentsFrom minId s.conversations.length conversationId maxId
    let entries ← segments.reverse.mapM (s.segmentEntries minId)
    return entries.flatten

def entry (conversationId id : ℤ) : Except StorageError (Option (EntryRecord ρ)) :=
  (s.visibleEntries conversationId (some id) (some id)).map List.head?

/-- The loop of `findLatestHeadMarker`. -/
def headFrom : ℕ → ℤ → Option ℤ → Except StorageError (Option (EntryRecord ρ))
  | 0, _, _ => .error .endless
  | fuel + 1, current, upper =>
    let ids := s.headIds current
    match (ids.take (upperIndex ids upper)).getLast? with
    | some id => (s.lookup id).map some
    | none =>
      match Assoc.get current s.conversations with
      | none => .error .undefined
      | some conversation =>
        match conversation.parent with
        | none => .ok none
        | some parent => headFrom fuel parent.conversationId (some (lower upper parent.at'))

def findLatestHeadMarker (conversationId : ℤ) (atOrBeforeEntryId : Option ℤ) :
    Except StorageError (Option (EntryRecord ρ)) :=
  match Assoc.get conversationId s.conversations with
  | none => .error (.request s!"Unknown conversation: {conversationId}")
  | some _ => s.headFrom s.conversations.length conversationId atOrBeforeEntryId

/-- The bounds of a scan, narrowed by its cursor on the side the scan moves away from. -/
def narrow (query : EntryQuery) (order : ScanOrder) (after : Option ℤ) : Option ℤ × Option ℤ :=
  match after, order with
  | none, _ => (query.minEntryId, query.maxEntryId)
  | some after, .descending =>
    (query.minEntryId, some (min (query.maxEntryId.getD after) (after - 1)))
  | some after, .ascending =>
    (some (max (query.minEntryId.getD after) (after + 1)), query.maxEntryId)

def scanEntries (query : EntryQuery) (limit : ℕ) (cursor : Option Cursor) :
    Except StorageError (Page (EntryRecord ρ)) := do
  let (order, after) ← scanStart query.order cursor .descending
  let (minId, maxId) := narrow query order after
  let entries ←
    match order with
    | .descending => s.visibleEntries query.conversationId minId maxId
    | .ascending => s.visibleEntriesAscending query.conversationId minId maxId
  page EntryRecord.id (entries.take (limit + 1)) limit order

end State

/-! ### Runs -/

inductive MemoryEvent (ρ : Type)
  | mint
  /-- A batch is prepared at a sequence number, and applied if it is accepted. -/
  | commit (writes : Writes ρ) (seq : ℤ)

namespace State

def perform (owned : ℕ → Bool) (s : State ρ) : MemoryEvent ρ → State ρ
  | .mint =>
    match s.mintId with
    | .ok (_, s) => s
    | .error _ => s
  | .commit writes seq =>
    match s.prepareCommit owned writes seq with
    | .ok prepared => s.apply prepared
    | .error _ => s

/-- What a conversation sees: the stored entries that are its own, and its parent's up to the fork
point. -/
inductive Sees (s : State ρ) : ℤ → ℤ → Prop
  | own {conversationId id : ℤ} {entry : EntryRecord ρ}
      (hentry : Assoc.get id s.entries = some entry)
      (hown : entry.conversationId = conversationId) : Sees s conversationId id
  | inherited {conversationId id : ℤ} {conversation : ConversationRecord} {parent : Fork}
      (hconversation : Assoc.get conversationId s.conversations = some conversation)
      (hparent : conversation.parent = some parent) (hat : id ≤ parent.at')
      (hsees : Sees s parent.conversationId id) : Sees s conversationId id

/-- A conversation is forked at an entry its parent sees; an entry comes to a conversation that is
there, with an id that can be minted and lies above those the conversation sees. -/
def Minted (s : State ρ) : StorageWrite ρ → Prop
  | .conversation value => ∀ parent, value.parent = some parent →
      (Assoc.get parent.conversationId s.conversations).isSome = true ∧
        s.Sees parent.conversationId parent.at'
  | .entry value => (Assoc.get value.conversationId s.conversations).isSome = true ∧
      0 ≤ value.id ∧ value.id ≤ MAX_SAFE_INTEGER ∧
      ∀ id, s.Sees value.conversationId id → id < value.id
  | _ => True

/-- Each write of a batch is minted where the ones before it leave. -/
def MintedAll (seq : ℤ) (s : State ρ) : Writes ρ → Prop
  | [] => True
  | write :: writes => s.Minted write ∧ MintedAll seq (s.applyWrite seq write) writes

def Orderly (s : State ρ) : MemoryEvent ρ → Prop
  | .mint => True
  | .commit writes seq => s.MintedAll seq writes

end State

def memorySystem (ρ : Type) (owned : ℕ → Bool) : System (State ρ) (MemoryEvent ρ) where
  init := fun s => s = State.init
  step := fun s event s' => s' = s.perform owned event

end KnightCode.Memory
