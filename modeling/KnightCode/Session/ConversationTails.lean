import KnightCode.Durable.MemoryEntries
import KnightCode.Library.Lru

/-!
# Conversation tails

The newest entry and the newest head marker of each recently used conversation, in two bounded
tables that a Session's commits keep up to date: `some none` stands for none. A conversation that
is not in a table is read from Storage. A commit is stored first and published later; calls may be
in the middle of their reads meanwhile.
-/

namespace KnightCode

open Memory

structure ConversationTails (ρ : Type) (latestCapacity markerCapacity : ℕ) where
  latest : Lru ℤ (Option ℤ) latestCapacity
  markers : Lru ℤ (Option (EntryRecord ρ)) markerCapacity

namespace ConversationTails

variable {ρ : Type} {latestCapacity markerCapacity : ℕ}

def new : ConversationTails ρ latestCapacity markerCapacity :=
  ⟨.empty, .empty⟩

variable (t : ConversationTails ρ latestCapacity markerCapacity)

/-- `latest` up to its read: the answer, if it is known. -/
def latestKnown (conversationId : ℤ) :
    Option (Option ℤ) × ConversationTails ρ latestCapacity markerCapacity :=
  ((t.latest.get conversationId).1, { t with latest := (t.latest.get conversationId).2 })

def latestRead (conversationId : ℤ) (latest : Option ℤ) :
    ConversationTails ρ latestCapacity markerCapacity :=
  { t with latest := t.latest.set conversationId latest }

/-- `marker` up to its read. -/
def markerKnown (conversationId : ℤ) (atOrBefore : Option ℤ) :
    Option (Option (EntryRecord ρ)) × ConversationTails ρ latestCapacity markerCapacity :=
  let answer :=
    match (t.markers.get conversationId).1 with
    | some none => some none
    | some (some marker) =>
      if atOrBefore.all (marker.id ≤ ·) then some (some marker) else none
    | none => none
  (answer, { t with markers := (t.markers.get conversationId).2 })

def peek (conversationId : ℤ) : Option (Option ℤ) :=
  t.latest.peek conversationId

/-- The rest of `marker`, behind its read. Before the read, `latest` was in the other table. -/
def markerRead (conversationId : ℤ) (atOrBefore : Option ℤ) (latest : Option (Option ℤ))
    (found : Option (EntryRecord ρ)) : ConversationTails ρ latestCapacity markerCapacity :=
  if atOrBefore.all fun cutoff => latest.any fun latest => latest.getD 0 ≤ cutoff then
    { t with markers := t.markers.set conversationId found }
  else t

def applyWrite : StorageWrite ρ → ConversationTails ρ latestCapacity markerCapacity
  | .conversation value =>
    if value.parent.isSome then t
    else ⟨t.latest.set value.id none, t.markers.set value.id none⟩
  | .entry entry =>
    ⟨t.latest.set entry.conversationId (some entry.id),
      if entry.head.isSome then t.markers.set entry.conversationId (some entry) else t.markers⟩
  | _ => t

def apply (writes : Writes ρ) : ConversationTails ρ latestCapacity markerCapacity :=
  writes.foldl applyWrite t

end ConversationTails

/-! ### A Session -/

namespace Memory.State

variable {ρ : Type}

def readLatest (s : State ρ) (conversationId : ℤ) : Except StorageError (Option ℤ) :=
  (s.scanEntries ⟨conversationId, none, none, none⟩ 1 none).map fun page =>
    page.items.head?.map (·.id)

end Memory.State

/-- A call that waits for its read, with what Storage answered. -/
inductive TailRead (ρ : Type)
  | latest (conversationId : ℤ) (answer : Option (Option ℤ))
  | marker (conversationId : ℤ) (atOrBefore : Option ℤ) (latest : Option (Option ℤ))
      (answer : Option (Option (EntryRecord ρ)))

def TailRead.conversationId {ρ : Type} : TailRead ρ → ℤ
  | latest conversationId _ => conversationId
  | marker conversationId _ _ _ => conversationId

structure TailSession (ρ : Type) (latestCapacity markerCapacity : ℕ) where
  stored : State ρ
  /-- The commits that are stored and not yet published. -/
  unpublished : List (Writes ρ)
  tails : ConversationTails ρ latestCapacity markerCapacity
  reads : List (TailRead ρ)

inductive TailAct (ρ : Type)
  | commit (writes : Writes ρ) (seq : ℤ)
  | publish
  | latest (conversationId : ℤ)
  | marker (conversationId : ℤ) (atOrBefore : Option ℤ)
  | answer (read : ℕ)
  /-- Storage fails a read, and the call with it. -/
  | reject (read : ℕ)
  | finish (read : ℕ)

/-- What a step returns to a caller. -/
inductive TailOutput (ρ : Type)
  | silent
  | latest (id : Option ℤ)
  | marker (found : Option (EntryRecord ρ))

namespace TailSession

variable {ρ : Type} {latestCapacity markerCapacity : ℕ}

inductive Step (owned : ℕ → Bool) : TailSession ρ latestCapacity markerCapacity →
    TailAct ρ × TailOutput ρ → TailSession ρ latestCapacity markerCapacity → Prop
  | commit {s : TailSession ρ latestCapacity markerCapacity} {writes : Writes ρ}
      {seq : ℤ} {prepared : PreparedMemoryCommit ρ} (hminted : s.stored.MintedAll seq writes)
      (h : s.stored.prepareCommit owned writes seq = .ok prepared) :
      Step owned s (.commit writes seq, .silent)
        { s with stored := s.stored.apply prepared, unpublished := s.unpublished ++ [writes] }
  | publish {s : TailSession ρ latestCapacity markerCapacity} {writes : Writes ρ}
      {rest : List (Writes ρ)} (h : s.unpublished = writes :: rest) :
      Step owned s (.publish, .silent)
        { s with unpublished := rest, tails := s.tails.apply writes }
  | latestKnown {s : TailSession ρ latestCapacity markerCapacity} {conversationId : ℤ}
      {id : Option ℤ} (h : (s.tails.latestKnown conversationId).1 = some id) :
      Step owned s (.latest conversationId, .latest id)
        { s with tails := (s.tails.latestKnown conversationId).2 }
  | latestUnknown {s : TailSession ρ latestCapacity markerCapacity} {conversationId : ℤ}
      (h : (s.tails.latestKnown conversationId).1 = none) :
      Step owned s (.latest conversationId, .silent)
        { s with
          tails := (s.tails.latestKnown conversationId).2
          reads := s.reads ++ [.latest conversationId none] }
  | markerKnown {s : TailSession ρ latestCapacity markerCapacity} {conversationId : ℤ}
      {atOrBefore : Option ℤ} {found : Option (EntryRecord ρ)}
      (h : (s.tails.markerKnown conversationId atOrBefore).1 = some found) :
      Step owned s (.marker conversationId atOrBefore, .marker found)
        { s with tails := (s.tails.markerKnown conversationId atOrBefore).2 }
  | markerUnknown {s : TailSession ρ latestCapacity markerCapacity} {conversationId : ℤ}
      {atOrBefore : Option ℤ} (h : (s.tails.markerKnown conversationId atOrBefore).1 = none) :
      Step owned s (.marker conversationId atOrBefore, .silent)
        { s with
          tails := (s.tails.markerKnown conversationId atOrBefore).2
          reads := s.reads ++
            [.marker conversationId atOrBefore (s.tails.peek conversationId) none] }
  | answerLatest {s : TailSession ρ latestCapacity markerCapacity} {read : ℕ}
      {conversationId : ℤ} {id : Option ℤ} (h : s.reads[read]? = some (.latest conversationId none))
      (hread : s.stored.readLatest conversationId = .ok id) :
      Step owned s (.answer read, .silent)
        { s with reads := s.reads.set read (.latest conversationId (some id)) }
  | answerMarker {s : TailSession ρ latestCapacity markerCapacity} {read : ℕ}
      {conversationId : ℤ} {atOrBefore : Option ℤ} {latest : Option (Option ℤ)}
      {found : Option (EntryRecord ρ)}
      (h : s.reads[read]? = some (.marker conversationId atOrBefore latest none))
      (hread : s.stored.findLatestHeadMarker conversationId atOrBefore = .ok found) :
      Step owned s (.answer read, .silent)
        { s with reads := s.reads.set read (.marker conversationId atOrBefore latest (some found)) }
  | reject {s : TailSession ρ latestCapacity markerCapacity} (read : ℕ) :
      Step owned s (.reject read, .silent) { s with reads := s.reads.eraseIdx read }
  | finishLatest {s : TailSession ρ latestCapacity markerCapacity} {read : ℕ}
      {conversationId : ℤ} {id : Option ℤ}
      (h : s.reads[read]? = some (.latest conversationId (some id))) :
      Step owned s (.finish read, .latest id)
        { s with
          tails := s.tails.latestRead conversationId id
          reads := s.reads.eraseIdx read }
  | finishMarker {s : TailSession ρ latestCapacity markerCapacity} {read : ℕ}
      {conversationId : ℤ} {atOrBefore : Option ℤ} {latest : Option (Option ℤ)}
      {found : Option (EntryRecord ρ)}
      (h : s.reads[read]? = some (.marker conversationId atOrBefore latest (some found))) :
      Step owned s (.finish read, .marker found)
        { s with
          tails := s.tails.markerRead conversationId atOrBefore latest found
          reads := s.reads.eraseIdx read }

/-- No commit that appends to the conversation is unpublished. -/
def Published (s : TailSession ρ latestCapacity markerCapacity) (conversationId : ℤ) : Prop :=
  ∀ writes ∈ s.unpublished, ∀ entry, .entry entry ∈ writes →
    entry.conversationId ≠ conversationId

/-- A call begins once every commit that appends to its conversation is published, and until it
ends no commit appends to the conversation. -/
def Quiet (s : TailSession ρ latestCapacity markerCapacity) : TailAct ρ × TailOutput ρ → Prop
  | (.latest conversationId, _) => s.Published conversationId
  | (.marker conversationId _, _) => s.Published conversationId
  | (.commit writes _, _) => ∀ read ∈ s.reads, ∀ entry, .entry entry ∈ writes →
      entry.conversationId ≠ read.conversationId
  | _ => True

/-- A Session opened over what earlier commits left. -/
def system (ρ : Type) (latestCapacity markerCapacity : ℕ) (owned : ℕ → Bool) :
    System (TailSession ρ latestCapacity markerCapacity) (TailAct ρ × TailOutput ρ) where
  init s := (memorySystem ρ owned).ReachableBy State.Orderly s.stored ∧
    s = ⟨s.stored, [], .new, []⟩
  step := Step owned

end TailSession

end KnightCode
