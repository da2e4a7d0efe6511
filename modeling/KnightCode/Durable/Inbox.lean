import KnightCode.Library.Assoc
import KnightCode.Library.System
import KnightCode.Library.Positions
import KnightCode.Delta.Op

/-!
# The inbox and the submissions of one conversation

Admission, boundaries and withdrawal as commits on one conversation: its transcript, its submission
records, the queue of the submissions waiting for a boundary, and the run that makes it busy. A
commit is one step, and one that throws leaves everything as it was. Changes of submissions are
applied at once here; the transaction applies them when it is assembled, in the same order and to
the same records.

IDs are minted from one counter the whole session shares.
-/

namespace KnightCode.Inbox

open Delta (Json)

/-- `head: "self"` stands for the ID the entry is about to get. -/
inductive Head
  | self
  | entry (id : ℕ)
  deriving DecidableEq

structure EntryDraft where
  kind : Text
  model : Option Json := none
  data : Option Json := none
  head : Option Head := none
  edits : Option Json := none

/-- `placing` is the submission the entry was appended for; nothing reads it. -/
structure EntryRecord where
  id : ℕ
  kind : Text
  model : Option Json
  data : Option Json
  head : Option ℕ
  edits : Option Json
  placing : Option ℕ

structure InputEntry where
  kind : Text
  data : Option Json

inductive UserMode
  | steer
  | followUp
  deriving DecidableEq

inductive InboxItem
  | user (id : ℕ) (mode : UserMode) (content : Json) (entry : Option InputEntry)
  | write (id : ℕ) (entry : EntryDraft)

def InboxItem.id : InboxItem → ℕ
  | .user id _ _ _ => id
  | .write id _ => id

def InboxItem.isWrite : InboxItem → Bool
  | .user .. => false
  | .write .. => true

def InboxItem.hasMode (mode : UserMode) : InboxItem → Bool
  | .user _ mode' _ _ => mode' = mode
  | .write .. => false

inductive QueueMode
  | all
  | oneAtATime
  deriving DecidableEq

structure QueueModes where
  steeringMode : QueueMode
  followUpMode : QueueMode

inductive SubmissionType
  | input
  | write
  | continue
  deriving DecidableEq

inductive Status
  | queued
  | placed
  | done
  | unanswered
  deriving DecidableEq

structure SubmissionRecord where
  type : SubmissionType
  requestId : Option Text
  status : Status
  entry : Option ℕ := none
  answer : Option ℕ := none
  reason : Option Text := none
  detail : Option Json := none

/-- A settlement, or the placement of a queued submission at its entry. -/
inductive SubmissionChange
  | done (answer : ℕ)
  | unanswered (reason : Text) (detail : Option Json)
  | placed (entry : ℕ)

structure LiveRun where
  taskId : ℕ
  inputs : List ℕ
  first : Option ℕ
  /-- The run answered, and waits for its after-run tasks. -/
  afterRun : Bool := false

structure RunFailure where
  taskId : ℕ
  inputs : List ℕ
  reason : Text
  detail : Option Json
  first : Option ℕ

inductive At
  | postTools
  | final
  deriving DecidableEq

/-- One boundary that was applied: what it found and what it left. -/
structure BoundaryRun where
  place : At
  modes : QueueModes
  items : List InboxItem
  entries : List EntryRecord
  itemsAfter : List InboxItem
  entriesAfter : List EntryRecord
  submissionsAfter : List (ℕ × SubmissionRecord)

/-- An entry that moves the head: its ID and the first entry it keeps. -/
structure Marker where
  id : ℕ
  head : ℕ

/-- `inherited` is the newest marker a fork sees from before its fork point; `boundaries` tells what
happened so far and nothing reads it. -/
structure Conversation where
  next : ℕ
  inherited : Option Marker
  entries : List EntryRecord
  submissions : List (ℕ × SubmissionRecord)
  items : List InboxItem
  run : Option LiveRun
  runFailure : Option RunFailure
  boundaries : List BoundaryRun

/-- Admissions are refused for the first four reasons. The rest are the errors of a transaction
whose submission changes do not fit their records. -/
inductive TxError
  | inputKind (kind : Text)
  | requestType (requestId : Text) (type : SubmissionType)
  | conversationBusy
  | conversationIdle
  | unknownSubmission (id : ℕ)
  | notQueued (id : ℕ)
  | notPlaced (id : ℕ)

def TxError.refusal : TxError → Bool
  | .inputKind _ | .requestType .. | .conversationBusy | .conversationIdle => true
  | .unknownSubmission _ | .notQueued _ | .notPlaced _ => false

/-! ### What a transaction stages -/

def EntryRecord.marker (e : EntryRecord) : Option Marker :=
  e.head.map (fun head => ⟨e.id, head⟩)

namespace Conversation

/-- Take the next ID. -/
def mintId (c : Conversation) : ℕ × Conversation :=
  (c.next + 1, { c with next := c.next + 1 })

def resolveHead (id : ℕ) : Option Head → Option ℕ
  | none => none
  | some .self => some id
  | some (.entry head) => some head

def appendEntry (c : Conversation) (draft : EntryDraft) (placing : Option ℕ) : ℕ × Conversation :=
  let (id, c) := c.mintId
  (id, { c with
    entries := c.entries ++ [{
      id
      kind := draft.kind
      model := draft.model
      data := draft.data
      head := resolveHead id draft.head
      edits := draft.edits
      placing }] })

def createSubmission (c : Conversation) (record : SubmissionRecord) : ℕ × Conversation :=
  let (id, c) := c.mintId
  (id, { c with submissions := c.submissions ++ [(id, record)] })

end Conversation

def Status.settled : Status → Bool
  | .done | .unanswered => true
  | .queued | .placed => false

/-- Placement turns a queued input `placed` and a queued write `done`; only a placed submission is
answered, and a settled record stays. -/
def applySubmissionChange (id : ℕ) (current : SubmissionRecord) (change : SubmissionChange) :
    Except TxError SubmissionRecord :=
  if current.status.settled then .ok current
  else
    match change with
    | .placed entry =>
      if current.status ≠ .queued then .error (.notQueued id)
      else .ok { current with
        status := if current.type = .input then .placed else .done
        entry := some entry }
    | .done answer =>
      if current.status ≠ .placed then .error (.notPlaced id)
      else .ok { current with status := .done, answer := some answer }
    | .unanswered reason detail =>
      .ok { current with status := .unanswered, reason := some reason, detail := detail }

namespace Conversation

def changeSubmission (c : Conversation) (id : ℕ) (change : SubmissionChange) :
    Except TxError Conversation := do
  let some current := Assoc.get id c.submissions | .error (.unknownSubmission id)
  let next ← applySubmissionChange id current change
  .ok { c with submissions := Assoc.set id next c.submissions }

def settleAll (change : SubmissionChange) : List ℕ → Conversation → Except TxError Conversation
  | [], c => .ok c
  | id :: ids, c => do
    let c ← c.changeSubmission id change
    settleAll change ids c

/-- The newest entry with a head, of the conversation itself before those it was forked from. -/
def latestHeadMarker (c : Conversation) : Option Marker :=
  match c.entries.reverse.findSome? EntryRecord.marker with
  | some marker => some marker
  | none => c.inherited

def latestHead (c : Conversation) : Option ℕ :=
  c.latestHeadMarker.map Marker.head

end Conversation

/-! ### Boundaries -/

structure Boundary where
  modes : QueueModes
  /-- Start of the active range, advanced by the heads the commit writes. -/
  head : Option ℕ

structure BoundaryResult where
  users : List ℕ
  first : Option ℕ
  reset : Bool

def prepareBoundary (c : Conversation) (modes : QueueModes) : Boundary :=
  ⟨modes, c.latestHead⟩

def USER_KIND : Text := ascii "knightcode.user"
def RESET_KIND : Text := ascii "knightcode.reset"
def ASSISTANT_KIND : Text := ascii "knightcode.assistant"
def COMPACTION_KIND : Text := ascii "knightcode.compaction"

def userMessage (content : Json) (now : ℕ) : Json :=
  .obj [(ascii "role", .str (ascii "user")), (ascii "content", content),
    (ascii "timestamp", .num now)]

def inputEntry (content : Json) (entry : Option InputEntry) (now : ℕ) : EntryDraft :=
  match entry with
  | none => { kind := USER_KIND, model := some (.arr [userMessage content now]) }
  | some entry =>
    { kind := entry.kind, data := entry.data, model := some (.arr [userMessage content now]) }

def appendInput (c : Conversation) (content : Json) (entry : Option InputEntry) (now : ℕ)
    (placing : Option ℕ) : ℕ × Conversation :=
  c.appendEntry (inputEntry content entry now) placing

def isDisplayOnly (entry : EntryDraft) : Bool :=
  entry.model.isNone && entry.head.isNone && entry.edits.isNone

def hasQueuedReset (items : List InboxItem) : Bool :=
  items.any (fun item =>
    match item with
    | .write _ entry => entry.head = some .self
    | .user .. => false)

/-- A head before the active range: placing it would bring back cut history. -/
def isStale (boundary : Boundary) (entry : EntryDraft) : Bool :=
  match entry.head, boundary.head with
  | some (.entry head), some current => head < current
  | _, _ => false

/-- Head of the active range once `draft` was placed as entry `id`. -/
def Boundary.advance (boundary : Boundary) (id : ℕ) (draft : EntryDraft) : Boundary :=
  match draft.head with
  | none => boundary
  | some .self => { boundary with head := some id }
  | some (.entry head) => { boundary with head := some head }

def indexes (p : InboxItem → Bool) (items : List InboxItem) : List (InboxItem × ℕ) :=
  items.zipIdx.filter (fun x => p x.1)

def pick (items : List InboxItem) (mode : UserMode) : QueueMode → List (InboxItem × ℕ)
  | .all => indexes (InboxItem.hasMode mode) items
  | .oneAtATime => (indexes (InboxItem.hasMode mode) items).take 1

/-- The selected user items, in ID order. -/
def pickUsers (items : List InboxItem) (modes : QueueModes) (final : Bool) :
    List (InboxItem × ℕ) :=
  (pick items .steer modes.steeringMode ++
    (if final then pick items .followUp modes.followUpMode else [])).mergeSort
      (fun a b => decide (a.2 ≤ b.2))

/-- Place the writes, or settle them `stale`; `first` is the first entry placed so far. -/
def placeWrites : List (InboxItem × ℕ) → Boundary → Option ℕ → Conversation →
    Except TxError (Boundary × Option ℕ × Conversation)
  | [], boundary, first, c => .ok (boundary, first, c)
  | (.user .., _) :: rest, boundary, first, c => placeWrites rest boundary first c
  | (.write id draft, _) :: rest, boundary, first, c => do
    if isStale boundary draft then
      let c ← c.changeSubmission id (.unanswered (ascii "stale") none)
      placeWrites rest boundary first c
    else
      let (entry, c) := c.appendEntry draft (some id)
      let c ← c.changeSubmission id (.placed entry)
      placeWrites rest (boundary.advance entry draft) (first <|> some entry) c

def placeUsers (now : ℕ) : List (InboxItem × ℕ) → List ℕ → Option ℕ → Conversation →
    Except TxError (List ℕ × Option ℕ × Conversation)
  | [], placed, first, c => .ok (placed, first, c)
  | (.write .., _) :: rest, placed, first, c => placeUsers now rest placed first c
  | (.user id _ content entry, _) :: rest, placed, first, c => do
    let (entry, c) := appendInput c content entry now (some id)
    let c ← c.changeSubmission id (.placed entry)
    placeUsers now rest (placed ++ [id]) (first <|> some entry) c

/-- Place the queued items a boundary selects: every write, then the first or all steers, and at
`final` the first or all follow-ups. -/
def applyBoundary (c : Conversation) (boundary : Boundary) (place : At) (now : ℕ) :
    Except TxError (BoundaryResult × Conversation) := do
  let items := c.items
  let reset := hasQueuedReset items
  let final := decide (place = .final) || reset
  let writes := indexes InboxItem.isWrite items
  let users := pickUsers items boundary.modes final
  let (_, first, c') ← placeWrites writes boundary none c
  let (placed, first, c') ← placeUsers now users [] first c'
  let removed := ((writes ++ users).map Prod.snd).mergeSort (fun i j => decide (j ≤ i))
  let left := Positions.removeAt items removed
  .ok (⟨placed, first, reset⟩, { c' with
    items := left
    boundaries := c'.boundaries ++ [{
      place
      modes := boundary.modes
      items
      entries := c.entries
      itemsAfter := left
      entriesAfter := c'.entries
      submissionsAfter := c'.submissions }] })

end KnightCode.Inbox
