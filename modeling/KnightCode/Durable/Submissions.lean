import KnightCode.Durable.Inbox

/-!
# Admission, withdrawal and the runs of one conversation

Every commit that touches the inbox, as a function of the conversation. Of a run's generation task
only the commits that append to the transcript, pass a boundary or settle inputs are here; which of
them comes next, and with what, is left open.
-/

namespace KnightCode.Inbox

open Delta (Json)

inductive WhenBusy
  | steer
  | followUp
  | reject
  deriving DecidableEq

/-- `whenIdleReject` is `whenIdle: "reject"`. -/
inductive SubmissionDraft
  | input (requestId : Option Text) (content : Json) (whenBusy : Option WhenBusy)
      (whenIdleReject : Bool) (entry : Option InputEntry)
  | write (requestId : Option Text) (entry : EntryDraft)
  | continue (requestId : Option Text)

def SubmissionDraft.type : SubmissionDraft → SubmissionType
  | .input .. => .input
  | .write .. => .write
  | .continue _ => .continue

def SubmissionDraft.requestId : SubmissionDraft → Option Text
  | .input requestId .. => requestId
  | .write requestId _ => requestId
  | .continue requestId => requestId

structure Admission where
  id : ℕ
  status : Status

/-! ### Runs -/

/-- A new generation takes the run. -/
def startRun (c : Conversation) (inputs : List ℕ) (first : Option ℕ) (keepFailure : Bool) :
    Conversation :=
  let (taskId, c) := c.mintId
  { c with
    run := some { taskId, inputs, first }
    runFailure := if keepFailure then c.runFailure else none }

/-- Hand the run over to a new generation. -/
def handOver (c : Conversation) (task : ℕ) : Conversation :=
  let (taskId, c) := c.mintId
  { c with run := c.run.map (fun run => if run.taskId = task then { run with taskId } else run) }

inductive RunEnd
  | done (answer : ℕ)
  /-- `settlement`, when given, is what the inputs settle with. -/
  | unanswered (reason : Text) (detail : Option Json) (settlement : Option (Text × Option Json))

def endRun (c : Conversation) (task : ℕ) (ending : RunEnd) : Except TxError Conversation :=
  match c.run with
  | none => .ok c
  | some run =>
    if run.taskId ≠ task then .ok c
    else
      match ending with
      | .done answer => do
        let c ← Conversation.settleAll (.done answer) run.inputs c
        .ok { c with run := none }
      | .unanswered reason detail settlement =>
        if run.afterRun then .ok { c with run := none }
        else do
          let (reason', detail') := settlement.getD (reason, detail)
          let c ← Conversation.settleAll (.unanswered reason' detail') run.inputs c
          .ok { c with
            run := none
            runFailure := some { taskId := task, inputs := run.inputs, reason, detail,
                                 first := run.first } }

/-- Settle the inputs of a run that answered and keep the run for its after-run tasks; `none` when
`task` does not own the run. -/
def holdRun (c : Conversation) (task : ℕ) (answer : ℕ) : Except TxError (Option Conversation) :=
  match c.run with
  | none => .ok none
  | some run =>
    if run.taskId ≠ task then .ok none
    else do
      let c ← Conversation.settleAll (.done answer) run.inputs c
      .ok (some { c with run := some { run with inputs := [], afterRun := true } })

def startSelected (c : Conversation) (result : BoundaryResult) (keepFailure : Bool) :
    Conversation :=
  if result.users = [] then c else startRun c result.users result.first keepFailure

/-! ### Withdrawal -/

def removeInboxItem (c : Conversation) (id : ℕ) : Conversation :=
  match c.items.findIdx? (fun item => item.id = id) with
  | some index => { c with items := c.items.eraseIdx index }
  | none => c

/-- The loop of `withdrawQueuedInputs`, from the last item to the first. -/
def withdrawFrom (reason : Text) : List (InboxItem × ℕ) → Conversation →
    Except TxError Conversation
  | [], c => .ok c
  | (.write .., _) :: rest, c => withdrawFrom reason rest c
  | (.user id .., index) :: rest, c => do
    let c ← c.changeSubmission id (.unanswered reason none)
    withdrawFrom reason rest { c with items := c.items.eraseIdx index }

def withdrawQueuedInputs (c : Conversation) (reason : Text) : Except TxError Conversation :=
  withdrawFrom reason c.items.zipIdx.reverse c

/-- Withdraw a queued submission; any other is only reported. -/
def abort (c : Conversation) (id : ℕ) : Except TxError Conversation :=
  match Assoc.get id c.submissions with
  | none => .ok c
  | some record =>
    if record.status = .queued then do
      let c ← c.changeSubmission id (.unanswered (ascii "aborted") none)
      .ok (removeInboxItem c id)
    else .ok c

/-! ### Admission -/

def checkInputEntry (entry : InputEntry) : Except TxError Unit :=
  if entry.kind = [] ∨ (ascii "knightcode.").isPrefixOf entry.kind then
    .error (.inputKind entry.kind)
  else .ok ()

def SubmissionDraft.check : SubmissionDraft → Except TxError Unit
  | .input _ _ _ _ (some entry) => checkInputEntry entry
  | .input _ _ _ _ none | .write .. | .continue _ => .ok ()

def submissionByRequest (c : Conversation) (requestId : Text) : Option (ℕ × SubmissionRecord) :=
  c.submissions.find? (fun x => x.2.requestId = some requestId)

/-- The submission a repeated request ID names. -/
def existing (c : Conversation) (draft : SubmissionDraft) : Option (ℕ × SubmissionRecord) :=
  match draft.requestId with
  | none => none
  | some requestId => submissionByRequest c requestId

/-- Append a write's entry and record it `done`. -/
def placeWrite (c : Conversation) (requestId : Option Text) (entry : EntryDraft) :
    Admission × Conversation :=
  -- The entry's ID is minted first; its submission gets the one after.
  let (entryId, c) := c.appendEntry entry (some (c.next + 2))
  let (id, c) := c.createSubmission
    { type := .write, requestId, status := .done, entry := some entryId }
  (⟨id, .done⟩, c)

/-- A continue places queued items and starts a run with them and itself. -/
def admitContinue (c : Conversation) (requestId : Option Text) (now : ℕ) (modes : QueueModes) :
    Except TxError (Admission × Conversation) := do
  if c.run.isSome then .error .conversationBusy
  let boundary := prepareBoundary c modes
  let (id, c) := c.createSubmission { type := .continue, requestId, status := .placed }
  let (result, c) ← applyBoundary c boundary .final now
  let first := (c.runFailure.bind RunFailure.first) <|> result.first
  .ok (⟨id, .placed⟩, startRun c (result.users ++ [id]) first false)

def admitQueued (c : Conversation) (type : SubmissionType) (requestId : Option Text)
    (item : ℕ → InboxItem) (now : ℕ) (modes : QueueModes) :
    Except TxError (Admission × Conversation) := do
  let boundary := prepareBoundary c modes
  let busy := c.run.isSome
  let (id, c) := c.createSubmission { type, requestId, status := .queued }
  let c := { c with items := c.items ++ [item id] }
  if busy then .ok (⟨id, .queued⟩, c)
  else
    let (result, c) ← applyBoundary c boundary .final now
    let status :=
      if type = .write then .done
      else if result.users.getLast? = some id then .placed else .queued
    .ok (⟨id, status⟩, startSelected c result false)

def admitIdleWrite (c : Conversation) (requestId : Option Text) (entry : EntryDraft)
    (modes : QueueModes) : Admission × Conversation :=
  if isStale (prepareBoundary c modes) entry then
    let (id, c) := c.createSubmission
      { type := .write, requestId, status := .unanswered, reason := some (ascii "stale") }
    (⟨id, .done⟩, c)
  else placeWrite c requestId entry

def admitIdleInput (c : Conversation) (requestId : Option Text) (content : Json)
    (entry : Option InputEntry) (now : ℕ) : Admission × Conversation :=
  let (entryId, c) := appendInput c content entry now (some (c.next + 2))
  let (id, c) := c.createSubmission
    { type := .input, requestId, status := .placed, entry := some entryId }
  (⟨id, .placed⟩, startRun c [id] (some entryId) false)

/-- A display-only write is appended at once, unless a reset is queued. -/
def admitWrite (c : Conversation) (requestId : Option Text) (entry : EntryDraft) (now : ℕ)
    (modes : QueueModes) : Except TxError (Admission × Conversation) :=
  if isDisplayOnly entry ∧ ¬ hasQueuedReset c.items then .ok (placeWrite c requestId entry)
  else if c.run.isSome ∨ c.items ≠ [] then
    admitQueued c .write requestId (fun id => .write id entry) now modes
  else .ok (admitIdleWrite c requestId entry modes)

def admitInput (c : Conversation) (requestId : Option Text) (content : Json)
    (whenBusy : Option WhenBusy) (whenIdleReject : Bool) (entry : Option InputEntry) (now : ℕ)
    (modes : QueueModes) : Except TxError (Admission × Conversation) :=
  if c.run.isSome ∧ whenBusy = some .reject then .error .conversationBusy
  else if ¬ c.run.isSome ∧ whenIdleReject then .error .conversationIdle
  else if c.run.isSome ∨ c.items ≠ [] then
    let mode := if whenBusy = some .steer then .steer else .followUp
    admitQueued c .input requestId (fun id => .user id mode content entry) now modes
  else .ok (admitIdleInput c requestId content entry now)

def admitFresh (c : Conversation) (draft : SubmissionDraft) (now : ℕ) (modes : QueueModes) :
    Except TxError (Admission × Conversation) :=
  match draft with
  | .write requestId entry => admitWrite c requestId entry now modes
  | .input requestId content whenBusy whenIdleReject entry =>
    admitInput c requestId content whenBusy whenIdleReject entry now modes
  | .continue requestId => admitContinue c requestId now modes

/-- A known request ID returns its submission, unwritten. -/
def admitChecked (c : Conversation) (draft : SubmissionDraft) (now : ℕ) (modes : QueueModes) :
    Except TxError (Admission × Conversation) :=
  match existing c draft with
  | some (id, record) =>
    if record.type ≠ draft.type then
      .error (.requestType (draft.requestId.getD []) record.type)
    else .ok (⟨id, if record.status = .unanswered then .done else record.status⟩, c)
  | none => admitFresh c draft now modes

def admitSubmission (c : Conversation) (draft : SubmissionDraft) (now : ℕ) (modes : QueueModes) :
    Except TxError (Admission × Conversation) := do
  draft.check
  admitChecked c draft now modes

/-! ### Commits of a run -/

inductive AfterFailedRun
  | keep
  | continue
  | withdraw
  deriving DecidableEq

def endFailedRun (c : Conversation) (task : ℕ) (policy : AfterFailedRun) (boundary : Boundary)
    (ending : RunEnd) (now : ℕ) : Except TxError Conversation := do
  let c ← endRun c task ending
  let c ← if policy = .withdraw then withdrawQueuedInputs c (ascii "run_failed") else .ok c
  if policy ≠ .continue then .ok c
  else
    let (result, c) ← applyBoundary c boundary .final now
    .ok (startSelected c result true)

def hasUserItem (items : List InboxItem) : Bool :=
  items.any (fun item => !item.isWrite)

def answerDraft (message : Json) : EntryDraft :=
  { kind := ASSISTANT_KIND, model := some (.arr [message]) }

/-- End the run with its answer after a final boundary, and start the next for what it selected. -/
def passFinal (c : Conversation) (task : ℕ) (boundary : Boundary) (now answer : ℕ) :
    Except TxError Conversation := do
  let (result, c) ← applyBoundary c boundary .final now
  let c ← endRun c task (.done answer)
  .ok (startSelected c result false)

def holdOrPass (c : Conversation) (task : ℕ) (afterRun : Bool) (boundary : Boundary)
    (now answer : ℕ) : Except TxError Conversation :=
  if afterRun then do
    match ← holdRun c task answer with
    | some held => .ok held
    | none => passFinal c task boundary now answer
  else passFinal c task boundary now answer

/-- A final answer. A continuation is taken only when no user item and no reset is queued. -/
def answer (c : Conversation) (task : ℕ) (message : Json) (continuation : Option Json)
    (afterRun : Bool) (modes : QueueModes) (now : ℕ) : Except TxError Conversation := do
  let boundary := prepareBoundary c modes
  let continues :=
    if hasUserItem c.items ∨ hasQueuedReset c.items then none else continuation
  let (entry, c) := c.appendEntry (answerDraft message) none
  match continues with
  | some content =>
    let (_, c) ← applyBoundary c boundary .final now
    let (_, c) := appendInput c content none now none
    .ok (handOver c task)
  | none => holdOrPass c task afterRun boundary now entry

def endAnsweredRun (c : Conversation) (task : ℕ) (answer : ℕ) (modes : QueueModes) (now : ℕ) :
    Except TxError Conversation :=
  passFinal c task (prepareBoundary c modes) now answer

/-- How a tool round goes on: which of these holds is told by its results' controls, the agent's
`maxTurns` and the run's turns. -/
inductive RoundEnd
  | terminate (afterRun : Bool)
  | turnLimit (policy : AfterFailedRun) (detail : Json)
  | next

/-- The handoff's reset precedes every queued item. -/
def handOff (c : Conversation) (boundary : Boundary) (handoff : Option Json) (now : ℕ) :
    Boundary × Conversation :=
  match handoff with
  | none => (boundary, c)
  | some content =>
    let (entry, c) := c.appendEntry
      { kind := RESET_KIND, head := some .self, model := some (.arr [userMessage content now]) }
      none
    ({ boundary with head := some entry }, c)

/-- The post-tools boundary of a run that goes on, unless a queued reset cut its context. -/
def passTools (c : Conversation) (task : ℕ) (boundary : Boundary) (now : ℕ) :
    Except TxError Conversation := do
  let (result, c) ← applyBoundary c boundary .postTools now
  if result.reset then
    let c ← endRun c task (.unanswered (ascii "reset") none none)
    .ok (startSelected c result true)
  else
    let run := c.run.map (fun run =>
      if run.taskId = task then { run with inputs := run.inputs ++ result.users } else run)
    .ok (handOver { c with run } task)

def finishToolRound (c : Conversation) (task assistant : ℕ) (handoff : Option Json)
    (ending : RoundEnd) (modes : QueueModes) (now : ℕ) : Except TxError Conversation := do
  let (boundary, c) := handOff c (prepareBoundary c modes) handoff now
  match ending with
  | .terminate afterRun => holdOrPass c task afterRun boundary now assistant
  | .turnLimit policy detail =>
    endFailedRun c task policy boundary (.unanswered (ascii "turn_limit") (some detail) none) now
  | .next => passTools c task boundary now

/-! ### The conversation as a system -/

inductive Commit
  | submit (draft : SubmissionDraft) (now : ℕ) (modes : QueueModes)
  | abort (id : ℕ)
  /-- `Conversation.abort()` and the cascade of a cancelled owner. -/
  | withdraw (reason : Text)
  /-- The run's other entries, none of which moves the head. -/
  | append (kind : Text) (model data : Option Json)
  /-- The summary of a compaction the run waits for; it keeps an entry of the active range. -/
  | summary (firstKept : ℕ) (model data : Json)
  | answer (task : ℕ) (message : Json) (continuation : Option Json) (afterRun : Bool)
      (modes : QueueModes) (now : ℕ)
  | endAnsweredRun (task answer : ℕ) (modes : QueueModes) (now : ℕ)
  | endAnsweredCutOff (task answer : ℕ)
  | finishToolRound (task assistant : ℕ) (handoff : Option Json) (ending : RoundEnd)
      (modes : QueueModes) (now : ℕ)
  | endFailedRun (task : ℕ) (message : Option Json) (policy : AfterFailedRun) (ending : RunEnd)
      (modes : QueueModes) (now : ℕ)
  /-- Another conversation takes an ID. -/
  | mint

/-- The run's own part of a failed response, if it left one. -/
def appendAnswer (c : Conversation) (message : Option Json) : Conversation :=
  match message with
  | none => c
  | some message => (c.appendEntry (answerDraft message) none).2

def Conversation.commit (c : Conversation) : Commit → Except TxError Conversation
  | .submit draft now modes => (admitSubmission c draft now modes).map Prod.snd
  | .abort id => Inbox.abort c id
  | .withdraw reason => withdrawQueuedInputs c reason
  | .append kind model data => .ok (c.appendEntry { kind, model, data } none).2
  | .summary firstKept model data =>
    .ok (c.appendEntry
      { kind := COMPACTION_KIND, model, data, head := some (.entry firstKept) } none).2
  | .answer task message continuation afterRun modes now =>
    Inbox.answer c task message continuation afterRun modes now
  | .endAnsweredRun task answer modes now => Inbox.endAnsweredRun c task answer modes now
  | .endAnsweredCutOff task answer => endRun c task (.done answer)
  | .finishToolRound task assistant handoff ending modes now =>
    Inbox.finishToolRound c task assistant handoff ending modes now
  | .endFailedRun task message policy ending modes now =>
    Inbox.endFailedRun (appendAnswer c message) task policy (prepareBoundary c modes) ending now
  | .mint => .ok c.mintId.2

/-- What the code that makes a commit sees to: a blocking summary keeps an entry of the active
range, which nothing moves while its run waits. -/
def Conversation.Admits (c : Conversation) : Commit → Prop
  | .summary firstKept _ _ =>
    firstKept ≤ c.next ∧ ∀ head, c.latestHead = some head → head ≤ firstKept
  | _ => True

/-- A conversation as it is created or forked: nothing of its own, and the head of a marker from
before the fork. -/
def Conversation.Created (c : Conversation) : Prop :=
  (∀ marker, c.inherited = some marker → marker.id ≤ c.next) ∧ c.entries = [] ∧
    c.submissions = [] ∧ c.items = [] ∧ c.run = none ∧ c.runFailure = none ∧ c.boundaries = []

def system : System Conversation Commit where
  init := Conversation.Created
  step c commit c' := c.Admits commit ∧ c.commit commit = .ok c'

end KnightCode.Inbox
