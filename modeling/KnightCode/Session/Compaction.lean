import KnightCode.Session.BranchRuns

/-!
# Compaction of a session

Compaction cuts the projected context: what stands before the cut is summarized, what stands behind
it is kept. The cut is the first user or assistant entry within a budget of recent tokens, moved over
a suffix of omitted attempts and back over entries that contribute nothing. It is recorded as the id
of the first entry kept.
-/

namespace KnightCode.Session

variable {ρ : Type}

/-! ### Cut points -/

def isCutPointMessage (message : AgentMessage ρ) : Bool :=
  match message.role with
  | .user => true
  | .assistant => true
  | .bashExecution => true
  | .custom => true
  | .branchSummary => true
  | .compactionSummary => true
  | _ => false

def isTurnStartMessage (message : AgentMessage ρ) : Bool :=
  match message.role with
  | .user => true
  | .bashExecution => true
  | .custom => true
  | .branchSummary => true
  | .compactionSummary => true
  | _ => false

namespace ProjectedSessionEntry

def isCompaction (entry : ProjectedSessionEntry ρ) : Bool :=
  entry.sourceEntry.isCompaction

def isCutPoint (entry : ProjectedSessionEntry ρ) : Bool :=
  !entry.isCompaction && entry.messages.any isCutPointMessage

/-- `isProjectedTurnStart` -/
def isTurnStart (entry : ProjectedSessionEntry ρ) : Bool :=
  !entry.isCompaction && entry.messages.any isTurnStartMessage

/-- `getMessagesFromProjectedEntryForCompaction` -/
def conversation (entry : ProjectedSessionEntry ρ) : List (AgentMessage ρ) :=
  if entry.isCompaction then [] else entry.messages.filter fun message => message.role ≠ .system

section

variable (getTime : Text → Option ℤ)

def isIntrinsicallyVisible (entry : ProjectedSessionEntry ρ) : Bool :=
  !entry.sourceEntry.isContextEdit &&
    !(sessionEntryToContextMessages getTime entry.sourceEntry).isEmpty

def isOmitted (entry : ProjectedSessionEntry ρ) : Bool :=
  entry.isIntrinsicallyVisible getTime && entry.messages.isEmpty

end

def isAssistant (entry : ProjectedSessionEntry ρ) : Bool :=
  match entry.sourceEntry.body with
  | .message message => message.role = .assistant
  | _ => false

def replacesOutside (ids : List Ident) (entry : ProjectedSessionEntry ρ) : Bool :=
  match entry.sourceEntry.body with
  | .contextEdit targetId (some _) => targetId ∉ ids
  | _ => false

/-- The cut may move back over it. -/
def isSilent (entry : ProjectedSessionEntry ρ) : Bool :=
  !entry.isCompaction && entry.messages.isEmpty

end ProjectedSessionEntry

def findProjectedTurnStartIndex (entries : Projected ρ) (startIndex : ℕ) :
    ℕ → Option ℕ
  | 0 =>
    if startIndex = 0 ∧ entries[0]?.any ProjectedSessionEntry.isTurnStart then some 0 else none
  | index + 1 =>
    if index + 1 < startIndex then none
    else if entries[index + 1]?.any ProjectedSessionEntry.isTurnStart then some (index + 1)
    else findProjectedTurnStartIndex entries startIndex index

section

variable (estimateTokens : AgentMessage ρ → ℕ)

def messageTokens (entry : ProjectedSessionEntry ρ) : ℕ :=
  (entry.messages.map estimateTokens).sum

def budgetIndex (entries : Projected ρ) (startIndex : ℕ) (keepRecentTokens : ℤ) :
    ℕ → ℕ → Option ℕ
  | _, 0 => none
  | accumulatedTokens, end' + 1 =>
    if end' < startIndex then none
    else
      let tokens := ((entries[end']?).map (messageTokens estimateTokens)).getD 0
      if tokens ≠ 0 ∧ keepRecentTokens ≤ accumulatedTokens + tokens then some end'
      else budgetIndex entries startIndex keepRecentTokens (accumulatedTokens + tokens) end'

/-- The indices of the candidates. -/
def cutPointsFrom (entries : Projected ρ) (startIndex endIndex : ℕ) : List ℕ :=
  (List.range' startIndex (endIndex - startIndex)).filter fun index =>
    entries[index]?.any ProjectedSessionEntry.isCutPoint

/-- The first candidate at or behind the budget's index, the last one if there is none. -/
def cutAt (cutPoints : List ℕ) (index : ℕ) : ℕ :=
  ((cutPoints.find? fun candidate => index ≤ candidate).or cutPoints.getLast?).getD 0

/-- A closed suffix of omitted attempts. -/
def isRecoveryOmissionSuffix (getTime : Text → Option ℤ)
    (suffix : Projected ρ) : Bool :=
  let omittedSuffixIds := (suffix.filter (·.isOmitted getTime)).map (·.sourceEntry.id)
  !(suffix.any (·.replacesOutside omittedSuffixIds)) &&
    suffix.any (fun entry => entry.isAssistant && entry.isOmitted getTime) &&
    suffix.all fun entry => !entry.isCompaction &&
      (!entry.isIntrinsicallyVisible getTime || entry.isOmitted getTime)

def moveBack (entries : Projected ρ) (startIndex : ℕ) : ℕ → ℕ
  | 0 => 0
  | cutIndex + 1 =>
    if startIndex < cutIndex + 1 ∧ entries[cutIndex]?.any ProjectedSessionEntry.isSilent then
      moveBack entries startIndex cutIndex
    else cutIndex + 1

structure CutPointResult where
  firstKeptEntryIndex : ℕ
  turnStartIndex : Option ℕ
  isSplitTurn : Bool

/-- The cut before it is moved back. -/
def cutIndexOf (getTime : Text → Option ℤ) (entries : Projected ρ)
    (startIndex endIndex : ℕ) (keepRecentTokens : ℤ) (cutPoints : List ℕ) : ℕ :=
  match budgetIndex estimateTokens entries startIndex keepRecentTokens 0 endIndex with
  | some index =>
    let cutIndex := cutAt cutPoints index
    if isRecoveryOmissionSuffix getTime ((entries.take endIndex).drop (cutIndex + 1)) then
      cutIndex + 1
    else cutIndex
  | none => cutPoints.headD 0

def findProjectedCutPoint (getTime : Text → Option ℤ) (entries : Projected ρ)
    (startIndex endIndex : ℕ) (keepRecentTokens : ℤ) : CutPointResult :=
  let cutPoints := cutPointsFrom entries startIndex endIndex
  if cutPoints = [] then ⟨startIndex, none, false⟩
  else
    let cutIndex := moveBack entries startIndex
      (cutIndexOf estimateTokens getTime entries startIndex endIndex keepRecentTokens cutPoints)
    let startsTurn := entries[cutIndex]?.any ProjectedSessionEntry.isTurnStart
    let turnStartIndex :=
      if startsTurn then none else findProjectedTurnStartIndex entries startIndex cutIndex
    ⟨cutIndex, turnStartIndex, !startsTurn && turnStartIndex.isSome⟩

/-! ### Preparation -/

/-- Without the token count, file operations and settings that the summary is asked for with. -/
structure CompactionPreparation (ρ : Type) where
  firstKeptEntryId : Ident
  messagesToSummarize : List (AgentMessage ρ)
  turnPrefixMessages : List (AgentMessage ρ)
  isSplitTurn : Bool
  previousSummary : Option Text

def SessionEntry.summary (entry : SessionEntry ρ) : Option Text :=
  match entry.body with
  | .compaction compaction => some compaction.summary
  | _ => none

def slice {α : Type} (entries : List α) (start end' : ℕ) : List α :=
  (entries.take end').drop start

def prepareAt (entries : Projected ρ) (boundaryStart : ℕ)
    (cutPoint : CutPointResult) (previousSummary : Option Text) :
    Option (CompactionPreparation ρ) :=
  match entries[cutPoint.firstKeptEntryIndex]? with
  | none => none
  | some firstKeptEntry =>
    if firstKeptEntry.sourceEntry.id.truthy then
      let turnStartIndex := cutPoint.turnStartIndex.getD 0
      let historyEnd :=
        if cutPoint.isSplitTurn then turnStartIndex else cutPoint.firstKeptEntryIndex
      let messagesToSummarize :=
        (slice entries boundaryStart historyEnd).flatMap (·.conversation)
      let turnPrefixMessages :=
        if cutPoint.isSplitTurn then
          (slice entries turnStartIndex cutPoint.firstKeptEntryIndex).flatMap (·.conversation)
        else []
      if messagesToSummarize = [] ∧ turnPrefixMessages = [] then none
      else some ⟨firstKeptEntry.sourceEntry.id, messagesToSummarize, turnPrefixMessages,
        cutPoint.isSplitTurn, previousSummary⟩
    else none

/-- The newest compaction, where it contributes its summary. -/
def prevCompactionIndex (entries : Projected ρ) : Option ℕ :=
  entries.findIdx? fun entry => entry.isCompaction && !entry.messages.isEmpty

def previousSummary (entries : Projected ρ) : Option Text :=
  (prevCompactionIndex entries).bind fun index =>
    (entries[index]?).bind fun entry => entry.sourceEntry.summary

def boundaryStart (entries : Projected ρ) : ℕ :=
  ((prevCompactionIndex entries).map (· + 1)).getD 0

/-- `prepareCompaction` of a projection, the path not ending with a compaction. -/
def prepareProjection (getTime : Text → Option ℤ) (entries : Projected ρ)
    (keepRecentTokens : ℤ) : Option (CompactionPreparation ρ) :=
  prepareAt entries (boundaryStart entries)
    (findProjectedCutPoint estimateTokens getTime entries (boundaryStart entries) entries.length
      keepRecentTokens) (previousSummary entries)

/-- `prepareCompaction`, if the walk along the path ends. -/
def prepareCompaction (getTime : Text → Option ℤ) (pathEntries : Entries ρ)
    (keepRecentTokens : ℤ) (fuel : ℕ) : Option (Option (CompactionPreparation ρ)) :=
  if pathEntries.getLast?.any SessionEntry.isCompaction then some none
  else (buildSessionProjection getTime pathEntries .undefined fuel).map fun projection =>
    prepareProjection estimateTokens getTime projection.entries keepRecentTokens

end

/-! ### The current system message -/

/-- The fields of a system message besides its content; a section without text is removed. -/
structure SystemFields (τ : Type) where
  sections : List (Text × Option Text)
  toolsAdded : List (Text × τ)
  toolsRemoved : List Text

def Block.text? : Block ρ → Option Text
  | .text t => some t
  | _ => none

def contentText (content : MessageContent ρ) : Text :=
  match content with
  | .missing => []
  | .text text => text
  | .blocks blocks => [10].intercalate (blocks.filterMap Block.text?)

section

variable {τ : Type} (systemFields : AgentMessage ρ → SystemFields τ)
  (withFields : SystemFields τ → MessageFields ρ)

def systemMessages (messages : List (AgentMessage ρ)) : List (AgentMessage ρ) :=
  messages.filter fun message => message.role = .system

def changeTools (tools : List (Text × τ)) (message : AgentMessage ρ) : List (Text × τ) :=
  let kept := (systemFields message).toolsRemoved.foldl (fun tools name => Assoc.erase name tools)
    tools
  (systemFields message).toolsAdded.foldl (fun tools tool => Assoc.set tool.1 tool.2 tools) kept

def getCurrentTools (messages : List (AgentMessage ρ)) : List (Text × τ) :=
  (systemMessages messages).foldl (changeTools systemFields) []

def changeSection (sections : List (Text × Text)) : Text × Option Text → List (Text × Text)
  | (name, some text) => Assoc.set name text sections
  | (name, none) => Assoc.erase name sections

def currentSections (messages : List (AgentMessage ρ)) : List (Text × Text) :=
  (systemMessages messages).foldl
    (fun sections message => (systemFields message).sections.foldl changeSection sections) []

def getCurrentSystemMessage (messages : List (AgentMessage ρ)) : Option (AgentMessage ρ) :=
  let content := ((systemMessages messages).map fun message => contentText message.content).filter
    fun text => text ≠ []
  let timestamp := (systemMessages messages).findSome? (·.timestamp)
  let tools := getCurrentTools systemFields messages
  if timestamp = none ∧ tools = [] then none
  else some ⟨.system, .text ([10, 10].intercalate content),
    withFields ⟨(currentSections systemFields messages).map fun s => (s.1, some s.2), tools, []⟩,
    some (timestamp.getD 0)⟩

def SessionManager.appendCompaction (getTime : Text → Option ℤ) (m : SessionManager ρ)
    (randomUUID : ℕ → Uuid) (timestamp summary : Text) (firstKeptEntryId : Option Ident)
    (tokensBefore : ℤ) (rest : ρ) (written : Bool) (fuel : ℕ) : Option (SessionManager ρ) :=
  (m.projection getTime fuel).map fun projection =>
    m.appendEntry ⟨m.nextId randomUUID, m.leafId, timestamp, .compaction
      ⟨summary, firstKeptEntryId.getD (m.nextId randomUUID), none, tokensBefore,
        (getCurrentSystemMessage systemFields withFields projection.messages).map fun message =>
          { message with timestamp := getTime timestamp }, rest⟩⟩ written

end

end KnightCode.Session
