import KnightCode.Library.Assoc
import Mathlib.Data.Int.Notation

/-!
# The model context of one conversation

The context of a conversation is derived from its visible transcript: the newest head marker
fixes where it starts, the newest edit of an entry in that range replaces or omits what it
contributes, and each assistant's tool results are moved directly after it.

`ρ` is what the code only carries: text, images, arguments, usage. A system message keeps the
identity `ref` of its object, by which `leadWithSystem` recognises the baseline.
-/

namespace KnightCode.Context

open List Option

inductive StopReason
  | pending
  | stop
  | length
  | toolUse
  | error
  | aborted
  | deferred
  deriving DecidableEq

structure ToolCall (ρ : Type) where
  id : String
  name : String
  body : ρ
  deriving DecidableEq

/-- One block of an assistant's content; `other` is text or thinking. -/
inductive Content (ρ : Type)
  | toolCall (call : ToolCall ρ)
  | other (body : ρ)
  deriving DecidableEq

structure AssistantMessage (ρ : Type) where
  content : List (Content ρ)
  stopReason : StopReason
  timestamp : ℤ
  body : ρ
  deriving DecidableEq

inductive ResultContent (ρ : Type)
  | text (text : String)
  | other (body : ρ)
  deriving DecidableEq

inductive ResultDetails (ρ : Type)
  | reason (reason : String)
  | other (body : ρ)
  deriving DecidableEq

structure ToolResultMessage (ρ : Type) where
  toolCallId : String
  toolName : String
  content : List (ResultContent ρ)
  isError : Bool
  details : Option (ResultDetails ρ)
  timestamp : ℤ
  deriving DecidableEq

inductive Message (ρ : Type)
  | system (ref : ℕ) (body : ρ)
  | user (body : ρ)
  | assistant (message : AssistantMessage ρ)
  | toolResult (message : ToolResultMessage ρ)
  deriving DecidableEq

inductive EditAction (ρ : Type)
  | omit
  | replace (messages : List (Message ρ))
  deriving DecidableEq

/-- An override of one earlier visible entry's contribution. -/
structure ContextEdit (ρ : Type) where
  target : ℤ
  action : EditAction ρ
  deriving DecidableEq

structure EntryRecord (ρ : Type) where
  id : ℤ
  kind : String
  model : Option (List (Message ρ))
  head : Option ℤ
  edits : Option (List (ContextEdit ρ))
  data : Option ρ
  deriving DecidableEq

structure HeadMarker (ρ : Type) where
  entry : EntryRecord ρ
  head : ℤ
  marks : entry.head = some head

structure ContextBounds (ρ : Type) where
  head : Option (HeadMarker ρ)
  tail : ℤ

structure ContextView (ρ : Type) where
  head : Option (EntryRecord ρ)
  entries : List (EntryRecord ρ)
  contributions : List (List (Message ρ))
  messages : List (Message ρ)

/-- The baseline's system message: `none` while a later entry may be one, `some none` when the
range cannot have one. -/
abbrev Baseline (ρ : Type) := Option (Option (Message ρ))

structure ContextRange (ρ : Type) where
  bounds : ContextBounds ρ
  entries : List (EntryRecord ρ)
  view : ContextView ρ
  edited : List ℤ
  settled : List (Message ρ)
  opened : List (Message ρ)
  baseline : Baseline ρ
  current : Bool

variable {ρ : Type}

namespace Message

def isSystem : Message ρ → Bool
  | .system _ _ => true
  | _ => false

def isAssistant : Message ρ → Bool
  | .assistant _ => true
  | _ => false

def isUser : Message ρ → Bool
  | .user _ => true
  | _ => false

def toolCallId : Message ρ → Option String
  | .toolResult message => some message.toolCallId
  | _ => none

def assistant? : Message ρ → Option (AssistantMessage ρ)
  | .assistant message => some message
  | _ => none

/-- `message.role !== "assistant" || !EXCLUDED_STOP_REASONS.has(message.stopReason)`. -/
def isContributed : Message ρ → Bool
  | .assistant message => message.stopReason ∉ [.aborted, .error, .deferred]
  | _ => true

/-- Whether two messages are one object, where one of them is a system message. -/
def sameSystem : Message ρ → Message ρ → Bool
  | .system ref _, .system ref' _ => ref = ref'
  | _, _ => false

end Message

/-! ### Tool results -/

def missingResultText : String :=
  "Tool result unavailable: history ends before this call completed."

def missingResult (call : ToolCall ρ) (timestamp : ℤ) : ToolResultMessage ρ where
  toolCallId := call.id
  toolName := call.name
  content := [.text missingResultText]
  isError := true
  details := some (.reason "missing_result")
  timestamp := timestamp

def AssistantMessage.calls (message : AssistantMessage ρ) : List (ToolCall ρ) :=
  message.content.filterMap fun
    | .toolCall call => some call
    | .other _ => none

/-- The first result of each call among the messages before the next assistant. -/
def resultsOf : List (Message ρ) → List (String × ToolResultMessage ρ) →
    List (String × ToolResultMessage ρ)
  | [], results => results
  | .assistant _ :: _, results => results
  | .toolResult message :: rest, results =>
    resultsOf rest (if (Assoc.get message.toolCallId results).isNone
      then Assoc.set message.toolCallId message results else results)
  | _ :: rest, results => resultsOf rest results

/-- What is placed after an assistant that the messages `rest` follow. -/
def resultsAfter (message : AssistantMessage ρ) (rest : List (Message ρ)) : List (Message ρ) :=
  message.calls.map fun call =>
    .toolResult ((Assoc.get call.id (resultsOf rest [])).getD
      (missingResult call message.timestamp))

def orderToolResults : List (Message ρ) → List (Message ρ)
  | [] => []
  | .toolResult _ :: rest => orderToolResults rest
  | .assistant message :: rest =>
    .assistant message :: (resultsAfter message rest ++ orderToolResults rest)
  | message :: rest => message :: orderToolResults rest

/-- `messages.findLast((message) => message.role === "assistant")`. -/
def findLastAssistant (messages : List (Message ρ)) : Option (AssistantMessage ρ) :=
  messages.reverse.findSome? (·.assistant?)

def firstResult (id : String) : List (Message ρ) → Option (ToolResultMessage ρ)
  | [] => none
  | .assistant _ :: _ => none
  | .toolResult message :: rest => if message.toolCallId = id then some message
    else firstResult id rest
  | _ :: rest => firstResult id rest

theorem get_resultsOf (id : String) (rest : List (Message ρ))
    (results : List (String × ToolResultMessage ρ)) :
    Assoc.get id (resultsOf rest results) = (Assoc.get id results).or (firstResult id rest) := by
  induction rest generalizing results with
  | nil => simp [resultsOf, firstResult]
  | cons message rest ih =>
    cases message with
    | assistant message => simp [resultsOf, firstResult]
    | toolResult message =>
      simp only [resultsOf, firstResult]
      rw [ih]
      cases hget : Assoc.get message.toolCallId results with
      | some held =>
        by_cases hid : message.toolCallId = id
        · subst hid
          simp [hget]
        · simp [hid]
      | none =>
        rw [isNone_none, if_pos rfl, Assoc.get_set]
        by_cases hid : message.toolCallId = id
        · subst hid
          simp [hget]
        · simp [hid]
    | system ref body => exact ih results
    | user body => exact ih results

theorem resultsAfter_eq (message : AssistantMessage ρ) (rest : List (Message ρ)) :
    resultsAfter message rest = message.calls.map fun call =>
      .toolResult ((firstResult call.id rest).getD (missingResult call message.timestamp)) := by
  simp [resultsAfter, get_resultsOf]

@[simp] theorem findLastAssistant_nil : findLastAssistant ([] : List (Message ρ)) = none := rfl

theorem findLastAssistant_append (a b : List (Message ρ)) :
    findLastAssistant (a ++ b) = (findLastAssistant b).or (findLastAssistant a) := by
  simp [findLastAssistant, findSome?_append]

theorem findLastAssistant_cons (message : Message ρ) (rest : List (Message ρ)) :
    findLastAssistant (message :: rest) = (findLastAssistant rest).or message.assistant? := by
  rw [← singleton_append, findLastAssistant_append]
  cases message <;> rfl

theorem firstResult_append (id : String) (a b : List (Message ρ)) :
    firstResult id (a ++ b) = (firstResult id a).or
      (if (findLastAssistant a).isSome then none else firstResult id b) := by
  induction a with
  | nil => simp [firstResult]
  | cons message a ih =>
    rw [cons_append, findLastAssistant_cons]
    cases message with
    | assistant message =>
      have hsome : ((findLastAssistant a).or
          (Message.assistant message).assistant?).isSome = true := by
        simp [Message.assistant?]
      simp [firstResult, hsome]
    | toolResult message =>
      simp only [firstResult, Message.assistant?, or_none]
      by_cases hid : message.toolCallId = id
      · simp [hid]
      · rw [if_neg hid, if_neg hid, ih]
    | system ref body | user body => simpa [firstResult, Message.assistant?] using ih

/-- No call of the last assistant before the split has a result behind it. -/
def Parts (a b : List (Message ρ)) : Prop :=
  ∀ message, findLastAssistant a = some message → ∀ call ∈ message.calls,
    firstResult call.id b = none

theorem Parts.of_assistant (a : List (Message ρ)) (message : AssistantMessage ρ)
    (rest : List (Message ρ)) : Parts a (.assistant message :: rest) :=
  fun _ _ _ _ => rfl

theorem Parts.resultsAfter {before rest b : List (Message ρ)} {message : AssistantMessage ρ}
    (h : Parts (before ++ .assistant message :: rest) b) :
    resultsAfter message (rest ++ b) = resultsAfter message rest := by
  rw [resultsAfter_eq, resultsAfter_eq]
  refine map_congr_left fun call hcall => ?_
  have hfirst : firstResult call.id (rest ++ b) = firstResult call.id rest := by
    rw [firstResult_append]
    cases hlast : findLastAssistant rest with
    | some later => simp
    | none =>
      have hself : findLastAssistant (before ++ .assistant message :: rest) = some message := by
        simp [findLastAssistant_append, findLastAssistant_cons, hlast, Message.assistant?]
      simp [h message hself call hcall]
  rw [hfirst]

theorem orderToolResults_append {a b : List (Message ρ)} (h : Parts a b) :
    orderToolResults (a ++ b) = orderToolResults a ++ orderToolResults b := by
  induction a with
  | nil => rfl
  | cons message a ih =>
    have hparts : Parts a b := fun last hlast =>
      h last (by rw [findLastAssistant_cons, hlast, some_or])
    cases message with
    | assistant message =>
      have hself : Parts ([] ++ .assistant message :: a) b := h
      have hafter : resultsAfter message (a ++ b) = resultsAfter message a := hself.resultsAfter
      simp [orderToolResults, hafter, ih hparts]
    | toolResult message | system ref body | user body => simpa [orderToolResults] using ih hparts

/-! ### The view of a range -/

/-- Per target, the newest edit of the entries. -/
def editsOf (entries : List (EntryRecord ρ)) : List (ℤ × ContextEdit ρ) :=
  (entries.flatMap (·.edits.getD [])).foldl (fun edits edit => Assoc.set edit.target edit edits) []

theorem get_editsOf (target : ℤ) (entries : List (EntryRecord ρ)) :
    Assoc.get target (editsOf entries) =
      ((entries.flatMap (·.edits.getD [])).filter (·.target = target)).getLast? := by
  have hfold : ∀ (edits : List (ContextEdit ρ)) (found : List (ℤ × ContextEdit ρ)),
      Assoc.get target (edits.foldl (fun edits edit => Assoc.set edit.target edit edits) found) =
        ((edits.filter (·.target = target)).getLast?).or (Assoc.get target found) := by
    intro edits
    induction edits with
    | nil => simp
    | cons edit edits ih =>
      intro found
      rw [foldl_cons, ih, Assoc.get_set]
      by_cases htarget : edit.target = target
      · cases hlast : (edits.filter (·.target = target)).getLast? with
        | none =>
          rw [getLast?_eq_none_iff] at hlast
          simp [htarget, hlast]
        | some last => simp [htarget, getLast?_cons, hlast]
      · simp [htarget]
  simp [editsOf, hfold]

variable {p : EntryRecord ρ → Bool}

theorem get_editsOf_filter {target : ℤ} {entries : List (EntryRecord ρ)}
    (h : ∀ entry ∈ entries, ∀ edit ∈ entry.edits.getD [], edit.target = target → p entry) :
    Assoc.get target (editsOf (entries.filter p)) = Assoc.get target (editsOf entries) := by
  rw [get_editsOf, get_editsOf]
  congr 1
  induction entries with
  | nil => rfl
  | cons entry entries ih =>
    have htail := ih fun other hother => h other (mem_cons_of_mem _ hother)
    rw [filter_cons]
    split_ifs with hp
    · rw [flatMap_cons, flatMap_cons, filter_append, filter_append, htail]
    · have hnone : (entry.edits.getD []).filter (·.target = target) = [] := by
        refine filter_eq_nil_iff.mpr fun edit hedit htarget => ?_
        exact hp (h entry mem_cons_self edit hedit (of_decide_eq_true htarget))
      rw [flatMap_cons, filter_append, hnone, htail, nil_append]

/-- One entry's model messages after its edit and excluded stop reasons. -/
def contribute (entry : EntryRecord ρ) (edit : Option (ContextEdit ρ)) : List (Message ρ) :=
  match edit with
  | some ⟨_, .omit⟩ => []
  | some ⟨_, .replace messages⟩ => messages.filter (·.isContributed)
  | none => (entry.model.getD []).filter (·.isContributed)

/-- The head marker followed by the range's non-head entries, or the whole range without one. -/
def selectActive (head : Option (HeadMarker ρ)) (range : List (EntryRecord ρ)) :
    List (EntryRecord ρ) :=
  match head with
  | none => range
  | some head => head.entry :: range.filter (·.head.isNone)

def lastAssistant (messages : List (Message ρ)) : Option ℕ :=
  (messages.reverse.findIdx? (·.isAssistant)).map (messages.length - 1 - ·)

/-- Move the ordered messages before the last assistant message of `opened` to `settled`. -/
def settle (settled opened : List (Message ρ)) : List (Message ρ) × List (Message ρ) :=
  match lastAssistant opened with
  | some (last + 1) =>
    (settled ++ orderToolResults (opened.take (last + 1)), opened.drop (last + 1))
  | _ => (settled, opened)

/-- `SystemEntry.is`. -/
def isSystemEntry (entry : EntryRecord ρ) : Bool :=
  entry.kind = "knightcode.system"

def EditAction.carriesSystem : EditAction ρ → Bool
  | .omit => false
  | .replace messages => messages.any (·.isSystem)

/-- Whether an entry's own messages, or the replacement messages of its edits, include a system
message. -/
def carriesSystemMessage (entry : EntryRecord ρ) : Bool :=
  (entry.model.getD []).any (·.isSystem) || (entry.edits.getD []).any (·.action.carriesSystem)

/-- The baseline among the entries, oldest first. -/
def findBaseline (head : Option (HeadMarker ρ)) : List (EntryRecord ρ) → Baseline ρ
  | [] => none
  | entry :: rest =>
    if head.any (fun head => entry.id ≤ head.entry.id) then findBaseline head rest
    else if isSystemEntry entry then some ((entry.model.getD []).find? (·.isSystem))
    else if head.isNone && carriesSystemMessage entry then some none
    else findBaseline head rest

/-- Move the first system message to the front when only user messages precede it, or when it is
the baseline's. -/
def leadWithSystem (messages : List (Message ρ)) (baseline : Baseline ρ) : List (Message ρ) :=
  match messages.findIdx? (·.isSystem) with
  | some (index + 1) =>
    match messages[index + 1]? with
    | none => messages
    | some system =>
      if !(baseline.getD none).any (·.sameSystem system) &&
          (messages.take (index + 1)).any (!·.isUser) then messages
      else system :: (messages.take (index + 1) ++ messages.drop (index + 2))
  | _ => messages

def deriveRange (bounds : ContextBounds ρ) (entries : List (EntryRecord ρ)) (current : Bool) :
    ContextRange ρ :=
  let edits := editsOf entries
  let active := selectActive bounds.head entries
  let contributions := active.map fun entry => contribute entry (Assoc.get entry.id edits)
  let parts := settle [] contributions.flatten
  let baseline := findBaseline bounds.head active
  { bounds := bounds
    entries := entries
    view := ⟨bounds.head.map (·.entry), active, contributions,
      leadWithSystem (parts.1 ++ orderToolResults parts.2) baseline⟩
    edited := Assoc.keys edits
    settled := parts.1
    opened := parts.2
    baseline := baseline
    current := current }

/-! ### Reading a conversation -/

/-- The entries visible from one conversation, oldest first. Edits are "overrides of earlier
visible entries". -/
structure Visible (ρ : Type) where
  conversationId : ℤ
  entries : List (EntryRecord ρ)
  increasing : entries.Pairwise (·.id < ·.id)
  earlier : ∀ entry ∈ entries, ∀ edit ∈ entry.edits.getD [], edit.target < entry.id

def EntryRecord.marker (entry : EntryRecord ρ) : Option (HeadMarker ρ) :=
  match h : entry.head with
  | none => none
  | some head => some ⟨entry, head, h⟩

namespace Visible

variable (t : Visible ρ)

def latestEntryId : Option ℤ := t.entries.getLast?.map (·.id)

/-- `session.latestHeadMarker`: the newest entry with a head at or below `tail`. -/
def latestHeadMarker (tail : ℤ) : Option (HeadMarker ρ) :=
  (t.entries.filter (fun entry => entry.id ≤ tail)).reverse.findSome? (·.marker)

def captureContextBounds (upTo : Option ℤ) : Except String (Option (ContextBounds ρ)) :=
  match upTo with
  | none => .ok (t.latestEntryId.map fun tail => ⟨t.latestHeadMarker tail, tail⟩)
  | some tail =>
    if t.entries.any (fun entry => entry.id = tail) then
      .ok (some ⟨t.latestHeadMarker tail, tail⟩)
    else .error s!"Entry {tail} is not visible from conversation {t.conversationId}"

/-- The visible range of the bounds: from the head marker's head, or transcript start, through
the tail. -/
def scanRange (bounds : ContextBounds ρ) : List (EntryRecord ρ) :=
  t.entries.filter fun entry =>
    (bounds.head.all fun head => decide (head.head ≤ entry.id)) && decide (entry.id ≤ bounds.tail)

def deriveContext (bounds : Option (ContextBounds ρ)) : ContextView ρ :=
  match bounds with
  | none => ⟨none, [], [], []⟩
  | some bounds => (deriveRange bounds (t.scanRange bounds) false).view

def readContext (upTo : Option ℤ) : Except String (ContextView ρ) :=
  (t.captureContextBounds upTo).map t.deriveContext

def newestEdit (id : ℤ) : Option (ContextEdit ρ) := Assoc.get id (editsOf t.entries)

variable {t}

theorem get_editsOf_range {id : ℤ} (h : ∀ entry ∈ t.entries, id < entry.id → p entry) :
    Assoc.get id (editsOf (t.entries.filter p)) = t.newestEdit id := by
  refine get_editsOf_filter fun entry hentry edit hedit htarget => ?_
  exact h entry hentry (htarget ▸ t.earlier entry hentry edit hedit)

end Visible

end KnightCode.Context
