import KnightCode.Session.Tree

/-!
# The projection of a session path

Of a path with compactions the newest stands first, then the entries it kept, then what came after
it. Context edits replace or omit what an entry contributes; the newest edit of an entry counts.
-/

namespace KnightCode.Session

open List Option

variable {ρ : Type}

/-! ### Entries of the context -/

def SessionEntry.isCompaction (entry : SessionEntry ρ) : Bool :=
  match entry.body with
  | .compaction _ => true
  | _ => false

def SessionEntry.isSystemMessage (entry : SessionEntry ρ) : Bool :=
  match entry.body with
  | .message message => message.role = .system
  | _ => false

def SessionEntry.firstKeptEntryId (entry : SessionEntry ρ) : Ident :=
  match entry.body with
  | .compaction compaction => compaction.firstKeptEntryId
  | _ => .undefined

def latestCompaction (path : Entries ρ) : Option (SessionEntry ρ) :=
  path.foldl (fun compaction entry => if entry.isCompaction then some entry else compaction) none

def keptEntries (firstKeptEntryId : Ident) (entries : Entries ρ) :
    Entries ρ :=
  (entries.dropWhile fun entry => entry.id ≠ firstKeptEntryId).filter fun entry =>
    !entry.isSystemMessage

def buildContextEntries (path : Entries ρ) : Entries ρ :=
  match latestCompaction path with
  | none => path
  | some compaction =>
    let compactionIdx := path.findIdx fun entry => entry.id = compaction.id
    compaction :: (keptEntries compaction.firstKeptEntryId (path.take compactionIdx) ++
      path.drop (compactionIdx + 1))

/-! ### Messages -/

section

variable (getTime : Text → Option ℤ)

def sessionEntryToContextMessages (entry : SessionEntry ρ) : List (AgentMessage ρ) :=
  match entry.body with
  | .message message =>
    match message.content, message.role with
    | .missing, .system => [{ message with content := .text [] }]
    | .missing, .user => [{ message with content := .blocks [] }]
    | .missing, .assistant => [{ message with content := .blocks [] }]
    | .missing, .toolResult => [{ message with content := .blocks [] }]
    | _, _ => [message]
  | .customMessage customType content display details =>
    let content := match content with
      | .missing => .blocks []
      | _ => content
    [⟨.custom, content, .custom customType display details, getTime entry.timestamp⟩]
  | .branchSummary fromId summary _ =>
    if summary = [] then []
    else [⟨.branchSummary, .missing, .branchSummary summary fromId, getTime entry.timestamp⟩]
  | .compaction compaction =>
    compaction.systemMessage.toList ++
      [⟨.compactionSummary, .missing,
        .compactionSummary compaction.summary compaction.tokensBefore, getTime entry.timestamp⟩]
  | _ => []

def AgentMessage.replaceContent (replacement : MessageContent ρ) (message : AgentMessage ρ) :
    AgentMessage ρ :=
  match message.role, replacement with
  | .assistant, .text text => { message with content := .blocks [.text text] }
  | .toolResult, .text text => { message with content := .blocks [.text text] }
  | .user, replacement => { message with content := replacement }
  | .assistant, replacement => { message with content := replacement }
  | .toolResult, replacement => { message with content := replacement }
  | .custom, replacement => { message with content := replacement }
  | _, _ => message

/-- `edit` is the replacement of the entry's latest edit: none omits the entry. -/
def projectContextEntry (entry : SessionEntry ρ) (edit : Option (Option (MessageContent ρ))) :
    List (AgentMessage ρ) :=
  match edit with
  | none => sessionEntryToContextMessages getTime entry
  | some none => []
  | some (some replacement) =>
    (sessionEntryToContextMessages getTime entry).map (AgentMessage.replaceContent replacement)

/-- The latest edit by its target. -/
abbrev ContextEdits (ρ : Type) := List (Ident × Option (MessageContent ρ))

def readEdit (edits : ContextEdits ρ) (entry : SessionEntry ρ) : ContextEdits ρ :=
  match entry.body with
  | .contextEdit targetId replacement => Assoc.set targetId replacement edits
  | _ => edits

def contextEdits (entries : Entries ρ) : ContextEdits ρ :=
  entries.foldl readEdit []

/-! ### The projection -/

structure ProjectedSessionEntry (ρ : Type) where
  sourceEntry : SessionEntry ρ
  messages : List (AgentMessage ρ)

abbrev Projected (ρ : Type) := List (ProjectedSessionEntry ρ)

/-- An older compaction among the entries contributes nothing. -/
def projectAt (edits : ContextEdits ρ) (index : ℕ) (entry : SessionEntry ρ) :
    ProjectedSessionEntry ρ :=
  ⟨entry, if entry.isCompaction ∧ 0 < index then []
    else projectContextEntry getTime entry (Assoc.get entry.id edits)⟩

structure ContextSettings where
  thinkingLevel : Text
  model : Option (Text × Text)

def readSettings (settings : ContextSettings) (entry : SessionEntry ρ) : ContextSettings :=
  match entry.body with
  | .thinkingLevelChange thinkingLevel => { settings with thinkingLevel := thinkingLevel }
  | .modelChange provider modelId => { settings with model := some (provider, modelId) }
  | .message message =>
    match message.role, message.fields with
    | .assistant, .assistant provider model _ => { settings with model := some (provider, model) }
    | _, _ => settings
  | _ => settings

def getSessionContextSettings (path : Entries ρ) : ContextSettings :=
  path.foldl readSettings ⟨ascii "off", none⟩

structure SessionProjection (ρ : Type) where
  entries : Projected ρ
  messages : List (AgentMessage ρ)
  settings : ContextSettings

def projectPath (path : Entries ρ) : SessionProjection ρ :=
  let contextEntries := buildContextEntries path
  let entries := contextEntries.mapIdx (projectAt getTime (contextEdits contextEntries))
  ⟨entries, entries.flatMap (·.messages), getSessionContextSettings path⟩

def buildSessionProjection (entries : Entries ρ) (leafId : LeafId) (fuel : ℕ) :
    Option (SessionProjection ρ) :=
  (buildSessionPath entries leafId fuel).map (projectPath getTime)

end

/-! ### Chains -/

def Chained (parentId : Ident) : Entries ρ → Prop
  | [] => True
  | entry :: entries => entry.parentId = parentId ∧ Chained entry.id entries

structure IsChain (parentId : Ident) (entries : Entries ρ) : Prop where
  chained : Chained parentId entries
  root : parentId.truthy = true → ∀ entry ∈ entries, entry.id ≠ parentId
  distinct : (entries.map (·.id)).Nodup
  truthy : ∀ entry ∈ entries, entry.id.truthy = true

section

variable {entries : Entries ρ} {parentId : Ident}

theorem get_index_of_distinct (hdistinct : (entries.map (·.id)).Nodup) {entry : SessionEntry ρ}
    (hmem : entry ∈ entries) : Assoc.get entry.id (buildEntryIndex entries) = some entry := by
  obtain ⟨found, hfound⟩ := isSome_iff_exists.mp (get_index_isSome hmem)
  obtain ⟨hin, hid⟩ := mem_of_get_index hfound
  rw [hfound, inj_on_of_nodup_map hdistinct hin hmem hid]

theorem chained_append {parentId : Ident} {front back : Entries ρ}
    {last : SessionEntry ρ} (h : Chained parentId (front ++ last :: back)) :
    last.parentId = ((front.getLast?).map (·.id)).getD parentId ∧ Chained last.id back := by
  induction front generalizing parentId with
  | nil => exact h
  | cons entry front ih =>
    obtain ⟨hparent, hback⟩ := ih h.2
    refine ⟨hparent.trans ?_, hback⟩
    rw [getLast?_cons]
    cases front.getLast? <;> rfl

theorem IsChain.walks (h : IsChain parentId entries) {front back : Entries ρ}
    {entry : SessionEntry ρ} (hsplit : entries = front ++ entry :: back) :
    Links.Walks (parentOf (buildEntryIndex entries)) entry (front ++ [entry]).reverse := by
  have hparent := (chained_append (hsplit ▸ h.chained)).1
  induction front using reverseRecOn generalizing entry back with
  | nil =>
    refine .last ?_
    rw [parentOf, hparent, lookup]
    by_cases htruthy : parentId.truthy = true
    · refine (if_pos htruthy).trans (eq_none_iff_forall_ne_some.mpr fun found hfound => ?_)
      obtain ⟨hmem, hid⟩ := mem_of_get_index hfound
      exact h.root htruthy found hmem hid
    · exact if_neg htruthy
  | append_singleton front parent ih =>
    have hmem : parent ∈ entries := by
      rw [hsplit]
      exact mem_append_left _ (mem_append_right _ (mem_singleton_self _))
    rw [getLast?_append, getLast?_singleton, some_or, map_some,
      getD_some] at hparent
    have hsplit' : entries = front ++ parent :: (entry :: back) := by
      rw [hsplit, append_assoc]
      rfl
    rw [reverse_append]
    refine .cons ?_ (ih hsplit' (chained_append (hsplit' ▸ h.chained)).1)
    rw [parentOf, hparent, lookup, if_pos (h.truthy parent hmem)]
    exact get_index_of_distinct h.distinct hmem

theorem IsChain.pathTo (h : IsChain parentId entries) {fuel : ℕ} (hfuel : entries.length ≤ fuel) :
    pathTo (buildEntryIndex entries) fuel entries.getLast? = some entries := by
  cases entries using reverseRecOn with
  | nil => rfl
  | append_singleton front last =>
    have hwalks := @IsChain.walks _ _ _ h front [] last rfl
    rw [getLast?_append, getLast?_singleton, some_or, Session.pathTo,
      hwalks.walk (by rwa [length_reverse])]
    exact congrArg some (reverse_reverse _)

theorem IsChain.buildSessionPath (h : IsChain parentId entries) {fuel : ℕ}
    (hfuel : entries.length ≤ fuel) :
    buildSessionPath entries .undefined fuel = some entries :=
  h.pathTo hfuel

end

/-! ### The newest compaction -/

/-- What stands before the newest compaction, the compaction, and what stands behind it. -/
def splitLatest : Entries ρ →
    Option (Entries ρ × SessionEntry ρ × Entries ρ)
  | [] => none
  | entry :: entries =>
    match splitLatest entries with
    | some (front, compaction, back) => some (entry :: front, compaction, back)
    | none => if entry.isCompaction then some ([], entry, entries) else none

section

variable {path front back : Entries ρ} {compaction : SessionEntry ρ}

theorem splitLatest_eq_none :
    splitLatest path = none ↔ ∀ entry ∈ path, entry.isCompaction = false := by
  induction path with
  | nil => exact ⟨fun _ _ hmem => (by cases hmem), fun _ => rfl⟩
  | cons entry path ih =>
    rw [splitLatest, forall_mem_cons, ← ih]
    cases splitLatest path with
    | some split => exact ⟨fun h => (by cases h), fun h => (by cases h.2)⟩
    | none =>
      cases hentry : entry.isCompaction with
      | true => exact ⟨fun h => (by cases h), fun h => (by cases h.1)⟩
      | false => exact ⟨fun _ => ⟨rfl, rfl⟩, fun _ => rfl⟩

theorem splitLatest_eq_some (h : splitLatest path = some (front, compaction, back)) :
    path = front ++ compaction :: back ∧ compaction.isCompaction = true ∧
      ∀ entry ∈ back, entry.isCompaction = false := by
  induction path generalizing front with
  | nil => cases h
  | cons entry path ih =>
    rw [splitLatest] at h
    cases hsplit : splitLatest path with
    | some split =>
      obtain ⟨front', compaction', back'⟩ := split
      rw [hsplit] at h
      cases h
      obtain ⟨rfl, hcompaction, hback⟩ := ih hsplit
      exact ⟨rfl, hcompaction, hback⟩
    | none =>
      rw [hsplit] at h
      dsimp only at h
      split_ifs at h with hentry
      cases h
      exact ⟨rfl, hentry, splitLatest_eq_none.mp hsplit⟩

theorem latestCompaction_eq (path : Entries ρ) :
    latestCompaction path = (splitLatest path).map (·.2.1) := by
  have hfold : ∀ (path : Entries ρ) found,
      path.foldl (fun compaction entry => if entry.isCompaction then some entry else compaction)
        found = ((splitLatest path).map (·.2.1)).or found := by
    intro path
    induction path with
    | nil => exact fun found => rfl
    | cons entry path ih =>
      intro found
      rw [foldl_cons, ih, splitLatest]
      cases splitLatest path with
      | some split => rfl
      | none => cases entry.isCompaction <;> rfl
  rw [latestCompaction, hfold, or_none]

theorem buildContextEntries_of_none (h : splitLatest path = none) :
    buildContextEntries path = path := by
  rw [buildContextEntries, latestCompaction_eq, h]
  rfl

theorem buildContextEntries_of_split (hdistinct : (path.map (·.id)).Nodup)
    (h : splitLatest path = some (front, compaction, back)) :
    buildContextEntries path =
      compaction :: (keptEntries compaction.firstKeptEntryId front ++ back) := by
  obtain ⟨rfl, -, -⟩ := splitLatest_eq_some h
  have hidx : (front ++ compaction :: back).findIdx
      (fun entry => decide (entry.id = compaction.id)) = front.length := by
    rw [findIdx_append, findIdx_cons, decide_eq_true rfl, if_neg]
    · exact zero_add _
    · rw [findIdx_lt_length]
      rintro ⟨entry, hmem, hid⟩
      rw [map_append, map_cons, nodup_append] at hdistinct
      exact hdistinct.2.2 entry.id (mem_map_of_mem hmem) compaction.id mem_cons_self
        (of_decide_eq_true hid)
  rw [buildContextEntries, latestCompaction_eq, h]
  dsimp only [map_some]
  rw [hidx, take_left' rfl, ← drop_drop, drop_left' rfl]
  rfl

end

/-! ### What a path contributes -/

section

variable (getTime : Text → Option ℤ)

/-- What an entry behind the first one of the context contributes. -/
def laterMessages (edits : ContextEdits ρ) (entry : SessionEntry ρ) : List (AgentMessage ρ) :=
  if entry.isCompaction then []
  else projectContextEntry getTime entry (Assoc.get entry.id edits)

theorem flatMap_mapIdx_later (edits : ContextEdits ρ) (entries : Entries ρ) (n : ℕ) :
    ((entries.mapIdx fun index => projectAt getTime edits (index + (n + 1))).flatMap (·.messages)) =
      entries.flatMap (laterMessages getTime edits) := by
  induction entries generalizing n with
  | nil => rfl
  | cons entry entries ih =>
    rw [mapIdx_cons, flatMap_cons, flatMap_cons, laterMessages, projectAt]
    refine congrArg₂ _ ?_ ?_
    · by_cases hcompaction : entry.isCompaction = true
      · rw [if_pos hcompaction, if_pos ⟨hcompaction, by omega⟩]
      · rw [if_neg hcompaction, if_neg fun h => hcompaction h.1]
    · have hnext := ih (n + 1)
      rw [← hnext]
      refine congrArg (flatMap _) (congrArg (mapIdx · entries) ?_)
      funext index
      rw [show index + 1 + (n + 1) = index + (n + 1 + 1) by omega]

theorem flatMap_projectAt (edits : ContextEdits ρ) (first : SessionEntry ρ)
    (rest : Entries ρ) :
    ((first :: rest).mapIdx (projectAt getTime edits)).flatMap (·.messages) =
      projectContextEntry getTime first (Assoc.get first.id edits) ++
        rest.flatMap (laterMessages getTime edits) := by
  rw [mapIdx_cons, flatMap_cons]
  refine congrArg₂ _ ?_ (flatMap_mapIdx_later getTime edits rest 0)
  exact if_neg fun h => lt_irrefl 0 h.2

end

def SessionEntry.isContextEdit (entry : SessionEntry ρ) : Bool :=
  match entry.body with
  | .contextEdit _ _ => true
  | _ => false

/-! ### What an entry contributes does not depend on its place -/

def Body.keepFrom (id : Ident) : Body ρ → Body ρ
  | .compaction c => .compaction { c with firstKeptEntryId := id, firstKeptEntryIndex := none }
  | body => body

/-- An entry without its place in the tree and what it names there. -/
def SessionEntry.core (entry : SessionEntry ρ) : SessionEntry ρ :=
  { entry with
    id := .undefined
    parentId := .undefined
    body := entry.body.keepFrom .undefined }

variable (entry : SessionEntry ρ)

theorem core_isCompaction : entry.core.isCompaction = entry.isCompaction := by
  obtain ⟨_, _, _, body⟩ := entry
  cases body <;> rfl

theorem core_isSystemMessage : entry.core.isSystemMessage = entry.isSystemMessage := by
  obtain ⟨_, _, _, body⟩ := entry
  cases body <;> rfl

theorem core_messages (getTime : Text → Option ℤ) (entry : SessionEntry ρ) :
    sessionEntryToContextMessages getTime entry.core = sessionEntryToContextMessages getTime entry := by
  obtain ⟨_, _, _, body⟩ := entry
  cases body <;> rfl

theorem core_settings (settings : ContextSettings) (entry : SessionEntry ρ) :
    readSettings settings entry.core = readSettings settings entry := by
  obtain ⟨_, _, _, body⟩ := entry
  cases body <;> rfl

theorem core_isContextEdit : entry.core.isContextEdit = entry.isContextEdit := by
  obtain ⟨_, _, _, body⟩ := entry
  cases body <;> rfl

theorem contextEdits_eq_nil {entries : Entries ρ}
    (h : ∀ entry ∈ entries, entry.isContextEdit = false) : contextEdits entries = [] := by
  induction entries using reverseRecOn with
  | nil => rfl
  | append_singleton entries entry ih =>
    rw [contextEdits, foldl_append]
    have hnone := ih fun other hmem => h other (mem_append_left _ hmem)
    rw [contextEdits] at hnone
    rw [hnone]
    have hentry := h entry (mem_append_right _ (mem_singleton_self _))
    obtain ⟨_, _, _, body⟩ := entry
    cases body with
    | contextEdit targetId replacement => cases hentry
    | _ => rfl

end KnightCode.Session
