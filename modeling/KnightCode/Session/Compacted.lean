import KnightCode.Session.CompactionRuns

/-!
# Compaction loses nothing

What a preparation summarizes, the summary before it and what it keeps make up the conversation; and
the session that appended the compaction goes on with the new checkpoint and what was kept.
-/

namespace KnightCode.Session

open List Option

variable {ρ : Type}

/-- System messages of compactions are system messages. -/
def SystemCheckpoints (path : Entries ρ) : Prop :=
  ∀ entry ∈ path, ∀ compaction message, entry.body = .compaction compaction →
    compaction.systemMessage = some message → message.role = .system

/-- What the summary of an earlier compaction contributes, if there is one. -/
def IsPreviousSummary (messages : List (AgentMessage ρ)) : Option Text → Prop
  | none => messages = []
  | some summary => ∃ tokensBefore timestamp,
      messages = [⟨.compactionSummary, .missing, .compactionSummary summary tokensBefore, timestamp⟩]

def SessionProjection.edits (projection : SessionProjection ρ) : ContextEdits ρ :=
  contextEdits (projection.entries.map (·.sourceEntry))

def nonSystem (messages : List (AgentMessage ρ)) : List (AgentMessage ρ) :=
  messages.filter fun message => message.role ≠ .system

/-! ### The conversation of a projection -/

section

variable {getTime : Text → Option ℤ} {path : Entries ρ}
variable {entry : ProjectedSessionEntry ρ}

theorem sourceEntries_mapIdx (edits : ContextEdits ρ) (entries : Entries ρ) :
    (entries.mapIdx (projectAt getTime edits)).map (·.sourceEntry) = entries := by
  refine ext_getElem? fun index => ?_
  rw [getElem?_map, getElem?_mapIdx, Option.map_map]
  exact Option.map_id'

theorem sourceEntries_projectPath (path : Entries ρ) :
    (projectPath getTime path).entries.map (·.sourceEntry) = buildContextEntries path :=
  sourceEntries_mapIdx _ _

theorem conversation_projectPath (h : entry ∈ (projectPath getTime path).entries) :
    entry.conversation =
      conversationOf getTime (contextEdits (buildContextEntries path)) entry.sourceEntry := by
  obtain ⟨index, hindex, rfl⟩ := mem_mapIdx.mp h
  exact projectAt_conversation getTime _ index _

theorem nonSystem_of_silent (h : entry.isCompaction = true → entry.messages = []) :
    nonSystem entry.messages = entry.conversation := by
  rw [ProjectedSessionEntry.conversation]
  by_cases hcompaction : entry.isCompaction = true
  · rw [if_pos hcompaction, h hcompaction]
    rfl
  · rw [if_neg hcompaction]
    rfl

theorem nonSystem_flatMap {entries : Projected ρ}
    (h : ∀ entry ∈ entries, entry.isCompaction = true → entry.messages = []) :
    nonSystem (entries.flatMap (·.messages)) = entries.flatMap (·.conversation) := by
  rw [nonSystem, filter_flatMap]
  exact flatMap_congr fun entry hmem => nonSystem_of_silent (h entry hmem)

variable {first : ProjectedSessionEntry ρ}

theorem silent_tail {rest : Projected ρ}
    (h : (projectPath getTime path).entries = first :: rest) (hmem : entry ∈ rest)
    (hcompaction : entry.isCompaction = true) : entry.messages = [] := by
  obtain ⟨index, hindex, hget⟩ := mem_iff_getElem.mp hmem
  have hat : (projectPath getTime path).entries[index + 1]? = some entry := by
    rw [h, getElem?_cons_succ, getElem?_eq_getElem hindex, hget]
  rw [projectPath] at hat
  dsimp only at hat
  rw [getElem?_mapIdx] at hat
  obtain ⟨source, -, rfl⟩ := map_eq_some_iff.mp hat
  exact if_pos ⟨hcompaction, Nat.succ_pos _⟩

theorem replaceContent_of_role {message : AgentMessage ρ}
    (h : message.role = .system ∨ message.role = .compactionSummary)
    (replacement : MessageContent ρ) : message.replaceContent replacement = message := by
  obtain ⟨role, content, fields, time⟩ := message
  rcases h with rfl | rfl <;> cases replacement <;> rfl

theorem summary_of_first {compaction : SessionEntry ρ} (hcompaction : compaction.isCompaction = true)
    (hsystem : ∀ c message, compaction.body = .compaction c → c.systemMessage = some message →
      message.role = .system) {edits : ContextEdits ρ}
    (hmessages : (projectAt getTime edits 0 compaction).messages ≠ []) :
    IsPreviousSummary (nonSystem (projectAt getTime edits 0 compaction).messages)
      compaction.summary := by
  have hproject : (projectAt getTime edits 0 compaction).messages =
      projectContextEntry getTime compaction (Assoc.get compaction.id edits) :=
    if_neg fun h => Nat.lt_irrefl 0 h.2
  rw [hproject] at hmessages ⊢
  obtain ⟨id, parentId, timestamp, body⟩ := compaction
  cases body with
  | compaction c =>
    have hown : nonSystem (sessionEntryToContextMessages getTime
        ⟨id, parentId, timestamp, .compaction c⟩) = [⟨.compactionSummary, .missing,
          .compactionSummary c.summary c.tokensBefore, getTime timestamp⟩] := by
      rw [sessionEntryToContextMessages]
      dsimp only
      rw [nonSystem, filter_append]
      cases hmessage : c.systemMessage with
      | none => rfl
      | some message =>
        rw [toList_some, filter_cons, if_neg]
        · rfl
        · rw [hsystem c message rfl hmessage]
          exact Bool.false_ne_true
    have hrole : ∀ message ∈ sessionEntryToContextMessages getTime
        (⟨id, parentId, timestamp, .compaction c⟩ : SessionEntry ρ),
        message.role = .system ∨ message.role = .compactionSummary := by
      intro message hmem
      rcases mem_append.mp hmem with hmem | hmem
      · exact .inl (hsystem c message rfl (mem_toList.mp hmem))
      · rw [mem_singleton.mp hmem]
        exact .inr rfl
    unfold projectContextEntry at hmessages ⊢
    cases hedit : Assoc.get id edits with
    | none =>
      dsimp only
      rw [hown]
      exact ⟨_, _, rfl⟩
    | some edit =>
      rw [hedit] at hmessages
      cases edit with
      | none => exact absurd rfl hmessages
      | some replacement =>
        dsimp only
        rw [map_congr_left fun message hmem =>
          replaceContent_of_role (hrole message hmem) replacement, List.map_id', hown]
        exact ⟨_, _, rfl⟩
  | _ => cases hcompaction

theorem conversation_cut (hdistinct : (path.map (·.id)).Nodup) (hsystem : SystemCheckpoints path)
    {preparation : CompactionPreparation ρ} {done rest : Projected ρ}
    (h : Cuts (projectPath getTime path).entries preparation done first rest) :
    ∃ previous, IsPreviousSummary previous preparation.previousSummary ∧
      nonSystem (projectPath getTime path).messages =
        previous ++ (preparation.messagesToSummarize ++ preparation.turnPrefixMessages) ++
          (first :: rest).flatMap (·.conversation) := by
  have hmessages : (projectPath getTime path).messages =
      (projectPath getTime path).entries.flatMap (·.messages) := rfl
  have hstart := h.start
  have hsummarized := h.summarized
  have hprevious := h.previousSummary
  have hsplit := h.split
  rw [hmessages, ← hsummarized, hprevious]
  cases hentries : (projectPath getTime path).entries with
  | nil =>
    rw [hentries] at hsplit
    exact absurd hsplit.symm (append_ne_nil_of_right_ne_nil _ (cons_ne_nil _ _))
  | cons newest others =>
    rw [hentries] at hstart hsummarized hprevious hsplit
    have hsilent : ∀ entry ∈ others, entry.isCompaction = true → entry.messages = [] :=
      fun entry hmem => silent_tail hentries hmem
    have hnone : others.findIdx? (fun entry => entry.isCompaction && !entry.messages.isEmpty) =
        none := by
      rw [findIdx?_eq_none_iff]
      intro entry hmem
      cases hcompaction : entry.isCompaction with
      | false => rfl
      | true =>
        rw [hsilent entry hmem hcompaction]
        rfl
    have hindex : prevCompactionIndex (newest :: others) =
        if (newest.isCompaction && !newest.messages.isEmpty) = true then some 0 else none := by
      rw [prevCompactionIndex, findIdx?_cons, hnone]
      rfl
    by_cases hcontributes : (newest.isCompaction && !newest.messages.isEmpty) = true
    · rw [if_pos hcontributes] at hindex
      have hboundary : boundaryStart (newest :: others) = 1 := by
        rw [boundaryStart, hindex]
        rfl
      have hsummary : previousSummary (newest :: others) = newest.sourceEntry.summary := by
        rw [previousSummary, hindex]
        rfl
      rw [hboundary] at hstart ⊢
      rw [hsummary]
      cases done with
      | nil => cases hstart
      | cons newest' done =>
        obtain ⟨rfl, rfl⟩ := cons.inj hsplit
        refine ⟨nonSystem newest.messages, ?_, ?_⟩
        · obtain ⟨hcompaction, hmessages⟩ := Bool.and_eq_true_iff.mp hcontributes
          have hfirst : (projectPath getTime path).entries[0]? = some newest := by
            rw [hentries]
            rfl
          rw [projectPath] at hfirst
          dsimp only at hfirst
          rw [getElem?_mapIdx] at hfirst
          obtain ⟨source, hsource, rfl⟩ := map_eq_some_iff.mp hfirst
          have hmem := mem_buildContextEntries hdistinct (mem_of_getElem? hsource)
          refine summary_of_first hcompaction (fun c message => hsystem source hmem c message) ?_
          intro hnil
          have hempty : (projectAt getTime (contextEdits (buildContextEntries path)) 0
            source).messages = [] := hnil
          rw [hempty] at hmessages
          cases hmessages
        · rw [flatMap_cons, nonSystem, filter_append, append_assoc]
          refine congrArg _ ((nonSystem_flatMap hsilent).trans ?_)
          exact flatMap_append
    · rw [if_neg hcontributes] at hindex
      have hboundary : boundaryStart (newest :: others) = 0 := by
        rw [boundaryStart, hindex]
        rfl
      have hsummary : previousSummary (newest :: others) = none := by
        rw [previousSummary, hindex]
        rfl
      rw [hboundary, hsummary]
      refine ⟨[], rfl, ?_⟩
      rw [nil_append, drop_zero, ← flatMap_append, ← hsplit]
      refine nonSystem_flatMap fun entry hmem hcompaction => ?_
      rcases mem_cons.mp hmem with rfl | hmem
      · rw [hcompaction, Bool.true_and] at hcontributes
        cases hempty : entry.messages with
        | nil => rfl
        | cons message messages =>
          rw [hempty] at hcontributes
          exact absurd rfl hcontributes
      · exact hsilent entry hmem hcompaction

end

/-! ### The session that appended the compaction -/

section

variable {getTime : Text → Option ℤ} {estimateTokens : AgentMessage ρ → ℕ}
  {path : Entries ρ} {m : SessionManager ρ}
variable {fuel : ℕ}

theorem pathTo_unique {index : EntryIndex ρ} {fuel' : ℕ} {leaf : Option (SessionEntry ρ)}
    {path' : Entries ρ} (h : pathTo index fuel leaf = some path)
    (h' : pathTo index fuel' leaf = some path') : path' = path := by
  cases leaf with
  | none =>
    cases h
    cases h'
    rfl
  | some leaf =>
    obtain ⟨way, hway, rfl⟩ := map_eq_some_iff.mp h
    obtain ⟨way', hway', rfl⟩ := map_eq_some_iff.mp h'
    rw [(Links.walks_of_walk hway).unique (Links.walks_of_walk hway')]

theorem prepareProjection_of_prepareCompaction {parentId : Ident} (hchain : IsChain parentId path)
    {keepRecentTokens : ℤ} {preparation : CompactionPreparation ρ}
    (h : prepareCompaction estimateTokens getTime path keepRecentTokens fuel =
      some (some preparation)) :
    prepareProjection estimateTokens getTime (projectPath getTime path).entries keepRecentTokens =
      some preparation := by
  rw [prepareCompaction] at h
  split_ifs at h
  · cases h
  · obtain ⟨projection, hprojection, hprepare⟩ := map_eq_some_iff.mp h
    obtain ⟨path', hpath', rfl⟩ := map_eq_some_iff.mp hprojection
    have hsame : path' = path := pathTo_unique (hchain.pathTo le_rfl) hpath'
    rw [← hsame]
    exact hprepare

def compactionOf {τ : Type} (systemFields : AgentMessage ρ → SystemFields τ)
    (withFields : SystemFields τ → MessageFields ρ) (getTime : Text → Option ℤ)
    (m : SessionManager ρ) (path : Entries ρ) (randomUUID : ℕ → Uuid)
    (timestamp summary : Text) (firstKeptEntryId : Ident) (tokensBefore : ℤ) (rest : ρ) :
    SessionEntry ρ :=
  ⟨m.nextId randomUUID, m.leafId, timestamp, .compaction
    ⟨summary, firstKeptEntryId, none, tokensBefore,
      (getCurrentSystemMessage systemFields withFields (projectPath getTime path).messages).map
        fun message => { message with timestamp := getTime timestamp }, rest⟩⟩

theorem projection_of_path (hpath : pathTo m.byId fuel (lookup m.byId m.leafId) = some path)
    (hnonempty : path ≠ []) : m.projection getTime fuel = some (projectPath getTime path) := by
  cases hleaf : lookup m.byId m.leafId with
  | none =>
    rw [hleaf] at hpath
    cases hpath
    exact absurd rfl hnonempty
  | some leaf =>
    have htruthy : m.leafId.truthy = true := by
      rw [lookup] at hleaf
      split_ifs at hleaf with htruthy
      exact htruthy
    rw [SessionManager.projection, LeafId.ofIdent_of_truthy htruthy, LeafId.entry, hleaf,
      some_or, ← hleaf, hpath]
    rfl

theorem appendCompaction_eq {τ : Type} (systemFields : AgentMessage ρ → SystemFields τ)
    (withFields : SystemFields τ → MessageFields ρ)
    (hpath : pathTo m.byId fuel (lookup m.byId m.leafId) = some path) (hnonempty : path ≠ [])
    (randomUUID : ℕ → Uuid) (timestamp summary : Text) (firstKeptEntryId : Ident) (tokensBefore : ℤ)
    (rest : ρ) (written : Bool) :
    m.appendCompaction systemFields withFields getTime randomUUID timestamp summary
        (some firstKeptEntryId) tokensBefore rest written fuel =
      some (m.appendEntry (compactionOf systemFields withFields getTime m path randomUUID timestamp
        summary firstKeptEntryId tokensBefore rest) written) := by
  rw [SessionManager.appendCompaction, projection_of_path hpath hnonempty]
  rfl

theorem projection_appended {added : SessionEntry ρ}
    (hpath : pathTo m.byId fuel (lookup m.byId m.leafId) = some path) (hnonempty : path ≠ [])
    (hparentId : added.parentId = m.leafId) (htruthy : added.id.truthy = true)
    (hnew : Assoc.get added.id m.byId = none) (hparent : ∀ entry ∈ path, entry.parentId ≠ added.id)
    {fuel' : ℕ} (hfuel : path.length + 1 ≤ fuel') :
    (m.appendEntry added true).projection getTime fuel' =
      some (projectPath getTime (path ++ [added])) := by
  have hne : m.leafId ≠ added.id := by
    intro heq
    rw [heq, lookup, if_pos htruthy, hnew] at hpath
    cases hpath
    exact hnonempty rfl
  have hlookup : lookup (m.appendEntry added true).byId (m.appendEntry added true).leafId =
      some added := by
    change lookup (Assoc.set added.id added m.byId) added.id = some added
    rw [lookup, if_pos htruthy, Assoc.get_set_self]
  refine projection_of_path ?_ (append_ne_nil_of_right_ne_nil _ (cons_ne_nil _ _))
  rw [hlookup]
  exact pathTo_appended hpath hnonempty hparentId hne hparent hfuel

theorem map_split {entries done rest : Projected ρ}
    {first : ProjectedSessionEntry ρ} (h : entries = done ++ first :: rest) :
    entries.map (·.sourceEntry) =
      done.map (·.sourceEntry) ++ first.sourceEntry :: rest.map (·.sourceEntry) := by
  rw [h, map_append, map_cons]

/-- Compaction loses nothing. The conversation is the previous summary, what a preparation
summarizes, and what the entries from the first one kept on contribute; the session that appends the
compaction goes on with the current system message, the summary and those same messages, each of
those entries with the edit it had. -/
theorem compaction_keeps {τ : Type} (systemFields : AgentMessage ρ → SystemFields τ)
    (withFields : SystemFields τ → MessageFields ρ) (hm : (managerSystem ρ).Reachable m) {fuel : ℕ}
    (hpath : pathTo m.byId fuel (lookup m.byId m.leafId) = some path) (hedits : EditsBehind path)
    (hsystem : SystemCheckpoints path) {keepRecentTokens : ℤ} {fuel' : ℕ}
    {preparation : CompactionPreparation ρ}
    (hprepare : prepareCompaction estimateTokens getTime path keepRecentTokens fuel' =
      some (some preparation)) {randomUUID : ℕ → Uuid}
    (hnew : NewDraws randomUUID 0 101 (Assoc.keys m.byId))
    (hparent : ∀ entry ∈ path, entry.parentId ≠ m.nextId randomUUID) :
    ∃ done first rest previous,
      (projectPath getTime path).entries = done ++ first :: rest ∧
      first.sourceEntry.id = preparation.firstKeptEntryId ∧
      IsPreviousSummary previous preparation.previousSummary ∧
      nonSystem (projectPath getTime path).messages =
        previous ++ (preparation.messagesToSummarize ++ preparation.turnPrefixMessages) ++
          (first :: rest).flatMap (·.conversation) ∧
      ∀ timestamp summary tokensBefore details fuel'', path.length + 1 ≤ fuel'' →
        ∃ m' projection,
          m.appendCompaction systemFields withFields getTime randomUUID timestamp summary
            (some preparation.firstKeptEntryId) tokensBefore details true fuel = some m' ∧
          m'.projection getTime fuel'' = some projection ∧
          projection.messages =
            ((getCurrentSystemMessage systemFields withFields
              (projectPath getTime path).messages).map
                fun message => { message with timestamp := getTime timestamp }).toList ++
              [⟨.compactionSummary, .missing, .compactionSummary summary tokensBefore,
                getTime timestamp⟩] ++ (first :: rest).flatMap (·.conversation) ∧
          ∀ entry ∈ first :: rest, Assoc.get entry.sourceEntry.id projection.edits =
            Assoc.get entry.sourceEntry.id (projectPath getTime path).edits := by
  have hindexed := indexed_of_reachable hm
  have hwalked := hpath
  rw [hindexed.byId] at hwalked
  obtain ⟨parentId, hchain⟩ := isChain_of_pathTo hwalked
  have hprepared := prepareProjection_of_prepareCompaction hchain hprepare
  obtain ⟨-, first, rest, hcuts⟩ := prepareProjection_cuts hprepared
  obtain ⟨previous, hprevious, hconversation⟩ := conversation_cut hchain.distinct hsystem hcuts
  refine ⟨_, first, rest, previous, hcuts.split, hcuts.id, hprevious, hconversation, ?_⟩
  intro timestamp summary tokensBefore details fuel'' hfuel
  have hsources := @sourceEntries_projectPath _ getTime path
  rw [map_split hcuts.split] at hsources
  obtain ⟨front, back, hlies⟩ := exists_lies hchain.distinct hsources.symm hcuts.plain
  have hnonempty : path ≠ [] := by
    rw [hlies.split]
    exact append_ne_nil_of_right_ne_nil _ (cons_ne_nil _ _)
  obtain ⟨htruthy, hfresh⟩ := SessionManager.nextId_new hnew
  generalize hadded : compactionOf systemFields withFields getTime m path randomUUID timestamp
    summary preparation.firstKeptEntryId tokensBefore details = added
  have haddedId : added.id = m.nextId randomUUID := by rw [← hadded]; rfl
  have hcompaction : added.isCompaction = true := by rw [← hadded]; rfl
  have hfirst : added.firstKeptEntryId = first.sourceEntry.id := by
    rw [← hadded, hcuts.id]
    rfl
  have hdistinct : ((path ++ [added]).map (·.id)).Nodup := by
    rw [map_append, nodup_append]
    refine ⟨hchain.distinct, nodup_singleton _, fun id hid other hother heq => ?_⟩
    obtain ⟨entry, hmem, rfl⟩ := mem_map.mp hid
    have hget := ((found_of_pathTo hwalked).1 entry hmem).2
    rw [heq, mem_singleton.mp hother, ← hindexed.byId] at hget
    change Assoc.get added.id m.byId = some entry at hget
    rw [haddedId, hfresh] at hget
    cases hget
  refine ⟨m.appendEntry added true, projectPath getTime (path ++ [added]), ?_, ?_, ?_, ?_⟩
  · rw [← hadded]
    exact appendCompaction_eq systemFields withFields hpath hnonempty ..
  · refine projection_appended hpath hnonempty ?_ ?_ ?_ ?_ hfuel
    · rw [← hadded]
      rfl
    · rw [haddedId]
      exact htruthy
    · rw [haddedId]
      exact hfresh
    · rw [haddedId]
      exact hparent
  · have hkept : (first :: rest).flatMap (·.conversation) =
        (first.sourceEntry :: rest.map (·.sourceEntry)).flatMap
          (conversationOf getTime (contextEdits (buildContextEntries path))) := by
      rw [← map_cons, flatMap_map]
      refine flatMap_congr fun entry hmem => conversation_projectPath ?_
      rw [hcuts.split]
      exact mem_append_right _ hmem
    rw [messages_compacted hdistinct hedits hcompaction hfirst hlies, hkept, hsources, ← hadded]
    rfl
  · intro entry hmem
    have hsource : entry.sourceEntry ∈ first.sourceEntry :: rest.map (·.sourceEntry) := by
      rw [← map_cons]
      exact mem_map_of_mem hmem
    rw [SessionProjection.edits, SessionProjection.edits, sourceEntries_projectPath,
      sourceEntries_projectPath, buildContextEntries_compacted hdistinct hcompaction hfirst hlies,
      contextEdits_compacted hcompaction hlies, ← hsources]
    exact get_edits_compacted hchain.distinct hedits hlies hsource

end

def exchangeMessage (role : Role) (text : Text) : AgentMessage Unit :=
  ⟨role, .text text, .other (), none⟩

/-- An exchange, a compaction with the system message there was, an edit of the answer it kept, and
another exchange. -/
def exchangeEntries : Entries Unit :=
  [⟨.string [97], .null, [], .message (exchangeMessage .user [104])⟩,
    ⟨.string [98], .string [97], [], .message (exchangeMessage .assistant [105])⟩,
    ⟨.string [99], .string [98], [], .compaction
      ⟨[115], .string [98], none, 2,
        some { exchangeMessage .system [110] with timestamp := some 5 }, ()⟩⟩,
    ⟨.string [100], .string [99], [], .contextEdit (.string [98]) (some (.text [107]))⟩,
    ⟨.string [101], .string [100], [], .message (exchangeMessage .user [106])⟩,
    ⟨.string [102], .string [101], [], .message (exchangeMessage .assistant [105])⟩]

def editedAnswer : AgentMessage Unit :=
  { exchangeMessage .assistant [] with content := .blocks [.text [107]] }

def exchangeSession : SessionManager Unit :=
  { labelledSession with
    fileEntries := .session ⟨some 3, [49], [], [47], none⟩ ::
      exchangeEntries.map FileEntry.entry }.buildIndex

theorem exchangeEntries_editsBehind : EditsBehind exchangeEntries := by
  have hnone : EditsBehind ([] : Entries Unit) := by
    intro front entry back hsplit
    cases (append_eq_nil_iff.mp hsplit.symm).2
  refine (((((hnone.append ?_).append ?_).append ?_).append ?_).append ?_).append ?_
  all_goals rintro targetId replacement ⟨⟩
  exact ⟨_, mem_cons_of_mem _ mem_cons_self, rfl⟩

/-- With a budget for the last two messages what the compaction kept is summarized. -/
theorem compaction_keeps_exchange :
    ∃ done first rest previous,
      (projectPath (fun _ => none) exchangeEntries).entries = done ++ first :: rest ∧
      first.sourceEntry.id = .string [100] ∧ IsPreviousSummary previous (some [115]) ∧
      nonSystem (projectPath (fun _ => none) exchangeEntries).messages =
        previous ++ ([editedAnswer] ++ []) ++
          (first :: rest).flatMap (·.conversation) ∧
      ∃ (m : SessionManager Unit) (projection : SessionProjection Unit),
        m.projection (fun _ => none) 7 = some projection ∧
        projection.messages = [exchangeMessage .system [110]] ++
          [⟨.compactionSummary, .missing, .compactionSummary [116] 3, none⟩] ++
            (first :: rest).flatMap (·.conversation) := by
  obtain ⟨done, first, rest, previous, hsplit, hid, hprevious, hconversation, happended⟩ :=
    compaction_keeps (fun _ => (⟨[], [], []⟩ : SystemFields Unit)) (fun _ => .other ())
    (m := exchangeSession) ⟨exchangeSession, ⟨_, rfl⟩, .refl _⟩
    (show pathTo exchangeSession.byId 6 (lookup exchangeSession.byId exchangeSession.leafId) =
      some exchangeEntries from rfl) exchangeEntries_editsBehind
    (by simp +contextual [SystemCheckpoints, exchangeEntries, exchangeMessage, eq_comm])
    (show prepareCompaction (fun _ => 1) (fun _ => none) exchangeEntries 2 6 =
      some (some ⟨.string [100], [editedAnswer], [], false, some [115]⟩) from rfl)
    (countedUuid_new (show ∀ id ∈ exchangeEntries.map (·.id), ∃ c, id = .string [c] by
      simp [exchangeEntries])) (by decide)
  obtain ⟨m, projection, -, hprojection, hmessages, -⟩ := happended [] [116] 3 () 7 (by decide)
  exact ⟨done, first, rest, previous, hsplit, hid, hprevious, hconversation, m, projection,
    hprojection, hmessages⟩

end KnightCode.Session
