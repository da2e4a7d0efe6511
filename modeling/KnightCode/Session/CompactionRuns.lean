import KnightCode.Session.CompactionKept

/-!
# The context after a compaction

The new compaction resolves the id of the first entry kept on the raw path, where earlier compactions
and system messages still stand between the entries that were projected. What comes behind it there is
what was kept, with the same edits.
-/

namespace KnightCode.Session

open List

variable {ρ : Type}

/-- An entry that is neither a compaction nor a system message. -/
def SessionEntry.isPlain (entry : SessionEntry ρ) : Bool :=
  !entry.isCompaction && !entry.isSystemMessage

def EditsBehind (path : Entries ρ) : Prop :=
  ∀ front entry back, path = front ++ entry :: back → ∀ targetId replacement,
    entry.body = .contextEdit targetId replacement → ∃ target ∈ front, target.id = targetId

variable {entry : SessionEntry ρ}

/-- `appendContextEdit` throws unless the target is on the branch it appends to. -/
theorem EditsBehind.append {path : Entries ρ} (h : EditsBehind path)
    (htarget : ∀ targetId replacement,
      entry.body = .contextEdit targetId replacement → ∃ target ∈ path, target.id = targetId) :
    EditsBehind (path ++ [entry]) := by
  intro front other back hsplit
  rcases eq_nil_or_concat' back with rfl | ⟨back, last, rfl⟩
  · obtain ⟨rfl, heq⟩ := append_inj' hsplit rfl
    obtain rfl := singleton_inj.mp heq
    exact htarget
  · rw [← cons_append, ← append_assoc] at hsplit
    exact h front other back (append_inj' hsplit rfl).1

/-! ### The kept entries on the raw path -/

section

variable {path done rest : Entries ρ} {first : SessionEntry ρ}

theorem fromId_of_split (hdistinct : (path.map (·.id)).Nodup) {front back : Entries ρ}
    (h : path = front ++ first :: back) : fromId first.id path = first :: back := by
  subst h
  rw [map_append, nodup_append] at hdistinct
  rw [fromId_append_of_not_mem fun entry hmem => ?_, fromId_cons_self]
  exact hdistinct.2.2 entry.id (mem_map_of_mem hmem) first.id mem_cons_self

theorem filter_plain_of_filter (entries : Entries ρ) :
    (entries.filter fun entry => !entry.isSystemMessage).filter SessionEntry.isPlain =
      entries.filter SessionEntry.isPlain := by
  rw [filter_filter]
  refine filter_congr fun entry _ => ?_
  rw [SessionEntry.isPlain]
  cases entry.isCompaction <;> cases entry.isSystemMessage <;> rfl

/-- How a split of the context lies on the path. -/
structure Lies (path done : Entries ρ) (first : SessionEntry ρ)
    (rest front back : Entries ρ) : Prop where
  split : path = front ++ first :: back
  before : ∀ entry ∈ done, entry.isCompaction = false → entry ∈ front
  behind : ∀ entry ∈ rest, entry ∈ back
  plain : back.filter SessionEntry.isPlain = rest.filter SessionEntry.isPlain

theorem exists_lies (hdistinct : (path.map (·.id)).Nodup)
    (h : buildContextEntries path = done ++ first :: rest) (hplain : first.isCompaction = false) :
    ∃ front back, Lies path done first rest front back := by
  cases hsplit : splitLatest path with
  | none =>
    rw [buildContextEntries_of_none hsplit] at h
    exact ⟨done, rest, h, fun _ hmem _ => hmem, fun _ hmem => hmem, rfl⟩
  | some split =>
    obtain ⟨before, compaction, behind⟩ := split
    rw [buildContextEntries_of_split hdistinct hsplit] at h
    obtain ⟨hpath, hcompaction, -⟩ := splitLatest_eq_some hsplit
    have hdrop : compaction.isPlain = false := by rw [SessionEntry.isPlain, hcompaction]; rfl
    cases done with
    | nil =>
      obtain ⟨rfl, -⟩ := cons.inj h
      rw [hcompaction] at hplain
      cases hplain
    | cons newest done =>
      rw [cons_append] at h
      obtain ⟨rfl, hcontext⟩ := cons.inj h
      have hnewest : ∀ entry ∈ compaction :: done, entry.isCompaction = false → entry ∈ done := by
        intro entry hmem hentry
        rcases mem_cons.mp hmem with rfl | hmem
        · rw [hcompaction] at hentry
          cases hentry
        · exact hmem
      have hkeptMem : ∀ entry ∈ keptEntries compaction.firstKeptEntryId before, entry ∈ before :=
        fun entry hmem => (dropWhile_sublist _).mem (mem_of_mem_filter hmem)
      have hbehindCase : ∀ done', done = keptEntries compaction.firstKeptEntryId before ++ done' →
          behind = done' ++ first :: rest →
          ∃ front back, Lies path (compaction :: done) first rest front back := by
        intro done' hdone hbehind
        refine ⟨before ++ compaction :: done', rest, ?_, fun entry hmem hentry => ?_,
          fun _ hmem => hmem, rfl⟩
        · rw [hpath, hbehind, append_assoc]
          rfl
        · have hmem := hnewest entry hmem hentry
          rw [hdone] at hmem
          rcases mem_append.mp hmem with hmem | hmem
          · exact mem_append_left _ (hkeptMem entry hmem)
          · exact mem_append_right _ (mem_cons_of_mem _ hmem)
      rcases append_eq_append_iff.mp hcontext with ⟨done', hdone, hbehind⟩ | ⟨kept', hkept, hrest⟩
      · exact hbehindCase done' hdone hbehind
      · cases kept' with
        | nil => exact hbehindCase [] (by rw [hkept, append_nil, append_nil]) hrest.symm
        | cons first' rest' =>
          obtain ⟨rfl, htail⟩ := cons.inj hrest
          have hrest : rest = rest' ++ behind := htail
          -- the entries it kept, raw: system messages stand between them
          obtain ⟨raw, raw', hraw, hdone, hback⟩ := filter_eq_append_iff.mp hkept
          obtain ⟨skipped, back, rfl, hskipped, -, hrest'⟩ := filter_eq_cons_iff.mp hback
          have hbefore : before = (before.takeWhile fun entry =>
              entry.id ≠ compaction.firstKeptEntryId) ++ (raw ++ (skipped ++ first :: back)) := by
            rw [← hraw, takeWhile_append_dropWhile]
          refine ⟨(before.takeWhile fun entry => entry.id ≠ compaction.firstKeptEntryId) ++ raw ++
            skipped, back ++ compaction :: behind, ?_, fun entry hmem hentry => ?_,
            fun entry hmem => ?_, ?_⟩
          · rw [hpath]
            conv_lhs => rw [hbefore]
            simp only [append_assoc, cons_append]
          · have hmem := hnewest entry hmem hentry
            rw [← hdone] at hmem
            exact mem_append_left _ (mem_append_right _ (mem_of_mem_filter hmem))
          · rw [hrest, ← hrest'] at hmem
            rcases mem_append.mp hmem with hmem | hmem
            · exact mem_append_left _ (mem_of_mem_filter hmem)
            · exact mem_append_right _ (mem_cons_of_mem _ hmem)
          · rw [hrest, filter_append, filter_append, filter_cons, hdrop,
              if_neg Bool.false_ne_true, ← hrest', filter_plain_of_filter]

end

/-! ### The edits in effect -/

section

variable {entries : Entries ρ} {id : Ident}

theorem readEdit_of_not_edit (h : entry.isPlain = false) (edits : ContextEdits ρ) :
    readEdit edits entry = edits := by
  obtain ⟨entryId, parentId, timestamp, body⟩ := entry
  cases body with
  | contextEdit targetId replacement => cases h
  | _ => rfl

theorem contextEdits_filter_plain (entries : Entries ρ) :
    contextEdits (entries.filter SessionEntry.isPlain) = contextEdits entries := by
  rw [contextEdits, contextEdits, foldl_filter]
  refine congrArg (fun f => foldl f [] entries) (funext fun edits => funext fun entry => ?_)
  cases hplain : entry.isPlain with
  | true => rfl
  | false => exact (readEdit_of_not_edit hplain edits).symm

theorem get_readEdit (edits : ContextEdits ρ) (entry : SessionEntry ρ) :
    Assoc.get id (readEdit edits entry) =
      (Assoc.get id (readEdit [] entry)).or (Assoc.get id edits) := by
  obtain ⟨entryId, parentId, timestamp, body⟩ := entry
  cases body with
  | contextEdit targetId replacement =>
    change Assoc.get id (Assoc.set targetId replacement edits) =
      (Assoc.get id (Assoc.set targetId replacement [])).or _
    rw [Assoc.get_set, Assoc.get_set]
    split_ifs <;> rfl
  | _ => rfl

theorem get_contextEdits_append (front back : Entries ρ) :
    Assoc.get id (contextEdits (front ++ back)) =
      (Assoc.get id (contextEdits back)).or (Assoc.get id (contextEdits front)) := by
  induction back using reverseRecOn with
  | nil =>
    rw [append_nil]
    rfl
  | append_singleton back entry ih =>
    have hconcat : ∀ l : Entries ρ, contextEdits (l ++ [entry]) =
        readEdit (contextEdits l) entry := fun l => by
      rw [contextEdits, foldl_append]
      rfl
    rw [← append_assoc, hconcat, hconcat, get_readEdit, ih, get_readEdit (contextEdits back),
      Option.or_assoc]

theorem get_contextEdits_eq_none (h : ∀ entry ∈ entries, ∀ targetId replacement,
      entry.body = .contextEdit targetId replacement → targetId ≠ id) :
    Assoc.get id (contextEdits entries) = none := by
  induction entries using reverseRecOn with
  | nil => rfl
  | append_singleton entries entry ih =>
    rw [get_contextEdits_append, ih fun other hmem => h other (mem_append_left _ hmem),
      Option.or_none]
    have hentry := h entry (mem_append_right _ (mem_singleton_self _))
    obtain ⟨entryId, parentId, timestamp, body⟩ := entry
    cases body with
    | contextEdit targetId replacement =>
      change Assoc.get id (Assoc.set targetId replacement []) = none
      rw [Assoc.get_set, if_neg (hentry targetId replacement rfl)]
      rfl
    | _ => rfl

end

theorem get_edits_kept {path done rest front back : Entries ρ}
    {first entry : SessionEntry ρ} (hdistinct : (path.map (·.id)).Nodup) (hedits : EditsBehind path)
    (h : Lies path done first rest front back) (hentry : entry ∈ first :: back) :
    Assoc.get entry.id (contextEdits (done ++ first :: rest)) =
      Assoc.get entry.id (contextEdits (first :: rest)) := by
  refine (get_contextEdits_append done (first :: rest)).trans ?_
  rw [@get_contextEdits_eq_none _ done entry.id ?_, Option.or_none]
  intro edit hmem targetId replacement hbody hid
  have hfront : edit ∈ front := by
    refine h.before edit hmem ?_
    rw [SessionEntry.isCompaction, hbody]
  obtain ⟨before, behind, rfl⟩ := append_of_mem hfront
  have hpath : path = before ++ edit :: (behind ++ first :: back) := by
    rw [h.split, append_assoc]
    rfl
  obtain ⟨target, htarget, htargetId⟩ := hedits before edit _ hpath targetId replacement hbody
  have hsplit := hdistinct
  rw [h.split, map_append, nodup_append] at hsplit
  exact hsplit.2.2 target.id (mem_map_of_mem (mem_append_left _ htarget)) entry.id
    (mem_map_of_mem hentry) (htargetId.trans hid)

/-! ### What is kept contributes -/

section

variable (getTime : Text → Option ℤ)
variable {entry : SessionEntry ρ} {message : AgentMessage ρ}

theorem messages_role (h : entry.isCompaction = false)
    (hmem : message ∈ sessionEntryToContextMessages getTime entry) :
    decide (message.role = .system) = entry.isSystemMessage := by
  obtain ⟨_, _, _, body⟩ := entry
  cases body with
  | message m =>
    obtain ⟨role, content, fields, time⟩ := m
    cases content <;> cases role <;>
      (rw [sessionEntryToContextMessages] at hmem; cases mem_singleton.mp hmem; rfl)
  | compaction c => cases h
  | customMessage customType content display details =>
    cases mem_singleton.mp hmem
    rfl
  | branchSummary fromId summary rest =>
    rw [sessionEntryToContextMessages] at hmem
    dsimp only at hmem
    split_ifs at hmem
    · cases hmem
    · cases mem_singleton.mp hmem
      rfl
  | _ => cases hmem

theorem replaceContent_role (replacement : MessageContent ρ) (message : AgentMessage ρ) :
    (message.replaceContent replacement).role = message.role := by
  obtain ⟨role, content, fields, time⟩ := message
  cases role <;> cases replacement <;> rfl

theorem laterMessages_role {edits : ContextEdits ρ}
    (hmem : message ∈ laterMessages getTime edits entry) :
    decide (message.role = .system) = entry.isSystemMessage := by
  rw [laterMessages] at hmem
  split_ifs at hmem with hcompaction
  · cases hmem
  · have hentry := Bool.eq_false_iff.mpr hcompaction
    unfold projectContextEntry at hmem
    cases hedit : Assoc.get entry.id edits with
    | none =>
      rw [hedit] at hmem
      exact messages_role getTime hentry hmem
    | some edit =>
      rw [hedit] at hmem
      cases edit with
      | none => cases hmem
      | some replacement =>
        obtain ⟨original, horiginal, rfl⟩ := mem_map.mp hmem
        rw [replaceContent_role]
        exact messages_role getTime hentry horiginal

/-- What an entry contributes besides system messages. -/
def conversationOf (edits : ContextEdits ρ) (entry : SessionEntry ρ) : List (AgentMessage ρ) :=
  (laterMessages getTime edits entry).filter fun message => message.role ≠ .system

theorem conversationOf_of_not_system (h : entry.isSystemMessage = false) (edits : ContextEdits ρ) :
    conversationOf getTime edits entry = laterMessages getTime edits entry := by
  refine filter_eq_self.mpr fun message hmem => ?_
  rw [decide_not, laterMessages_role getTime hmem, h]
  rfl

theorem conversationOf_not_plain (h : entry.isPlain = false) (edits : ContextEdits ρ) :
    conversationOf getTime edits entry = [] := by
  refine filter_eq_nil_iff.mpr fun message hmem => ?_
  rw [decide_not, laterMessages_role getTime hmem]
  cases hcompaction : entry.isCompaction with
  | true =>
    rw [laterMessages, if_pos hcompaction] at hmem
    cases hmem
  | false =>
    rw [SessionEntry.isPlain, hcompaction] at h
    cases hsystem : entry.isSystemMessage with
    | true => exact Bool.false_ne_true
    | false =>
      rw [hsystem] at h
      cases h

theorem flatMap_filter_of_nil {α β : Type} {f : α → List β} {p : α → Bool}
    (h : ∀ a, p a = false → f a = []) (l : List α) : (l.filter p).flatMap f = l.flatMap f := by
  induction l with
  | nil => rfl
  | cons a l ih =>
    rw [filter_cons, flatMap_cons, ← ih]
    cases hp : p a with
    | true => rw [if_pos rfl, flatMap_cons]
    | false =>
      rw [if_neg Bool.false_ne_true, h a hp]
      rfl

theorem projectAt_conversation (edits : ContextEdits ρ) (index : ℕ) (entry : SessionEntry ρ) :
    (projectAt getTime edits index entry).conversation = conversationOf getTime edits entry := by
  rw [ProjectedSessionEntry.conversation, conversationOf, laterMessages]
  cases hcompaction : entry.isCompaction with
  | true =>
    rw [if_pos rfl, if_pos]
    · rfl
    · exact hcompaction
  | false =>
    have hnot : ¬ (entry.isCompaction = true ∧ 0 < index) := fun h =>
      Bool.false_ne_true (hcompaction.symm.trans h.1)
    rw [if_neg Bool.false_ne_true, if_neg]
    · rw [projectAt, if_neg hnot]
    · exact fun h => Bool.false_ne_true (hcompaction.symm.trans h)

section

variable {getTime} {path done rest front back : Entries ρ}
  {first compaction : SessionEntry ρ}

theorem buildContextEntries_compacted (hdistinct : ((path ++ [compaction]).map (·.id)).Nodup)
    (hcompaction : compaction.isCompaction = true) (hfirst : compaction.firstKeptEntryId = first.id)
    (h : Lies path done first rest front back) :
    buildContextEntries (path ++ [compaction]) =
      compaction :: (first :: back).filter fun entry => !entry.isSystemMessage := by
  have hpath : (path.map (·.id)).Nodup := by
    rw [map_append, nodup_append] at hdistinct
    exact hdistinct.1
  rw [buildContextEntries_of_split hdistinct
    (splitLatest_append hcompaction (fun _ hmem => by cases hmem) path), hfirst, append_nil]
  refine congrArg (cons compaction) (congrArg (filter _) ?_)
  exact fromId_of_split hpath h.split

theorem Lies.filter_plain (h : Lies path done first rest front back) :
    (first :: back).filter SessionEntry.isPlain = (first :: rest).filter SessionEntry.isPlain := by
  rw [filter_cons, filter_cons, h.plain]

theorem get_edits_fresh (hedits : EditsBehind path) (hfresh : compaction.id ∉ path.map (·.id))
    (h : Lies path done first rest front back) :
    Assoc.get compaction.id (contextEdits (first :: rest)) = none := by
  rw [← contextEdits_filter_plain, ← h.filter_plain, contextEdits_filter_plain]
  refine get_contextEdits_eq_none fun edit hmem targetId replacement hbody hid => hfresh ?_
  have hpath : edit ∈ path := by
    rw [h.split]
    exact mem_append_right _ hmem
  obtain ⟨before, behind, rfl⟩ := append_of_mem hpath
  obtain ⟨target, htarget, rfl⟩ := hedits before edit behind rfl targetId replacement hbody
  rw [← hid]
  exact mem_map_of_mem (mem_append_left _ htarget)

theorem contextEdits_compacted (hcompaction : compaction.isCompaction = true)
    (h : Lies path done first rest front back) :
    contextEdits (compaction :: (first :: back).filter fun entry => !entry.isSystemMessage) =
      contextEdits (first :: rest) := by
  have hdrop : compaction.isPlain = false := by rw [SessionEntry.isPlain, hcompaction]; rfl
  rw [← contextEdits_filter_plain, filter_cons, hdrop, if_neg Bool.false_ne_true,
    filter_plain_of_filter, h.filter_plain, contextEdits_filter_plain]

theorem get_edits_compacted (hdistinct : (path.map (·.id)).Nodup) (hedits : EditsBehind path)
    (h : Lies path done first rest front back) (hmem : entry ∈ first :: rest) :
    Assoc.get entry.id (contextEdits (first :: rest)) =
      Assoc.get entry.id (contextEdits (done ++ first :: rest)) := by
  refine (get_edits_kept hdistinct hedits h ?_).symm
  rcases mem_cons.mp hmem with rfl | hmem
  · exact mem_cons_self
  · exact mem_cons_of_mem _ (h.behind entry hmem)

theorem messages_compacted (hdistinct : ((path ++ [compaction]).map (·.id)).Nodup)
    (hedits : EditsBehind path) (hcompaction : compaction.isCompaction = true)
    (hfirst : compaction.firstKeptEntryId = first.id) (h : Lies path done first rest front back) :
    (projectPath getTime (path ++ [compaction])).messages =
      sessionEntryToContextMessages getTime compaction ++
        (first :: rest).flatMap (conversationOf getTime (contextEdits (done ++ first :: rest))) := by
  have hids := hdistinct
  rw [map_append, nodup_append] at hids
  have hfresh : compaction.id ∉ path.map (·.id) := fun hmem =>
    hids.2.2 _ hmem _ (mem_singleton_self _) rfl
  rw [projectPath_messages, buildContextEntries_compacted hdistinct hcompaction hfirst h,
    contextMessages_cons, contextEdits_compacted hcompaction h, get_edits_fresh hedits hfresh h]
  refine congrArg _ ?_
  have hlater : ((first :: back).filter fun entry => !entry.isSystemMessage).flatMap
      (laterMessages getTime (contextEdits (first :: rest))) =
      ((first :: back).filter fun entry => !entry.isSystemMessage).flatMap
        (conversationOf getTime (contextEdits (first :: rest))) := by
    refine flatMap_congr fun entry hmem => (conversationOf_of_not_system getTime ?_ _).symm
    have hnot := of_mem_filter hmem
    exact (Bool.not_eq_true' _).mp hnot
  have hnil : ∀ edits (entry : SessionEntry ρ), entry.isPlain = false →
      conversationOf getTime edits entry = [] := fun edits _ hplain =>
    conversationOf_not_plain getTime hplain edits
  rw [hlater, ← flatMap_filter_of_nil (hnil _), filter_plain_of_filter, h.filter_plain,
    ← flatMap_filter_of_nil (hnil (contextEdits (done ++ first :: rest)))]
  refine flatMap_congr fun entry hmem => ?_
  rw [conversationOf, conversationOf, laterMessages, laterMessages,
    get_edits_compacted hids.1 hedits h (mem_of_mem_filter hmem)]

end

end

/-! ### The session's path -/

section

variable {m : SessionManager ρ} {path : Entries ρ} {entries : Entries ρ}
variable {way : Entries ρ}

theorem chained_of_walks {leaf : SessionEntry ρ}
    (h : Links.Walks (parentOf (buildEntryIndex entries)) leaf way) :
    way.head? = some leaf ∧ ∃ parentId, Chained parentId way.reverse ∧
      (lookup (buildEntryIndex entries) parentId) = none := by
  induction h with
  | @last leaf hnext => exact ⟨rfl, leaf.parentId, ⟨rfl, trivial⟩, hnext⟩
  | @cons leaf parent way hnext _ ih =>
    obtain ⟨hhead, parentId, hchained, hroot⟩ := ih
    refine ⟨rfl, parentId, ?_, hroot⟩
    have hparent : parent.id = leaf.parentId := by
      rw [parentOf, lookup] at hnext
      split_ifs at hnext
      exact (mem_of_get_index hnext).2
    rw [reverse_cons, chained_append_iff, getLast?_reverse, hhead]
    exact ⟨hchained, hparent.symm, trivial⟩

theorem isChain_of_pathTo {fuel : ℕ} {id : Ident}
    (h : pathTo (buildEntryIndex entries) fuel (lookup (buildEntryIndex entries) id) = some path) :
    ∃ parentId, IsChain parentId path := by
  obtain ⟨hfound, hdistinct⟩ := found_of_pathTo h
  cases hleaf : lookup (buildEntryIndex entries) id with
  | none =>
    rw [hleaf] at h
    cases h
    exact ⟨.null, trivial, fun h => (by cases h), nodup_nil, fun _ hmem => by cases hmem⟩
  | some leaf =>
    rw [hleaf, pathTo] at h
    obtain ⟨way, hway, rfl⟩ := Option.map_eq_some_iff.mp h
    obtain ⟨-, parentId, hchained, hroot⟩ := chained_of_walks (Links.walks_of_walk hway)
    refine ⟨parentId, hchained, fun htruthy entry hmem hid => ?_, hdistinct,
      fun entry hmem => (hfound entry hmem).1⟩
    rw [lookup, if_pos htruthy, ← hid, (hfound entry hmem).2] at hroot
    cases hroot

theorem walks_set {index : EntryIndex ρ} {leaf added : SessionEntry ρ}
    (h : Links.Walks (parentOf index) leaf way)
    (hparent : ∀ entry ∈ way, entry.parentId ≠ added.id) :
    Links.Walks (parentOf (Assoc.set added.id added index)) leaf way := by
  have hkeep : ∀ entry : SessionEntry ρ, entry.parentId ≠ added.id →
      parentOf (Assoc.set added.id added index) entry = parentOf index entry := by
    intro entry hne
    rw [parentOf, parentOf, lookup, lookup, Assoc.get_set_ne fun heq => hne heq.symm]
  induction h with
  | last hnext => exact .last ((hkeep _ (hparent _ (mem_singleton_self _))).trans hnext)
  | cons hnext _ ih =>
    refine .cons ((hkeep _ (hparent _ mem_cons_self)).trans hnext) ?_
    exact ih fun entry hmem => hparent entry (mem_cons_of_mem _ hmem)

theorem pathTo_appended {index : EntryIndex ρ} {leafId : Ident} {added : SessionEntry ρ} {fuel : ℕ}
    (hpath : pathTo index fuel (lookup index leafId) = some path) (hnonempty : path ≠ [])
    (hadded : added.parentId = leafId) (hne : leafId ≠ added.id)
    (hparent : ∀ entry ∈ path, entry.parentId ≠ added.id) {fuel' : ℕ}
    (hfuel : path.length + 1 ≤ fuel') :
    pathTo (Assoc.set added.id added index) fuel' (some added) = some (path ++ [added]) := by
  cases hleaf : lookup index leafId with
  | none =>
    rw [hleaf] at hpath
    cases hpath
    exact absurd rfl hnonempty
  | some leaf =>
    rw [hleaf, pathTo] at hpath
    obtain ⟨way, hway, rfl⟩ := Option.map_eq_some_iff.mp hpath
    have hwalks := walks_set (Links.walks_of_walk hway) fun entry hmem =>
      hparent entry (mem_reverse.mpr hmem)
    have hnext : parentOf (Assoc.set added.id added index) added = some leaf := by
      rw [parentOf, hadded, ← hleaf, lookup, lookup, Assoc.get_set_ne fun heq => hne heq.symm]
    rw [pathTo, (hwalks.cons hnext).walk (by rwa [length_reverse] at hfuel)]
    exact congrArg some (reverse_cons ..)

end

end KnightCode.Session
