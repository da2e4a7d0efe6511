import Mathlib.Data.List.TakeWhile
import KnightCode.Session.Branch

/-!
# The context of an extracted branch

The path without its labels, with the labels made again behind it, has the context of the path: what
an entry contributes does not depend on its parent, labels contribute nothing, and the entry a
compaction keeps from is redirected to the first one behind it that is not a label.
-/

namespace KnightCode.Session

open List

variable {ρ : Type}

def SessionEntry.stays (entry : SessionEntry ρ) : Bool :=
  !entry.isLabel

/-- An entry without its parent and without the one it keeps from. -/
def SessionEntry.bare (entry : SessionEntry ρ) : SessionEntry ρ :=
  { entry with
    parentId := .undefined
    body := entry.body.keepFrom .undefined }

section
variable {entry : SessionEntry ρ}

theorem bare_isCompaction (entry : SessionEntry ρ) :
    entry.bare.isCompaction = entry.isCompaction := by
  obtain ⟨_, _, _, body⟩ := entry
  cases body <;> rfl

theorem bare_isSystemMessage (entry : SessionEntry ρ) :
    entry.bare.isSystemMessage = entry.isSystemMessage := by
  obtain ⟨_, _, _, body⟩ := entry
  cases body <;> rfl

theorem bare_stays (entry : SessionEntry ρ) : entry.bare.stays = entry.stays := by
  obtain ⟨_, _, _, body⟩ := entry
  cases body <;> rfl

theorem bare_messages (getTime : Text → Option ℤ) (entry : SessionEntry ρ) :
    sessionEntryToContextMessages getTime entry.bare = sessionEntryToContextMessages getTime entry := by
  obtain ⟨_, _, _, body⟩ := entry
  cases body <;> rfl

theorem bare_settings (settings : ContextSettings) (entry : SessionEntry ρ) :
    readSettings settings entry.bare = readSettings settings entry := by
  obtain ⟨_, _, _, body⟩ := entry
  cases body <;> rfl

theorem bare_edit (edits : ContextEdits ρ) (entry : SessionEntry ρ) :
    readEdit edits entry.bare = readEdit edits entry := by
  obtain ⟨_, _, _, body⟩ := entry
  cases body <;> rfl

theorem of_not_stays (h : entry.stays = false) :
    (∃ targetId label, entry.body = .label targetId label) := by
  obtain ⟨_, _, _, body⟩ := entry
  cases body with
  | label targetId label => exact ⟨targetId, label, rfl⟩
  | _ => cases h

theorem label_isCompaction (h : entry.stays = false) : entry.isCompaction = false := by
  obtain ⟨targetId, label, hbody⟩ := of_not_stays h
  rw [SessionEntry.isCompaction, hbody]

theorem label_settings (h : entry.stays = false) (settings : ContextSettings) :
    readSettings settings entry = settings := by
  obtain ⟨targetId, label, hbody⟩ := of_not_stays h
  rw [readSettings, hbody]

theorem label_edit (h : entry.stays = false) (edits : ContextEdits ρ) :
    readEdit edits entry = edits := by
  obtain ⟨targetId, label, hbody⟩ := of_not_stays h
  rw [readEdit, hbody]

theorem label_messages (h : entry.stays = false) (getTime : Text → Option ℤ)
    (edits : ContextEdits ρ) : laterMessages getTime edits entry = [] := by
  obtain ⟨targetId, label, hbody⟩ := of_not_stays h
  have hnone : sessionEntryToContextMessages getTime entry = [] := by
    rw [sessionEntryToContextMessages, hbody]
  rw [laterMessages, label_isCompaction h, if_neg Bool.false_ne_true]
  unfold projectContextEntry
  rw [hnone]
  cases Assoc.get entry.id edits with
  | none => rfl
  | some edit => cases edit <;> rfl

end

/-! ### What stays, bare -/

def bareStaying (entries : Entries ρ) : Entries ρ :=
  (entries.filter SessionEntry.stays).map SessionEntry.bare

section

theorem bareStaying_append (front back : Entries ρ) :
    bareStaying (front ++ back) = bareStaying front ++ bareStaying back := by
  rw [bareStaying, filter_append, map_append]
  rfl

theorem foldl_bareStaying {β : Type} {f : β → SessionEntry ρ → β}
    (hbare : ∀ b entry, f b entry.bare = f b entry)
    (hlabel : ∀ b entry, entry.stays = false → f b entry = b) (entries : Entries ρ)
    (b : β) : (bareStaying entries).foldl f b = entries.foldl f b := by
  induction entries generalizing b with
  | nil => rfl
  | cons entry entries ih =>
    rw [foldl_cons, ← ih, bareStaying, filter_cons]
    cases hstays : entry.stays with
    | false =>
      rw [if_neg Bool.false_ne_true, hlabel b entry hstays]
      rfl
    | true =>
      rw [if_pos rfl, map_cons, foldl_cons, hbare]
      rfl

theorem flatMap_bareStaying {β : Type} {f : SessionEntry ρ → List β}
    (hbare : ∀ entry, f entry.bare = f entry) (hlabel : ∀ entry, entry.stays = false → f entry = [])
    (entries : Entries ρ) : (bareStaying entries).flatMap f = entries.flatMap f := by
  induction entries with
  | nil => rfl
  | cons entry entries ih =>
    rw [flatMap_cons, ← ih, bareStaying, filter_cons]
    cases hstays : entry.stays with
    | false =>
      rw [if_neg Bool.false_ne_true, hlabel entry hstays]
      rfl
    | true =>
      rw [if_pos rfl, map_cons, flatMap_cons, hbare]
      rfl

theorem contextEdits_bareStaying (entries : Entries ρ) :
    contextEdits (bareStaying entries) = contextEdits entries :=
  foldl_bareStaying bare_edit (fun edits _ h => label_edit h edits) entries []

theorem settings_bareStaying (entries : Entries ρ) :
    getSessionContextSettings (bareStaying entries) = getSessionContextSettings entries :=
  foldl_bareStaying bare_settings (fun settings _ h => label_settings h settings) entries _

variable (getTime : Text → Option ℤ)

theorem bare_projectContextEntry (entry : SessionEntry ρ)
    (edit : Option (Option (MessageContent ρ))) :
    projectContextEntry getTime entry.bare edit = projectContextEntry getTime entry edit := by
  unfold projectContextEntry
  rw [bare_messages]

theorem bare_laterMessages (edits : ContextEdits ρ) (entry : SessionEntry ρ) :
    laterMessages getTime edits entry.bare = laterMessages getTime edits entry := by
  rw [laterMessages, laterMessages, bare_isCompaction, bare_projectContextEntry]
  rfl

theorem laterMessages_bareStaying (edits : ContextEdits ρ) (entries : Entries ρ) :
    (bareStaying entries).flatMap (laterMessages getTime edits) =
      entries.flatMap (laterMessages getTime edits) :=
  flatMap_bareStaying (bare_laterMessages getTime edits)
    (fun _ h => label_messages h getTime edits) entries

end

/-! ### What a context contributes -/

section

variable (getTime : Text → Option ℤ)

def contextMessages (entries : Entries ρ) : List (AgentMessage ρ) :=
  (entries.mapIdx (projectAt getTime (contextEdits entries))).flatMap (·.messages)

theorem projectPath_messages (path : Entries ρ) :
    (projectPath getTime path).messages = contextMessages getTime (buildContextEntries path) := rfl

theorem contextMessages_of_no_compaction {entries : Entries ρ}
    (h : ∀ entry ∈ entries, entry.isCompaction = false) :
    contextMessages getTime entries =
      entries.flatMap (laterMessages getTime (contextEdits entries)) := by
  cases entries with
  | nil => rfl
  | cons first rest =>
    rw [contextMessages, flatMap_projectAt, flatMap_cons]
    refine congrArg₂ _ ?_ rfl
    rw [laterMessages, h first mem_cons_self]
    rfl

theorem contextMessages_cons (first : SessionEntry ρ) (rest : Entries ρ) :
    contextMessages getTime (first :: rest) =
      projectContextEntry getTime first (Assoc.get first.id (contextEdits (first :: rest))) ++
        rest.flatMap (laterMessages getTime (contextEdits (first :: rest))) :=
  flatMap_projectAt getTime _ first rest

theorem contextMessages_congr {first first' : SessionEntry ρ} {rest rest' : Entries ρ}
    (hfirst : first.stays = true) (hfirst' : first'.bare = first.bare)
    (hrest : bareStaying rest' = bareStaying rest) :
    contextMessages getTime (first' :: rest') = contextMessages getTime (first :: rest) := by
  have hstays : first'.stays = true := by rw [← bare_stays, hfirst', bare_stays, hfirst]
  have hcons : bareStaying (first' :: rest') = bareStaying (first :: rest) := by
    rw [bareStaying, bareStaying, filter_cons_of_pos hstays, filter_cons_of_pos hfirst,
      map_cons, map_cons, hfirst']
    exact congrArg _ hrest
  have hedits : contextEdits (first' :: rest') = contextEdits (first :: rest) := by
    rw [← contextEdits_bareStaying, hcons, contextEdits_bareStaying]
  have hid : first'.bare.id = first.bare.id := congrArg SessionEntry.id hfirst'
  change first'.id = first.id at hid
  rw [contextMessages_cons, contextMessages_cons, hedits, hid, ← bare_projectContextEntry, hfirst',
    bare_projectContextEntry, ← laterMessages_bareStaying, hrest, laterMessages_bareStaying]

theorem contextMessages_congr_of_no_compaction {entries entries' : Entries ρ}
    (h : ∀ entry ∈ entries, entry.isCompaction = false)
    (h' : ∀ entry ∈ entries', entry.isCompaction = false)
    (heq : bareStaying entries' = bareStaying entries) :
    contextMessages getTime entries' = contextMessages getTime entries := by
  have hedits : contextEdits entries' = contextEdits entries := by
    rw [← contextEdits_bareStaying, heq, contextEdits_bareStaying]
  rw [contextMessages_of_no_compaction getTime h, contextMessages_of_no_compaction getTime h',
    hedits, ← laterMessages_bareStaying, heq, laterMessages_bareStaying]

end

/-! ### The loop over the path -/

section

variable {s : Rechain ρ} {entry : SessionEntry ρ}
variable (replacements : List (Ident × Ident))

theorem redirect_id (entry : SessionEntry ρ) : (redirect replacements entry).id = entry.id := by
  obtain ⟨_, _, _, body⟩ := entry
  cases body <;> rfl

theorem redirect_parentId (entry : SessionEntry ρ) :
    (redirect replacements entry).parentId = entry.parentId := by
  obtain ⟨_, _, _, body⟩ := entry
  cases body <;> rfl

theorem redirect_bare (entry : SessionEntry ρ) (parentId : Ident) :
    (redirect replacements { entry with parentId := parentId }).bare = entry.bare := by
  obtain ⟨_, _, _, body⟩ := entry
  cases body <;> rfl

theorem step_of_label (h : entry.stays = false) :
    s.step entry = { s with pendingLabelIds := s.pendingLabelIds ++ [entry.id] } := by
  have hlabel : entry.isLabel = true := by
    cases hlabel : entry.isLabel with
    | true => rfl
    | false =>
      rw [SessionEntry.stays, hlabel] at h
      cases h
  exact if_pos hlabel

theorem step_of_stays (h : entry.stays = true) :
    s.step entry =
      { pathWithoutLabels := s.pathWithoutLabels ++
          [redirect (s.replacements entry.id) { entry with parentId := s.pathParentId }]
        replacementByLabelId := s.replacements entry.id
        pendingLabelIds := []
        pathParentId := entry.id } := by
  have hlabel : entry.isLabel = false := by
    cases hlabel : entry.isLabel with
    | false => rfl
    | true =>
      rw [SessionEntry.stays, hlabel] at h
      cases h
  exact if_neg fun hlabel' => Bool.false_ne_true (hlabel.symm.trans hlabel')

theorem exists_appended (entries : Entries ρ) (s : Rechain ρ) :
    ∃ appended, (entries.foldl Rechain.step s).pathWithoutLabels = s.pathWithoutLabels ++ appended ∧
      appended.map SessionEntry.bare = bareStaying entries ∧ Chained s.pathParentId appended := by
  induction entries generalizing s with
  | nil => exact ⟨[], (append_nil _).symm, rfl, trivial⟩
  | cons entry entries ih =>
    obtain ⟨appended, happended, hbare, hchained⟩ := ih (s.step entry)
    rw [← foldl_cons] at happended
    rw [bareStaying, filter_cons]
    cases hstays : entry.stays with
    | false =>
      rw [step_of_label hstays] at happended hchained
      exact ⟨appended, happended, hbare, hchained⟩
    | true =>
      rw [step_of_stays hstays] at happended hchained
      refine ⟨redirect (s.replacements entry.id) { entry with parentId := s.pathParentId } ::
        appended, ?_, ?_, ?_, ?_⟩
      · rw [happended, append_assoc]
        rfl
      · rw [if_pos rfl, map_cons, map_cons, redirect_bare, hbare]
        rfl
      · exact redirect_parentId _ _
      · rw [redirect_id]
        exact hchained

theorem pathWithoutLabels_bare (path : Entries ρ) :
    (pathWithoutLabels path).map SessionEntry.bare = bareStaying path := by
  obtain ⟨appended, happended, hbare, -⟩ := exists_appended path ⟨[], [], [], .null⟩
  rw [pathWithoutLabels, rechain, happended]
  exact hbare

theorem pathWithoutLabels_chained (path : Entries ρ) :
    Chained .null (pathWithoutLabels path) := by
  obtain ⟨appended, happended, -, hchained⟩ := exists_appended path ⟨[], [], [], .null⟩
  rw [pathWithoutLabels, rechain, happended]
  exact hchained

end

/-! ### Where a compaction keeps from -/

def fromId (id : Ident) (entries : Entries ρ) : Entries ρ :=
  entries.dropWhile fun entry => entry.id ≠ id

inductive Standing (s : Rechain ρ) (entries : Entries ρ) (id : Ident) : Prop
  | absent (hid : ∀ entry ∈ entries, entry.id ≠ id) (hpending : id ∉ s.pendingLabelIds)
      (hget : Assoc.get id s.replacementByLabelId = none)
  | pending (hid : ∃ entry ∈ entries, entry.id = id)
      (hkept : (fromId id entries).filter SessionEntry.stays = [])
      (hpending : id ∈ s.pendingLabelIds)
  | kept (first : SessionEntry ρ) (back : Entries ρ)
      (hid : ∃ entry ∈ entries, entry.id = id)
      (hkept : (fromId id entries).filter SessionEntry.stays = first :: back)
      (hpending : id ∉ s.pendingLabelIds)
      (hget : (Assoc.get id s.replacementByLabelId).getD id = first.id)

section

variable {s : Rechain ρ} {entry : SessionEntry ρ} {entries : Entries ρ} {id : Ident}

theorem get_foldl_set (labelIds : List Ident) (replacement id : Ident)
    (replacements : List (Ident × Ident)) :
    Assoc.get id (labelIds.foldl (fun replacements labelId =>
      Assoc.set labelId replacement replacements) replacements) =
      if id ∈ labelIds then some replacement else Assoc.get id replacements := by
  induction labelIds generalizing replacements with
  | nil => rfl
  | cons labelId labelIds ih =>
    rw [foldl_cons, ih, Assoc.get_set]
    by_cases hmem : id ∈ labelIds
    · rw [if_pos hmem, if_pos (mem_cons_of_mem _ hmem)]
    · rw [if_neg hmem]
      by_cases heq : labelId = id
      · subst heq
        rw [if_pos rfl, if_pos mem_cons_self]
      · rw [if_neg heq, if_neg fun h => ?_]
        rcases mem_cons.mp h with h | h
        · exact heq h.symm
        · exact hmem h

theorem fromId_eq_nil (h : ∀ entry ∈ entries, entry.id ≠ id) : fromId id entries = [] :=
  dropWhile_eq_nil_iff.mpr fun entry hmem => decide_eq_true (h entry hmem)

theorem fromId_append_of_mem (h : ∃ entry ∈ entries, entry.id = id)
    (back : Entries ρ) : fromId id (entries ++ back) = fromId id entries ++ back := by
  rw [fromId, dropWhile_append, if_neg]
  · rfl
  · intro hempty
    obtain ⟨entry, hmem, hid⟩ := h
    exact of_decide_eq_true
      (dropWhile_eq_nil_iff.mp (isEmpty_iff.mp hempty) entry hmem) hid

theorem fromId_append_of_not_mem (h : ∀ entry ∈ entries, entry.id ≠ id)
    (back : Entries ρ) : fromId id (entries ++ back) = fromId id back := by
  rw [fromId, dropWhile_append, if_pos]
  · rfl
  · exact isEmpty_iff.mpr (fromId_eq_nil h)

theorem fromId_cons_self (entry : SessionEntry ρ) (back : Entries ρ) :
    fromId entry.id (entry :: back) = entry :: back := by
  rw [fromId, dropWhile_cons, if_neg]
  exact fun h => of_decide_eq_true h rfl

theorem Standing.step (h : Standing s entries id) (hfresh : ∀ other ∈ entries, other.id ≠ entry.id) :
    Standing (s.step entry) (entries ++ [entry]) id := by
  have hlater : (∃ other ∈ entries, other.id = id) → ∃ other ∈ entries ++ [entry], other.id = id :=
    fun ⟨other, hmem, hid⟩ => ⟨other, mem_append_left _ hmem, hid⟩
  have hself : entry.id = id → ∃ other ∈ entries ++ [entry], other.id = id := fun hid =>
    ⟨entry, mem_append_right _ (mem_singleton_self _), hid⟩
  have hget : ∀ replacement, Assoc.get id (s.replacements replacement) =
      if id ∈ s.pendingLabelIds then some replacement else Assoc.get id s.replacementByLabelId :=
    fun replacement => get_foldl_set s.pendingLabelIds replacement id s.replacementByLabelId
  cases hstays : entry.stays with
  | false =>
    have hfilter : ([entry] : Entries ρ).filter SessionEntry.stays = [] :=
      filter_eq_nil_iff.mpr fun other hother => by
        rw [mem_singleton.mp hother, hstays]
        exact Bool.false_ne_true
    rw [step_of_label hstays]
    cases h with
    | absent hid hpending hnone =>
      by_cases heq : entry.id = id
      · subst heq
        refine .pending (hself rfl) ?_ (mem_append_right _ (mem_singleton_self _))
        rw [fromId_append_of_not_mem hid, fromId_cons_self, hfilter]
      · refine .absent (fun other hmem => ?_) (fun hmem => ?_) hnone
        · rcases mem_append.mp hmem with hmem | hmem
          · exact hid other hmem
          · rw [mem_singleton.mp hmem]
            exact heq
        · rcases mem_append.mp hmem with hmem | hmem
          · exact hpending hmem
          · exact heq (mem_singleton.mp hmem).symm
    | pending hid hkept hpending =>
      refine .pending (hlater hid) ?_ (mem_append_left _ hpending)
      rw [fromId_append_of_mem hid, filter_append, hkept, hfilter]
      rfl
    | kept first back hid hkept hpending hsome =>
      refine .kept first back (hlater hid) ?_ (fun hmem => ?_) hsome
      · rw [fromId_append_of_mem hid, filter_append, hkept, hfilter, append_nil]
      · rcases mem_append.mp hmem with hmem | hmem
        · exact hpending hmem
        · obtain ⟨other, hother, hotherId⟩ := hid
          exact hfresh other hother (hotherId.trans (mem_singleton.mp hmem))
  | true =>
    have hfilter : ([entry] : Entries ρ).filter SessionEntry.stays = [entry] :=
      filter_eq_self.mpr fun other hother => by
        rw [mem_singleton.mp hother, hstays]
    rw [step_of_stays hstays]
    cases h with
    | absent hid hpending hnone =>
      have hnone' : Assoc.get id (s.replacements entry.id) = none := by
        rw [hget, if_neg hpending, hnone]
      by_cases heq : entry.id = id
      · subst heq
        refine .kept entry [] (hself rfl) ?_ not_mem_nil ?_
        · rw [fromId_append_of_not_mem hid, fromId_cons_self, hfilter]
        · rw [hnone']
          rfl
      · refine .absent (fun other hmem => ?_) not_mem_nil hnone'
        rcases mem_append.mp hmem with hmem | hmem
        · exact hid other hmem
        · rw [mem_singleton.mp hmem]
          exact heq
    | pending hid hkept hpending =>
      refine .kept entry [] (hlater hid) ?_ not_mem_nil ?_
      · rw [fromId_append_of_mem hid, filter_append, hkept, hfilter]
        rfl
      · rw [hget, if_pos hpending]
        rfl
    | kept first back hid hkept hpending hsome =>
      refine .kept first (back ++ [entry]) (hlater hid) ?_ not_mem_nil ?_
      · rw [fromId_append_of_mem hid, filter_append, hkept, hfilter]
        rfl
      · rw [hget, if_neg hpending]
        exact hsome

theorem standing (hdistinct : (entries.map (·.id)).Nodup) (id : Ident) :
    Standing (rechain entries) entries id := by
  induction entries using reverseRecOn with
  | nil => exact .absent (fun _ hmem => by cases hmem) not_mem_nil rfl
  | append_singleton entries entry ih =>
    rw [map_append, nodup_append] at hdistinct
    rw [rechain, foldl_append]
    refine (ih hdistinct.1).step fun other hmem => ?_
    exact hdistinct.2.2 other.id (mem_map_of_mem hmem) entry.id (mem_singleton_self _)

theorem fromId_filter (hdistinct : (entries.map (·.id)).Nodup) {first : SessionEntry ρ}
    {back : Entries ρ}
    (h : (fromId id entries).filter SessionEntry.stays = first :: back) :
    fromId first.id (entries.filter SessionEntry.stays) = first :: back := by
  have hsplit : entries.filter SessionEntry.stays =
      (entries.takeWhile fun entry => entry.id ≠ id).filter SessionEntry.stays ++ first :: back := by
    rw [← h, ← filter_append, fromId, takeWhile_append_dropWhile]
  have hnodup : ((entries.filter SessionEntry.stays).map (·.id)).Nodup :=
    (List.Sublist.map _ filter_sublist).nodup hdistinct
  rw [hsplit, map_append, nodup_append] at hnodup
  rw [hsplit, fromId_append_of_not_mem fun other hmem => ?_, fromId_cons_self]
  exact hnodup.2.2 other.id (mem_map_of_mem hmem) first.id mem_cons_self

theorem fromId_bare (entries : Entries ρ) :
    (fromId id entries).map SessionEntry.bare = fromId id (entries.map SessionEntry.bare) := by
  rw [fromId, fromId, dropWhile_map]
  rfl

/-- Where a compaction behind the entries keeps from, redirected. -/
def keptFrom (entries : Entries ρ) (compactionId firstKeptEntryId : Ident) : Ident :=
  if firstKeptEntryId = compactionId then compactionId
  else (Assoc.get firstKeptEntryId ((rechain entries).replacements compactionId)).getD
    firstKeptEntryId

theorem fromId_keptFrom (hdistinct : (entries.map (·.id)).Nodup) {compactionId : Ident}
    (hcompaction : ∀ entry ∈ entries, entry.id ≠ compactionId) (firstKeptEntryId : Ident) :
    fromId (keptFrom entries compactionId firstKeptEntryId) (entries.filter SessionEntry.stays) =
      (fromId firstKeptEntryId entries).filter SessionEntry.stays := by
  have hnone : ∀ id, (∀ entry ∈ entries, entry.id ≠ id) →
      fromId id (entries.filter SessionEntry.stays) = [] := fun id h =>
    fromId_eq_nil fun entry hmem => h entry (mem_of_mem_filter hmem)
  rw [keptFrom]
  by_cases heq : firstKeptEntryId = compactionId
  · rw [if_pos heq, heq, hnone compactionId hcompaction, fromId_eq_nil hcompaction]
    rfl
  · have hget := get_foldl_set (rechain entries).pendingLabelIds compactionId firstKeptEntryId
      (rechain entries).replacementByLabelId
    rw [if_neg heq, Rechain.replacements, hget]
    cases standing hdistinct firstKeptEntryId with
    | absent hid hpending hget =>
      rw [if_neg hpending, hget, Option.getD_none, hnone _ hid, fromId_eq_nil hid]
      rfl
    | pending hid hkept hpending =>
      rw [if_pos hpending, Option.getD_some, hnone compactionId hcompaction, hkept]
    | kept first back hid hkept hpending hget =>
      rw [if_neg hpending, hget, fromId_filter hdistinct hkept, hkept]

end

/-! ### The two contexts -/

section

variable {path front back labels : Entries ρ} {compaction : SessionEntry ρ}

theorem splitLatest_append (hcompaction : compaction.isCompaction = true)
    (hback : ∀ entry ∈ back, entry.isCompaction = false) (front : Entries ρ) :
    splitLatest (front ++ compaction :: back) = some (front, compaction, back) := by
  induction front with
  | nil =>
    rw [nil_append, splitLatest, splitLatest_eq_none.mpr hback]
    exact if_pos hcompaction
  | cons entry front ih => rw [cons_append, splitLatest, ih]

theorem bareStaying_of_stays {entries : Entries ρ}
    (h : ∀ entry ∈ entries, entry.stays = true) :
    bareStaying entries = entries.map SessionEntry.bare := by
  rw [bareStaying, filter_eq_self.mpr h]

theorem bareStaying_of_labels (h : ∀ entry ∈ labels, entry.stays = false) :
    bareStaying labels = [] := by
  have hfilter : labels.filter SessionEntry.stays = [] :=
    filter_eq_nil_iff.mpr fun entry hmem => by
      rw [h entry hmem]
      exact Bool.false_ne_true
  rw [bareStaying, hfilter]
  rfl

theorem bareStaying_filter (entries : Entries ρ) :
    bareStaying (entries.filter fun entry => !entry.isSystemMessage) =
      (bareStaying entries).filter fun entry => !entry.isSystemMessage := by
  rw [bareStaying, filter_comm, bareStaying, filter_map]
  refine congrArg (map SessionEntry.bare) (filter_congr fun entry _ => ?_)
  rw [Function.comp_apply, bare_isSystemMessage]

theorem forall_of_bare {p : SessionEntry ρ → Bool} (hp : ∀ entry, p entry.bare = p entry)
    {entries entries' : Entries ρ}
    (heq : entries'.map SessionEntry.bare = bareStaying entries) {b : Bool}
    (h : ∀ entry ∈ entries, entry.stays = true → p entry = b) : ∀ entry ∈ entries', p entry = b := by
  intro entry hmem
  have hbare : entry.bare ∈ bareStaying entries := heq ▸ mem_map_of_mem hmem
  obtain ⟨other, hother, hsame⟩ := mem_map.mp hbare
  rw [← hp, ← hsame, hp]
  exact h other (mem_of_mem_filter hother) (of_mem_filter hother)

theorem pathWithoutLabels_stays (path : Entries ρ) :
    ∀ entry ∈ pathWithoutLabels path, entry.stays = true :=
  forall_of_bare bare_stays (pathWithoutLabels_bare path) fun _ _ h => h

theorem isCompaction_stays (h : compaction.isCompaction = true) : compaction.stays = true := by
  cases hstays : compaction.stays with
  | true => rfl
  | false => exact absurd h (by rw [label_isCompaction hstays]; exact Bool.false_ne_true)

theorem redirect_firstKept (h : compaction.isCompaction = true) (parentId : Ident)
    (front : Entries ρ) :
    (redirect ((rechain front).replacements compaction.id)
      { compaction with parentId := parentId }).firstKeptEntryId =
      keptFrom front compaction.id compaction.firstKeptEntryId := by
  obtain ⟨id, parentId', timestamp, body⟩ := compaction
  cases body with
  | compaction c => rfl
  | _ => cases h

theorem exists_pathWithoutLabels (hcompaction : compaction.isCompaction = true)
    (front back : Entries ρ) :
    ∃ compaction' back', pathWithoutLabels (front ++ compaction :: back) =
        pathWithoutLabels front ++ compaction' :: back' ∧
      compaction'.bare = compaction.bare ∧
      compaction'.firstKeptEntryId = keptFrom front compaction.id compaction.firstKeptEntryId ∧
      back'.map SessionEntry.bare = bareStaying back := by
  obtain ⟨back', hback, hbare, -⟩ := exists_appended back ((rechain front).step compaction)
  have hstep := @step_of_stays _ (rechain front) _ (isCompaction_stays hcompaction)
  refine ⟨redirect ((rechain front).replacements compaction.id)
    { compaction with parentId := (rechain front).pathParentId }, back', ?_,
    redirect_bare _ _ _, redirect_firstKept hcompaction _ front, hbare⟩
  rw [pathWithoutLabels, rechain, foldl_append, foldl_cons]
  refine hback.trans ?_
  rw [hstep, append_assoc]
  rfl

theorem keptEntries_bare (hdistinct : (front.map (·.id)).Nodup) {compactionId : Ident}
    (hfresh : ∀ entry ∈ front, entry.id ≠ compactionId) (firstKeptEntryId : Ident) :
    bareStaying (keptEntries (keptFrom front compactionId firstKeptEntryId)
      (pathWithoutLabels front)) = bareStaying (keptEntries firstKeptEntryId front) := by
  have hkept : ∀ id (entries : Entries ρ), keptEntries id entries =
      (fromId id entries).filter fun entry => !entry.isSystemMessage := fun _ _ => rfl
  rw [hkept, hkept, bareStaying_filter, bareStaying_filter]
  have hstays : ∀ id, ∀ entry ∈ fromId id (pathWithoutLabels front), entry.stays = true :=
    fun id entry hmem => pathWithoutLabels_stays front entry ((dropWhile_sublist _).mem hmem)
  refine congrArg (filter _) ?_
  rw [bareStaying_of_stays (hstays _), fromId_bare, pathWithoutLabels_bare, bareStaying,
    ← fromId_bare, fromId_keptFrom hdistinct hfresh]
  rfl

theorem branch_messages (getTime : Text → Option ℤ) (hdistinct : (path.map (·.id)).Nodup)
    (hlabels : ∀ entry ∈ labels, entry.stays = false)
    (hdistinct' : ((pathWithoutLabels path ++ labels).map (·.id)).Nodup) :
    (projectPath getTime (pathWithoutLabels path ++ labels)).messages =
      (projectPath getTime path).messages := by
  have hnolabel : ∀ entry ∈ labels, entry.isCompaction = false := fun entry hmem =>
    label_isCompaction (hlabels entry hmem)
  rw [projectPath_messages, projectPath_messages]
  cases hsplit : splitLatest path with
  | none =>
    have hnone := splitLatest_eq_none.mp hsplit
    have hnone' : ∀ entry ∈ pathWithoutLabels path ++ labels, entry.isCompaction = false := by
      intro entry hmem
      rcases mem_append.mp hmem with hmem | hmem
      · exact forall_of_bare bare_isCompaction (pathWithoutLabels_bare path)
          (fun other hother _ => hnone other hother) entry hmem
      · exact hnolabel entry hmem
    rw [buildContextEntries_of_none hsplit,
      buildContextEntries_of_none (splitLatest_eq_none.mpr hnone')]
    refine contextMessages_congr_of_no_compaction getTime hnone hnone' ?_
    rw [bareStaying_append, bareStaying_of_labels hlabels, append_nil,
      bareStaying_of_stays (pathWithoutLabels_stays path), pathWithoutLabels_bare]
  | some split =>
    obtain ⟨front, compaction, back⟩ := split
    obtain ⟨rfl, hcompaction, hback⟩ := splitLatest_eq_some hsplit
    obtain ⟨compaction', back', hpath, hbare, hfirst, hback'⟩ :=
      exists_pathWithoutLabels hcompaction front back
    have hcompaction' : compaction'.isCompaction = true := by
      rw [← bare_isCompaction, hbare, bare_isCompaction, hcompaction]
    have hlater : ∀ entry ∈ back' ++ labels, entry.isCompaction = false := by
      intro entry hmem
      rcases mem_append.mp hmem with hmem | hmem
      · exact forall_of_bare bare_isCompaction hback'
          (fun other hother _ => hback other hother) entry hmem
      · exact hnolabel entry hmem
    have hnew : pathWithoutLabels (front ++ compaction :: back) ++ labels =
        pathWithoutLabels front ++ compaction' :: (back' ++ labels) := by
      rw [hpath, append_assoc]
      rfl
    have hsplit' : splitLatest (pathWithoutLabels (front ++ compaction :: back) ++ labels) =
        some (pathWithoutLabels front, compaction', back' ++ labels) := by
      rw [hnew]
      exact splitLatest_append hcompaction' hlater _
    rw [buildContextEntries_of_split hdistinct hsplit,
      buildContextEntries_of_split hdistinct' hsplit', hfirst]
    refine contextMessages_congr getTime (isCompaction_stays hcompaction) hbare ?_
    rw [map_append, map_cons, nodup_append] at hdistinct
    rw [bareStaying_append, bareStaying_append, bareStaying_append, bareStaying_of_labels hlabels,
      append_nil, keptEntries_bare hdistinct.1 fun entry hmem => hdistinct.2.2 entry.id
      (mem_map_of_mem hmem) compaction.id mem_cons_self]
    refine congrArg _ ?_
    rw [bareStaying_of_stays, hback']
    exact forall_of_bare bare_stays hback' fun _ _ h => h

theorem branch_settings (hlabels : ∀ entry ∈ labels, entry.stays = false) :
    getSessionContextSettings (pathWithoutLabels path ++ labels) =
      getSessionContextSettings path := by
  rw [← settings_bareStaying, bareStaying_append, bareStaying_of_labels hlabels, append_nil,
    bareStaying_of_stays (pathWithoutLabels_stays path), pathWithoutLabels_bare,
    settings_bareStaying]

end

end KnightCode.Session
