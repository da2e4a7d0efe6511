import KnightCode.Session.Projection

/-!
# Migrating old sessions

Version 1 had no ids: its transcript is the list of its entries, and a compaction names the first
entry it keeps by its place in the file. Migration draws an id for each entry, chains the entries in
file order and turns the places into ids. The set of ids it draws against stays empty, so what is
drawn is not compared with the ids given before.
-/

namespace KnightCode.Session

open List Option

variable {ρ : Type}

/-- A value of `randomUUID()`. -/
abbrev Uuid := { text : Text // text.length = 36 }

/-- Draws of the random source from the `n`th on: the id, and how far the source has got. -/
def drawId (randomUUID : ℕ → Uuid) (taken : Ident → Bool) : ℕ → ℕ → Ident × ℕ
  | 0, n => (.string (randomUUID n).1, n + 1)
  | tries + 1, n =>
    if taken (.string ((randomUUID n).1.take 8)) then drawId randomUUID taken tries (n + 1)
    else (.string ((randomUUID n).1.take 8), n + 1)

def generateId (randomUUID : ℕ → Uuid) (taken : Ident → Bool) (n : ℕ) : Ident × ℕ :=
  drawId randomUUID taken 100 n

def idAt (entries : List (FileEntry ρ)) (index : ℕ) : Option Ident :=
  match entries[index]? with
  | some (.entry entry) => some entry.id
  | _ => none

/-- A compaction names the entry at the place it kept. -/
def SessionEntry.resolveIndex (entries : List (FileEntry ρ)) (entry : SessionEntry ρ) :
    SessionEntry ρ :=
  match entry.body with
  | .compaction compaction =>
    match compaction.firstKeptEntryIndex with
    | some index =>
      { entry with
        body := .compaction { compaction with
          firstKeptEntryId := (idAt entries index).getD compaction.firstKeptEntryId
          firstKeptEntryIndex := none } }
    | none => entry
  | _ => entry

/-- The ids drawn against: none is ever added. -/
def noIds : Ident → Bool :=
  fun _ => false

/-- The rest of the file, `done` being migrated and `n` values of the source drawn. -/
def migrateV1From (randomUUID : ℕ → Uuid) (done : List (FileEntry ρ)) (n : ℕ) (prevId : Ident) :
    List (FileEntry ρ) → List (FileEntry ρ)
  | [] => done
  | .session header :: rest =>
    migrateV1From randomUUID (done ++ [.session { header with version := some 2 }]) n prevId rest
  | .entry entry :: rest =>
    let drawn := generateId randomUUID noIds n
    let entry := { entry with id := drawn.1, parentId := prevId }
    migrateV1From randomUUID
      (done ++ [.entry (entry.resolveIndex (done ++ .entry entry :: rest))]) drawn.2 drawn.1 rest

def migrateV1ToV2 (randomUUID : ℕ → Uuid) (entries : List (FileEntry ρ)) : List (FileEntry ρ) :=
  migrateV1From randomUUID [] 0 .null entries

/-- A hook message is a custom one. -/
def SessionEntry.renameRole (entry : SessionEntry ρ) : SessionEntry ρ :=
  match entry.body with
  | .message message =>
    if message.role = .hookMessage then { entry with body := .message { message with role := .custom } }
    else entry
  | _ => entry

def migrateV2ToV3 (entries : List (FileEntry ρ)) : List (FileEntry ρ) :=
  entries.map fun
    | .session header => .session { header with version := some 3 }
    | .entry entry => .entry entry.renameRole

def versionOf (entries : List (FileEntry ρ)) : ℕ :=
  ((entries.findSome? fun
    | .session header => some header
    | .entry _ => none).bind (·.version)).getD 1

def migrateToCurrentVersion (randomUUID : ℕ → Uuid) (entries : List (FileEntry ρ)) :
    List (FileEntry ρ) :=
  if 3 ≤ versionOf entries then entries
  else
    migrateV2ToV3 (if versionOf entries < 2 then migrateV1ToV2 randomUUID entries else entries)

/-- The entries without headers, as a manager reads them. -/
def sessionEntries (entries : List (FileEntry ρ)) : Entries ρ :=
  entries.filterMap fun
    | .session _ => none
    | .entry entry => some entry

/-! ### The linear transcript -/

def SessionEntry.firstKeptEntryIndex (entry : SessionEntry ρ) : Option ℕ :=
  match entry.body with
  | .compaction compaction => compaction.firstKeptEntryIndex
  | _ => none

/-- The context of a version 1 transcript: the newest compaction, the entries from the place it
kept, and what came after it. The place counts the header. -/
def linearContextEntries (entries : Entries ρ) : Entries ρ :=
  match splitLatest entries with
  | none => entries
  | some (front, compaction, back) =>
    compaction :: (((front.drop (compaction.firstKeptEntryIndex.getD 0 - 1)).filter fun entry =>
      !entry.isSystemMessage) ++ back)

def linearProjection (getTime : Text → Option ℤ) (entries : Entries ρ) :
    List (AgentMessage ρ) × ContextSettings :=
  (((linearContextEntries entries).mapIdx (projectAt getTime [])).flatMap (·.messages),
    getSessionContextSettings entries)

/-- A version 1 file: the header, then entries of which none names another by its id, and each
compaction an earlier one by its place. -/
structure IsVersion1 (header : SessionHeader) (entries : Entries ρ) : Prop where
  version : header.version.getD 1 < 2
  index : ∀ place entry, entries[place]? = some entry → entry.isCompaction = true →
    ∃ index, entry.firstKeptEntryIndex = some (index + 1) ∧ index < place
  edit : ∀ entry ∈ entries, entry.isContextEdit = false

/-! ### What migration makes -/

section

variable {randomUUID : ℕ → Uuid} {header : SessionHeader} {entries : Entries ρ}

def drawnAt (randomUUID : ℕ → Uuid) (place : ℕ) : Ident :=
  .string ((randomUUID place).1.take 8)

def parentAt (randomUUID : ℕ → Uuid) : ℕ → Ident
  | 0 => .null
  | place + 1 => drawnAt randomUUID place

/-- The entry at a place, migrated to version 2. -/
def migratedAt (randomUUID : ℕ → Uuid) (place : ℕ) (entry : SessionEntry ρ) : SessionEntry ρ :=
  { entry with
    id := drawnAt randomUUID place
    parentId := parentAt randomUUID place
    body := entry.body.keepFrom (drawnAt randomUUID (entry.firstKeptEntryIndex.getD 0 - 1)) }

theorem generateId_noIds (randomUUID : ℕ → Uuid) (n : ℕ) :
    generateId randomUUID noIds n = (drawnAt randomUUID n, n + 1) := rfl

theorem resolveIndex_eq {done rest : List (FileEntry ρ)} {entry : SessionEntry ρ} {place : ℕ}
    (hentry : entry.isCompaction = true → ∃ index, entry.firstKeptEntryIndex = some (index + 1) ∧
      idAt (done ++ rest) (index + 1) = some (drawnAt randomUUID index)) :
    ({ entry with
        id := drawnAt randomUUID place
        parentId := parentAt randomUUID place } : SessionEntry ρ).resolveIndex (done ++ rest) =
      migratedAt randomUUID place entry := by
  obtain ⟨_, _, _, body⟩ := entry
  cases body with
  | compaction compaction =>
    obtain ⟨index, hindex, hid⟩ := hentry rfl
    have hcompaction : compaction.firstKeptEntryIndex = some (index + 1) := hindex
    simp only [SessionEntry.resolveIndex, migratedAt, Body.keepFrom, SessionEntry.firstKeptEntryIndex,
      hcompaction, hid, getD_some, Nat.add_sub_cancel]
  | _ => rfl

theorem idAt_done {front : Entries ρ} {index : ℕ} (hindex : index < front.length)
    (rest : List (FileEntry ρ)) :
    idAt ((.session header :: (front.mapIdx (migratedAt randomUUID)).map FileEntry.entry) ++ rest)
      (index + 1) = some (drawnAt randomUUID index) := by
  have hget : ((.session header ::
      (front.mapIdx (migratedAt randomUUID)).map FileEntry.entry) ++ rest)[index + 1]? =
      some (.entry (migratedAt randomUUID index front[index])) := by
    rw [cons_append, getElem?_cons_succ, getElem?_append_left, getElem?_map,
      getElem?_mapIdx, getElem?_eq_getElem hindex]
    · rfl
    · rw [length_map, length_mapIdx]
      exact hindex
  rw [idAt, hget]
  rfl

theorem migrateV1From_eq (h : IsVersion1 header entries) {front rest : Entries ρ}
    (hsplit : entries = front ++ rest) (header' : SessionHeader) :
    migrateV1From randomUUID
        (.session header' :: (front.mapIdx (migratedAt randomUUID)).map FileEntry.entry) front.length
        (parentAt randomUUID front.length) (rest.map FileEntry.entry) =
      .session header' :: (entries.mapIdx (migratedAt randomUUID)).map FileEntry.entry := by
  induction rest generalizing front with
  | nil =>
    rw [hsplit, append_nil]
    rfl
  | cons entry rest ih =>
    have hsplit' : entries = (front ++ [entry]) ++ rest := by
      rw [hsplit, append_assoc]
      rfl
    have hplace : entries[front.length]? = some entry := by
      rw [hsplit, getElem?_append_right le_rfl, Nat.sub_self]
      rfl
    rw [map_cons, migrateV1From, generateId_noIds]
    dsimp only
    rw [resolveIndex_eq fun hcompaction => ?_]
    · have hdone := ih hsplit'
      rw [mapIdx_concat, map_append, length_append, length_singleton] at hdone
      exact hdone
    · obtain ⟨index, hindex, hlt⟩ := h.index front.length entry hplace hcompaction
      exact ⟨index, hindex, idAt_done hlt _⟩

/-- The entries of a version 1 file, migrated. -/
def migratedEntries (randomUUID : ℕ → Uuid) (entries : Entries ρ) :
    Entries ρ :=
  (entries.mapIdx (migratedAt randomUUID)).map SessionEntry.renameRole

theorem migrate_eq (h : IsVersion1 header entries) (randomUUID : ℕ → Uuid) :
    migrateToCurrentVersion randomUUID (.session header :: entries.map FileEntry.entry) =
      .session { header with version := some 3 } ::
        (migratedEntries randomUUID entries).map FileEntry.entry := by
  have hversion : versionOf (.session header :: entries.map FileEntry.entry) < 2 := h.version
  rw [migrateToCurrentVersion, if_neg (by omega), if_pos hversion, migrateV1ToV2, migrateV1From]
  have hfrom := @migrateV1From_eq _ randomUUID _ _ h [] entries rfl
    { header with version := some 2 }
  refine (congrArg migrateV2ToV3 hfrom).trans ?_
  rw [migrateV2ToV3, migratedEntries, map_cons, List.map_map, List.map_map]
  rfl

end

/-! ### What an entry contributes does not depend on its place -/

section

theorem core_migratedAt (randomUUID : ℕ → Uuid) (place : ℕ) (entry : SessionEntry ρ) :
    (migratedAt randomUUID place entry).renameRole.core = entry.renameRole.core := by
  obtain ⟨_, _, _, body⟩ := entry
  cases body with
  | message message =>
    unfold SessionEntry.renameRole migratedAt
    dsimp only [Body.keepFrom]
    split_ifs <;> rfl
  | _ => rfl

theorem renameRole_keeps (entry : SessionEntry ρ) : entry.renameRole.id = entry.id ∧
    entry.renameRole.parentId = entry.parentId ∧
    entry.renameRole.isCompaction = entry.isCompaction ∧
    entry.renameRole.isContextEdit = entry.isContextEdit := by
  obtain ⟨_, _, _, body⟩ := entry
  cases body with
  | message message =>
    unfold SessionEntry.renameRole
    dsimp only
    split_ifs <;> exact ⟨rfl, rfl, rfl, rfl⟩
  | _ => exact ⟨rfl, rfl, rfl, rfl⟩

theorem renameRole_of_isCompaction {entry : SessionEntry ρ} (h : entry.isCompaction = true) :
    entry.renameRole = entry := by
  obtain ⟨_, _, _, body⟩ := entry
  cases body with
  | compaction compaction => rfl
  | _ => cases h

theorem splitLatest_map {f : SessionEntry ρ → SessionEntry ρ}
    (hf : ∀ entry, (f entry).isCompaction = entry.isCompaction) (entries : Entries ρ) :
    splitLatest (entries.map f) =
      (splitLatest entries).map fun split => (split.1.map f, f split.2.1, split.2.2.map f) := by
  induction entries with
  | nil => rfl
  | cons entry entries ih =>
    rw [map_cons, splitLatest, splitLatest, ih]
    cases splitLatest entries with
    | some split => rfl
    | none =>
      dsimp only [map_none]
      rw [hf]
      cases entry.isCompaction <;> rfl

variable {entries entries' : Entries ρ}

theorem messages_of_core (getTime : Text → Option ℤ)
    (h : entries.map SessionEntry.core = entries'.map SessionEntry.core) :
    (entries.mapIdx (projectAt getTime [])).flatMap (·.messages) =
      (entries'.mapIdx (projectAt getTime [])).flatMap (·.messages) := by
  have hcore : ∀ l : Entries ρ, (l.mapIdx (projectAt getTime [])).map (·.messages) =
      ((l.map SessionEntry.core).mapIdx (projectAt getTime [])).map (·.messages) := by
    intro l
    refine ext_getElem? fun index => ?_
    rw [getElem?_map, getElem?_map, getElem?_mapIdx, getElem?_mapIdx, getElem?_map]
    cases l[index]? with
    | none => rfl
    | some entry =>
      refine congrArg some ?_
      dsimp only [projectAt, projectContextEntry, Assoc.get_nil]
      rw [core_isCompaction, core_messages]
  rw [flatMap_def, flatMap_def, hcore, h, ← hcore]

theorem settings_of_core (h : entries.map SessionEntry.core = entries'.map SessionEntry.core) :
    getSessionContextSettings entries = getSessionContextSettings entries' := by
  have hcore : ∀ l : Entries ρ, getSessionContextSettings l =
      getSessionContextSettings (l.map SessionEntry.core) := by
    intro l
    rw [getSessionContextSettings, getSessionContextSettings, foldl_map]
    simp only [core_settings]
  rw [hcore, h, ← hcore]

end

/-! ### The migrated chain -/

section

variable {randomUUID : ℕ → Uuid} {header : SessionHeader} {entries : Entries ρ}

theorem migratedEntries_getElem? (randomUUID : ℕ → Uuid) (entries : Entries ρ)
    (place : ℕ) :
    (migratedEntries randomUUID entries)[place]? =
      entries[place]?.map fun entry => (migratedAt randomUUID place entry).renameRole := by
  rw [migratedEntries, getElem?_map, getElem?_mapIdx, Option.map_map]
  rfl

theorem migratedEntries_ids (randomUUID : ℕ → Uuid) (entries : Entries ρ) :
    (migratedEntries randomUUID entries).map (·.id) =
      (range entries.length).map (drawnAt randomUUID) := by
  refine ext_getElem? fun place => ?_
  rw [getElem?_map, getElem?_map, migratedEntries_getElem?, Option.map_map]
  by_cases hlt : place < entries.length
  · rw [getElem?_eq_getElem hlt, getElem?_range hlt]
    exact congrArg some (renameRole_keeps _).1
  · rw [getElem?_eq_none (not_lt.mp hlt), getElem?_eq_none]
    · rfl
    · rw [length_range]
      exact not_lt.mp hlt

theorem migratedEntries_core (randomUUID : ℕ → Uuid) (entries : Entries ρ) :
    (migratedEntries randomUUID entries).map SessionEntry.core =
      (entries.map SessionEntry.renameRole).map SessionEntry.core := by
  refine ext_getElem? fun place => ?_
  rw [getElem?_map, getElem?_map, getElem?_map, migratedEntries_getElem?]
  cases entries[place]? with
  | none => rfl
  | some entry => exact congrArg some (core_migratedAt randomUUID place entry)

theorem migratedEntries_chained (randomUUID : ℕ → Uuid) (entries : Entries ρ) :
    Chained .null (migratedEntries randomUUID entries) := by
  have hchain : ∀ (rest : Entries ρ) place, Chained (parentAt randomUUID place)
      ((rest.mapIdx fun index => migratedAt randomUUID (index + place)).map
        SessionEntry.renameRole) := by
    intro rest
    induction rest with
    | nil => exact fun _ => trivial
    | cons entry rest ih =>
      intro place
      rw [mapIdx_cons, map_cons, Chained, (renameRole_keeps _).1,
        (renameRole_keeps _).2.1, zero_add]
      refine ⟨rfl, ?_⟩
      have hnext := ih (place + 1)
      rw [show (fun index => migratedAt (ρ := ρ) randomUUID (index + (place + 1))) =
        fun index => migratedAt randomUUID (index + 1 + place) from funext fun index => by
          rw [add_right_comm, add_assoc]] at hnext
      exact hnext
  exact hchain entries 0

theorem drawnAt_truthy (randomUUID : ℕ → Uuid) (place : ℕ) :
    (drawnAt randomUUID place).truthy = true := by
  refine decide_eq_true fun hempty => ?_
  have hlength := congrArg length hempty
  rw [length_take, (randomUUID place).2] at hlength
  cases hlength

theorem drawnAt_nodup (entries : Entries ρ) :
    ((migratedEntries randomUUID entries).map (·.id)).Nodup ↔
      ((range entries.length).map fun place => (randomUUID place).1.take 8).Nodup := by
  have hmap : (range entries.length).map (drawnAt randomUUID) =
      ((range entries.length).map fun place => (randomUUID place).1.take 8).map
        Ident.string := by
    rw [List.map_map]
    rfl
  rw [migratedEntries_ids, hmap]
  exact nodup_map_iff fun _ _ heq => Ident.string.inj heq

theorem migratedEntries_isChain
    (hdistinct : ((migratedEntries randomUUID entries).map (·.id)).Nodup) :
    IsChain .null (migratedEntries randomUUID entries) where
  chained := migratedEntries_chained randomUUID entries
  root := fun h => by cases h
  distinct := hdistinct
  truthy := by
    intro entry hmem
    have hid : entry.id ∈ (range entries.length).map (drawnAt randomUUID) := by
      rw [← migratedEntries_ids]
      exact mem_map_of_mem hmem
    obtain ⟨place, -, hplace⟩ := mem_map.mp hid
    rw [← hplace]
    exact drawnAt_truthy randomUUID place

theorem dropWhile_id (hdistinct : (entries.map (·.id)).Nodup) {place : ℕ} {entry : SessionEntry ρ}
    (hget : entries[place]? = some entry) :
    entries.dropWhile (fun other => decide (other.id ≠ entry.id)) = entries.drop place := by
  induction entries generalizing place with
  | nil => cases hget
  | cons first entries ih =>
    obtain ⟨hnot, hdistinct⟩ := nodup_cons.mp hdistinct
    cases place with
    | zero =>
      cases hget
      rw [dropWhile_cons, if_neg (by simp)]
      rfl
    | succ place =>
      have hne : first.id ≠ entry.id := fun heq =>
        hnot (mem_map.mpr ⟨entry, mem_of_getElem? hget, heq.symm⟩)
      rw [dropWhile_cons, if_pos (decide_eq_true hne)]
      exact ih hdistinct hget

theorem migratedAt_firstKept {entry : SessionEntry ρ} (h : entry.isCompaction = true)
    (randomUUID : ℕ → Uuid) (place : ℕ) :
    (migratedAt randomUUID place entry).firstKeptEntryId =
      drawnAt randomUUID (entry.firstKeptEntryIndex.getD 0 - 1) := by
  obtain ⟨_, _, _, body⟩ := entry
  cases body with
  | compaction compaction => rfl
  | _ => cases h

theorem migratedAt_isCompaction (randomUUID : ℕ → Uuid) (place : ℕ) (entry : SessionEntry ρ) :
    (migratedAt randomUUID place entry).isCompaction = entry.isCompaction := by
  obtain ⟨_, _, _, body⟩ := entry
  cases body <;> rfl

theorem map_filter_core (entries : Entries ρ) :
    (entries.filter fun entry => !entry.isSystemMessage).map SessionEntry.core =
      (entries.map SessionEntry.core).filter fun entry => !entry.isSystemMessage := by
  rw [List.filter_map]
  refine congrArg (map SessionEntry.core) (filter_congr fun entry _ => ?_)
  rw [Function.comp_apply, core_isSystemMessage]

theorem migratedEntries_context (h : IsVersion1 header entries)
    (hdistinct : ((migratedEntries randomUUID entries).map (·.id)).Nodup) :
    (buildContextEntries (migratedEntries randomUUID entries)).map SessionEntry.core =
      (linearContextEntries (entries.map SessionEntry.renameRole)).map SessionEntry.core := by
  have hcore := migratedEntries_core randomUUID entries
  have hsplits := congrArg splitLatest hcore
  rw [splitLatest_map core_isCompaction, splitLatest_map core_isCompaction] at hsplits
  cases hsplit : splitLatest (migratedEntries randomUUID entries) with
  | none =>
    rw [hsplit] at hsplits
    have hlinear : splitLatest (entries.map SessionEntry.renameRole) = none :=
      map_eq_none_iff.mp hsplits.symm
    rw [buildContextEntries_of_none hsplit, linearContextEntries, hlinear]
    exact hcore
  | some split =>
    obtain ⟨front, compaction, back⟩ := split
    rw [hsplit] at hsplits
    obtain ⟨⟨front', compaction', back'⟩, hlinear, heq⟩ := map_eq_some_iff.mp hsplits.symm
    obtain ⟨hfront, hcompaction, hback⟩ : front'.map SessionEntry.core = front.map SessionEntry.core ∧
        compaction'.core = compaction.core ∧
          back'.map SessionEntry.core = back.map SessionEntry.core :=
      ⟨congrArg (·.1) heq, congrArg (·.2.1) heq, congrArg (·.2.2) heq⟩
    obtain ⟨hmigrated, -, -⟩ := splitLatest_eq_some hsplit
    obtain ⟨htranscript, hlatest, -⟩ := splitLatest_eq_some hlinear
    have hlength : front'.length = front.length := by
      have hlengths := congrArg length hfront
      rwa [length_map, length_map] at hlengths
    -- Both compactions are the one at the same place of the file.
    have hhere := migratedEntries_getElem? randomUUID entries front.length
    rw [hmigrated, getElem?_append_right le_rfl, Nat.sub_self, getElem?_cons_zero] at hhere
    obtain ⟨entry, hentry, hplaced⟩ := map_eq_some_iff.mp hhere.symm
    have hthere : entry.renameRole = compaction' := by
      have hmap : (entries.map SessionEntry.renameRole)[front'.length]? =
          (front' ++ compaction' :: back')[front'.length]? := by rw [htranscript]
      rw [getElem?_map, getElem?_append_right le_rfl, Nat.sub_self,
        getElem?_cons_zero, hlength, hentry] at hmap
      exact Option.some.inj hmap
    have hold : entry.isCompaction = true := by
      rw [← (renameRole_keeps entry).2.2.1, hthere]
      exact hlatest
    rw [renameRole_of_isCompaction hold] at hthere
    rw [renameRole_of_isCompaction ((migratedAt_isCompaction ..).trans hold)] at hplaced
    subst hthere hplaced
    obtain ⟨index, hindex, hlt⟩ := h.index front.length entry hentry hold
    have hkept : keptEntries (drawnAt randomUUID index) front =
        (front.drop index).filter fun entry => !entry.isSystemMessage := by
      have hids : ((front ++ migratedAt randomUUID front.length entry :: back).map (·.id))[index]? =
          ((range entries.length).map (drawnAt randomUUID))[index]? := by
        rw [← hmigrated, migratedEntries_ids]
      have hrange : index < entries.length :=
        hlt.trans (List.getElem?_eq_some_iff.mp hentry).1
      rw [getElem?_map, getElem?_append_left hlt, getElem?_eq_getElem hlt,
        getElem?_map, getElem?_range hrange] at hids
      have hid : front[index].id = drawnAt randomUUID index := Option.some.inj hids
      have hdistinct' : (front.map (·.id)).Nodup := by
        rw [hmigrated, map_append] at hdistinct
        exact (nodup_append.mp hdistinct).1
      rw [keptEntries, ← hid, dropWhile_id hdistinct' (getElem?_eq_getElem hlt)]
    rw [buildContextEntries_of_split hdistinct hsplit, linearContextEntries, hlinear,
      migratedAt_firstKept hold]
    dsimp only
    rw [hindex, getD_some, Nat.add_sub_cancel, hkept, map_cons, map_cons, map_append, map_append,
      map_filter_core, map_filter_core, map_drop, map_drop, hfront, hback, hcompaction]

end

/-! ### What is promised -/

/-- Migrated entries have ids of their own, form one chain in file order, project as the transcript
did, and are not migrated again. -/
structure Migrates (getTime : Text → Option ℤ) (transcript : Entries ρ)
    (migrated : List (FileEntry ρ)) : Prop where
  distinct : ((sessionEntries migrated).map (·.id)).Nodup
  chained : Chained .null (sessionEntries migrated)
  projects : ∃ fuel projection,
    buildSessionProjection getTime (sessionEntries migrated) .undefined fuel = some projection ∧
      (projection.messages, projection.settings) = linearProjection getTime transcript
  again : ∀ randomUUID, migrateToCurrentVersion randomUUID migrated = migrated

theorem sessionEntries_cons (header : SessionHeader) (entries : Entries ρ) :
    sessionEntries (.session header :: entries.map FileEntry.entry) = entries := by
  rw [sessionEntries, filterMap_cons_none rfl, filterMap_map]
  exact filterMap_some

theorem migrateToCurrentVersion_of_current {entries : List (FileEntry ρ)}
    (h : 3 ≤ versionOf entries) (randomUUID : ℕ → Uuid) :
    migrateToCurrentVersion randomUUID entries = entries :=
  if_pos h

theorem mem_buildContextEntries {path : Entries ρ} {entry : SessionEntry ρ}
    (hdistinct : (path.map (·.id)).Nodup) (h : entry ∈ buildContextEntries path) : entry ∈ path := by
  cases hsplit : splitLatest path with
  | none => rwa [buildContextEntries_of_none hsplit] at h
  | some split =>
    obtain ⟨front, compaction, back⟩ := split
    rw [buildContextEntries_of_split hdistinct hsplit] at h
    obtain ⟨rfl, -, -⟩ := splitLatest_eq_some hsplit
    obtain rfl | h := mem_cons.mp h
    · exact mem_append_right _ mem_cons_self
    · obtain h | h := mem_append.mp h
      · exact mem_append_left _ ((dropWhile_sublist _).subset (mem_filter.mp h).1)
      · exact mem_append_right _ (mem_cons_of_mem _ h)

/-- A version 1 file is migrated to the same conversation exactly when the values drawn for its
entries differ in their first eight characters. -/
theorem migrates_iff (getTime : Text → Option ℤ) (randomUUID : ℕ → Uuid) {header : SessionHeader}
    {entries : Entries ρ} (h : IsVersion1 header entries) :
    Migrates getTime (entries.map SessionEntry.renameRole)
        (migrateToCurrentVersion randomUUID (.session header :: entries.map FileEntry.entry)) ↔
      ((range entries.length).map fun place => (randomUUID place).1.take 8).Nodup := by
  rw [migrate_eq h]
  constructor
  · intro hmigrates
    have hdistinct := hmigrates.distinct
    rw [sessionEntries_cons] at hdistinct
    exact (drawnAt_nodup entries).mp hdistinct
  · intro hdrawn
    have hdistinct := (drawnAt_nodup entries).mpr hdrawn
    have hcurrent : 3 ≤ versionOf (.session { header with version := some 3 } ::
        (migratedEntries randomUUID entries).map FileEntry.entry) := le_refl 3
    refine ⟨?_, ?_, ?_, migrateToCurrentVersion_of_current hcurrent⟩
    · rw [sessionEntries_cons]
      exact hdistinct
    · rw [sessionEntries_cons]
      exact migratedEntries_chained randomUUID entries
    · rw [sessionEntries_cons]
      have hpath := (migratedEntries_isChain hdistinct).buildSessionPath le_rfl
      refine ⟨(migratedEntries randomUUID entries).length,
        projectPath getTime (migratedEntries randomUUID entries), ?_, ?_⟩
      · rw [buildSessionProjection, hpath]
        rfl
      · have hedits : contextEdits (buildContextEntries (migratedEntries randomUUID entries)) = [] := by
          refine contextEdits_eq_nil fun entry hmem => ?_
          obtain ⟨place, hplace⟩ := mem_iff_getElem?.mp (mem_buildContextEntries hdistinct hmem)
          rw [migratedEntries_getElem?] at hplace
          obtain ⟨source, hsource, rfl⟩ := map_eq_some_iff.mp hplace
          rw [← core_isContextEdit, core_migratedAt, core_isContextEdit, (renameRole_keeps _).2.2.2]
          exact h.edit source (mem_of_getElem? hsource)
        refine Prod.ext ?_ ?_
        · show ((buildContextEntries _).mapIdx (projectAt getTime (contextEdits _))).flatMap _ = _
          rw [hedits]
          exact messages_of_core getTime (migratedEntries_context h hdistinct)
        · exact settings_of_core (migratedEntries_core randomUUID entries)

/-- A message and a compaction that keeps it. -/
def oldFile : Entries Unit :=
  [⟨.undefined, .undefined, [],
      .message ⟨.user, .text (ascii "hi"), .other (), none⟩⟩,
    ⟨.undefined, .undefined, [],
      .compaction ⟨ascii "summary", .undefined, some 1, 0, none, ()⟩⟩]

def oldHeader : SessionHeader :=
  ⟨none, ascii "s", [], [], none⟩

theorem oldFile_isVersion1 : IsVersion1 oldHeader oldFile where
  version := by decide
  index := by
    intro place entry hentry hcompaction
    cases place with
    | zero =>
      cases hentry
      cases hcompaction
    | succ place =>
      cases place with
      | zero =>
        cases hentry
        exact ⟨0, rfl, zero_lt_one⟩
      | succ place => cases hentry
  edit := by
    intro entry hmem
    obtain rfl | hmem := mem_cons.mp hmem
    · rfl
    · rw [mem_singleton.mp hmem]
      rfl

theorem migrates_oldFile :
    Migrates (fun _ => none) (oldFile.map SessionEntry.renameRole)
      (migrateToCurrentVersion
        (fun n => ⟨UInt16.ofNat n :: replicate 35 97, rfl⟩)
        (.session oldHeader :: oldFile.map FileEntry.entry)) :=
  (migrates_iff _ _ oldFile_isVersion1).mpr (by decide)

/-- Two values that begin alike give two entries one id. -/
theorem same_draws_collide :
    ¬ Migrates (fun _ => none) (oldFile.map SessionEntry.renameRole)
      (migrateToCurrentVersion (fun _ => ⟨replicate 36 97, rfl⟩)
        (.session oldHeader :: oldFile.map FileEntry.entry)) := by
  intro h
  exact absurd h.distinct (by decide)

end KnightCode.Session
