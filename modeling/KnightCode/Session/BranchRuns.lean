import KnightCode.Library.System
import KnightCode.Session.BranchContext

/-!
# Extracting a branch from a session

Whatever was done with a manager, its index and its labels are those of its entries. So building them
again after a failed extraction gives back the ones from before, and a label that resolves is made
again from its resolution. The ids drawn for the labels are new.
-/

namespace KnightCode.Session

open List

variable {ρ : Type}

/-! ### New ids -/

/-- The values of the random source from the `n`th on are new: different from each other, and none of
the ids. -/
structure NewDraws (randomUUID : ℕ → Uuid) (n draws : ℕ) (ids : List Ident) : Prop where
  distinct : ∀ j k, j < k → k < draws → randomUUID j ≠ randomUUID k
  fresh : ∀ k, n ≤ k → k < draws → .string (randomUUID k).1 ∉ ids

section

variable {randomUUID : ℕ → Uuid} {n draws : ℕ} {ids : List Ident}

theorem string_truthy {text : Text} (h : text ≠ []) : (Ident.string text).truthy = true :=
  decide_eq_true h

theorem uuid_ne_nil (id : Uuid) : id.1 ≠ [] := by
  intro h
  have hlength := id.2
  rw [h] at hlength
  cases hlength

theorem uuid_take_length (id : Uuid) : (id.1.take 8).length = 8 := by
  rw [length_take, id.2]
  rfl

theorem uuid_take_ne_nil (id : Uuid) : id.1.take 8 ≠ [] := by
  intro h
  have hlength := uuid_take_length id
  rw [h] at hlength
  cases hlength

theorem NewDraws.mono (h : NewDraws randomUUID n draws ids) {n' : ℕ} (hle : n ≤ n') :
    NewDraws randomUUID n' draws ids :=
  ⟨h.distinct, fun k hk => h.fresh k (hle.trans hk)⟩

variable {taken : Ident → Bool}

theorem drawId_new (htaken : ∀ id, taken id = false → id ∉ ids) {tries : ℕ}
    (h : NewDraws randomUUID n draws ids) (hdraws : n + tries + 1 ≤ draws) :
    (drawId randomUUID taken tries n).1 ∉ ids ∧
      (drawId randomUUID taken tries n).1.truthy = true ∧
      (drawId randomUUID taken tries n).2 ≤ n + tries + 1 ∧
      NewDraws randomUUID (drawId randomUUID taken tries n).2 draws
        (ids ++ [(drawId randomUUID taken tries n).1]) := by
  induction tries generalizing n with
  | zero =>
    refine ⟨h.fresh n le_rfl hdraws, string_truthy (uuid_ne_nil _), le_rfl, h.distinct, ?_⟩
    intro k hk hlt hmem
    have hk' : n + 1 ≤ k := hk
    rcases mem_append.mp hmem with hmem | hmem
    · exact h.fresh k (by omega) hlt hmem
    · have heq := Ident.string.inj (mem_singleton.mp hmem)
      exact h.distinct n k (by omega) hlt (Subtype.ext heq.symm)
  | succ tries ih =>
    rw [drawId]
    by_cases htake : taken (.string ((randomUUID n).1.take 8)) = true
    · rw [if_pos htake]
      obtain ⟨hnot, htruthy, hle, hnew⟩ := ih (h.mono (Nat.le_add_right n 1)) (by omega)
      exact ⟨hnot, htruthy, by omega, hnew⟩
    · rw [if_neg htake]
      refine ⟨htaken _ (Bool.eq_false_iff.mpr htake), string_truthy (uuid_take_ne_nil _), by omega,
        h.distinct, ?_⟩
      intro k hk hlt hmem
      have hk' : n + 1 ≤ k := hk
      rcases mem_append.mp hmem with hmem | hmem
      · exact h.fresh k (by omega) hlt hmem
      · have hlength := congrArg length (Ident.string.inj (mem_singleton.mp hmem))
        rw [(randomUUID k).2, uuid_take_length] at hlength
        cases hlength

theorem generateId_new (htaken : ∀ id, taken id = false → id ∉ ids)
    (h : NewDraws randomUUID n draws ids) (hdraws : n + 101 ≤ draws) :
    (generateId randomUUID taken n).1 ∉ ids ∧
      (generateId randomUUID taken n).1.truthy = true ∧
      (generateId randomUUID taken n).2 ≤ n + 101 ∧
      NewDraws randomUUID (generateId randomUUID taken n).2 draws
        (ids ++ [(generateId randomUUID taken n).1]) :=
  drawId_new htaken h hdraws

end

/-! ### The labels made again -/

structure Relabels (ids : List Ident) (parentId : Ident) (labels : List LabelToWrite)
    (entries : Entries ρ) : Prop where
  bodies : entries.map (fun entry => (entry.body, entry.timestamp)) =
    labels.map fun label => (.label label.targetId (some label.label), label.timestamp)
  chained : Chained parentId entries
  distinct : (ids ++ entries.map (·.id)).Nodup
  truthy : ∀ entry ∈ entries, entry.id.truthy = true

section

variable {randomUUID : ℕ → Uuid} {n draws : ℕ} {ids : List Ident}

theorem persistedLabelEntries_relabels (parentId : Ident) (labels : List LabelToWrite)
    (h : NewDraws randomUUID n draws ids) (hdraws : n + 101 * labels.length ≤ draws)
    (hdistinct : ids.Nodup) :
    Relabels ids parentId labels (@persistedLabelEntries ρ randomUUID ids n parentId labels) := by
  induction labels generalizing n ids parentId with
  | nil =>
    refine ⟨rfl, trivial, ?_, fun _ hmem => (by cases hmem)⟩
    rw [persistedLabelEntries, map_nil, append_nil]
    exact hdistinct
  | cons label labels ih =>
    rw [length_cons] at hdraws
    obtain ⟨hnot, htruthy, hle, hnew⟩ := generateId_new
      (fun id (hid : decide (id ∈ ids) = false) => of_decide_eq_false hid) h (by omega)
    rw [persistedLabelEntries]
    generalize hdrawn : generateId randomUUID (fun id => decide (id ∈ ids)) n = drawn at *
    have hnodup : (ids ++ [drawn.1]).Nodup := by
      rw [nodup_append]
      refine ⟨hdistinct, nodup_singleton _, fun id hid other hother heq => hnot ?_⟩
      rw [← mem_singleton.mp hother, ← heq]
      exact hid
    have hrest := ih drawn.1 hnew (by omega) hnodup
    refine ⟨?_, ⟨rfl, hrest.chained⟩, ?_, ?_⟩
    · rw [map_cons, hrest.bodies]
      rfl
    · have hdistinct' := hrest.distinct
      rw [append_assoc] at hdistinct'
      exact hdistinct'
    · intro entry hmem
      rcases mem_cons.mp hmem with rfl | hmem
      · exact htruthy
      · exact hrest.truthy entry hmem

theorem inMemoryLabelEntries_eq (ids : List Ident) (labelEntries : Entries ρ) (n : ℕ)
    (parentId : Ident) (labels : List LabelToWrite) :
    inMemoryLabelEntries randomUUID ids labelEntries n parentId labels =
      labelEntries ++ persistedLabelEntries randomUUID (ids ++ labelEntries.map (·.id)) n parentId
        labels := by
  induction labels generalizing labelEntries n parentId with
  | nil => rw [inMemoryLabelEntries, persistedLabelEntries, append_nil]
  | cons label labels ih =>
    rw [inMemoryLabelEntries, persistedLabelEntries, ih, append_assoc, map_append, append_assoc]
    rfl

end

/-! ### What the labels resolve to -/

/-- Labels as they resolve: one an entry, none empty. -/
structure Labels.Resolved (labels : Labels) : Prop where
  distinct : (Assoc.keys labels.labelsById).Nodup
  nonempty : ∀ label ∈ labels.labelsById, label.2 ≠ []

section

variable {labels : Labels} {entries : Entries ρ}

theorem Labels.Resolved.change (h : labels.Resolved) (targetId : Ident) (timestamp : Text)
    (label : Option Text) : (labels.change targetId timestamp label).Resolved := by
  have herase : (⟨Assoc.erase targetId labels.labelsById,
      Assoc.erase targetId labels.labelTimestampsById⟩ : Labels).Resolved :=
    ⟨Assoc.nodup_keys_erase h.distinct, fun other hmem =>
      h.nonempty other ((Assoc.erase_sublist targetId labels.labelsById).mem hmem)⟩
  cases label with
  | none => exact herase
  | some label =>
    cases label with
    | nil => exact herase
    | cons c label =>
      refine ⟨Assoc.nodup_keys_set h.distinct, fun other hmem => ?_⟩
      rcases Assoc.mem_set hmem with rfl | hmem
      · exact cons_ne_nil _ _
      · exact h.nonempty other hmem

theorem resolveLabels_resolved (entries : Entries ρ) :
    (resolveLabels entries).Resolved := by
  induction entries using reverseRecOn with
  | nil => exact ⟨nodup_nil, fun _ hmem => by cases hmem⟩
  | append_singleton entries entry ih =>
    rw [resolveLabels, foldl_append, foldl_cons, foldl_nil, Labels.read]
    cases entry.body with
    | label targetId label => exact ih.change targetId entry.timestamp label
    | _ => exact ih

theorem resolveLabels_append_of_stays {kept : Entries ρ}
    (h : ∀ entry ∈ kept, entry.stays = true) (entries : Entries ρ) :
    resolveLabels (kept ++ entries) = resolveLabels entries := by
  rw [resolveLabels, foldl_append, resolveLabels]
  refine congrArg (foldl Labels.read · entries) ?_
  induction kept with
  | nil => rfl
  | cons entry kept ih =>
    have hentry := h entry mem_cons_self
    rw [foldl_cons, Labels.read]
    have hrest := ih fun other hmem => h other (mem_cons_of_mem _ hmem)
    obtain ⟨_, _, _, body⟩ := entry
    cases body with
    | label targetId label => cases hentry
    | _ => exact hrest

theorem foldl_read_bodies (labels : List LabelToWrite) (read : Labels)
    (hbodies : entries.map (fun entry => (entry.body, entry.timestamp)) =
      labels.map fun label => (.label label.targetId (some label.label), label.timestamp))
    (hnonempty : ∀ label ∈ labels, label.label ≠ [])
    (hdistinct : (Assoc.keys read.labelsById ++ labels.map (·.targetId)).Nodup) :
    (entries.foldl Labels.read read).labelsById =
      read.labelsById ++ labels.map fun label => (label.targetId, label.label) := by
  induction labels generalizing entries read with
  | nil =>
    rw [map_eq_nil_iff.mp hbodies]
    exact (append_nil _).symm
  | cons label labels ih =>
    obtain ⟨entry, entries, rfl⟩ := exists_cons_of_ne_nil
      (fun hnil : entries = [] => by rw [hnil] at hbodies; cases hbodies)
    rw [map_cons, map_cons] at hbodies
    obtain ⟨hhead, htail⟩ := cons.inj hbodies
    obtain ⟨hbody, htimestamp⟩ := Prod.mk.inj hhead
    obtain ⟨c, text, hlabel⟩ := exists_cons_of_ne_nil (hnonempty label mem_cons_self)
    have hread : (read.read entry).labelsById =
        read.labelsById ++ [(label.targetId, label.label)] := by
      rw [Labels.read, hbody]
      dsimp only
      rw [hlabel, Labels.change]
      refine Assoc.set_of_not_mem _ fun hmem => ?_
      rw [map_cons, nodup_append] at hdistinct
      exact hdistinct.2.2 _ hmem _ mem_cons_self rfl
    rw [foldl_cons, ih (read.read entry) htail
      fun other hmem => hnonempty other (mem_cons_of_mem _ hmem)]
    · rw [hread, append_assoc, map_cons]
      rfl
    · rw [hread, Assoc.keys, map_append, append_assoc]
      exact hdistinct

theorem get_filter_keys (ids : List Ident) (id : Ident) (labelsById : List (Ident × Text)) :
    Assoc.get id (labelsById.filter fun label => label.1 ∈ ids) =
      if id ∈ ids then Assoc.get id labelsById else none := by
  induction labelsById with
  | nil => rw [filter_nil, Assoc.get_nil, ite_self]
  | cons label labelsById ih =>
    obtain ⟨labelId, label⟩ := label
    by_cases hmem : labelId ∈ ids
    · rw [filter_cons, if_pos (decide_eq_true hmem), Assoc.get_cons, Assoc.get_cons, ih]
      by_cases heq : labelId = id
      · subst heq
        rw [if_pos rfl, if_pos hmem, if_pos rfl]
      · rw [if_neg heq, if_neg heq]
    · rw [filter_cons, if_neg fun h => hmem (of_decide_eq_true h), ih, Assoc.get_cons]
      by_cases heq : labelId = id
      · subst heq
        rw [if_neg hmem, if_neg hmem]
      · rw [if_neg heq]

theorem labelsById_relabels {kept entries : Entries ρ} (h : labels.Resolved)
    (hkept : ∀ entry ∈ kept, entry.stays = true) {parentId : Ident}
    (hrelabels : Relabels (kept.map (·.id)) parentId (labelsToWrite labels (kept.map (·.id))) entries)
    {id : Ident} (hid : id ∈ kept.map (·.id)) :
    Assoc.get id (resolveLabels (kept ++ entries)).labelsById = Assoc.get id labels.labelsById := by
  have hpairs : (labelsToWrite labels (kept.map (·.id))).map
      (fun label => (label.targetId, label.label)) =
      labels.labelsById.filter fun label => label.1 ∈ kept.map (·.id) := by
    rw [labelsToWrite, map_map]
    exact map_id _
  have hkeys : (labelsToWrite labels (kept.map (·.id))).map (·.targetId) =
      (labels.labelsById.filter fun label => label.1 ∈ kept.map (·.id)).map Prod.fst := by
    rw [← hpairs, map_map]
    rfl
  rw [resolveLabels_append_of_stays hkept, resolveLabels,
    foldl_read_bodies _ ⟨[], []⟩ hrelabels.bodies]
  · rw [nil_append, hpairs, get_filter_keys, if_pos hid]
  · intro label hmem
    have hpair := @mem_map_of_mem _ _ _ _ (fun label => (label.targetId, label.label)) hmem
    rw [hpairs] at hpair
    exact h.nonempty _ (mem_of_mem_filter hpair)
  · rw [hkeys]
    exact (List.Sublist.map _ filter_sublist).nodup h.distinct

end

/-! ### The path -/

section

variable {entries : Entries ρ}

/-- An entry the index finds under its id. -/
def Found (entries : Entries ρ) (entry : SessionEntry ρ) : Prop :=
  entry.id.truthy = true ∧ Assoc.get entry.id (buildEntryIndex entries) = some entry

variable {entry : SessionEntry ρ}

theorem found_of_lookup {id : Ident} (h : lookup (buildEntryIndex entries) id = some entry) :
    Found entries entry := by
  rw [lookup] at h
  split_ifs at h with htruthy
  obtain ⟨-, rfl⟩ := mem_of_get_index h
  exact ⟨htruthy, h⟩

variable {path : Entries ρ}

theorem found_of_walks (h : Links.Walks (parentOf (buildEntryIndex entries)) entry path)
    (hentry : Found entries entry) :
    ∀ other ∈ path, Found entries other := by
  induction h with
  | last _ =>
    intro other hmem
    rw [mem_singleton.mp hmem]
    exact hentry
  | cons hnext _ ih =>
    intro other hmem
    rcases mem_cons.mp hmem with rfl | hmem
    · exact hentry
    · exact ih (found_of_lookup hnext) other hmem

theorem found_of_pathTo {fuel : ℕ} {id : Ident}
    (h : pathTo (buildEntryIndex entries) fuel (lookup (buildEntryIndex entries) id) = some path) :
    (∀ entry ∈ path, Found entries entry) ∧ (path.map (·.id)).Nodup := by
  cases hleaf : lookup (buildEntryIndex entries) id with
  | none =>
    rw [hleaf] at h
    cases h
    exact ⟨fun _ hmem => (by cases hmem), nodup_nil⟩
  | some leaf =>
    rw [hleaf, pathTo] at h
    obtain ⟨way, hway, rfl⟩ := Option.map_eq_some_iff.mp h
    have hwalks := Links.walks_of_walk hway
    have hfound : ∀ entry ∈ way.reverse, Found entries entry := fun entry hmem =>
      found_of_walks hwalks (found_of_lookup hleaf) entry (mem_reverse.mp hmem)
    refine ⟨hfound, List.Nodup.map_on (fun entry hmem other hother heq => ?_)
      (nodup_reverse.mpr hwalks.nodup)⟩
    have hget := (hfound entry hmem).2
    rw [heq, (hfound other hother).2] at hget
    exact (Option.some.inj hget).symm

theorem chained_append_iff (parentId : Ident) (front back : Entries ρ) :
    Chained parentId (front ++ back) ↔
      Chained parentId front ∧ Chained ((front.getLast?.map (·.id)).getD parentId) back := by
  induction front generalizing parentId with
  | nil => exact ⟨fun h => ⟨trivial, h⟩, fun h => h.2⟩
  | cons entry front ih =>
    rw [cons_append, Chained, Chained, ih, getLast?_cons, and_assoc]
    cases front.getLast? <;> rfl

theorem lastEntryId_eq {kept : Entries ρ} (h : ∀ entry ∈ kept, entry.id.truthy = true) :
    lastEntryId kept = (kept.getLast?.map (·.id)).getD .null := by
  rw [lastEntryId]
  cases hlast : kept.getLast? with
  | none => rfl
  | some last => exact if_pos (h last (mem_of_getLast? hlast))

end

/-! ### Runs of a manager -/

/-- `_appendEntry`, the entry written or taken back. -/
def SessionManager.appendEntry (m : SessionManager ρ) (entry : SessionEntry ρ) (written : Bool) :
    SessionManager ρ :=
  let added : SessionManager ρ := { m with
    fileEntries := m.fileEntries ++ [.entry entry]
    byId := Assoc.set entry.id entry m.byId
    leafId := entry.id }
  if written then added
  else { added with
    fileEntries := added.fileEntries.dropLast
    byId := Assoc.erase entry.id added.byId
    leafId := m.leafId }

def SessionManager.nextId (m : SessionManager ρ) (randomUUID : ℕ → Uuid) : Ident :=
  (generateId randomUUID (fun id => (Assoc.get id m.byId).isSome) 0).1

/-- `appendLabelChange`, once the target is found. -/
def SessionManager.appendLabelChange (m : SessionManager ρ) (randomUUID : ℕ → Uuid)
    (targetId : Ident) (timestamp : Text) (label : Option Text) (written : Bool) :
    SessionManager ρ :=
  let appended := m.appendEntry
    ⟨m.nextId randomUUID, m.leafId, timestamp, .label targetId label⟩ written
  if written then { appended with labels := appended.labels.change targetId timestamp label }
  else appended

inductive ManagerOp (ρ : Type)
  | load (sessionId : Text) (sessionFile : Option Text) (lock : Option ℕ) (flushed : Bool)
      (fileEntries : List (FileEntry ρ))
  | append (randomUUID : ℕ → Uuid) (timestamp : Text) (body : Body ρ) (written : Bool)
  | appendLabelChange (randomUUID : ℕ → Uuid) (targetId : Ident) (timestamp : Text)
      (label : Option Text) (written : Bool)
  /-- `branch` and `resetLeaf` -/
  | moveLeaf (leafId : Ident)
  | createBranchedSession (steps : BranchSteps) (randomUUID : ℕ → Uuid) (sessionId timestamp : Text)
      (leafId : Ident) (fuel : ℕ)

/-- What an operation leaves; the ids drawn for an append are new. -/
def ManagerStep (m : SessionManager ρ) : ManagerOp ρ → SessionManager ρ → Prop
  | .load sessionId sessionFile lock flushed fileEntries, m' =>
    m' = { ({ m with
      sessionId := sessionId
      sessionFile := sessionFile
      lock := lock
      fileEntries := fileEntries } : SessionManager ρ).buildIndex with flushed := flushed }
  | .append randomUUID timestamp body written, m' =>
    NewDraws randomUUID 0 101 (Assoc.keys m.byId) ∧
      (∀ targetId label, body ≠ .label targetId label) ∧
      m' = m.appendEntry ⟨m.nextId randomUUID, m.leafId, timestamp, body⟩ written
  | .appendLabelChange randomUUID targetId timestamp label written, m' =>
    NewDraws randomUUID 0 101 (Assoc.keys m.byId) ∧
      m' = m.appendLabelChange randomUUID targetId timestamp label written
  | .moveLeaf leafId, m' =>
    (leafId = .null ∨ (Assoc.get leafId m.byId).isSome) ∧ m' = { m with leafId := leafId }
  | .createBranchedSession steps randomUUID sessionId timestamp leafId fuel, m' =>
    ∃ result, createBranchedSession steps randomUUID sessionId timestamp leafId fuel m =
      some result ∧ m' = result.manager

/-- The manager of a session: it starts with entries loaded or none. -/
def managerSystem (ρ : Type) : System (SessionManager ρ) (ManagerOp ρ) where
  init m := ∃ loaded : SessionManager ρ, m = loaded.buildIndex
  step := ManagerStep

/-- The index and the labels are those of the entries. -/
structure Indexed (m : SessionManager ρ) : Prop where
  byId : m.byId = buildEntryIndex (sessionEntries m.fileEntries)
  labels : m.labels = resolveLabels (sessionEntries m.fileEntries)

section

variable {m : SessionManager ρ}

theorem buildIndex_indexed (m : SessionManager ρ) : Indexed m.buildIndex := ⟨rfl, rfl⟩

theorem sessionEntries_concat (fileEntries : List (FileEntry ρ)) (entry : SessionEntry ρ) :
    sessionEntries (fileEntries ++ [.entry entry]) = sessionEntries fileEntries ++ [entry] := by
  rw [sessionEntries, filterMap_append]
  rfl

theorem sessionEntries_map (entries : Entries ρ) :
    sessionEntries (entries.map FileEntry.entry) = entries := by
  rw [sessionEntries, filterMap_map]
  exact filterMap_some

variable {randomUUID : ℕ → Uuid}

theorem SessionManager.nextId_new (h : NewDraws randomUUID 0 101 (Assoc.keys m.byId)) :
    (m.nextId randomUUID).truthy = true ∧ Assoc.get (m.nextId randomUUID) m.byId = none := by
  have hdrawn := @generateId_new _ _ _ (Assoc.keys m.byId) _
    (fun id (hid : (Assoc.get id m.byId).isSome = false) =>
      (Assoc.get_eq_none_iff id m.byId).mp (Option.isNone_iff_eq_none.mp
        (by rw [← Option.not_isSome, hid]; rfl))) h le_rfl
  exact ⟨hdrawn.2.1, (Assoc.get_eq_none_iff _ _).mpr hdrawn.1⟩

variable {entry : SessionEntry ρ}

theorem SessionManager.appendEntry_undone (hnew : Assoc.get entry.id m.byId = none) :
    m.appendEntry entry false = m := by
  rw [appendEntry]
  dsimp only
  rw [if_neg Bool.false_ne_true, dropLast_concat, Assoc.erase_set hnew]

theorem Indexed.appendEntry (h : Indexed m)
    (hbody : ∀ targetId label, entry.body ≠ .label targetId label)
    (hnew : Assoc.get entry.id m.byId = none) (written : Bool) :
    Indexed (m.appendEntry entry written) := by
  cases written with
  | false =>
    rw [SessionManager.appendEntry_undone hnew]
    exact h
  | true =>
    refine ⟨?_, ?_⟩
    · change Assoc.set entry.id entry m.byId =
        buildEntryIndex (sessionEntries (m.fileEntries ++ [.entry entry]))
      rw [sessionEntries_concat, buildEntryIndex, foldl_append, h.byId]
      rfl
    · change m.labels = resolveLabels (sessionEntries (m.fileEntries ++ [.entry entry]))
      rw [sessionEntries_concat, resolveLabels, foldl_append, h.labels]
      obtain ⟨_, _, _, body⟩ := entry
      cases body with
      | label targetId label => exact absurd rfl (hbody targetId label)
      | _ => rfl

theorem Indexed.appendLabelChange (h : Indexed m)
    (hnew : Assoc.get (m.nextId randomUUID) m.byId = none) (targetId : Ident) (timestamp : Text)
    (label : Option Text) (written : Bool) :
    Indexed (m.appendLabelChange randomUUID targetId timestamp label written) := by
  cases written with
  | false =>
    have hundone := @SessionManager.appendEntry_undone _ m
      ⟨m.nextId randomUUID, m.leafId, timestamp, .label targetId label⟩ hnew
    rw [SessionManager.appendLabelChange, hundone]
    exact h
  | true =>
    refine ⟨?_, ?_⟩
    · change Assoc.set _ _ m.byId = buildEntryIndex (sessionEntries (m.fileEntries ++ [.entry _]))
      rw [sessionEntries_concat, buildEntryIndex, foldl_append, h.byId]
      rfl
    · change m.labels.change targetId timestamp label =
        resolveLabels (sessionEntries (m.fileEntries ++ [.entry _]))
      rw [sessionEntries_concat, resolveLabels, foldl_append, h.labels]
      rfl

theorem Indexed.restore (h : Indexed m) {other : SessionManager ρ} (hcwd : other.cwd = m.cwd)
    (hpersist : other.persist = m.persist) : other.restore m = m := by
  obtain ⟨hbyId, hlabels⟩ := h
  obtain ⟨sessionId, sessionFile, cwd, persist, flushed, fileEntries, byId, labels, leafId, lock⟩ := m
  dsimp only at hbyId hlabels hcwd hpersist
  rw [SessionManager.restore, SessionManager.buildIndex]
  dsimp only
  rw [hcwd, hpersist, hbyId, hlabels]

end

/-! ### What an extraction leaves -/

/-- No step behind the walk fails; the last ones are for a conversation. -/
def BranchSteps.Succeed (steps : BranchSteps) (conversation : Bool) : Prop :=
  steps.newSessionFile.isSome = true ∧ steps.lock.isSome = true ∧ steps.fileExists = false ∧
    (conversation = true → steps.stillWritable = true ∧ steps.written = true)

/-- A leaf's id as `buildSessionPath` reads it. -/
def LeafId.ofIdent : Ident → LeafId
  | .undefined => .undefined
  | .null => .null
  | .string text => .of (.string text)
  | .other truthy identity => .of (.other truthy identity)

/-- `buildSessionProjection` of a manager. -/
def SessionManager.projection (getTime : Text → Option ℤ) (fuel : ℕ) (m : SessionManager ρ) :
    Option (SessionProjection ρ) :=
  (pathTo m.byId fuel ((LeafId.ofIdent m.leafId).entry (sessionEntries m.fileEntries) m.byId)).map
    (projectPath getTime)

structure Extracts (getTime : Text → Option ℤ) (m : SessionManager ρ) (path : Entries ρ)
    (m' : SessionManager ρ) : Prop where
  context : ∀ fuel, (sessionEntries m'.fileEntries).length ≤ fuel →
    ∃ context, m'.projection getTime fuel = some context ∧
      context.messages = (projectPath getTime path).messages ∧
      context.settings = (projectPath getTime path).settings
  /-- The entries that are no labels are those of the path, in its order. -/
  retained : bareStaying (sessionEntries m'.fileEntries) = bareStaying path
  distinct : ((sessionEntries m'.fileEntries).map (·.id)).Nodup
  parents : Chained .null (sessionEntries m'.fileEntries)
  labels : ∀ entry ∈ path, entry.stays = true →
    Assoc.get entry.id m'.labels.labelsById = Assoc.get entry.id m.labels.labelsById
  indexed : Indexed m'

section

variable {m : SessionManager ρ} {path : Entries ρ} {randomUUID : ℕ → Uuid}

def branchEntries (randomUUID : ℕ → Uuid) (m : SessionManager ρ) (path : Entries ρ) :
    Entries ρ :=
  pathWithoutLabels path ++ persistedLabelEntries randomUUID ((pathWithoutLabels path).map (·.id)) 0
    (lastEntryId (pathWithoutLabels path))
    (labelsToWrite m.labels ((pathWithoutLabels path).map (·.id)))

theorem pathWithoutLabels_ids (path : Entries ρ) :
    (pathWithoutLabels path).map (·.id) = (path.filter SessionEntry.stays).map (·.id) := by
  have hids : ∀ entries : Entries ρ,
      (entries.map SessionEntry.bare).map (·.id) = entries.map (·.id) := fun entries => by
    rw [map_map]
    rfl
  rw [← hids, pathWithoutLabels_bare, bareStaying, hids]

theorem LeafId.ofIdent_of_truthy {id : Ident} (h : id.truthy = true) :
    LeafId.ofIdent id = .of id := by
  cases id with
  | undefined => cases h
  | null => cases h
  | string text => rfl
  | other truthy identity => rfl

theorem IsChain.leaf {entries : Entries ρ} (h : IsChain .null entries) :
    (LeafId.ofIdent ((entries.getLast?.map (·.id)).getD .null)).entry entries
      (buildEntryIndex entries) = entries.getLast? := by
  cases hlast : entries.getLast? with
  | none => rfl
  | some last =>
    have hmem := mem_of_getLast? hlast
    rw [Option.map_some, Option.getD_some, LeafId.ofIdent_of_truthy (h.truthy last hmem),
      LeafId.entry, lookup, if_pos (h.truthy last hmem), get_index_of_distinct h.distinct hmem]
    rfl

variable {m' : SessionManager ρ}

theorem extracts_branchEntries (getTime : Text → Option ℤ) {draws : ℕ} (hm : m.labels.Resolved)
    (hids : (path.map (·.id)).Nodup) (htruthy : ∀ entry ∈ path, entry.id.truthy = true)
    (hnew : NewDraws randomUUID 0 draws (path.map (·.id)))
    (hdraws : 101 * m.labels.labelsById.length ≤ draws) (hm' : Indexed m')
    (hentries : sessionEntries m'.fileEntries = branchEntries randomUUID m path)
    (hleaf : m'.leafId = ((branchEntries randomUUID m path).getLast?.map (·.id)).getD .null) :
    Extracts getTime m path m' := by
  have hkeptIds := pathWithoutLabels_ids path
  have hsublist : ((pathWithoutLabels path).map (·.id)).Sublist (path.map (·.id)) := by
    rw [hkeptIds]
    exact List.Sublist.map _ filter_sublist
  have hkeptTruthy : ∀ entry ∈ pathWithoutLabels path, entry.id.truthy = true := by
    intro entry hmem
    have hid := hsublist.mem (mem_map_of_mem hmem)
    obtain ⟨other, hother, heq⟩ := mem_map.mp hid
    rw [← heq]
    exact htruthy other hother
  have hlength : (labelsToWrite m.labels ((pathWithoutLabels path).map (·.id))).length ≤
      m.labels.labelsById.length := by
    rw [labelsToWrite, length_map]
    exact length_filter_le _ _
  have hrelabels := @persistedLabelEntries_relabels ρ randomUUID 0 draws
    ((pathWithoutLabels path).map (·.id)) (lastEntryId (pathWithoutLabels path))
    (labelsToWrite m.labels ((pathWithoutLabels path).map (·.id)))
    ⟨hnew.distinct, fun k hk hlt hmem => hnew.fresh k hk hlt (hsublist.mem hmem)⟩
    (by omega) (hsublist.nodup hids)
  have hlabels : ∀ entry ∈ @persistedLabelEntries ρ randomUUID ((pathWithoutLabels path).map (·.id)) 0
      (lastEntryId (pathWithoutLabels path))
      (labelsToWrite m.labels ((pathWithoutLabels path).map (·.id))), entry.stays = false := by
    intro entry hmem
    have hbody := @mem_map_of_mem _ _ _ _ (fun entry => (entry.body, entry.timestamp)) hmem
    rw [hrelabels.bodies] at hbody
    obtain ⟨label, -, heq⟩ := mem_map.mp hbody
    obtain ⟨_, _, _, body⟩ := entry
    obtain ⟨rfl, -⟩ := Prod.mk.inj heq
    rfl
  have hdistinct : ((branchEntries randomUUID m path).map (·.id)).Nodup := by
    rw [branchEntries, map_append]
    exact hrelabels.distinct
  have hchained : Chained .null (branchEntries randomUUID m path) := by
    rw [branchEntries, chained_append_iff, ← lastEntryId_eq hkeptTruthy]
    exact ⟨pathWithoutLabels_chained path, hrelabels.chained⟩
  have hchain : IsChain .null (branchEntries randomUUID m path) :=
    ⟨hchained, fun h => (by cases h), hdistinct, fun entry hmem => by
      rcases mem_append.mp hmem with hmem | hmem
      · exact hkeptTruthy entry hmem
      · exact hrelabels.truthy entry hmem⟩
  refine ⟨fun fuel hfuel => ?_, ?_, ?_, ?_, fun entry hmem hstays => ?_, hm'⟩
  · rw [hentries] at hfuel
    refine ⟨projectPath getTime (branchEntries randomUUID m path), ?_,
      branch_messages getTime hids hlabels hdistinct, branch_settings hlabels⟩
    rw [SessionManager.projection, hm'.byId, hentries, hleaf, hchain.leaf, hchain.pathTo hfuel]
    rfl
  · rw [hentries, branchEntries, bareStaying_append, bareStaying_of_labels hlabels, append_nil,
      bareStaying_of_stays (pathWithoutLabels_stays path), pathWithoutLabels_bare]
  · rw [hentries]
    exact hdistinct
  · rw [hentries]
    exact hchained
  · rw [hm'.labels, hentries, branchEntries]
    refine labelsById_relabels hm (pathWithoutLabels_stays path) hrelabels ?_
    rw [hkeptIds]
    exact mem_map_of_mem (mem_filter.mpr ⟨hmem, hstays⟩)

theorem enter_spec (m : SessionManager ρ) (sessionId newSessionFile : Text) (lock : ℕ)
    (header : SessionHeader) (entries : Entries ρ) :
    sessionEntries (m.enter sessionId newSessionFile lock
        (.session header :: entries.map FileEntry.entry)).fileEntries = entries ∧
      (m.enter sessionId newSessionFile lock
        (.session header :: entries.map FileEntry.entry)).leafId =
        (entries.getLast?.map (·.id)).getD .null := by
  have hentries : sessionEntries (.session header :: entries.map FileEntry.entry) = entries :=
    sessionEntries_map entries
  refine ⟨hentries, ?_⟩
  change ((sessionEntries (.session header :: entries.map FileEntry.entry)).getLast?.map
    (·.id)).getD .null = _
  rw [hentries]

def SessionManager.entered (m : SessionManager ρ) (randomUUID : ℕ → Uuid)
    (sessionId timestamp newSessionFile : Text) (lock : ℕ) (path : Entries ρ) :
    SessionManager ρ :=
  m.enter sessionId newSessionFile lock (.session (m.newHeader sessionId timestamp) ::
    (branchEntries randomUUID m path).map FileEntry.entry)

theorem sessionEntries_header (header : SessionHeader) (entries : Entries ρ) :
    sessionEntries (.session header :: entries.map FileEntry.entry) = entries :=
  sessionEntries_map entries

theorem entered_hasConversation (sessionId timestamp newSessionFile : Text) (lock : ℕ) :
    (m.entered randomUUID sessionId timestamp newSessionFile lock path).hasConversation =
      (branchEntries randomUUID m path).any SessionEntry.isConversation :=
  congrArg (any · SessionEntry.isConversation) (sessionEntries_header _ _)

theorem branchPersisted_cases (hm : Indexed m) (steps : BranchSteps) (sessionId timestamp : Text) :
    (branchPersisted steps randomUUID sessionId timestamp path m = ⟨false, m⟩ ∧
      ¬ steps.Succeed ((branchEntries randomUUID m path).any SessionEntry.isConversation)) ∨
    ∃ newSessionFile lock flushed,
      branchPersisted steps randomUUID sessionId timestamp path m =
        ⟨true, { m.entered randomUUID sessionId timestamp newSessionFile lock path with
          flushed := flushed }⟩ ∧
      steps.Succeed ((branchEntries randomUUID m path).any SessionEntry.isConversation) := by
  cases hfile : steps.newSessionFile with
  | none =>
    refine .inl ⟨?_, fun h => ?_⟩
    · rw [branchPersisted, hfile]
    · have hsome := h.1
      rw [hfile] at hsome
      cases hsome
  | some newSessionFile =>
    cases hlock : steps.lock with
    | none =>
      refine .inl ⟨?_, fun h => ?_⟩
      · rw [branchPersisted, hfile]
        dsimp only
        rw [hlock]
      · have hsome := h.2.1
        rw [hlock] at hsome
        cases hsome
    | some lock =>
      have hbranch : branchPersisted steps randomUUID sessionId timestamp path m =
          if steps.fileExists then ⟨false, m.restore m⟩
          else if (m.entered randomUUID sessionId timestamp newSessionFile lock path).hasConversation
          then
            if steps.stillWritable ∧ steps.written then
              ⟨true, { m.entered randomUUID sessionId timestamp newSessionFile lock path with
                flushed := true }⟩
            else ⟨false,
              (m.entered randomUUID sessionId timestamp newSessionFile lock path).restore m⟩
          else ⟨true, m.entered randomUUID sessionId timestamp newSessionFile lock path⟩ := by
        rw [branchPersisted, hfile]
        dsimp only
        rw [hlock]
        rfl
      rw [hbranch, entered_hasConversation]
      have hsteps : steps.newSessionFile.isSome = true ∧ steps.lock.isSome = true := by
        rw [hfile, hlock]
        exact ⟨rfl, rfl⟩
      cases hexists : steps.fileExists with
      | true =>
        refine .inl ⟨congrArg (Branched.mk false) (hm.restore rfl rfl), fun h => ?_⟩
        have hfree := h.2.2.1
        rw [hexists] at hfree
        cases hfree
      | false =>
        rw [if_neg Bool.false_ne_true]
        by_cases hany : (branchEntries randomUUID m path).any SessionEntry.isConversation = true
        · rw [if_pos hany]
          by_cases hwritten : steps.stillWritable = true ∧ steps.written = true
          · rw [if_pos hwritten]
            exact .inr ⟨newSessionFile, lock, true, rfl, hsteps.1, hsteps.2, hexists,
              fun _ => hwritten⟩
          · rw [if_neg hwritten]
            exact .inl ⟨congrArg (Branched.mk false) (hm.restore rfl rfl), fun h =>
              hwritten (h.2.2.2 hany)⟩
        · rw [if_neg hany]
          exact .inr ⟨newSessionFile, lock, false, rfl, hsteps.1, hsteps.2, hexists, fun h =>
            absurd h hany⟩

theorem branchInMemory_spec (sessionId timestamp : Text) :
    (branchInMemory randomUUID sessionId timestamp path m).returned = true ∧
      Indexed (branchInMemory randomUUID sessionId timestamp path m).manager ∧
      sessionEntries (branchInMemory randomUUID sessionId timestamp path m).manager.fileEntries =
        branchEntries randomUUID m path ∧
      (branchInMemory randomUUID sessionId timestamp path m).manager.leafId =
        ((branchEntries randomUUID m path).getLast?.map (·.id)).getD .null := by
  have hentries : sessionEntries
      (branchInMemory randomUUID sessionId timestamp path m).manager.fileEntries =
      branchEntries randomUUID m path := by
    refine (sessionEntries_header _ _).trans ?_
    rw [inMemoryLabelEntries_eq, map_nil, append_nil]
    rfl
  refine ⟨rfl, ⟨rfl, rfl⟩, hentries, ?_⟩
  rw [← hentries]
  rfl

theorem branchPath_indexed (hm : Indexed m) (steps : BranchSteps) (sessionId timestamp : Text) :
    Indexed (branchPath steps randomUUID sessionId timestamp path m).manager := by
  rw [branchPath]
  by_cases hnil : path = []
  · rw [if_pos hnil]
    exact hm
  · rw [if_neg hnil]
    by_cases hpersist : m.persist = true
    · rw [if_pos hpersist]
      rcases @branchPersisted_cases _ m path randomUUID hm steps sessionId timestamp with
        ⟨hbranch, -⟩ | ⟨newSessionFile, lock, flushed, hbranch, -⟩
      · rw [hbranch]
        exact hm
      · rw [hbranch]
        exact ⟨rfl, rfl⟩
    · rw [if_neg hpersist]
      exact ⟨rfl, rfl⟩

theorem Indexed.step (h : Indexed m) {op : ManagerOp ρ} (hstep : ManagerStep m op m') :
    Indexed m' := by
  cases op with
  | load sessionId sessionFile lock flushed fileEntries =>
    cases hstep
    exact ⟨rfl, rfl⟩
  | append randomUUID timestamp body written =>
    obtain ⟨hnew, hbody, rfl⟩ := hstep
    exact h.appendEntry hbody (SessionManager.nextId_new hnew).2 written
  | appendLabelChange randomUUID targetId timestamp label written =>
    obtain ⟨hnew, rfl⟩ := hstep
    exact h.appendLabelChange (SessionManager.nextId_new hnew).2 targetId timestamp label written
  | moveLeaf leafId =>
    obtain ⟨-, rfl⟩ := hstep
    exact ⟨h.byId, h.labels⟩
  | createBranchedSession steps randomUUID sessionId timestamp leafId fuel =>
    obtain ⟨result, hresult, rfl⟩ := hstep
    rw [createBranchedSession] at hresult
    split_ifs at hresult
    · cases hresult
      exact h
    · obtain ⟨path, -, rfl⟩ := Option.map_eq_some_iff.mp hresult
      exact branchPath_indexed h steps sessionId timestamp

theorem indexed_of_reachable (h : (managerSystem ρ).Reachable m) : Indexed m := by
  refine h.invariant ?_ fun s op t hs _ hstep => hs.step hstep
  rintro s ⟨loaded, rfl⟩
  exact buildIndex_indexed loaded

/-- Extracting the branch of a leaf: it ends, a failed one leaves the manager as it was, and one that
returns, as it does when no step fails, has the model context of the path. -/
theorem createBranchedSession_extracts (getTime : Text → Option ℤ)
    (hm : (managerSystem ρ).Reachable m) (steps : BranchSteps) (sessionId timestamp : Text)
    {leafId : Ident} {fuel : ℕ} (hpath : pathTo m.byId fuel (lookup m.byId leafId) = some path)
    (hnew : NewDraws randomUUID 0 (101 * m.labels.labelsById.length) (path.map (·.id))) :
    ∃ result,
      createBranchedSession steps randomUUID sessionId timestamp leafId fuel m = some result ∧
      (result.returned = false → result.manager = m) ∧
      (result.returned = true → Extracts getTime m path result.manager) ∧
      (result.returned = true ↔ path ≠ [] ∧ (m.persist = true → steps.writable = true ∧
        steps.Succeed ((branchEntries randomUUID m path).any SessionEntry.isConversation))) := by
  have hindexed := indexed_of_reachable hm
  have hfound := hpath
  rw [hindexed.byId] at hfound
  obtain ⟨hfound, hids⟩ := found_of_pathTo hfound
  have hresolved : m.labels.Resolved := by
    rw [hindexed.labels]
    exact resolveLabels_resolved _
  have hextracts : ∀ m', Indexed m' →
      sessionEntries m'.fileEntries = branchEntries randomUUID m path →
      m'.leafId = ((branchEntries randomUUID m path).getLast?.map (·.id)).getD .null →
      Extracts getTime m path m' := fun m' hm' hentries hleaf =>
    extracts_branchEntries getTime hresolved hids (fun entry hmem => (hfound entry hmem).1) hnew
      le_rfl hm' hentries hleaf
  rw [createBranchedSession]
  by_cases hwritable : m.persist = true ∧ (!steps.writable) = true
  · rw [if_pos hwritable]
    refine ⟨_, rfl, fun _ => rfl, fun h => (by cases h), fun h => (by cases h), fun h => ?_⟩
    have hnot := hwritable.2
    rw [(h.2 hwritable.1).1] at hnot
    cases hnot
  · rw [if_neg hwritable, hpath]
    refine ⟨branchPath steps randomUUID sessionId timestamp path m, rfl, ?_⟩
    rw [branchPath]
    by_cases hnil : path = []
    · rw [if_pos hnil]
      exact ⟨fun _ => rfl, fun h => (by cases h), fun h => (by cases h), fun h => absurd hnil h.1⟩
    · rw [if_neg hnil]
      by_cases hpersist : m.persist = true
      · have hwritable' : steps.writable = true := by
          cases hw : steps.writable with
          | true => rfl
          | false => exact absurd ⟨hpersist, by rw [hw]; rfl⟩ hwritable
        rw [if_pos hpersist]
        rcases @branchPersisted_cases _ m path randomUUID hindexed steps sessionId timestamp with
          ⟨hbranch, hfailed⟩ | ⟨newSessionFile, lock, flushed, hbranch, hsucceed⟩
        · rw [hbranch]
          exact ⟨fun _ => rfl, fun h => (by cases h), fun h => (by cases h), fun h =>
            absurd (h.2 hpersist).2 hfailed⟩
        · rw [hbranch]
          obtain ⟨hentries, hleaf⟩ := enter_spec m sessionId newSessionFile lock
            (m.newHeader sessionId timestamp) (branchEntries randomUUID m path)
          exact ⟨fun h => (by cases h), fun _ => hextracts _ ⟨rfl, rfl⟩ hentries hleaf,
            fun _ => ⟨hnil, fun _ => ⟨hwritable', hsucceed⟩⟩, fun _ => rfl⟩
      · rw [if_neg hpersist]
        obtain ⟨hreturned, hindexed', hentries, hleaf⟩ := @branchInMemory_spec _ m path randomUUID
          sessionId timestamp
        refine ⟨fun h => ?_, fun _ => hextracts _ hindexed' hentries hleaf,
          fun _ => ⟨hnil, fun h => absurd h hpersist⟩, fun _ => hreturned⟩
        rw [hreturned] at h
        cases h

end

/-- A question, a label on it, a compaction that keeps from the label, and an answer. -/
def labelledEntries : Entries Unit :=
  [⟨.string [97], .null, [], .message ⟨.user, .text [104], .other (), none⟩⟩, ⟨.string [108],
    .string [97], [], .label (.string [97]) (some [120])⟩, ⟨.string [99], .string [108], [],
    .compaction ⟨[115], .string [108], none, 1, none, ()⟩⟩, ⟨.string [98], .string [99], [],
    .message ⟨.assistant, .text [105], .assistant [112] [109] (), none⟩⟩]

def labelledSession : SessionManager Unit :=
  ({ sessionId := [49]
     sessionFile := some [102]
     cwd := [47]
     persist := true
     flushed := true
     fileEntries := .session ⟨some 3, [49], [], [47], none⟩ :: labelledEntries.map FileEntry.entry
     byId := []
     labels := ⟨[], []⟩
     leafId := .null
     lock := some 0 } : SessionManager Unit).buildIndex

/-- A random source that counts. -/
def countedUuid (n : ℕ) : Uuid :=
  ⟨UInt16.ofNat n :: replicate 35 0, rfl⟩

theorem countedUuid_new {ids : List Ident} (h : ∀ id ∈ ids, ∃ c, id = .string [c]) :
    NewDraws countedUuid 0 101 ids := by
  refine ⟨fun j k hlt hk heq => ?_, fun k _ _ hmem => ?_⟩
  · have hhead := congrArg UInt16.toNat (cons.inj (Subtype.ext_iff.mp heq)).1
    rw [UInt16.toNat_ofNat', UInt16.toNat_ofNat', Nat.mod_eq_of_lt (by omega),
      Nat.mod_eq_of_lt (by omega)] at hhead
    omega
  · obtain ⟨c, hc⟩ := h _ hmem
    cases congrArg length (Ident.string.inj hc)

/-- A branch that its file takes in full is returned. -/
theorem extracts_labelledSession : ∃ result,
    createBranchedSession ⟨true, some [103], some 1, false, true, true⟩ countedUuid [50] []
      (.string [98]) 4 labelledSession = some result ∧
    result.returned = true ∧ Extracts (fun _ => none) labelledSession labelledEntries
      result.manager := by
  obtain ⟨result, hresult, -, hextracts, hiff⟩ := createBranchedSession_extracts (fun _ => none)
    ⟨labelledSession, ⟨_, rfl⟩, .refl _⟩ ⟨true, some [103], some 1, false, true, true⟩ [50] []
    (show pathTo labelledSession.byId 4 (lookup labelledSession.byId (.string [98])) =
      some labelledEntries from rfl) (countedUuid_new (by simp [labelledEntries]))
  have hreturned := hiff.mpr ⟨cons_ne_nil _ _, fun _ => ⟨rfl, rfl, rfl, rfl, fun _ => ⟨rfl, rfl⟩⟩⟩
  exact ⟨result, hresult, hreturned, hextracts hreturned⟩

end KnightCode.Session
