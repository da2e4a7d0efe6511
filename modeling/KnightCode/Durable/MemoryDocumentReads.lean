import KnightCode.Durable.MemoryDocumentRuns

/-!
# Documents and the batches as written

What the gathered actions of a batch do to a document is what its writes say of it, a copy bringing
what its source held by the batches before; so the reads of documents agree with the accepted
batches.
-/

namespace KnightCode.Memory

open List Option SortedIds State Except

variable {ρ : Type}

namespace State

/-! ### Writes and actions -/

/-- An action has what some deeds say together. -/
structure Gathers (action : Option DocumentAction) (said : List DocumentAction) : Prop where
  create : said.findSome? (·.create) = action.bind (·.create)
  content : said.filterMap (·.content) = (action.bind (·.content)).toList
  retire : said.any (·.retire) = action.any (·.retire)

section

variable {held : DocumentCopySource → Option (ℤ × Delta.Json)} {said : ℤ → List DocumentAction}
  {actions actions' : DocumentActions} {writes : Writes ρ}

def IsCopy : StorageWrite ρ → Prop
  | .copy .. => True
  | _ => False

theorem Gathers.getD {action : Option DocumentAction} {said : List DocumentAction}
    (h : Gathers action said) : Gathers (some (action.getD ⟨none, none, false⟩)) said := by
  cases action with
  | none => exact ⟨h.create, h.content, h.retire⟩
  | some action => exact h

theorem Gathers.set {id : ℤ} {action deed : DocumentAction}
    (h : ∀ id, Gathers (Assoc.get id actions) (said id))
    (hdeed : Gathers (some action) (said id ++ [deed])) (id' : ℤ) :
    Gathers (Assoc.get id' (Assoc.set id action actions))
      (said id' ++ (if id = id' then some deed else none).toList) := by
  rw [Assoc.get_set]
  split_ifs with heq
  · exact heq ▸ hdeed
  · rw [toList_none, append_nil]
    exact h id'

theorem addAction_gathers (h : ∀ id, Gathers (Assoc.get id actions) (said id))
    {write : StorageWrite ρ} (hcopy : ¬ IsCopy write) (hadd : addAction actions write = .ok actions')
    (id : ℤ) : Gathers (Assoc.get id actions') (said id ++ (write.deed held id).toList) := by
  have hnone : Gathers (Assoc.get id actions) (said id ++ (none : Option DocumentAction).toList) := by
    rw [toList_none, append_nil]
    exact h id
  cases write with
  | copy record source => exact absurd trivial hcopy
  | create record version value =>
    rw [addAction] at hadd
    split_ifs at hadd with hbusy
    rw [← ok.inj hadd]
    obtain ⟨hcreate, hcontent, hretire⟩ := (h record.id).getD
    rw [Bool.or_eq_true, not_or, not_isSome_iff_eq_none, not_isSome_iff_eq_none] at hbusy
    rw [bind_some, hbusy.1] at hcreate
    rw [bind_some, hbusy.2] at hcontent
    refine Gathers.set h ⟨?_, ?_, ?_⟩ id
    · rw [findSome?_append, hcreate]
      rfl
    · rw [filterMap_append, hcontent]
      rfl
    · rw [any_append, hretire]
      exact Bool.or_false _
  | change id' content =>
    rw [addAction] at hadd
    split_ifs at hadd with hbusy
    rw [← ok.inj hadd]
    obtain ⟨hcreate, hcontent, hretire⟩ := (h id').getD
    rw [bind_some, not_isSome_iff_eq_none.mp hbusy] at hcontent
    refine Gathers.set h ⟨?_, ?_, ?_⟩ id
    · rw [findSome?_append, hcreate]
      exact or_none
    · rw [filterMap_append, hcontent]
      rfl
    · rw [any_append, hretire]
      exact Bool.or_false _
  | retire id' =>
    rw [addAction] at hadd
    split_ifs at hadd with hbusy
    rw [← ok.inj hadd]
    obtain ⟨hcreate, hcontent, -⟩ := (h id').getD
    refine Gathers.set h ⟨?_, ?_, ?_⟩ id
    · rw [findSome?_append, hcreate]
      exact or_none
    · rw [filterMap_append, hcontent]
      exact append_nil _
    · rw [any_append]
      exact Bool.or_true _
  | _ => exact ok.inj hadd ▸ hnone

theorem foldlM_gathers (h : ∀ id, Gathers (Assoc.get id actions) (said id))
    (hcopies : ∀ write ∈ writes, ¬ IsCopy write)
    (hgather : writes.foldlM addAction actions = .ok actions') (id : ℤ) :
    Gathers (Assoc.get id actions') (said id ++ writes.filterMap (·.deed held id)) := by
  induction writes generalizing actions said with
  | nil =>
    cases hgather
    rw [filterMap_nil, append_nil]
    exact h id
  | cons write writes ih =>
    rw [foldlM_cons] at hgather
    obtain ⟨next, hadd, hrest⟩ := bind_eq_ok hgather
    have hnext := ih (fun id => @addAction_gathers ρ held said actions next h write
      (hcopies write mem_cons_self) hadd id)
      (fun write hmem => hcopies write (mem_cons_of_mem _ hmem)) hrest
    rw [append_assoc] at hnext
    rw [filterMap_cons]
    cases hdeed : write.deed held id with
    | none | some deed =>
      rw [hdeed] at hnext
      exact hnext

end

/-- Two accounts of a document that agree up to every point. -/
structure Alike (told acts : DocumentActions) : Prop where
  create : ∀ p : ℤ → Bool,
    (told.filter (p ·.1)).findSome? (fun deed => deed.2.create.map (deed.1, ·)) =
      (acts.filter (p ·.1)).findSome? (fun deed => deed.2.create.map (deed.1, ·))
  retire : ∀ p : ℤ → Bool,
    (told.filter (p ·.1)).findSome? (fun deed => if deed.2.retire then some deed.1 else none) =
      (acts.filter (p ·.1)).findSome? fun deed => if deed.2.retire then some deed.1 else none
  content : ∀ p : ℤ → Bool,
    (told.filter (p ·.1)).filterMap (·.2.content) = (acts.filter (p ·.1)).filterMap (·.2.content)

variable {told acts told' acts' : DocumentActions}

theorem Alike.incarnation (h : Alike told acts) (p : ℤ → Bool) :
    incarnation (told.filter (p ·.1)) = incarnation (acts.filter (p ·.1)) := by
  rw [Memory.incarnation, Memory.incarnation, h.create p, h.retire p]

theorem Alike.incarnation_all (h : Alike told acts) :
    Memory.incarnation told = Memory.incarnation acts := by
  have hall := h.incarnation fun _ => true
  rwa [filter_true, filter_true] at hall

theorem Alike.alive (h : Alike told acts) (point : DocumentPoint) :
    Alive told point ↔ Alive acts point := by
  rw [Alive, Alive, h.incarnation point.reaches]

theorem Alike.contents (h : Alike told acts) (point : DocumentPoint) :
    contents told point = contents acts point :=
  h.content point.reaches

theorem Alike.append (h : Alike told acts) (h' : Alike told' acts') :
    Alike (told ++ told') (acts ++ acts') := by
  refine ⟨fun p => ?_, fun p => ?_, fun p => ?_⟩
  · rw [filter_append, filter_append, findSome?_append, findSome?_append, h.create p, h'.create p]
  · rw [filter_append, filter_append, findSome?_append, findSome?_append, h.retire p, h'.retire p]
  · rw [filter_append, filter_append, filterMap_append, filterMap_append, h.content p, h'.content p]

theorem filter_batch {p : ℤ → Bool} {seq : ℤ} (l : List DocumentAction) :
    (l.map (seq, ·)).filter (p ·.1) = if p seq then l.map (seq, ·) else [] := by
  induction l with
  | nil => exact (ite_self _).symm
  | cons deed l ih =>
    rw [map_cons, filter_cons, ih]
    split_ifs <;> rfl

theorem Gathers.alike {action : Option DocumentAction} {said : List DocumentAction}
    (h : Gathers action said) (seq : ℤ) :
    Alike (said.map (seq, ·)) ((action.map (seq, ·)).toList) := by
  have hacts : (action.map ((seq, ·) : DocumentAction → ℤ × DocumentAction)).toList =
      action.toList.map (seq, ·) := by
    cases action <;> rfl
  have hretired : ∀ l : List DocumentAction, (l.map (seq, ·)).findSome?
      (fun deed => if deed.2.retire then some deed.1 else none) =
        if l.any (·.retire) then some seq else none := by
    intro l
    induction l with
    | nil => rfl
    | cons deed l ih =>
      rw [map_cons, findSome?_cons, any_cons, ih]
      cases deed.retire <;> rfl
  have hcreated : ∀ l : List DocumentAction, (l.map (seq, ·)).findSome?
      (fun deed => deed.2.create.map (deed.1, ·)) = (l.findSome? (·.create)).map (seq, ·) := by
    intro l
    induction l with
    | nil => rfl
    | cons deed l ih =>
      rw [map_cons, findSome?_cons, findSome?_cons, ih]
      cases deed.create <;> rfl
  rw [hacts]
  refine ⟨fun p => ?_, fun p => ?_, fun p => ?_⟩
  · rw [filter_batch, filter_batch]
    split_ifs
    · rw [hcreated, hcreated, h.create]
      cases action with
      | none => rfl
      | some action => cases hcreate : action.create <;> simp [hcreate]
    · rfl
  · rw [filter_batch, filter_batch]
    split_ifs
    · rw [hretired, hretired, h.retire]
      cases action with
      | none => rfl
      | some action => simp
    · rfl
  · rw [filter_batch, filter_batch]
    split_ifs
    · rw [filterMap_map, filterMap_map]
      refine h.content.trans ?_
      cases action with
      | none => rfl
      | some action => cases hcontent : action.content <;> simp [hcontent]
    · rfl

/-- The batches as written and as gathered tell the same of every document. -/
def Tell (log : List (Batch ρ)) (stored : List Stored) : Prop :=
  ∀ id, Alike (deeds log id) (actsOn stored id)

variable {s : State ρ} {log : List (Batch ρ)} {stored : List Stored} {owned : ℕ → Bool}

theorem Books.held (hs : Books s stored) (htell : Tell log stored) {source : DocumentCopySource}
    {read : StoredDocument}
    (h : s.materializeDocument owned source.id source.at' = .ok (some read)) :
    heldBy (deeds log) source = some (read.version, read.value) := by
  cases hget : Assoc.get source.id s.documents with
  | none =>
    unfold materializeDocument at h
    rw [hget] at h
    cases h
  | some document =>
    have hread : document.record.isAliveAt source.at' = true ∧
        ∀ seq, source.at' = .seq seq → document.record.isCurrentOnly = false := by
      unfold materializeDocument at h
      rw [hget] at h
      dsimp only at h
      split_ifs at h with hpast halive
      · refine ⟨halive, fun seq hseq => ?_⟩
        rw [hseq] at hpast
        exact Bool.eq_false_iff.mpr fun hcurrent => hpast hcurrent
      · cases h
    have hfold := (hs.lives source.id document hget).read owned hget hread.1 hread.2
    rw [h, ReadsFold, ← (htell source.id).contents] at hfold
    rw [heldBy]
    split at hfold
    · exact hfold.elim
    · rename_i version value heq
      cases hfold
      rw [heq]
    · obtain ⟨error, herror⟩ := hfold
      cases herror

/-- A resolved write says what the write it stands for does. -/
theorem Books.resolveWrite (hs : Books s stored) (htell : Tell log stored) {changed : List ℤ}
    {write resolved : StorageWrite ρ} (h : s.resolveWrite owned changed write = .ok resolved)
    (id : ℤ) :
    write.deed (heldBy (deeds log)) id = resolved.deed (heldBy (deeds log)) id ∧
      ¬ IsCopy resolved := by
  cases write with
  | copy record source =>
    have hcopy : s.resolveCopy owned changed record source = .ok resolved :=
      mapError_eq_ok h
    unfold State.resolveCopy at hcopy
    split_ifs at hcopy
    obtain ⟨read, hread, hcopy⟩ := bind_eq_ok hcopy
    cases read with
    | none => cases hcopy
    | some read =>
      have heq : resolved = .create record read.version read.value := by
        dsimp only at hcopy
        split at hcopy
        · split_ifs at hcopy
          exact (ok.inj hcopy).symm
        · cases hcopy
      subst heq
      refine ⟨?_, fun hcopy => hcopy⟩
      show (if record.id = id then some _ else none) = _
      rw [hs.held htell hread]
      rfl
  | _ =>
    cases h
    exact ⟨rfl, fun hcopy => hcopy⟩

theorem Books.resolved (hs : Books s stored) (htell : Tell log stored) {changed : List ℤ}
    {writes resolved : Writes ρ}
    (h : writes.mapM (s.resolveWrite owned changed) = .ok resolved) (id : ℤ) :
    writes.filterMap (·.deed (heldBy (deeds log)) id) =
      resolved.filterMap (·.deed (heldBy (deeds log)) id) ∧
      ∀ write ∈ resolved, ¬ IsCopy write := by
  induction writes generalizing resolved with
  | nil =>
    cases h
    exact ⟨rfl, fun _ hmem => by cases hmem⟩
  | cons write writes ih =>
    rw [mapM_cons] at h
    obtain ⟨first, hfirst, h⟩ := bind_eq_ok h
    obtain ⟨rest, hrest, h⟩ := bind_eq_ok h
    cases h
    obtain ⟨hdeed, hcopy⟩ := hs.resolveWrite htell hfirst id
    obtain ⟨hdeeds, hcopies⟩ := ih hrest
    refine ⟨?_, forall_mem_cons.mpr ⟨hcopy, hcopies⟩⟩
    rw [filterMap_cons, filterMap_cons, hdeed, hdeeds]

theorem Books.gathered (hs : Books s stored) (htell : Tell log stored)
    {writes : Writes ρ} {seq : ℤ} {prepared : PreparedMemoryCommit ρ}
    (h : s.prepareCommit owned writes seq = .ok prepared) (id : ℤ) :
    Gathers (Assoc.get id prepared.actions)
      (writes.filterMap (·.deed (heldBy (deeds log)) id)) := by
  obtain ⟨-, -, hresolved, -, hactions, -⟩ := prepareCommit_ok h
  obtain ⟨hsaid, hcopies⟩ := hs.resolved htell hresolved id
  rw [hsaid]
  exact @foldlM_gathers ρ (heldBy (deeds log)) (fun _ => []) [] prepared.actions prepared.writes
    (fun _ => ⟨rfl, rfl, rfl⟩) hcopies hactions id

theorem reachable_books {w : State ρ × List (Batch ρ)}
    (h : (documentSystem ρ owned).Reachable w) : ∃ stored, Books w.1 stored ∧ Tell w.2 stored := by
  refine h.invariant (I := fun w => ∃ stored, Books w.1 stored ∧ Tell w.2 stored)
    (fun w hw => ?_) fun w event w' hs _ hstep => ?_
  · rw [hw]
    exact ⟨[], books_init, fun id => ⟨fun _ => rfl, fun _ => rfl, fun _ => rfl⟩⟩
  · obtain ⟨stored, hs, htell⟩ := hs
    rw [hstep, commitLogged]
    cases hprepare : w.1.prepareCommit owned event.1 event.2 with
    | error e => exact ⟨stored, hs, htell⟩
    | ok prepared =>
      obtain ⟨seq, writes, actions⟩ := prepared
      obtain ⟨rfl, haccepted⟩ := prepareCommit_accepted hprepare
      refine ⟨_, hs.apply haccepted writes, fun id => ?_⟩
      rw [deeds, foldl_append, actsOn_snoc]
      exact (htell id).append ((hs.gathered htell hprepare id).alike _)

end State

/-! ### What reads agree on -/

/-- The reads of documents agree with the batches that were accepted. -/
structure DocumentsAgree (owned : ℕ → Bool) (s : State ρ) (log : List (Batch ρ)) : Prop where
  unique : ∀ id id' record record', incarnation (deeds log id) = some record →
    incarnation (deeds log id') = some record' →
    recordAddressKey record.toDocumentCreate = recordAddressKey record'.toDocumentCreate →
    record.retiredAt = none → record'.retiredAt = none → id = id'
  /-- At present and at any sequence number an address gives the incarnation alive there. -/
  find : ∀ address point, ∃ found, s.findDocument address point = .ok found ∧
    ∀ record, found = some record ↔ ∃ id, incarnation (deeds log id) = some record ∧
      recordAddressKey record.toDocumentCreate = address ∧ Alive (deeds log id) point
  /-- A page has the first of the incarnations of a scope alive at a point, after the cursor. -/
  scan : ∀ (query : DocumentQuery) limit (cursor : Option Cursor), 1 ≤ limit →
    (∀ next, cursor = some next → -MAX_SAFE_INTEGER ≤ next.after ∧ next.after ≤ MAX_SAFE_INTEGER) →
    ∃ alive : List DocumentRecord, alive.Pairwise (·.id < ·.id) ∧
      (∀ record, record ∈ alive ↔ ∃ id, incarnation (deeds log id) = some record ∧
        record.scope = query.scope ∧ (∀ kind, query.kind = some kind → record.kind = kind) ∧
        (∀ next, cursor = some next → next.after < record.id) ∧ Alive (deeds log id) query.point) ∧
      s.scanDocuments query limit cursor = .ok ⟨alive.take limit,
        if alive.length ≤ limit then none
        else (alive.take limit).getLast?.map fun record => ⟨record.id, some .ascending⟩⟩
  /-- The content of an incarnation alive at present, or where its history is kept at any
  sequence number, is what the contents committed up to there make. -/
  content : ∀ id record point, incarnation (deeds log id) = some record →
    Alive (deeds log id) point → (∀ seq, point = .seq seq → record.isCurrentOnly = false) →
    ReadsFold record (contents (deeds log id) point) (s.materializeDocument owned id point)
  refused : ∀ batch error, s.prepareCommit owned batch.1 batch.2 = .error error →
    commitLogged owned (s, log) batch = (s, log)

/-- Documents agree with the accepted batches in every state that batches lead to. -/
theorem documents_agree (owned : ℕ → Bool) {w : State ρ × List (Batch ρ)}
    (h : (documentSystem ρ owned).Reachable w) : DocumentsAgree owned w.1 w.2 := by
  obtain ⟨stored, hs, htell⟩ := reachable_books h
  have hincarnation : ∀ {id record}, incarnation (deeds w.2 id) = some record ↔
      ∃ stored, Assoc.get id w.1.documents = some stored ∧ stored.record = record :=
    fun {id record} => (htell id).incarnation_all ▸ hs.incarnation
  have hthere : ∀ {id document} (hget : Assoc.get id w.1.documents = some document) point,
      document.record.isAliveAt point = true ↔ Alive (deeds w.2 id) point :=
    fun hget point => (hs.alive hget point).trans ((htell _).alive point).symm
  constructor
  · intro id id' record record' hrecord hrecord' hkey hnone hnone'
    obtain ⟨stored, hget, rfl⟩ := hincarnation.mp hrecord
    obtain ⟨stored', hget', rfl⟩ := hincarnation.mp hrecord'
    exact hs.alone _ .current id id' stored stored' ⟨hget, hkey⟩ ⟨hget', rfl⟩
      (isNone_iff_eq_none.mpr hnone) (isNone_iff_eq_none.mpr hnone')
  · intro address point
    obtain ⟨found, hfound, hspec⟩ := hs.findDocument address point
    refine ⟨found, hfound, fun record => (hspec record).trans ⟨?_, ?_⟩⟩
    · rintro ⟨id, stored, ⟨hget, hkey⟩, rfl, halive⟩
      exact ⟨id, hincarnation.mpr ⟨stored, hget, rfl⟩, hkey, (hthere hget point).mp halive⟩
    · rintro ⟨id, hrecord, hkey, halive⟩
      obtain ⟨stored, hget, rfl⟩ := hincarnation.mp hrecord
      exact ⟨id, stored, ⟨hget, hkey⟩, rfl, (hthere hget point).mpr halive⟩
  · intro query limit cursor hlimit hcursor
    obtain ⟨alive, hsorted, hmem, hscan⟩ := hs.scanDocuments query hlimit cursor hcursor
    refine ⟨alive, hsorted, fun record => (hmem record).trans ⟨?_, ?_⟩, hscan⟩
    · rintro ⟨⟨id, stored, hget, rfl⟩, hscope, hkind, hafter, halive⟩
      exact ⟨id, hincarnation.mpr ⟨stored, hget, rfl⟩, hscope, hkind, hafter,
        (hthere hget query.point).mp halive⟩
    · rintro ⟨id, hrecord, hscope, hkind, hafter, halive⟩
      obtain ⟨stored, hget, rfl⟩ := hincarnation.mp hrecord
      exact ⟨⟨id, stored, hget, rfl⟩, hscope, hkind, hafter, (hthere hget query.point).mpr halive⟩
  · intro id record point hrecord halive hpast
    obtain ⟨stored, hget, rfl⟩ := hincarnation.mp hrecord
    rw [(htell id).contents]
    exact (hs.lives id stored hget).read owned hget ((hthere hget point).mpr halive) hpast
  · intro batch error hrefused
    rw [commitLogged, hrefused]

/-- A document of a conversation, changed, copied, and replaced by another incarnation in one
batch. -/
def replaced : List (Batch Unit) :=
  [([.create ⟨2, "view", none, .conversation 1, some .rewindable, some .asOf⟩ 1 .null], 1),
    ([.change 2 (.delta 1 [.replace (.bool true)])], 2),
    ([.copy ⟨3, "view", none, .conversation 7, some .rewindable, some .asOf⟩ ⟨2, .seq 2⟩], 3),
    ([.create ⟨4, "view", none, .conversation 1, some .rewindable, some .asOf⟩ 1 .null,
      .retire 2], 4)]

/-- The storage and the log after these batches, each of which is accepted. -/
theorem documents_agree_replaced :
    DocumentsAgree (fun _ => false) (replaced.foldl (commitLogged fun _ => false) (State.init, [])).1
      (replaced.foldl (commitLogged fun _ => false) (State.init, [])).2 ∧
    (replaced.foldl (commitLogged fun _ => false) (State.init, [])).2 = replaced ∧
    foldContents (contents (deeds replaced 3) .current) = some (.ok (1, .bool true)) ∧
    (incarnation (deeds replaced 2)).map (fun record => (record.createdAt, record.retiredAt)) =
      some (1, some 4) := by
  have hrun : (documentSystem Unit fun _ => false).Along (fun _ _ => True)
      (commitLogged fun _ => false) (State.init, []) replaced :=
    ⟨rfl, trivial, rfl, trivial, rfl, trivial, rfl, trivial, trivial⟩
  exact ⟨documents_agree (fun _ => false) ⟨_, rfl, hrun.steps⟩, rfl, rfl, rfl⟩

end KnightCode.Memory
