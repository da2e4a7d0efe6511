import KnightCode.Durable.MemoryDocumentBatches

/-!
# Documents over whole runs

Every accepted batch keeps the indexes of documents true of the documents: an address has one
unretired incarnation at most, at every point of the past as at present, and the current index
names it.
-/

namespace KnightCode.Memory

open List Option SortedIds State

variable {ρ : Type}

namespace State

/-! ### Indexes and log -/

/-- A stored batch: its sequence number and the actions gathered from its writes. -/
structure Stored where
  seq : ℤ
  actions : DocumentActions

def actsOn (log : List Stored) (id : ℤ) : DocumentActions :=
  log.filterMap fun batch => (Assoc.get id batch.actions).map (batch.seq, ·)

def StoredAt (s : State ρ) (id : ℤ) (stored : StoredDocumentState) (key : DocumentAddress) : Prop :=
  Assoc.get id s.documents = some stored ∧ recordAddressKey stored.record.toDocumentCreate = key

/-- What holds of a state and the batches it comes from. -/
structure Books (s : State ρ) (log : List Stored) : Prop where
  lives : ∀ id stored, Assoc.get id s.documents = some stored → Lived (actsOn log id) stored
  absent : ∀ id, Assoc.get id s.documents = none → actsOn log id = []
  named : ∀ id stored, Assoc.get id s.documents = some stored → stored.record.id = id
  bounded : ∀ batch ∈ log, batch.seq < s.nextSeq
  ended : ∀ id stored seq, Assoc.get id s.documents = some stored →
    stored.record.retiredAt = some seq → seq < s.nextSeq
  ids : ∀ key, (s.addressIndex key).ids.Pairwise (· < ·)
  mem_ids : ∀ key id, id ∈ (s.addressIndex key).ids ↔ ∃ stored, s.StoredAt id stored key
  scopes : ∀ scope, (s.scopeIds scope).Pairwise (· < ·)
  mem_scopes : ∀ scope id, id ∈ s.scopeIds scope ↔
    ∃ stored, Assoc.get id s.documents = some stored ∧ stored.record.scope = scope
  current : ∀ key id, (s.addressIndex key).currentId = some id ↔
    ∃ stored, s.StoredAt id stored key ∧ stored.record.retiredAt = none
  alone : ∀ key point id id' stored stored', s.StoredAt id stored key → s.StoredAt id' stored' key →
    stored.record.isAliveAt point = true → stored'.record.isAliveAt point = true → id = id'

theorem books_init : Books (State.init : State ρ) [] where
  lives _ _ h := by cases h
  absent _ _ := rfl
  named _ _ h := by cases h
  bounded _ h := by cases h
  ended _ _ _ h := by cases h
  ids _ := List.Pairwise.nil
  mem_ids _ _ := ⟨fun h => (by cases h), fun ⟨_, h, _⟩ => (by cases h)⟩
  scopes _ := List.Pairwise.nil
  mem_scopes _ _ := ⟨fun h => (by cases h), fun ⟨_, h, _⟩ => (by cases h)⟩
  current _ _ := ⟨fun h => (by cases h), fun ⟨_, ⟨h, _⟩, _⟩ => (by cases h)⟩
  alone _ _ _ _ _ _ h := by cases h.1

/-! ### The records of a batch that are no documents -/

/-- The tables of documents are those of another state. -/
structure SameDocuments (s s' : State ρ) : Prop where
  documents : s'.documents = s.documents
  addresses : s'.documentAddresses = s.documentAddresses
  scopes : s'.documentIdsByScope = s.documentIdsByScope

theorem applyWrite_documents (s : State ρ) (seq : ℤ) (write : StorageWrite ρ) :
    SameDocuments s (s.applyWrite seq write) := by
  cases write <;> exact ⟨rfl, rfl, rfl⟩

theorem foldl_applyWrite_documents (seq : ℤ) (writes : Writes ρ) (s : State ρ) :
    SameDocuments s (writes.foldl (fun s write => s.applyWrite seq write) s) := by
  induction writes generalizing s with
  | nil => exact ⟨rfl, rfl, rfl⟩
  | cons write writes ih =>
    have hfirst := s.applyWrite_documents seq write
    have hrest := ih (s.applyWrite seq write)
    exact ⟨hrest.documents.trans hfirst.documents, hrest.addresses.trans hfirst.addresses,
      hrest.scopes.trans hfirst.scopes⟩

/-! ### A batch -/

section

variable {s : State ρ} {log : List Stored} {seq : ℤ} {actions : DocumentActions}
variable {id : ℤ} {stored : StoredDocumentState}

/-- What an accepted batch is: its sequence number is new, and its actions pass the checks. -/
structure Accepted (s : State ρ) (seq : ℤ) (actions : DocumentActions) : Prop where
  later : s.nextSeq ≤ seq
  gathered : Gathered actions
  checked : s.checkDocumentActions [] actions = .ok ()

theorem prepareCommit_accepted {owned : ℕ → Bool} {writes : Writes ρ}
    {prepared : PreparedMemoryCommit ρ} (h : s.prepareCommit owned writes seq = .ok prepared) :
    prepared.seq = seq ∧ Accepted s seq prepared.actions := by
  obtain ⟨hseq, hlater, -, -, hactions, hchecked⟩ := prepareCommit_ok h
  exact ⟨hseq, hlater, prepareDocumentActions_gathered hactions, hchecked⟩

/-- What a batch makes of a document. -/
def outcome (s : State ρ) (seq : ℤ) (actions : DocumentActions) (id : ℤ) :
    Option StoredDocumentState :=
  match Assoc.get id actions with
  | none => Assoc.get id s.documents
  | some action => actOn seq action (Assoc.get id s.documents)

theorem actsOn_snoc (log : List Stored) (seq : ℤ) (actions : DocumentActions) (id : ℤ) :
    actsOn (log ++ [⟨seq, actions⟩]) id =
      actsOn log id ++ ((Assoc.get id actions).map (seq, ·)).toList := by
  rw [actsOn, filterMap_append]
  refine congrArg (actsOn log id ++ ·) ?_
  rw [filterMap_cons]
  cases Assoc.get id actions <;> rfl

theorem Books.actsOn_lt (hs : Books s log) (id : ℤ) : ∀ deed ∈ actsOn log id, deed.1 < s.nextSeq := by
  intro deed hmem
  obtain ⟨batch, hbatch, hdeed⟩ := mem_filterMap.mp hmem
  obtain ⟨action, -, rfl⟩ := map_eq_some_iff.mp hdeed
  exact hs.bounded batch hbatch

/-- What an accepted action makes of a document, one created or one there unretired. -/
structure Made (s : State ρ) (log : List Stored) (seq id : ℤ) (action : DocumentAction)
    (stored : StoredDocumentState) : Prop where
  acted : actOn seq action (Assoc.get id s.documents) = some stored
  lived : Lived (actsOn log id ++ [(seq, action)]) stored
  key : s.actionKey id action = some (recordAddressKey stored.record.toDocumentCreate)
  named : stored.record.id = id
  retired : stored.record.retiredAt = if action.retire then some seq else none
  created : action.create.isSome = true →
    Assoc.get id s.documents = none ∧ stored.record.createdAt = seq
  changed : action.create = none → ∃ before, Assoc.get id s.documents = some before ∧
    before.record.retiredAt = none ∧ stored.record.toDocumentCreate = before.record.toDocumentCreate ∧
      stored.record.createdAt = before.record.createdAt

theorem Books.made (hs : Books s log) (h : Accepted s seq actions) {entry : ℤ × DocumentAction}
    (hmem : entry ∈ actions) : ∃ stored, Made s log seq entry.1 entry.2 stored := by
  obtain ⟨id, action⟩ := entry
  have hcheck := (checkDocumentActions_ok h.checked).1 _ hmem
  cases hcreate : action.create with
  | some create =>
    obtain ⟨hid, version, value, hcontent⟩ := h.gathered.2 _ hmem create hcreate
    have hnone := checkAction_create hcheck hcreate
    obtain ⟨create', content, retire⟩ := action
    obtain rfl : create' = some create := hcreate
    obtain rfl : content = some (.base version value) := hcontent
    obtain ⟨stored, hact, hrecord, hlived⟩ := Lived.create seq create version value retire
    refine ⟨stored, by rw [hnone]; exact hact, by rw [hs.absent id hnone]; exact hlived, ?_, ?_, ?_,
      fun _ => ⟨hnone, ?_⟩, fun h => by cases h⟩
    · rw [hrecord]
      rfl
    · rw [hrecord]
      exact hid
    · rw [hrecord]
    · rw [hrecord]
  | none =>
    obtain ⟨before, hget, hunretired, hversion⟩ := checkAction_existing hcheck hcreate
    obtain ⟨stored, hact, hrecord, hlived⟩ := (hs.lives id before hget).next hunretired
      (fun deed hdeed => (hs.actsOn_lt id deed hdeed).trans_le h.later) hcreate hversion
    refine ⟨stored, by rw [hget]; exact hact, hlived, ?_, ?_, ?_, fun hsome => ?_, fun _ =>
      ⟨before, hget, hunretired, ?_, ?_⟩⟩
    · rw [actionKey, hcreate, hget, hrecord]
      rfl
    · rw [hrecord]
      exact hs.named id before hget
    · rw [hrecord]
    · rw [hcreate] at hsome
      cases hsome
    · rw [hrecord]
    · rw [hrecord]

theorem Made.same {action : DocumentAction} {before : StoredDocumentState}
    (h : Made s log seq id action stored) (hbefore : Assoc.get id s.documents = some before) :
    stored.record.toDocumentCreate = before.record.toDocumentCreate := by
  cases hcreate : action.create with
  | some create =>
    have hnone := (h.created (by rw [hcreate]; rfl)).1
    exact absurd (hnone.symm.trans hbefore) (some_ne_none _).symm
  | none =>
    obtain ⟨before', hbefore', -, hsame, -⟩ := h.changed hcreate
    rwa [Option.some.inj (hbefore'.symm.trans hbefore)] at hsame

theorem Books.outcome_some (hs : Books s log) (h : Accepted s seq actions) :
    outcome s seq actions id = some stored ↔
      (∃ action, (id, action) ∈ actions ∧ Made s log seq id action stored) ∨
        (id ∉ Assoc.keys actions ∧ Assoc.get id s.documents = some stored) := by
  unfold outcome
  cases hget : Assoc.get id actions with
  | none =>
    have hnot := (Assoc.get_eq_none_iff id actions).mp hget
    constructor
    · exact fun hstored => .inr ⟨hnot, hstored⟩
    · rintro (⟨action, hmem, -⟩ | ⟨-, hstored⟩)
      · exact absurd (mem_map_of_mem hmem) hnot
      · exact hstored
  | some action =>
    have hmem := Assoc.mem_of_get hget
    obtain ⟨made, hmade⟩ := hs.made h hmem
    constructor
    · intro hstored
      obtain rfl : made = stored := Option.some.inj (hmade.acted.symm.trans hstored)
      exact .inl ⟨action, hmem, hmade⟩
    · rintro (⟨action', hmem', hmade'⟩ | ⟨hnot, -⟩)
      · have heq := (Assoc.get_of_mem h.gathered.1 hmem').symm.trans hget
        rw [← Option.some.inj heq]
        exact hmade'.acted
      · exact absurd (mem_map_of_mem hmem) hnot

theorem Books.outcomes (hs : Books s log) (h : Accepted s seq actions) :
    Outcomes s seq actions (outcome s seq actions) := by
  intro entry hmem
  obtain ⟨stored, hmade⟩ := hs.made h hmem
  exact ⟨stored, (hs.outcome_some h).mpr (.inl ⟨entry.2, hmem, hmade⟩), hmade.acted⟩

/-- The actions that create a document with this value. -/
abbrev creations (s : State ρ) (seq : ℤ) (actions : DocumentActions) {β : Type} [DecidableEq β]
    (of : DocumentCreate → β) (value : β) : DocumentActions :=
  actions.filter fun entry => entry.2.create.isSome &&
    (outcome s seq actions entry.1).map (of ·.record.toDocumentCreate) = some value

abbrev indexed (s : State ρ) (seq : ℤ) (actions : DocumentActions) {β : Type} [DecidableEq β]
    (of : DocumentCreate → β) (value : β) (ids : List ℤ) : List ℤ :=
  (creations s seq actions of value).foldl (fun ids entry => insertSorted ids entry.1) ids

theorem Books.index_after (hs : Books s log) (h : Accepted s seq actions) {β : Type}
    [DecidableEq β] (of : DocumentCreate → β) (value : β) {ids : List ℤ}
    (hids : ids.Pairwise (· < ·)) (hmem : ∀ id, id ∈ ids ↔
      ∃ stored, Assoc.get id s.documents = some stored ∧ of stored.record.toDocumentCreate = value) :
    (indexed s seq actions of value ids).Pairwise (· < ·) ∧
      ∀ id, id ∈ indexed s seq actions of value ids ↔ ∃ stored,
        outcome s seq actions id = some stored ∧ of stored.record.toDocumentCreate = value := by
  have hkeys : (Assoc.keys (creations s seq actions of value)).Nodup :=
    List.Nodup.sublist (filter_sublist.map _) h.gathered.1
  obtain ⟨hsorted, hnext⟩ := foldl_insertSorted hkeys hids fun entry hentry hold => by
    obtain ⟨hin, hcreate⟩ := mem_filter.mp hentry
    obtain ⟨stored, hmade⟩ := hs.made h hin
    obtain ⟨before, hbefore, -⟩ := (hmem entry.1).mp hold
    rw [(hmade.created (Bool.and_eq_true_iff.mp hcreate).1).1] at hbefore
    cases hbefore
  refine ⟨hsorted, fun id => (hnext id).trans ?_⟩
  constructor
  · rintro (hnew | hold)
    · obtain ⟨entry, hentry, rfl⟩ := mem_map.mp hnew
      obtain ⟨-, hof⟩ := mem_filter.mp hentry
      exact map_eq_some_iff.mp (of_decide_eq_true (Bool.and_eq_true_iff.mp hof).2)
    · obtain ⟨before, hbefore, hof⟩ := (hmem id).mp hold
      by_cases hin : id ∈ Assoc.keys actions
      · obtain ⟨⟨_, action⟩, hentry, rfl⟩ := mem_map.mp hin
        obtain ⟨stored, hmade⟩ := hs.made h hentry
        refine ⟨stored, (hs.outcome_some h).mpr (.inl ⟨action, hentry, hmade⟩), ?_⟩
        rw [hmade.same hbefore]
        exact hof
      · exact ⟨before, (hs.outcome_some h).mpr (.inr ⟨hin, hbefore⟩), hof⟩
  · rintro ⟨stored, hstored, hof⟩
    obtain ⟨action, hentry, hmade⟩ | ⟨-, hbefore⟩ := (hs.outcome_some h).mp hstored
    · cases hcreate : action.create with
      | some create =>
        refine .inl (mem_map.mpr ⟨(id, action), mem_filter.mpr ⟨hentry, ?_⟩, rfl⟩)
        rw [Bool.and_eq_true]
        refine ⟨by rw [hcreate]; rfl, decide_eq_true ?_⟩
        rw [hstored, map_some, hof]
      | none =>
        obtain ⟨before, hbefore, -, hsame, -⟩ := hmade.changed hcreate
        exact .inr ((hmem id).mpr ⟨before, hbefore, by rw [← hsame]; exact hof⟩)
    · exact .inr ((hmem id).mpr ⟨stored, hbefore, hof⟩)

theorem Books.current_after (hs : Books s log) (h : Accepted s seq actions) (key : DocumentAddress)
    (id : ℤ) :
    (actions.filter fun entry => s.actionKey entry.1 entry.2 = some key).foldl currentBy
        (s.currentId key) = some id ↔
      ∃ stored, (outcome s seq actions id = some stored ∧
        recordAddressKey stored.record.toDocumentCreate = key) ∧ stored.record.retiredAt = none := by
  have hcurrent : s.currentId key = some id ↔
      ∃ stored, s.StoredAt id stored key ∧ stored.record.retiredAt = none := by
    rw [← hs.current key id, currentId, addressIndex]
    cases Assoc.get key s.documentAddresses <;> rfl
  rw [State.current_after h.gathered.1 h.checked, hcurrent]
  constructor
  · rintro (⟨⟨_, action⟩, hstart, rfl⟩ | ⟨⟨before, ⟨hbefore, hkey⟩, hunretired⟩, hstays⟩)
    · obtain ⟨hmem, hstarts⟩ := mem_filter.mp hstart
      rw [Bool.and_eq_true, starts, Bool.and_eq_true, Bool.not_eq_true'] at hstarts
      obtain ⟨stored, hmade⟩ := hs.made h hmem
      refine ⟨stored, ⟨(hs.outcome_some h).mpr (.inl ⟨action, hmem, hmade⟩), ?_⟩, ?_⟩
      · exact Option.some.inj (hmade.key.symm.trans (of_decide_eq_true hstarts.2))
      · rw [hmade.retired, hstarts.1.2]
        rfl
    · by_cases hin : id ∈ Assoc.keys actions
      · obtain ⟨⟨_, action⟩, hmem, rfl⟩ := mem_map.mp hin
        obtain ⟨stored, hmade⟩ := hs.made h hmem
        have hstored : recordAddressKey stored.record.toDocumentCreate = key := by
          rw [hmade.same hbefore]
          exact hkey
        refine ⟨stored, ⟨(hs.outcome_some h).mpr (.inl ⟨action, hmem, hmade⟩), hstored⟩, ?_⟩
        rw [hmade.retired]
        refine if_neg fun hretire => hstays (_, action) (mem_filter.mpr ⟨hmem, ?_⟩) rfl
        rw [Bool.and_eq_true, Bool.and_eq_true]
        refine ⟨⟨hretire, decide_eq_true (hcurrent.mpr ⟨before, ⟨hbefore, hkey⟩, hunretired⟩)⟩,
          decide_eq_true ?_⟩
        rw [hmade.key, hstored]
      · exact ⟨before, ⟨(hs.outcome_some h).mpr (.inr ⟨hin, hbefore⟩), hkey⟩, hunretired⟩
  · rintro ⟨stored, ⟨hstored, hkey⟩, hunretired⟩
    obtain ⟨action, hmem, hmade⟩ | ⟨hnot, hbefore⟩ := (hs.outcome_some h).mp hstored
    · have hretire : action.retire = false := by
        have hretired := hmade.retired.symm.trans hunretired
        split_ifs at hretired with hretire
        exact Bool.not_eq_true _ |>.mp hretire
      cases hcreate : action.create with
      | some create =>
        refine .inl ⟨(id, action), mem_filter.mpr ⟨hmem, ?_⟩, rfl⟩
        rw [Bool.and_eq_true, starts, hcreate, hretire]
        exact ⟨rfl, decide_eq_true (by rw [hmade.key, hkey])⟩
      | none =>
        obtain ⟨before, hbefore, hlive, hsame, -⟩ := hmade.changed hcreate
        refine .inr ⟨⟨before, ⟨hbefore, by rw [← hsame]; exact hkey⟩, hlive⟩, ?_⟩
        intro entry hends heq
        obtain ⟨hentry, hend⟩ := mem_filter.mp hends
        have haction : entry.2 = action := by
          have hget := Assoc.get_of_mem h.gathered.1 (show (entry.1, entry.2) ∈ actions from hentry)
          rw [heq, Assoc.get_of_mem h.gathered.1 hmem] at hget
          exact (Option.some.inj hget).symm
        rw [haction, hretire, Bool.false_and, Bool.false_and] at hend
        cases hend
    · refine .inr ⟨⟨stored, ⟨hbefore, hkey⟩, hunretired⟩, fun entry hends heq => hnot ?_⟩
      exact heq ▸ mem_map_of_mem (mem_filter.mp hends).1

theorem Books.alive_before (hs : Books s log) (h : Accepted s seq actions) {at' : ℤ}
    (hstored : outcome s seq actions id = some stored)
    (halive : stored.record.isAliveAt (.seq at') = true) (hat : at' < seq) :
    ∃ before, Assoc.get id s.documents = some before ∧
      before.record.toDocumentCreate = stored.record.toDocumentCreate ∧
      before.record.isAliveAt (.seq at') = true := by
  obtain ⟨action, hmem, hmade⟩ | ⟨-, hbefore⟩ := (hs.outcome_some h).mp hstored
  · have hcreated := of_decide_eq_true (Bool.and_eq_true_iff.mp halive).1
    cases hcreate : action.create with
    | some create =>
      rw [(hmade.created (by rw [hcreate]; rfl)).2] at hcreated
      omega
    | none =>
      obtain ⟨before, hbefore, hunretired, hsame, hsince⟩ := hmade.changed hcreate
      refine ⟨before, hbefore, hsame.symm, ?_⟩
      rw [DocumentRecord.isAliveAt, hunretired, Bool.and_eq_true]
      exact ⟨decide_eq_true (hsince ▸ hcreated), rfl⟩
  · exact ⟨stored, hbefore, rfl, halive⟩

theorem Books.ended_by (hs : Books s log) (h : Accepted s seq actions) {seq' : ℤ}
    (hstored : outcome s seq actions id = some stored)
    (hretired : stored.record.retiredAt = some seq') : seq' ≤ seq := by
  obtain ⟨action, -, hmade⟩ | ⟨-, hbefore⟩ := (hs.outcome_some h).mp hstored
  · rw [hmade.retired] at hretired
    split_ifs at hretired
    exact (Option.some.inj hretired).ge
  · exact ((hs.ended id stored seq' hbefore hretired).trans_le h.later).le

theorem Books.alive_after (hs : Books s log) (h : Accepted s seq actions)
    (hstored : outcome s seq actions id = some stored) {point : DocumentPoint}
    (hpoint : ∀ at', point = .seq at' → seq ≤ at') (halive : stored.record.isAliveAt point = true) :
    stored.record.retiredAt = none := by
  cases point with
  | current => exact isNone_iff_eq_none.mp halive
  | seq at' =>
    cases hretired : stored.record.retiredAt with
    | none => rfl
    | some seq' =>
      have hle := hs.ended_by h hstored hretired
      have hlt := (Bool.and_eq_true_iff.mp halive).2
      rw [hretired] at hlt
      have hlt' : at' < seq' := of_decide_eq_true hlt
      have := hpoint at' rfl
      omega

theorem Books.stored_outcomes (hs : Books s log) (h : Accepted s seq actions)
    (writes : Writes ρ) :
    Outcomes (writes.foldl (fun s write => s.applyWrite seq write) s) seq actions
      (outcome s seq actions) := by
  intro entry hmem
  rw [(foldl_applyWrite_documents seq writes s).documents]
  exact hs.outcomes h entry hmem

theorem Books.apply_documents (hs : Books s log) (h : Accepted s seq actions)
    (writes : Writes ρ) (id : ℤ) :
    Assoc.get id (s.apply ⟨seq, writes, actions⟩).documents = outcome s seq actions id := by
  refine (applyDocumentActions_documents (hs.stored_outcomes h writes) h.gathered.1 id).trans ?_
  split_ifs with hin
  · rfl
  · rw [(foldl_applyWrite_documents seq writes s).documents, outcome,
      (Assoc.get_eq_none_iff id actions).mpr hin]

theorem Books.apply_addressIndex (hs : Books s log) (h : Accepted s seq actions)
    (writes : Writes ρ) (key : DocumentAddress) :
    (s.apply ⟨seq, writes, actions⟩).addressIndex key =
      ⟨indexed s seq actions recordAddressKey key (s.addressIndex key).ids,
      (actions.filter fun entry => s.actionKey entry.1 entry.2 = some key).foldl currentBy
        (s.currentId key)⟩ := by
  refine (applyDocumentActions_addressIndex (hs.stored_outcomes h writes) h.gathered.1 key).trans ?_
  have hkeyed : (actions.filter fun entry =>
      outcomeKey (outcome s seq actions) entry.1 = some key) =
        actions.filter fun entry => s.actionKey entry.1 entry.2 = some key := by
    refine filter_congr fun entry hmem => ?_
    obtain ⟨stored, hmade⟩ := hs.made h hmem
    rw [outcomeKey, (hs.outcome_some h).mpr (.inl ⟨entry.2, hmem, hmade⟩), hmade.key]
    rfl
  have hcurrent : s.currentId key = (s.addressIndex key).currentId := by
    rw [currentId, addressIndex]
    cases Assoc.get key s.documentAddresses <;> rfl
  rw [foldl_indexAction, List.filter_filter, hkeyed, hcurrent, addressIndex,
    (foldl_applyWrite_documents seq writes s).addresses]
  rfl

theorem Books.apply_scopeIds (hs : Books s log) (h : Accepted s seq actions)
    (writes : Writes ρ) (scope : Scope) :
    (s.apply ⟨seq, writes, actions⟩).scopeIds scope =
      indexed s seq actions (·.scope) scope (s.scopeIds scope) := by
  refine (applyDocumentActions_scopeIds (hs.stored_outcomes h writes) h.gathered.1 scope).trans ?_
  rw [scopeIds, (foldl_applyWrite_documents seq writes s).scopes]
  rfl

theorem Books.apply (hs : Books s log) (h : Accepted s seq actions)
    (writes : Writes ρ) :
    Books (s.apply ⟨seq, writes, actions⟩) (log ++ [⟨seq, actions⟩]) := by
  have hget := hs.apply_documents h writes
  have hids := fun key => hs.index_after h recordAddressKey key (hs.ids key) (hs.mem_ids key)
  have hscoped := fun scope => hs.index_after h (·.scope) scope (hs.scopes scope)
    (hs.mem_scopes scope)
  have hcurrent : ∀ key id, ((s.apply ⟨seq, writes, actions⟩).addressIndex key).currentId =
      some id ↔ ∃ stored, (outcome s seq actions id = some stored ∧
        recordAddressKey stored.record.toDocumentCreate = key) ∧ stored.record.retiredAt = none := by
    intro key id
    rw [← hs.current_after h key id, hs.apply_addressIndex h]
  constructor
  · intro id stored hstored
    rw [hget] at hstored
    rw [actsOn_snoc]
    obtain ⟨action, hmem, hmade⟩ | ⟨hnot, hbefore⟩ := (hs.outcome_some h).mp hstored
    · rw [Assoc.get_of_mem h.gathered.1 hmem]
      exact hmade.lived
    · rw [(Assoc.get_eq_none_iff id actions).mpr hnot]
      show Lived (actsOn log id ++ []) stored
      rw [append_nil]
      exact hs.lives id stored hbefore
  · intro id hnone
    rw [hget] at hnone
    have hnot : id ∉ Assoc.keys actions := by
      intro hin
      obtain ⟨⟨_, action⟩, hmem, rfl⟩ := mem_map.mp hin
      obtain ⟨stored, hstored, -⟩ := hs.outcomes h _ hmem
      exact absurd (hnone.symm.trans hstored) (some_ne_none _).symm
    have hbefore : Assoc.get id s.documents = none := by
      rw [outcome, (Assoc.get_eq_none_iff id actions).mpr hnot] at hnone
      exact hnone
    rw [actsOn_snoc, hs.absent id hbefore, (Assoc.get_eq_none_iff id actions).mpr hnot]
    rfl
  · intro id stored hstored
    rw [hget] at hstored
    obtain ⟨action, -, hmade⟩ | ⟨-, hbefore⟩ := (hs.outcome_some h).mp hstored
    · exact hmade.named
    · exact hs.named id stored hbefore
  · intro batch hmem
    obtain hmem | hmem := mem_append.mp hmem
    · exact (hs.bounded batch hmem).trans_le (h.later.trans (Int.le_add_one le_rfl))
    · rw [mem_singleton.mp hmem]
      exact Int.lt_succ seq
  · intro id stored seq' hstored hretired
    rw [hget] at hstored
    exact Int.lt_add_one_of_le (hs.ended_by h hstored hretired)
  · intro key
    rw [hs.apply_addressIndex h]
    exact (hids key).1
  · intro key id
    rw [hs.apply_addressIndex h]
    simp only [StoredAt, hget]
    exact (hids key).2 id
  · intro scope
    rw [hs.apply_scopeIds h]
    exact (hscoped scope).1
  · intro scope id
    rw [hs.apply_scopeIds h, hget]
    exact (hscoped scope).2 id
  · intro key id
    simp only [hcurrent, StoredAt, hget]
  · intro key point id id' stored stored' hstored hstored' halive halive'
    obtain ⟨hstored, hkey⟩ := hstored
    obtain ⟨hstored', hkey'⟩ := hstored'
    rw [hget] at hstored hstored'
    by_cases hpast : ∃ at', point = .seq at' ∧ at' < seq
    · obtain ⟨at', rfl, hat⟩ := hpast
      obtain ⟨before, hbefore, hsame, hlive⟩ := hs.alive_before h hstored halive hat
      obtain ⟨before', hbefore', hsame', hlive'⟩ := hs.alive_before h hstored' halive' hat
      exact hs.alone key (.seq at') id id' before before' ⟨hbefore, by rw [hsame]; exact hkey⟩
        ⟨hbefore', by rw [hsame']; exact hkey'⟩ hlive hlive'
    · have hpoint : ∀ at', point = .seq at' → seq ≤ at' := fun at' hat =>
        not_lt.mp fun hlt => hpast ⟨at', hat, hlt⟩
      have hid := (hcurrent key id).mpr
        ⟨stored, ⟨hstored, hkey⟩, hs.alive_after h hstored hpoint halive⟩
      have hid' := (hcurrent key id').mpr
        ⟨stored', ⟨hstored', hkey'⟩, hs.alive_after h hstored' hpoint halive'⟩
      exact Option.some.inj (hid.symm.trans hid')

end

/-! ### Reads -/

section

variable {s : State ρ} {log : List Stored}

theorem firstAlive_spec {point : DocumentPoint} {ids : List ℤ}
    (h : ∀ id ∈ ids, ∃ stored, Assoc.get id s.documents = some stored) :
    ∃ found, s.firstAlive point ids = .ok found ∧
      (∀ record, found = some record → ∃ id ∈ ids, ∃ stored, Assoc.get id s.documents = some stored
        ∧ stored.record = record ∧ record.isAliveAt point = true) ∧
      (found = none → ∀ id ∈ ids, ∀ stored, Assoc.get id s.documents = some stored →
        stored.record.isAliveAt point = false) := by
  induction ids with
  | nil => exact ⟨none, rfl, fun _ h => (by cases h), fun _ _ h => by cases h⟩
  | cons id ids ih =>
    obtain ⟨stored, hstored⟩ := h id mem_cons_self
    rw [firstAlive, hstored]
    dsimp only
    by_cases halive : stored.record.isAliveAt point = true
    · rw [if_pos halive]
      refine ⟨_, rfl, fun record hrecord => ?_, fun hnone => by cases hnone⟩
      cases hrecord
      exact ⟨id, mem_cons_self, stored, hstored, rfl, halive⟩
    · rw [if_neg halive]
      obtain ⟨found, hfound, hsome, hnone⟩ := ih fun id' hmem => h id' (mem_cons_of_mem _ hmem)
      refine ⟨found, hfound, fun record hrecord => ?_, fun hfound' id' hmem stored' hstored' => ?_⟩
      · obtain ⟨id', hmem, hrest⟩ := hsome record hrecord
        exact ⟨id', mem_cons_of_mem _ hmem, hrest⟩
      · obtain rfl | hmem := mem_cons.mp hmem
        · rw [← Option.some.inj (hstored.symm.trans hstored')]
          exact Bool.not_eq_true _ |>.mp halive
        · exact hnone hfound' id' hmem stored' hstored'

theorem Books.findDocument (hs : Books s log) (address : DocumentAddress) (point : DocumentPoint) :
    ∃ found, s.findDocument address point = .ok found ∧ ∀ record, found = some record ↔
      ∃ id stored, s.StoredAt id stored address ∧ stored.record = record ∧
        record.isAliveAt point = true := by
  cases point with
  | current =>
    rw [State.findDocument]
    cases hcurrent : (s.addressIndex address).currentId with
    | none =>
      refine ⟨none, rfl, fun record => ⟨fun h => (by cases h), ?_⟩⟩
      rintro ⟨id, stored, hstored, rfl, halive⟩
      have := (hs.current address id).mpr ⟨stored, hstored, isNone_iff_eq_none.mp halive⟩
      rw [hcurrent] at this
      cases this
    | some id =>
      obtain ⟨stored, hstored, hunretired⟩ := (hs.current address id).mp hcurrent
      dsimp only
      rw [hstored.1]
      refine ⟨_, rfl, fun record => ⟨?_, ?_⟩⟩
      · rintro ⟨⟩
        exact ⟨id, stored, hstored, rfl, isNone_iff_eq_none.mpr hunretired⟩
      · rintro ⟨id', stored', hstored', rfl, halive⟩
        obtain rfl := hs.alone address .current id id' stored stored' hstored hstored'
          (isNone_iff_eq_none.mpr hunretired) halive
        rw [Option.some.inj (hstored.1.symm.trans hstored'.1)]
  | seq at' =>
    obtain ⟨found, hfound, hsome, hnone⟩ := @firstAlive_spec _ s (.seq at')
      (s.addressIndex address).ids fun id hmem => by
        obtain ⟨stored, hstored⟩ := (hs.mem_ids address id).mp hmem
        exact ⟨stored, hstored.1⟩
    refine ⟨found, hfound, fun record => ⟨fun heq => ?_, ?_⟩⟩
    · obtain ⟨id, hmem, stored, hget, hrecord, halive⟩ := hsome record heq
      obtain ⟨stored', hstored'⟩ := (hs.mem_ids address id).mp hmem
      obtain rfl := Option.some.inj (hget.symm.trans hstored'.1)
      exact ⟨id, stored, hstored', hrecord, halive⟩
    · rintro ⟨id, stored, hstored, rfl, halive⟩
      have hmem := (hs.mem_ids address id).mpr ⟨stored, hstored⟩
      cases found with
      | none =>
        rw [hnone rfl id hmem stored hstored.1] at halive
        cases halive
      | some record =>
        obtain ⟨id', hmem', stored', hget, hrecord, halive'⟩ := hsome record rfl
        obtain ⟨stored'', hstored''⟩ := (hs.mem_ids address id').mp hmem'
        obtain rfl := Option.some.inj (hget.symm.trans hstored''.1)
        obtain rfl := hs.alone address (.seq at') id id' stored stored' hstored hstored'' halive
          (by rw [hrecord]; exact halive')
        rw [← hrecord, Option.some.inj (hstored.1.symm.trans hget)]

def matched (s : State ρ) (query : DocumentQuery) (id : ℤ) : Option DocumentRecord :=
  ((Assoc.get id s.documents).map (·.record)).filter fun record =>
    query.kind.all (record.kind = ·) && record.isAliveAt query.point

theorem collect_eq {query : DocumentQuery} {ids : List ℤ}
    (h : ∀ id ∈ ids, ∃ stored, Assoc.get id s.documents = some stored) (budget : ℕ) :
    s.collect query budget ids = .ok ((ids.filterMap (s.matched query)).take budget) := by
  induction ids generalizing budget with
  | nil => cases budget <;> rfl
  | cons id ids ih =>
    cases budget with
    | zero => rfl
    | succ budget =>
      obtain ⟨stored, hstored⟩ := h id mem_cons_self
      have hrest := fun budget => ih (fun id' hmem => h id' (mem_cons_of_mem _ hmem)) budget
      rw [collect, hstored, filterMap_cons, matched, hstored, map_some, filter_some]
      dsimp only
      have hkind : (query.kind.any fun kind => decide (stored.record.kind ≠ kind)) =
          !(query.kind.all (stored.record.kind = ·)) := by
        cases query.kind with
        | none => rfl
        | some kind => exact decide_not
      rw [hkind]
      cases hall : query.kind.all (stored.record.kind = ·) with
      | false => exact hrest (budget + 1)
      | true =>
        cases halive : stored.record.isAliveAt query.point with
        | false => exact hrest (budget + 1)
        | true =>
          refine (if_neg Bool.false_ne_true).trans ((if_pos rfl).trans ?_)
          rw [hrest budget]
          rfl

theorem Books.scanDocuments (hs : Books s log) (query : DocumentQuery) {limit : ℕ}
    (hlimit : 1 ≤ limit) (cursor : Option Cursor) (hcursor : ∀ next, cursor = some next →
      -MAX_SAFE_INTEGER ≤ next.after ∧ next.after ≤ MAX_SAFE_INTEGER) :
    ∃ alive : List DocumentRecord, alive.Pairwise (·.id < ·.id) ∧
      (∀ record, record ∈ alive ↔ (∃ id stored, Assoc.get id s.documents = some stored ∧
        stored.record = record) ∧ record.scope = query.scope ∧ (∀ kind, query.kind = some kind →
        record.kind = kind) ∧ (∀ next, cursor = some next → next.after < record.id) ∧
        record.isAliveAt query.point = true) ∧
      s.scanDocuments query limit cursor = .ok ⟨alive.take limit,
        if alive.length ≤ limit then none
        else (alive.take limit).getLast?.map fun record => ⟨record.id, some .ascending⟩⟩ := by
  have hsorted := hs.scopes query.scope
  have hrest : (s.scopeIds query.scope).drop
      (cursor.elim 0 fun next => upperBound (s.scopeIds query.scope) next.after) =
        (s.scopeIds query.scope).filter fun id => cursor.all (·.after < id) := by
    cases cursor with
    | none => exact (filter_eq_self.mpr fun _ _ => rfl).symm
    | some next => exact (upperBound_spec hsorted next.after).2
  have hstored : ∀ id ∈ (s.scopeIds query.scope).filter fun id => cursor.all (·.after < id),
      ∃ stored, Assoc.get id s.documents = some stored := by
    intro id hmem
    obtain ⟨stored, hget, -⟩ := (hs.mem_scopes query.scope id).mp (mem_filter.mp hmem).1
    exact ⟨stored, hget⟩
  have hmatched : ∀ id record, s.matched query id = some record ↔
      ∃ stored, Assoc.get id s.documents = some stored ∧ stored.record = record ∧
        query.kind.all (record.kind = ·) = true ∧ record.isAliveAt query.point = true := by
    intro id record
    rw [matched, filter_eq_some_iff, Bool.and_eq_true, map_eq_some_iff]
    constructor
    · rintro ⟨⟨stored, hget, hrecord⟩, hkind, halive⟩
      exact ⟨stored, hget, hrecord, hkind, halive⟩
    · rintro ⟨stored, hget, hrecord, hkind, halive⟩
      exact ⟨⟨stored, hget, hrecord⟩, hkind, halive⟩
  have hid : ∀ id record, s.matched query id = some record → record.id = id := by
    intro id record hrecord
    obtain ⟨stored, hget, rfl, -⟩ := (hmatched id record).mp hrecord
    exact hs.named id stored hget
  refine ⟨((s.scopeIds query.scope).filter fun id => cursor.all (·.after < id)).filterMap
    (s.matched query), ?_, fun record => ?_, ?_⟩
  · rw [pairwise_filterMap]
    refine (hsorted.filter _).imp fun hlt record hrecord record' hrecord' => ?_
    rw [hid _ record hrecord, hid _ record' hrecord']
    exact hlt
  · rw [mem_filterMap]
    constructor
    · rintro ⟨id, hmem, hrecord⟩
      obtain ⟨hscope, hafter⟩ := mem_filter.mp hmem
      obtain ⟨stored, hget, hsame⟩ := (hs.mem_scopes query.scope id).mp hscope
      obtain ⟨stored', hget', heq, hkind, halive⟩ := (hmatched id record).mp hrecord
      obtain rfl := Option.some.inj (hget.symm.trans hget')
      subst heq
      refine ⟨⟨id, stored, hget, rfl⟩, hsame, fun kind hasked => ?_, fun next hnext => ?_, halive⟩
      · rw [hasked] at hkind
        exact of_decide_eq_true hkind
      · rw [hnext] at hafter
        rw [hs.named id stored hget]
        exact of_decide_eq_true hafter
    · rintro ⟨⟨id, stored, hget, rfl⟩, hscope, hkind, hafter, halive⟩
      refine ⟨id, mem_filter.mpr ⟨(hs.mem_scopes query.scope id).mpr ⟨stored, hget, hscope⟩, ?_⟩,
        (hmatched id _).mpr ⟨stored, hget, rfl, ?_, halive⟩⟩
      · cases cursor with
        | none => rfl
        | some next =>
          have hlt := hafter next rfl
          rw [hs.named id stored hget] at hlt
          exact decide_eq_true hlt
      · cases hasked : query.kind with
        | none => rfl
        | some kind => exact decide_eq_true (hkind kind hasked)
  · have hvalid : ¬ (cursor.any fun cursor => decide
        (cursor.after < -MAX_SAFE_INTEGER ∨ MAX_SAFE_INTEGER < cursor.after)) = true := by
      cases cursor with
      | none => exact Bool.false_ne_true
      | some next =>
        obtain ⟨hlow, hhigh⟩ := hcursor next rfl
        intro hbad
        obtain hbad | hbad := of_decide_eq_true hbad
        · omega
        · omega
    rw [State.scanDocuments, if_neg hvalid, hrest, collect_eq hstored]
    exact page_eq (fun record : DocumentRecord => record.id) _ hlimit .ascending

end

theorem Books.incarnation {s : State ρ} {log : List Stored} (hs : Books s log) {id : ℤ}
    {record : DocumentRecord} :
    incarnation (actsOn log id) = some record ↔
      ∃ stored, Assoc.get id s.documents = some stored ∧ stored.record = record := by
  cases hget : Assoc.get id s.documents with
  | none =>
    rw [hs.absent id hget]
    exact ⟨fun h => (by cases h), fun ⟨_, h, _⟩ => (by cases h)⟩
  | some stored =>
    rw [(hs.lives id stored hget).record]
    constructor
    · rintro ⟨⟩
      exact ⟨stored, rfl, rfl⟩
    · rintro ⟨_, ⟨⟩, hrecord⟩
      rw [hrecord]

theorem Books.alive {s : State ρ} {log : List Stored} (hs : Books s log) {id : ℤ}
    {stored : StoredDocumentState} (hget : Assoc.get id s.documents = some stored)
    (point : DocumentPoint) : stored.record.isAliveAt point = true ↔ Alive (actsOn log id) point :=
  (hs.lives id stored hget).isAliveAt_iff point

end State

end KnightCode.Memory
