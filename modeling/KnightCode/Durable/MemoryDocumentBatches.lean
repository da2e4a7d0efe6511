import KnightCode.Durable.MemoryDocumentLife

/-!
# The actions of a batch

What a batch that passes the checks does to documents, and what storing it makes of them and of
their indexes: each document is acted on once, so the order of the actions does not matter to the
documents, and at one address at most one incarnation starts.
-/

namespace KnightCode.Memory

open List SortedIds Except

variable {ρ : Type}

namespace State
variable {actions : DocumentActions} {id : ℤ} {action : DocumentAction}
  {stored : StoredDocumentState}

/-! ### Gathering the commands -/

/-- An action stands under the id of what it creates, and creates with a base. -/
def WellFormed (entry : ℤ × DocumentAction) : Prop :=
  ∀ record, entry.2.create = some record →
    record.id = entry.1 ∧ ∃ version value, entry.2.content = some (.base version value)

def Gathered (actions : DocumentActions) : Prop :=
  (Assoc.keys actions).Nodup ∧ ∀ entry ∈ actions, WellFormed entry

theorem Gathered.set (h : Gathered actions) (haction : WellFormed (id, action)) :
    Gathered (Assoc.set id action actions) := by
  refine ⟨Assoc.nodup_keys_set h.1, fun entry hmem => ?_⟩
  obtain rfl | hold := Assoc.mem_set hmem
  · exact haction
  · exact h.2 entry hold

theorem Gathered.getD (h : Gathered actions) (id : ℤ) :
    WellFormed (id, (Assoc.get id actions).getD ⟨none, none, false⟩) := by
  cases hget : Assoc.get id actions with
  | none => exact fun record hrecord => by cases hrecord
  | some action => exact h.2 _ (Assoc.mem_of_get hget)

theorem addAction_gathered {actions' : DocumentActions} (h : Gathered actions)
    {write : StorageWrite ρ} (hadd : addAction actions write = .ok actions') :
    Gathered actions' := by
  cases write with
  | conversation value => exact ok.inj hadd ▸ h
  | entry value => exact ok.inj hadd ▸ h
  | task id => exact ok.inj hadd ▸ h
  | submission id => exact ok.inj hadd ▸ h
  | copy record source => exact ok.inj hadd ▸ h
  | create record version value =>
    rw [addAction] at hadd
    split_ifs at hadd
    rw [← ok.inj hadd]
    refine h.set fun record' hrecord => ?_
    cases hrecord
    exact ⟨rfl, version, value, rfl⟩
  | change id content =>
    rw [addAction] at hadd
    split_ifs at hadd with hcontent
    rw [← ok.inj hadd]
    refine h.set fun record hrecord => ?_
    obtain ⟨-, version, value, hbase⟩ := h.getD id record hrecord
    rw [hbase] at hcontent
    exact absurd rfl hcontent
  | retire id =>
    rw [addAction] at hadd
    split_ifs at hadd
    rw [← ok.inj hadd]
    exact h.set (h.getD id)

theorem prepareDocumentActions_gathered {writes : Writes ρ}
    (h : prepareDocumentActions writes = .ok actions) : Gathered actions := by
  exact foldlM_invariant (fun _ _ _ hactions hadd => addAction_gathered hactions hadd)
    (show Gathered [] from ⟨nodup_nil, fun _ hmem => by cases hmem⟩) h

/-! ### The checks -/

variable {s : State ρ}

theorem checkAction_create (h : s.checkAction id action = .ok ()) {create : DocumentCreate}
    (hcreate : action.create = some create) : Assoc.get id s.documents = none := by
  unfold checkAction at h
  rw [hcreate] at h
  cases hget : Assoc.get id s.documents with
  | none => rfl
  | some stored =>
    rw [hget] at h
    cases h

theorem checkAction_existing {id : ℤ} {action : DocumentAction}
    (h : s.checkAction id action = .ok ()) (hcreate : action.create = none) :
    ∃ stored, Assoc.get id s.documents = some stored ∧ stored.record.retiredAt = none ∧
      ∀ version ops, action.content = some (.delta version ops) →
        ∃ last, stored.revisions.getLast? = some last ∧ last.content.version = version := by
  unfold checkAction at h
  rw [hcreate] at h
  cases hget : Assoc.get id s.documents with
  | none =>
    rw [hget] at h
    cases h
  | some stored =>
    rw [hget] at h
    dsimp only [Option.bind_some] at h
    by_cases hretired : stored.record.retiredAt.isSome = true
    · rw [if_pos hretired] at h
      cases h
    · rw [if_neg hretired] at h
      refine ⟨stored, rfl, Option.not_isSome_iff_eq_none.mp hretired, fun version ops hcontent => ?_⟩
      rw [hcontent] at h
      dsimp only at h
      cases hlast : stored.revisions.getLast? with
      | none =>
        rw [hlast] at h
        cases h
      | some last =>
        rw [hlast] at h
        dsimp only at h
        split_ifs at h with hversion
        exact ⟨last, rfl, not_not.mp hversion⟩

/-- Whether an action starts an incarnation that outlives its batch. -/
def starts (action : DocumentAction) : Bool :=
  action.create.isSome && !action.retire

def starters (s : State ρ) (key : DocumentAddress) (actions : DocumentActions) :
    DocumentActions :=
  actions.filter fun entry => starts entry.2 && s.actionKey entry.1 entry.2 = some key

/-- The actions that end the current incarnation of an address. -/
def enders (s : State ρ) (key : DocumentAddress) (actions : DocumentActions) :
    DocumentActions :=
  actions.filter fun entry => (entry.2.retire && s.currentId key = some entry.1) &&
    s.actionKey entry.1 entry.2 = some key

def live (s : State ρ) (counts : List (DocumentAddress × ℤ)) (key : DocumentAddress) : ℤ :=
  (Assoc.get key counts).getD (if (s.currentId key).isNone then 0 else 1)

theorem live_countLive (counts : List (DocumentAddress × ℤ)) (key key' : DocumentAddress)
    (id : ℤ) (action : DocumentAction) :
    s.live (s.countLive counts key' id action) key =
      s.live counts key - (if key' = key then
        (if (action.retire && s.currentId key = some id) = true then 1 else 0) else 0) +
        (if key' = key then (if starts action = true then 1 else 0) else 0) := by
  rw [live, countLive, Assoc.get_set]
  by_cases hkey : key' = key
  · subst hkey
    rw [if_pos rfl, if_pos rfl, if_pos rfl, Option.getD_some, live, starts]
    split_ifs <;> omega
  · rw [if_neg hkey, if_neg hkey, if_neg hkey, live]
    omega

variable {counts : List (DocumentAddress × ℤ)}

theorem live_le_one (h : s.checkDocumentActions counts [] = .ok ()) (key : DocumentAddress) :
    s.live counts key ≤ 1 := by
  rw [checkDocumentActions] at h
  split_ifs at h with hany
  rw [live]
  cases hget : Assoc.get key counts with
  | none =>
    rw [Option.getD_none]
    split_ifs <;> decide
  | some n =>
    rw [Option.getD_some]
    by_contra hlt
    exact hany (any_eq_true.mpr ⟨(key, n), Assoc.mem_of_get hget, decide_eq_true (not_le.mp hlt)⟩)

/-- What the checks of the actions say: each is in order on its own, and at no address more
incarnations start than there is room for. -/
theorem checkDocumentActions_ok (h : s.checkDocumentActions counts actions = .ok ()) :
    (∀ entry ∈ actions, s.checkAction entry.1 entry.2 = .ok ()) ∧
      ∀ key, s.live counts key + (s.starters key actions).length ≤
        1 + (s.enders key actions).length := by
  induction actions generalizing counts with
  | nil =>
    refine ⟨fun _ hmem => (by cases hmem), fun key => ?_⟩
    have hle := live_le_one h key
    rw [starters, enders, filter_nil, filter_nil, length_nil]
    omega
  | cons entry actions ih =>
    obtain ⟨id, action⟩ := entry
    rw [checkDocumentActions] at h
    obtain ⟨_, hcheck, hrest⟩ := bind_eq_ok h
    cases hkey : s.actionKey id action with
    | none =>
      rw [hkey] at hrest
      cases hrest
    | some key' =>
      rw [hkey] at hrest
      obtain ⟨hchecks, hcounts⟩ := ih hrest
      refine ⟨fun entry hmem => ?_, fun key => ?_⟩
      · obtain rfl | hmem := mem_cons.mp hmem
        · exact hcheck
        · exact hchecks entry hmem
      · have hcount := hcounts key
        rw [live_countLive] at hcount
        rw [starters, enders, filter_cons, filter_cons, hkey]
        rw [starters, enders] at hcount
        by_cases heq : key' = key
        · subst heq
          have hself : decide (some key' = some key') = true := decide_eq_true rfl
          rw [hself, Bool.and_true, Bool.and_true, apply_ite length, apply_ite length,
            length_cons, length_cons]
          rw [if_pos rfl, if_pos rfl] at hcount
          split_ifs at hcount ⊢ <;> omega
        · have hne : decide (some key' = some key) = false :=
            decide_eq_false fun hsome => heq (Option.some.inj hsome)
          rw [hne, Bool.and_false, Bool.and_false, if_neg Bool.false_ne_true,
            if_neg Bool.false_ne_true]
          rw [if_neg heq, if_neg heq] at hcount
          omega

theorem enders_length (hkeys : (Assoc.keys actions).Nodup) (key : DocumentAddress) :
    (s.enders key actions).length ≤ if (s.currentId key).isNone then 0 else 1 := by
  cases hcurrent : s.currentId key with
  | none =>
    have hnil : s.enders key actions = [] := filter_eq_nil_iff.mpr fun entry _ => by
      have hne : none ≠ some entry.1 := fun heq => by cases heq
      rw [hcurrent, decide_eq_false hne, Bool.and_false, Bool.false_and]
      exact Bool.false_ne_true
    rw [hnil]
    exact le_rfl
  | some id =>
    have hall : ∀ id' ∈ (s.enders key actions).map (·.1), id' = id := by
      intro id' hmem
      obtain ⟨entry, hentry, rfl⟩ := mem_map.mp hmem
      have hends := (mem_filter.mp hentry).2
      rw [hcurrent, Bool.and_eq_true, Bool.and_eq_true] at hends
      exact (Option.some.inj (of_decide_eq_true hends.1.2)).symm
    have hnodup : ((s.enders key actions).map (·.1)).Nodup :=
      List.Nodup.sublist (filter_sublist.map _) hkeys
    rw [eq_replicate_of_mem hall, nodup_replicate, length_map] at hnodup
    exact hnodup

theorem starters_ok (hkeys : (Assoc.keys actions).Nodup)
    (h : s.checkDocumentActions [] actions = .ok ()) (key : DocumentAddress) :
    (s.starters key actions).length ≤ 1 ∧ (s.starters key actions ≠ [] →
      ∀ id, s.currentId key = some id → ∃ entry ∈ s.enders key actions, entry.1 = id) := by
  have hcount := (checkDocumentActions_ok h).2 key
  have hends := enders_length (s := s) hkeys key
  rw [live, Assoc.get_nil, Option.getD_none] at hcount
  refine ⟨by split_ifs at hcount hends <;> omega, fun hne id hid => ?_⟩
  have hpos := length_pos_iff.mpr hne
  rw [hid, Option.isNone_some, if_neg Bool.false_ne_true] at hcount
  obtain ⟨entry, hentry⟩ := exists_mem_of_length_pos
    (show 0 < (s.enders key actions).length by omega)
  refine ⟨entry, hentry, ?_⟩
  have hends' := (mem_filter.mp hentry).2
  rw [hid, Bool.and_eq_true, Bool.and_eq_true] at hends'
  exact (Option.some.inj (of_decide_eq_true hends'.1.2)).symm

/-! ### The current incarnation of an address -/

def currentBy (current : Option ℤ) (entry : ℤ × DocumentAction) : Option ℤ :=
  if starts entry.2 then some entry.1
  else if entry.2.retire && current = some entry.1 then none else current

theorem foldl_currentBy_stays (h : ∀ entry ∈ actions, starts entry.2 = false) (current : Option ℤ) :
    actions.foldl currentBy current =
      if actions.any (fun entry => entry.2.retire && current = some entry.1) then none
      else current := by
  induction actions generalizing current with
  | nil => rfl
  | cons entry actions ih =>
    rw [foldl_cons, ih fun e hmem => h e (mem_cons_of_mem _ hmem), any_cons,
      currentBy, h entry mem_cons_self, if_neg Bool.false_ne_true]
    by_cases hends : (entry.2.retire && decide (current = some entry.1)) = true
    · rw [if_pos hends, hends, Bool.true_or, if_pos rfl, ite_self]
    · rw [if_neg hends, Bool.not_eq_true _ |>.mp hends, Bool.false_or]

variable {entry : ℤ × DocumentAction}

theorem foldl_currentBy_starts (hkeys : (Assoc.keys actions).Nodup)
    (h : (actions.filter fun e => starts e.2) = [entry]) (current : Option ℤ) :
    actions.foldl currentBy current = some entry.1 := by
  induction actions generalizing current with
  | nil => cases h
  | cons first actions ih =>
    obtain ⟨hfirst, hrest⟩ := nodup_cons.mp hkeys
    rw [filter_cons] at h
    rw [foldl_cons]
    by_cases hstarts : starts first.2 = true
    · rw [if_pos hstarts] at h
      obtain ⟨rfl, hnone⟩ := cons.inj h
      rw [foldl_currentBy_stays fun e hmem =>
        Bool.not_eq_true _ |>.mp (filter_eq_nil_iff.mp hnone e hmem), currentBy, if_pos hstarts]
      refine if_neg fun hany => ?_
      obtain ⟨e, hmem, hends⟩ := any_eq_true.mp hany
      rw [Bool.and_eq_true] at hends
      have hid : first.1 = e.1 := Option.some.inj (of_decide_eq_true hends.2)
      exact hfirst (hid ▸ mem_map_of_mem hmem)
    · rw [if_neg hstarts] at h
      exact ih hrest h _

theorem current_after (hkeys : (Assoc.keys actions).Nodup)
    (h : s.checkDocumentActions [] actions = .ok ()) (key : DocumentAddress) (id : ℤ) :
    (actions.filter fun entry => s.actionKey entry.1 entry.2 = some key).foldl currentBy
        (s.currentId key) = some id ↔
      (∃ entry ∈ s.starters key actions, entry.1 = id) ∨
        (s.currentId key = some id ∧ ∀ entry ∈ s.enders key actions, entry.1 ≠ id) := by
  obtain ⟨hone, hroom⟩ := starters_ok hkeys h key
  have hstarters : s.starters key actions =
      (actions.filter fun entry => s.actionKey entry.1 entry.2 = some key).filter
        fun entry => starts entry.2 := filter_filter.symm
  have henders : s.enders key actions =
      (actions.filter fun entry => s.actionKey entry.1 entry.2 = some key).filter
        fun entry => entry.2.retire && s.currentId key = some entry.1 := filter_filter.symm
  have hnodup : (Assoc.keys
      (actions.filter fun entry => s.actionKey entry.1 entry.2 = some key)).Nodup :=
    List.Nodup.sublist (filter_sublist.map _) hkeys
  rw [hstarters] at hone hroom ⊢
  rw [henders] at hroom ⊢
  generalize (actions.filter fun entry => s.actionKey entry.1 entry.2 = some key) = acted at *
  cases hstart : acted.filter fun entry => starts entry.2 with
  | nil =>
    rw [foldl_currentBy_stays fun e hmem =>
      Bool.not_eq_true _ |>.mp (filter_eq_nil_iff.mp hstart e hmem)]
    have hiff : (acted.any fun entry => entry.2.retire && s.currentId key = some entry.1) = true ↔
        ∃ entry ∈ acted.filter (fun entry => entry.2.retire && s.currentId key = some entry.1),
          s.currentId key = some entry.1 := by
      rw [any_eq_true]
      constructor
      · rintro ⟨entry, hmem, hends⟩
        exact ⟨entry, mem_filter.mpr ⟨hmem, hends⟩,
          of_decide_eq_true (Bool.and_eq_true_iff.mp hends).2⟩
      · rintro ⟨entry, hmem, -⟩
        exact ⟨entry, mem_filter.mp hmem⟩
    constructor
    · intro hfinal
      split_ifs at hfinal with hany
      refine .inr ⟨hfinal, fun entry hmem hid => hany (hiff.mpr ⟨entry, hmem, ?_⟩)⟩
      rw [hfinal, hid]
    · rintro (⟨entry, hmem, -⟩ | ⟨hcurrent, hstays⟩)
      · cases hmem
      · rw [if_neg]
        · exact hcurrent
        · intro hany
          obtain ⟨entry, hmem, hid⟩ := hiff.mp hany
          exact hstays entry hmem (Option.some.inj (hid.symm.trans hcurrent))
  | cons entry rest =>
    rw [hstart] at hone hroom
    obtain rfl : rest = [] := by
      rw [length_cons] at hone
      exact length_eq_zero_iff.mp (by omega)
    rw [foldl_currentBy_starts hnodup hstart]
    constructor
    · intro hid
      exact .inl ⟨entry, mem_singleton.mpr rfl, Option.some.inj hid⟩
    · rintro (⟨entry', hmem, hid⟩ | ⟨hcurrent, hstays⟩)
      · rw [← hid, mem_singleton.mp hmem]
      · obtain ⟨entry', hmem, hid⟩ := hroom (cons_ne_nil _ _) id hcurrent
        exact absurd hid (hstays entry' hmem)

/-! ### Storing the actions -/

variable {seq : ℤ}

theorem applyAction_documents (h : actOn seq action (Assoc.get id s.documents) = some stored)
    (id' : ℤ) :
    Assoc.get id' (s.applyAction seq id action).documents =
      if id = id' then some stored else Assoc.get id' s.documents := by
  unfold applyAction
  rw [h]
  exact Assoc.get_set id id' stored s.documents

theorem applyAction_addressIndex (h : actOn seq action (Assoc.get id s.documents) = some stored)
    (key : DocumentAddress) :
    (s.applyAction seq id action).addressIndex key =
      if recordAddressKey stored.record.toDocumentCreate = key then
        indexAction id action (s.addressIndex key)
      else s.addressIndex key := by
  unfold applyAction
  rw [h, addressIndex]
  dsimp only
  by_cases hindexed : (action.create.isSome || action.retire) = true
  · rw [if_pos hindexed, Assoc.get_set]
    by_cases hkey : recordAddressKey stored.record.toDocumentCreate = key
    · subst hkey
      rw [if_pos rfl, if_pos rfl]
      rfl
    · rw [if_neg hkey, if_neg hkey]
      rfl
  · rw [if_neg hindexed]
    obtain ⟨create, content, retire⟩ := action
    rw [Bool.not_eq_true, Bool.or_eq_false_iff] at hindexed
    obtain ⟨hcreate, rfl⟩ := hindexed
    obtain rfl : create = none := Option.isSome_eq_false_iff.mp hcreate |> Option.isNone_iff_eq_none.mp
    exact (ite_self _).symm

theorem applyAction_scopeIds (h : actOn seq action (Assoc.get id s.documents) = some stored)
    (scope : Scope) :
    (s.applyAction seq id action).scopeIds scope =
      if action.create.isSome = true ∧ stored.record.scope = scope then
        insertSorted (s.scopeIds scope) id
      else s.scopeIds scope := by
  unfold applyAction
  rw [h, scopeIds]
  dsimp only
  by_cases hcreate : action.create.isSome = true
  · rw [if_pos hcreate, insertMapId, Assoc.get_set]
    by_cases hscope : stored.record.scope = scope
    · subst hscope
      rw [if_pos rfl, if_pos ⟨hcreate, rfl⟩]
      rfl
    · rw [if_neg hscope, if_neg fun hand => hscope hand.2]
      rfl
  · rw [if_neg hcreate, if_neg fun hand => hcreate hand.1]
    rfl

/-- What the actions of a batch make of documents, one independent of the others. -/
def Outcomes (s : State ρ) (seq : ℤ) (actions : DocumentActions)
    (outcome : ℤ → Option StoredDocumentState) : Prop :=
  ∀ entry ∈ actions, ∃ stored, outcome entry.1 = some stored ∧
    actOn seq entry.2 (Assoc.get entry.1 s.documents) = some stored

theorem Outcomes.tail {outcome : ℤ → Option StoredDocumentState}
    (h : Outcomes s seq (entry :: actions) outcome)
    (hkeys : (Assoc.keys (entry :: actions)).Nodup) :
    Outcomes (s.applyAction seq entry.1 entry.2) seq actions outcome := by
  intro e hmem
  obtain ⟨stored, -, hfirst⟩ := h entry mem_cons_self
  obtain ⟨stored', houtcome, hact⟩ := h e (mem_cons_of_mem _ hmem)
  have hne : entry.1 ≠ e.1 := fun heq =>
    (nodup_cons.mp hkeys).1 (heq ▸ mem_map_of_mem hmem)
  exact ⟨stored', houtcome, by rw [applyAction_documents hfirst, if_neg hne]; exact hact⟩

section

variable {seq : ℤ} {actions : DocumentActions} {outcome : ℤ → Option StoredDocumentState}

theorem applyDocumentActions_documents (h : Outcomes s seq actions outcome)
    (hkeys : (Assoc.keys actions).Nodup) (id : ℤ) :
    Assoc.get id (s.applyDocumentActions seq actions).documents =
      if id ∈ Assoc.keys actions then outcome id else Assoc.get id s.documents := by
  induction actions generalizing s with
  | nil => exact (if_neg not_mem_nil).symm
  | cons entry actions ih =>
    obtain ⟨stored, houtcome, hact⟩ := h entry mem_cons_self
    rw [show s.applyDocumentActions seq (entry :: actions) =
        (s.applyAction seq entry.1 entry.2).applyDocumentActions seq actions from rfl,
      ih (h.tail hkeys) (nodup_cons.mp hkeys).2, applyAction_documents hact]
    by_cases hid : entry.1 = id
    · subst hid
      have hlater : entry.1 ∉ Assoc.keys actions := (nodup_cons.mp hkeys).1
      have hhere : entry.1 ∈ Assoc.keys (entry :: actions) := mem_cons_self
      rw [if_neg hlater, if_pos rfl, if_pos hhere, houtcome]
    · rw [if_neg hid]
      refine if_congr ?_ rfl rfl
      exact ⟨mem_cons_of_mem _, fun hmem => (mem_cons.mp hmem).resolve_left fun heq => hid heq.symm⟩

/-- The address of what an action makes. -/
def outcomeKey (outcome : ℤ → Option StoredDocumentState) (id : ℤ) : Option DocumentAddress :=
  (outcome id).map (recordAddressKey ·.record.toDocumentCreate)

theorem applyDocumentActions_addressIndex (h : Outcomes s seq actions outcome)
    (hkeys : (Assoc.keys actions).Nodup) (key : DocumentAddress) :
    (s.applyDocumentActions seq actions).addressIndex key =
      (actions.filter fun entry => outcomeKey outcome entry.1 = some key).foldl
        (fun index entry => indexAction entry.1 entry.2 index) (s.addressIndex key) := by
  induction actions generalizing s with
  | nil => rfl
  | cons entry actions ih =>
    obtain ⟨stored, houtcome, hact⟩ := h entry mem_cons_self
    rw [show s.applyDocumentActions seq (entry :: actions) =
        (s.applyAction seq entry.1 entry.2).applyDocumentActions seq actions from rfl,
      ih (h.tail hkeys) (nodup_cons.mp hkeys).2, applyAction_addressIndex hact,
      filter_cons, outcomeKey, houtcome, Option.map_some]
    by_cases hkey : recordAddressKey stored.record.toDocumentCreate = key
    · rw [if_pos hkey, if_pos (decide_eq_true (congrArg some hkey)), foldl_cons]
    · rw [if_neg hkey, if_neg fun hsome => hkey (Option.some.inj (of_decide_eq_true hsome))]

theorem applyDocumentActions_scopeIds (h : Outcomes s seq actions outcome)
    (hkeys : (Assoc.keys actions).Nodup) (scope : Scope) :
    (s.applyDocumentActions seq actions).scopeIds scope =
      (actions.filter fun entry => entry.2.create.isSome &&
        (outcome entry.1).map (·.record.scope) = some scope).foldl
          (fun ids entry => insertSorted ids entry.1) (s.scopeIds scope) := by
  induction actions generalizing s with
  | nil => rfl
  | cons entry actions ih =>
    obtain ⟨stored, houtcome, hact⟩ := h entry mem_cons_self
    rw [show s.applyDocumentActions seq (entry :: actions) =
        (s.applyAction seq entry.1 entry.2).applyDocumentActions seq actions from rfl,
      ih (h.tail hkeys) (nodup_cons.mp hkeys).2, applyAction_scopeIds hact,
      filter_cons, houtcome, Option.map_some]
    by_cases hscope : entry.2.create.isSome = true ∧ stored.record.scope = scope
    · rw [if_pos hscope, if_pos, foldl_cons]
      rw [Bool.and_eq_true]
      exact ⟨hscope.1, decide_eq_true (congrArg some hscope.2)⟩
    · rw [if_neg hscope, if_neg]
      rw [Bool.and_eq_true]
      exact fun hand => hscope ⟨hand.1, Option.some.inj (of_decide_eq_true hand.2)⟩

end

theorem foldl_indexAction (actions : DocumentActions) (index : DocumentAddressIndex) :
    actions.foldl (fun index entry => indexAction entry.1 entry.2 index) index =
      ⟨(actions.filter (·.2.create.isSome)).foldl (fun ids entry => insertSorted ids entry.1)
        index.ids, actions.foldl currentBy index.currentId⟩ := by
  induction actions generalizing index with
  | nil => rfl
  | cons entry actions ih =>
    rw [foldl_cons, ih, filter_cons, foldl_cons]
    by_cases hcreate : entry.2.create.isSome = true
    · rw [if_pos hcreate, foldl_cons, indexAction, if_pos hcreate]
      rfl
    · rw [if_neg hcreate, indexAction, if_neg hcreate]
      rfl

theorem foldl_insertSorted (hkeys : (Assoc.keys actions).Nodup) {ids : List ℤ}
    (hids : ids.Pairwise (· < ·)) (hnew : ∀ entry ∈ actions, entry.1 ∉ ids) :
    (actions.foldl (fun ids entry => insertSorted ids entry.1) ids).Pairwise (· < ·) ∧
      ∀ id, id ∈ actions.foldl (fun ids entry => insertSorted ids entry.1) ids ↔
        id ∈ Assoc.keys actions ∨ id ∈ ids := by
  induction actions generalizing ids with
  | nil => exact ⟨hids, fun id => (or_iff_right not_mem_nil).symm⟩
  | cons entry actions ih =>
    obtain ⟨hfirst, hrest⟩ := nodup_cons.mp hkeys
    obtain ⟨hsorted, hmem⟩ := ih hrest
      (insertSorted_pairwise hids (hnew entry mem_cons_self)) fun e he hin => by
        obtain heq | hold := mem_insertSorted.mp hin
        · exact hfirst (heq ▸ mem_map_of_mem he)
        · exact hnew e (mem_cons_of_mem _ he) hold
    refine ⟨hsorted, fun id => ?_⟩
    rw [foldl_cons, hmem, mem_insertSorted, ← or_assoc, or_comm (a := id ∈ Assoc.keys actions)]
    exact or_congr_left mem_cons.symm

end State

end KnightCode.Memory
