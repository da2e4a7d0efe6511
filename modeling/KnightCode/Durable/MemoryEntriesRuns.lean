import KnightCode.Durable.MemoryEntriesReads

/-!
# Entries over whole runs

A batch that is minted in order keeps the indexes sorted and the forks below their entries, and
what a conversation saw stays the oldest part of what it sees. Pages read one after another give
the bounded list once: newest first that of the first page's state, oldest first that of the last
page's.
-/

namespace KnightCode.Memory

open Function List Option SortedIds Except

variable {ρ : Type}

namespace State

variable {s s' : State ρ} {seq : ℤ}
variable {id : ℤ} {writes : Writes ρ} {owned : ℕ → Bool}

/-! ### Writes that are no entry or conversation -/

/-- The tables of entries are those of another state. -/
structure SameEntries (s s' : State ρ) : Prop where
  conversations : s'.conversations = s.conversations
  entries : s'.entries = s.entries
  entryIds : s'.entryIds = s.entryIds
  headEntryIds : s'.headEntryIds = s.headEntryIds

theorem SameEntries.symm (h : SameEntries s s') : SameEntries s' s :=
  ⟨h.conversations.symm, h.entries.symm, h.entryIds.symm, h.headEntryIds.symm⟩

theorem SameEntries.ownIds (h : SameEntries s s') (c : ℤ) : s'.ownIds c = s.ownIds c := by
  rw [State.ownIds, h.entryIds]
  rfl

theorem SameEntries.headIds (h : SameEntries s s') (c : ℤ) : s'.headIds c = s.headIds c := by
  rw [State.headIds, h.headEntryIds]
  rfl

theorem SameEntries.sees (h : SameEntries s s') {c : ℤ} (hsees : s.Sees c id) : s'.Sees c id := by
  induction hsees with
  | own hentry hown => exact .own (by rw [h.entries]; exact hentry) hown
  | inherited hc hparent hat _ ih =>
    exact .inherited (by rw [h.conversations]; exact hc) hparent hat ih

theorem SameEntries.forest (h : SameEntries s s') (hs : s.Forest) : s'.Forest := by
  constructor
  · intro c
    rw [h.ownIds]
    exact hs.sorted c
  · intro c id
    rw [h.ownIds, h.entries]
    exact hs.own c id
  · rw [h.entries]
    exact hs.ids
  · rw [h.entries]
    exact hs.safe
  · rw [h.entries, h.conversations]
    exact hs.home
  · intro c
    rw [h.headIds]
    exact hs.headSorted c
  · intro c id
    rw [h.headIds, h.ownIds, h.entries]
    exact hs.heads c id
  · rw [h.conversations]
    exact hs.rank
  · intro c r f hc hf
    rw [h.conversations] at hc
    rw [h.ownIds]
    obtain ⟨hsees, habove⟩ := hs.fork c r f hc hf
    exact ⟨h.sees hsees, habove⟩

/-! ### What grows -/

/-- Conversations and entries stay, and what a conversation comes to see lies above all it saw. -/
structure Grown (s s' : State ρ) : Prop where
  conversations : ∀ c r, Assoc.get c s.conversations = some r →
    Assoc.get c s'.conversations = some r
  entries : ∀ id e, Assoc.get id s.entries = some e → Assoc.get id s'.entries = some e
  keeps : ∀ c id, s.Sees c id → s'.Sees c id
  above : ∀ c r id, Assoc.get c s.conversations = some r → s'.Sees c id →
    s.Sees c id ∨ ∀ id', s.Sees c id' → id' < id

theorem Grown.refl (s : State ρ) : Grown s s :=
  ⟨fun _ _ h => h, fun _ _ h => h, fun _ _ h => h, fun _ _ _ _ h => .inl h⟩

theorem Grown.trans {s'' : State ρ} (h : Grown s s') (h' : Grown s' s'') : Grown s s'' := by
  refine ⟨fun c r hc => h'.conversations c r (h.conversations c r hc),
    fun id e he => h'.entries id e (h.entries id e he),
    fun c id hid => h'.keeps c id (h.keeps c id hid), fun c r id hc hid => ?_⟩
  obtain hid | habove := h'.above c r id (h.conversations c r hc) hid
  · exact h.above c r id hc hid
  · exact .inr fun id' hid' => habove id' (h.keeps c id' hid')

theorem SameEntries.grown (h : SameEntries s s') : Grown s s' := by
  refine ⟨fun c r hc => ?_, fun id e he => ?_, fun c id hid => h.sees hid,
    fun c r id _ hid => .inl (h.symm.sees hid)⟩
  · rw [h.conversations]
    exact hc
  · rw [h.entries]
    exact he

/-! ### A conversation -/

theorem get_conversation (value : ConversationRecord) (c : ℤ) :
    Assoc.get c (s.applyWrite seq (.conversation value)).conversations =
      if value.id = c then some value else Assoc.get c s.conversations :=
  Assoc.get_set value.id c value s.conversations

theorem sees_conversation (hs : s.Forest) {value : ConversationRecord}
    (hfresh : Assoc.get value.id s.conversations = none) {c : ℤ}
    (hsees : (s.applyWrite seq (.conversation value)).Sees c id)
    (hc : (Assoc.get c s.conversations).isSome = true) : s.Sees c id := by
  induction hsees with
  | own hentry hown => exact .own hentry hown
  | @inherited c id conversation parent hconversation hparent hat _ ih =>
    rw [get_conversation, if_neg] at hconversation
    · obtain ⟨rank, hrank⟩ := hs.rank
      have hexists := ((hrank c conversation hconversation).2 parent hparent).1
      exact .inherited hconversation hparent hat (ih hexists)
    · rintro rfl
      rw [hfresh] at hc
      cases hc

theorem conversation_step (hs : s.Forest) {value : ConversationRecord}
    (hfresh : Assoc.get value.id s.conversations = none) (hminted : s.Minted (.conversation value)) :
    (s.applyWrite seq (.conversation value)).Forest ∧
      Grown s (s.applyWrite seq (.conversation value)) := by
  have hset : ∀ c, Assoc.get c (s.applyWrite seq (.conversation value)).conversations =
      if value.id = c then some value else Assoc.get c s.conversations := fun c =>
    Assoc.get_set value.id c value s.conversations
  have hold : ∀ c r, Assoc.get c s.conversations = some r →
      Assoc.get c (s.applyWrite seq (.conversation value)).conversations = some r := by
    intro c r hc
    rw [hset, if_neg]
    · exact hc
    · rintro rfl
      rw [hfresh] at hc
      cases hc
  have hsome : ∀ c, (Assoc.get c s.conversations).isSome = true →
      (Assoc.get c (s.applyWrite seq (.conversation value)).conversations).isSome = true := by
    intro c hc
    obtain ⟨r, hr⟩ := isSome_iff_exists.mp hc
    rw [hold c r hr]
    rfl
  have hkeeps : ∀ c id, s.Sees c id → (s.applyWrite seq (.conversation value)).Sees c id := by
    intro c id hid
    induction hid with
    | own hentry hown => exact .own hentry hown
    | inherited hc hparent hat _ ih => exact .inherited (hold _ _ hc) hparent hat ih
  obtain ⟨rank, hrank⟩ := hs.rank
  have hlength : (s.applyWrite seq (.conversation value)).conversations.length =
      s.conversations.length + 1 := by
    show (Assoc.set value.id value s.conversations).length = _
    rw [Assoc.set_of_not_mem value ((Assoc.get_eq_none_iff _ _).mp hfresh), length_append]
    rfl
  refine ⟨{ hs with
    home := fun id e he => hsome _ (hs.home id e he), rank := ?_, fork := fun c r f hc hf => ?_ },
    hold, fun _ _ he => he, hkeeps, fun c r id hc hid => .inl (sees_conversation hs hfresh hid (by rw [hc]; rfl))⟩
  · -- The new conversation ranks above all others.
    have hother : ∀ c r, Assoc.get c s.conversations = some r → c ≠ value.id := by
      rintro c r hr rfl
      rw [hfresh] at hr
      cases hr
    refine ⟨update rank value.id s.conversations.length, fun c r hc => ?_⟩
    rw [hset] at hc
    rw [hlength]
    by_cases hcv : value.id = c
    · rw [if_pos hcv] at hc
      cases hc
      subst hcv
      rw [update_self]
      refine ⟨lt_add_one _, fun f hf => ?_⟩
      obtain ⟨hparent, -⟩ := hminted f hf
      obtain ⟨r', hr'⟩ := isSome_iff_exists.mp hparent
      refine ⟨hsome _ hparent, ?_⟩
      rw [update_of_ne (hother _ _ hr')]
      exact (hrank _ _ hr').1
    · rw [if_neg hcv] at hc
      rw [update_of_ne (Ne.symm hcv)]
      refine ⟨Nat.lt_succ_of_lt (hrank c r hc).1, fun f hf => ?_⟩
      obtain ⟨hparent, hlt⟩ := (hrank c r hc).2 f hf
      obtain ⟨r', hr'⟩ := isSome_iff_exists.mp hparent
      refine ⟨hsome _ hparent, ?_⟩
      rw [update_of_ne (hother _ _ hr')]
      exact hlt
  · rw [hset] at hc
    by_cases hcv : value.id = c
    · rw [if_pos hcv] at hc
      cases hc
      refine ⟨hkeeps _ _ (hminted f hf).2, fun id hid => ?_⟩
      obtain ⟨e, he, hec⟩ := (hs.own c id).mp hid
      have hhome := hs.home id e he
      rw [hec, ← hcv, hfresh] at hhome
      cases hhome
    · rw [if_neg hcv] at hc
      obtain ⟨hsees, habove⟩ := hs.fork c r f hc hf
      exact ⟨hkeeps _ _ hsees, habove⟩

/-! ### An entry -/

theorem ownIds_entry (value : EntryRecord ρ) (c : ℤ) :
    (s.applyWrite seq (.entry value)).ownIds c =
      if value.conversationId = c then insertSorted (s.ownIds c) value.id else s.ownIds c := by
  show (Assoc.get c (insertMapId s.entryIds value.conversationId value.id)).getD [] = _
  rw [insertMapId, Assoc.get_set]
  by_cases hc : value.conversationId = c
  · subst hc
    rw [if_pos rfl, if_pos rfl]
    rfl
  · rw [if_neg hc, if_neg hc]
    rfl

theorem headIds_entry (value : EntryRecord ρ) (c : ℤ) :
    (s.applyWrite seq (.entry value)).headIds c =
      if value.conversationId = c ∧ value.head.isSome = true then
        insertSorted (s.headIds c) value.id
      else s.headIds c := by
  show (Assoc.get c (if value.head.isSome then
    insertMapId s.headEntryIds value.conversationId value.id else s.headEntryIds)).getD [] = _
  by_cases hhead : value.head.isSome = true
  · rw [if_pos hhead, insertMapId, Assoc.get_set]
    by_cases hc : value.conversationId = c
    · subst hc
      rw [if_pos rfl, if_pos ⟨rfl, hhead⟩]
      rfl
    · rw [if_neg hc, if_neg fun h => hc h.1]
      rfl
  · rw [if_neg hhead, if_neg fun h => hhead h.2]
    rfl

theorem sees_entry (hs : s.Forest) {value : EntryRecord ρ} (hminted : s.Minted (.entry value))
    {c : ℤ} (hsees : (s.applyWrite seq (.entry value)).Sees c id) :
    s.Sees c id ∨ value.conversationId = c ∧ id = value.id := by
  obtain ⟨-, -, -, habove⟩ := hminted
  induction hsees with
  | own hentry hown =>
    rw [show (s.applyWrite seq (.entry value)).entries = Assoc.set value.id value s.entries from rfl,
      Assoc.get_set] at hentry
    split_ifs at hentry with hid
    · cases hentry
      exact .inr ⟨hown, hid.symm⟩
    · exact .inl (.own hentry hown)
  | inherited hc hparent hat _ ih =>
    rcases ih with hsees | ⟨hhome, rfl⟩
    · exact .inl (.inherited hc hparent hat hsees)
    · -- a fork point lies below every entry that comes to the parent
      have hpoint := (hs.fork _ _ _ hc hparent).1
      rw [← hhome] at hpoint
      exact absurd hat (not_le_of_gt (habove _ hpoint))

theorem entry_step (hs : s.Forest) {value : EntryRecord ρ}
    (hfresh : Assoc.get value.id s.entries = none) (hminted : s.Minted (.entry value)) :
    (s.applyWrite seq (.entry value)).Forest ∧ Grown s (s.applyWrite seq (.entry value)) := by
  obtain ⟨hhome, hpos, hmax, habove⟩ := hminted
  have hset : ∀ id, Assoc.get id (s.applyWrite seq (.entry value)).entries =
      if value.id = id then some value else Assoc.get id s.entries := fun id =>
    Assoc.get_set value.id id value s.entries
  have hother : ∀ id e, Assoc.get id s.entries = some e → value.id ≠ id := by
    rintro id e he rfl
    rw [hfresh] at he
    cases he
  have hold : ∀ id e, Assoc.get id s.entries = some e →
      Assoc.get id (s.applyWrite seq (.entry value)).entries = some e := by
    intro id e he
    rw [hset, if_neg (hother id e he)]
    exact he
  have hmem : ∀ c id, id ∈ (s.applyWrite seq (.entry value)).ownIds c ↔
      (value.conversationId = c ∧ id = value.id) ∨ id ∈ s.ownIds c := by
    intro c id
    rw [ownIds_entry]
    by_cases hc : value.conversationId = c
    · rw [if_pos hc, mem_insertSorted, and_iff_right hc]
    · rw [if_neg hc]
      exact ⟨.inr, fun h => h.elim (fun h => absurd h.1 hc) fun h => h⟩
  have hnew : ∀ c, value.id ∉ s.ownIds c := by
    intro c hid
    obtain ⟨e, he, -⟩ := (hs.own c _).mp hid
    rw [hfresh] at he
    cases he
  have hkeeps : ∀ c id, s.Sees c id → (s.applyWrite seq (.entry value)).Sees c id := by
    intro c id hid
    induction hid with
    | own hentry hown => exact .own (hold _ _ hentry) hown
    | inherited hc hparent hat _ ih => exact .inherited hc hparent hat ih
  refine ⟨⟨fun c => ?_, fun c id => ?_, fun id e he => ?_, fun id e he => ?_, fun id e he => ?_,
    fun c => ?_, fun c id => ?_, hs.rank, fun c r f hc hf => ⟨hkeeps _ _ (hs.fork c r f hc hf).1, ?_⟩⟩,
    fun _ _ hc => hc, hold, hkeeps, fun c r id _ hid =>
      (sees_entry hs ⟨hhome, hpos, hmax, habove⟩ hid).imp_right ?_⟩
  · rw [ownIds_entry]
    split_ifs
    · exact insertSorted_pairwise (hs.sorted c) (hnew c)
    · exact hs.sorted c
  · rw [hmem, hs.own, hset]
    constructor
    · rintro (⟨hc, rfl⟩ | ⟨e, he, hc⟩)
      · exact ⟨value, if_pos rfl, hc⟩
      · exact ⟨e, by rw [if_neg (hother id e he)]; exact he, hc⟩
    · rintro ⟨e, he, hc⟩
      by_cases hid : value.id = id
      · rw [if_pos hid] at he
        cases he
        exact .inl ⟨hc, hid.symm⟩
      · rw [if_neg hid] at he
        exact .inr ⟨e, he, hc⟩
  · rw [hset] at he
    split_ifs at he with hid
    · cases he
      exact hid
    · exact hs.ids id e he
  · rw [hset] at he
    split_ifs at he with hid
    · rw [← hid]
      exact ⟨hpos, hmax⟩
    · exact hs.safe id e he
  · rw [hset] at he
    split_ifs at he with hid
    · cases he
      exact hhome
    · exact hs.home id e he
  · rw [headIds_entry]
    split_ifs
    · exact insertSorted_pairwise (hs.headSorted c) fun hid => hnew c ((hs.heads c _).mp hid).1
    · exact hs.headSorted c
  · have hheads : id ∈ (s.applyWrite seq (.entry value)).headIds c ↔
        (value.conversationId = c ∧ value.head.isSome = true ∧ id = value.id) ∨
          id ∈ s.headIds c := by
      rw [headIds_entry]
      split_ifs with h
      · rw [mem_insertSorted]
        exact or_congr ⟨fun hid => ⟨h.1, h.2, hid⟩, fun hid => hid.2.2⟩ Iff.rfl
      · exact ⟨.inr, fun hid => hid.elim (fun hid => absurd ⟨hid.1, hid.2.1⟩ h) fun hid => hid⟩
    rw [hheads, hs.heads, hmem]
    constructor
    · rintro (⟨hc, hhead, rfl⟩ | ⟨hid, e, he, hhead⟩)
      · exact ⟨.inl ⟨hc, rfl⟩, value, by rw [hset, if_pos rfl], hhead⟩
      · exact ⟨.inr hid, e, hold id e he, hhead⟩
    · rintro ⟨⟨hc, rfl⟩ | hid, e, he, hhead⟩
      · rw [hset, if_pos rfl] at he
        cases he
        exact .inl ⟨hc, hhead, rfl⟩
      · refine .inr ⟨hid, ?_⟩
        obtain ⟨e', he', -⟩ := (hs.own c id).mp hid
        rw [hold id e' he'] at he
        cases he
        exact ⟨_, he', hhead⟩
  · intro id hid
    obtain ⟨rfl, rfl⟩ | hid := (hmem c id).mp hid
    · exact habove _ (.inherited hc hf (le_refl _) (hs.fork _ _ _ hc hf).1)
    · exact (hs.fork c r f hc hf).2 id hid
  · rintro ⟨rfl, rfl⟩
    exact habove

/-! ### A batch -/

/-- The ids of conversations and entries have a record type. -/
def Typed (s : State ρ) : Prop :=
  ∀ id, (Assoc.get id s.conversations).isSome = true ∨ (Assoc.get id s.entries).isSome = true →
    (Assoc.get id s.recordTypes).isSome = true

theorem Typed.free (hs : s.Typed) (hid : Assoc.get id s.recordTypes = none) :
    Assoc.get id s.conversations = none ∧ Assoc.get id s.entries = none := by
  refine ⟨not_isSome_iff_eq_none.mp fun h => ?_, not_isSome_iff_eq_none.mp fun h => ?_⟩
  · have hsome := hs id (.inl h)
    rw [hid] at hsome
    cases hsome
  · have hsome := hs id (.inr h)
    rw [hid] at hsome
    cases hsome

/-- A write whose id, if it may be written once only, is not taken. -/
def Fresh (s : State ρ) : StorageWrite ρ → Prop
  | .conversation value => Assoc.get value.id s.recordTypes = none
  | .entry value => Assoc.get value.id s.recordTypes = none
  | _ => True

def FreshAll (seq : ℤ) (s : State ρ) : Writes ρ → Prop
  | [] => True
  | write :: writes => s.Fresh write ∧ FreshAll seq (s.applyWrite seq write) writes

theorem applyWrite_types (write : StorageWrite ρ) (id : ℤ) :
    (Assoc.get id (s.applyWrite seq write).recordTypes).isSome = true →
      (claim write).any (fun claim => claim.2 = id) = true ∨
        (Assoc.get id s.recordTypes).isSome = true := by
  have hset : ∀ (key : ℤ) (table : TableName),
      (Assoc.get id (Assoc.set key table s.recordTypes)).isSome = true →
        decide (key = id) = true ∨ (Assoc.get id s.recordTypes).isSome = true := by
    intro key table h
    rw [Assoc.get_set] at h
    split_ifs at h with hkey
    · exact .inl (decide_eq_true hkey)
    · exact .inr h
  cases write with
  | conversation value => exact hset value.id .conversation
  | entry value => exact hset value.id .entry
  | task key => exact hset key .task
  | submission key => exact hset key .submission
  | _ => exact .inr

theorem freshAll_of_check {claimed : List (ℤ × TableName)}
    (h : s.checkGlobalIds claimed writes = .ok ())
    (hs' : ∀ id, (Assoc.get id s'.recordTypes).isSome = true →
      (Assoc.get id s.recordTypes).isSome = true ∨ (Assoc.get id claimed).isSome = true) :
    s'.FreshAll seq writes := by
  induction writes generalizing claimed s' with
  | nil => trivial
  | cons write writes ih =>
    cases hclaim : claim write with
    | none =>
      rw [checkGlobalIds, hclaim] at h
      have hsame : (s'.applyWrite seq write) = s' ∧ s'.Fresh write := by
        cases write with
        | change id content | retire id => exact ⟨rfl, trivial⟩
        | _ => cases hclaim
      refine ⟨hsame.2, ?_⟩
      rw [hsame.1]
      exact ih h hs'
    | some claim' =>
      obtain ⟨table, id⟩ := claim'
      have hrest : s.checkGlobalIds (Assoc.set id table claimed) writes = .ok () ∧
          (table = .conversation ∨ table = .entry ∨ table = .document →
            Assoc.get id s.recordTypes = none ∧ Assoc.get id claimed = none) := by
        rw [checkGlobalIds, hclaim] at h
        dsimp only at h
        cases hexisting : Assoc.get id s.recordTypes with
        | some existing =>
          rw [hexisting] at h
          dsimp only at h
          split_ifs at h with honce hearlier
          exact ⟨h, fun hyes => absurd (.inl hyes) honce⟩
        | none =>
          rw [hexisting] at h
          cases hearlier : Assoc.get id claimed with
          | some earlier =>
            rw [hearlier] at h
            dsimp only at h
            split_ifs at h with honce hother
            exact ⟨h, fun hyes => absurd hyes honce⟩
          | none =>
            rw [hearlier] at h
            exact ⟨h, fun _ => ⟨rfl, rfl⟩⟩
      obtain ⟨hcheck, honce⟩ := hrest
      have hfree : table = .conversation ∨ table = .entry ∨ table = .document →
          Assoc.get id s'.recordTypes = none := by
        intro htable
        obtain ⟨hexisting, hearlier⟩ := honce htable
        refine not_isSome_iff_eq_none.mp fun hsome => ?_
        obtain hs | hclaimed := hs' id hsome
        · rw [hexisting] at hs
          cases hs
        · rw [hearlier] at hclaimed
          cases hclaimed
      refine ⟨?_, ih hcheck fun id' hid' => ?_⟩
      · cases write with
        | conversation value =>
          cases hclaim
          exact hfree (.inl rfl)
        | entry value =>
          cases hclaim
          exact hfree (.inr (.inl rfl))
        | _ => trivial
      · rw [Assoc.get_set]
        obtain hnew | hold := applyWrite_types write id' hid'
        · rw [hclaim] at hnew
          rw [if_pos (of_decide_eq_true hnew)]
          exact .inr rfl
        · obtain hs | hclaimed := hs' id' hold
          · exact .inl hs
          · split_ifs
            · exact .inr rfl
            · exact .inr hclaimed

theorem typed_of_sets {conversations : List (ℤ × ConversationRecord)}
    {entries : List (ℤ × EntryRecord ρ)} {table : TableName} (hs : s.Typed)
    (hc : ∀ id', (Assoc.get id' conversations).isSome = true →
      id = id' ∨ (Assoc.get id' s.conversations).isSome = true)
    (he : ∀ id', (Assoc.get id' entries).isSome = true →
      id = id' ∨ (Assoc.get id' s.entries).isSome = true) (id' : ℤ)
    (h : (Assoc.get id' conversations).isSome = true ∨ (Assoc.get id' entries).isSome = true) :
    (Assoc.get id' (Assoc.set id table s.recordTypes)).isSome = true := by
  rw [Assoc.get_set]
  by_cases hid : id = id'
  · rw [if_pos hid]
    rfl
  · rw [if_neg hid]
    refine hs id' (h.imp (fun h => ?_) fun h => ?_)
    · exact (hc id' h).resolve_left hid
    · exact (he id' h).resolve_left hid

theorem isSome_of_set {α : Type} {m : List (ℤ × α)} {id' : ℤ} {v : α}
    (h : (Assoc.get id' (Assoc.set id v m)).isSome = true) :
    id = id' ∨ (Assoc.get id' m).isSome = true := by
  rw [Assoc.get_set] at h
  split_ifs at h with hid
  · exact .inl hid
  · exact .inr h

theorem applyWrite_typed (hs : s.Typed) (write : StorageWrite ρ) :
    (s.applyWrite seq write).Typed := by
  cases write with
  | conversation value => exact typed_of_sets hs (fun _ h => isSome_of_set h) fun _ h => .inr h
  | entry value => exact typed_of_sets hs (fun _ h => .inr h) fun _ h => isSome_of_set h
  | task id | submission id => exact typed_of_sets hs (fun _ h => .inr h) fun _ h => .inr h
  | _ => exact hs

theorem write_step (hs : s.Forest) (htyped : s.Typed) {write : StorageWrite ρ}
    (hfresh : s.Fresh write) (hminted : s.Minted write) :
    (s.applyWrite seq write).Forest ∧ Grown s (s.applyWrite seq write) := by
  cases write with
  | conversation value => exact conversation_step hs (htyped.free hfresh).1 hminted
  | entry value => exact entry_step hs (htyped.free hfresh).2 hminted
  | task id =>
    have hsame : SameEntries s (s.applyWrite seq (.task id)) := ⟨rfl, rfl, rfl, rfl⟩
    exact ⟨hsame.forest hs, hsame.grown⟩
  | submission id =>
    have hsame : SameEntries s (s.applyWrite seq (.submission id)) := ⟨rfl, rfl, rfl, rfl⟩
    exact ⟨hsame.forest hs, hsame.grown⟩
  | _ => exact ⟨hs, Grown.refl s⟩

theorem writes_step (hs : s.Forest) (htyped : s.Typed) (hfresh : s.FreshAll seq writes)
    (hminted : s.MintedAll seq writes) :
    (writes.foldl (fun s write => s.applyWrite seq write) s).Forest ∧
      (writes.foldl (fun s write => s.applyWrite seq write) s).Typed ∧
      Grown s (writes.foldl (fun s write => s.applyWrite seq write) s) := by
  induction writes generalizing s with
  | nil => exact ⟨hs, htyped, Grown.refl s⟩
  | cons write writes ih =>
    obtain ⟨hforest, hgrown⟩ := @write_step ρ s seq hs htyped write hfresh.1 hminted.1
    obtain ⟨hforest', htyped', hgrown'⟩ :=
      ih hforest (applyWrite_typed htyped write) hfresh.2 hminted.2
    exact ⟨hforest', htyped', hgrown.trans hgrown'⟩

theorem applyAction_same (id : ℤ) (action : DocumentAction) (hs : s.Typed) :
    SameEntries s (s.applyAction seq id action) ∧ (s.applyAction seq id action).Typed := by
  unfold applyAction
  cases actOn seq action (Assoc.get id s.documents) with
  | none => exact ⟨⟨rfl, rfl, rfl, rfl⟩, hs⟩
  | some stored =>
    refine ⟨⟨rfl, rfl, rfl, rfl⟩, fun id' h => ?_⟩
    show (Assoc.get id' (if action.create.isSome then Assoc.set id .document s.recordTypes
      else s.recordTypes)).isSome = true
    split_ifs
    · exact typed_of_sets hs (fun _ h => .inr h) (fun _ h => .inr h) id' h
    · exact hs id' h

theorem applyDocumentActions_same (actions : DocumentActions) (hs : s.Typed) :
    SameEntries s (s.applyDocumentActions seq actions) ∧
      (s.applyDocumentActions seq actions).Typed := by
  induction actions generalizing s with
  | nil => exact ⟨⟨rfl, rfl, rfl, rfl⟩, hs⟩
  | cons action actions ih =>
    obtain ⟨hsame, htyped⟩ := @applyAction_same ρ s seq action.1 action.2 hs
    obtain ⟨hsame', htyped'⟩ := ih htyped
    exact ⟨⟨hsame'.conversations.trans hsame.conversations, hsame'.entries.trans hsame.entries,
      hsame'.entryIds.trans hsame.entryIds, hsame'.headEntryIds.trans hsame.headEntryIds⟩, htyped'⟩

theorem resolveWrite_ok {changed : List ℤ} {write resolved : StorageWrite ρ}
    (h : s.resolveWrite owned changed write = .ok resolved) :
    resolved = write ∨ ∃ record source version value, write = .copy record source ∧
      resolved = .create record version value := by
  cases write with
  | copy record source =>
    rw [resolveWrite] at h
    cases hcopy : s.resolveCopy owned changed record source with
    | error e =>
      rw [hcopy] at h
      cases h
    | ok found =>
      rw [hcopy] at h
      cases h
      refine .inr ⟨record, source, ?_⟩
      unfold resolveCopy at hcopy
      split_ifs at hcopy with hchanged
      obtain ⟨stored, -, hcopy⟩ := bind_eq_ok hcopy
      cases stored with
      | none => cases hcopy
      | some stored =>
        dsimp only at hcopy
        split at hcopy
        · split_ifs at hcopy
          cases hcopy
          exact ⟨_, _, rfl, rfl⟩
        · cases hcopy
  | _ =>
    cases h
    exact .inl rfl

theorem mintedAll_of_resolve {changed : List ℤ} {resolved : Writes ρ}
    (h : writes.mapM (s.resolveWrite owned changed) = .ok resolved)
    (hminted : s'.MintedAll seq writes) : s'.MintedAll seq resolved := by
  induction writes generalizing s' resolved with
  | nil =>
    cases h
    trivial
  | cons write writes ih =>
    rw [mapM_cons] at h
    obtain ⟨first, hfirst, h⟩ := bind_eq_ok h
    obtain ⟨rest, hrest, h⟩ := bind_eq_ok h
    cases h
    obtain rfl | ⟨record, source, version, value, rfl, rfl⟩ := resolveWrite_ok hfirst
    · exact ⟨hminted.1, ih hrest hminted.2⟩
    · exact ⟨trivial, ih hrest hminted.2⟩

theorem prepared_writes {prepared : PreparedMemoryCommit ρ} (hs : s.Forest) (htyped : s.Typed)
    (hminted : s.MintedAll seq writes) (h : s.prepareCommit owned writes seq = .ok prepared) :
    s.FreshAll seq prepared.writes ∧ s.MintedAll seq prepared.writes ∧
      SameEntries (prepared.writes.foldl (fun s write => s.applyWrite seq write) s)
        (s.apply prepared) ∧ (s.apply prepared).Typed := by
  obtain ⟨rfl, -, hresolved, hcheck, -, -⟩ := prepareCommit_ok h
  have hfresh : s.FreshAll prepared.seq prepared.writes :=
    freshAll_of_check hcheck fun id hid => .inl hid
  have hminted' := mintedAll_of_resolve hresolved hminted
  obtain ⟨-, htyped', -⟩ := writes_step hs htyped hfresh hminted'
  obtain ⟨hsame, htyped''⟩ := @applyDocumentActions_same ρ _ prepared.seq prepared.actions htyped'
  exact ⟨hfresh, hminted',
    { hsame with }, htyped''⟩

theorem commit_step {prepared : PreparedMemoryCommit ρ} (hs : s.Forest) (htyped : s.Typed)
    (hminted : s.MintedAll seq writes) (h : s.prepareCommit owned writes seq = .ok prepared) :
    (s.apply prepared).Forest ∧ (s.apply prepared).Typed ∧ Grown s (s.apply prepared) := by
  obtain ⟨hfresh, hminted', happly, htyped'⟩ := prepared_writes hs htyped hminted h
  obtain ⟨hforest, -, hgrown⟩ := writes_step hs htyped hfresh hminted'
  exact ⟨happly.forest hforest, htyped', hgrown.trans happly.grown⟩

theorem init_forest : (State.init : State ρ).Forest := by
  refine ⟨fun _ => List.Pairwise.nil, fun _ _ => ⟨fun h => (by cases h), ?_⟩,
    fun _ _ h => (by cases h), fun _ _ h => (by cases h), fun _ _ h => (by cases h),
    fun _ => List.Pairwise.nil,
    fun _ _ => ⟨fun h => (by cases h), fun h => (by cases h.1)⟩,
    ⟨fun _ => 0, fun _ _ h => (by cases h)⟩, fun _ _ _ h => (by cases h)⟩
  rintro ⟨e, he, -⟩
  cases he

theorem perform_step {owned : ℕ → Bool} {event : MemoryEvent ρ} (hs : s.Forest) (htyped : s.Typed)
    (horderly : s.Orderly event) :
    (s.perform owned event).Forest ∧ (s.perform owned event).Typed ∧
      Grown s (s.perform owned event) := by
  cases event with
  | mint =>
    rw [perform, mintId]
    by_cases hsafe : MAX_SAFE_INTEGER < s.nextId
    · rw [if_pos hsafe]
      exact ⟨hs, htyped, Grown.refl s⟩
    · rw [if_neg hsafe]
      have hsame : SameEntries s { s with nextId := s.nextId + 1 } := ⟨rfl, rfl, rfl, rfl⟩
      exact ⟨hsame.forest hs, htyped, hsame.grown⟩
  | commit writes seq =>
    rw [perform]
    cases hprepared : s.prepareCommit owned writes seq with
    | error e => exact ⟨hs, htyped, Grown.refl s⟩
    | ok prepared => exact commit_step hs htyped horderly hprepared

theorem steps_forest (h : (memorySystem ρ owned).Steps Orderly s s') (hs : s.Forest)
    (htyped : s.Typed) : s'.Forest ∧ s'.Typed ∧ Grown s s' := by
  induction h with
  | refl => exact ⟨hs, htyped, Grown.refl _⟩
  | tail _ hstep horderly ih =>
    obtain ⟨hforest, htyped', hgrown⟩ := ih
    rw [show _ = _ from hstep]
    obtain ⟨hforest', htyped'', hgrown'⟩ := @perform_step ρ _ owned _ hforest htyped' horderly
    exact ⟨hforest', htyped'', hgrown.trans hgrown'⟩

theorem reachable_forest (h : (memorySystem ρ owned).ReachableBy Orderly s) :
    s.Forest ∧ s.Typed := by
  obtain ⟨s₀, rfl, hsteps⟩ := h
  obtain ⟨hforest, htyped, -⟩ :=
    steps_forest hsteps init_forest fun _ h => h.elim (fun h => by cases h) fun h => by cases h
  exact ⟨hforest, htyped⟩

/-! ### The transcript over a run -/

theorem Grown.transcript (hgrown : Grown s s') (hs : s.Forest) (hs' : s'.Forest) {c : ℤ}
    {r : ConversationRecord} (hc : Assoc.get c s.conversations = some r) :
    ∃ newer, s'.transcript c = newer ++ s.transcript c ∧
      ∀ e ∈ newer, ∀ e' ∈ s.transcript c, e'.id < e.id := by
  have hold := (transcript_shows hs hc).2
  have hnow := (transcript_shows hs' (hgrown.conversations c r hc)).2
  have hnewer : ∀ e ∈ (s'.transcript c).filter (fun e => e.id ∉ (s.transcript c).map (·.id)),
      ∀ e' ∈ s.transcript c, e'.id < e.id := by
    intro e he e' he'
    obtain ⟨hmem, hnot⟩ := mem_filter.mp he
    obtain ⟨hsees, -⟩ := (hnow.mem e.id).mp (mem_map_of_mem hmem)
    obtain ⟨hsees', -⟩ := (hold.mem e'.id).mp (mem_map_of_mem he')
    obtain hsaw | habove := hgrown.above c r e.id hc hsees
    · exact absurd ((hold.mem e.id).mpr ⟨hsaw, rfl, rfl⟩) (of_decide_eq_true hnot)
    · exact habove e'.id hsees'
  refine ⟨_, hnow.unique ⟨?_, fun id => ?_, fun e he => ?_⟩, hnewer⟩
  · rw [map_append]
    refine pairwise_append.mpr ⟨hnow.sorted.sublist (filter_sublist.map _), hold.sorted,
      fun a ha b hb => ?_⟩
    obtain ⟨e, he, rfl⟩ := mem_map.mp ha
    obtain ⟨e', he', rfl⟩ := mem_map.mp hb
    exact hnewer e he e' he'
  · rw [map_append, mem_append, hold.mem]
    constructor
    · rintro (hid | ⟨hsees, -⟩)
      · obtain ⟨e, he, rfl⟩ := mem_map.mp hid
        exact (hnow.mem e.id).mp (mem_map_of_mem (mem_filter.mp he).1)
      · exact ⟨hgrown.keeps c id hsees, rfl, rfl⟩
    · intro hid
      obtain ⟨e, he, rfl⟩ := mem_map.mp ((hnow.mem id).mpr hid)
      by_cases hwas : e.id ∈ (s.transcript c).map (·.id)
      · exact .inr ((hold.mem e.id).mp hwas)
      · exact .inl (mem_map_of_mem (mem_filter.mpr ⟨he, decide_eq_true hwas⟩))
  · obtain he | he := mem_append.mp he
    · exact hnow.stored e (mem_filter.mp he).1
    · exact hgrown.entries e.id e (hold.stored e he)

end State

end KnightCode.Memory
