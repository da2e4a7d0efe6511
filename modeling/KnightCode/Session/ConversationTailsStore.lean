import KnightCode.Durable.MemoryEntriesRuns
import KnightCode.Library.WriteBehind
import KnightCode.Session.ConversationTails

/-!
# The tails of a Storage

The newest entry and the newest head marker that a conversation sees, as values that single writes
change: an entry is the newest of its own conversation and of no other, also of none that was forked
from it, and a new root conversation has none. What Storage answers is these values.
-/

open List

namespace KnightCode.Memory.State

variable {ρ : Type} {s s' : State ρ} {seq : ℤ} {c : ℤ}
variable {value : ConversationRecord}

/-- What the newest entry that a conversation sees, of those that have it, has. -/
def newest {τ : Type} (select : EntryRecord ρ → Option τ) (s : State ρ) (c : ℤ) : Option τ :=
  (s.transcript c).findSome? select

def HasConversation (s : State ρ) (c : ℤ) : Prop :=
  (Assoc.get c s.conversations).isSome

/-! ### The transcript after a write -/

theorem transcript_same (hs : s.Forest) (hs' : s'.Forest) (hgrown : Grown s s')
    (hc : s.HasConversation c) (hback : ∀ id, s'.Sees c id → s.Sees c id) :
    s'.transcript c = s.transcript c := by
  obtain ⟨r, hr⟩ := Option.isSome_iff_exists.mp hc
  have hold := (transcript_shows hs hr).2
  have hnow := (transcript_shows hs' (hgrown.conversations c r hr)).2
  refine hnow.unique ⟨hold.sorted, fun id => ?_, fun e he => ?_⟩
  · rw [hold.mem]
    exact and_congr_left' ⟨hgrown.keeps c id, hback id⟩
  · exact hgrown.entries e.id e (hold.stored e he)

theorem transcript_entry (hs : s.Forest) {value : EntryRecord ρ}
    (hfresh : Assoc.get value.id s.entries = none) (hminted : s.Minted (.entry value))
    (hc : s.HasConversation c) :
    (s.applyWrite seq (.entry value)).transcript c =
      if value.conversationId = c then value :: s.transcript c else s.transcript c := by
  obtain ⟨hforest, hgrown⟩ := @entry_step ρ s seq hs value hfresh hminted
  obtain ⟨r, hr⟩ := Option.isSome_iff_exists.mp hc
  have hold := (transcript_shows hs hr).2
  have hnow := (transcript_shows hforest (hgrown.conversations c r hr)).2
  have hstored : ∀ e ∈ s.transcript c,
      Assoc.get e.id (s.applyWrite seq (.entry value)).entries = some e :=
    fun e he => hgrown.entries e.id e (hold.stored e he)
  split_ifs with hhome
  · have hown : (s.applyWrite seq (.entry value)).Sees c value.id := by
      exact .own ((Assoc.get_set value.id value.id value s.entries).trans (if_pos rfl)) hhome
    refine hnow.unique ⟨?_, fun id => ?_, forall_mem_cons.mpr ⟨?_, hstored⟩⟩
    · rw [map_cons, pairwise_cons]
      refine ⟨fun id hid => ?_, hold.sorted⟩
      have hsees := ((hold.mem id).mp hid).1
      rw [← hhome] at hsees
      exact hminted.2.2.2 id hsees
    · rw [map_cons, mem_cons, hold.mem]
      constructor
      · rintro (rfl | ⟨hsees, -⟩)
        · exact ⟨hown, rfl, rfl⟩
        · exact ⟨hgrown.keeps c id hsees, rfl, rfl⟩
      · rintro ⟨hsees, -⟩
        rcases sees_entry hs hminted hsees with hsees | ⟨-, rfl⟩
        · exact .inr ⟨hsees, rfl, rfl⟩
        · exact .inl rfl
    · exact (Assoc.get_set value.id value.id value s.entries).trans (if_pos rfl)
  · apply transcript_same hs hforest hgrown hc
    intro id hsees
    rcases sees_entry hs hminted hsees with hsees | ⟨heq, -⟩
    · exact hsees
    · exact absurd heq hhome

theorem transcript_conversation (hs : s.Forest) (hfresh : Assoc.get value.id s.conversations = none)
    (hminted : s.Minted (.conversation value)) (hc : s.HasConversation c) :
    (s.applyWrite seq (.conversation value)).transcript c = s.transcript c := by
  obtain ⟨hforest, hgrown⟩ := @conversation_step ρ s seq hs value hfresh hminted
  exact transcript_same hs hforest hgrown hc fun id hsees => sees_conversation hs hfresh hsees hc

theorem transcript_root (hs : s.Forest) (hfresh : Assoc.get value.id s.conversations = none)
    (hminted : s.Minted (.conversation value)) (hroot : value.parent = none) :
    (s.applyWrite seq (.conversation value)).transcript value.id = [] := by
  obtain ⟨hforest, -⟩ := @conversation_step ρ s seq hs value hfresh hminted
  have hvalue := @get_conversation ρ s seq value value.id
  rw [if_pos rfl] at hvalue
  have hnow := (transcript_shows hforest hvalue).2
  refine hnow.unique ⟨List.Pairwise.nil, fun id => ⟨nofun, ?_⟩, nofun⟩
  rintro ⟨hsees, -⟩
  cases hsees with
  | own he hhome =>
    have hexists := hs.home id _ he
    rw [hhome, hfresh] at hexists
    cases hexists
  | inherited hconversation hparent _ _ =>
    rw [hvalue, Option.some.injEq] at hconversation
    rw [← hconversation, hroot] at hparent
    cases hparent

end KnightCode.Memory.State

namespace KnightCode

open Memory State Follower

variable {ρ : Type} {s s' : State ρ} {seq c : ℤ}
variable {owned : ℕ → Bool} {cutoff : Option ℤ} {found : Option (EntryRecord ρ)}

/-- The newest of the entries a conversation sees, as a table of conversations hears of them. -/
def tailOf {τ : Type} (select : EntryRecord ρ → Option τ) :
    Follower (State ρ) (StorageWrite ρ) ℤ (Option τ) where
  known := HasConversation
  value := newest select
  changes
    | .entry entry => (select entry).map fun x => (entry.conversationId, some x)
    | _ => none
  keeps
    | .conversation value => if value.parent.isSome then none else some (value.id, none)
    | .entry entry => (select entry).map fun x => (entry.conversationId, some x)
    | _ => none

/-- Every entry counts for the newest one. -/
def entryId (entry : EntryRecord ρ) : Option ℤ :=
  some entry.id

def headMarker (entry : EntryRecord ρ) : Option (EntryRecord ρ) :=
  if entry.head.isSome then some entry else none

/-- What one write does to what conversations see. -/
inductive Effect (s s' : State ρ) : StorageWrite ρ → Prop
  | entry {value : EntryRecord ρ} (home : s.HasConversation value.conversationId)
      (exists' : ∀ c, s.HasConversation c → s'.HasConversation c)
      (transcript : ∀ c, s.HasConversation c → s'.transcript c =
        if value.conversationId = c then value :: s.transcript c else s.transcript c) :
      Effect s s' (.entry value)
  | conversation {value : ConversationRecord} (new : s'.HasConversation value.id)
      (exists' : ∀ c, s.HasConversation c → s'.HasConversation c)
      (transcript : ∀ c, s.HasConversation c → s'.transcript c = s.transcript c)
      (root : value.parent = none → s'.transcript value.id = []) : Effect s s' (.conversation value)
  | other {w : StorageWrite ρ} (hentry : ∀ value, w ≠ .entry value)
      (hconversation : ∀ value, w ≠ .conversation value)
      (exists' : ∀ c, s.HasConversation c → s'.HasConversation c)
      (transcript : ∀ c, s.HasConversation c → s'.transcript c = s.transcript c) : Effect s s' w

theorem same_effect (hsame : SameEntries s s') (hs : s.Forest) (hc : s.HasConversation c) :
    s'.HasConversation c ∧ s'.transcript c = s.transcript c := by
  refine ⟨?_, transcript_same hs (hsame.forest hs) hsame.grown hc fun id => hsame.symm.sees⟩
  rw [HasConversation, hsame.conversations]
  exact hc

theorem write_effect (hs : s.Forest) (htyped : s.Typed) {w : StorageWrite ρ} (hfresh : s.Fresh w)
    (hminted : s.Minted w) : Effect s (s.applyWrite seq w) w := by
  cases w with
  | conversation value =>
    have hfree := (htyped.free hfresh).1
    refine .conversation ?_ (fun c hc => ?_)
      (fun c hc => transcript_conversation hs hfree hminted hc)
      (fun hroot => transcript_root hs hfree hminted hroot)
    · rw [HasConversation, get_conversation, if_pos rfl]
      rfl
    · rw [HasConversation, get_conversation]
      split_ifs
      · rfl
      · exact hc
  | entry value =>
    exact .entry hminted.1 (fun c hc => hc)
      (fun c hc => transcript_entry hs (htyped.free hfresh).2 hminted hc)
  | task id =>
    have hsame : SameEntries s (s.applyWrite seq (.task id)) := ⟨rfl, rfl, rfl, rfl⟩
    exact .other (by simp) (by simp) (fun c hc => (same_effect hsame hs hc).1)
      (fun c hc => (same_effect hsame hs hc).2)
  | submission id =>
    have hsame : SameEntries s (s.applyWrite seq (.submission id)) := ⟨rfl, rfl, rfl, rfl⟩
    exact .other (by simp) (by simp) (fun c hc => (same_effect hsame hs hc).1)
      (fun c hc => (same_effect hsame hs hc).2)
  | _ => exact .other (by simp) (by simp) (fun c hc => hc) fun c hc => rfl

theorem Effect.follows {τ : Type} {w : StorageWrite ρ} (h : Effect s s' w)
    (select : EntryRecord ρ → Option τ) : (tailOf select).Follows s w s' := by
  cases h with
  | @entry value home exists' transcript =>
    have hown : ∀ x, select value = some x → s'.newest select value.conversationId = some x := by
      intro x hx
      rw [newest, transcript _ home, if_pos rfl, List.findSome?_cons_of_isSome]
      · exact hx
      · rw [hx]
        rfl
    refine ⟨exists', fun c hc hother => ?_, fun c x hx => ?_, fun c x hx => ?_, fun c x hx => hx⟩
    · show s'.newest select c = s.newest select c
      rw [newest, transcript c hc]
      split_ifs with hhome
      · subst hhome
        cases hselect : select value with
        | none => rw [List.findSome?_cons, hselect, newest]
        | some x =>
          refine absurd ?_ (hother (some x))
          exact congrArg (Option.map _) hselect
      · rfl
    · obtain ⟨y, hy, heq⟩ := Option.map_eq_some_iff.mp hx
      cases heq
      exact hown y hy
    · obtain ⟨y, hy, heq⟩ := Option.map_eq_some_iff.mp hx
      cases heq
      exact ⟨exists' _ home, hown y hy⟩
  | @conversation value new exists' transcript root =>
    refine ⟨exists', fun c hc _ => ?_, nofun, fun c x hx => ?_, nofun⟩
    · exact congrArg (List.findSome? select) (transcript c hc)
    · dsimp only [tailOf] at hx
      split_ifs at hx with hparent
      cases hx
      refine ⟨new, ?_⟩
      exact congrArg (List.findSome? select) (root (Option.not_isSome_iff_eq_none.mp hparent))
  | other hentry hconversation exists' transcript =>
    have hchanges : (tailOf select).changes w = none := by
      cases w with
      | entry value => exact absurd rfl (hentry value)
      | _ => rfl
    have hkeeps : (tailOf select).keeps w = none := by
      cases w with
      | entry value => exact absurd rfl (hentry value)
      | conversation value => exact absurd rfl (hconversation value)
      | _ => rfl
    refine ⟨exists', fun c hc _ => congrArg (List.findSome? select) (transcript c hc), ?_, ?_, ?_⟩
    · rw [hchanges]
      exact nofun
    · rw [hkeeps]
      exact nofun
    · rw [hchanges]
      exact nofun

theorem Effect.of_resolved {s₀ : State ρ} {changed : List ℤ} {w resolved : StorageWrite ρ}
    (h : Effect s s' resolved) (hresolved : s₀.resolveWrite owned changed w = .ok resolved) :
    Effect s s' w := by
  obtain rfl | ⟨record, source, version, value, rfl, rfl⟩ := resolveWrite_ok hresolved
  · exact h
  · cases h with
    | other _ _ exists' transcript => exact .other (by simp) (by simp) exists' transcript

theorem behind_writes {τ : Type} {select : EntryRecord ρ → Option τ} {s₀ : State ρ}
    {changed : List ℤ} {writes resolved pending : Writes ρ}
    {peek : ℤ → Option (Option τ)} (h : writes.mapM (s₀.resolveWrite owned changed) = .ok resolved)
    (hs : s.Forest) (htyped : s.Typed) (hfresh : s.FreshAll seq resolved)
    (hminted : s.MintedAll seq resolved) (hbehind : (tailOf select).Behind s pending peek) :
    (tailOf select).Behind (resolved.foldl (fun s write => s.applyWrite seq write) s)
      (pending ++ writes) peek := by
  induction writes generalizing s resolved pending with
  | nil =>
    cases h
    rw [append_nil]
    exact hbehind
  | cons write writes ih =>
    rw [mapM_cons] at h
    obtain ⟨first, hfirst, h⟩ := Except.bind_eq_ok h
    obtain ⟨rest, hrest, h⟩ := Except.bind_eq_ok h
    cases h
    obtain ⟨hforest, -⟩ := @write_step ρ s seq hs htyped first hfresh.1 hminted.1
    have heffect := (@write_effect ρ s seq hs htyped first hfresh.1 hminted.1).of_resolved hfirst
    have hmore := ih hrest hforest (applyWrite_typed htyped first) hfresh.2 hminted.2
      (hbehind.write (heffect.follows select))
    rw [append_assoc] at hmore
    exact hmore

theorem behind_commit {τ : Type} {select : EntryRecord ρ → Option τ}
    {writes pending : Writes ρ} {prepared : PreparedMemoryCommit ρ}
    {peek : ℤ → Option (Option τ)} (hs : s.Forest) (htyped : s.Typed)
    (hminted : s.MintedAll seq writes) (h : s.prepareCommit owned writes seq = .ok prepared)
    (hbehind : (tailOf select).Behind s pending peek) :
    (tailOf select).Behind (s.apply prepared) (pending ++ writes) peek := by
  obtain ⟨-, -, hresolved, -, -, -⟩ := prepareCommit_ok h
  obtain ⟨hfresh, hminted', happly, -⟩ := prepared_writes hs htyped hminted h
  obtain ⟨hforest, -, -⟩ := writes_step hs htyped hfresh hminted'
  refine (behind_writes hresolved hs htyped hfresh hminted' hbehind).congr
    (fun c hc => (same_effect happly hforest hc).1) fun c hc => ?_
  exact congrArg (List.findSome? select) (same_effect happly hforest hc).2

/-! ### What Storage answers -/

variable (l : List (EntryRecord ρ))

theorem findSome?_entryId : l.findSome? entryId = l.head?.map (·.id) := by
  cases l with
  | nil => rfl
  | cons e l => rfl

theorem findSome?_headMarker : l.findSome? headMarker = l.find? fun e => e.head.isSome := by
  induction l with
  | nil => rfl
  | cons e l ih =>
    rw [List.findSome?_cons, find?_cons, headMarker]
    cases h : e.head.isSome with
    | true => rfl
    | false => exact ih

theorem newest_entryId (s : State ρ) (c : ℤ) :
    s.newest entryId c = (s.transcript c).head?.map (·.id) :=
  findSome?_entryId _

theorem newest_headMarker (s : State ρ) (c : ℤ) :
    s.newest headMarker c = (s.transcript c).find? fun e => e.head.isSome :=
  findSome?_headMarker _

theorem bounded_none : bounded none none l = l := by
  simp [bounded]

theorem readLatest_eq (hs : s.Forest) (hc : s.HasConversation c) :
    s.readLatest c = .ok (s.newest entryId c) := by
  obtain ⟨r, hr⟩ := Option.isSome_iff_exists.mp hc
  have hvisible := (visible_eq hs hr none none).1
  rw [bounded_none] at hvisible
  rw [readLatest, scanEntries, newest_entryId]
  dsimp only [bind, Except.bind, scanStart, Option.getD_none, narrow]
  rw [hvisible]
  dsimp only
  rw [page_eq EntryRecord.id _ le_rfl]
  cases s.transcript c with
  | nil => rfl
  | cons e l => rfl

theorem bounded_of_latest (hs : s.Forest) (hc : s.HasConversation c) {cutoff : ℤ}
    (hcutoff : (s.newest entryId c).getD 0 ≤ cutoff) :
    bounded none (some cutoff) (s.transcript c) = s.transcript c := by
  obtain ⟨r, hr⟩ := Option.isSome_iff_exists.mp hc
  have hsorted := (transcript_shows hs hr).2.sorted
  rw [newest_entryId] at hcutoff
  rw [bounded, filter_eq_self]
  intro e hmem
  cases htranscript : s.transcript c with
  | nil =>
    rw [htranscript] at hmem
    exact absurd hmem not_mem_nil
  | cons first rest =>
    rw [htranscript, map_cons, pairwise_cons] at hsorted
    rw [htranscript] at hmem hcutoff
    have hfirst : first.id ≤ cutoff := hcutoff
    have hle : e.id ≤ cutoff := by
      rcases mem_cons.mp hmem with rfl | hmem
      · exact hfirst
      · exact ((hsorted.1 e.id (mem_map_of_mem hmem)).trans_le hfirst).le
    simpa using hle

theorem readMarker_known (hs : s.Forest) (hc : s.HasConversation c)
    (hfound : s.newest headMarker c = found)
    (hcutoff : ∀ marker, found = some marker → cutoff.all (marker.id ≤ ·) = true) :
    s.findLatestHeadMarker c cutoff = .ok found := by
  obtain ⟨r, hr⟩ := Option.isSome_iff_exists.mp hc
  rw [newest_headMarker] at hfound
  rw [head_eq hs hr cutoff, bounded, find?_filter]
  refine congrArg Except.ok ?_
  cases found with
  | none =>
    rw [find?_eq_none] at hfound ⊢
    intro e hmem htrue
    exact hfound e hmem (of_decide_eq_true htrue).2
  | some marker =>
    rw [find?_eq_some_iff_append] at hfound ⊢
    obtain ⟨hhead, newer, older, htranscript, hnewer⟩ := hfound
    have hwithin := hcutoff marker rfl
    refine ⟨decide_eq_true ⟨hwithin, hhead⟩, newer, older, htranscript, fun e hmem => ?_⟩
    have hno := hnewer e hmem
    rw [Bool.not_eq_true'] at hno ⊢
    exact decide_eq_false fun h => absurd h.2 (by rw [hno]; exact Bool.false_ne_true)

/-- A read without a cutoff, or with one that the newest entry does not exceed, finds the newest
head marker. -/
theorem readMarker_newest (hs : s.Forest) (hc : s.HasConversation c)
    (hcutoff : cutoff.all (fun cutoff => (s.newest entryId c).getD 0 ≤ cutoff) = true) :
    s.findLatestHeadMarker c cutoff = .ok (s.newest headMarker c) := by
  obtain ⟨r, hr⟩ := Option.isSome_iff_exists.mp hc
  rw [head_eq hs hr cutoff, newest_headMarker]
  cases cutoff with
  | none => rw [bounded_none]
  | some cutoff => rw [bounded_of_latest hs hc (of_decide_eq_true hcutoff)]

def headMarkerAt (cutoff : Option ℤ) (entry : EntryRecord ρ) : Option (EntryRecord ρ) :=
  if cutoff.all (entry.id ≤ ·) && entry.head.isSome then some entry else none

theorem readMarker_eq (hs : s.Forest) (hc : s.HasConversation c) (cutoff : Option ℤ) :
    s.findLatestHeadMarker c cutoff = .ok (s.newest (headMarkerAt cutoff) c) := by
  obtain ⟨r, hr⟩ := Option.isSome_iff_exists.mp hc
  rw [head_eq hs hr cutoff, newest, bounded]
  refine congrArg Except.ok ?_
  generalize s.transcript c = l
  induction l with
  | nil => rfl
  | cons e l ih =>
    rw [List.findSome?_cons, headMarkerAt, filter_cons]
    rw [Option.all_none, Bool.true_and]
    cases hwithin : cutoff.all (e.id ≤ ·) with
    | false => exact ih
    | true =>
      rw [if_pos rfl, find?_cons]
      cases hhead : e.head.isSome with
      | false => exact ih
      | true => rfl

theorem hasConversation_of_readLatest {id : Option ℤ} (h : s.readLatest c = .ok id) :
    s.HasConversation c := by
  by_contra hno
  have hnone : Assoc.get c s.conversations = none := Option.not_isSome_iff_eq_none.mp hno
  rw [readLatest, scanEntries] at h
  dsimp only [bind, Except.bind, scanStart, Option.getD_none, narrow] at h
  rw [visibleEntries, hnone] at h
  cases h

theorem hasConversation_of_readMarker (h : s.findLatestHeadMarker c cutoff = .ok found) :
    s.HasConversation c := by
  by_contra hno
  have hnone : Assoc.get c s.conversations = none := Option.not_isSome_iff_eq_none.mp hno
  rw [findLatestHeadMarker, hnone] at h
  cases h

namespace Memory.State

/-- The newest entry that a conversation sees. -/
def NewestSeen (s : State ρ) (c : ℤ) : Option ℤ → Prop
  | none => ∀ id, ¬ s.Sees c id
  | some id => IsGreatest {id | s.Sees c id} id

/-- A head marker that a conversation sees, at or before a cutoff. -/
structure MarkerSeen (s : State ρ) (c : ℤ) (cutoff : Option ℤ) (entry : EntryRecord ρ) :
    Prop where
  sees : s.Sees c entry.id
  stored : Assoc.get entry.id s.entries = some entry
  head : entry.head.isSome
  within : cutoff.all (entry.id ≤ ·) = true

def NewestMarker (s : State ρ) (c : ℤ) (cutoff : Option ℤ) : Option (EntryRecord ρ) → Prop
  | none => ∀ entry, ¬ s.MarkerSeen c cutoff entry
  | some entry => s.MarkerSeen c cutoff entry ∧
      ∀ other, s.MarkerSeen c cutoff other → other.id ≤ entry.id

end Memory.State

theorem readLatest_newestSeen (hs : s.Forest) {id : Option ℤ} (h : s.readLatest c = .ok id) :
    s.NewestSeen c id := by
  have hc := hasConversation_of_readLatest h
  obtain ⟨r, hr⟩ := Option.isSome_iff_exists.mp hc
  have hshows := (transcript_shows hs hr).2
  rw [readLatest_eq hs hc, Except.ok.injEq, newest_entryId] at h
  subst h
  have hmem : ∀ id, id ∈ (s.transcript c).map (·.id) ↔ s.Sees c id := by
    intro id
    rw [hshows.mem]
    exact ⟨fun h => h.1, fun h => ⟨h, rfl, rfl⟩⟩
  have hsorted := hshows.sorted
  cases htranscript : s.transcript c with
  | nil =>
    intro id hsees
    rw [← hmem, htranscript] at hsees
    exact absurd hsees not_mem_nil
  | cons first rest =>
    rw [htranscript, map_cons, pairwise_cons] at hsorted
    refine ⟨(hmem first.id).mp (by rw [htranscript]; exact mem_cons_self), fun id hid => ?_⟩
    have hid := (hmem id).mpr hid
    rw [htranscript, map_cons, mem_cons] at hid
    rcases hid with rfl | hid
    · exact le_rfl
    · exact (hsorted.1 id hid).le

theorem readMarker_newestMarker (hs : s.Forest) (h : s.findLatestHeadMarker c cutoff = .ok found) :
    s.NewestMarker c cutoff found := by
  have hc := hasConversation_of_readMarker h
  obtain ⟨r, hr⟩ := Option.isSome_iff_exists.mp hc
  have hshows := @Shows.filter ρ s c none cutoff _ (transcript_shows hs hr).2
  rw [head_eq hs hr cutoff, Except.ok.injEq, bounded] at h
  generalize (s.transcript c).filter (fun e => (none : Option ℤ).all (· ≤ e.id) &&
    cutoff.all (e.id ≤ ·)) = l at h hshows
  have hseen : ∀ e, e.head.isSome = true → (e ∈ l ↔ s.MarkerSeen c cutoff e) := by
    intro e hhead
    constructor
    · intro hmem
      obtain ⟨hsees, -, hwithin⟩ := (hshows.mem e.id).mp (mem_map_of_mem hmem)
      exact ⟨hsees, hshows.stored e hmem, hhead, hwithin⟩
    · intro hmarker
      obtain ⟨e', hmem, hid⟩ :=
        mem_map.mp ((hshows.mem e.id).mpr ⟨hmarker.sees, rfl, hmarker.within⟩)
      have hstored := hshows.stored e' hmem
      rw [hid, hmarker.stored, Option.some.injEq] at hstored
      rw [hstored]
      exact hmem
  cases found with
  | none =>
    rw [find?_eq_none] at h
    intro e hmarker
    exact h e ((hseen e hmarker.head).mpr hmarker) hmarker.head
  | some marker =>
    obtain ⟨hhead, newer, older, rfl, hnewer⟩ := find?_eq_some_iff_append.mp h
    refine ⟨(hseen marker hhead).mp (by simp), fun other hother => ?_⟩
    have hmem := (hseen other hother.head).mpr hother
    have hsorted := hshows.sorted
    rw [map_append, map_cons, pairwise_append, pairwise_cons] at hsorted
    rcases mem_append.mp hmem with hmem | hmem
    · have hno := hnewer other hmem
      rw [hother.head] at hno
      cases hno
    · rcases mem_cons.mp hmem with rfl | hmem
      · exact le_rfl
      · exact (hsorted.2.1.1 other.id (mem_map_of_mem hmem)).le

end KnightCode
