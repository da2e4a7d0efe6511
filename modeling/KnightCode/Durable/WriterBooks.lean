import KnightCode.Durable.Writer
import Mathlib.Data.List.Sublists
import Mathlib.Data.List.Range

/-!
# The writer's books

Every part is pending until its outcome is settled and its gate is open, and registered until it is
published or never will be. `Books` relates what the writer did so far to the parts pending,
registered and not yet run; each effect of the writer moves the first part of one of these lists.
-/

namespace KnightCode.GroupCommit

open List Option

variable {κ ω ε : Type*}

def Action.settled? : Action ε → Option ℕ
  | .resolved part => some part
  | .rejected part _ => some part
  | _ => none

def Action.opened? : Action ε → Option ℕ
  | .opened part => some part
  | _ => none

def Action.resolved? : Action ε → Option ℕ
  | .resolved part => some part
  | _ => none

/-- A part whose publication ran, adopted by memory or not. -/
def Action.ran? : Action ε → Option ℕ
  | .published part _ _ => some part
  | _ => none

/-- A part that was published: its publication ran, and memory adopted it. -/
def Action.published? : Action ε → Option ℕ
  | .published _ _ (some ⟨.adoption, _⟩) => none
  | .published part _ _ => some part
  | _ => none

def Action.IsFailed : Action ε → Prop
  | .failed .. => True
  | _ => False

def Action.IsSent : Action ε → Prop
  | .sent _ => True
  | _ => False

namespace Writer

variable (s : Writer κ ω ε)

def settled : List ℕ := s.trace.filterMap Action.settled?

def opened : List ℕ := s.trace.filterMap Action.opened?

def resolved : List ℕ := s.trace.filterMap Action.resolved?

def ran : List ℕ := s.trace.filterMap Action.ran?

def published : List ℕ := s.trace.filterMap Action.published?

end Writer

def numbers (parts : List (Part κ ω)) : List ℕ :=
  parts.map (fun part => part.number)

@[simp] theorem numbers_nil : numbers ([] : List (Part κ ω)) = [] := rfl

variable (part : Part κ ω) (parts : List (Part κ ω))

@[simp] theorem numbers_cons : numbers (part :: parts) = part.number :: numbers parts := rfl

@[simp] theorem numbers_append (parts parts' : List (Part κ ω)) :
    numbers (parts ++ parts') = numbers parts ++ numbers parts' :=
  map_append

/-! ### The effects -/

section Effects

variable (s : Writer κ ω ε)
variable (part : Part κ ω) (a : Action ε)

@[simp] theorem record_admitted : (record s a).admitted = s.admitted := rfl

@[simp] theorem record_settled : (record s a).settled = s.settled ++ a.settled?.toList := by
  cases h : a.settled? <;> simp [record, Writer.settled, h]

@[simp] theorem record_opened : (record s a).opened = s.opened ++ a.opened?.toList := by
  cases h : a.opened? <;> simp [record, Writer.opened, h]

@[simp] theorem record_resolved : (record s a).resolved = s.resolved ++ a.resolved?.toList := by
  cases h : a.resolved? <;> simp [record, Writer.resolved, h]

@[simp] theorem record_ran : (record s a).ran = s.ran ++ a.ran?.toList := by
  cases h : a.ran? <;> simp [record, Writer.ran, h]

@[simp] theorem record_published : (record s a).published = s.published ++ a.published?.toList := by
  cases h : a.published? <;> simp [record, Writer.published, h]

theorem openGate_settled : (openGate s part).settled = s.settled := by
  simp [openGate, record, Writer.settled, Action.settled?]

theorem openGate_opened : (openGate s part).opened = s.opened ++ [part.number] := by
  simp [openGate, record, Writer.opened, Action.opened?]

theorem openGate_resolved : (openGate s part).resolved = s.resolved := by
  simp [openGate, record, Writer.resolved, Action.resolved?]

theorem openGate_ran : (openGate s part).ran = s.ran := by
  simp [openGate, record, Writer.ran, Action.ran?]

theorem openGate_published : (openGate s part).published = s.published := by
  simp [openGate, record, Writer.published, Action.published?]

end Effects

variable [DecidableEq κ]

def newestWriter (parts : List (Part κ ω)) (key : κ) : Option ℕ :=
  (parts.reverse.find? (fun part => key ∈ part.keys)).map (fun part => part.number)

structure Books (s : Writer κ ω ε) (pending registered : List (Part κ ω))
    (toRun : Option (List (Part κ ω))) : Prop where
  settled : s.settled ++ numbers pending = range s.admitted
  opened : s.opened = s.settled
  sublist : registered.Sublist pending
  keys : ∀ key, Assoc.get key s.unpublished = newestWriter registered key
  newest : s.newest = (numbers pending).getLast?
  ran : s.ran <+: range s.admitted
  published : s.published <+: range s.admitted
  resolved : ∀ n ∈ s.resolved, n ∈ s.published
  healthy : s.failure = none → ∀ a ∈ s.trace, ¬ a.IsFailed
  unsent : s.trace.Pairwise (fun a b => a.IsFailed → ¬ b.IsSent)
  run : ∀ parts ∈ toRun, s.failure = none →
    s.published ++ numbers parts = range s.admitted ∧ s.ran = s.published

/-! ### The map of unpublished keys -/

theorem get_unregister (keys : List κ) (n : ℕ) (m : List (κ × ℕ)) (key : κ) :
    Assoc.get key (keys.foldl
      (fun m key => if Assoc.get key m = some n then Assoc.erase key m else m) m) =
      if key ∈ keys ∧ Assoc.get key m = some n then none else Assoc.get key m := by
  induction keys generalizing m with
  | nil => simp
  | cons k keys ih =>
    rw [foldl_cons, ih]
    by_cases hk : k = key
    · subst hk
      by_cases hn : Assoc.get k m = some n
      · simp [hn]
      · simp [hn]
    · have hget : Assoc.get key (if Assoc.get k m = some n then Assoc.erase k m else m) =
          Assoc.get key m := by
        split_ifs
        · exact Assoc.get_erase_ne hk m
        · rfl
      simp [hget, Ne.symm hk]

theorem get_register (keys : List κ) (n : ℕ) (m : List (κ × ℕ)) (key : κ) :
    Assoc.get key (keys.foldl (fun m key => Assoc.set key n m) m) =
      if key ∈ keys then some n else Assoc.get key m := by
  induction keys generalizing m with
  | nil => simp
  | cons k keys ih =>
    rw [foldl_cons, ih, Assoc.get_set]
    by_cases hk : k = key
    · simp [hk]
    · simp [hk, Ne.symm hk]

theorem newestWriter_cons (key : κ) :
    newestWriter (part :: parts) key =
      (newestWriter parts key).or (if key ∈ part.keys then some part.number else none) := by
  simp only [newestWriter, reverse_cons, find?_append, map_or]
  by_cases hk : key ∈ part.keys <;> simp [hk]

theorem newestWriter_append_singleton (key : κ) :
    newestWriter (parts ++ [part]) key =
      if key ∈ part.keys then some part.number else newestWriter parts key := by
  simp only [newestWriter, reverse_append, reverse_singleton, singleton_append, find?_cons]
  by_cases hk : key ∈ part.keys <;> simp [hk]

variable {parts : List (Part κ ω)}

theorem newestWriter_mem {key : κ} {n : ℕ} (h : newestWriter parts key = some n) :
    n ∈ numbers parts := by
  obtain ⟨part, hp, rfl⟩ := map_eq_some_iff.mp h
  exact mem_map_of_mem (mem_reverse.mp (mem_of_find?_eq_some hp))

namespace Books

variable {s : Writer κ ω ε} {part : Part κ ω} {pending registered : List (Part κ ω)}
  {toRun : Option (List (Part κ ω))}
variable {a : Action ε}

theorem nodup (h : Books s pending registered toRun) : (numbers pending).Nodup := by
  have hn : (s.settled ++ numbers pending).Nodup := h.settled ▸ nodup_range
  exact (nodup_append.mp hn).2.1

theorem dead (h : Books s pending registered toRun) (hf : s.failure ≠ none)
    (toRun' : Option (List (Part κ ω))) : Books s pending registered toRun' :=
  { h with run := fun _ _ hn => absurd hn hf }

theorem idle (h : Books s pending registered toRun) : Books s pending registered none :=
  { h with run := fun _ hp => by cases hp }

theorem unregister (h : Books s pending (part :: registered) toRun) :
    Books (unregister s part) pending registered toRun := by
  refine { h with sublist := ?_, keys := ?_ }
  · exact (sublist_cons_self part registered).trans h.sublist
  · intro key
    have hk := h.keys key
    have hn : (numbers (part :: registered)).Nodup := h.nodup.sublist (h.sublist.map _)
    have hnot : part.number ∉ numbers registered := (nodup_cons.mp hn).1
    rw [newestWriter_cons] at hk
    simp only [GroupCommit.unregister, get_unregister, hk]
    cases hw : newestWriter registered key with
    | none => by_cases hkey : key ∈ part.keys <;> simp [hkey]
    | some n =>
      have hne : n ≠ part.number := fun he => hnot (he ▸ newestWriter_mem hw)
      simp [hne]

omit [DecidableEq κ] in
theorem Action.ne_of_settled {n : ℕ} (ha : a.settled? = some n) :
    a.opened? = none ∧ a.ran? = none ∧ a.published? = none ∧ ¬ a.IsFailed ∧ ¬ a.IsSent := by
  cases a <;> first | exact ⟨rfl, rfl, rfl, id, id⟩ | cases ha

omit [DecidableEq κ] in
theorem unsent_append {trace : List (Action ε)}
    (h : trace.Pairwise (fun a b => a.IsFailed → ¬ b.IsSent))
    (ha : a.IsSent → ∀ b ∈ trace, ¬ b.IsFailed) :
    (trace ++ [a]).Pairwise (fun a b => a.IsFailed → ¬ b.IsSent) := by
  rw [pairwise_append]
  refine ⟨h, pairwise_singleton _ _, ?_⟩
  intro b hb c hc hfail hsent
  cases mem_singleton.mp hc
  exact ha hsent b hb hfail

theorem settle (h : Books s (part :: pending) registered toRun) (hreg : registered.Sublist pending)
    (ha : a.settled? = some part.number)
    (hres : a.resolved? = none ∨ a.resolved? = some part.number ∧ part.number ∈ s.published) :
    Books (openGate (record s a) part) pending registered toRun := by
  obtain ⟨hopen, hran, hpub, hfail, hsent⟩ := Action.ne_of_settled ha
  have hsettled : s.settled ++ part.number :: numbers pending = range s.admitted := h.settled
  refine ⟨?_, ?_, hreg, h.keys, ?_, ?_, ?_, ?_, ?_, ?_, ?_⟩
  · rw [openGate_settled, record_settled, ha, toList_some, append_assoc]
    exact hsettled
  · rw [openGate_settled, openGate_opened, record_settled, record_opened, ha, hopen, h.opened]
    simp
  · have hn := nodup_cons.mp h.nodup
    have hnew : s.newest = (part.number :: numbers pending).getLast? := h.newest
    change (if s.newest = some part.number then none else s.newest) = _
    rw [hnew]
    cases hp : (numbers pending).getLast? with
    | none => simp [getLast?_cons, hp]
    | some n =>
      have hne : n ≠ part.number := by
        rintro rfl
        exact hn.1 (mem_of_getLast? hp)
      simp [getLast?_cons, hp, hne]
  · rw [openGate_ran, record_ran, hran, toList_none, append_nil]
    exact h.ran
  · rw [openGate_published, record_published, hpub, toList_none, append_nil]
    exact h.published
  · rw [openGate_published, openGate_resolved, record_published, record_resolved, hpub,
      toList_none, append_nil]
    intro n hn
    rcases mem_append.mp hn with hn | hn
    · exact h.resolved n hn
    · obtain hnone | ⟨hsome, hmem⟩ := hres
      · simp [hnone] at hn
      · simp only [hsome, toList_some, mem_singleton] at hn
        rwa [hn]
  · intro hnone b hb
    simp only [openGate, record, mem_append, mem_singleton] at hb
    obtain (hb | rfl) | rfl := hb
    · exact h.healthy hnone b hb
    · exact hfail
    · exact id
  · exact unsent_append (unsent_append h.unsent (fun hs => absurd hs hsent))
      (fun hs => absurd hs id)
  · intro parts hp hnone
    rw [openGate_ran, openGate_published, record_ran, record_published, hran, hpub,
      toList_none, append_nil, append_nil]
    exact h.run parts hp hnone

theorem note (h : Books s pending registered toRun) (hs : a.settled? = none) (ho : a.opened? = none)
    (hr : a.ran? = none) (hf : ¬ a.IsFailed) (hsent : a.IsSent → s.failure = none) :
    Books (record s a) pending registered toRun := by
  have hres : a.resolved? = none := by
    cases a <;> first | rfl | cases hs
  have hpub : a.published? = none := by
    cases a <;> first | rfl | cases hr
  refine { h with
    settled := ?_, opened := ?_, ran := ?_, published := ?_, resolved := ?_, healthy := ?_
    unsent := ?_, run := ?_ }
  · rw [record_settled, hs, toList_none, append_nil]
    exact h.settled
  · rw [record_settled, record_opened, hs, ho, toList_none, append_nil,
      append_nil, h.opened]
  · rw [record_ran, hr, toList_none, append_nil]
    exact h.ran
  · rw [record_published, hpub, toList_none, append_nil]
    exact h.published
  · rw [record_published, record_resolved, hpub, hres, toList_none, append_nil,
      append_nil]
    exact h.resolved
  · intro hnone b hb
    obtain hb | hb := mem_append.mp hb
    · exact h.healthy hnone b hb
    · rwa [mem_singleton.mp hb]
  · exact unsent_append h.unsent (fun hsent' => h.healthy (hsent hsent'))
  · intro parts hp hnone
    rw [record_ran, record_published, hr, hpub, toList_none, append_nil, append_nil]
    exact h.run parts hp hnone

theorem unpublish (h : Books s (part :: pending) (part :: registered) toRun)
    (error : Thrown ε) : Books (unpublish s part error) pending registered toRun := by
  have hd : Books (record s (.discarded part.number)) (part :: pending) (part :: registered)
      toRun := h.note rfl rfl rfl id (fun hs => hs.elim)
  have hu := hd.unregister
  have hreg : registered.Sublist pending := cons_sublist_cons.mp h.sublist
  exact hu.settle hreg (a := .rejected part.number error) rfl (.inl rfl)

theorem unpublishAll (h : Books s (parts ++ pending) (parts ++ registered) toRun)
    (error : Thrown ε) :
    Books (unpublishAll s parts error) pending registered toRun := by
  induction parts generalizing s with
  | nil => exact h
  | cons part parts ih => exact ih (h.unpublish error)

theorem publish (h : Books s pending registered (some (part :: parts))) (hf : s.failure = none)
    (seq : Option ℕ) (failure : Option (PublishFailure ε)) :
    Books (record s (.published part.number seq failure)) pending registered
      (if (Action.published part.number seq failure).published?.isSome then some parts
        else none) := by
  obtain ⟨hrun, hran⟩ := h.run _ rfl hf
  have hrange : s.published ++ part.number :: numbers parts = range s.admitted := hrun
  have hprefix : s.published ++ [part.number] <+: range s.admitted :=
    ⟨numbers parts, by rw [← hrange, append_assoc, singleton_append]⟩
  have hpub : (Action.published part.number seq failure).published? = none ∨
      (Action.published part.number seq failure).published? = some part.number := by
    unfold Action.published?
    split <;> simp_all
  refine { h with
    settled := ?_, opened := ?_, ran := ?_, published := ?_, resolved := ?_, healthy := ?_
    unsent := ?_, run := ?_ }
  · simpa [Action.settled?] using h.settled
  · simpa [Action.settled?, Action.opened?] using h.opened
  · simpa [Action.ran?, hran] using hprefix
  · obtain hp | hp := hpub
    · simpa [hp] using h.published
    · simpa [hp] using hprefix
  · intro n hn
    rw [record_published]
    apply mem_append_left
    exact h.resolved n (by simpa [Action.resolved?] using hn)
  · intro hnone b hb
    obtain hb | hb := mem_append.mp hb
    · exact h.healthy hnone b hb
    · rw [mem_singleton.mp hb]
      exact id
  · exact unsent_append h.unsent (fun hs => hs.elim)
  · intro parts' hp' _
    obtain hp | hp := hpub
    · simp [hp] at hp'
    · simp only [hp, isSome_some, if_true, mem_def, Option.some.injEq] at hp'
      subst hp'
      rw [record_published, record_ran, hp, hran]
      simpa [Action.ran?] using hrange

theorem fail (h : Books s pending registered toRun) (error : Thrown ε) (line : Option ℕ)
    (own : List ℕ) : Books (fail s error line own) pending registered toRun := by
  unfold GroupCommit.fail
  cases hf : s.failure with
  | some e => exact h
  | none =>
    refine { h with
      settled := ?_, opened := ?_, ran := ?_, published := ?_, resolved := ?_, healthy := ?_
      unsent := ?_, run := ?_ }
    · change (record s (.failed error line own)).settled ++ numbers pending = _
      simpa [Action.settled?] using h.settled
    · change (record s (.failed error line own)).opened = (record s _).settled
      simpa [Action.settled?, Action.opened?] using h.opened
    · change (record s (.failed error line own)).ran <+: _
      simpa [Action.ran?] using h.ran
    · change (record s (.failed error line own)).published <+: _
      simpa [Action.published?] using h.published
    · change ∀ n ∈ (record s (.failed error line own)).resolved, n ∈ (record s _).published
      simpa [Action.resolved?, Action.published?] using h.resolved
    · exact fun hn => by cases hn
    · exact unsent_append h.unsent (fun hs => hs.elim)
    · exact fun _ _ hn => by cases hn

theorem enqueue (h : Books s pending registered toRun) (spec : PartSpec κ ω) :
    Books (enqueue s spec) (pending ++ [newPart s spec]) (registered ++ [newPart s spec])
      (toRun.map (· ++ [newPart s spec])) := by
  have hrange : range (GroupCommit.enqueue s spec).admitted =
      range s.admitted ++ [s.admitted] := range_succ
  refine ⟨?_, h.opened, h.sublist.append (List.Sublist.refl _), ?_, ?_, ?_, ?_, h.resolved,
    h.healthy, h.unsent, ?_⟩
  · rw [hrange, numbers_append, ← append_assoc]
    exact congrArg (· ++ [s.admitted]) h.settled
  · intro key
    rw [newestWriter_append_singleton, ← h.keys key]
    exact get_register ..
  · rw [numbers_append]
    exact (getLast?_concat ..).symm
  · rw [hrange]
    exact h.ran.trans (prefix_append _ _)
  · rw [hrange]
    exact h.published.trans (prefix_append _ _)
  · intro parts hp hf
    obtain ⟨parts', hp', rfl⟩ := map_eq_some_iff.mp hp
    obtain ⟨hrun, hran⟩ := h.run parts' hp' hf
    refine ⟨?_, hran⟩
    rw [hrange, numbers_append, ← append_assoc]
    exact congrArg (· ++ [s.admitted]) hrun

end Books

end KnightCode.GroupCommit
