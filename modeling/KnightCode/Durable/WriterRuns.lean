import KnightCode.Library.System
import KnightCode.Durable.WriterBooks

/-!
# Runs of the writer

Parts are admitted at any time, the Session may fail at any time, and whatever a flush waits for
ends in any of its ways. `Invariant` keeps the books of every wait.
-/

namespace KnightCode.GroupCommit

open List Option

variable {κ ω ε : Type*} [DecidableEq κ]

inductive Event (κ ω ε : Type*)
  | admitPart (spec : PartSpec κ ω)
  | fails (error : Thrown ε) (line : ℕ)
  | stored (seqs : List (Option ℕ)) (result : Except (Thrown ε) (CommitResult ε))
  | hopped
  | published (failure : Option (PublishFailure ε))
  | scopeSettled
  | ticked
  | flushed

inductive Step : Writer κ ω ε → Event κ ω ε → Writer κ ω ε → Prop
  | admitPart {s} (spec : PartSpec κ ω) : Step s (.admitPart spec) (admitPart s spec)
  | fails {s} (error : Thrown ε) (line : ℕ) :
      Step s (.fails error line) (fail s error (some line) [])
  | stored {s parts} (seqs : List (Option ℕ)) (result : Except (Thrown ε) (CommitResult ε))
      (h : s.flight = some (.storing parts)) :
      Step s (.stored seqs result) (stored s parts seqs result)
  | hopped {s l part seq rest} (h : s.flight = some (.hopping l part seq rest)) :
      Step s .hopped { s with flight := some (.publishing l part seq rest) }
  | published {s l part seq rest} (failure : Option (PublishFailure ε))
      (h : s.flight = some (.publishing l part seq rest)) :
      Step s (.published failure) (publish s l part seq rest failure)
  | scopeSettled {s l part rest external failure}
      (h : s.flight = some (.ran l part rest external failure)) :
      Step s .scopeSettled (afterScope s l part rest external failure)
  | ticked {s l} (h : s.flight = some (.failing l)) : Step s .ticked (failSession s l)
  | flushed {s} (h : s.flight = some .returning) : Step s .flushed (flushed s)

def system : System (Writer κ ω ε) (Event κ ω ε) where
  init s := s = Writer.empty
  step := Step

/-! ### The invariant -/

def Loop.parts (l : Loop κ ω ε) : List (Part κ ω) :=
  l.failing.map (fun f => f.part)

/-- The failing parts that still hold their keys. -/
def Loop.registered (l : Loop κ ω ε) : List (Part κ ω) :=
  (l.failing.filter (fun f => !f.published)).map (fun f => f.part)

/-- Between two rounds of the loop, with `todo` left. -/
structure InLoop (s : Writer κ ω ε) (l : Loop κ ω ε) (todo : List (Part κ ω)) : Prop where
  books : Books s (l.parts ++ (todo ++ s.queue)) (l.registered ++ (todo ++ s.queue))
    (if l.stop.isNone then some (todo ++ s.queue) else none)
  published : l.stop = none → ∀ f ∈ l.failing, f.published = true
  rejected : l.stop = none → l.rejected = none → l.failing = []
  stopped : ∀ f ∈ l.failing, f.outcome = .failed → l.stop ≠ none

/-- A publication that memory adopts. -/
def Adopts (external : Option (Thrown ε)) (failure : Option (PublishFailure ε)) : Prop :=
  external = none ∧ ∀ f ∈ failure, f.kind ≠ .adoption

/-- Between the publication and the end of its scope. -/
structure Ran (s : Writer κ ω ε) (l : Loop κ ω ε) (part : Part κ ω) (rest : List (Part κ ω))
    (external : Option (Thrown ε)) (failure : Option (PublishFailure ε)) : Prop where
  books : Books s (l.parts ++ (part :: rest ++ s.queue))
    (if external.isSome then part :: rest ++ s.queue else rest ++ s.queue) none
  run : Adopts external failure → Books s (l.parts ++ (part :: rest ++ s.queue))
    (rest ++ s.queue) (some (rest ++ s.queue))
  mem : Adopts external failure → part.number ∈ s.published
  stop : l.stop = none
  published : ∀ f ∈ l.failing, f.published = true
  rejected : l.rejected = none → l.failing = []
  stopped : ∀ f ∈ l.failing, f.outcome ≠ .failed

def Invariant (s : Writer κ ω ε) : Prop :=
  match s.flight with
  | none => s.queue = [] ∧ Books s [] [] (some [])
  | some (.storing parts) => Books s (parts ++ s.queue) (parts ++ s.queue) (some (parts ++ s.queue))
  | some (.hopping l part _ rest) => l.stop = none ∧ InLoop s l (part :: rest)
  | some (.publishing l part _ rest) => l.stop = none ∧ InLoop s l (part :: rest)
  | some (.ran l part rest external failure) => Ran s l part rest external failure
  | some (.failing l) => (l.rejected.isSome ∨ l.stop.isSome) ∧ InLoop s l []
  | some .returning => Books s s.queue s.queue (some s.queue)

variable {s : Writer κ ω ε} {toRun : Option (List (Part κ ω))} {l : Loop κ ω ε}
variable {todo parts rest : List (Part κ ω)} {part : Part κ ω} {failure : Option (PublishFailure ε)}
variable {pending registered : List (Part κ ω)}

theorem Books.suspend (h : Books s pending registered toRun) (flight : Option (Flight κ ω ε)) :
    Books { s with flight } pending registered toRun :=
  { h with }

theorem InLoop.suspend (h : InLoop s l todo) (flight : Option (Flight κ ω ε)) :
    InLoop { s with flight } l todo :=
  { h with books := h.books.suspend flight }

/-! ### The end of a flush -/

section Frame

variable (s : Writer κ ω ε) (error : Thrown ε)

@[simp] theorem unpublishAll_queue (parts : List (Part κ ω)) :
    (unpublishAll s parts error).queue = s.queue := by
  induction parts generalizing s with
  | nil => rfl
  | cons part parts ih => exact ih (unpublish s part error)

@[simp] theorem unpublishAll_failure (parts : List (Part κ ω)) :
    (unpublishAll s parts error).failure = s.failure := by
  induction parts generalizing s with
  | nil => rfl
  | cons part parts ih => exact ih (unpublish s part error)

theorem settleFailed_frame (l : Loop κ ω ε) (f : Failing κ ω ε) :
    (settleFailed l s f).queue = s.queue ∧ (settleFailed l s f).failure = s.failure := by
  simp only [settleFailed]
  split_ifs <;> exact ⟨rfl, rfl⟩

omit [DecidableEq κ] in
theorem fail_frame (line : Option ℕ) (own : List ℕ) :
    (fail s error line own).queue = s.queue ∧ (fail s error line own).flight = s.flight ∧
      (fail s error line own).failure ≠ none := by
  unfold fail
  cases hf : s.failure with
  | some e => exact ⟨rfl, rfl, by simp [hf]⟩
  | none => exact ⟨rfl, rfl, by simp⟩

end Frame

theorem settleFailing_books (l : Loop κ ω ε) {fs : List (Failing κ ω ε)}
    (h : Books s (fs.map (fun f => f.part) ++ parts)
      ((fs.filter (fun f => !f.published)).map (fun f => f.part) ++ parts) toRun) :
    Books (fs.foldl (settleFailed l) s) parts parts toRun ∧
      (fs.foldl (settleFailed l) s).queue = s.queue ∧
      (fs.foldl (settleFailed l) s).failure = s.failure := by
  induction fs generalizing s with
  | nil => exact ⟨h, rfl, rfl⟩
  | cons f fs ih =>
    have hstep : Books (settleFailed l s f) (fs.map (fun f => f.part) ++ parts)
        ((fs.filter (fun f => !f.published)).map (fun f => f.part) ++ parts) toRun := by
      cases hp : f.published with
      | true =>
        simp only [map_cons, cons_append, filter_cons, hp, Bool.not_true,
          Bool.false_eq_true, if_false] at h
        have hsub : ((fs.filter (fun f => !f.published)).map (fun f => f.part) ++ parts).Sublist
            (fs.map (fun f => f.part) ++ parts) :=
          (filter_sublist.map _).append (List.Sublist.refl _)
        simp only [settleFailed, hp, if_true]
        exact h.settle hsub rfl (.inl rfl)
      | false =>
        simp only [map_cons, cons_append, filter_cons, hp, Bool.not_false,
          if_true] at h
        simp only [settleFailed, hp, Bool.false_eq_true, if_false]
        exact h.unpublish _
    obtain ⟨hb, hq, hf⟩ := ih hstep
    obtain ⟨hq', hf'⟩ := settleFailed_frame s l f
    exact ⟨hb, hq.trans hq', hf.trans hf'⟩

theorem dropQueue_books (h : Books s s.queue s.queue (some s.queue)) :
    Books (dropQueue s) (dropQueue s).queue (dropQueue s).queue (some (dropQueue s).queue) := by
  cases hf : s.failure with
  | none =>
    have hd : dropQueue s = s := by simp only [dropQueue, hf]
    rwa [hd]
  | some error =>
    have hd : dropQueue s = unpublishAll { s with queue := [] } s.queue (.sessionFailed error) := by
      simp only [dropQueue, hf]
    have hb : Books { s with queue := [] } (s.queue ++ []) (s.queue ++ []) none := by
      rw [append_nil]
      exact { h.idle with }
    have hu := hb.unpublishAll (.sessionFailed error)
    rw [hd, unpublishAll_queue]
    apply hu.dead
    rw [unpublishAll_failure]
    simp [hf]

theorem returning_invariant (h : Books s s.queue s.queue (some s.queue)) :
    Invariant { s with flight := some .returning } :=
  h.suspend _

theorem finish_invariant (h : InLoop s l []) (hf : s.failure ≠ none ∨ l.stop = none) :
    Invariant (finish s l) := by
  have hb : Books s (l.parts ++ s.queue) (l.registered ++ s.queue) (some s.queue) := by
    cases hf with
    | inl hf => exact h.books.dead hf _
    | inr hs => simpa [hs] using h.books
  obtain ⟨hs, hq, -⟩ := settleFailing_books l hb
  have hd := dropQueue_books (s := settleFailing s l) (by
    unfold settleFailing
    rw [hq]
    exact hs)
  exact returning_invariant hd

/-! ### The loop -/

variable {l' : Loop κ ω ε}

theorem InLoop.push (h : InLoop s l (part :: todo)) {outcome : FailedOutcome ε}
    (hf : l'.failing = l.failing ++ [⟨part, outcome, false⟩]) (hs : l'.stop ≠ none) :
    InLoop s l' todo := by
  refine ⟨?_, fun hn => absurd hn hs, fun hn => absurd hn hs, fun _ _ _ => hs⟩
  have hparts : l'.parts ++ (todo ++ s.queue) = l.parts ++ (part :: todo ++ s.queue) := by
    simp [Loop.parts, hf]
  have hreg : l'.registered ++ (todo ++ s.queue) = l.registered ++ (part :: todo ++ s.queue) := by
    simp [Loop.registered, hf]
  rw [hparts, hreg, if_neg (by simpa using hs)]
  exact h.books.idle

theorem InLoop.same (h : InLoop s l todo) (hf : l'.failing = l.failing) (hs : l'.stop = l.stop)
    (hr : l'.rejected = l.rejected) : InLoop s l' todo := by
  have hparts : l'.parts = l.parts := by simp only [Loop.parts, hf]
  have hreg : l'.registered = l.registered := by simp only [Loop.registered, hf]
  refine ⟨?_, ?_, ?_, ?_⟩
  · rw [hparts, hreg, hs]
    exact h.books
  · rw [hf, hs]
    exact h.published
  · rw [hf, hs, hr]
    exact h.rejected
  · rw [hf, hs]
    exact h.stopped

theorem publishLoop_invariant (h : InLoop s l todo) : Invariant (publishLoop s l todo) := by
  induction todo generalizing l with
  | nil =>
    unfold publishLoop
    split_ifs with hc
    · exact ⟨hc, h.suspend _⟩
    · apply finish_invariant h
      simp only [not_or, not_isSome_iff_eq_none] at hc
      exact .inr hc.2
  | cons part rest ih =>
    simp only [publishLoop]
    cases hs : l.stop with
    | some stop =>
      apply ih
      exact h.push rfl (by simp)
    | none =>
      dsimp only
      generalize (if part.writes.isSome then l.seqs[l.storedIndex]?.join else none) = seq
      generalize (if part.writes.isSome then l.storedIndex + 1 else l.storedIndex) = index
      by_cases hseq : part.writes.isSome ∧ seq = none
      · rw [if_pos hseq]
        apply ih
        exact h.push rfl (by simp)
      · rw [if_neg hseq]
        have hw : InLoop s { l with
            stop := none, storedIndex := index, published := l.published + 1 }
            (part :: rest) := h.same rfl hs.symm rfl
        split_ifs
        · exact ⟨rfl, hw.suspend _⟩
        · exact ⟨rfl, hw.suspend _⟩

theorem start_invariant
    (h : Books s (parts ++ s.queue) (parts ++ s.queue) (some (parts ++ s.queue)))
    (seqs : List (Option ℕ)) (result : Option (CommitResult ε)) (rejected : Option (Thrown ε)) :
    Invariant (publishLoop s ⟨seqs, result, rejected, none, [], 0, 0⟩ parts) := by
  apply publishLoop_invariant
  exact ⟨h, fun _ _ hf => (by cases hf), fun _ _ => rfl, fun _ hf => (by cases hf)⟩

theorem pump_invariant (hflight : s.flight = none) (h : Books s s.queue s.queue (some s.queue)) :
    Invariant (pump s) := by
  unfold pump
  by_cases hq : s.queue = []
  · rw [if_pos (.inr hq)]
    rw [hq] at h
    unfold Invariant
    rw [hflight]
    exact ⟨hq, h⟩
  · rw [if_neg (by simp [hflight, hq])]
    have hb : Books { s with queue := [] } (s.queue ++ []) (s.queue ++ [])
        (some (s.queue ++ [])) := by
      rw [append_nil]
      exact { h with }
    cases hf : s.failure with
    | some error =>
      have hu := (hb.unpublishAll (.sessionFailed error)).dead
        (by rw [unpublishAll_failure]; simp [hf]) (some [])
      have hq' : (unpublishAll { s with queue := [] } s.queue (.sessionFailed error)).queue = [] :=
        unpublishAll_queue ..
      simp only [hf] at hu hq' ⊢
      apply returning_invariant
      rw [hq']
      exact hu
    | none =>
      simp only [hf] at hb ⊢
      split_ifs with hstored
      · have hn := hb.note (a := .sent (numbers (s.queue.filter (fun part => part.writes.isSome))))
          rfl rfl rfl id (fun _ => rfl)
        exact hn.suspend _
      · exact start_invariant hb _ _ _

theorem enqueue_queue (s : Writer κ ω ε) (spec : PartSpec κ ω) :
    (enqueue s spec).queue = s.queue ++ [newPart s spec] := rfl

theorem InLoop.enqueue (h : InLoop s l todo) (spec : PartSpec κ ω) :
    InLoop (enqueue s spec) l todo := by
  refine { h with books := ?_ }
  have hb := h.books.enqueue spec
  rw [enqueue_queue]
  simp only [append_assoc] at hb
  cases hs : l.stop <;> simpa [hs] using hb

theorem admitPart_invariant (h : Invariant s) (spec : PartSpec κ ω) :
    Invariant (admitPart s spec) := by
  unfold admitPart
  unfold Invariant at h
  cases hf : s.flight with
  | none =>
    simp only [hf] at h
    have hq : (enqueue s spec).queue = [newPart s spec] := by simp [enqueue_queue, h.1]
    have hflight : (enqueue s spec).flight = none := hf
    apply pump_invariant hflight
    rw [hq]
    exact h.2.enqueue spec
  | some f =>
    have hf' : (enqueue s spec).flight = some f := hf
    have hpump : pump (enqueue s spec) = enqueue s spec := by
      unfold pump
      exact if_pos (.inl (by simp [hf']))
    rw [hpump]
    unfold Invariant
    simp only [hf] at h
    rw [hf']
    cases f with
    | storing parts =>
      have hb := h.enqueue spec
      simp only [append_assoc, map_some] at hb
      exact hb
    | hopping l part seq rest => exact ⟨h.1, h.2.enqueue spec⟩
    | publishing l part seq rest => exact ⟨h.1, h.2.enqueue spec⟩
    | ran l part rest external failure =>
      refine { h with books := ?_, run := ?_ }
      · have hb := h.books.enqueue spec
        rw [enqueue_queue]
        cases external <;> simpa using hb
      · intro ha
        have hb := (h.run ha).enqueue spec
        rw [enqueue_queue]
        simpa using hb
    | failing l => exact ⟨h.1, h.2.enqueue spec⟩
    | returning => exact h.enqueue spec

theorem InLoop.fail (h : InLoop s l todo) (error : Thrown ε) (line : Option ℕ) (own : List ℕ) :
    InLoop (fail s error line own) l todo := by
  refine { h with books := ?_ }
  rw [(fail_frame s error line own).1]
  exact h.books.fail error line own

theorem fail_invariant (h : Invariant s) (error : Thrown ε) (line : Option ℕ) (own : List ℕ) :
    Invariant (fail s error line own) := by
  obtain ⟨hq, hflight, hfail⟩ := fail_frame s error line own
  unfold Invariant at h ⊢
  rw [hflight]
  cases hf : s.flight with
  | none =>
    simp only [hf, hq] at h ⊢
    exact ⟨h.1, h.2.fail error line own⟩
  | some f =>
    simp only [hf] at h
    cases f with
    | storing parts | returning =>
      simp only [hq]
      exact h.fail error line own
    | hopping l part seq rest => exact ⟨h.1, h.2.fail error line own⟩
    | publishing l part seq rest => exact ⟨h.1, h.2.fail error line own⟩
    | ran l part rest external failure =>
      refine { h with books := ?_, run := ?_, mem := ?_ }
      · rw [hq]
        exact h.books.fail error line own
      · intro ha
        rw [hq]
        exact (h.run ha).fail error line own
      · intro ha
        have hp : (GroupCommit.fail s error line own).published = s.published := by
          unfold GroupCommit.fail
          cases s.failure with
          | some e => rfl
          | none =>
            exact (record_published s (.failed error line own)).trans (append_nil _)
        rw [hp]
        exact h.mem ha
    | failing l => exact ⟨h.1, h.2.fail error line own⟩

theorem stored_invariant
    (h : Books s (parts ++ s.queue) (parts ++ s.queue) (some (parts ++ s.queue)))
    (seqs : List (Option ℕ)) (result : Except (Thrown ε) (CommitResult ε)) :
    Invariant (stored s parts seqs result) := by
  unfold stored
  cases hf : s.failure with
  | some error =>
    have hu := h.unpublishAll (.sessionFailed error)
    apply returning_invariant
    rw [unpublishAll_queue]
    exact hu.dead (by rw [unpublishAll_failure]; simp [hf]) _
  | none =>
    cases result with
    | ok result | error rejected => exact start_invariant h ..

theorem InLoop.registered_nil (h : InLoop s l todo) (hs : l.stop = none) : l.registered = [] := by
  have hp := h.published hs
  simp only [Loop.registered, map_eq_nil_iff, filter_eq_nil_iff]
  intro f hf
  simp [hp f hf]

theorem publish_invariant (h : InLoop s l (part :: rest)) (hs : l.stop = none) (seq : Option ℕ)
    (failure : Option (PublishFailure ε)) : Invariant (publish s l part seq rest failure) := by
  have hb := h.books
  simp only [h.registered_nil hs, hs, isNone_none, if_true, nil_append] at hb
  have hstopped : ∀ f ∈ l.failing, f.outcome ≠ .failed :=
    fun f hf ho => h.stopped f hf ho hs
  cases hf : s.failure with
  | some error =>
    have heq : publish s l part seq rest failure =
        { s with flight := some (.ran l part rest (some error) none) } := by
      simp only [publish, hf]
    rw [heq]
    exact ⟨hb.idle.suspend _, fun ha => (by cases ha.1), fun ha => (by cases ha.1), hs,
      h.published hs, h.rejected hs, hstopped⟩
  | none =>
    have heq : publish s l part seq rest failure =
        { record (unregister s part) (.published part.number seq failure) with
          flight := some (.ran l part rest none failure) } := by
      simp only [publish, hf]
    have hp := hb.unregister.publish hf seq failure
    have hadopts : Adopts (none : Option (Thrown ε)) failure →
        (Action.published part.number seq failure).published? = some part.number := by
      rintro ⟨-, ha⟩
      cases failure with
      | none => rfl
      | some f =>
        obtain ⟨kind, error⟩ := f
        cases kind with
        | adoption => exact absurd rfl (ha _ rfl)
        | listener => rfl
    rw [heq]
    refine ⟨hp.idle.suspend _, ?_, ?_, hs, h.published hs, h.rejected hs, hstopped⟩
    · intro ha
      simp only [hadopts ha, isSome_some, if_true] at hp
      exact hp.suspend _
    · intro ha
      change part.number ∈ (record (unregister s part) _).published
      rw [record_published, hadopts ha]
      exact mem_append_right _ (mem_singleton_self _)

theorem Ran.registered_nil {external : Option (Thrown ε)} (h : Ran s l part rest external failure) :
    l.registered = [] := by
  simp only [Loop.registered, map_eq_nil_iff, filter_eq_nil_iff]
  intro f hf
  simp [h.published f hf]

theorem Ran.failed {s' : Writer κ ω ε} {error : Thrown ε} (h : Ran s l part rest none failure)
    (hb : Books s' (l.parts ++ (part :: rest ++ s'.queue)) (rest ++ s'.queue)
      (if l'.stop.isNone then some (rest ++ s'.queue) else none))
    (hf : l'.failing = (l.failed part error).failing) (hr : l'.stop = none → l'.rejected ≠ none) :
    InLoop s' l' rest := by
  have hfailing : l'.failing = l.failing ++ [⟨part, .own error, true⟩] := hf
  have hparts : l'.parts ++ (rest ++ s'.queue) = l.parts ++ (part :: rest ++ s'.queue) := by
    simp [Loop.parts, hfailing]
  have hreg : l'.registered = [] := by
    have hnil := h.registered_nil
    simp only [Loop.registered] at hnil ⊢
    simp [hfailing, hnil]
  refine ⟨?_, ?_, fun hs hn => absurd hn (hr hs), ?_⟩
  · rw [hparts, hreg]
    exact hb
  · intro _ f hmem
    rw [hfailing] at hmem
    rcases mem_append.mp hmem with hmem | hmem
    · exact h.published f hmem
    · rw [mem_singleton.mp hmem]
  · intro f hmem ho
    rw [hfailing] at hmem
    rcases mem_append.mp hmem with hmem | hmem
    · exact absurd ho (h.stopped f hmem)
    · rw [mem_singleton.mp hmem] at ho
      cases ho

theorem settlePublished_books (h : Books s (part :: pending) registered toRun)
    (hreg : registered.Sublist pending) (hmem : part.number ∈ s.published)
    (failure : Option (PublishFailure ε)) :
    Books (settlePublished s part failure) pending registered toRun ∧
      (settlePublished s part failure).queue = s.queue := by
  unfold settlePublished
  split
  · exact ⟨h.settle hreg rfl (.inl rfl), rfl⟩
  · exact ⟨h.settle hreg rfl (.inr ⟨rfl, hmem⟩), rfl⟩

theorem Ran.external {error : Thrown ε} (h : Ran s l part rest (some error) failure)
    (stop : Stop ε) :
    InLoop s { l with
      stop := some stop
      failing := l.failing ++ [⟨part, .failed, false⟩] } rest := by
  have hl : InLoop s { l with stop := some stop } (part :: rest) := by
    refine ⟨?_, fun hn => (by cases hn), fun hn => (by cases hn),
      fun f hf ho => absurd ho (h.stopped f hf)⟩
    have hreg : Loop.registered { l with stop := some stop } = [] := h.registered_nil
    rw [hreg]
    exact h.books
  exact hl.push rfl (by simp)

theorem Ran.settled (h : Ran s l part rest none failure)
    (ha : Adopts (none : Option (Thrown ε)) failure) (hr : l.rejected = none)
    (hf : l'.failing = l.failing) : InLoop (settlePublished s part failure) l' rest := by
  have hnil : l.failing = [] := h.rejected hr
  have hb := h.run ha
  have hparts : l.parts = [] := by simp [Loop.parts, hnil]
  have hparts' : l'.parts = [] := by simp [Loop.parts, hf, hnil]
  have hreg' : l'.registered = [] := by simp [Loop.registered, hf, hnil]
  rw [hparts, nil_append] at hb
  obtain ⟨hs, hq⟩ := settlePublished_books hb (List.Sublist.refl _) (h.mem ha) failure
  refine ⟨?_, ?_, ?_, ?_⟩
  · rw [hparts', hreg', hq]
    cases hstop : l'.stop with
    | none => exact hs
    | some stop => exact hs.idle
  · intro _ f hmem
    simp [hf, hnil] at hmem
  · intro _ _
    rw [hf, hnil]
  · intro f hmem
    simp [hf, hnil] at hmem

theorem afterScope_invariant {external : Option (Thrown ε)}
    (h : Ran s l part rest external failure) :
    Invariant (afterScope s l part rest external failure) := by
  cases external with
  | some error => exact publishLoop_invariant (h.external _)
  | none =>
    have hstop : ∀ part error, (l.failed part error).stop = none := fun _ _ => h.stop
    cases failure with
    | none =>
      have ha : Adopts (none : Option (Thrown ε)) (none : Option (PublishFailure ε)) :=
        ⟨rfl, fun _ hf => by cases hf⟩
      cases hr : l.rejected with
      | some rejected =>
        simp only [afterScope, hr]
        apply publishLoop_invariant
        apply h.failed _ rfl (fun _ => by simp [Loop.failed, hr])
        rw [hstop]
        exact h.run ha
      | none =>
        simp only [afterScope, hr]
        exact publishLoop_invariant (h.settled ha hr rfl)
    | some failure =>
      obtain ⟨kind, error⟩ := failure
      cases kind with
      | adoption =>
        apply publishLoop_invariant
        exact h.failed h.books rfl (fun hn => by cases hn)
      | listener =>
        have ha : Adopts (none : Option (Thrown ε)) (some ⟨.listener, error⟩) := by
          refine ⟨rfl, fun f hf hk => ?_⟩
          cases hf
          cases hk
        cases hr : l.rejected with
        | some rejected =>
          simp only [afterScope, hr]
          apply publishLoop_invariant
          apply h.failed _ rfl (fun _ => by simp [Loop.failed, hr])
          rw [hstop]
          exact (h.run ha).note rfl rfl rfl id (fun hs => hs.elim)
        | none =>
          simp only [afterScope, hr]
          exact publishLoop_invariant (h.settled ha hr rfl)

theorem failSession_invariant (h : InLoop s l []) (hs : l.rejected.isSome ∨ l.stop.isSome) :
    Invariant (failSession s l) := by
  unfold failSession
  cases hr : l.rejected with
  | some error =>
    exact finish_invariant (h.fail ..) (.inl (fail_frame ..).2.2)
  | none =>
    cases hstop : l.stop with
    | some stop => exact finish_invariant (h.fail ..) (.inl (fail_frame ..).2.2)
    | none => simp [hr, hstop] at hs

theorem flushed_invariant (h : Books s s.queue s.queue (some s.queue)) : Invariant (flushed s) :=
  pump_invariant rfl (h.suspend none)

theorem step_invariant {s' : Writer κ ω ε} {e : Event κ ω ε} (h : Invariant s) (hs : Step s e s') :
    Invariant s' := by
  cases hs with
  | admitPart spec => exact admitPart_invariant h spec
  | fails error line => exact fail_invariant h ..
  | stored seqs result hf =>
    simp only [Invariant, hf] at h
    exact stored_invariant h seqs result
  | hopped hf =>
    simp only [Invariant, hf] at h
    exact ⟨h.1, h.2.suspend _⟩
  | published failure hf =>
    simp only [Invariant, hf] at h
    exact publish_invariant h.2 h.1 _ failure
  | scopeSettled hf =>
    simp only [Invariant, hf] at h
    exact afterScope_invariant h
  | ticked hf =>
    simp only [Invariant, hf] at h
    exact failSession_invariant h.2 h.1
  | flushed hf =>
    simp only [Invariant, hf] at h
    exact flushed_invariant h

theorem invariant_of_reachable (h : system.Reachable s) : Invariant s := by
  apply h.invariant
  · rintro s rfl
    refine ⟨rfl, rfl, rfl, List.Sublist.refl _, fun _ => rfl, rfl, nil_prefix,
      nil_prefix, fun _ hn => (by cases hn), fun _ _ hn => (by cases hn), List.Pairwise.nil,
      ?_⟩
    intro parts hp _
    cases hp
    exact ⟨rfl, rfl⟩
  · exact fun s e s' hI _ hs => step_invariant hI hs

theorem invariant_books (h : Invariant s) :
    ∃ pending registered toRun, Books s pending registered toRun := by
  unfold Invariant at h
  split at h
  · exact ⟨_, _, _, h.2⟩
  · exact ⟨_, _, _, h⟩
  · exact ⟨_, _, _, h.2.books⟩
  · exact ⟨_, _, _, h.2.books⟩
  · exact ⟨_, _, _, h.books⟩
  · exact ⟨_, _, _, h.2.books⟩
  · exact ⟨_, _, _, h⟩

end KnightCode.GroupCommit
