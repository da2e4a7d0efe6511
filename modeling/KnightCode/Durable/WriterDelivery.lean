import KnightCode.Durable.WriterRuns
import Mathlib.Data.Prod.Lex

/-!
# Every part is delivered

`Safe` is what holds of the writer in every reachable state. A gate opens once the waits of a flush
end: a flush is a bounded number of waits from its end, whatever is admitted meanwhile, and a part
not in it is in the next one.
-/

namespace KnightCode.GroupCommit

open List

variable {κ ω ε : Type*} [DecidableEq κ]
variable {s s' : Writer κ ω ε} {n : ℕ} {l : Loop κ ω ε} {part : Part κ ω} {rest : List (Part κ ω)}

/-- What the writer guarantees in every reachable state: parts are published, settled and opened in
the order of their admission, none twice; a part that resolves was published; nothing is sent once
the Session failed; and with nothing queued or in flight no part and no key is left. -/
structure Safe (s : Writer κ ω ε) : Prop where
  published : s.published <+: range s.admitted
  ran : s.ran <+: range s.admitted
  settled : s.settled <+: range s.admitted
  opened : s.opened <+: range s.admitted
  resolved : ∀ n ∈ s.resolved, n ∈ s.published
  unsent : s.trace.Pairwise (fun a b => a.IsFailed → ¬ b.IsSent)
  quiet : s.flight = none → s.queue = [] →
    s.settled = range s.admitted ∧ s.opened = range s.admitted ∧ s.unpublished = []

theorem Invariant.quiet (h : Invariant s) (hf : s.flight = none) :
    s.queue = [] ∧ s.settled = range s.admitted ∧ s.opened = range s.admitted ∧
      s.unpublished = [] := by
  simp only [Invariant, hf] at h
  obtain ⟨hq, hb⟩ := h
  have hs : s.settled = range s.admitted := by simpa using hb.settled
  exact ⟨hq, hs, hb.opened.trans hs, Assoc.eq_nil_of_get hb.keys⟩

theorem safe_of_invariant (h : Invariant s) : Safe s := by
  obtain ⟨pending, registered, toRun, hb⟩ := invariant_books h
  have hs : s.settled <+: range s.admitted := ⟨_, hb.settled⟩
  refine ⟨hb.published, hb.ran, hs, ?_, hb.resolved, hb.unsent, fun hf _ => (h.quiet hf).2⟩
  rw [hb.opened]
  exact hs

/-! ### How far a flush is from its end -/

/-- A bound on the waits left. -/
def remaining : Option (Flight κ ω ε) → ℕ
  | none => 0
  | some (.storing parts) => 3 * parts.length + 3
  | some (.hopping _ _ _ rest) => 3 * rest.length + 5
  | some (.publishing _ _ _ rest) => 3 * rest.length + 4
  | some (.ran _ _ rest _ _) => 3 * rest.length + 3
  | some (.failing _) => 2
  | some .returning => 1

/-- The flush a part belongs to, this one or the next, and how far this one is from its end. -/
def distance (n : ℕ) (s : Writer κ ω ε) : ℕ ×ₗ ℕ :=
  toLex (if n ∈ numbers s.queue then 1 else 0, remaining s.flight)

omit [DecidableEq κ] in
theorem distance_lt (hq : n ∈ numbers s'.queue → n ∈ numbers s.queue)
    (hr : remaining s'.flight < remaining s.flight) : distance n s' < distance n s := by
  unfold distance
  rw [Prod.Lex.toLex_lt_toLex]
  by_cases h : n ∈ numbers s'.queue
  · exact .inr ⟨by simp [h, hq h], hr⟩
  · by_cases h' : n ∈ numbers s.queue
    · exact .inl (by simp [h, h'])
    · exact .inr ⟨by simp [h, h'], hr⟩

theorem dropQueue_mem (h : n ∈ numbers (dropQueue s).queue) : n ∈ numbers s.queue := by
  cases hf : s.failure with
  | none =>
    have hd : dropQueue s = s := by simp only [dropQueue, hf]
    rwa [hd] at h
  | some error =>
    simp only [dropQueue, hf, unpublishAll_queue] at h
    cases h

theorem settleFailing_queue (s : Writer κ ω ε) (l : Loop κ ω ε) :
    (settleFailing s l).queue = s.queue := by
  unfold settleFailing
  induction l.failing generalizing s with
  | nil => rfl
  | cons f fs ih => exact (ih _).trans (settleFailed_frame s l f).1

theorem finish_mem (h : n ∈ numbers (finish s l).queue) : n ∈ numbers s.queue := by
  rw [← settleFailing_queue s l]
  exact dropQueue_mem h

theorem publishLoop_progress (n : ℕ) (s : Writer κ ω ε) (l : Loop κ ω ε) (todo : List (Part κ ω)) :
    remaining (publishLoop s l todo).flight < 3 * todo.length + 3 ∧
      (n ∈ numbers (publishLoop s l todo).queue → n ∈ numbers s.queue) := by
  induction todo generalizing l with
  | nil =>
    unfold publishLoop
    split_ifs
    · exact ⟨le_refl 3, id⟩
    · exact ⟨Nat.le_succ 2, finish_mem⟩
  | cons part rest ih =>
    have hlen : 3 * rest.length + 3 ≤ 3 * (part :: rest).length + 3 := by
      rw [length_cons]
      omega
    simp only [publishLoop]
    cases hs : l.stop with
    | some stop =>
      obtain ⟨hr, hq⟩ := ih _
      exact ⟨lt_of_lt_of_le hr hlen, hq⟩
    | none =>
      dsimp only
      generalize (if part.writes.isSome then l.seqs[l.storedIndex]?.join else none) = seq
      by_cases hseq : part.writes.isSome ∧ seq = none
      · rw [if_pos hseq]
        obtain ⟨hr, hq⟩ := ih _
        exact ⟨lt_of_lt_of_le hr hlen, hq⟩
      · rw [if_neg hseq]
        refine ⟨?_, id⟩
        by_cases hp : 0 < l.published
        · simp only [if_pos hp, remaining, length_cons]
          omega
        · simp only [if_neg hp, remaining, length_cons]
          omega

/-- The end of one of the waits of a flush. -/
def Event.IsAnswer : Event κ ω ε → Prop
  | .admitPart _ => False
  | .fails .. => False
  | _ => True

theorem publishLoop_distance (l : Loop κ ω ε) {todo : List (Part κ ω)} (hq : s'.queue = s.queue)
    (hr : 3 * todo.length + 3 ≤ remaining s.flight) :
    distance n (publishLoop s' l todo) < distance n s := by
  obtain ⟨hlt, hmem⟩ := publishLoop_progress n s' l todo
  rw [hq] at hmem
  exact distance_lt hmem (lt_of_lt_of_le hlt hr)

theorem stored_distance {parts : List (Part κ ω)} (hf : s.flight = some (.storing parts))
    (seqs : List (Option ℕ)) (result : Except (Thrown ε) (CommitResult ε)) :
    distance n (stored s parts seqs result) < distance n s := by
  have hr : 3 * parts.length + 3 ≤ remaining s.flight := by
    rw [hf]
    exact le_refl _
  unfold stored
  split
  · apply distance_lt
    · intro hn
      rwa [← unpublishAll_queue s _ parts]
    · rw [hf]
      simp only [remaining]
      omega
  · split
    · exact publishLoop_distance _ rfl hr
    · exact publishLoop_distance _ rfl hr

omit [DecidableEq κ] in
theorem hopped_distance {seq : Option ℕ} (hf : s.flight = some (.hopping l part seq rest)) :
    distance n { s with flight := some (.publishing l part seq rest) } < distance n s := by
  apply distance_lt
  · exact id
  · rw [hf]
    exact Nat.lt_succ_self _

theorem publish_distance {seq : Option ℕ} (hf : s.flight = some (.publishing l part seq rest))
    (failure : Option (PublishFailure ε)) :
    distance n (publish s l part seq rest failure) < distance n s := by
  unfold publish
  split
  · apply distance_lt
    · exact id
    · rw [hf]
      exact Nat.lt_succ_self _
  · apply distance_lt
    · exact id
    · rw [hf]
      exact Nat.lt_succ_self _

omit [DecidableEq κ] in
theorem settlePublished_queue (s : Writer κ ω ε) (part : Part κ ω)
    (failure : Option (PublishFailure ε)) : (settlePublished s part failure).queue = s.queue := by
  unfold settlePublished
  split <;> rfl

theorem afterScope_distance {external : Option (Thrown ε)} {failure : Option (PublishFailure ε)}
    (hf : s.flight = some (.ran l part rest external failure)) :
    distance n (afterScope s l part rest external failure) < distance n s := by
  have hr : 3 * rest.length + 3 ≤ remaining s.flight := by
    rw [hf]
    exact le_refl _
  unfold afterScope
  split
  · exact publishLoop_distance _ rfl hr
  · split
    · exact publishLoop_distance _ rfl hr
    · split
      · apply publishLoop_distance _ _ hr
        split <;> rfl
      · exact publishLoop_distance _ (settlePublished_queue s part failure) hr

theorem failSession_distance (hf : s.flight = some (.failing l)) :
    distance n (failSession s l) < distance n s := by
  have hr : 1 < remaining s.flight := by
    rw [hf]
    exact Nat.lt_succ_self 1
  have hfail : ∀ error line own, distance n (finish (fail s error line own) l) < distance n s := by
    intro error line own
    apply distance_lt
    · intro hn
      rw [← (fail_frame s error line own).1]
      exact finish_mem hn
    · exact hr
  unfold failSession
  split
  · exact hfail ..
  · exact hfail ..
  · exact distance_lt finish_mem hr

theorem flushed_distance (hn : n ∈ numbers s.queue) : distance n (flushed s) < distance n s := by
  have hqueue : s.queue ≠ [] := by
    intro hq
    rw [hq] at hn
    cases hn
  have hout : n ∉ numbers (flushed s).queue := by
    intro hmem
    unfold flushed pump at hmem
    rw [if_neg (by simp [hqueue])] at hmem
    dsimp only at hmem
    split at hmem
    · simp at hmem
    · split_ifs at hmem
      · cases hmem
      · have := (publishLoop_progress n _ _ _).2 hmem
        cases this
  unfold distance
  rw [Prod.Lex.toLex_lt_toLex]
  exact .inl (by simp [hn, hout])

/-- Every step keeps a part at its distance from its gate, and the end of a wait brings it
nearer. -/
theorem step_distance {e : Event κ ω ε} (h : Invariant s) (hs : Step s e s') (hn : n < s.admitted)
    (hclosed : n ∉ s.opened) :
    distance n s' ≤ distance n s ∧ (e.IsAnswer → distance n s' < distance n s) := by
  have hflight : s.flight ≠ none := by
    intro hf
    rw [(h.quiet hf).2.2.1] at hclosed
    exact hclosed (mem_range.mpr hn)
  cases hs with
  | admitPart spec =>
    have hpump : GroupCommit.admitPart s spec = enqueue s spec := by
      unfold GroupCommit.admitPart pump
      obtain ⟨f, hf⟩ := Option.ne_none_iff_exists'.mp hflight
      exact if_pos (.inl (by simp [enqueue, hf]))
    have hne : n ≠ s.admitted := ne_of_lt hn
    have hd : distance n (enqueue s spec) = distance n s := by
      have hf : (enqueue s spec).flight = s.flight := rfl
      unfold distance
      rw [hf, enqueue_queue, numbers_append]
      simp [newPart, hne]
    rw [hpump, hd]
    exact ⟨le_refl _, fun ha => ha.elim⟩
  | fails error line =>
    obtain ⟨hq, hf, -⟩ := fail_frame s error (some line) []
    refine ⟨?_, fun ha => ha.elim⟩
    unfold distance
    rw [hq, hf]
  | stored seqs result hf =>
    have hd := stored_distance (n := n) hf seqs result
    exact ⟨hd.le, fun _ => hd⟩
  | hopped hf =>
    have hd := hopped_distance (n := n) hf
    exact ⟨hd.le, fun _ => hd⟩
  | published failure hf =>
    have hd := publish_distance (n := n) hf failure
    exact ⟨hd.le, fun _ => hd⟩
  | scopeSettled hf =>
    have hd := afterScope_distance (n := n) hf
    exact ⟨hd.le, fun _ => hd⟩
  | ticked hf =>
    have hd := failSession_distance (n := n) hf
    exact ⟨hd.le, fun _ => hd⟩
  | flushed hf =>
    simp only [Invariant, hf] at h
    have hmem : n ∈ s.settled ++ numbers s.queue := by
      rw [h.settled]
      exact mem_range.mpr hn
    rw [← h.opened] at hmem
    have hd := flushed_distance ((mem_append.mp hmem).resolve_left hclosed)
    exact ⟨hd.le, fun _ => hd⟩

/-! ### Admitted parts stay admitted -/

theorem unpublishAll_admitted (s : Writer κ ω ε) (parts : List (Part κ ω)) (error : Thrown ε) :
    (unpublishAll s parts error).admitted = s.admitted := by
  induction parts generalizing s with
  | nil => rfl
  | cons part parts ih => exact ih (unpublish s part error)

theorem settleFailing_admitted (s : Writer κ ω ε) (l : Loop κ ω ε) :
    (settleFailing s l).admitted = s.admitted := by
  unfold settleFailing
  induction l.failing generalizing s with
  | nil => rfl
  | cons f fs ih =>
    have hf : (settleFailed l s f).admitted = s.admitted := by
      simp only [settleFailed]
      split_ifs <;> rfl
    exact (ih _).trans hf

theorem finish_admitted (s : Writer κ ω ε) (l : Loop κ ω ε) :
    (finish s l).admitted = s.admitted := by
  have hd : (dropQueue (settleFailing s l)).admitted = (settleFailing s l).admitted := by
    unfold dropQueue
    split
    · exact unpublishAll_admitted ..
    · rfl
  exact hd.trans (settleFailing_admitted s l)

theorem publishLoop_admitted (s : Writer κ ω ε) (l : Loop κ ω ε) (todo : List (Part κ ω)) :
    (publishLoop s l todo).admitted = s.admitted := by
  induction todo generalizing l with
  | nil =>
    unfold publishLoop
    split_ifs
    · rfl
    · exact finish_admitted s l
  | cons part rest ih =>
    simp only [publishLoop]
    split
    · exact ih _
    · generalize (if part.writes.isSome then l.seqs[l.storedIndex]?.join else none) = seq
      split
      · exact ih _
      · rfl

theorem pump_admitted (s : Writer κ ω ε) : (pump s).admitted = s.admitted := by
  unfold pump
  split
  · rfl
  · dsimp only
    split
    · exact unpublishAll_admitted ..
    · split
      · rfl
      · exact publishLoop_admitted ..

omit [DecidableEq κ] in
theorem fail_admitted (s : Writer κ ω ε) (error : Thrown ε) (line : Option ℕ) (own : List ℕ) :
    (fail s error line own).admitted = s.admitted := by
  unfold fail
  split <;> rfl

theorem step_admitted {e : Event κ ω ε} (hs : Step s e s') : s.admitted ≤ s'.admitted := by
  cases hs with
  | admitPart spec =>
    rw [admitPart, pump_admitted]
    exact Nat.le_succ _
  | fails error line => exact (fail_admitted ..).ge
  | stored seqs result hf =>
    unfold stored
    split
    · exact (unpublishAll_admitted ..).ge
    · split
      · exact (publishLoop_admitted ..).ge
      · exact (publishLoop_admitted ..).ge
  | hopped hf => exact le_refl _
  | published failure hf =>
    unfold publish
    split <;> exact le_refl _
  | scopeSettled hf =>
    have hsettle : ∀ part failure, (settlePublished s part failure).admitted = s.admitted := by
      intro part failure
      unfold settlePublished
      split <;> rfl
    unfold afterScope
    split
    · exact (publishLoop_admitted ..).ge
    · split
      · exact (publishLoop_admitted ..).ge
      · split
        · rw [publishLoop_admitted]
          split <;> exact le_refl _
        · rw [publishLoop_admitted, hsettle]
  | ticked hf =>
    unfold failSession
    split
    · rw [finish_admitted, fail_admitted]
    · rw [finish_admitted, fail_admitted]
    · rw [finish_admitted]
  | flushed hf => rw [flushed, pump_admitted]

/-! ### Delivery -/

abbrev WriterRun (κ ω ε : Type*) [DecidableEq κ] :=
  System.Run (system : System (Writer κ ω ε) (Event κ ω ε))

/-- Whatever a flush waits for ends at some time. -/
def WaitsEnd (r : WriterRun κ ω ε) : Prop :=
  ∀ i, (r.state i).flight ≠ none → ∃ j, i ≤ j ∧ (r.label j).IsAnswer

theorem gate_opens {r : WriterRun κ ω ε} (hw : WaitsEnd r) {i : ℕ} (hn : n < (r.state i).admitted) :
    ∃ j, i ≤ j ∧ n ∈ (r.state j).opened := by
  have hI : ∀ j, Invariant (r.state j) := fun j => invariant_of_reachable (r.reachable j)
  have hle : ∀ k, n < (r.state (i + k)).admitted := by
    intro k
    induction k with
    | zero => exact hn
    | succ k ih => exact lt_of_lt_of_le ih (step_admitted (r.next (i + k)))
  have hadm : ∀ j, i ≤ j → n < (r.state j).admitted := by
    intro j hj
    obtain ⟨k, rfl⟩ := Nat.exists_eq_add_of_le hj
    exact hle k
  apply r.eventually (distance n) Event.IsAnswer (fun s => n ∈ s.opened)
  · intro j hj hclosed
    exact .inr (step_distance (hI j) (r.next j) (hadm j hj) hclosed)
  · intro j hj hclosed
    apply hw j
    intro hf
    rw [((hI j).quiet hf).2.2.1] at hclosed
    exact hclosed (mem_range.mpr (hadm j hj))

/-- The writer is safe in every reachable state, and in every run whose waits end each admitted
part settles and opens its gate. -/
theorem writer_delivers :
    (∀ s : Writer κ ω ε, system.Reachable s → Safe s) ∧
    ∀ r : WriterRun κ ω ε, WaitsEnd r →
      ∀ i n, n < (r.state i).admitted →
        ∃ j, i ≤ j ∧ n ∈ (r.state j).settled ∧ n ∈ (r.state j).opened := by
  refine ⟨fun s h => safe_of_invariant (invariant_of_reachable h), ?_⟩
  intro r hw i n hn
  obtain ⟨j, hij, hj⟩ := gate_opens hw hn
  have hI := invariant_of_reachable (r.reachable j)
  obtain ⟨pending, registered, toRun, hb⟩ := invariant_books hI
  refine ⟨j, hij, ?_, hj⟩
  rwa [← hb.opened]

/-- Two parts are sent in one call behind the first, and Storage refuses the second of them. -/
def storedPart (n : ℕ) : Part ℕ Unit := ⟨⟨n, some (), [7]⟩, n⟩

def refusal : Thrown Unit := .error "Refused"

def storedLoop : Loop ℕ Unit Unit := ⟨[some 3], some ⟨1, none⟩, none, none, [], 1, 1⟩

def refusedLoop : Loop ℕ Unit Unit :=
  ⟨[some 4, none], some ⟨1, some refusal⟩, none, none, [], 1, 1⟩

def failedLoop : Loop ℕ Unit Unit :=
  { refusedLoop with
    stop := some ⟨refusal, 2, false⟩
    failing := [⟨storedPart 2, .own refusal, false⟩]
    storedIndex := 2 }

def storedState : ℕ → Writer ℕ Unit Unit
  | 0 => Writer.empty
  | 1 => admitPart (storedState 0) (storedPart 0).toPartSpec
  | 2 => admitPart (storedState 1) (storedPart 1).toPartSpec
  | 3 => admitPart (storedState 2) (storedPart 2).toPartSpec
  | 4 => stored (storedState 3) [storedPart 0] [some 3] (.ok ⟨1, none⟩)
  | 5 => publish (storedState 4) storedLoop (storedPart 0) (some 3) [] none
  | 6 => afterScope (storedState 5) storedLoop (storedPart 0) [] none none
  | 7 => flushed (storedState 6)
  | 8 => stored (storedState 7) [storedPart 1, storedPart 2] [some 4, none] (.ok ⟨1, some refusal⟩)
  | 9 => publish (storedState 8) refusedLoop (storedPart 1) (some 4) [storedPart 2] none
  | 10 => afterScope (storedState 9) refusedLoop (storedPart 1) [storedPart 2] none none
  | 11 => failSession (storedState 10) failedLoop
  | 12 => flushed (storedState 11)
  | n + 13 => fail (storedState (n + 12)) (.error "closed") (some 1) []

def storedEvent : ℕ → Event ℕ Unit Unit
  | 0 => .admitPart (storedPart 0).toPartSpec
  | 1 => .admitPart (storedPart 1).toPartSpec
  | 2 => .admitPart (storedPart 2).toPartSpec
  | 3 => .stored [some 3] (.ok ⟨1, none⟩)
  | 7 => .stored [some 4, none] (.ok ⟨1, some refusal⟩)
  | 4 | 8 => .published none
  | 5 | 9 => .scopeSettled
  | 10 => .ticked
  | 6 | 11 => .flushed
  | _ => .fails (.error "closed") 1

def storedRun : WriterRun ℕ Unit Unit where
  state := storedState
  label := storedEvent
  init := rfl
  next
    | 0 | 1 | 2 => Step.admitPart _
    | 3 | 7 => Step.stored _ _ rfl
    | 4 | 8 => Step.published _ rfl
    | 5 | 9 => Step.scopeSettled rfl
    | 6 | 11 => Step.flushed rfl
    | 10 => Step.ticked rfl
    | _ + 12 => Step.fails _ _

theorem storedState_flight (n : ℕ) : (storedState (n + 12)).flight = none := by
  induction n with
  | zero => rfl
  | succ n ih => exact (fail_frame (storedState (n + 12)) _ _ _).2.1.trans ih

theorem storedRun_waitsEnd : WaitsEnd storedRun := by
  intro i hf
  by_cases hi : i < 12
  · exact ⟨11, Nat.le_of_lt_succ hi, trivial⟩
  · obtain ⟨n, rfl⟩ := Nat.exists_eq_add_of_le (not_lt.mp hi)
    rw [Nat.add_comm] at hf
    exact absurd (storedState_flight n) hf

theorem writer_delivers_stored :
    (∀ i, Safe (storedRun.state i)) ∧
      ∃ j, 3 ≤ j ∧ 2 ∈ (storedRun.state j).settled ∧ 2 ∈ (storedRun.state j).opened :=
  ⟨fun i => writer_delivers.1 _ (storedRun.reachable i),
    writer_delivers.2 storedRun storedRun_waitsEnd 3 2 (by decide)⟩

end KnightCode.GroupCommit
