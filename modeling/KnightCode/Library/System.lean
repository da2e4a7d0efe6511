import Mathlib.Order.WellFounded

/-!
# Labelled transition systems and their invariants

A system has initial states and labelled steps. Runs may be restricted to steps whose label is
admitted in the state it is taken from; `Steps.invariant` and `ReachableBy.invariant` lift what
one admitted step preserves to every run.
-/

structure System (σ α : Type*) where
  init : σ → Prop
  step : σ → α → σ → Prop

namespace System

variable {σ α : Type*} (M : System σ α)
variable {s : σ} {I : σ → Prop}

/-- Runs from one state to another, every step admitted by `ok`. -/
inductive Steps (ok : σ → α → Prop) : σ → σ → Prop
  | refl (s : σ) : Steps ok s s
  | tail {s t u : σ} {a : α} (h : Steps ok s t) (hs : M.step t a u) (ha : ok t a) : Steps ok s u

def ReachableBy (ok : σ → α → Prop) (s : σ) : Prop :=
  ∃ s₀, M.init s₀ ∧ M.Steps ok s₀ s

abbrev Reachable (s : σ) : Prop :=
  M.ReachableBy (fun _ _ => True) s

variable {M} {ok : σ → α → Prop}

theorem Steps.trans {t u : σ} (h : M.Steps ok s t) (h' : M.Steps ok t u) : M.Steps ok s u := by
  induction h' with
  | refl => exact h
  | tail _ hs ha ih => exact ih.tail hs ha

theorem Steps.single {t : σ} {a : α} (hs : M.step s a t) (ha : ok s a) : M.Steps ok s t :=
  (Steps.refl s).tail hs ha

theorem Steps.mono {ok' : σ → α → Prop} (hok : ∀ s a, ok s a → ok' s a) {s t : σ}
    (h : M.Steps ok s t) : M.Steps ok' s t := by
  induction h with
  | refl => exact Steps.refl _
  | tail _ hs ha ih => exact ih.tail hs (hok _ _ ha)

theorem Steps.invariant (hstep : ∀ s a t, I s → ok s a → M.step s a t → I t) {t : σ}
    (h : M.Steps ok s t) (hs : I s) : I t := by
  induction h with
  | refl => exact hs
  | tail _ ht ha ih => exact hstep _ _ _ ih ha ht

/-- A transitive relation that contains every admitted step from a state satisfying the invariant
contains every run from such a state. -/
theorem Steps.relation {R : σ → σ → Prop} (hrefl : ∀ s, R s s)
    (htrans : ∀ s t u, R s t → R t u → R s u)
    (hstep : ∀ s a t, I s → ok s a → M.step s a t → I t ∧ R s t) {t : σ} (h : M.Steps ok s t)
    (hs : I s) : R s t := by
  induction h with
  | refl => exact hrefl _
  | tail h ht ha ih =>
    have hI := h.invariant (fun s a t hI ha ht => (hstep s a t hI ha ht).1) hs
    exact htrans _ _ _ ih (hstep _ _ _ hI ha ht).2

theorem ReachableBy.invariant (hinit : ∀ s, M.init s → I s)
    (hstep : ∀ s a t, I s → ok s a → M.step s a t → I t) (h : M.ReachableBy ok s) : I s := by
  obtain ⟨s₀, h₀, hs⟩ := h
  exact hs.invariant hstep (hinit s₀ h₀)

theorem ReachableBy.steps {t : σ} (h : M.ReachableBy ok s) (hs : M.Steps ok s t) :
    M.ReachableBy ok t := by
  obtain ⟨s₀, h₀, h'⟩ := h
  exact ⟨s₀, h₀, h'.trans hs⟩

/-- Steps one after another, each to the state a function computes. -/
def Along (M : System σ α) (ok : σ → α → Prop) (perform : σ → α → σ) : σ → List α → Prop
  | _, [] => True
  | s, a :: as => M.step s a (perform s a) ∧ ok s a ∧ M.Along ok perform (perform s a) as

theorem Along.steps {perform : σ → α → σ} {as : List α} (h : M.Along ok perform s as) :
    M.Steps ok s (as.foldl perform s) := by
  induction as generalizing s with
  | nil => exact .refl s
  | cons a as ih => exact (Steps.single h.1 h.2.1).trans (ih h.2.2)

/-! ### Infinite runs -/

/-- An infinite run, with its labels. -/
structure Run (M : System σ α) where
  state : ℕ → σ
  label : ℕ → α
  init : M.init (state 0)
  next : ∀ i, M.step (state i) (label i) (state (i + 1))

theorem Run.reachable (r : M.Run) (i : ℕ) : M.Reachable (r.state i) := by
  induction i with
  | zero => exact ⟨_, r.init, .refl _⟩
  | succ i ih => exact ih.steps (.single (r.next i) trivial)

/-- A run reaches its goal when, short of it, no step raises a rank, every helpful step lowers it,
and a helpful step always comes. -/
theorem Run.eventually {ρ : Type*} [Preorder ρ] [WellFoundedLT ρ] (r : M.Run) (rank : σ → ρ)
    (helpful : α → Prop) (goal : σ → Prop) {i : ℕ}
    (hstep : ∀ j, i ≤ j → ¬ goal (r.state j) → goal (r.state (j + 1)) ∨ (rank (r.state (j + 1)) ≤
      rank (r.state j) ∧ (helpful (r.label j) → rank (r.state (j + 1)) < rank (r.state j))))
    (hfair : ∀ j, i ≤ j → ¬ goal (r.state j) → ∃ k, j ≤ k ∧ helpful (r.label k)) :
    ∃ j, i ≤ j ∧ goal (r.state j) := by
  by_contra hnever
  push Not at hnever
  have hle : ∀ j k, i ≤ j → rank (r.state (j + k)) ≤ rank (r.state j) := by
    intro j k hj
    induction k with
    | zero => exact le_refl _
    | succ k ih =>
      have hjk : i ≤ j + k := Nat.le_add_right_of_le hj
      obtain hgoal | ⟨hnext, -⟩ := hstep (j + k) hjk (hnever _ hjk)
      · exact absurd hgoal (hnever _ (Nat.le_succ_of_le hjk))
      · exact le_trans hnext ih
  have hacc : ∀ x : ρ, ∀ j, i ≤ j → rank (r.state j) = x → False := by
    intro x
    induction x using WellFoundedLT.induction with
    | ind x ih =>
      rintro j hj rfl
      obtain ⟨k, hjk, hhelp⟩ := hfair j hj (hnever j hj)
      obtain ⟨d, rfl⟩ := Nat.exists_eq_add_of_le hjk
      obtain hgoal | ⟨-, hlt⟩ := hstep (j + d) (hj.trans hjk) (hnever _ (hj.trans hjk))
      · exact hnever _ (Nat.le_succ_of_le (hj.trans hjk)) hgoal
      · exact ih _ (lt_of_lt_of_le (hlt hhelp) (hle j d hj)) (j + d + 1)
          (Nat.le_succ_of_le (hj.trans hjk)) rfl
  exact hacc _ i (le_refl i) rfl

end System
