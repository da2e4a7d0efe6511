import Mathlib.Data.List.Basic

/-!
# Tables behind a store

A store has a value for each key it knows, and writes change it. A table keeps some of the values,
but hears of each write only later, in the order of the writes. `Behind` says what a table may hold:
values that the writes it has not heard of make those of the store. Such a table may forget values
at any time, and may keep a value read from the store when no write it has not heard of changes it.
-/

structure Follower (σ ω κ τ : Type*) where
  known : σ → κ → Prop
  value : σ → κ → τ
  /-- The key whose value a write changes, and what it becomes. -/
  changes : ω → Option (κ × τ)
  /-- What the table keeps when it hears of a write. -/
  keeps : ω → Option (κ × τ)

namespace Follower

open List

variable {σ ω κ τ : Type*} [DecidableEq κ] {F : Follower σ ω κ τ}
variable {k : κ}

/-- A write takes the store from one state to another. -/
structure Follows (F : Follower σ ω κ τ) (s : σ) (w : ω) (s' : σ) : Prop where
  known : ∀ k, F.known s k → F.known s' k
  same : ∀ k, F.known s k → (∀ x, F.changes w ≠ some (k, x)) → F.value s' k = F.value s k
  changed : ∀ k x, F.changes w = some (k, x) → F.value s' k = x
  kept : ∀ k x, F.keeps w = some (k, x) → F.known s' k ∧ F.value s' k = x
  keeps : ∀ k x, F.changes w = some (k, x) → F.keeps w = some (k, x)

def after (F : Follower σ ω κ τ) (k : κ) (v : τ) (w : ω) : τ :=
  match F.changes w with
  | some (k', x) => if k' = k then x else v
  | none => v

/-- What writes make of a value. -/
def carried (F : Follower σ ω κ τ) (k : κ) (v : τ) (writes : List ω) : τ :=
  writes.foldl (F.after k) v

def Untouched (F : Follower σ ω κ τ) (k : κ) (writes : List ω) : Prop :=
  ∀ w ∈ writes, ∀ x, F.changes w ≠ some (k, x)

@[simp] theorem carried_nil (k : κ) (v : τ) : F.carried k v ([] : List ω) = v := rfl

@[simp] theorem carried_cons (k : κ) (v : τ) (w : ω) (writes : List ω) :
    F.carried k v (w :: writes) = F.carried k (F.after k v w) writes := rfl

@[simp] theorem carried_append (k : κ) (v : τ) (writes more : List ω) :
    F.carried k v (writes ++ more) = F.carried k (F.carried k v writes) more := by
  simp [carried]

theorem after_of_ne (h : ∀ x, F.changes w ≠ some (k, x)) (v : τ) : F.after k v w = v := by
  rw [after]
  split
  · next k' x hchanges =>
    rw [if_neg]
    rintro rfl
    exact h x hchanges
  · rfl

theorem after_of_changes {x : τ} (h : F.changes w = some (k, x)) (v : τ) : F.after k v w = x := by
  rw [after, h]
  exact if_pos rfl

theorem carried_untouched {writes : List ω} (h : F.Untouched k writes) (v : τ) :
    F.carried k v writes = v := by
  induction writes with
  | nil => rfl
  | cons w writes ih =>
    obtain ⟨hw, hwrites⟩ := forall_mem_cons.mp h
    rw [carried_cons, after_of_ne hw]
    exact ih hwrites

theorem Follows.after {s s' : σ} {w : ω} (h : F.Follows s w s') {k : κ} (hk : F.known s k) :
    F.after k (F.value s k) w = F.value s' k := by
  by_cases hchanges : ∃ x, F.changes w = some (k, x)
  · obtain ⟨x, hx⟩ := hchanges
    rw [after_of_changes hx, h.changed k x hx]
  · rw [not_exists] at hchanges
    rw [after_of_ne hchanges, h.same k hk hchanges]

/-- A table whose keys show `peek`, and the writes it has not heard of, the oldest first. -/
structure Behind (F : Follower σ ω κ τ) (s : σ) (pending : List ω) (peek : κ → Option τ) :
    Prop where
  shown : ∀ k v, peek k = some v → F.known s k ∧ F.carried k v pending = F.value s k
  coming : ∀ before w behind, pending = before ++ w :: behind → ∀ k x, F.keeps w = some (k, x) →
    F.known s k ∧ F.carried k x behind = F.value s k

variable {s s' : σ} {w : ω} {pending : List ω} {peek peek' : κ → Option τ}

theorem Behind.empty (s : σ) : F.Behind s [] fun _ => none := by
  refine ⟨nofun, fun before w behind h => ?_⟩
  simp at h

theorem Behind.forget (h : F.Behind s pending peek)
    (hsub : ∀ k v, peek' k = some v → peek k = some v) : F.Behind s pending peek' :=
  ⟨fun k v hv => h.shown k v (hsub k v hv), h.coming⟩

theorem Behind.write (h : F.Behind s pending peek) (hw : F.Follows s w s') :
    F.Behind s' (pending ++ [w]) peek := by
  have hcarried : ∀ k, F.known s k → ∀ v writes, F.carried k v writes = F.value s k →
      F.known s' k ∧ F.carried k v (writes ++ [w]) = F.value s' k := by
    intro k hk v writes heq
    rw [carried_append, heq, carried_cons, carried_nil, hw.after hk]
    exact ⟨hw.known k hk, rfl⟩
  refine ⟨fun k v hv => ?_, fun before w' behind heq k x hkeeps => ?_⟩
  · obtain ⟨hk, hv⟩ := h.shown k v hv
    exact hcarried k hk v pending hv
  · rcases eq_nil_or_concat behind with rfl | ⟨rest, last, rfl⟩
    · obtain ⟨-, hlast⟩ := append_inj' heq rfl
      obtain rfl := singleton_inj.mp hlast
      obtain ⟨hk, hx⟩ := hw.kept k x hkeeps
      exact ⟨hk, hx.symm⟩
    · rw [concat_eq_append, ← cons_append, ← append_assoc] at heq
      obtain ⟨hpending, hlast⟩ := append_inj' heq rfl
      obtain rfl := singleton_inj.mp hlast
      obtain ⟨hk, hx⟩ := h.coming before w' rest hpending k x hkeeps
      rw [concat_eq_append]
      exact hcarried k hk x rest hx

theorem Behind.congr (h : F.Behind s pending peek) (hknown : ∀ k, F.known s k → F.known s' k)
    (hvalue : ∀ k, F.known s k → F.value s' k = F.value s k) : F.Behind s' pending peek := by
  refine ⟨fun k v hv => ?_, fun before w behind heq k x hkeeps => ?_⟩
  · obtain ⟨hk, hv⟩ := h.shown k v hv
    exact ⟨hknown k hk, hv.trans (hvalue k hk).symm⟩
  · obtain ⟨hk, hx⟩ := h.coming before w behind heq k x hkeeps
    exact ⟨hknown k hk, hx.trans (hvalue k hk).symm⟩

theorem Behind.hear (h : F.Behind s (w :: pending) peek)
    (hw : ∀ k x, F.changes w = some (k, x) → F.keeps w = some (k, x))
    (hpeek : ∀ k v, peek' k = some v →
      F.keeps w = some (k, v) ∨ peek k = some v ∧ ∀ x, F.keeps w ≠ some (k, x)) :
    F.Behind s pending peek' := by
  refine ⟨fun k v hv => ?_, fun before w' behind heq => ?_⟩
  · rcases hpeek k v hv with hkeeps | ⟨hold, hother⟩
    · exact h.coming [] w pending rfl k v hkeeps
    · obtain ⟨hk, hcarried⟩ := h.shown k v hold
      rw [carried_cons, after_of_ne fun x hx => hother x (hw k x hx)] at hcarried
      exact ⟨hk, hcarried⟩
  · exact h.coming (w :: before) w' behind (by rw [heq, cons_append])

theorem Behind.read (h : F.Behind s pending peek) (hk : F.known s k)
    (huntouched : F.Untouched k pending)
    (hpeek : ∀ k' v, peek' k' = some v → k = k' ∧ F.value s k = v ∨ peek k' = some v) :
    F.Behind s pending peek' := by
  refine ⟨fun k' v hv => ?_, h.coming⟩
  rcases hpeek k' v hv with ⟨rfl, rfl⟩ | hold
  · exact ⟨hk, carried_untouched huntouched _⟩
  · exact h.shown k' v hold

theorem Behind.exact (h : F.Behind s pending peek) {v : τ} (hv : peek k = some v)
    (huntouched : F.Untouched k pending) : F.known s k ∧ v = F.value s k := by
  obtain ⟨hk, hcarried⟩ := h.shown k v hv
  rw [carried_untouched huntouched] at hcarried
  exact ⟨hk, hcarried⟩

end Follower
