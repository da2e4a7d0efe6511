/-!
# Outcomes that are values

What it takes for a chain of fallible steps to end in a value, and when two chains succeed together.
-/

namespace Except

variable {ε α β : Type}
variable {x : Except ε α} {f : α → Except ε β}

theorem bind_eq_ok {b : β} (h : x >>= f = .ok b) : ∃ a, x = .ok a ∧ f a = .ok b := by
  cases x with
  | error e => cases h
  | ok a => exact ⟨a, rfl, h⟩

theorem map_eq_ok {f : α → β} {b : β} (h : x.map f = .ok b) : ∃ a, x = .ok a ∧ f a = b := by
  cases x with
  | error e => cases h
  | ok a => exact ⟨a, rfl, Except.ok.inj h⟩

theorem mapError_eq_ok {δ : Type} {f : ε → δ} {a : α} (h : x.mapError f = .ok a) : x = .ok a := by
  cases x with
  | error e => cases h
  | ok b => exact congrArg ok (ok.inj h)

theorem foldlM_invariant {I : β → Prop} {f : β → α → Except ε β}
    (hstep : ∀ b a b', I b → f b a = .ok b' → I b') {l : List α} {b b' : β} (hb : I b)
    (h : l.foldlM f b = .ok b') : I b' := by
  induction l generalizing b with
  | nil => exact Except.ok.inj (List.foldlM_nil.symm.trans h) ▸ hb
  | cons a l ih =>
    rw [List.foldlM_cons] at h
    obtain ⟨next, hnext, hrest⟩ := bind_eq_ok h
    exact ih (hstep b a next hb hnext) hrest

/-! ### Outcomes that agree -/

variable {δ α' β' : Type}

/-- Both are values, in a relation, or both are errors. -/
def Agree (R : α → α' → Prop) : Except ε α → Except δ α' → Prop
  | .ok a, .ok a' => R a a'
  | .error _, .error _ => True
  | _, _ => False

variable {R : α → α' → Prop} {y : Except δ α'}

theorem Agree.mono {S : α → α' → Prop} (hRS : ∀ a a', R a a' → S a a') (h : Agree R x y) :
    Agree S x y := by
  cases x with
  | error e =>
    cases y with
    | error d => trivial
    | ok a' => exact h
  | ok a =>
    cases y with
    | error d => exact h
    | ok a' => exact hRS a a' h

variable {g : α' → Except δ β'}
variable {S : β → β' → Prop}

theorem Agree.bind_of_eq (h : Agree R x y)
    (hfg : ∀ a a', x = .ok a → y = .ok a' → R a a' → Agree S (f a) (g a')) :
    Agree S (x >>= f) (y >>= g) := by
  cases x with
  | error e =>
    cases y with
    | error d => trivial
    | ok a' => exact h.elim
  | ok a =>
    cases y with
    | error d => exact h.elim
    | ok a' => exact hfg a a' rfl rfl h

theorem Agree.bind (h : Agree R x y) (hfg : ∀ a a', R a a' → Agree S (f a) (g a')) :
    Agree S (x >>= f) (y >>= g) :=
  h.bind_of_eq fun a a' _ _ => hfg a a'

theorem Agree.map {R : α → α' → Prop} {x : Except ε α} {y : Except δ α'} {f : α → β} {g : α' → β'}
    (h : Agree R x y) (hfg : ∀ a a', R a a' → S (f a) (g a')) : Agree S (x.map f) (y.map g) := by
  cases x with
  | error e =>
    cases y with
    | error d => trivial
    | ok a' => exact h
  | ok a =>
    cases y with
    | error d => exact h
    | ok a' => exact hfg a a' h

theorem Agree.map_left {S : β → α' → Prop} {f : α → β} (h : Agree R x y)
    (hf : ∀ a a', R a a' → S (f a) a') : Agree S (x.map f) y := by
  have hmap := @Agree.map ε α β δ α' α' S R x y f id h hf
  cases y <;> exact hmap

theorem Agree.bind_right {S : α → β' → Prop} (h : Agree R x y)
    (hg : ∀ a a', R a a' → ∃ b', g a' = .ok b' ∧ S a b') : Agree S x (y >>= g) := by
  cases x with
  | error e =>
    cases y with
    | error d => trivial
    | ok a' => exact h.elim
  | ok a =>
    cases y with
    | error d => exact h.elim
    | ok a' =>
      obtain ⟨b', hb', hS⟩ := hg a a' h
      show Agree S (.ok a) (g a')
      rw [hb']
      exact hS

theorem Agree.bind_left {S : β → α' → Prop} (h : Agree R x y)
    (hf : ∀ a a', R a a' → ∃ b, f a = .ok b ∧ S b a') : Agree S (x >>= f) y := by
  cases x with
  | error e =>
    cases y with
    | error d => trivial
    | ok a' => exact h.elim
  | ok a =>
    cases y with
    | error d => exact h.elim
    | ok a' =>
      obtain ⟨b, hb, hS⟩ := hf a a' h
      show Agree S (f a) (.ok a')
      rw [hb]
      exact hS

theorem Agree.trans_eq {γ : Type} {z : Except γ α'} (h : Agree R x y) (heq : Agree Eq y z) :
    Agree R x z := by
  cases y with
  | error d =>
    cases z with
    | error c => cases x <;> exact h
    | ok a' => exact heq.elim
  | ok a' =>
    cases z with
    | error c => exact heq.elim
    | ok a'' =>
      obtain rfl : a' = a'' := heq
      cases x <;> exact h

theorem Agree.mapError_left {γ : Type} (h : Agree R x y) (f : ε → γ) :
    Agree R (x.mapError f) y := by
  cases x with
  | error e => cases y <;> exact h
  | ok a => cases y <;> exact h

theorem Agree.ok_left (h : Agree R x y) {a : α} (hx : x = .ok a) : ∃ a', y = .ok a' ∧ R a a' := by
  rw [hx] at h
  cases y with
  | error d => exact h.elim
  | ok a' => exact ⟨a', rfl, h⟩

theorem Agree.ok_right (h : Agree R x y) {a' : α'} (hy : y = .ok a') : ∃ a, x = .ok a ∧ R a a' := by
  rw [hy] at h
  cases x with
  | error e => exact h.elim
  | ok a => exact ⟨a, rfl, h⟩

theorem Agree.of_both {γ σ : Type} {R : α → σ → Prop} {S : α' → σ → Prop} {z : Except γ σ}
    (hx : Agree R x z) (hy : Agree S y z) : Agree (fun a a' => ∃ c, R a c ∧ S a' c) x y := by
  cases z with
  | error e =>
    cases x with
    | ok a => exact hx.elim
    | error d =>
      cases y with
      | ok a' => exact hy.elim
      | error d' => trivial
  | ok c =>
    cases x with
    | error d => exact hx.elim
    | ok a =>
      cases y with
      | error d' => exact hy.elim
      | ok a' => exact ⟨c, hx, hy⟩

end Except
