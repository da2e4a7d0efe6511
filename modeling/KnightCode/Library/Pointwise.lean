import Mathlib.Data.List.Forall2

/-!
# Lists related element by element

`mapM` in `Option` relates each element to its value; related lists compose, and have related
members.
-/

namespace Pointwise

open List Option

variable {α β γ : Type*} {R : α → β → Prop} {S : β → γ → Prop} {T : α → γ → Prop}
  {l : List α} {m : List β} {r : List γ}
variable {f : α → Option β} {a : α}

theorem of_mapM (h : l.mapM f = some m) : List.Forall₂ (fun a b => f a = some b) l m := by
  induction l generalizing m with
  | nil =>
    obtain rfl := Option.some.inj h
    exact .nil
  | cons a l ih =>
    rw [mapM_cons, bind_eq_bind, bind_eq_some_iff] at h
    obtain ⟨b, hb, h⟩ := h
    obtain ⟨m, hm, h⟩ := bind_eq_some_iff.mp h
    obtain rfl := Option.some.inj h
    exact .cons hb (ih hm)

theorem mapM_eq (h : List.Forall₂ (fun a b => f a = some b) l m) : l.mapM f = some m := by
  induction h with
  | nil => rfl
  | cons hb _ ih =>
    rw [mapM_cons, hb, ih]
    rfl

theorem exists_of_mapM (h : l.mapM f = none) : ∃ a ∈ l, f a = none := by
  induction l with
  | nil => cases h
  | cons a l ih =>
    cases ha : f a with
    | none => exact ⟨a, mem_cons_self, ha⟩
    | some b =>
      cases hl : l.mapM f with
      | none =>
        obtain ⟨other, hother, hnone⟩ := ih hl
        exact ⟨other, mem_cons_of_mem _ hother, hnone⟩
      | some m =>
        rw [mapM_cons, ha, hl] at h
        cases h

theorem exists_right (h : List.Forall₂ R l m) (ha : a ∈ l) : ∃ b ∈ m, R a b := by
  induction h with
  | nil => exact absurd ha not_mem_nil
  | cons hab _ ih =>
    obtain rfl | ha := mem_cons.mp ha
    · exact ⟨_, mem_cons_self, hab⟩
    · obtain ⟨b, hb, hab⟩ := ih ha
      exact ⟨b, mem_cons_of_mem _ hb, hab⟩

theorem exists_concat (h : List.Forall₂ R (l ++ [a]) m) :
    ∃ before b, m = before ++ [b] ∧ List.Forall₂ R l before ∧ R a b := by
  induction l generalizing m with
  | nil =>
    obtain ⟨b, rest, hab, hrest, rfl⟩ := forall₂_cons_left_iff.mp h
    rw [forall₂_nil_left_iff.mp hrest]
    exact ⟨[], b, rfl, .nil, hab⟩
  | cons first l ih =>
    obtain ⟨b, rest, hfirst, hrest, rfl⟩ := forall₂_cons_left_iff.mp h
    obtain ⟨before, last, rfl, hbefore, hlast⟩ := ih hrest
    exact ⟨b :: before, last, rfl, .cons hfirst hbefore, hlast⟩

theorem concat {b : β} (h : List.Forall₂ R l m) (hab : R a b) :
    List.Forall₂ R (l ++ [a]) (m ++ [b]) := by
  induction h with
  | nil => exact .cons hab .nil
  | cons hfirst _ ih => exact .cons hfirst ih

theorem exists_left (h : List.Forall₂ R l m) {b : β} (hb : b ∈ m) : ∃ a ∈ l, R a b :=
  exists_right (R := fun b a => R a b) (List.Forall₂.flip h) hb

theorem mapM_none (ha : a ∈ l) (hnone : f a = none) : l.mapM f = none := by
  cases h : l.mapM f with
  | none => rfl
  | some m =>
    obtain ⟨b, -, hb⟩ := exists_right (of_mapM h) ha
    cases hnone.symm.trans hb

theorem comp (h : List.Forall₂ R l m) (h' : List.Forall₂ S m r)
    (hcomp : ∀ a ∈ l, ∀ b c, R a b → S b c → T a c) : List.Forall₂ T l r := by
  induction h generalizing r with
  | nil =>
    cases h'
    exact .nil
  | cons hab _ ih =>
    cases h' with
    | cons hbc hrest =>
      exact .cons (hcomp _ mem_cons_self _ _ hab hbc)
        (ih hrest fun a ha => hcomp a (mem_cons_of_mem _ ha))

theorem imp (h : List.Forall₂ R l m) {R' : α → β → Prop}
    (himp : ∀ a ∈ l, ∀ b, R a b → R' a b) : List.Forall₂ R' l m := by
  induction h with
  | nil => exact .nil
  | cons hab _ ih =>
    exact .cons (himp _ mem_cons_self _ hab)
      (ih fun a ha => himp a (mem_cons_of_mem _ ha))

theorem map_eq {f : α → γ} {g : β → γ} (h : List.Forall₂ (fun a b => f a = g b) l m) :
    l.map f = m.map g := by
  induction h with
  | nil => rfl
  | cons hab _ ih => rw [map_cons, map_cons, hab, ih]

theorem countP_lt {p : α → Bool} {q : β → Bool} (h : List.Forall₂ R l m)
    (hkept : ∀ a b, R a b → q b = true → p a = true)
    (hlost : ∃ a ∈ l, p a = true ∧ ∀ b, R a b → q b = false) : m.countP q < l.countP p := by
  have hle : ∀ {l : List α} {m : List β}, List.Forall₂ R l m → m.countP q ≤ l.countP p := by
    intro l m h
    induction h with
    | nil => exact Nat.le_refl 0
    | @cons a b l m hab _ ih =>
      rw [countP_cons, countP_cons]
      cases hb : q b with
      | true => rw [if_pos rfl, hkept a b hab hb, if_pos rfl]; omega
      | false => rw [if_neg Bool.false_ne_true]; omega
  induction h with
  | nil =>
    obtain ⟨a, ha, -⟩ := hlost
    exact absurd ha not_mem_nil
  | @cons a b l m hab hrest ih =>
    rw [countP_cons, countP_cons]
    obtain ⟨lost, hmem, hp, hnot⟩ := hlost
    obtain rfl | hmem := mem_cons.mp hmem
    · have := hle hrest
      rw [hnot b hab, hp, if_pos rfl, if_neg Bool.false_ne_true]
      omega
    · have := ih ⟨lost, hmem, hp, hnot⟩
      cases hb : q b with
      | true => rw [if_pos rfl, hkept a b hab hb, if_pos rfl]; omega
      | false => rw [if_neg Bool.false_ne_true]; omega

end Pointwise
