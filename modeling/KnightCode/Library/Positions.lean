import Mathlib.Data.List.Sort
import Mathlib.Data.List.Infix

/-!
# Removing elements by their positions

A list whose elements are picked together with their positions: picks may be gathered in any order,
sorted by position, and removed from the last position to the first.
-/

namespace Positions

open List

variable {α : Type*}
variable {l : List α}

def removeAt (l : List α) (positions : List ℕ) : List α :=
  positions.foldl eraseIdx l

theorem zipIdx_sorted (l : List α) (n : ℕ) : (l.zipIdx n).Pairwise (fun a b => a.2 < b.2) := by
  induction l generalizing n with
  | nil => exact .nil
  | cons a l ih =>
    rw [zipIdx_cons, pairwise_cons]
    refine ⟨?_, ih (n + 1)⟩
    intro x hx
    have := le_snd_of_mem_zipIdx hx
    exact Nat.lt_of_succ_le this

theorem zipIdx_lt {x : α × ℕ} (h : x ∈ l.zipIdx) : x.2 < l.length := by
  have := snd_lt_add_of_mem_zipIdx h
  omega

theorem removeAt_append {m : List α} {positions : List ℕ} (hp : positions.Pairwise (· > ·))
    (hl : ∀ i ∈ positions, i < l.length) :
    removeAt (l ++ m) positions = removeAt l positions ++ m := by
  induction positions generalizing l with
  | nil => rfl
  | cons i positions ih =>
    obtain ⟨hi, hp⟩ := pairwise_cons.mp hp
    have hil := hl i mem_cons_self
    unfold removeAt at *
    rw [foldl_cons, foldl_cons, eraseIdx_append_of_lt_length hil]
    apply ih hp
    intro j hj
    have := hi j hj
    rw [length_eraseIdx, if_pos hil]
    omega

theorem removeAt_reverse_filter (l : List α) (r : α × ℕ → Bool) :
    removeAt l ((l.zipIdx.filter r).map Prod.snd).reverse =
      (l.zipIdx.filter (fun x => !r x)).map Prod.fst := by
  induction l using reverseRecOn with
  | nil => rfl
  | append_singleton l a ih =>
    have hsorted : ((l.zipIdx.filter r).map Prod.snd).reverse.Pairwise (· > ·) := by
      rw [pairwise_reverse, pairwise_map]
      exact (zipIdx_sorted l 0).sublist filter_sublist
    have hlt : ∀ i ∈ ((l.zipIdx.filter r).map Prod.snd).reverse, i < l.length := by
      intro i hi
      obtain ⟨x, hx, rfl⟩ := mem_map.mp (mem_reverse.mp hi)
      exact zipIdx_lt (mem_of_mem_filter hx)
    rw [zipIdx_append, filter_append, filter_append, map_append, map_append, reverse_append, ← ih]
    by_cases ha : r (a, l.length) = true
    · simp only [zipIdx_cons, zipIdx_nil, Nat.zero_add, filter_cons, ha, if_true,
        filter_nil, map_cons, map_nil, reverse_singleton, singleton_append,
        Bool.not_true, Bool.false_eq_true, if_false, append_nil]
      have herase : (l ++ [a]).eraseIdx l.length = l := by
        rw [eraseIdx_append_of_length_le (le_refl _), Nat.sub_self]
        exact append_nil l
      change removeAt ((l ++ [a]).eraseIdx l.length) _ = _
      rw [herase]
    · simp only [zipIdx_cons, zipIdx_nil, Nat.zero_add, filter_cons, ha,
        filter_nil, map_nil, reverse_nil, nil_append,
        Bool.not_false, if_true, map_cons, Bool.false_eq_true, if_false]
      exact removeAt_append hsorted hlt

theorem sort_filter {r : α × ℕ → Bool} {xs : List (α × ℕ)} (h : xs.Perm (l.zipIdx.filter r)) :
    xs.mergeSort (fun a b => decide (a.2 ≤ b.2)) = l.zipIdx.filter r := by
  have hsorted : (l.zipIdx.filter r).Pairwise (fun a b => a.2 < b.2) :=
    (zipIdx_sorted l 0).sublist filter_sublist
  have hmerge : (xs.mergeSort (fun a b => decide (a.2 ≤ b.2))).Pairwise (fun a b => a.2 ≤ b.2) := by
    have := @pairwise_mergeSort _ (fun a b : α × ℕ => decide (a.2 ≤ b.2))
      (fun a b c hab hbc => by simp only [decide_eq_true_eq] at *; omega)
      (fun a b => by simp only [Bool.or_eq_true, decide_eq_true_eq]; omega) xs
    exact this.imp (fun hab => of_decide_eq_true hab)
  have hperm : (xs.mergeSort (fun a b => decide (a.2 ≤ b.2))).Perm (l.zipIdx.filter r) :=
    (mergeSort_perm xs _).trans h
  refine hperm.eq_of_pairwise ?_ hmerge (hsorted.imp le_of_lt)
  intro a b ha hb hab hba
  have hnodup : ((l.zipIdx.filter r).map Prod.snd).Nodup :=
    pairwise_map.mpr (hsorted.imp (fun h => ne_of_lt h))
  exact inj_on_of_nodup_map hnodup (hperm.subset ha) hb
    (le_antisymm hab hba)

theorem sort_positions {r : α × ℕ → Bool} {xs : List (α × ℕ)} (h : xs.Perm (l.zipIdx.filter r)) :
    (xs.map Prod.snd).mergeSort (fun i j => decide (j ≤ i)) =
      ((l.zipIdx.filter r).map Prod.snd).reverse := by
  have hsorted : ((l.zipIdx.filter r).map Prod.snd).reverse.Pairwise (· ≥ ·) := by
    rw [pairwise_reverse, pairwise_map]
    exact ((zipIdx_sorted l 0).sublist filter_sublist).imp (fun h => le_of_lt h)
  have hmerge : ((xs.map Prod.snd).mergeSort (fun i j => decide (j ≤ i))).Pairwise (· ≥ ·) := by
    have := @pairwise_mergeSort _ (fun i j : ℕ => decide (j ≤ i))
      (fun a b c hab hbc => by simp only [decide_eq_true_eq] at *; omega)
      (fun a b => by simp only [Bool.or_eq_true, decide_eq_true_eq]; omega) (xs.map Prod.snd)
    exact this.imp (fun hab => of_decide_eq_true hab)
  refine List.Perm.eq_of_pairwise ?_ hmerge hsorted
    (((mergeSort_perm _ _).trans (h.map _)).trans (reverse_perm _).symm)
  intro a b _ _ hab hba
  exact le_antisymm hba hab

theorem take_one_filter {κ : Type*} [DecidableEq κ] (key : α → κ) (p : α → Bool)
    (hl : (l.map key).Pairwise (· ≠ ·)) (n : ℕ) :
    ((l.zipIdx n).filter (fun x => p x.1)).take 1 =
      (l.zipIdx n).filter (fun x => p x.1 && (l.find? p).map key == some (key x.1)) := by
  induction l generalizing n with
  | nil => rfl
  | cons a l ih =>
    obtain ⟨ha, hl⟩ := pairwise_cons.mp hl
    rw [zipIdx_cons, filter_cons, filter_cons]
    by_cases hp : p a = true
    · have hrest : (l.zipIdx (n + 1)).filter
          (fun x => p x.1 && some (key a) == some (key x.1)) = [] := by
        rw [filter_eq_nil_iff]
        intro x hx
        have hmem : x.1 ∈ l := by
          obtain ⟨_, _, hx⟩ := mem_zipIdx hx
          rw [hx]
          exact getElem_mem _
        have := ha _ (mem_map_of_mem hmem)
        simp [this]
      rw [find?_cons_of_pos hp]
      simp only [hp, if_true, take_succ_cons, take_zero, Option.map_some, Bool.true_and, BEq.rfl]
      rw [hrest]
    · rw [find?_cons_of_neg hp]
      simp only [hp, Bool.false_and, Bool.false_eq_true, if_false]
      exact ih hl (n + 1)

theorem filter_or_perm (p q : α → Bool) (l : List α) (h : ∀ x ∈ l, p x = true → q x = false) :
    (l.filter p ++ l.filter q).Perm (l.filter (fun x => p x || q x)) := by
  induction l with
  | nil => exact .nil
  | cons a l ih =>
    have ih := ih (fun x hx => h x (mem_cons_of_mem a hx))
    by_cases hp : p a = true
    · have hq := h a mem_cons_self hp
      simpa [hp, hq] using ih
    · rw [Bool.not_eq_true] at hp
      by_cases hq : q a = true
      · simp only [filter_cons, hp, hq, Bool.false_or, if_true, Bool.false_eq_true, if_false]
        exact perm_middle.trans (ih.cons a)
      · rw [Bool.not_eq_true] at hq
        simpa [hp, hq] using ih

theorem filter_fst (p : α → Bool) (l : List α) :
    (l.zipIdx.filter (fun x => p x.1)).map Prod.fst = l.filter p := by
  have := filter_map (f := Prod.fst) (p := p) (l := l.zipIdx)
  rw [zipIdx_map_fst] at this
  exact this.symm

end Positions
