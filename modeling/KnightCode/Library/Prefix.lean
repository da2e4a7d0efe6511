import Mathlib.Data.List.Basic
import Mathlib.Order.Lattice

/-!
# Lists that agree up to a length

What replicas of one growing log share: `AgreeUpTo n` says that two lists have their first `n`
elements and that these are the same.
-/

namespace List

variable {α : Type*} {n m : ℕ} {xs ys zs xs' ys' : List α}

structure AgreeUpTo (n : ℕ) (xs ys : List α) : Prop where
  left : n ≤ xs.length
  right : n ≤ ys.length
  take : xs.take n = ys.take n

namespace AgreeUpTo

theorem zero (xs ys : List α) : AgreeUpTo 0 xs ys :=
  ⟨Nat.zero_le _, Nat.zero_le _, by simp⟩

theorem symm (h : AgreeUpTo n xs ys) : AgreeUpTo n ys xs :=
  ⟨h.right, h.left, h.take.symm⟩

theorem of_le (h : AgreeUpTo n xs ys) (hm : m ≤ n) : AgreeUpTo m xs ys := by
  refine ⟨hm.trans h.left, hm.trans h.right, ?_⟩
  have htake := congrArg (List.take m) h.take
  rwa [List.take_take, List.take_take, min_eq_left hm] at htake

theorem trans (h : AgreeUpTo n xs ys) (h' : AgreeUpTo n ys zs) : AgreeUpTo n xs zs :=
  ⟨h.left, h'.right, h.take.trans h'.take⟩

theorem min (h : AgreeUpTo n xs zs) (h' : AgreeUpTo m ys zs) : AgreeUpTo (n ⊓ m) xs ys :=
  (h.of_le inf_le_left).trans (h'.of_le inf_le_right).symm

theorem of_isPrefix (h : xs <+: ys) (hn : n ≤ xs.length) : AgreeUpTo n xs ys := by
  obtain ⟨rest, rfl⟩ := h
  refine ⟨hn, hn.trans (by simp), ?_⟩
  rw [List.take_append_of_le_length hn]

theorem grow (h : AgreeUpTo n xs ys) (hx : xs <+: xs') (hy : ys <+: ys') : AgreeUpTo n xs' ys' :=
  ((of_isPrefix hx h.left).symm.trans h).trans (of_isPrefix hy h.right)

end AgreeUpTo

theorem agreeUpTo_length_iff : AgreeUpTo xs.length xs ys ↔ xs <+: ys := by
  refine ⟨fun h => ?_, fun h => .of_isPrefix h le_rfl⟩
  have htake := h.take
  rw [List.take_length] at htake
  exact htake ▸ List.take_prefix _ _

theorem prefix_append_singleton {x : α} (h : xs <+: ys) (hx : ys[xs.length]? = some x) :
    xs ++ [x] <+: ys := by
  obtain ⟨rest, rfl⟩ := h
  rw [List.getElem?_append_right le_rfl, Nat.sub_self] at hx
  cases rest with
  | nil => cases hx
  | cons y rest =>
    cases hx
    exact ⟨rest, by simp⟩

theorem getElem?_of_prefix {x : α} {i : ℕ} (h : xs <+: ys) (hx : xs[i]? = some x) :
    ys[i]? = some x := by
  obtain ⟨rest, rfl⟩ := h
  have hi : i < xs.length := (List.getElem?_eq_some_iff.mp hx).1
  rw [List.getElem?_append_left hi, hx]

end List
