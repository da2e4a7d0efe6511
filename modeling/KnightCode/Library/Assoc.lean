import Mathlib.Data.List.Nodup

/-!
# Insertion-ordered association lists

A keyed collection that enumerates its keys in insertion order: writing a present key keeps its
place, writing an absent one appends it, and erasing a key drops it. `get` reads the first entry
of a key, so the extensional laws below need no uniqueness of keys; the laws about `keys` say
that uniqueness is kept.
-/

namespace Assoc

open List

variable {α β : Type*} [DecidableEq α]
variable {k : α} {m : List (α × β)} {v : β}

def get (k : α) : List (α × β) → Option β
  | [] => none
  | (k', v) :: m => if k' = k then some v else get k m

def set (k : α) (v : β) : List (α × β) → List (α × β)
  | [] => [(k, v)]
  | (k', v') :: m => if k' = k then (k', v) :: m else (k', v') :: set k v m

def erase (k : α) : List (α × β) → List (α × β)
  | [] => []
  | (k', v) :: m => if k' = k then erase k m else (k', v) :: erase k m

def keys (m : List (α × β)) : List α :=
  m.map Prod.fst

@[simp] theorem get_nil (k : α) : get k ([] : List (α × β)) = none := rfl

theorem get_cons (k k' : α) (v : β) (m : List (α × β)) :
    get k ((k', v) :: m) = if k' = k then some v else get k m := rfl

theorem get_set (k k' : α) (v : β) (m : List (α × β)) :
    get k' (set k v m) = if k = k' then some v else get k' m := by
  induction m with
  | nil => rfl
  | cons e m ih =>
    obtain ⟨a, b⟩ := e
    by_cases ha : a = k
    · subst ha
      by_cases hk : a = k' <;> simp [set, get_cons, hk]
    · rw [set, if_neg ha, get_cons, get_cons, ih]
      by_cases ha' : a = k'
      · subst ha'
        simp [Ne.symm ha]
      · simp [ha']

@[simp] theorem get_set_self (k : α) (v : β) (m : List (α × β)) : get k (set k v m) = some v := by
  rw [get_set, if_pos rfl]

variable {k' : α} (f : β → ℕ)

theorem get_set_ne (h : k ≠ k') (v : β) (m : List (α × β)) : get k' (set k v m) = get k' m := by
  rw [get_set, if_neg h]

theorem get_erase (k k' : α) (m : List (α × β)) :
    get k' (erase k m) = if k = k' then none else get k' m := by
  induction m with
  | nil => simp [erase]
  | cons e m ih =>
    obtain ⟨a, b⟩ := e
    by_cases ha : a = k
    · subst ha
      rw [erase, if_pos rfl, ih, get_cons]
      by_cases hk : a = k' <;> simp [hk]
    · rw [erase, if_neg ha, get_cons, get_cons, ih]
      by_cases ha' : a = k'
      · subst ha'
        simp [Ne.symm ha]
      · simp [ha']

@[simp] theorem get_erase_self (k : α) (m : List (α × β)) : get k (erase k m) = none := by
  rw [get_erase, if_pos rfl]

theorem get_erase_ne (h : k ≠ k') (m : List (α × β)) : get k' (erase k m) = get k' m := by
  rw [get_erase, if_neg h]

theorem get_eq_none_iff (k : α) (m : List (α × β)) : get k m = none ↔ k ∉ keys m := by
  induction m with
  | nil => simp [keys]
  | cons e m ih =>
    obtain ⟨a, b⟩ := e
    by_cases ha : a = k
    · simp [get_cons, keys, ha]
    · simp only [get_cons, if_neg ha, ih, keys, map_cons, mem_cons, not_or]
      exact ⟨fun h => ⟨fun he => ha he.symm, h⟩, fun h => h.2⟩

theorem eq_nil_of_get (h : ∀ k, get k m = none) : m = [] := by
  cases m with
  | nil => rfl
  | cons e m =>
    have he := h e.1
    simp [get] at he

theorem mem_of_get (h : get k m = some v) : (k, v) ∈ m := by
  induction m with
  | nil => cases h
  | cons e m ih =>
    obtain ⟨a, b⟩ := e
    by_cases ha : a = k
    · have hb : b = v := by simpa [get_cons, ha] using h
      simp [ha, hb]
    · simp only [get_cons, if_neg ha] at h
      exact mem_cons_of_mem _ (ih h)

theorem get_of_mem (hm : (keys m).Nodup) (h : (k, v) ∈ m) : get k m = some v := by
  induction m with
  | nil => cases h
  | cons e m ih =>
    obtain ⟨a, b⟩ := e
    have hn : a ∉ keys m ∧ (keys m).Nodup := nodup_cons.mp hm
    rcases mem_cons.mp h with he | he
    · cases he
      simp [get_cons]
    · have hne : a ≠ k := by
        rintro rfl
        exact hn.1 (mem_map_of_mem (f := Prod.fst) he)
      simpa only [get_cons, if_neg hne] using ih hn.2 he

theorem mem_keys_set : k' ∈ keys (set k v m) ↔ k' = k ∨ k' ∈ keys m := by
  rw [← not_iff_not, not_or, ← get_eq_none_iff, ← get_eq_none_iff, get_set]
  by_cases h : k = k'
  · simp [h]
  · simp [h, Ne.symm h]

theorem mem_set {e : α × β} (h : e ∈ set k v m) : e = (k, v) ∨ e ∈ m := by
  induction m with
  | nil => exact .inl (mem_singleton.mp h)
  | cons first m ih =>
    rw [set] at h
    split_ifs at h with hk
    · obtain h | h := mem_cons.mp h
      · exact .inl (h.trans (congrArg (Prod.mk · v) hk))
      · exact .inr (mem_cons_of_mem _ h)
    · obtain h | h := mem_cons.mp h
      · exact .inr (h ▸ mem_cons_self)
      · exact (ih h).imp_right (mem_cons_of_mem _)

theorem nodup_keys_set (h : (keys m).Nodup) : (keys (set k v m)).Nodup := by
  induction m with
  | nil => simp [set, keys]
  | cons e m ih =>
    obtain ⟨a, b⟩ := e
    have hn : a ∉ keys m ∧ (keys m).Nodup := nodup_cons.mp h
    by_cases ha : a = k
    · simpa [set, ha, keys] using h
    · simp only [set, if_neg ha]
      refine nodup_cons.mpr ⟨?_, ih hn.2⟩
      intro hmem
      rcases mem_keys_set.mp hmem with he | he
      · exact ha he
      · exact hn.1 he

theorem keys_set {u : β} (h : get k m = some u) (v : β) : keys (set k v m) = keys m := by
  induction m with
  | nil => cases h
  | cons e m ih =>
    obtain ⟨a, b⟩ := e
    by_cases ha : a = k
    · rw [set, if_pos ha]
      rfl
    · rw [get_cons, if_neg ha] at h
      rw [set, if_neg ha]
      exact congrArg (a :: ·) (ih h)

theorem set_set (k : α) (v w : β) (m : List (α × β)) : set k w (set k v m) = set k w m := by
  induction m with
  | nil => simp [set]
  | cons e m ih =>
    obtain ⟨a, b⟩ := e
    by_cases ha : a = k <;> simp [set, ha, ih]

theorem set_get (h : get k m = some v) : set k v m = m := by
  induction m with
  | nil => cases h
  | cons e m ih =>
    obtain ⟨a, b⟩ := e
    by_cases ha : a = k
    · have hb : b = v := by simpa [get_cons, ha] using h
      simp [set, ha, hb]
    · rw [get_cons, if_neg ha] at h
      simp [set, ha, ih h]

theorem set_comm (h : k ≠ k') (v w u : β) (hk : get k m = some u) :
    set k' w (set k v m) = set k v (set k' w m) := by
  induction m with
  | nil => cases hk
  | cons e m ih =>
    obtain ⟨a, b⟩ := e
    by_cases ha : a = k
    · subst ha
      simp [set, h]
    · rw [get_cons, if_neg ha] at hk
      by_cases ha' : a = k'
      · subst ha'
        simp [set, ha]
      · simp [set, ha, ha', ih hk]

theorem erase_eq_filter (k : α) (m : List (α × β)) : erase k m = m.filter fun e => e.1 ≠ k := by
  induction m with
  | nil => rfl
  | cons e m ih =>
    rw [erase, filter_cons, ih]
    by_cases h : e.1 = k
    · rw [if_pos h, if_neg (by simp [h])]
    · rw [if_neg h, if_pos (by simp [h])]

theorem erase_sublist (k : α) (m : List (α × β)) : (erase k m).Sublist m := by
  rw [erase_eq_filter]
  exact filter_sublist

theorem nodup_keys_erase (h : (keys m).Nodup) : (keys (erase k m)).Nodup :=
  h.sublist ((erase_sublist k m).map Prod.fst)

theorem get_concat (k k' : α) (v : β) (h : k ∉ keys m) :
    get k' (m ++ [(k, v)]) = if k = k' then some v else get k' m := by
  induction m with
  | nil => rfl
  | cons e m ih =>
    obtain ⟨a, b⟩ := e
    have hne : a ≠ k := fun he => h (he ▸ mem_cons_self)
    rw [cons_append, get_cons, get_cons, ih (fun hm => h (mem_cons_of_mem _ hm))]
    by_cases ha : a = k'
    · subst ha
      rw [if_pos rfl, if_pos rfl, if_neg (Ne.symm hne)]
    · rw [if_neg ha, if_neg ha]

theorem length_set_le (k : α) (v : β) (m : List (α × β)) : (set k v m).length ≤ m.length + 1 := by
  induction m with
  | nil => exact Nat.le_refl _
  | cons e m ih =>
    obtain ⟨a, b⟩ := e
    by_cases ha : a = k
    · simp [set, ha]
    · simpa [set, ha] using ih

theorem length_erase_lt (h : get k m = some v) : (erase k m).length < m.length := by
  induction m with
  | nil => cases h
  | cons e m ih =>
    obtain ⟨a, b⟩ := e
    by_cases ha : a = k
    · have hl := (erase_sublist k m).length_le
      rw [erase, if_pos ha, length_cons]
      exact Nat.lt_succ_of_le hl
    · rw [get_cons, if_neg ha] at h
      rw [erase, if_neg ha, length_cons, length_cons]
      exact Nat.succ_lt_succ (ih h)

/-- The sum of a measure over all values. -/
def total (f : β → ℕ) : List (α × β) → ℕ
  | [] => 0
  | (_, v) :: m => f v + total f m

omit [DecidableEq α] in
theorem total_perm {m' : List (α × β)} (h : m.Perm m') : total f m = total f m' := by
  induction h with
  | nil => rfl
  | cons e _ ih => exact congrArg (f e.2 + ·) ih
  | swap e e' m => exact Nat.add_left_comm _ _ _
  | trans _ _ ih ih' => exact ih.trans ih'

theorem total_set_of_none (v : β) (h : get k m = none) : total f (set k v m) = total f m + f v := by
  induction m with
  | nil => simp [total, set]
  | cons e m ih =>
    obtain ⟨a, b⟩ := e
    have ha : a ≠ k := by
      rintro rfl
      simp [get_cons] at h
    rw [get_cons, if_neg ha] at h
    have ih := ih h
    simp only [total, set, if_neg ha] at ih ⊢
    omega

theorem total_set_of_some (w : β) (h : get k m = some v) :
    total f (set k w m) + f v = total f m + f w := by
  induction m with
  | nil => cases h
  | cons e m ih =>
    obtain ⟨a, b⟩ := e
    by_cases ha : a = k
    · have hb : b = v := by simpa [get_cons, ha] using h
      simp only [total, set, if_pos ha, hb]
      omega
    · rw [get_cons, if_neg ha] at h
      have ih := ih h
      simp only [total, set, if_neg ha] at ih ⊢
      omega

theorem erase_of_not_mem (h : k ∉ keys m) : erase k m = m := by
  rw [erase_eq_filter, filter_eq_self]
  exact fun e he => decide_eq_true fun heq => h (heq ▸ mem_map_of_mem he)

theorem erase_set (h : get k m = none) : erase k (set k v m) = m := by
  induction m with
  | nil => simp [set, erase]
  | cons e m ih =>
    obtain ⟨a, b⟩ := e
    rw [get_cons] at h
    by_cases ha : a = k
    · rw [if_pos ha] at h
      cases h
    · rw [if_neg ha] at h
      rw [set, if_neg ha, erase, if_neg ha, ih h]

theorem mem_erase {e : α × β} : e ∈ erase k m ↔ e.1 ≠ k ∧ e ∈ m := by
  rw [erase_eq_filter, mem_filter, decide_eq_true_eq, and_comm]

theorem perm_erase (hm : (keys m).Nodup) (h : get k m = some v) : m.Perm ((k, v) :: erase k m) := by
  induction m with
  | nil => cases h
  | cons e m ih =>
    obtain ⟨a, b⟩ := e
    have hn : a ∉ keys m ∧ (keys m).Nodup := nodup_cons.mp hm
    by_cases ha : a = k
    · subst ha
      have hb : b = v := by simpa [get_cons] using h
      rw [erase, if_pos rfl, erase_of_not_mem hn.1, hb]
    · rw [get_cons, if_neg ha] at h
      rw [erase, if_neg ha]
      exact ((ih hn.2 h).cons (a, b)).trans (List.Perm.swap _ _ _)

theorem total_erase (hm : (keys m).Nodup) (h : get k m = some v) :
    total f (erase k m) + f v = total f m := by
  rw [total_perm f (perm_erase hm h)]
  exact Nat.add_comm _ _

/-! ### Values mapped -/

section MapValues

variable {γ : Type*} (f : β → γ)

theorem get_map (k : α) (m : List (α × β)) :
    get k (m.map fun e => (e.1, f e.2)) = (get k m).map f := by
  induction m with
  | nil => rfl
  | cons e m ih =>
    rw [map_cons, get_cons, get_cons, ih]
    split_ifs <;> rfl

theorem set_map (k : α) (v : β) (m : List (α × β)) :
    set k (f v) (m.map fun e => (e.1, f e.2)) = (set k v m).map fun e => (e.1, f e.2) := by
  induction m with
  | nil => rfl
  | cons e m ih =>
    rw [map_cons, set, set, ih]
    split_ifs <;> rfl

theorem erase_map (k : α) (m : List (α × β)) :
    erase k (m.map fun e => (e.1, f e.2)) = (erase k m).map fun e => (e.1, f e.2) := by
  induction m with
  | nil => rfl
  | cons e m ih =>
    rw [map_cons, erase, erase, ih]
    split_ifs <;> rfl

end MapValues

theorem set_of_not_mem (v : β) (h : k ∉ keys m) : set k v m = m ++ [(k, v)] := by
  induction m with
  | nil => rfl
  | cons e m ih =>
    obtain ⟨hne, hrest⟩ := not_or.mp (mt mem_cons.mpr h)
    rw [set, if_neg (Ne.symm hne), ih hrest, cons_append]

/-! ### Lists by a key of their elements -/

theorem find?_of_nodup {γ : Type*} (key : γ → α) {l : List γ} (hl : (l.map key).Nodup) {a : γ}
    (ha : a ∈ l) : l.find? (fun b => key b = key a) = some a := by
  cases hfound : l.find? (fun b => key b = key a) with
  | none => exact absurd (decide_eq_true rfl) (find?_eq_none.mp hfound a ha)
  | some b =>
    have hholds := find?_some hfound
    have hkey : key b = key a := of_decide_eq_true hholds
    exact congrArg some (inj_on_of_nodup_map hl (mem_of_find?_eq_some hfound) ha hkey)

end Assoc
