import KnightCode.Library.Assoc

/-!
# Bounded tables in order of use

A table of at most `capacity` entries, the least recently used one first. Writing a key moves it to
the end and drops the first entry once the table is over its capacity; reading a present key moves
it to the end. `peek` is what a read would find: the laws below say what each operation leaves
there.
-/

structure Lru (α β : Type*) (capacity : ℕ) where
  map : List (α × β)
  nodup : (Assoc.keys map).Nodup
  bounded : map.length ≤ capacity

namespace Lru

variable {α β : Type*} [DecidableEq α] {capacity : ℕ}

def empty : Lru α β capacity where
  map := []
  nodup := List.nodup_nil
  bounded := Nat.zero_le _

def peek (l : Lru α β capacity) (k : α) : Option β :=
  Assoc.get k l.map

/-- The entries after `k` is deleted and written again. -/
def renewed (l : Lru α β capacity) (k : α) (v : β) : List (α × β) :=
  Assoc.set k v (Assoc.erase k l.map)

variable (l : Lru α β capacity)

theorem nodup_renewed (k : α) (v : β) : (Assoc.keys (l.renewed k v)).Nodup :=
  Assoc.nodup_keys_set (Assoc.nodup_keys_erase l.nodup)

theorem length_renewed_le (k : α) (v : β) : (l.renewed k v).length ≤ capacity + 1 := by
  have hs := Assoc.length_set_le k v (Assoc.erase k l.map)
  have he := (Assoc.erase_sublist k l.map).length_le
  have hb := l.bounded
  unfold renewed
  omega

def get (l : Lru α β capacity) (k : α) : Option β × Lru α β capacity :=
  match h : Assoc.get k l.map with
  | none => (none, l)
  | some v =>
    (some v,
      { map := l.renewed k v
        nodup := l.nodup_renewed k v
        bounded := by
          have hs := Assoc.length_set_le k v (Assoc.erase k l.map)
          have hl := Assoc.length_erase_lt h
          have hb := l.bounded
          unfold renewed
          omega })

def delete (l : Lru α β capacity) (k : α) : Lru α β capacity where
  map := Assoc.erase k l.map
  nodup := Assoc.nodup_keys_erase l.nodup
  bounded := Nat.le_trans (Assoc.erase_sublist k l.map).length_le l.bounded

def set (l : Lru α β capacity) (k : α) (v : β) : Lru α β capacity :=
  if h : capacity < (l.renewed k v).length then
    { map := (l.renewed k v).tail
      nodup := (l.nodup_renewed k v).sublist ((List.tail_sublist _).map Prod.fst)
      bounded := by
        have hl := l.length_renewed_le k v
        rw [List.length_tail]
        omega }
  else
    { map := l.renewed k v
      nodup := l.nodup_renewed k v
      bounded := Nat.le_of_not_lt h }

theorem get_fst (k : α) : (l.get k).1 = l.peek k := by
  unfold get peek
  split
  · next h => exact h.symm
  · next h => exact h.symm

theorem peek_get (k k' : α) : (l.get k).2.peek k' = l.peek k' := by
  unfold get
  split
  · rfl
  · next v h =>
    simp only [peek, renewed, Assoc.get_set, Assoc.get_erase]
    split_ifs with hk
    · rw [← hk, h]
    · rfl

theorem peek_delete (k k' : α) : (l.delete k).peek k' = if k = k' then none else l.peek k' :=
  Assoc.get_erase k k' l.map

theorem peek_set {l : Lru α β capacity} {k k' : α} {v w : β} (h : (l.set k v).peek k' = some w) :
    (k = k' ∧ v = w) ∨ (k ≠ k' ∧ l.peek k' = some w) := by
  have hget : Assoc.get k' (l.renewed k v) = some w := by
    unfold set at h
    split_ifs at h with hc
    · exact Assoc.get_of_mem (l.nodup_renewed k v) (List.mem_of_mem_tail (Assoc.mem_of_get h))
    · exact h
  rw [renewed, Assoc.get_set, Assoc.get_erase] at hget
  by_cases hk : k = k'
  · exact .inl ⟨hk, by simpa [hk] using hget⟩
  · exact .inr ⟨hk, by simpa [peek, hk] using hget⟩

end Lru
