import Mathlib.Data.Set.Finite.List
import Mathlib.Data.Fintype.Pigeonhole

/-!
# Walks along links

Every element has at most one link, to the next. A walk goes on until there is none. Where the
elements linked to are finitely many, the walk from an element ends exactly when nothing on it is
linked to itself in a circle, and then it meets every element once.
-/

namespace Links

variable {α : Type*} (next : α → Option α)
variable {a : α} {l : List α}

/-- The element `n` links on. -/
def climb : ℕ → α → Option α
  | 0, a => some a
  | n + 1, a => (next a).bind (climb n)

/-- The elements a walk meets, if it ends within `fuel` of them. -/
def walk : ℕ → α → Option (List α)
  | 0, _ => none
  | fuel + 1, a =>
    match next a with
    | none => some [a]
    | some b => (walk fuel b).map (a :: ·)

/-- A walk from an element that ends. -/
inductive Walks : α → List α → Prop
  | last {a : α} (h : next a = none) : Walks a [a]
  | cons {a b : α} {l : List α} (h : next a = some b) (hl : Walks b l) : Walks a (a :: l)

def Ends (a : α) : Prop :=
  ∃ fuel l, walk next fuel a = some l

/-- No element on the walk is linked to itself in a circle. -/
def Acyclic (a : α) : Prop :=
  ∀ b m n, climb next m a = some b → climb next (n + 1) b ≠ some b

variable {next}

theorem climb_add (m n : ℕ) (a : α) :
    climb next (m + n) a = (climb next m a).bind (climb next n) := by
  induction m generalizing a with
  | zero => rw [zero_add]; rfl
  | succ m ih =>
    rw [Nat.succ_add, climb, climb]
    cases next a with
    | none => rfl
    | some b => exact ih b

theorem climb_none_of_le {m n : ℕ} (hle : m ≤ n) (h : climb next m a = none) :
    climb next n a = none := by
  rw [← Nat.add_sub_cancel' hle, climb_add, h]
  rfl

theorem walks_of_walk {fuel : ℕ} (h : walk next fuel a = some l) : Walks next a l := by
  induction fuel generalizing a l with
  | zero => cases h
  | succ fuel ih =>
    rw [walk] at h
    cases hnext : next a with
    | none =>
      rw [hnext] at h
      cases h
      exact .last hnext
    | some b =>
      rw [hnext] at h
      obtain ⟨l', hl', rfl⟩ := Option.map_eq_some_iff.mp h
      exact .cons hnext (ih hl')

theorem Walks.walk (h : Walks next a l) {fuel : ℕ} (hfuel : l.length ≤ fuel) :
    walk next fuel a = some l := by
  induction h generalizing fuel with
  | last hnext =>
    obtain ⟨fuel, rfl⟩ := Nat.exists_eq_succ_of_ne_zero (ne_of_gt hfuel)
    rw [Links.walk, hnext]
  | cons hnext _ ih =>
    obtain ⟨fuel, rfl⟩ := Nat.exists_eq_succ_of_ne_zero (ne_of_gt (Nat.zero_lt_of_lt hfuel))
    rw [Links.walk, hnext]
    dsimp only
    rw [ih (Nat.le_of_succ_le_succ hfuel)]
    rfl

theorem Walks.unique {l' : List α} (h : Walks next a l) (h' : Walks next a l') : l = l' := by
  have hl := h.walk (le_max_left l.length l'.length)
  rw [h'.walk (le_max_right l.length l'.length)] at hl
  exact (Option.some.inj hl).symm

theorem Walks.getElem? (h : Walks next a l) (n : ℕ) : l[n]? = climb next n a := by
  induction h generalizing n with
  | last hnext =>
    cases n with
    | zero => rfl
    | succ n =>
      rw [climb, hnext]
      rfl
  | cons hnext _ ih =>
    cases n with
    | zero => rfl
    | succ n =>
      rw [climb, hnext]
      exact ih n

theorem exists_walks_of_climb {n : ℕ} (h : climb next n a = none) : ∃ l, Walks next a l := by
  induction n generalizing a with
  | zero => cases h
  | succ n ih =>
    rw [climb] at h
    cases hnext : next a with
    | none => exact ⟨[a], .last hnext⟩
    | some b =>
      rw [hnext] at h
      obtain ⟨l, hl⟩ := ih h
      exact ⟨a :: l, .cons hnext hl⟩

theorem ends_iff_walks : Ends next a ↔ ∃ l, Walks next a l := by
  constructor
  · rintro ⟨fuel, l, h⟩
    exact ⟨l, walks_of_walk h⟩
  · rintro ⟨l, h⟩
    exact ⟨l.length, l, h.walk le_rfl⟩

theorem ends_iff_climb : Ends next a ↔ ∃ n, climb next n a = none := by
  rw [ends_iff_walks]
  constructor
  · rintro ⟨l, h⟩
    exact ⟨l.length, (h.getElem? _).symm.trans (List.getElem?_eq_none le_rfl)⟩
  · rintro ⟨n, h⟩
    exact exists_walks_of_climb h

theorem climb_circle {n : ℕ} {b : α} (h : climb next (n + 1) b = some b) (k : ℕ) :
    climb next (k * (n + 1)) b = some b := by
  induction k with
  | zero => rw [Nat.zero_mul]; rfl
  | succ k ih => rw [Nat.succ_mul, climb_add, ih]; exact h

theorem acyclic_of_ends (h : Ends next a) : Acyclic next a := by
  obtain ⟨fuel, hfuel⟩ := ends_iff_climb.mp h
  intro b m n hb hcircle
  have hround := climb_circle hcircle fuel
  have hlong : climb next (m + fuel * (n + 1)) a = some b := by
    rw [climb_add, hb]
    exact hround
  have hle : fuel ≤ m + fuel * (n + 1) :=
    (Nat.le_mul_of_pos_right fuel (Nat.succ_pos n)).trans (Nat.le_add_left _ _)
  rw [climb_none_of_le hle hfuel] at hlong
  cases hlong

theorem exists_circle {b : α} {m n : ℕ} (hlt : m < n) (hm : climb next m a = some b)
    (hn : climb next n a = some b) : ¬ Acyclic next a := by
  intro hacyclic
  refine hacyclic b m (n - m - 1) hm ?_
  rw [show n - m - 1 + 1 = n - m by omega]
  rw [← Nat.add_sub_cancel' hlt.le, climb_add, hm] at hn
  exact hn

theorem ends_of_acyclic (hfinite : {b | ∃ c, next c = some b}.Finite) (h : Acyclic next a) :
    Ends next a := by
  by_contra hends
  have hclimb : ∀ n, ∃ b, climb next n a = some b := fun n =>
    Option.ne_none_iff_exists'.mp fun hn => hends (ends_iff_climb.mpr ⟨n, hn⟩)
  choose f hf using hclimb
  have hlinked : ∀ n, f (n + 1) ∈ {b | ∃ c, next c = some b} := by
    intro n
    refine ⟨f n, ?_⟩
    have hstep := hf (n + 1)
    rw [climb_add, hf n, Option.bind_some, climb] at hstep
    obtain ⟨b, hb, hfb⟩ := Option.bind_eq_some_iff.mp hstep
    exact hb.trans hfb
  have := hfinite.to_subtype
  obtain ⟨m, n, hne, heq⟩ := Finite.exists_ne_map_eq_of_infinite
    fun n => (⟨f (n + 1), hlinked n⟩ : {b | ∃ c, next c = some b})
  have hsame : f (m + 1) = f (n + 1) := congrArg Subtype.val heq
  obtain hlt | hgt := Nat.lt_or_gt_of_ne hne
  · exact exists_circle (Nat.succ_lt_succ hlt) (hf (m + 1)) (hsame ▸ hf (n + 1)) h
  · exact exists_circle (Nat.succ_lt_succ hgt) (hf (n + 1)) (hsame ▸ hf (m + 1)) h

theorem ends_iff_acyclic (hfinite : {b | ∃ c, next c = some b}.Finite) :
    Ends next a ↔ Acyclic next a :=
  ⟨acyclic_of_ends, ends_of_acyclic hfinite⟩

theorem Walks.nodup (h : Walks next a l) : l.Nodup := by
  have hacyclic := acyclic_of_ends (ends_iff_walks.mpr ⟨l, h⟩)
  refine List.nodup_iff_injective_getElem.mpr fun i j hij => ?_
  by_contra hne
  have hat : ∀ k : Fin l.length, climb next k a = some l[k] := fun k =>
    (h.getElem? k).symm.trans (List.getElem?_eq_getElem k.isLt)
  have hj : climb next j a = some l[i] := by
    rw [hat j]
    exact congrArg some hij.symm
  obtain hlt | hgt := Nat.lt_or_gt_of_ne fun heq => hne (Fin.ext heq)
  · exact exists_circle hlt (hat i) hj hacyclic
  · exact exists_circle hgt hj (hat i) hacyclic

/-! ### Several links -/

theorem acc_of_acyclic {r : α → α → Prop} {s : Set α} (hfinite : s.Finite)
    (hclosed : ∀ a b, a ∈ s → r b a → b ∈ s) (h : ∀ a ∈ s, ¬ Relation.TransGen r a a) (ha : a ∈ s) :
    Acc r a := by
  have := hfinite.to_subtype
  let below : s → s → Prop := fun b a => Relation.TransGen r b.1 a.1
  have htrans : IsTrans s below := ⟨fun _ _ _ => Relation.TransGen.trans⟩
  have hirrefl : Std.Irrefl below := ⟨fun a => h a.1 a.2⟩
  have hwell : WellFounded below := Finite.wellFounded_of_trans_of_irrefl below
  have hacc := hwell.apply ⟨a, ha⟩
  generalize hb : (⟨a, ha⟩ : s) = b at hacc
  induction hacc generalizing a with
  | intro b _ ih =>
    subst hb
    refine Acc.intro a fun c hc => ?_
    exact ih ⟨c, hclosed a c ha hc⟩ (.single hc) (hclosed a c ha hc) rfl

theorem not_transGen_of_acc {r : α → α → Prop} (h : Acc r a) : ¬ Relation.TransGen r a a := by
  induction h.transGen with
  | intro a _ ih => exact fun hcircle => ih a hcircle h hcircle

end Links
