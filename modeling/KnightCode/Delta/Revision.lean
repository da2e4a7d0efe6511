import KnightCode.Delta.Walk

/-!
# Revisions in memory

A revision is a JSON value whose containers are objects in memory: `===` compares primitives by
value and containers by reference. A reference determines its container, so what is the same is
equal.
-/

namespace KnightCode.Delta

open List

/-- A JSON value whose containers have an address. -/
inductive Node
  | null
  | bool (value : Bool)
  | num (value : ℚ)
  | str (text : Text)
  | arr (ref : ℕ) (items : List Node)
  | obj (ref : ℕ) (members : List (Text × Node))

namespace Node

/-- What `===` compares. -/
inductive Key
  | null
  | bool (value : Bool)
  | num (value : ℚ)
  | str (text : Text)
  | ref (ref : ℕ)
  deriving DecidableEq

def key : Node → Key
  | .null => .null
  | .bool value => .bool value
  | .num value => .num value
  | .str text => .str text
  | .arr ref _ => .ref ref
  | .obj ref _ => .ref ref

/-- `left === right`. -/
def same (left right : Node) : Bool :=
  decide (left.key = right.key)

mutual

def toJson : Node → Json
  | .null => .null
  | .bool value => .bool value
  | .num value => .num value
  | .str text => .str text
  | .arr _ items => .arr (itemsToJson items)
  | .obj _ members => .obj (membersToJson members)

def itemsToJson : List Node → List Json
  | [] => []
  | item :: items => item.toJson :: itemsToJson items

def membersToJson : List (Text × Node) → List (Text × Json)
  | [] => []
  | (name, value) :: members => (name, value.toJson) :: membersToJson members

end

mutual

def equalJson : Node → Node → Bool
  | .arr ref items, right =>
    (Node.arr ref items).same right ||
      match right with
      | .arr _ others => decide (items.length = others.length) && equalItems items others
      | _ => false
  | .obj ref members, right =>
    (Node.obj ref members).same right ||
      match right with
      | .obj _ others =>
        decide (members.length = others.length) && equalMembers members others
      | _ => false
  | left, right => left.same right

def equalItems : List Node → List Node → Bool
  | item :: items, other :: others => equalJson item other && equalItems items others
  | _, _ => true

def equalMembers : List (Text × Node) → List (Text × Node) → Bool
  | [], _ => true
  | (name, value) :: members, others =>
    (match Assoc.get name others with
      | some other => equalJson value other
      | none => false) && equalMembers members others

end

mutual

/-- The containers, primitives and members of a value. -/
def weight : Node → ℕ
  | .arr _ items => 1 + itemsWeight items
  | .obj _ members => 1 + membersWeight members
  | _ => 1

def itemsWeight : List Node → ℕ
  | [] => 0
  | item :: items => item.weight + itemsWeight items

def membersWeight : List (Text × Node) → ℕ
  | [] => 0
  | (_, value) :: members => value.weight + 1 + membersWeight members

end

/-- A value held in memory: every address determines its container, whose keys are distinct. -/
inductive In (heap : ℕ → Node) : Node → Prop
  | null : In heap .null
  | bool (value : Bool) : In heap (.bool value)
  | num (value : ℚ) : In heap (.num value)
  | str (text : Text) : In heap (.str text)
  | arr {ref : ℕ} {items : List Node} (hheap : heap ref = .arr ref items)
    (hitems : ∀ item ∈ items, In heap item) : In heap (.arr ref items)
  | obj {ref : ℕ} {members : List (Text × Node)} (hheap : heap ref = .obj ref members)
    (hkeys : (Assoc.keys members).Nodup) (hmembers : ∀ e ∈ members, In heap e.2) :
    In heap (.obj ref members)

end Node

/-- One revision of the values in memory. -/
structure Revision (heap : ℕ → Node) where
  node : Node
  held : node.In heap

namespace Node
variable {right : Node} {members : List (Text × Node)}

theorem itemsToJson_eq (items : List Node) : itemsToJson items = items.map toJson := by
  induction items with
  | nil => rfl
  | cons item items ih => rw [itemsToJson, ih, map_cons]

theorem get_membersToJson (name : Text) (members : List (Text × Node)) :
    Assoc.get name (membersToJson members) = (Assoc.get name members).map toJson := by
  induction members with
  | nil => rfl
  | cons e members ih =>
    obtain ⟨n, value⟩ := e
    rw [membersToJson, Assoc.get_cons, Assoc.get_cons, ih]
    split_ifs <;> rfl

variable {heap : ℕ → Node}

theorem heap_of_key {node : Node} (h : node.In heap) {ref : ℕ} (hkey : node.key = .ref ref) :
    heap ref = node := by
  cases h with
  | arr hheap hitems | obj hheap hkeys hmembers =>
    cases hkey
    exact hheap
  | _ => cases hkey

variable {left : Node}

theorem eq_of_same (h : left.same right = true) (hl : left.In heap) (hr : right.In heap) :
    left = right := by
  have hkey : left.key = right.key := of_decide_eq_true h
  cases hl with
  | arr hheap hitems | obj hheap hkeys hmembers => rw [← heap_of_key hr hkey.symm, hheap]
  | _ =>
    cases hr <;> cases hkey
    rfl

/-- Equal values, and equal values only as far as this says. -/
def EqualSound (heap : ℕ → Node) (left : Node) : Prop :=
  ∀ right : Node, right.In heap → equalJson left right = true → left.toJson.DeepEqual right.toJson

theorem equalItems_sound {items others : List Node} (hsound : ∀ item ∈ items, EqualSound heap item)
    (hothers : ∀ other ∈ others, other.In heap) (hlength : items.length = others.length)
    (h : equalItems items others = true) :
    List.Forall₂ Json.DeepEqual (items.map toJson) (others.map toJson) := by
  induction items generalizing others with
  | nil =>
    have hnil : others = [] := length_eq_zero_iff.mp hlength.symm
    subst hnil
    exact .nil
  | cons item items ih =>
    cases others with
    | nil => cases hlength
    | cons other others =>
      obtain ⟨hhead, htail⟩ := Bool.and_eq_true_iff.mp h
      refine .cons ?_ ?_
      · exact hsound item mem_cons_self other (hothers other mem_cons_self) hhead
      · exact ih (fun x hx => hsound x (mem_cons_of_mem _ hx))
          (fun x hx => hothers x (mem_cons_of_mem _ hx)) (Nat.succ.inj hlength) htail

variable {others : List (Text × Node)}

theorem equalMembers_sound (hsound : ∀ e ∈ members, EqualSound heap e.2)
    (hothers : ∀ e ∈ others, e.2.In heap) (h : equalMembers members others = true) {name : Text}
    {value : Node} (hget : Assoc.get name members = some value) :
    ∃ other, Assoc.get name others = some other ∧ value.toJson.DeepEqual other.toJson := by
  induction members with
  | nil => cases hget
  | cons e members ih =>
    obtain ⟨n, v⟩ := e
    obtain ⟨hhead, htail⟩ := Bool.and_eq_true_iff.mp h
    by_cases hname : n = name
    · subst hname
      rw [Assoc.get_cons, if_pos rfl, Option.some.injEq] at hget
      subst hget
      cases hother : Assoc.get n others with
      | none => simp [hother] at hhead
      | some other =>
        simp only [hother] at hhead
        exact ⟨other, rfl, hsound _ mem_cons_self other (hothers _ (Assoc.mem_of_get hother)) hhead⟩
    · rw [Assoc.get_cons, if_neg hname] at hget
      exact ih (fun x hx => hsound x (mem_cons_of_mem _ hx)) htail hget

theorem keys_subset_of_length (hm : (Assoc.keys members).Nodup)
    (hlength : members.length = others.length)
    (hsub : ∀ name ∈ Assoc.keys members, name ∈ Assoc.keys others) {name : Text}
    (hname : name ∈ Assoc.keys others) : name ∈ Assoc.keys members := by
  have hperm := (hm.subperm hsub).perm_of_length_le (by simp [Assoc.keys, hlength])
  exact hperm.mem_iff.mpr hname

theorem equalJson_arr {ref : ℕ} {items : List Node} (h : equalJson (.arr ref items) right = true) :
    (Node.arr ref items).same right = true ∨
      ∃ ref' others, right = .arr ref' others ∧ items.length = others.length ∧
        equalItems items others = true := by
  cases right <;> simp_all [equalJson]

theorem equalJson_obj {ref : ℕ} (h : equalJson (.obj ref members) right = true) :
    (Node.obj ref members).same right = true ∨
      ∃ ref' others, right = .obj ref' others ∧ members.length = others.length ∧
        equalMembers members others = true := by
  cases right <;> simp_all [equalJson]

theorem deepEqual_of_same (hs : left.same right = true) (hl : left.In heap) (hr : right.In heap) :
    left.toJson.DeepEqual right.toJson := by
  rw [eq_of_same hs hl hr]
  exact .refl _

theorem equalJson_sound (hl : left.In heap) : EqualSound heap left := by
  intro right hr h
  induction hl generalizing right with
  | arr hheap hitems ih =>
    obtain hs | ⟨ref', others, rfl, hlength, hothers⟩ := equalJson_arr h
    · exact deepEqual_of_same hs (.arr hheap hitems) hr
    · have hin : ∀ other ∈ others, other.In heap := by
        cases hr with
        | arr _ hin => exact hin
      rw [toJson, toJson, itemsToJson_eq, itemsToJson_eq]
      apply Json.deepEqual_arr
      exact equalItems_sound ih hin hlength hothers
  | @obj ref members hheap hkeys hmembers ih =>
    obtain hs | ⟨ref', others, rfl, hlength, hothers⟩ := equalJson_obj h
    · exact deepEqual_of_same hs (.obj hheap hkeys hmembers) hr
    · have hin : ∀ e ∈ others, e.2.In heap := by
        cases hr with
        | obj _ _ hin => exact hin
      rw [toJson, toJson]
      apply Json.deepEqual_obj
      intro name
      rw [get_membersToJson, get_membersToJson]
      cases hget : Assoc.get name members with
      | some value =>
        obtain ⟨other, hother, hequal⟩ := equalMembers_sound ih hin hothers hget
        rw [hother]
        exact hequal
      | none =>
        have hnone : Assoc.get name others = none := by
          rw [Assoc.get_eq_none_iff] at hget ⊢
          refine fun hname => hget (keys_subset_of_length hkeys hlength (fun n hn => ?_) hname)
          cases hmem : Assoc.get n members with
          | none => exact absurd hn ((Assoc.get_eq_none_iff n members).mp hmem)
          | some value =>
            obtain ⟨other, hother, -⟩ := equalMembers_sound ih hin hothers hmem
            exact mem_map_of_mem (f := Prod.fst) (Assoc.mem_of_get hother)
        rw [hnone]
        exact Json.Agree.refl _
  | _ =>
    apply deepEqual_of_same _ _ hr
    · cases right <;> simpa [equalJson] using h
    · constructor

end Node

end KnightCode.Delta
