import KnightCode.Delta.ApplyImmutable

/-!
# Arrays and objects of any elements

What an edit does to an array or an object does not depend on what its elements are: references to
containers of a heap, values, or both with what they own. The edits commute with a map of the
elements, and what they leave are elements the container or the edit had, or texts.
-/

namespace KnightCode.Delta

open List Option Except

/-- An array or an object with elements of one kind. -/
inductive Container (α : Type)
  | arr (items : List α)
  | obj (members : List (Text × α))

/-- What an edit does at its path, its values being elements. -/
inductive EditOf (α : Type)
  | set (value : α)
  | delete
  | append (text : Text)
  | truncate (count : ℕ)
  | splice (index remove : ℕ) (items : List α)
  | permute (permutation : List ℕ)

inductive OpOf (α : Type)
  | replace (value : α)
  | edit (path : Path) (edit : EditOf α)

/-- Elements that may be texts. -/
class Element (α : Type) where
  absent : α
  text? : α → Option Text
  ofText : Text → α

open Element

variable {α β : Type}

namespace Container
variable {c : Container α} {seg : Seg} {a : α}

def map (f : α → β) : Container α → Container β
  | .arr items => .arr (items.map f)
  | .obj members => .obj (members.map fun e => (e.1, f e.2))

def elements : Container α → List α
  | .arr items => items
  | .obj members => members.map (·.2)

/-- `Object.hasOwn`. -/
def hasOwn : Container α → Seg → Bool
  | .arr items, .idx index => decide (index < items.length)
  | .arr items, .key name =>
    name = ascii "length" ∨ ∃ index ∈ range items.length, JsonText.decimal index = name
  | .obj members, seg => (Assoc.get seg.name members).isSome

/-- An own element. -/
def child : Container α → Seg → Option α
  | .arr items, .idx index => items[index]?
  | .arr _, .key _ => none
  | .obj members, seg => Assoc.get seg.name members

/-- Define an own element: a present one in place, an absent one at the end. -/
def write : Container α → Seg → α → Container α
  | .arr items, .idx index, value =>
    if index < items.length then .arr (items.set index value) else .arr (items ++ [value])
  | .arr items, .key _, _ => .arr items
  | .obj members, seg, value => .obj (Assoc.set seg.name value members)

/-- Whether an element of the container can have the segment. -/
def Takes : Container α → Seg → Prop
  | .arr _, .key _ => False
  | _, _ => True

/-- An array takes indices up to its length. -/
def assertMember (key : Seg) : Container α → Except DeltaError Unit
  | .arr items =>
    match key with
    | .key _ => .error key.toError
    | .idx index => if items.length < index then .error key.toError else .ok ()
  | .obj _ => .ok ()

/-! ### Maps of the elements -/

variable (f : α → β)

theorem map_map {γ : Type} (g : β → γ) (c : Container α) : (c.map f).map g = c.map (g ∘ f) := by
  cases c with
  | arr items => exact congrArg arr List.map_map
  | obj members => exact congrArg obj List.map_map

@[simp] theorem elements_map (c : Container α) : (c.map f).elements = c.elements.map f := by
  cases c with
  | arr items => rfl
  | obj members =>
    show (members.map fun e => (e.1, f e.2)).map (·.2) = (members.map (·.2)).map f
    rw [List.map_map, List.map_map]
    rfl

@[simp] theorem child_map (c : Container α) (seg : Seg) :
    (c.map f).child seg = (c.child seg).map f := by
  cases c with
  | arr items =>
    cases seg with
    | key name => rfl
    | idx index => exact getElem?_map
  | obj members => exact Assoc.get_map f seg.name members

@[simp] theorem hasOwn_map (c : Container α) (seg : Seg) : (c.map f).hasOwn seg = c.hasOwn seg := by
  cases c with
  | arr items =>
    cases seg <;> simp only [map, hasOwn, length_map]
  | obj members =>
    show (Assoc.get seg.name (members.map fun e => (e.1, f e.2))).isSome = _
    rw [Assoc.get_map, isSome_map]
    rfl

theorem write_map (c : Container α) (seg : Seg) (value : α) :
    (c.map f).write seg (f value) = (c.write seg value).map f := by
  cases c with
  | arr items =>
    cases seg with
    | key name => rfl
    | idx index =>
      simp only [map, write, length_map]
      split_ifs
      · exact congrArg arr map_set.symm
      · exact congrArg arr (@map_append _ _ f items [value]).symm
  | obj members => exact congrArg obj (Assoc.set_map f seg.name value members)

theorem assertMember_map (key : Seg) (c : Container α) :
    (c.map f).assertMember key = c.assertMember key := by
  cases c with
  | arr items => cases key <;> simp only [map, assertMember, length_map]
  | obj members => rfl

/-! ### One element and the others -/

theorem takes_of_child (h : c.child seg = some a) : c.Takes seg := by
  cases c with
  | arr items =>
    cases seg with
    | key name => cases h
    | idx index => trivial
  | obj members => trivial

theorem child_mem (h : c.child seg = some a) : a ∈ c.elements := by
  cases c with
  | arr items =>
    cases seg with
    | key name => cases h
    | idx index => exact mem_of_getElem? h
  | obj members => exact mem_map_of_mem (f := Prod.snd) (Assoc.mem_of_get h)

theorem write_child (h : c.child seg = some a) : c.write seg a = c := by
  cases c with
  | arr items =>
    cases seg with
    | key name => rfl
    | idx index =>
      obtain ⟨hlt, hget⟩ := List.getElem?_eq_some_iff.mp h
      rw [write, if_pos hlt, ← hget, set_getElem_self]
  | obj members => exact congrArg obj (Assoc.set_get h)

theorem write_perm (h : c.Takes seg) :
    ∃ others, c.elements.Perm ((c.child seg).toList ++ others) ∧
      ∀ a, (c.write seg a).elements.Perm (a :: others) := by
  cases c with
  | arr items =>
    cases seg with
    | key name => exact h.elim
    | idx index =>
      by_cases hlt : index < items.length
      · refine ⟨items.take index ++ items.drop (index + 1), ?_, fun a => ?_⟩
        · rw [child, getElem?_eq_getElem hlt]
          show items.Perm (items[index] :: (items.take index ++ items.drop (index + 1)))
          refine List.Perm.trans (List.Perm.of_eq ?_) perm_middle
          rw [getElem_cons_drop, take_append_drop]
        · rw [write, if_pos hlt]
          show (items.set index a).Perm _
          rw [set_eq_take_append_cons_drop, if_pos hlt]
          exact perm_middle
      · refine ⟨items, ?_, fun a => ?_⟩
        · rw [child, getElem?_eq_none (not_lt.mp hlt)]
          exact List.Perm.refl _
        · rw [write, if_neg hlt]
          exact perm_append_singleton a items
  | obj members =>
    show ∃ others, (members.map (·.2)).Perm ((Assoc.get seg.name members).toList ++ others) ∧
      ∀ a, ((Assoc.set seg.name a members).map (·.2)).Perm (a :: others)
    clear h
    induction members with
    | nil => exact ⟨[], List.Perm.refl _, fun a => List.Perm.refl _⟩
    | cons e members ih =>
      obtain ⟨name, value⟩ := e
      by_cases hname : name = seg.name
      · refine ⟨members.map (·.2), ?_, fun a => ?_⟩
        · rw [Assoc.get_cons, if_pos hname]
          exact List.Perm.refl _
        · rw [Assoc.set, if_pos hname]
          exact List.Perm.refl _
      · obtain ⟨others, hget, hset⟩ := ih
        refine ⟨value :: others, ?_, fun a => ?_⟩
        · rw [Assoc.get_cons, if_neg hname, map_cons]
          exact (hget.cons value).trans perm_middle.symm
        · rw [Assoc.set, if_neg hname, map_cons]
          exact ((hset a).cons value).trans (List.Perm.swap a value others)

theorem write_elements (c : Container α) (key : Seg) (a : α) :
    (c.write key a).elements.Subperm (a :: c.elements) := by
  by_cases h : c.Takes key
  · obtain ⟨others, hperm, hwrite⟩ := write_perm h
    refine (hwrite a).subperm.trans ((subperm_cons a).mpr ?_)
    exact (sublist_append_right _ _).subperm.trans hperm.symm.subperm
  · have hsame : c.write key a = c := by
      cases c with
      | arr items =>
        cases key with
        | key name => rfl
        | idx index => exact absurd trivial h
      | obj members => exact absurd trivial h
    rw [hsame]
    exact (sublist_cons_self a _).subperm

theorem child_write (h : c.child seg = some a) (b : α) : (c.write seg b).child seg = some b := by
  cases c with
  | arr items =>
    cases seg with
    | key name => cases h
    | idx index =>
      obtain ⟨hlt, -⟩ := List.getElem?_eq_some_iff.mp h
      rw [write, if_pos hlt]
      exact getElem?_set_self hlt
  | obj members => exact Assoc.get_set_self seg.name b members

end Container

/-! ### Edits -/

theorem permute_subperm {permutation : List ℕ} (h : assertPermutation permutation = .ok ())
    {items : List α} (hlength : items.length = permutation.length) (a : α) :
    (permutation.map fun index => items.getD index a).Subperm items := by
  obtain ⟨hnodup, hlt⟩ := assertPermutation_ok.mp h
  obtain ⟨l, hperm, hsub⟩ := @List.Nodup.subperm _ _ (range items.length) hnodup fun index hmem =>
    mem_range.mpr (hlength ▸ hlt index hmem)
  refine ⟨l.map fun index => items.getD index a, hperm.map _, ?_⟩
  have hall : (range items.length).map (fun index => items.getD index a) = items := by
    refine ext_getElem (by rw [length_map, length_range]) fun index _ hlt => ?_
    rw [getElem_map, getElem_range, getD_eq_getElem?_getD, getElem?_eq_getElem hlt, getD_some]
  have hmap := hsub.map fun index => items.getD index a
  rwa [hall] at hmap

namespace EditOf
variable {c : Container α}

def map (f : α → β) : EditOf α → EditOf β
  | .set value => .set (f value)
  | .delete => .delete
  | .append text => .append text
  | .truncate count => .truncate count
  | .splice index remove items => .splice index remove (items.map f)
  | .permute permutation => .permute permutation

/-- The values an edit brings. -/
def payload : EditOf α → List α
  | .set value => [value]
  | .splice _ _ items => items
  | _ => []

def toEdit : EditOf Json → Edit
  | .set value => .set value
  | .delete => .delete
  | .append text => .append text
  | .truncate count => .truncate count
  | .splice index remove items => .splice index remove items
  | .permute permutation => .permute permutation

def atRoot : EditOf α → Bool
  | .splice .. => true
  | .permute _ => true
  | _ => false

variable [Element α] [Element β]

/-- What a splice or a permutation does to its target. The chunks of a splice make one splice. -/
def onTarget (path : Path) (edit : EditOf α) : Container α → Except DeltaError (Container α)
  | .arr items =>
    match edit with
    | .splice index remove inserted =>
      .ok (.arr (items.take index ++ (inserted ++ items.drop (index + remove))))
    | .permute permutation =>
      if items.length ≠ permutation.length then .error (.path path)
      else .ok (.arr (permutation.map fun index => items.getD index absent))
    | _ => .error (.path path)
  | .obj _ => .error (.path path)

def onMember (path : Path) (key : Seg) (edit : EditOf α) (parent : Container α) :
    Except DeltaError (Container α) :=
  match edit with
  | .set value => .ok (parent.write key value)
  | .delete =>
    match parent, key with
    | .arr items, .idx index =>
      if items.length ≤ index then .error (.path path) else .ok (.arr (items.eraseIdx index))
    | .arr _, .key _ => .error (.path path)
    | .obj members, _ => .ok (.obj (Assoc.erase key.name members))
  | .append text =>
    match (parent.child key).bind text? with
    | some current => .ok (parent.write key (ofText (current ++ text)))
    | none => .error (.path path)
  | .truncate count =>
    match (parent.child key).bind text? with
    | some current => .ok (parent.write key (ofText (current.drop count)))
    | none => .error (.path path)
  | _ => .error (.path path)

/-- A map that keeps what an edit looks at. -/
structure Keeps (f : α → β) (c : Container α) : Prop where
  absent : f absent = absent
  ofText : ∀ text, f (ofText text) = ofText text
  text? : ∀ a ∈ c.elements, text? (f a) = text? a

theorem onTarget_map {f : α → β} (h : Keeps f c) (path : Path) (edit : EditOf α) :
    (edit.map f).onTarget path (c.map f) = (edit.onTarget path c).map (Container.map f) := by
  cases c with
  | obj members => rfl
  | arr items =>
    cases edit with
    | splice index remove inserted =>
      simp only [EditOf.map, Container.map, onTarget, Except.map, map_append, map_take, map_drop]
    | permute permutation =>
      simp only [EditOf.map, Container.map, onTarget, length_map]
      split_ifs
      · rfl
      · simp only [Except.map, Container.map, List.map_map, ok.injEq, Container.arr.injEq]
        refine map_congr_left fun index _ => ?_
        rw [Function.comp_apply, getD_eq_getElem?_getD, getD_eq_getElem?_getD, getElem?_map]
        cases items[index]? with
        | none => exact h.absent.symm
        | some a => rfl
    | _ => rfl

theorem onMember_map {f : α → β} (h : Keeps f c) (path : Path) (key : Seg) (edit : EditOf α) :
    (edit.map f).onMember path key (c.map f) = (edit.onMember path key c).map (Container.map f) := by
  have htext : ((c.map f).child key).bind text? = (c.child key).bind text? := by
    rw [Container.child_map]
    cases hchild : c.child key with
    | none => rfl
    | some a => exact h.text? a (Container.child_mem hchild)
  cases edit with
  | set value => exact congrArg ok (Container.write_map f c key value)
  | delete =>
    cases c with
    | arr items =>
      cases key with
      | key name => rfl
      | idx index =>
        simp only [EditOf.map, Container.map, onMember, length_map]
        split_ifs
        · rfl
        · simp only [Except.map, Container.map, eraseIdx_map]
    | obj members =>
      simp only [EditOf.map, Container.map, onMember, Except.map, Assoc.erase_map]
  | append text =>
    simp only [EditOf.map, onMember, htext]
    cases (c.child key).bind text? with
    | none => rfl
    | some current =>
      refine congrArg ok (Eq.trans ?_ (Container.write_map f c key (ofText (current ++ text))))
      rw [h.ofText]
  | truncate count =>
    simp only [EditOf.map, onMember, htext]
    cases (c.child key).bind text? with
    | none => rfl
    | some current =>
      refine congrArg ok
        (Eq.trans ?_ (Container.write_map f c key (ofText (current.drop count))))
      rw [h.ofText]
  | splice index remove items => rfl
  | permute permutation => rfl

/-! ### What an edit leaves -/

theorem onTarget_elements {path : Path} {edit : EditOf α} {c' : Container α}
    (hvalid : ∀ permutation, edit = .permute permutation → assertPermutation permutation = .ok ())
    (h : edit.onTarget path c = .ok c') : c'.elements.Subperm (edit.payload ++ c.elements) := by
  cases c with
  | obj members => cases h
  | arr items =>
    cases edit with
    | splice index remove inserted =>
      cases h
      have hsub : (items.take index ++ items.drop (index + remove)).Sublist items := by
        have hdrop : (items.drop (index + remove)).Sublist (items.drop index) :=
          drop_drop ▸ drop_sublist _ _
        have hboth := hdrop.append_left (items.take index)
        rwa [take_append_drop] at hboth
      have hperm : (items.take index ++ (inserted ++ items.drop (index + remove))).Perm
          (inserted ++ (items.take index ++ items.drop (index + remove))) := by
        rw [← append_assoc, ← append_assoc]
        exact perm_append_comm.append_right _
      exact hperm.subperm.trans (hsub.append_left inserted).subperm
    | permute permutation =>
      simp only [onTarget] at h
      split_ifs at h with hlength
      cases h
      exact permute_subperm (hvalid permutation rfl) (not_not.mp hlength) absent
    | _ => cases h

theorem onMember_elements {path : Path} {key : Seg} {edit : EditOf α} {c' : Container α}
    (h : edit.onMember path key c = .ok c') :
    ∃ texts : List α, (∀ a ∈ texts, ∃ text, a = ofText text) ∧
      c'.elements.Subperm (texts ++ (edit.payload ++ c.elements)) := by
  cases edit with
  | set value =>
    cases h
    exact ⟨[], fun _ hmem => (by cases hmem), Container.write_elements c key value⟩
  | delete =>
    refine ⟨[], fun _ hmem => (by cases hmem), ?_⟩
    cases c with
    | arr items =>
      cases key with
      | key name => cases h
      | idx index =>
        simp only [onMember] at h
        split_ifs at h
        cases h
        exact (eraseIdx_sublist items index).subperm
    | obj members =>
      cases h
      exact ((Assoc.erase_sublist key.name members).map _).subperm
  | append amount | truncate amount =>
    simp only [onMember] at h
    cases htext : (c.child key).bind text? with
    | none =>
      rw [htext] at h
      cases h
    | some current =>
      rw [htext] at h
      cases h
      refine ⟨[_], fun a hmem => ⟨_, mem_singleton.mp hmem⟩, Container.write_elements c key _⟩
  | splice index remove items => cases h
  | permute permutation => cases h

end EditOf

/-! ### Values -/

namespace Json

instance : Element Json where
  absent := .null
  text?
    | .str text => some text
    | _ => none
  ofText := .str

def ofContainer : Container Json → Json
  | .arr items => .arr items
  | .obj members => .obj members

variable (c : Container Json)

theorem child_ofContainer (seg : Seg) : (ofContainer c).child seg = c.child seg := by
  cases c <;> cases seg <;> rfl

theorem hasOwn_ofContainer (seg : Seg) : (ofContainer c).hasOwn seg = c.hasOwn seg := by
  cases c <;> cases seg <;> rfl

theorem write_ofContainer (seg : Seg) (value : Json) :
    (ofContainer c).write seg value = ofContainer (c.write seg value) := by
  cases c with
  | arr items =>
    cases seg with
    | key name => rfl
    | idx index =>
      simp only [ofContainer, write, Container.write]
      split_ifs <;> rfl
  | obj members => rfl

theorem assertMember_ofContainer (parent : Path) (key : Seg) (c : Container Json) :
    Delta.assertMember parent key (ofContainer c) = c.assertMember key := by
  cases c <;> cases key <;> rfl

theorem onTarget_ofContainer (path : Path) (edit : EditOf Json) (c : Container Json) :
    edit.toEdit.onTarget path (ofContainer c) = (edit.onTarget path c).map ofContainer := by
  cases c with
  | obj members => rfl
  | arr items =>
    cases edit with
    | splice index remove inserted =>
      exact congrArg (fun items => ok (Json.arr items))
        (arraySplice_eq index remove inserted items)
    | permute permutation =>
      simp only [EditOf.toEdit, ofContainer, Edit.onTarget, EditOf.onTarget]
      split_ifs <;> rfl
    | _ => rfl

theorem onMember_ofContainer (path : Path) (key : Seg) (edit : EditOf Json) (c : Container Json) :
    edit.toEdit.onMember path key (ofContainer c) = (edit.onMember path key c).map ofContainer := by
  cases edit with
  | set value => exact congrArg ok (write_ofContainer c key value)
  | delete =>
    cases c with
    | arr items =>
      cases key with
      | key name => rfl
      | idx index =>
        simp only [EditOf.toEdit, ofContainer, Edit.onMember, EditOf.onMember]
        split_ifs <;> rfl
    | obj members => rfl
  | append text =>
    simp only [EditOf.toEdit, Edit.onMember, EditOf.onMember, child_ofContainer]
    cases c.child key with
    | none => rfl
    | some value =>
      cases value with
      | str current => exact congrArg ok (write_ofContainer c key (.str (current ++ text)))
      | _ => rfl
  | truncate count =>
    simp only [EditOf.toEdit, Edit.onMember, EditOf.onMember, child_ofContainer]
    cases c.child key with
    | none => rfl
    | some value =>
      cases value with
      | str current => exact congrArg ok (write_ofContainer c key (.str (current.drop count)))
      | _ => rfl
  | splice index remove items => rfl
  | permute permutation => rfl

end Json

end KnightCode.Delta
