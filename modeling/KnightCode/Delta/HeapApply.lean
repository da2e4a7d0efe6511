import KnightCode.Delta.Heap

/-!
# Applying in place

The containers of an earlier heap are never written; the owned ones form a tree above them, each
standing in one place. An operation whose containers are all owned is applied to the cells as
`apply` is to values: they succeed together, what the root stands for afterwards is the value, and
no other cell is written. A value copied whole is owned whole, so applying to it in place is
applying to the value.
-/

namespace KnightCode.Delta

open List Element

/-- What a reference stands for. -/
inductive Denotes (heap : Heap) : Ref → Json → Prop
  | null : Denotes heap .null .null
  | bool (value : Bool) : Denotes heap (.bool value) (.bool value)
  | num (value : ℚ) : Denotes heap (.num value) (.num value)
  | str (text : Text) : Denotes heap (.str text) (.str text)
  | container (address : ℕ) (c : Container (Ref × Json))
      (hcell : heap[address]? = some (c.map Prod.fst))
      (h : ∀ k ∈ c.elements, Denotes heap k.1 k.2) :
      Denotes heap (.container address) (.ofContainer (c.map Prod.snd))

theorem Denotes.mono {heap heap' : Heap} (hheap : ∀ a < heap.length, heap'[a]? = heap[a]?)
    {ref : Ref} {value : Json} (h : Denotes heap ref value) : Denotes heap' ref value := by
  induction h with
  | null => exact .null
  | bool value => exact .bool value
  | num value => exact .num value
  | str text => exact .str text
  | container address c hcell _ ih =>
    exact .container address c
      ((hheap address (List.getElem?_eq_some_iff.mp hcell).1).trans hcell) ih

theorem Denotes.lt {heap : Heap} {address : ℕ} {value : Json}
    (h : Denotes heap (.container address) value) : address < heap.length := by
  cases h with
  | container _ c hcell _ => exact (List.getElem?_eq_some_iff.mp hcell).1

/-- An element in memory: a reference, its value, and the addresses it owns. -/
structure Kid where
  ref : Ref
  value : Json
  foot : List ℕ

instance : Element Kid where
  absent := ⟨.hole, .null, []⟩
  text? kid := text? kid.ref
  ofText text := ⟨.str text, .str text, []⟩

namespace Container

/-- The addresses the elements own. -/
def foot (c : Container Kid) : List ℕ :=
  c.elements.flatMap (·.foot)

def cell (c : Container Kid) : Cell :=
  c.map (·.ref)

def json (c : Container Kid) : Json :=
  .ofContainer (c.map (·.value))

end Container

/-- A reference whose containers are those of an earlier heap, and above them owned ones. -/
inductive Owns (shared heap : Heap) : Ref → Json → List ℕ → Prop
  | shared {ref : Ref} {value : Json} (h : Denotes shared ref value) : Owns shared heap ref value []
  | owned (address : ℕ) (c : Container Kid) (haddress : shared.length ≤ address)
      (hcell : heap[address]? = some c.cell)
      (h : ∀ kid ∈ c.elements, Owns shared heap kid.ref kid.value kid.foot) :
      Owns shared heap (.container address) c.json (address :: c.foot)

section

variable {shared heap heap' : Heap} {ref : Ref} {value : Json} {foot : List ℕ}
variable {address : ℕ}

theorem Owns.text? (h : Owns shared heap ref value foot) : text? value = text? ref := by
  cases h with
  | shared h =>
    cases h with
    | container address c hcell h => cases c <;> rfl
    | _ => rfl
  | owned address c => cases c <;> rfl

theorem Owns.frame (h : Owns shared heap ref value foot)
    (hframe : ∀ address ∈ foot, heap'[address]? = heap[address]?) :
    Owns shared heap' ref value foot := by
  induction h with
  | shared h => exact .shared h
  | owned address c haddress hcell _ ih =>
    refine .owned address c haddress ?_ fun kid hmem => ih kid hmem fun a ha => ?_
    · rw [hframe address mem_cons_self]
      exact hcell
    · exact hframe a (mem_cons_of_mem _ (mem_flatMap.mpr ⟨kid, hmem, ha⟩))

theorem Owns.bounds (h : Owns shared heap ref value foot) :
    ∀ address ∈ foot, shared.length ≤ address ∧ address < heap.length := by
  induction h with
  | shared h => exact fun _ hmem => by cases hmem
  | owned address c haddress hcell _ ih =>
    intro a hmem
    obtain rfl | hmem := mem_cons.mp hmem
    · exact ⟨haddress, (List.getElem?_eq_some_iff.mp hcell).1⟩
    · obtain ⟨kid, hkid, ha⟩ := mem_flatMap.mp hmem
      exact ih kid hkid a ha

theorem Owns.denotes (hshared : ∀ a < shared.length, heap[a]? = shared[a]?)
    (h : Owns shared heap ref value foot) : Denotes heap ref value := by
  induction h with
  | shared h => exact h.mono hshared
  | owned address c haddress hcell _ ih =>
    have hmap := Denotes.container address (c.map fun kid => (kid.ref, kid.value))
      (by rw [hcell, Container.cell, Container.map_map]; rfl) fun k hmem => by
        rw [Container.elements_map] at hmem
        obtain ⟨kid, hkid, rfl⟩ := mem_map.mp hmem
        exact ih kid hkid
    rw [Container.map_map] at hmap
    exact hmap

theorem Owns.of_lt (h : Owns shared heap (.container address) value foot)
    (hlt : address < shared.length) : Denotes shared (.container address) value ∧ foot = [] := by
  cases h with
  | shared h => exact ⟨h, rfl⟩
  | owned _ c haddress => exact absurd hlt (Nat.not_lt.mpr haddress)

theorem Owns.of_le (h : Owns shared heap (.container address) value foot)
    (hle : shared.length ≤ address) :
    ∃ c : Container Kid, heap[address]? = some c.cell ∧ value = c.json ∧
      foot = address :: c.foot ∧ ∀ kid ∈ c.elements, Owns shared heap kid.ref kid.value kid.foot := by
  cases h with
  | shared h => exact absurd h.lt (Nat.not_lt.mpr hle)
  | owned _ c _ hcell h => exact ⟨c, hcell, rfl, rfl, h⟩

theorem Denotes.elements (h : Denotes shared (.container address) value) :
    ∃ c : Container Kid, shared[address]? = some c.cell ∧ value = c.json ∧ c.foot = [] ∧
      ∀ kid ∈ c.elements, ∀ heap, Owns shared heap kid.ref kid.value kid.foot := by
  cases h with
  | container _ c hcell h =>
    refine ⟨c.map fun k => ⟨k.1, k.2, []⟩, ?_, ?_, ?_, fun kid hmem heap => ?_⟩
    · rw [hcell, Container.cell, Container.map_map]
      rfl
    · rw [Container.json, Container.map_map]
      rfl
    · rw [Container.foot, Container.elements_map, flatMap_map]
      exact flatMap_eq_nil_iff.mpr fun _ _ => rfl
    · rw [Container.elements_map] at hmem
      obtain ⟨k, hk, rfl⟩ := mem_map.mp hmem
      exact .shared (h k hk)

theorem Owns.elements (hshared : ∀ a < shared.length, heap[a]? = shared[a]?)
    (h : Owns shared heap (.container address) value foot) :
    ∃ c : Container Kid, heap[address]? = some c.cell ∧ value = c.json ∧
      ∀ kid ∈ c.elements, Owns shared heap kid.ref kid.value kid.foot := by
  cases h with
  | shared h =>
    obtain ⟨c, hcell, hvalue, -, helements⟩ := h.elements
    exact ⟨c, (hshared address h.lt).trans hcell, hvalue, fun kid hmem => helements kid hmem heap⟩
  | owned _ c _ hcell h => exact ⟨c, hcell, rfl, h⟩

theorem keeps_ref (c : Container Kid) : EditOf.Keeps Kid.ref c :=
  ⟨rfl, fun _ => rfl, fun _ _ => rfl⟩

theorem keeps_value {c : Container Kid}
    (h : ∀ kid ∈ c.elements, Owns shared heap kid.ref kid.value kid.foot) :
    EditOf.Keeps Kid.value c :=
  ⟨rfl, fun _ => rfl, fun kid hmem => (h kid hmem).text?⟩

end

end KnightCode.Delta

/-! ### Applying -/

namespace KnightCode.Delta

open List Element Except

/-! ### One element of an owned container -/

namespace Container
variable {c : Container Kid}

theorem foot_subperm {l : List Kid} (h : c.elements.Subperm l) :
    c.foot.Subperm (l.flatMap (·.foot)) := by
  obtain ⟨l', hperm, hsub⟩ := h
  exact (hperm.flatMap_right _).symm.subperm.trans (hsub.flatMap _).subperm

theorem foot_write {seg : Seg} {kid : Kid} (h : c.child seg = some kid) :
    ∃ others : List Kid, (∀ other ∈ others, other ∈ c.elements) ∧
      c.foot.Perm (kid.foot ++ others.flatMap (·.foot)) ∧
      ∀ kid', (c.write seg kid').foot.Perm (kid'.foot ++ others.flatMap (·.foot)) ∧
        ∀ k ∈ (c.write seg kid').elements, k = kid' ∨ k ∈ others := by
  obtain ⟨others, hperm, hwrite⟩ := write_perm (takes_of_child h)
  rw [h] at hperm
  refine ⟨others, fun other hmem => hperm.mem_iff.mpr (mem_cons_of_mem _ hmem),
    hperm.flatMap_right _, fun kid' => ⟨(hwrite kid').flatMap_right _, fun k hmem => ?_⟩⟩
  exact mem_cons.mp ((hwrite kid').mem_iff.mp hmem)

theorem cell_write {seg : Seg} {kid kid' : Kid} (h : c.child seg = some kid)
    (href : kid'.ref = kid.ref) : (c.write seg kid').cell = c.cell := by
  rw [cell, ← write_map, href]
  refine write_child ?_
  rw [child_map, h]
  rfl

theorem json_write (c : Container Kid) (seg : Seg) (kid : Kid) :
    (c.write seg kid).json = c.json.write seg kid.value := by
  rw [json, json, Json.write_ofContainer, write_map]

end Container

/-! ### The walk -/

theorem Json.isObj_json (c : Container Kid) : c.json.isObj = true := by
  cases c <;> rfl

variable {value : Json} {foot : List ℕ}

theorem Owns.prim {shared heap : Heap} {ref : Ref} (h : Owns shared heap ref value foot)
    (href : ∀ address, ref ≠ .container address) :
    value.isObj = false ∧ foot = [] := by
  cases h with
  | owned address c => exact absurd rfl (href address)
  | shared h =>
    cases h with
    | container address c => exact absurd rfl (href address)
    | _ => exact ⟨rfl, rfl⟩

theorem step_isObj (path : Path) (seg : Seg) (h : value.isObj = false) :
    ∃ error, Delta.step path value seg = .error error := by
  cases value with
  | arr items => cases h
  | obj members => cases h
  | _ => exact ⟨_, rfl⟩

theorem Container.child_json (c : Container Kid) (seg : Seg) :
    c.json.child seg = (c.child seg).map (·.value) := by
  rw [Container.json, Json.child_ofContainer, Container.child_map]

variable {address : ℕ} {c : Container Kid}

theorem Heap.step_container {heap : Heap} (hcell : heap[address]? = some c.cell) (path : Path)
    (seg : Seg) :
    Agree (fun ref value => ∃ kid, c.child seg = some kid ∧ ref = kid.ref ∧ value = kid.value)
      (heap.step path (.container address) seg) (Delta.step path c.json seg) := by
  have hchild : c.cell.child seg = (c.child seg).map (·.ref) := Container.child_map _ c seg
  have hvalue := c.child_json seg
  unfold Heap.step Delta.step
  rw [show heap.cell (.container address) = some c.cell from hcell]
  cases c with
  | arr items =>
    cases seg with
    | key name => trivial
    | idx index =>
      dsimp only [Container.cell, Container.map, Container.json, Json.ofContainer] at hchild hvalue ⊢
      rw [hchild, hvalue]
      cases Container.child (.arr items) (.idx index) with
      | none => trivial
      | some kid => exact ⟨kid, rfl, rfl, rfl⟩
  | obj members =>
    dsimp only [Container.cell, Container.map, Container.json, Json.ofContainer] at hchild hvalue ⊢
    rw [hchild, hvalue]
    cases Container.child (.obj members) seg with
    | none => trivial
    | some kid => exact ⟨kid, rfl, rfl, rfl⟩

/-- Every container the walk meets, its target included, is owned. -/
def OwnedAlong (shared heap : Heap) : Path → Ref → Prop
  | [], ref => ∀ address, ref = .container address → shared.length ≤ address
  | seg :: rest, ref => ∀ address, ref = .container address → shared.length ≤ address ∧
      ∀ cell child, heap[address]? = some cell → cell.child seg = some child →
        OwnedAlong shared heap rest child

theorem OwnedAlong.le {shared heap : Heap} {path : Path}
    (h : OwnedAlong shared heap path (.container address)) : shared.length ≤ address := by
  cases path with
  | nil => exact h address rfl
  | cons seg rest => exact (h address rfl).1

theorem ownedAlong_nil (heap : Heap) (path : Path) (ref : Ref) : OwnedAlong [] heap path ref := by
  induction path generalizing ref with
  | nil => exact fun address _ => Nat.zero_le address
  | cons seg rest ih => exact fun address _ => ⟨Nat.zero_le address, fun _ child _ _ => ih child⟩

/-- A change of a cell is the change of a value: it leaves elements the container had, elements of
`payload`, or texts. -/
structure ChangesAs (shared heap : Heap) (payload : List Kid) (g : Cell → Except DeltaError Cell)
    (f : Json → Except DeltaError Json) : Prop where
  container : ∀ c : Container Kid,
    (∀ kid ∈ c.elements, Owns shared heap kid.ref kid.value kid.foot) →
    Agree (fun cell value => ∃ c' : Container Kid, cell = c'.cell ∧ value = c'.json ∧
      ∃ texts : List Kid, (∀ kid ∈ texts, ∃ text, kid = ofText text) ∧
        c'.elements.Subperm (texts ++ (payload ++ c.elements))) (g c.cell) (f c.json)
  prim : ∀ value : Json, value.isObj = false → ∃ error, f value = .error error

/-- What a write at the end of a walk of owned containers does. -/
structure Wrote (shared heap : Heap) (payload : List Kid) (ref : Ref) (foot : List ℕ)
    (heap' : Heap) (value : Json) : Prop where
  owns : ∃ foot', Owns shared heap' ref value foot' ∧
    foot'.Subperm (payload.flatMap (·.foot) ++ foot)
  length : heap'.length = heap.length
  frame : ∀ address, address ∉ foot → heap'[address]? = heap[address]?

section

variable {shared heap : Heap} {payload : List Kid} {g : Cell → Except DeltaError Cell}
  {f : Json → Except DeltaError Json}

theorem ChangesAs.update (hedit : ChangesAs shared heap payload g f)
    (hpayload : ∀ kid ∈ payload, Owns shared heap kid.ref kid.value kid.foot)
    (haddress : shared.length ≤ address) (hcell : heap[address]? = some c.cell)
    (h : ∀ kid ∈ c.elements, Owns shared heap kid.ref kid.value kid.foot)
    (hnodup : (payload.flatMap (·.foot) ++ (address :: c.foot)).Nodup) :
    Agree (Wrote shared heap payload (.container address) (address :: c.foot))
      (heap.update address g) (f c.json) := by
  rw [Heap.update, hcell]
  refine (hedit.container c h).map_left ?_
  rintro cell value ⟨c', rfl, rfl, texts, htexts, hsub⟩
  have hfoot : c'.foot.Subperm (payload.flatMap (·.foot) ++ c.foot) := by
    have hnil : texts.flatMap (·.foot) = [] := flatMap_eq_nil_iff.mpr fun kid hmem => by
      obtain ⟨text, rfl⟩ := htexts kid hmem
      rfl
    have hall := Container.foot_subperm hsub
    rw [flatMap_append, flatMap_append, hnil, nil_append] at hall
    exact hall
  obtain ⟨hpayloads, hfoots, hdisjoint⟩ := nodup_append.mp hnodup
  refine ⟨⟨address :: c'.foot, .owned address c' haddress ?_ fun kid hmem => ?_, ?_⟩,
    length_set, fun a ha => ?_⟩
  · exact getElem?_set_self (List.getElem?_eq_some_iff.mp hcell).1
  · have hframe : ∀ {kid : Kid}, Owns shared heap kid.ref kid.value kid.foot →
        address ∉ kid.foot → Owns shared (heap.set address c'.cell) kid.ref kid.value kid.foot :=
      fun hkid hnot => hkid.frame fun a ha =>
        getElem?_set_ne fun heq : address = a => hnot (heq ▸ ha)
    obtain hmem | hmem := mem_append.mp (hsub.subset hmem)
    · obtain ⟨text, rfl⟩ := htexts kid hmem
      exact .shared (.str text)
    · obtain hmem | hmem := mem_append.mp hmem
      · exact hframe (hpayload kid hmem) fun ha => hdisjoint address
          (mem_flatMap.mpr ⟨kid, hmem, ha⟩) address mem_cons_self rfl
      · exact hframe (h kid hmem) fun ha =>
          (nodup_cons.mp hfoots).1 (mem_flatMap.mpr ⟨kid, hmem, ha⟩)
  · exact ((subperm_cons address).mpr hfoot).trans perm_middle.symm.subperm
  · exact getElem?_set_ne fun heq : address = a => ha (heq ▸ mem_cons_self)

theorem Wrote.up {heap' : Heap} {value' : Json} {seg : Seg} {kid : Kid}
    (haddress : shared.length ≤ address) (hcell : heap[address]? = some c.cell)
    (h : ∀ k ∈ c.elements, Owns shared heap k.ref k.value k.foot)
    (hnodup : (address :: c.foot).Nodup) (hchild : c.child seg = some kid)
    (hwrote : Wrote shared heap payload kid.ref kid.foot heap' value') :
    Wrote shared heap payload (.container address) (address :: c.foot) heap'
      (c.json.write seg value') := by
  obtain ⟨⟨foot', howns, hsub⟩, hlength, hframe⟩ := hwrote
  obtain ⟨hnot, hfoot⟩ := nodup_cons.mp hnodup
  obtain ⟨others, hothers, hperm, hwrite⟩ := Container.foot_write hchild
  obtain ⟨hfoot', helements⟩ := hwrite ⟨kid.ref, value', foot'⟩
  have hkid : ∀ a ∈ kid.foot, a ∈ c.foot := fun a ha =>
    hperm.mem_iff.mpr (mem_append_left _ ha)
  have hdisjoint := (nodup_append.mp (hperm.nodup_iff.mp hfoot)).2.2
  refine ⟨⟨address :: (c.write seg ⟨kid.ref, value', foot'⟩).foot, ?_, ?_⟩, hlength,
    fun a ha => hframe a fun hmem => ha (mem_cons_of_mem _ (hkid a hmem))⟩
  · have hsame : (c.write seg ⟨kid.ref, value', foot'⟩).cell = c.cell :=
      Container.cell_write hchild rfl
    have hnode : Owns shared heap' (.container address)
        (c.write seg ⟨kid.ref, value', foot'⟩).json
        (address :: (c.write seg ⟨kid.ref, value', foot'⟩).foot) := by
      refine .owned address (c.write seg ⟨kid.ref, value', foot'⟩) haddress ?_ fun k hmem => ?_
      · rw [hframe address fun hmem => hnot (hkid address hmem), hcell, hsame]
      · obtain rfl | hmem := helements k hmem
        · exact howns
        · refine (h k (hothers k hmem)).frame fun a ha => hframe a fun hin => ?_
          exact hdisjoint a hin a (mem_flatMap.mpr ⟨k, hmem, ha⟩) rfl
    rw [Container.json_write] at hnode
    exact hnode
  · refine ((subperm_cons address).mpr ?_).trans perm_middle.symm.subperm
    refine hfoot'.subperm.trans ((List.Subperm.append hsub (List.Subperm.refl _)).trans ?_)
    rw [append_assoc]
    exact (List.Subperm.refl _).append hperm.symm.subperm

theorem resolve_update (hedit : ChangesAs shared heap payload g f)
    (hpayload : ∀ kid ∈ payload, Owns shared heap kid.ref kid.value kid.foot) (path rest : Path)
    {ref : Ref} (h : Owns shared heap ref value foot) (halong : OwnedAlong shared heap rest ref)
    (hnodup : (payload.flatMap (·.foot) ++ foot).Nodup) :
    Agree (Wrote shared heap payload ref foot)
      (heap.resolve path rest ref >>= fun address => heap.update address g)
      (modify path f rest value) := by
  induction rest generalizing ref value foot with
  | nil =>
    by_cases href : ∃ address, ref = .container address
    · obtain ⟨address, rfl⟩ := href
      obtain ⟨c, hcell, rfl, rfl, hc⟩ := h.of_le halong.le
      exact hedit.update hpayload halong.le hcell hc hnodup
    · obtain ⟨hprim, -⟩ := h.prim fun address heq => href ⟨address, heq⟩
      obtain ⟨error, herror⟩ := hedit.prim value hprim
      rw [modify, herror]
      cases ref with
      | container address => exact absurd ⟨address, rfl⟩ href
      | _ => trivial
  | cons seg rest ih =>
    by_cases href : ∃ address, ref = .container address
    · obtain ⟨address, rfl⟩ := href
      obtain ⟨c, hcell, rfl, rfl, hc⟩ := h.of_le halong.le
      rw [Heap.resolve, modify, bind_assoc]
      refine (Heap.step_container hcell path seg).bind ?_
      rintro _ _ ⟨kid, hchild, rfl, rfl⟩
      have hcellChild : c.cell.child seg = some kid.ref := by
        rw [Container.cell, Container.child_map, hchild]
        rfl
      obtain ⟨hpayloads, hfoots, hdisjoint⟩ := nodup_append.mp hnodup
      obtain ⟨_, _, hperm, _⟩ := Container.foot_write hchild
      have hkid : ∀ a ∈ kid.foot, a ∈ c.foot := fun a ha =>
        hperm.mem_iff.mpr (mem_append_left _ ha)
      have hkidNodup : (payload.flatMap (·.foot) ++ kid.foot).Nodup := by
        refine nodup_append.mpr ⟨hpayloads, ?_, fun a ha b hb => ?_⟩
        · exact (nodup_append.mp (hperm.nodup_iff.mp (nodup_cons.mp hfoots).2)).1
        · exact hdisjoint a ha b (mem_cons_of_mem _ (hkid b hb))
      have hnext := ih (hc kid (Container.child_mem hchild))
        ((halong address rfl).2 _ _ hcell hcellChild) hkidNodup
      exact hnext.bind_right fun heap' value' hwrote =>
        ⟨_, rfl, hwrote.up halong.le hcell hc hfoots hchild⟩
    · obtain ⟨hprim, -⟩ := h.prim fun address heq => href ⟨address, heq⟩
      obtain ⟨error, herror⟩ := step_isObj path seg hprim
      rw [modify, herror]
      cases ref with
      | container address => exact absurd ⟨address, rfl⟩ href
      | _ => trivial

end

/-! ### Edits -/

section

variable {shared heap : Heap} {edit : EditOf Kid}

theorem changesAs_onTarget (path : Path) (hvalid : ∀ permutation, edit = .permute permutation →
    assertPermutation permutation = .ok ()) :
    ChangesAs shared heap edit.payload ((edit.map (·.ref)).onTarget path)
      ((edit.map (·.value)).toEdit.onTarget path) := by
  constructor
  · intro c h
    rw [Container.cell, Container.json, Json.onTarget_ofContainer,
      EditOf.onTarget_map (keeps_ref c), EditOf.onTarget_map (keeps_value h)]
    cases hrun : edit.onTarget path c with
    | error e => trivial
    | ok c' =>
      exact ⟨c', rfl, rfl, [], fun _ hmem => (by cases hmem), EditOf.onTarget_elements hvalid hrun⟩
  · intro value hprim
    cases value with
    | arr items => cases hprim
    | obj members => cases hprim
    | _ => exact ⟨_, rfl⟩

theorem changesAs_onMember (path : Path) (key : Seg) :
    ChangesAs shared heap edit.payload
      (fun cell => do
        cell.assertMember key
        (edit.map (·.ref)).onMember path key cell)
      (fun parent => do
        assertMember path.dropLast key parent
        (edit.map (·.value)).toEdit.onMember path key parent) := by
  constructor
  · intro c h
    simp only [Container.cell, Container.json, Json.onMember_ofContainer,
      Json.assertMember_ofContainer, Container.assertMember_map, EditOf.onMember_map (keeps_ref c),
      EditOf.onMember_map (keeps_value h)]
    cases hmember : c.assertMember key with
    | error e => trivial
    | ok _ =>
      cases hrun : edit.onMember path key c with
      | error e => trivial
      | ok c' =>
        obtain ⟨texts, htexts, hsub⟩ := EditOf.onMember_elements hrun
        exact ⟨c', rfl, rfl, texts, htexts, hsub⟩
  · intro value hprim
    cases value with
    | arr items => cases hprim
    | obj members => cases hprim
    | _ => exact ⟨_, rfl⟩

theorem EditOf.atRoot_map {α β : Type} (f : α → β) (e : EditOf α) : (e.map f).atRoot = e.atRoot := by
  cases e <;> rfl

theorem EditOf.atRoot_toEdit (e : EditOf Json) : e.toEdit.atRoot = e.atRoot := by
  cases e <;> rfl

theorem Heap.applyEdit_agree {path : Path} {root : Ref}
    (hvalid : Op.Valid path (edit.map (·.value)).toEdit)
    (hpayload : ∀ kid ∈ edit.payload, Owns shared heap kid.ref kid.value kid.foot)
    (h : Owns shared heap root value foot)
    (halong : OwnedAlong shared heap (Replay.editPath path edit) root)
    (hnodup : (edit.payload.flatMap (·.foot) ++ foot).Nodup) :
    Agree (Wrote shared heap edit.payload root foot) (heap.applyEdit path (edit.map (·.ref)) root)
      (Delta.applyEdit path (edit.map (·.value)).toEdit value) := by
  rw [Heap.applyEdit, Delta.applyEdit, EditOf.atRoot_map, EditOf.atRoot_toEdit, EditOf.atRoot_map]
  rw [Replay.editPath] at halong
  by_cases hroot : edit.atRoot = true
  · rw [if_pos hroot, if_pos hroot]
    rw [if_pos hroot] at halong
    refine resolve_update (changesAs_onTarget path fun permutation heq => ?_) hpayload path path h
      halong hnodup
    exact hvalid.permutation permutation (by rw [heq]; rfl)
  · rw [if_neg hroot, if_neg hroot]
    rw [if_neg hroot] at halong
    cases hlast : path.getLast? with
    | none => trivial
    | some key =>
      exact resolve_update (changesAs_onMember path key) hpayload path.dropLast path.dropLast h
        halong hnodup

end

/-! ### Operations -/

namespace OpOf

/-- The values an operation brings. -/
def payload {α : Type} : OpOf α → List α
  | .replace value => [value]
  | .edit _ e => e.payload

/-- The operation on what a heap holds. -/
def refs (op : OpOf Kid) : OpOf Ref :=
  op.map (·.ref)

def values (op : OpOf Kid) : Op :=
  (op.map (·.value)).toOp

theorem assertValid_refs (op : OpOf Kid) : op.refs.assertValid = assertValidOp op.values := by
  cases op with
  | replace value => rfl
  | edit path e => cases e <;> rfl

end OpOf

section

variable {shared heap : Heap}
variable {foot : List ℕ}

theorem Heap.applyOp_agree (op : OpOf Kid) {root : Ref}
    (hpayload : ∀ kid ∈ op.payload, Owns shared heap kid.ref kid.value kid.foot)
    (h : Owns shared heap root value foot)
    (halong : ∀ path e, op = .edit path e → OwnedAlong shared heap (Replay.editPath path e) root)
    (hnodup : (op.payload.flatMap (·.foot) ++ foot).Nodup) :
    Agree (fun w value' => (∃ foot', Owns shared w.1 w.2 value' foot' ∧
        foot'.Subperm (op.payload.flatMap (·.foot) ++ foot)) ∧ w.1.length = heap.length ∧
          ∀ address, address ∉ foot → w.1[address]? = heap[address]?)
      (heap.applyOp root op.refs) (Delta.applyOp value op.values) := by
  unfold Heap.applyOp Delta.applyOp
  rw [OpOf.assertValid_refs]
  cases hvalid : assertValidOp op.values with
  | error e => trivial
  | ok _ =>
    cases op with
    | replace kid =>
      refine ⟨⟨kid.foot, hpayload kid mem_cons_self, ?_⟩, rfl, fun _ _ => rfl⟩
      show kid.foot.Subperm ([kid].flatMap (·.foot) ++ foot)
      rw [flatMap_singleton]
      exact (sublist_append_left _ _).subperm
    | edit path e =>
      have hedit := Heap.applyEdit_agree (assertValidOp_ok.mp hvalid) hpayload h
        (halong path e rfl) hnodup
      exact hedit.bind_left fun heap' value' hwrote =>
        ⟨_, rfl, hwrote.owns, hwrote.length, hwrote.frame⟩

theorem nodup_of_subperm {l l' : List ℕ} (h : l.Subperm l') (hl : l'.Nodup) : l.Nodup := by
  obtain ⟨l'', hperm, hsub⟩ := h
  exact hperm.nodup_iff.mp (hl.sublist hsub)

theorem later_payload {heap' : Heap} {kid : Kid}
    (hkid : Owns shared heap kid.ref kid.value kid.foot)
    (hframe : ∀ address, address ∉ foot → heap'[address]? = heap[address]?)
    (hdisjoint : ∀ address ∈ kid.foot, address ∉ foot) :
    Owns shared heap' kid.ref kid.value kid.foot :=
  hkid.frame fun address hmem => hframe address (hdisjoint address hmem)

/-- Operations on a copy of one's own, with values of their own, do in memory what they do to
values. -/
theorem Heap.applyOps_agree {ops : List (OpOf Kid)} {root : Ref}
    (hpayload : ∀ op ∈ ops, ∀ kid ∈ op.payload, Owns [] heap kid.ref kid.value kid.foot)
    (h : Owns [] heap root value foot)
    (hnodup : ((ops.flatMap (·.payload)).flatMap (·.foot) ++ foot).Nodup) :
    Agree (fun w value' => ∃ foot', Owns [] w.1 w.2 value' foot')
      (heap.applyOps root (ops.map (·.refs))) (Delta.applyOps value (ops.map (·.values))) := by
  induction ops generalizing heap root value foot with
  | nil => exact ⟨foot, h⟩
  | cons op ops ih =>
    rw [flatMap_cons, flatMap_append, append_assoc] at hnodup
    obtain ⟨hfirst, hrest, hdisjoint⟩ := nodup_append.mp hnodup
    obtain ⟨hlater, hfoot, hapart⟩ := nodup_append.mp hrest
    have hop : (op.payload.flatMap (·.foot) ++ foot).Nodup :=
      nodup_append.mpr ⟨hfirst, hfoot, fun a ha b hb => hdisjoint a ha b (mem_append_right _ hb)⟩
    have hstep := Heap.applyOp_agree op (hpayload op mem_cons_self) h
      (fun path e _ => ownedAlong_nil heap _ root) hop
    rw [map_cons, map_cons, Heap.applyOps, Delta.applyOps, foldlM_cons, foldlM_cons]
    refine hstep.bind ?_
    rintro ⟨heap', root'⟩ value' ⟨⟨foot', howns, hsub⟩, -, hframe⟩
    refine ih (fun op' hop' kid hkid => ?_) howns ?_
    · refine later_payload (hpayload op' (mem_cons_of_mem _ hop') kid hkid) hframe ?_
      intro a ha hin
      exact hapart a (mem_flatMap.mpr ⟨kid, mem_flatMap.mpr ⟨op', hop', hkid⟩, ha⟩) a hin
        rfl
    · refine nodup_append.mpr ⟨hlater, nodup_of_subperm hsub hop, fun a ha b hb => ?_⟩
      obtain hb | hb := mem_append.mp (hsub.subset hb)
      · exact fun heq => hdisjoint b hb a (mem_append_left _ ha) heq.symm
      · exact hapart a ha b hb

end

end KnightCode.Delta
