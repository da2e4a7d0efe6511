import KnightCode.Delta.HeapApply

/-!
# Replaying without mutation

What the replay owns are the containers it made, and each of them stands in one place of the tree.
Copying the containers on a path changes no value and owns them all, so the edit that follows is one
in place; the concatenation for an append does what the splice does. No container that was there
before is ever written.
-/

namespace KnightCode.Delta

open List Option Element Except Bool

/-- What a replay keeps: the earlier heap as it was, and ownership of all containers made since. -/
structure Replay.Keeps (shared : Heap) (r : Replay) : Prop where
  length : shared.length ≤ r.heap.length
  agree : ∀ a < shared.length, r.heap[a]? = shared[a]?
  owned : ∀ a, a ∈ r.owned ↔ shared.length ≤ a ∧ a < r.heap.length

/-- A copied path: the value is the same, its containers are owned, and nothing else is written. -/
structure Copied (shared : Heap) (r : Replay) (foot : List ℕ) (value : Json) (rest : Path)
    (r' : Replay) (ref' : Ref) : Prop where
  keeps : r'.Keeps shared
  owns : ∃ foot', Owns shared r'.heap ref' value foot' ∧ foot'.Nodup ∧
    ∀ a ∈ foot', a ∈ foot ∨ r.heap.length ≤ a
  along : OwnedAlong shared r'.heap rest ref'
  length : r.heap.length ≤ r'.heap.length
  frame : ∀ a < r.heap.length, a ∉ foot → r'.heap[a]? = r.heap[a]?

section

variable {shared : Heap} {r : Replay}
variable {value : Json} {c : Container Kid} {destination : ℕ} {root : Ref}

theorem Replay.Keeps.own (h : r.Keeps shared) (cell : Cell) : (r.own cell).Keeps shared := by
  refine ⟨?_, fun a ha => ?_, fun a => ?_⟩
  · rw [Replay.own, length_append]
    exact h.length.trans (Nat.le_add_right _ _)
  · rw [← h.agree a ha, Replay.own]
    exact getElem?_append_left (ha.trans_le h.length)
  · rw [Replay.own, mem_cons, h.owned, length_append, length_singleton]
    have := h.length
    omega

variable {heap : Heap}

theorem Replay.Keeps.write (h : r.Keeps shared) (hlength : heap.length = r.heap.length)
    (hframe : ∀ a < shared.length, heap[a]? = r.heap[a]?) :
    ({ r with heap := heap } : Replay).Keeps shared := by
  refine ⟨h.length.trans hlength.ge, fun a ha => (hframe a ha).trans (h.agree a ha), fun a => ?_⟩
  rw [hlength]
  exact h.owned a

theorem Replay.own_here (r : Replay) (cell : Cell) : (r.own cell).heap[r.heap.length]? = some cell :=
  getElem?_concat_length

theorem Replay.own_before {a : ℕ} (ha : a < r.heap.length) (cell : Cell) :
    (r.own cell).heap[a]? = r.heap[a]? :=
  getElem?_append_left ha

theorem Owns.of_not_owned (hkeeps : r.Keeps shared) {address : ℕ} {foot : List ℕ}
    (h : Owns shared r.heap (.container address) value foot) (hnot : address ∉ r.owned) :
    ∃ c : Container Kid, r.heap[address]? = some c.cell ∧ value = c.json ∧ foot = [] ∧
      c.foot = [] ∧ ∀ kid ∈ c.elements, ∀ heap, Owns shared heap kid.ref kid.value kid.foot := by
  have hlt : address < shared.length := by
    by_contra hge
    have hle := not_lt.mp hge
    obtain ⟨c, hcell, -⟩ := h.of_le hle
    exact hnot ((hkeeps.owned address).mpr ⟨hle, (List.getElem?_eq_some_iff.mp hcell).1⟩)
  obtain ⟨hdenotes, hfoot⟩ := h.of_lt hlt
  obtain ⟨c, hcell, hvalue, hc, helements⟩ := hdenotes.elements
  exact ⟨c, (hkeeps.agree address hlt).trans hcell, hvalue, hfoot, hc, helements⟩

theorem Owns.of_copy (hkeeps : r.Keeps shared) (hfoot : c.foot = [])
    (h : ∀ kid ∈ c.elements, ∀ heap, Owns shared heap kid.ref kid.value kid.foot)
    (hcell : heap[r.heap.length]? = some c.cell) :
    Owns shared heap (.container r.heap.length) c.json [r.heap.length] := by
  have hnode := Owns.owned r.heap.length c hkeeps.length hcell fun kid hmem => h kid hmem heap
  rw [hfoot] at hnode
  exact hnode

theorem copyWalk_prim (path rest : Path) (h : value.isObj = false) :
    Delta.copyWalk path rest value = .error (.path path) := by
  cases rest with
  | nil => exact if_neg (ne_of_eq_of_ne h false_ne_true)
  | cons seg rest =>
    unfold Delta.copyWalk
    exact if_neg (ne_of_eq_of_ne h false_ne_true)

theorem Copied.up {r₁ r' : Replay} {seg : Seg} {kid : Kid} {ref : Ref} {foot : List ℕ} {rest : Path}
    (hle : shared.length ≤ destination) (hcell : r.heap[destination]? = some c.cell)
    (h : ∀ k ∈ c.elements, Owns shared r.heap k.ref k.value k.foot)
    (hnodup : (destination :: c.foot).Nodup) (hchild : c.child seg = some kid)
    (hcell₁ : r₁.heap[destination]? = some (c.cell.write seg ref))
    (hlength₁ : r.heap.length ≤ r₁.heap.length)
    (hframe₁ : ∀ a < r.heap.length, a ≠ destination → r₁.heap[a]? = r.heap[a]?)
    (hfoot : ∀ a ∈ foot, a ∈ kid.foot ∨ r.heap.length ≤ a)
    (hcopied : Copied shared r₁ foot kid.value rest r' ref) :
    Copied shared r (destination :: c.foot) c.json (seg :: rest) r' (.container destination) := by
  obtain ⟨foot', howns, hnodup', hbounds⟩ := hcopied.owns
  obtain ⟨hnot, hcfoot⟩ := nodup_cons.mp hnodup
  obtain ⟨others, hothers, hperm, hwrite⟩ := Container.foot_write hchild
  obtain ⟨hfoot', helements⟩ := hwrite ⟨ref, kid.value, foot'⟩
  have hkid : ∀ a ∈ kid.foot, a ∈ c.foot := fun a ha =>
    hperm.mem_iff.mpr (mem_append_left _ ha)
  have hdisjoint := (nodup_append.mp (hperm.nodup_iff.mp hcfoot)).2
  have hlt : destination < r.heap.length := (List.getElem?_eq_some_iff.mp hcell).1
  have hsource : ∀ a ∈ foot', a ∈ kid.foot ∨ r.heap.length ≤ a := fun a ha =>
    (hbounds a ha).elim (hfoot a) fun hle => .inr (hlength₁.trans hle)
  have hframe : ∀ a < r.heap.length, a ≠ destination → a ∉ kid.foot →
      r'.heap[a]? = r.heap[a]? := by
    intro a ha hne hnotin
    refine (hcopied.frame a (ha.trans_le hlength₁) fun hmem => ?_).trans (hframe₁ a ha hne)
    obtain hin | hge := hfoot a hmem
    · exact hnotin hin
    · omega
  have hsame : (c.write seg ⟨ref, kid.value, foot'⟩).cell = c.cell.write seg ref :=
    (Container.write_map _ c seg _).symm
  have hvalue : (c.write seg ⟨ref, kid.value, foot'⟩).json = c.json := by
    rw [Container.json, ← Container.write_map, Container.write_child]
    · rfl
    · rw [Container.child_map, hchild]
      rfl
  have hcell' : r'.heap[destination]? = some (c.write seg ⟨ref, kid.value, foot'⟩).cell := by
    rw [hsame, ← hcell₁]
    refine hcopied.frame destination (hlt.trans_le hlength₁) fun hmem => ?_
    obtain hin | hge := hfoot destination hmem
    · exact hnot (hkid destination hin)
    · omega
  have hnode : Owns shared r'.heap (.container destination) _ _ := .owned destination
    (c.write seg ⟨ref, kid.value, foot'⟩) hle hcell' fun k hmem => by
      obtain rfl | hmem := helements k hmem
      · exact howns
      · refine (h k (hothers k hmem)).frame fun a ha => ?_
        have hin : a ∈ others.flatMap (·.foot) := mem_flatMap.mpr ⟨k, hmem, ha⟩
        refine hframe a ((h k (hothers k hmem)).bounds a ha).2 ?_ fun hmem' =>
          hdisjoint.2 a hmem' a hin rfl
        rintro rfl
        exact hnot (hperm.mem_iff.mpr (mem_append_right _ hin))
  rw [hvalue] at hnode
  refine ⟨hcopied.keeps, ⟨_, hnode, nodup_cons.mpr ⟨fun hmem => ?_, ?_⟩, fun a hmem => ?_⟩, ?_,
    hlength₁.trans hcopied.length, fun a ha hmem => ?_⟩
  · obtain hmem | hmem := mem_append.mp (hfoot'.mem_iff.mp hmem)
    · obtain hin | hge := hsource destination hmem
      · exact hnot (hkid destination hin)
      · omega
    · exact hnot (hperm.mem_iff.mpr (mem_append_right _ hmem))
  · refine hfoot'.nodup_iff.mpr (nodup_append.mpr ⟨hnodup', hdisjoint.1, fun a ha b hb => ?_⟩)
    obtain hin | hge := hsource a ha
    · exact hdisjoint.2 a hin b hb
    · obtain ⟨k, hmem, hbk⟩ := mem_flatMap.mp hb
      have := ((h k (hothers k hmem)).bounds b hbk).2
      omega
  · obtain rfl | hmem := mem_cons.mp hmem
    · exact .inl mem_cons_self
    · obtain hmem | hmem := mem_append.mp (hfoot'.mem_iff.mp hmem)
      · exact (hsource a hmem).imp_left fun hin => mem_cons_of_mem _ (hkid a hin)
      · exact .inl (mem_cons_of_mem _ (hperm.mem_iff.mpr (mem_append_right _ hmem)))
  · rintro _ ⟨⟩
    refine ⟨hle, fun cell child hcell'' hchild' => ?_⟩
    have hcellEq := Option.some.inj (hcell'.symm.trans hcell'')
    have hwritten : (c.cell.write seg ref).child seg = some ref := by
      refine Container.child_write (a := kid.ref) ?_ ref
      rw [Container.cell, Container.child_map, hchild]
      rfl
    rw [← hcellEq, hsame, hwritten] at hchild'
    rw [← Option.some.inj hchild']
    exact hcopied.along
  · exact hframe a ha (fun heq => hmem (heq ▸ mem_cons_self)) fun hin =>
      hmem (mem_cons_of_mem _ (hkid a hin))

theorem ownChild_agree (c : Container Kid) (path : Path) (seg : Seg) :
    Agree (fun ref value => ∃ kid, c.child seg = some kid ∧ ref = kid.ref ∧ value = kid.value)
      (Replay.ownChild path c.cell seg) (Delta.step path c.json seg) := by
  have hhas : c.cell.hasOwn seg = c.hasOwn seg := Container.hasOwn_map _ c seg
  have hchild : c.cell.child seg = (c.child seg).map (·.ref) := Container.child_map _ c seg
  have hvalue := c.child_json seg
  unfold Replay.ownChild Delta.step
  rw [hhas]
  cases c with
  | arr items =>
    cases seg with
    | key name => by_cases hkey : (Container.arr items).hasOwn (.key name) = true <;>
        simp [Container.cell, Container.map, Container.json, Json.ofContainer, hkey, Agree]
    | idx index =>
      have hown : (Container.arr items).hasOwn (.idx index) =
          (Container.child (.arr items) (.idx index)).isSome :=
        (eq_iff_iff.mpr (by simp [Container.hasOwn, Container.child]))
      dsimp only [Container.cell, Container.map, Container.json, Json.ofContainer] at hchild hvalue ⊢
      rw [hchild, hvalue, hown]
      cases Container.child (.arr items) (.idx index) with
      | none => trivial
      | some kid => exact ⟨kid, rfl, rfl, rfl⟩
  | obj members =>
    have hown : (Container.obj members).hasOwn seg = (Container.child (.obj members) seg).isSome := rfl
    dsimp only [Container.cell, Container.map, Container.json, Json.ofContainer] at hchild hvalue ⊢
    rw [hchild, hvalue, hown]
    cases Container.child (.obj members) seg with
    | none => trivial
    | some kid => exact ⟨kid, rfl, rfl, rfl⟩

theorem copyWalk_of_step_error {path : Path} {seg : Seg} {e : DeltaError}
    (h : Delta.step path c.json seg = .error e) (rest : Path) :
    ∃ e', Delta.copyWalk path (seg :: rest) c.json = .error e' := by
  unfold Delta.copyWalk
  rw [if_pos (Json.isObj_json c)]
  by_cases hhas : c.json.hasOwn seg = true
  · rw [if_pos hhas]
    rw [Container.json, Json.hasOwn_ofContainer, Container.hasOwn_map] at hhas
    cases c with
    | arr items =>
      cases seg with
      | key name => exact ⟨_, rfl⟩
      | idx index =>
        have hlt : index < items.length := of_decide_eq_true hhas
        have hget : (items.map (·.value))[index]? = some items[index].value := by
          rw [getElem?_map, getElem?_eq_getElem hlt]
          rfl
        unfold Delta.step at h
        rw [show (Container.arr items).json.child (.idx index) = _ from hget] at h
        cases h
    | obj members =>
      obtain ⟨kid, hkid⟩ := isSome_iff_exists.mp hhas
      have hget : Assoc.get seg.name (members.map fun e => (e.1, e.2.value)) = some kid.value := by
        rw [Assoc.get_map, hkid]
        rfl
      unfold Delta.step at h
      have hchild : (Container.obj members).json.child seg = some kid.value := by
        cases seg <;> exact hget
      rw [hchild] at h
      cases h
  · rw [if_neg hhas]
    exact ⟨_, rfl⟩

theorem copyWalk_cons (path : Path) (seg : Seg) (rest : Path) (c : Container Kid) :
    Agree Eq (Delta.step path c.json seg >>= Delta.copyWalk path rest)
      (Delta.copyWalk path (seg :: rest) c.json) := by
  cases hstep : Delta.step path c.json seg with
  | ok value =>
    obtain ⟨-, -, -, hwalk⟩ := hasOwn_of_step hstep
    rw [hwalk]
    show Agree Eq (Delta.copyWalk path rest value) (Delta.copyWalk path rest value)
    cases Delta.copyWalk path rest value with
    | error e => trivial
    | ok _ => rfl
  | error e =>
    obtain ⟨e', he'⟩ := copyWalk_of_step_error hstep rest
    rw [he']
    trivial

/-- Going to an element of an owned container: it is owned afterwards, copied if it was not. -/
structure Entered (shared : Heap) (r : Replay) (destination : ℕ) (c : Container Kid) (seg : Seg)
    (kid : Kid) (r₁ : Replay) (child : ℕ) (foot : List ℕ) : Prop where
  keeps : r₁.Keeps shared
  owns : Owns shared r₁.heap (.container child) kid.value foot
  le : shared.length ≤ child
  nodup : foot.Nodup
  cell : r₁.heap[destination]? = some (c.cell.write seg (.container child))
  length : r.heap.length ≤ r₁.heap.length
  frame : ∀ a < r.heap.length, a ≠ destination → r₁.heap[a]? = r.heap[a]?
  source : ∀ a ∈ foot, a ∈ kid.foot ∨ r.heap.length ≤ a

theorem copyChild_spec (path : Path) {seg : Seg} {kid : Kid} (hkeeps : r.Keeps shared)
    (hle : shared.length ≤ destination) (hcell : r.heap[destination]? = some c.cell)
    (hkid : Owns shared r.heap kid.ref kid.value kid.foot) (hnodup : kid.foot.Nodup)
    (hchild : c.child seg = some kid) :
    (kid.value.isObj = false ∧
        Replay.copyChild path r destination c.cell seg kid.ref = .error ⟨.path path, r.heap⟩) ∨
      ∃ r₁ child foot, Replay.copyChild path r destination c.cell seg kid.ref = .ok (r₁, child) ∧
        Entered shared r destination c seg kid r₁ child foot := by
  by_cases href : ∃ address, kid.ref = .container address
  · obtain ⟨child, href⟩ := href
    rw [href] at hkid ⊢
    right
    have hcellChild : c.cell.child seg = some (.container child) := by
      rw [Container.cell, Container.child_map, hchild, map_some, href]
    rw [Replay.copyChild]
    by_cases howned : child ∈ r.owned
    · rw [if_pos howned]
      refine ⟨r, child, kid.foot, rfl, hkeeps, hkid, ((hkeeps.owned child).mp howned).1, hnodup, ?_,
        le_rfl, fun _ _ _ => rfl, fun _ ha => .inl ha⟩
      rw [hcell, Container.write_child hcellChild]
    · rw [if_neg howned]
      obtain ⟨c', hcell', hvalue, -, hfoot', hc'⟩ := hkid.of_not_owned hkeeps howned
      rw [hcell']
      have hlt : destination < r.heap.length := (List.getElem?_eq_some_iff.mp hcell).1
      have hown : (r.own c'.cell).heap.length = r.heap.length + 1 := length_append
      have hlength : ((r.own c'.cell).heap.set destination
          (c.cell.write seg (.container r.heap.length))).length = (r.own c'.cell).heap.length :=
        length_set
      have hhere : ((r.own c'.cell).heap.set destination
          (c.cell.write seg (.container r.heap.length)))[r.heap.length]? = some c'.cell := by
        rw [getElem?_set_ne (show destination ≠ r.heap.length by omega)]
        exact r.own_here c'.cell
      have hcopy := Owns.of_copy hkeeps hfoot' hc' hhere
      rw [← hvalue] at hcopy
      refine ⟨_, _, _, rfl, ?_, hcopy, hkeeps.length, nodup_singleton _, ?_, ?_, ?_, ?_⟩
      · exact (hkeeps.own c'.cell).write hlength fun a ha =>
          getElem?_set_ne fun heq : destination = a => by omega
      · exact getElem?_set_self (by omega)
      · rw [hlength]
        omega
      · intro a ha hne
        rw [← Replay.own_before ha c'.cell]
        exact getElem?_set_ne hne.symm
      · intro a ha
        exact .inr (mem_singleton.mp ha).ge
  · obtain ⟨hprim, -⟩ := hkid.prim fun address heq => href ⟨address, heq⟩
    refine .inl ⟨hprim, ?_⟩
    cases hkidRef : kid.ref with
    | container address => exact absurd ⟨address, hkidRef⟩ href
    | _ => rfl

theorem copyWalk_agree (path rest : Path) {foot : List ℕ} (hkeeps : r.Keeps shared)
    (h : Owns shared r.heap (.container destination) value foot) (hle : shared.length ≤ destination)
    (hnodup : foot.Nodup) :
    Agree (fun r' (_ : Unit) => Copied shared r foot value rest r' (.container destination))
      (Replay.copyWalk path rest r destination) (Delta.copyWalk path rest value) := by
  induction rest generalizing r destination value foot with
  | nil =>
    obtain ⟨c, hcell, rfl, rfl, hc⟩ := h.of_le hle
    rw [Delta.copyWalk, if_pos (Json.isObj_json c)]
    refine ⟨hkeeps, ⟨_, h, hnodup, fun a ha => .inl ha⟩, ?_, le_rfl, fun _ _ _ => rfl⟩
    rintro _ ⟨⟩
    exact hle
  | cons seg rest ih =>
    obtain ⟨c, hcell, rfl, rfl, hc⟩ := h.of_le hle
    rw [Replay.copyWalk, hcell]
    refine Agree.trans_eq (((ownChild_agree c path seg).mapError_left _).bind ?_)
      (copyWalk_cons path seg rest c)
    rintro _ _ ⟨kid, hchild, rfl, rfl⟩
    obtain ⟨_, _, hperm, _⟩ := Container.foot_write hchild
    have hkidNodup : kid.foot.Nodup :=
      (nodup_append.mp (hperm.nodup_iff.mp (nodup_cons.mp hnodup).2)).1
    obtain ⟨hprim, herror⟩ | ⟨r₁, child, foot₁, hrun, hentered⟩ := copyChild_spec path hkeeps hle hcell
      (hc kid (Container.child_mem hchild)) hkidNodup hchild
    · rw [copyWalk_prim path rest hprim, herror]
      trivial
    · rw [hrun]
      refine (ih hentered.keeps hentered.owns hentered.le hentered.nodup).mono ?_
      intro r' _ hcopied
      exact hcopied.up hle hcell hc hnodup hchild hentered.cell hentered.length hentered.frame
        hentered.source

theorem copyContainers_agree (hkeeps : r.Keeps shared) {foot : List ℕ}
    (h : Owns shared r.heap root value foot) (hnodup : foot.Nodup) (path : Path) :
    Agree (fun w value' => value' = value ∧ Copied shared r foot value path w.1 w.2)
      (r.copyContainers root path) (Delta.copyContainers value path) := by
  by_cases href : ∃ address, root = .container address
  · obtain ⟨address, rfl⟩ := href
    rw [Replay.copyContainers]
    by_cases howned : address ∈ r.owned
    · rw [if_pos howned]
      refine (copyWalk_agree path path hkeeps h ((hkeeps.owned address).mp howned).1 hnodup).bind ?_
      exact fun r' _ hcopied => ⟨rfl, hcopied⟩
    · rw [if_neg howned]
      obtain ⟨c, hcell, rfl, rfl, hfoot, hc⟩ := h.of_not_owned hkeeps howned
      rw [hcell]
      have hcopy := Owns.of_copy hkeeps hfoot hc (r.own_here c.cell)
      refine (copyWalk_agree path path (hkeeps.own c.cell) hcopy hkeeps.length
        (nodup_singleton _)).bind ?_
      intro r' _ hcopied
      have hlength : (r.own c.cell).heap.length = r.heap.length + 1 := length_append
      obtain ⟨foot', howns, hnodup', hbounds⟩ := hcopied.owns
      refine ⟨rfl, hcopied.keeps, ⟨foot', howns, hnodup', fun a ha => .inr ?_⟩, hcopied.along, ?_,
        fun a ha _ => ?_⟩
      · obtain ha | ha := hbounds a ha
        · exact (mem_singleton.mp ha).ge
        · omega
      · exact le_trans (by omega) hcopied.length
      · rw [← Replay.own_before ha c.cell]
        exact hcopied.frame a (by omega) fun hmem => by
          have := mem_singleton.mp hmem
          omega
  · obtain ⟨hprim, -⟩ := h.prim fun address heq => href ⟨address, heq⟩
    rw [Delta.copyContainers, copyWalk_prim path path hprim]
    cases root with
    | container address => exact absurd ⟨address, rfl⟩ href
    | _ => trivial

/-! ### Edits of copies -/

/-- What a replay has: the root stands for a value, and what it owns stands in one place each. -/
structure Replayed (shared : Heap) (w : Replay × Ref) (value : Json) : Prop where
  keeps : w.1.Keeps shared
  owns : ∃ foot, Owns shared w.1.heap w.2 value foot ∧ foot.Nodup

/-- The values an operation brings are those of the earlier heap. -/
def Brings (shared : Heap) (payload : List Kid) : Prop :=
  ∀ kid ∈ payload, Denotes shared kid.ref kid.value ∧ kid.foot = []

theorem Brings.foot {payload : List Kid} (h : Brings shared payload) :
    payload.flatMap (·.foot) = [] :=
  flatMap_eq_nil_iff.mpr fun kid hmem => (h kid hmem).2

theorem Brings.owns {payload : List Kid} (h : Brings shared payload) (heap : Heap) :
    ∀ kid ∈ payload, Owns shared heap kid.ref kid.value kid.foot := by
  intro kid hmem
  rw [(h kid hmem).2]
  exact .shared (h kid hmem).1

theorem editPath_map {α β : Type} (f : α → β) (path : Path) (e : EditOf α) :
    Replay.editPath path (e.map f) = Replay.editPath path e := by
  rw [Replay.editPath, EditOf.atRoot_map]
  rfl

theorem copyAndEdit_agree {root : Ref} {value : Json} (h : Replayed shared (r, root) value)
    {path : Path} {e : EditOf Kid} (hbrings : Brings shared e.payload) :
    Agree (Replayed shared) (r.copyAndEdit root path (e.map (·.ref)))
      (Delta.copyContainers value (Replay.editPath path e) >>= fun copied =>
        Delta.applyOp copied (.edit path (e.map (·.value)).toEdit)) := by
  obtain ⟨foot, howns, hnodup⟩ := h.owns
  rw [Replay.copyAndEdit, editPath_map]
  refine (copyContainers_agree h.keeps howns hnodup (Replay.editPath path e)).bind ?_
  rintro ⟨r', root'⟩ _ ⟨rfl, hcopied⟩
  obtain ⟨foot', howns', hnodup', -⟩ := hcopied.owns
  have hstep := Heap.applyOp_agree (.edit path e) (hbrings.owns r'.heap) howns'
    (fun path' e' heq => by cases heq; exact hcopied.along)
    (by rw [show (OpOf.edit path e).payload = e.payload from rfl, hbrings.foot]; exact hnodup')
  refine (hstep.mapError_left _).bind_left ?_
  rintro ⟨heap, root''⟩ value' ⟨⟨foot'', howns'', hsub⟩, hlength, hframe⟩
  refine ⟨_, rfl, hcopied.keeps.write hlength fun a ha => hframe a fun hmem => ?_, foot'', howns'',
    ?_⟩
  · exact absurd ha (Nat.not_lt.mpr (howns'.bounds a hmem).1)
  · rw [show (OpOf.edit path e).payload = e.payload from rfl, hbrings.foot] at hsub
    exact nodup_of_subperm hsub hnodup'

/-! ### The append -/

theorem appendWalk_json (c : Container Kid) (seg : Seg) (path : Path) :
    Delta.appendWalk (seg :: path) c.json =
      if Heap.plainStep seg c.cell && c.hasOwn seg then
        ((c.child seg).map (·.value)).bind (Delta.appendWalk path)
      else none := by
  have hhas : c.json.hasOwn seg = c.hasOwn seg := by
    rw [Container.json, Json.hasOwn_ofContainer, Container.hasOwn_map]
  rw [← hhas, ← c.child_json]
  cases c <;> cases seg <;> rfl

theorem appendWalk_agree (hkeeps : r.Keeps shared) (path : Path) {foot : List ℕ}
    (h : Owns shared r.heap root value foot) :
    (r.heap.appendWalk path root = none ∧ Delta.appendWalk path value = none) ∨
      ∃ ref value' foot', r.heap.appendWalk path root = some ref ∧
        Delta.appendWalk path value = some value' ∧ Owns shared r.heap ref value' foot' := by
  induction path generalizing root value foot with
  | nil => exact .inr ⟨root, value, foot, rfl, rfl, h⟩
  | cons seg path ih =>
    by_cases href : ∃ address, root = .container address
    · obtain ⟨address, rfl⟩ := href
      obtain ⟨c, hcell, rfl, hc⟩ := h.elements hkeeps.agree
      have hwalk : r.heap.appendWalk (seg :: path) (.container address) =
          if Heap.plainStep seg c.cell && c.hasOwn seg then
            ((c.child seg).map (·.ref)).bind (r.heap.appendWalk path)
          else none := by
        rw [Heap.appendWalk, show r.heap.cell (.container address) = some c.cell from hcell,
          ← Container.hasOwn_map (·.ref) c seg, ← Container.child_map (·.ref) c seg]
        rfl
      rw [hwalk, appendWalk_json]
      split_ifs
      · cases hchild : c.child seg with
        | none => exact .inl ⟨rfl, rfl⟩
        | some kid => exact ih (hc kid (Container.child_mem hchild))
      · exact .inl ⟨rfl, rfl⟩
    · obtain ⟨hprim, -⟩ := h.prim fun address heq => href ⟨address, heq⟩
      refine .inl ⟨?_, ?_⟩
      · cases root with
        | container address => exact absurd ⟨address, rfl⟩ href
        | _ => rfl
      · cases value with
        | arr items => cases hprim
        | obj members => cases hprim
        | _ => cases seg <;> rfl

theorem modify_congr (f f' : Json → Except DeltaError Json)
    (hf : ∀ value, value.isObj = true → f value = f' value) (path rest : Path)
    (h : Delta.copyWalk path rest value = .ok ()) :
    modify path f rest value = modify path f' rest value := by
  induction rest generalizing value with
  | nil =>
    refine hf value ?_
    by_contra hprim
    rw [copyWalk_prim path [] (not_eq_true _ |>.mp hprim)] at h
    cases h
  | cons seg rest ih =>
    rw [modify, modify]
    cases hstep : Delta.step path value seg with
    | error e => rfl
    | ok next =>
      obtain ⟨-, -, -, hwalk⟩ := hasOwn_of_step hstep
      rw [hwalk] at h
      show (modify path f rest next >>= _) = (modify path f' rest next >>= _)
      rw [ih h]

theorem changesAs_write (heap : Heap) (key : Seg) (kid : Kid) :
    ChangesAs shared heap [kid] (fun cell => .ok (cell.write key kid.ref))
      (fun parent => if parent.isObj then .ok (parent.write key kid.value) else .error (.path [])) := by
  constructor
  · intro c _
    rw [if_pos (Json.isObj_json c)]
    exact ⟨c.write key kid, Container.write_map _ c key kid, (Container.json_write c key kid).symm,
      [], fun _ hmem => (by cases hmem), Container.write_elements c key kid⟩
  · intro value hprim
    exact ⟨_, if_neg (ne_of_eq_of_ne hprim false_ne_true)⟩

def Replay.ownsTarget (r : Replay) (root : Ref) (path : Path) : Bool :=
  match r.heap.appendWalk path root with
  | some (.container target) => decide (target ∈ r.owned)
  | _ => false

def Appended (shared : Heap) (w : Option (Replay × Ref)) (value : Option Json) : Prop :=
  (w = none ∧ value = none) ∨ ∃ w' value', w = some w' ∧ value = some value' ∧
    Replayed shared w' value'

/-- What putting the appended array makes of the value. -/
def putValue (root : Json) (path : Path) (appended : Json) : Except DeltaError Json :=
  match path.getLast? with
  | none => .ok appended
  | some key => do
    let copiedRoot ← Delta.copyContainers root path.dropLast
    modify path.dropLast (fun parent => .ok (parent.write key appended)) path.dropLast copiedRoot

theorem putAppended_agree {r₁ : Replay} (hkeeps : r₁.Keeps shared) {foot : List ℕ}
    (h : Owns shared r₁.heap root value foot) (hnodup : foot.Nodup) (kid : Kid) {address : ℕ}
    (hkid : Owns shared r₁.heap kid.ref kid.value kid.foot) (hfoot : kid.foot = [address])
    (haddress : address < r₁.heap.length) (hnot : address ∉ foot) (path : Path) :
    Agree (Replayed shared) (r₁.putAppended root path kid.ref) (putValue value path kid.value) := by
  rw [Replay.putAppended, putValue]
  cases path.getLast? with
  | none => exact ⟨hkeeps, kid.foot, hkid, by rw [hfoot]; exact nodup_singleton _⟩
  | some key =>
    refine (copyContainers_agree hkeeps h hnodup path.dropLast).bind_of_eq ?_
    rintro ⟨r', root'⟩ copied - hjson ⟨rfl, hcopied⟩
    have hwalk : Delta.copyWalk path.dropLast path.dropLast copied = .ok () := by
      obtain ⟨_, hwalk, -⟩ := Except.bind_eq_ok hjson
      exact hwalk
    obtain ⟨foot', howns, hnodup', hbounds⟩ := hcopied.owns
    have hpayload : ∀ k ∈ [kid], Owns shared r'.heap k.ref k.value k.foot := by
      intro k hmem
      rw [mem_singleton.mp hmem]
      refine hkid.frame fun a ha => ?_
      rw [hfoot, mem_singleton] at ha
      rw [ha]
      exact hcopied.frame address haddress hnot
    have hapart : ([kid].flatMap (·.foot) ++ foot').Nodup := by
      rw [flatMap_singleton, hfoot]
      refine nodup_cons.mpr ⟨fun hmem => ?_, hnodup'⟩
      obtain hin | hge := hbounds address hmem
      · exact hnot hin
      · omega
    have hput := resolve_update (changesAs_write r'.heap key kid) hpayload path.dropLast
      path.dropLast howns hcopied.along hapart
    rw [modify_congr _ (fun parent => .ok (parent.write key kid.value))
      (fun value hobj => if_pos hobj) path.dropLast path.dropLast hwalk] at hput
    refine (hput.mapError_left _).bind_left fun heap' value' hwrote => ⟨_, rfl, ?_, ?_⟩
    · refine hcopied.keeps.write hwrote.length fun a ha => hwrote.frame a fun hmem => ?_
      exact absurd ha (Nat.not_lt.mpr (howns.bounds a hmem).1)
    · obtain ⟨foot'', howns'', hsub⟩ := hwrote.owns
      exact ⟨foot'', howns'', nodup_of_subperm hsub hapart⟩

theorem concat_agree (h : Replayed shared (r, root) value) {elements items : List Kid}
    (hfoot : (Container.arr elements).foot = [])
    (helements : ∀ kid ∈ elements, ∀ heap, Owns shared heap kid.ref kid.value kid.foot)
    (hbrings : Brings shared items) (path : Path) :
    Agree (Replayed shared)
      ((r.own (.arr (elements.map (·.ref) ++ items.map (·.ref)))).putAppended root path
        (.container r.heap.length))
      (putValue value path (.arr (elements.map (·.value) ++ items.map (·.value)))) := by
  obtain ⟨foot, howns, hnodup⟩ := h.owns
  rw [← map_append, ← map_append]
  have hnil : (Container.arr (elements ++ items)).foot = [] := by
    have hnil' := hbrings.foot
    rw [Container.foot] at hfoot ⊢
    show (elements ++ items).flatMap (·.foot) = []
    rw [flatMap_append, hnil', append_nil]
    exact hfoot
  have hnew := Owns.of_copy h.keeps hnil (fun kid hmem heap => (mem_append.mp hmem).elim
      (fun hmem => helements kid hmem heap) fun hmem => hbrings.owns heap kid hmem)
    (r.own_here (Container.arr (elements ++ items)).cell)
  have hlength : (r.own (Container.arr (elements ++ items)).cell).heap.length =
      r.heap.length + 1 := length_append
  refine putAppended_agree (h.keeps.own _)
    (howns.frame fun a ha => Replay.own_before (howns.bounds a ha).2 _) hnodup
    ⟨.container r.heap.length, _, [r.heap.length]⟩ hnew rfl ?_ (fun hmem => ?_) path
  · exact hlength.ge.trans_lt' (lt_add_one _)
  · exact absurd (howns.bounds _ hmem).2 (lt_irrefl _)

theorem appendCopy_agree (h : Replayed shared (r, root) value) (path : Path) (index remove : ℕ)
    {items : List Kid} (hbrings : Brings shared items) :
    Agree (Appended shared) (r.appendCopy root path index remove (items.map (·.ref)))
      (Delta.appendCopy (r.ownsTarget root path) value path index remove (items.map (·.value))) := by
  obtain ⟨foot, howns, hnodup⟩ := h.owns
  unfold Replay.appendCopy Delta.appendCopy
  by_cases hremove : remove ≠ 0
  · rw [if_pos hremove, if_pos hremove]
    exact .inl ⟨rfl, rfl⟩
  · rw [if_neg hremove, if_neg hremove]
    obtain ⟨hwalk, hwalk'⟩ | ⟨ref, target, tfoot, hwalk, hwalk', htarget⟩ :=
      appendWalk_agree h.keeps path howns
    · rw [hwalk, hwalk']
      exact .inl ⟨rfl, rfl⟩
    · rw [hwalk, hwalk', Replay.ownsTarget, hwalk]
      by_cases href : ∃ address, ref = .container address
      · obtain ⟨address, rfl⟩ := href
        dsimp only
        by_cases howned : address ∈ r.owned
        · obtain ⟨c, hcell, rfl, -⟩ := htarget.elements h.keeps.agree
          rw [hcell]
          cases c with
          | obj members => exact .inl ⟨rfl, rfl⟩
          | arr elements =>
            dsimp only [Container.cell, Container.map, Container.json, Json.ofContainer]
            rw [if_pos (.inl howned), if_pos (.inl (decide_eq_true howned))]
            exact .inl ⟨rfl, rfl⟩
        · obtain ⟨c, hcell, rfl, -, hfoot, hc⟩ := htarget.of_not_owned h.keeps howned
          rw [hcell]
          cases c with
          | obj members => exact .inl ⟨rfl, rfl⟩
          | arr elements =>
            dsimp only [Container.cell, Container.map, Container.json, Json.ofContainer]
            rw [length_map, length_map]
            by_cases hindex : index ≠ elements.length
            · rw [if_pos (.inr hindex), if_pos (.inr hindex)]
              exact .inl ⟨rfl, rfl⟩
            · rw [if_neg (not_or.mpr ⟨howned, hindex⟩),
                if_neg (not_or.mpr ⟨fun h => howned (of_decide_eq_true h), hindex⟩)]
              have hconcat := concat_agree h hfoot hc hbrings path
              refine Agree.trans_eq (hconcat.map fun w value' hreplayed =>
                .inr ⟨w, value', rfl, rfl, hreplayed⟩) ?_
              rw [putValue]
              cases path.getLast? with
              | none => rfl
              | some key =>
                show Agree Eq _ (Delta.copyContainers value path.dropLast >>= _)
                cases Delta.copyContainers value path.dropLast with
                | error e => trivial
                | ok copied =>
                  show Agree Eq (Except.map some (modify path.dropLast _ path.dropLast copied))
                    (modify path.dropLast _ path.dropLast copied >>= _)
                  cases modify path.dropLast (fun parent => .ok (parent.write key
                      (.arr (elements.map (·.value) ++ items.map (·.value))))) path.dropLast
                      copied with
                  | error e => trivial
                  | ok appended => rfl
      · obtain ⟨hprim, -⟩ := htarget.prim fun address heq => href ⟨address, heq⟩
        have hnone : Appended shared none none := .inl ⟨rfl, rfl⟩
        cases target with
        | arr items => cases hprim
        | obj members => cases hprim
        | _ =>
          cases ref with
          | container address => exact absurd ⟨address, rfl⟩ href
          | _ => exact hnone

/-! ### Operations -/

theorem applyOpImmutable_agree (owned : Bool) (value : Json) (op : Op) :
    Agree Eq (applyOpImmutable owned value op) (Delta.applyOp value op) := by
  cases happly : Delta.applyOp value op with
  | ok next =>
    rw [applyOpImmutable_of_applyOp happly]
    rfl
  | error e =>
    cases himmutable : applyOpImmutable owned value op with
    | error e' => trivial
    | ok next =>
      rw [applyOp_of_applyOpImmutable himmutable] at happly
      cases happly

theorem applyOps_singleton (value : Json) (op : Op) :
    Delta.applyOps value [op] = Delta.applyOp value op := by
  rw [Delta.applyOps, foldlM_cons]
  cases Delta.applyOp value op <;> rfl

theorem Replay.applyOp_agree (h : Replayed shared (r, root) value) {op : OpOf Kid}
    (hbrings : Brings shared op.payload) :
    Agree (Replayed shared) (r.applyOp root op.refs) (Delta.applyOp value op.values) := by
  cases op with
  | replace kid =>
    obtain ⟨hdenotes, -⟩ := hbrings kid mem_cons_self
    exact ⟨h.keeps, [], .shared hdenotes, nodup_nil⟩
  | edit path e =>
    refine Agree.trans_eq ?_ (applyOpImmutable_agree (r.ownsTarget root path) value _)
    have hcopied := @copyAndEdit_agree _ _ _ _ h path e hbrings
    have hgeneral : Agree (Replayed shared) (r.copyAndEdit root path (e.map (·.ref)))
        (Delta.copyContainers value (Replay.editPath path e) >>= fun copied =>
          Delta.applyOps copied [.edit path (e.map (·.value)).toEdit]) := by
      simp only [applyOps_singleton]
      exact hcopied
    unfold Replay.applyOp applyOpImmutable
    rw [OpOf.assertValid_refs]
    cases hvalid : assertValidOp (OpOf.edit path e).values with
    | error error => trivial
    | ok _ =>
      cases e with
      | splice index remove items =>
        refine (appendCopy_agree h path index remove hbrings).bind ?_
        rintro _ _ (⟨rfl, rfl⟩ | ⟨w, value', rfl, rfl, hreplayed⟩)
        · exact hgeneral
        · exact hreplayed
      | _ => exact hgeneral

variable {w : Replay × Ref}

theorem Replay.applyOps_agree {ops : List (OpOf Kid)}
    (hbrings : ∀ op ∈ ops, Brings shared op.payload) (h : Replayed shared w value) :
    Agree (Replayed shared) ((ops.map (·.refs)).foldlM (fun w op => w.1.applyOp w.2 op) w)
      (Delta.applyOps value (ops.map (·.values))) := by
  induction ops generalizing w value with
  | nil => exact h
  | cons op ops ih =>
    rw [map_cons, map_cons, Delta.applyOps, foldlM_cons, foldlM_cons]
    refine (Replay.applyOp_agree h (hbrings op mem_cons_self)).bind fun w' value' h' => ?_
    exact ih (fun op' hmem => hbrings op' (mem_cons_of_mem _ hmem)) h'

theorem foldlM_flatten {α β ε : Type} (f : β → α → Except ε β) (batches : List (List α)) (w : β) :
    batches.flatten.foldlM f w = batches.foldlM (fun w ops => ops.foldlM f w) w := by
  induction batches generalizing w with
  | nil => rfl
  | cons ops batches ih =>
    rw [flatten_cons, foldlM_append, foldlM_cons]
    exact bind_congr ih

theorem applyBatches_agree {batches : List (List (OpOf Kid))}
    (hbrings : ∀ ops ∈ batches, ∀ op ∈ ops, Brings shared op.payload)
    (h : Replayed shared w value) :
    Agree (Replayed shared)
      ((batches.map fun ops => ops.map (·.refs)).foldlM
        (fun w ops => ops.foldlM (fun w op => w.1.applyOp w.2 op) w) w)
      (Delta.applyOps value ((batches.map fun ops => ops.map (·.values)).flatten)) := by
  rw [← foldlM_flatten, ← map_flatten, ← map_flatten]
  refine Replay.applyOps_agree (fun op hop => ?_) h
  obtain ⟨ops, hops, hop⟩ := mem_flatten.mp hop
  exact hbrings ops hops op hop

end

/-! ### Failures -/

def Leaves (shared : Heap) {α : Type} (x : Except Thrown α) : Prop :=
  ∀ thrown, x = .error thrown → ∀ a < shared.length, thrown.heap[a]? = shared[a]?

section

variable {shared : Heap} {r : Replay} {α β : Type}

/-- It leaves the earlier heap where it throws, and else has a result as told. -/
structure Keeping (shared : Heap) (P : α → Prop) (x : Except Thrown α) : Prop where
  leaves : Leaves shared x
  result : ∀ a, x = .ok a → P a

namespace Keeping

variable {P : α → Prop} {Q : β → Prop}

theorem of_ok {a : α} (ha : P a) : Keeping shared P (.ok a) where
  leaves _ h := by cases h
  result b h := by
    cases h
    exact ha

theorem bind {x : Except Thrown α} {f : α → Except Thrown β} (h : Keeping shared P x)
    (hf : ∀ a, x = .ok a → P a → Keeping shared Q (f a)) : Keeping shared Q (x >>= f) := by
  cases x with
  | error thrown =>
    refine ⟨fun thrown' heq => ?_, fun _ heq => by cases heq⟩
    cases heq
    exact h.leaves thrown rfl
  | ok a => exact hf a rfl (h.result a rfl)

theorem of_error (h : r.Keeps shared) (error : DeltaError) :
    Keeping shared P (.error ⟨error, r.heap⟩) := by
  refine ⟨?_, fun _ heq => by cases heq⟩
  rintro _ ⟨⟩
  exact h.agree

theorem attempt (h : r.Keeps shared) (outcome : Except DeltaError α) :
    Keeping shared (fun _ => True) (r.attempt outcome) := by
  cases outcome with
  | error error => exact of_error h error
  | ok a => exact of_ok trivial

end Keeping

theorem copyChild_keeps (h : r.Keeps shared) (path : Path) {destination : ℕ}
    (hle : shared.length ≤ destination) (cell : Cell) (seg : Seg) (child : Ref) :
    Keeping shared (fun w => w.1.Keeps shared ∧ shared.length ≤ w.2)
      (Replay.copyChild path r destination cell seg child) := by
  cases child with
  | container address =>
    rw [Replay.copyChild]
    by_cases howned : address ∈ r.owned
    · rw [if_pos howned]
      exact .of_ok ⟨h, ((h.owned address).mp howned).1⟩
    · rw [if_neg howned]
      cases r.heap[address]? with
      | none => exact .of_error h _
      | some copied =>
        refine .of_ok ⟨(h.own copied).write length_set fun a ha => ?_, h.length⟩
        exact getElem?_set_ne fun heq : destination = a => by omega
  | _ => exact .of_error h _

theorem copyWalk_keeps (h : r.Keeps shared) (path rest : Path) {destination : ℕ}
    (hle : shared.length ≤ destination) :
    Keeping shared (·.Keeps shared) (Replay.copyWalk path rest r destination) := by
  induction rest generalizing r destination with
  | nil => exact .of_ok h
  | cons seg rest ih =>
    rw [Replay.copyWalk]
    cases r.heap[destination]? with
    | none => exact .of_error h _
    | some cell =>
      refine (Keeping.attempt h _).bind fun child _ _ => ?_
      exact (copyChild_keeps h path hle cell seg child).bind fun w _ hw => ih hw.1 hw.2

theorem copyContainers_keeps (h : r.Keeps shared) (root : Ref) (path : Path) :
    Keeping shared (·.1.Keeps shared) (r.copyContainers root path) := by
  cases root with
  | container address =>
    rw [Replay.copyContainers]
    by_cases howned : address ∈ r.owned
    · rw [if_pos howned]
      exact (copyWalk_keeps h path path ((h.owned address).mp howned).1).bind fun _ _ h' => .of_ok h'
    · rw [if_neg howned]
      cases r.heap[address]? with
      | none => exact .of_error h _
      | some cell =>
        exact (copyWalk_keeps (h.own cell) path path h.length).bind fun _ _ h' => .of_ok h'
  | _ => exact .of_error h _

theorem putAppended_leaves (h : r.Keeps shared) (root : Ref) (path : Path) (appended : Ref) :
    Keeping shared (fun _ => True) (r.putAppended root path appended) := by
  rw [Replay.putAppended]
  cases path.getLast? with
  | none => exact .of_ok trivial
  | some key =>
    refine (copyContainers_keeps h root path.dropLast).bind fun w _ h' => ?_
    exact (Keeping.attempt h' _).bind fun _ _ _ => .of_ok trivial

theorem appendCopy_leaves (h : r.Keeps shared) (root : Ref) (path : Path) (index remove : ℕ)
    (items : List Ref) :
    Keeping shared (fun _ => True) (r.appendCopy root path index remove items) := by
  unfold Replay.appendCopy
  split_ifs
  · exact .of_ok trivial
  · cases r.heap.appendWalk path root with
    | none => exact .of_ok trivial
    | some target =>
      cases target with
      | container address =>
        dsimp only
        cases r.heap[address]? with
        | none => exact .of_ok trivial
        | some cell =>
          cases cell with
          | obj members => exact .of_ok trivial
          | arr elements =>
            dsimp only
            split_ifs
            · exact .of_ok trivial
            · exact (putAppended_leaves (h.own (.arr (elements ++ items))) root path
                (.container r.heap.length)).bind (f := fun w => .ok (some w))
                fun _ _ _ => .of_ok trivial
      | _ => exact .of_ok trivial

theorem copyAndEdit_leaves (h : r.Keeps shared) (root : Ref) (path : Path) (edit : EditOf Ref) :
    Keeping shared (fun _ => True) (r.copyAndEdit root path edit) := by
  refine (copyContainers_keeps h root (Replay.editPath path edit)).bind fun w _ h' => ?_
  exact (Keeping.attempt h' _).bind fun _ _ _ => .of_ok trivial

theorem Replay.applyOp_leaves (h : r.Keeps shared) (root : Ref) (op : OpOf Ref) :
    Keeping shared (fun _ => True) (r.applyOp root op) := by
  refine (Keeping.attempt h _).bind fun _ _ _ => ?_
  cases op with
  | replace value => exact .of_ok trivial
  | edit path e =>
    cases e with
    | splice index remove items =>
      refine (appendCopy_leaves h root path index remove items).bind fun appended _ _ => ?_
      cases appended with
      | some w => exact .of_ok trivial
      | none => exact copyAndEdit_leaves h root path _
    | _ => exact copyAndEdit_leaves h root path _

end

section

variable {shared : Heap}

theorem applyOps_leaves {ops : List (OpOf Kid)} (hbrings : ∀ op ∈ ops, Brings shared op.payload)
    {w : Replay × Ref} {value : Json} (h : Replayed shared w value) :
    Keeping shared (fun w' => ∃ value', Replayed shared w' value')
      ((ops.map (·.refs)).foldlM (fun w op => w.1.applyOp w.2 op) w) := by
  induction ops generalizing w value with
  | nil => exact .of_ok ⟨value, h⟩
  | cons op ops ih =>
    rw [map_cons, foldlM_cons]
    refine (Replay.applyOp_leaves h.keeps w.2 op.refs).bind fun w' hw' _ => ?_
    obtain ⟨value', -, h'⟩ := (Replay.applyOp_agree h (hbrings op mem_cons_self)).ok_left hw'
    exact ih (fun op' hmem => hbrings op' (mem_cons_of_mem _ hmem)) h'

theorem applyBatches_leaves {batches : List (List (OpOf Kid))}
    (hbrings : ∀ ops ∈ batches, ∀ op ∈ ops, Brings shared op.payload) {w : Replay × Ref}
    {value : Json} (h : Replayed shared w value) :
    Leaves shared ((batches.map fun ops => ops.map (·.refs)).foldlM
      (fun w ops => ops.foldlM (fun w op => w.1.applyOp w.2 op) w) w) := by
  rw [← foldlM_flatten, ← map_flatten]
  refine (applyOps_leaves (fun op hop => ?_) h).leaves
  obtain ⟨ops, hops, hop⟩ := mem_flatten.mp hop
  exact hbrings ops hops op hop

end

theorem replayed_start {heap : Heap} {root : Ref} {value : Json} (h : Denotes heap root value) :
    Replayed heap (⟨heap, []⟩, root) value where
  keeps := ⟨le_rfl, fun _ _ => rfl, fun a => ⟨fun hmem => (by cases hmem), fun hand =>
    absurd hand.2 (Nat.not_lt.mpr hand.1)⟩⟩
  owns := ⟨[], .shared h, nodup_nil⟩

end KnightCode.Delta
