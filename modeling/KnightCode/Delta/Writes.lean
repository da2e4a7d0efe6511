import KnightCode.Delta.Heap

/-!
# Where an applied operation writes

`apply` walks own members and writes to the container it comes to. Every walk and every write is at
a location in format, so whatever stands outside the value, its prototypes first of all, is as it
was.
-/

namespace KnightCode.Delta

open List Except

namespace Container

/-- An element of an array up to its length, or a member of an object by a name that reaches no
prototype. -/
def InFormat {α : Type} : Container α → Seg → Prop
  | .arr items, .idx index => index ≤ items.length
  | .arr _, .key _ => False
  | .obj _, seg => seg.name ∉ RESERVED_SEGMENTS

end Container

namespace Heap

variable {heap heap' : Heap} {root root' : Ref} {address : ℕ} {path : Path} {edit : EditOf Ref}

/-- The containers that own members in format lead to. -/
inductive Reaches (heap : Heap) : Ref → ℕ → Prop
  | self (address : ℕ) : Reaches heap (.container address) address
  | member {address target : ℕ} {cell : Cell} {key : Seg} {child : Ref}
      (hcell : heap[address]? = some cell) (hkey : cell.InFormat key)
      (hchild : cell.child key = some child) (hreach : Reaches heap child target) :
      Reaches heap (.container address) target

/-- A write below a root. -/
inductive Writes (heap : Heap) (root : Ref) : Heap → Prop
  | define {address : ℕ} {cell : Cell} {key : Seg} (hreach : heap.Reaches root address)
      (hcell : heap[address]? = some cell) (hkey : cell.InFormat key) (value : Ref) :
      Writes heap root (heap.set address (cell.write key value))
  | remove {address : ℕ} {members : List (Text × Ref)} {key : Seg}
      (hreach : heap.Reaches root address) (hcell : heap[address]? = some (.obj members))
      (hkey : key.name ∉ RESERVED_SEGMENTS) :
      Writes heap root (heap.set address (.obj (Assoc.erase key.name members)))
  | items {address : ℕ} {items : List Ref} (hreach : heap.Reaches root address)
      (hcell : heap[address]? = some (.arr items)) (items' : List Ref) :
      Writes heap root (heap.set address (.arr items'))

/-- Writes one after another, the root replaced between them. -/
inductive Written (heap : Heap) (root : Ref) : Heap → Ref → Prop
  | refl : Written heap root heap root
  | replace {heap' : Heap} {root' : Ref} (h : Written heap root heap' root') (value : Ref) :
      Written heap root heap' value
  | write {heap' heap'' : Heap} {root' : Ref} (h : Written heap root heap' root')
      (hwrite : heap'.Writes root' heap'') : Written heap root heap'' root'

theorem name_not_reserved (index : ℕ) : (Seg.idx index).name ∉ RESERVED_SEGMENTS := by
  intro hmem
  have hnondigit : ∀ name ∈ RESERVED_SEGMENTS, ∃ unit ∈ name, JsonText.isDigit unit = false := by
    decide
  obtain ⟨unit, hunit, hnot⟩ := hnondigit _ hmem
  rw [JsonText.isDigit_of_mem_decimal hunit] at hnot
  cases hnot

theorem name_safe {seg : Seg} (hpath : SafePath path) (hseg : seg ∈ path) :
    seg.name ∉ RESERVED_SEGMENTS := by
  cases seg with
  | key name => exact hpath name hseg
  | idx index => exact name_not_reserved index

theorem step_reaches {node value : Ref} {seg : Seg} {target : ℕ}
    (hseg : seg.name ∉ RESERVED_SEGMENTS) (h : heap.step path node seg = .ok value)
    (hreach : heap.Reaches value target) : heap.Reaches node target := by
  cases node with
  | container address =>
    rw [step, cell] at h
    cases hcell : heap[address]? with
    | none =>
      rw [hcell] at h
      cases h
    | some found =>
      rw [hcell] at h
      cases found with
      | arr items =>
        cases seg with
        | key name => cases h
        | idx index =>
          dsimp only [Container.child] at h
          cases hitem : items[index]? with
          | none =>
            rw [hitem] at h
            cases h
          | some item =>
            rw [hitem] at h
            cases h
            have hformat : Container.InFormat (.arr items) (.idx index) :=
              (List.getElem?_eq_some_iff.mp hitem).1.le
            exact .member hcell hformat hitem hreach
      | obj members =>
        dsimp only [Container.child] at h
        cases hmember : Assoc.get seg.name members with
        | none =>
          rw [hmember] at h
          cases h
        | some member =>
          rw [hmember] at h
          cases h
          have hformat : Container.InFormat (.obj members) seg := hseg
          exact .member hcell hformat hmember hreach
  | _ => cases h

theorem resolve_reaches {rest : Path} {node : Ref} (hrest : SafePath rest)
    (h : heap.resolve path rest node = .ok address) : heap.Reaches node address := by
  induction rest generalizing node with
  | nil =>
    cases node with
    | container address =>
      cases h
      exact .self _
    | _ => cases h
  | cons seg rest ih =>
    obtain ⟨value, hstep, h⟩ := bind_eq_ok h
    exact step_reaches (name_safe hrest mem_cons_self) hstep
      (ih (fun name hmem => hrest name (mem_cons_of_mem _ hmem)) h)

theorem update_ok {f : Cell → Except DeltaError Cell} (h : heap.update address f = .ok heap') :
    ∃ cell cell', heap[address]? = some cell ∧ f cell = .ok cell' ∧ heap' = heap.set address cell' := by
  rw [update] at h
  cases hcell : heap[address]? with
  | none =>
    rw [hcell] at h
    cases h
  | some cell =>
    rw [hcell] at h
    obtain ⟨cell', hcell', rfl⟩ := map_eq_ok h
    exact ⟨cell, cell', rfl, hcell', rfl⟩

theorem onMember_writes {cell cell' : Cell} {key : Seg} (hreach : heap.Reaches root address)
    (hcell : heap[address]? = some cell) (hkey : key.name ∉ RESERVED_SEGMENTS)
    (hmember : cell.assertMember key = .ok ()) (h : edit.onMember path key cell = .ok cell') :
    heap.Writes root (heap.set address cell') := by
  have hformat : cell.InFormat key := by
    cases cell with
    | obj members => exact hkey
    | arr items =>
      cases key with
      | key name => cases hmember
      | idx index =>
        rw [Container.assertMember] at hmember
        split_ifs at hmember with hlt
        exact not_lt.mp hlt
  cases edit with
  | set value =>
    cases h
    exact .define hreach hcell hformat value
  | delete =>
    cases cell with
    | obj members =>
      cases h
      exact .remove hreach hcell hkey
    | arr items =>
      cases key with
      | key name => cases h
      | idx index =>
        dsimp only [EditOf.onMember] at h
        split_ifs at h
        cases h
        exact .items hreach hcell _
  | append text | truncate count =>
    dsimp only [EditOf.onMember] at h
    split at h
    · cases h
      exact .define hreach hcell hformat _
    · cases h
  | splice index remove items => cases h
  | permute permutation => cases h

theorem applyEdit_writes (hpath : SafePath path) (h : heap.applyEdit path edit root = .ok heap') :
    heap.Writes root heap' := by
  rw [applyEdit] at h
  split_ifs at h with hroot
  · obtain ⟨target, hresolve, h⟩ := bind_eq_ok h
    obtain ⟨cell, cell', hcell, hedit, rfl⟩ := update_ok h
    have hreach := resolve_reaches hpath hresolve
    cases cell with
    | obj members => cases hedit
    | arr items =>
      cases edit with
      | splice index remove inserted =>
        cases hedit
        exact .items hreach hcell _
      | permute permutation =>
        dsimp only [EditOf.onTarget] at hedit
        split_ifs at hedit
        cases hedit
        exact .items hreach hcell _
      | _ => cases hroot
  · cases hlast : path.getLast? with
    | none =>
      rw [hlast] at h
      cases h
    | some key =>
      rw [hlast] at h
      obtain ⟨parent, hresolve, h⟩ := bind_eq_ok h
      obtain ⟨cell, cell', hcell, hedit, rfl⟩ := update_ok h
      obtain ⟨_, hmember, hedit⟩ := bind_eq_ok hedit
      have hparent : SafePath path.dropLast := fun name hmem => hpath name (mem_of_mem_dropLast hmem)
      exact onMember_writes (resolve_reaches hparent hresolve) hcell
        (name_safe hpath (mem_of_getLast? hlast)) hmember hedit

/-- Whatever operations are applied, `apply` writes at locations in format alone. -/
theorem applyOps_written {ops : List (OpOf Ref)}
    (h : heap.applyOps root ops = .ok (heap', root')) : heap.Written root heap' root' := by
  have hrun : ∀ now : Heap × Ref, heap.Written root now.1 now.2 →
      ops.foldlM (fun w op => applyOp w.1 w.2 op) now = .ok (heap', root') →
      heap.Written root heap' root' := by
    clear h
    induction ops with
    | nil =>
      intro now hnow h
      cases h
      exact hnow
    | cons op ops ih =>
      intro now hnow h
      rw [foldlM_cons] at h
      obtain ⟨next, hop, h⟩ := bind_eq_ok h
      obtain ⟨_, hvalid, hop⟩ := bind_eq_ok hop
      refine ih next ?_ h
      cases op with
      | replace value =>
        cases hop
        exact hnow.replace value
      | edit path edit =>
        obtain ⟨after, hedit, hop⟩ := bind_eq_ok hop
        cases hop
        exact hnow.write (applyEdit_writes (assertValidOp_ok.mp hvalid).safe hedit)
  exact hrun (heap, root) .refl h

end Heap

end KnightCode.Delta
