import KnightCode.Delta.Apply

/-!
# Canonical walks

A walk is canonical when its names go into objects and its indices into arrays. A leaf operation
writes a primitive at the end of its path: `Json.writeAt` is what it makes of a value, or of an
absent member. Such writes at different paths commute, unless one of them turns an ancestor of the
other into a primitive, and then the other can no longer be made.
-/

namespace KnightCode.Delta

open List Option
variable {path : Path} {next : Json}

namespace Json
variable {node child next : Json} {seg : Seg} {f : Option Json → Option Json} {path : Path}
  {root : Option Json}

/-- Neither an array nor an object. -/
def isPrimitive : Json → Bool
  | .arr _ => false
  | .obj _ => false
  | _ => true

/-- The own member at a canonical segment. -/
def member : Json → Seg → Option Json
  | .arr items, .idx index => items[index]?
  | .obj members, .key name => Assoc.get name members
  | _, _ => none

/-- A member may be written at this canonical segment. -/
def takes : Json → Seg → Bool
  | .arr items, .idx index => decide (index ≤ items.length)
  | .obj _, .key _ => true
  | _, _ => false

theorem takes_of_member (h : node.member seg = some child) : node.takes seg = true := by
  cases node <;> cases seg <;> simp only [member, reduceCtorEq] at h
  · obtain ⟨hlt, -⟩ := List.getElem?_eq_some_iff.mp h
    exact decide_eq_true (Nat.le_of_lt hlt)
  · rfl

theorem takes_primitive (h : node.isPrimitive = true) (seg : Seg) : node.takes seg = false := by
  cases node <;> cases seg <;> first | rfl | cases h

theorem member_write_self (h : node.takes seg = true) (value : Json) :
    (node.write seg value).member seg = some value := by
  cases node <;> cases seg <;> simp only [takes, Bool.false_eq_true, decide_eq_true_eq] at h
  · rename_i items index
    by_cases hlt : index < items.length
    · simp [write, member, hlt]
    · have heq : index = items.length := by omega
      simp [write, member, heq]
  · simp [write, member, Seg.name]

variable {seg' : Seg} {g : Option Json → Option Json}

theorem member_write_ne (hne : seg ≠ seg') (h : node.member seg = some child)
    (htakes : node.takes seg' = true) (value : Json) :
    (node.write seg' value).member seg = some child := by
  cases node <;> cases seg <;> simp only [member, reduceCtorEq] at h <;> cases seg' <;>
    simp only [takes, Bool.false_eq_true, decide_eq_true_eq] at htakes
  · rename_i items index index'
    obtain ⟨hlt, -⟩ := List.getElem?_eq_some_iff.mp h
    have hindex : index' ≠ index := fun he => hne (congrArg Seg.idx he.symm)
    by_cases hlt' : index' < items.length
    · simp [write, member, hlt', hindex, h]
    · simp only [write, member, if_neg hlt', getElem?_append_left hlt, h]
  · rename_i members name name'
    have hname : name' ≠ name := fun he => hne (congrArg Seg.key he.symm)
    simp only [write, member, Seg.name]
    rw [Assoc.get_set_ne hname, h]

theorem member_write_present (hne : seg ≠ seg') (h : node.member seg = some child) (value : Json) :
    (node.write seg value).member seg' = node.member seg' := by
  cases node <;> cases seg <;> simp only [member, reduceCtorEq] at h
  · rename_i items index
    obtain ⟨hlt, -⟩ := List.getElem?_eq_some_iff.mp h
    cases seg' with
    | key name' => simp [write, member, hlt]
    | idx index' =>
      have hindex : index ≠ index' := fun he => hne (congrArg Seg.idx he)
      simp [write, member, hlt, hindex]
  · rename_i members name
    cases seg' with
    | key name' =>
      have hname : name ≠ name' := fun he => hne (congrArg Seg.key he)
      exact Assoc.get_set_ne hname _ _
    | idx index' => rfl

theorem takes_write (h : node.takes seg = true) (htakes : node.takes seg' = true) (value : Json) :
    (node.write seg' value).takes seg = true := by
  cases node <;> cases seg <;> simp only [takes, Bool.false_eq_true, decide_eq_true_eq] at h <;>
    cases seg' <;> simp only [takes, Bool.false_eq_true, decide_eq_true_eq] at htakes
  · rename_i items index index'
    by_cases hlt' : index' < items.length
    · simp [write, takes, hlt', h]
    · simp only [write, takes, hlt', if_false, length_append, decide_eq_true_eq]
      omega
  · rfl

theorem write_write (h : node.takes seg = true) (value value' : Json) :
    (node.write seg value).write seg value' = node.write seg value' := by
  cases node <;> cases seg <;> simp only [takes, Bool.false_eq_true, decide_eq_true_eq] at h
  · rename_i items index
    by_cases hlt : index < items.length
    · simp [write, hlt]
    · have heq : index = items.length := by omega
      simp [write, heq]
  · simp [write, Assoc.set_set]

theorem write_comm (hne : seg ≠ seg') (h : node.member seg = some child)
    (htakes : node.takes seg' = true) (value value' : Json) :
    (node.write seg value).write seg' value' = (node.write seg' value').write seg value := by
  cases node <;> cases seg <;> simp only [member, reduceCtorEq] at h <;> cases seg' <;>
    simp only [takes, Bool.false_eq_true, decide_eq_true_eq] at htakes
  · rename_i items index index'
    obtain ⟨hlt, -⟩ := List.getElem?_eq_some_iff.mp h
    have hindex : index ≠ index' := fun he => hne (congrArg Seg.idx he)
    by_cases hlt' : index' < items.length
    · simp [write, hlt, hlt', set_comm _ _ hindex]
    · have hlast : index < items.length + 1 := Nat.lt_succ_of_lt hlt
      simp [write, hlt, hlt', hlast, set_append_left _ _ hlt]
  · rename_i members name name'
    have hname : name ≠ name' := fun he => hne (congrArg Seg.key he)
    simp only [write, Seg.name]
    rw [Assoc.set_comm hname _ _ _ h]

/-- The node at the end of a canonical walk. -/
def lookup : Path → Option Json → Option Json
  | [], root => root
  | seg :: path, root => lookup path (root.bind fun node => node.member seg)

/-- Write at the end of a canonical walk, given what is there. -/
def writeAt (f : Option Json → Option Json) : Path → Option Json → Option Json
  | [], root => f root
  | _ :: _, none => none
  | seg :: path, some node =>
    if node.takes seg then (writeAt f path (node.member seg)).map (node.write seg) else none

/-- Some proper ancestor of the end of the walk is a primitive. -/
def Blocked : Path → Option Json → Prop
  | [], _ => False
  | _ :: _, none => False
  | seg :: path, some node => node.isPrimitive = true ∨ Blocked path (node.member seg)

def LeafWrite (f : Option Json → Option Json) : Prop :=
  ∀ root value, f root = some value → value.isPrimitive = true

theorem lookup_none (path : Path) : lookup path none = none := by
  induction path with
  | nil => rfl
  | cons seg path ih => exact ih

theorem writeAt_cons :
    writeAt f (seg :: path) (some node) = some next ↔
      node.takes seg = true ∧
        ∃ child, writeAt f path (node.member seg) = some child ∧ node.write seg child = next := by
  simp [writeAt]

theorem lookup_cons_write (h : node.takes seg = true) :
    lookup (seg :: path) (some (node.write seg child)) = lookup path (some child) := by
  simp only [lookup, bind_some]
  rw [member_write_self h]

theorem writeAt_writeAt (h : writeAt f path root = some next) :
    writeAt g path (some next) =
      writeAt (fun node => (f node).bind fun value => g (some value)) path root := by
  induction path generalizing root next with
  | nil =>
    have hf : f root = some next := h
    simp [writeAt, hf]
  | cons seg path ih =>
    cases root with
    | none => cases h
    | some node =>
      obtain ⟨htakes, child, hchild, rfl⟩ := writeAt_cons.mp h
      simp only [writeAt, htakes, takes_write htakes htakes, if_true, member_write_self htakes]
      rw [ih hchild]
      congr 1
      exact funext fun value => write_write htakes child value

theorem exists_of_writeAt (h : writeAt f path root = some next) :
    ∃ value, f (lookup path root) = some value ∧ lookup path (some next) = some value := by
  induction path generalizing root next with
  | nil => exact ⟨next, h, rfl⟩
  | cons seg path ih =>
    cases root with
    | none => cases h
    | some node =>
      obtain ⟨htakes, child, hchild, rfl⟩ := writeAt_cons.mp h
      obtain ⟨value, hvalue, hnext⟩ := ih hchild
      refine ⟨value, hvalue, ?_⟩
      rw [lookup_cons_write htakes, hnext]

theorem writeAt_of_lookup {old value : Json} (h : lookup path root = some old)
    (hf : f (some old) = some value) : ∃ next, writeAt f path root = some next := by
  induction path generalizing root with
  | nil =>
    have hroot : root = some old := h
    exact ⟨value, by rw [hroot]; exact hf⟩
  | cons seg path ih =>
    cases root with
    | none =>
      have hnone : lookup path none = some old := h
      rw [lookup_none] at hnone
      cases hnone
    | some node =>
      obtain ⟨child, hchild⟩ := ih h
      cases hmem : node.member seg with
      | none =>
        have hnone : lookup path (node.member seg) = some old := h
        rw [hmem, lookup_none] at hnone
        cases hnone
      | some here => exact ⟨_, writeAt_cons.mpr ⟨takes_of_member hmem, child, hchild, rfl⟩⟩

theorem writeAt_congr (h : f (lookup path root) = g (lookup path root)) :
    writeAt f path root = writeAt g path root := by
  induction path generalizing root with
  | nil => exact h
  | cons seg path ih =>
    cases root with
    | none => rfl
    | some node =>
      have hchild : writeAt f path (node.member seg) = writeAt g path (node.member seg) := ih h
      simp only [writeAt, hchild]

theorem writeAt_blocked (h : Blocked path root) : writeAt f path root = none := by
  induction path generalizing root with
  | nil => cases h
  | cons seg path ih =>
    cases root with
    | none => cases h
    | some node =>
      obtain hprim | hrest := h
      · simp [writeAt, takes_primitive hprim]
      · simp [writeAt, ih hrest]

theorem blocked_writeAt (hf : LeafWrite f) {path' : Path} (h : Blocked path root)
    (hw : writeAt f path' root = some next) : Blocked path (some next) := by
  induction path generalizing path' root next with
  | nil => cases h
  | cons seg path ih =>
    cases root with
    | none => cases h
    | some node =>
      cases path' with
      | nil => exact .inl (hf _ _ hw)
      | cons seg' path' =>
        obtain ⟨htakes, child, hchild, rfl⟩ := writeAt_cons.mp hw
        obtain hprim | hrest := h
        · simp [takes_primitive hprim] at htakes
        · apply Or.inr
          by_cases hseg : seg = seg'
          · subst hseg
            rw [member_write_self htakes]
            exact ih hrest hchild
          · cases hmem : node.member seg with
            | none =>
              rw [hmem] at hrest
              cases path <;> cases hrest
            | some old =>
              rw [member_write_ne hseg hmem htakes, ← hmem]
              exact hrest

theorem writeAt_comm (hg : LeafWrite g) {path' : Path} (hne : path ≠ path') {old : Json}
    (hold : lookup path root = some old) (hprim : old.isPrimitive = true)
    (hw : writeAt g path' root = some next) :
    Blocked path (some next) ∨
      (lookup path (some next) = some old ∧
        ∀ other, writeAt f path root = some other →
          writeAt g path' (some other) = writeAt f path (some next)) := by
  induction path generalizing path' root next with
  | nil =>
    cases path' with
    | nil => exact absurd rfl hne
    | cons seg' path' =>
      have hroot : root = some old := hold
      simp [hroot, writeAt, takes_primitive hprim] at hw
  | cons seg path ih =>
    cases root with
    | none =>
      have hnone : lookup path none = some old := hold
      rw [lookup_none] at hnone
      cases hnone
    | some node =>
      have hold' : lookup path (node.member seg) = some old := hold
      cases path' with
      | nil => exact .inl (.inl (hg _ _ hw))
      | cons seg' path' =>
        obtain ⟨htakes, child, hchild, rfl⟩ := writeAt_cons.mp hw
        by_cases hseg : seg = seg'
        · subst hseg
          have hpath : path ≠ path' := fun he => hne (congrArg (cons seg) he)
          obtain hblocked | ⟨hkeep, hcomm⟩ := ih hpath hold' hchild
          · apply Or.inl
            apply Or.inr
            rw [member_write_self htakes]
            exact hblocked
          · apply Or.inr
            refine ⟨?_, ?_⟩
            · rw [lookup_cons_write htakes]
              exact hkeep
            · intro other hother
              obtain ⟨-, child', hchild', rfl⟩ := writeAt_cons.mp hother
              simp only [writeAt, takes_write htakes htakes, if_true, member_write_self htakes,
                hcomm child' hchild']
              congr 1
              funext value
              rw [write_write htakes, write_write htakes]
        · apply Or.inr
          cases hmem : node.member seg with
          | none =>
            rw [hmem, lookup_none] at hold'
            cases hold'
          | some here =>
            have hkept := member_write_ne hseg hmem htakes child
            refine ⟨?_, ?_⟩
            · rw [hmem] at hold'
              simp only [lookup, bind_some]
              rw [hkept]
              exact hold'
            · intro other hother
              obtain ⟨hseg', child', hchild', rfl⟩ := writeAt_cons.mp hother
              have hthere : (node.write seg child').takes seg' = true := takes_write htakes hseg' _
              have hhere : (node.write seg' child).takes seg = true := takes_write hseg' htakes _
              rw [hmem] at hchild'
              simp only [writeAt, hthere, hhere, if_true, hkept, hchild, hchild',
                member_write_present hseg hmem, map_some]
              rw [write_comm hseg hmem htakes]

/-- A name goes into an object, an index into an array. -/
def fits : Json → Seg → Bool
  | .obj _, .idx _ => false
  | .arr _, .key _ => false
  | _, _ => true

/-- Every segment of a walk fits, as far as the walk goes. -/
def canonical : Path → Json → Bool
  | [], _ => true
  | seg :: path, node => node.fits seg && ((node.child seg).map (canonical path)).getD true

theorem fits_of_takes (h : node.takes seg = true) : node.fits seg = true := by
  cases node <;> cases seg <;> first | rfl | cases h

theorem child_of_fits (h : node.fits seg = true) : node.child seg = node.member seg := by
  cases node <;> cases seg <;> first | rfl | cases h

theorem canonical_of_writeAt {root : Json} (h : writeAt f path (some root) = some next) :
    canonical path root = true := by
  induction path generalizing root next with
  | nil => rfl
  | cons seg path ih =>
    obtain ⟨htakes, child, hchild, -⟩ := writeAt_cons.mp h
    have hfits := fits_of_takes htakes
    cases hmem : root.member seg with
    | none => simp [canonical, child_of_fits hfits, hfits, hmem]
    | some value =>
      rw [hmem] at hchild
      simp [canonical, child_of_fits hfits, hfits, hmem, ih hchild]

end Json

/-! ### Leaf operations -/

def Edit.isLeaf : Edit → Bool
  | .set value => value.isPrimitive
  | .append _ => true
  | _ => false

/-- What a leaf operation writes, given what is there. -/
def Edit.leaf : Edit → Option Json → Option Json
  | .set value, _ => some value
  | .append text, some (.str current) => some (.str (current ++ text))
  | _, _ => none

variable {edit : Edit}

theorem Edit.leafWrite (h : edit.isLeaf = true) : Json.LeafWrite edit.leaf := by
  intro root value hvalue
  cases edit <;> simp only [isLeaf, Bool.false_eq_true] at h
  · simp only [leaf, Option.some.injEq] at hvalue
    rwa [← hvalue]
  · cases root with
    | none => cases hvalue
    | some node =>
      cases node <;> cases hvalue
      rfl

variable {node : Json} {key : Seg}

theorem step_ok {value : Json} {seg : Seg} (hfits : node.fits seg = true) :
    step path node seg = .ok value ↔ node.member seg = some value := by
  have hchild := Json.child_of_fits hfits
  have hstep : step path node seg = (node.child seg).elim (.error (.path path)) .ok := by
    cases node <;> cases seg <;> cases hfits
    all_goals
      simp only [step]
      split <;> rename_i hget <;> rw [hget] <;> rfl
  rw [hstep, hchild]
  cases node.member seg <;> simp

/-- The last step of a leaf operation. -/
def Edit.atMember (parent path : Path) (key : Seg) (edit : Edit) (node : Json) :
    Except DeltaError Json := do
  assertMember parent key node
  edit.onMember path key node

theorem assertMember_takes {parent : Path} (hfits : node.fits key = true) :
    assertMember parent key node = .ok () ↔ node.takes key = true := by
  cases node <;> cases key <;> simp [assertMember, Json.takes]
  cases hfits

theorem Edit.onMember_leaf (hleaf : edit.isLeaf = true) (path : Path)
    (htakes : node.takes key = true) :
    edit.onMember path key node = .ok next ↔
      ∃ value, edit.leaf (node.member key) = some value ∧ node.write key value = next := by
  have hchild := Json.child_of_fits (Json.fits_of_takes htakes)
  cases edit <;> simp only [isLeaf, Bool.false_eq_true] at hleaf
  · simp [onMember, leaf]
  · simp only [onMember, hchild]
    cases hmem : node.member key with
    | none => simp [leaf]
    | some child => cases child <;> simp [leaf]

theorem Edit.atMember_leaf (hleaf : edit.isLeaf = true) (parent path : Path)
    (hfits : node.fits key = true) :
    edit.atMember parent path key node = .ok next ↔
      Json.writeAt edit.leaf [key] (some node) = some next := by
  have htakes : assertMember parent key node = .ok () ↔ node.takes key = true :=
    assertMember_takes hfits
  rw [Json.writeAt_cons, ← htakes]
  cases hassert : assertMember parent key node with
  | error e => simp [atMember, hassert, bind, Except.bind]
  | ok u =>
    have htakes := htakes.mp hassert
    have hrun : edit.atMember parent path key node = edit.onMember path key node := by
      simp [atMember, hassert, bind, Except.bind]
    rw [hrun, Edit.onMember_leaf hleaf path htakes]
    simp [Json.writeAt]

theorem modify_leaf (hleaf : edit.isLeaf = true) (parent path whole : Path) {rest : Path}
    (hcanon : Json.canonical (rest ++ [key]) node = true) :
    modify whole (edit.atMember parent path key) rest node = .ok next ↔
      Json.writeAt edit.leaf (rest ++ [key]) (some node) = some next := by
  induction rest generalizing node next with
  | nil =>
    have hfits : node.fits key = true := (Bool.and_eq_true_iff.mp hcanon).1
    exact Edit.atMember_leaf hleaf parent path hfits
  | cons seg rest ih =>
    obtain ⟨hfits, hcanon⟩ := Bool.and_eq_true_iff.mp hcanon
    rw [Json.child_of_fits hfits] at hcanon
    rw [modify, cons_append, Json.writeAt_cons]
    cases hmem : node.member seg with
    | none =>
      have hnone : ∀ value, step whole node seg ≠ .ok value := by
        intro value hvalue
        rw [step_ok hfits, hmem] at hvalue
        cases hvalue
      cases hstep : step whole node seg with
      | ok value => exact absurd hstep (hnone value)
      | error e =>
        have hwrite : Json.writeAt edit.leaf (rest ++ [key]) none = none := by
          cases rest <;> rfl
        simp [bind, Except.bind, hwrite]
    | some child =>
      rw [hmem] at hcanon
      simp only [(step_ok hfits).mpr hmem, bind, Except.bind, Json.takes_of_member hmem, true_and]
      cases hrun : modify whole (edit.atMember parent path key) rest child with
      | ok value =>
        simp [pure, Except.pure, (ih hcanon).mp hrun]
      | error e =>
        have hwrite : Json.writeAt edit.leaf (rest ++ [key]) (some child) = none := by
          cases hw : Json.writeAt edit.leaf (rest ++ [key]) (some child) with
          | none => rfl
          | some value =>
            rw [← ih hcanon, hrun] at hw
            cases hw
        simp [hwrite]

theorem applyEdit_leaf (hleaf : edit.isLeaf = true) {root : Json} (hpath : path ≠ [])
    (hcanon : Json.canonical path root = true) :
    applyEdit path edit root = .ok next ↔ Json.writeAt edit.leaf path (some root) = some next := by
  have hroot : edit.atRoot = false := by cases edit <;> first | rfl | cases hleaf
  obtain ⟨rest, key, rfl⟩ : ∃ rest key, path = rest ++ [key] :=
    ⟨path.dropLast, path.getLast hpath, (dropLast_append_getLast hpath).symm⟩
  simp only [applyEdit, hroot, Bool.false_eq_true, if_false, getLast?_append,
    getLast?_singleton, some_or, dropLast_concat]
  exact modify_leaf hleaf rest (rest ++ [key]) rest hcanon

theorem applyOp_leaf (hleaf : edit.isLeaf = true) {root : Json} :
    applyOp root (.edit path edit) = .ok next ∧ Json.canonical path root = true ↔
      assertValidOp (.edit path edit) = .ok () ∧
        Json.writeAt edit.leaf path (some root) = some next := by
  have hroot : edit.atRoot = false := by cases edit <;> first | rfl | cases hleaf
  cases hvalid : assertValidOp (.edit path edit) with
  | error e => simp [applyOp, hvalid, bind, Except.bind]
  | ok u =>
    have hpath := (assertValidOp_ok.mp hvalid).nonempty hroot
    have happly : applyOp root (.edit path edit) = applyEdit path edit root := by
      simp [applyOp, hvalid, bind, Except.bind]
    rw [happly]
    constructor
    · rintro ⟨hrun, hcanon⟩
      exact ⟨rfl, (applyEdit_leaf hleaf hpath hcanon).mp hrun⟩
    · rintro ⟨-, hwrite⟩
      have hcanon := Json.canonical_of_writeAt hwrite
      exact ⟨(applyEdit_leaf hleaf hpath hcanon).mpr hwrite, hcanon⟩

end KnightCode.Delta

/-! ### Deep equality -/

namespace KnightCode.Delta

namespace Json

/-- What a value shows without its members. -/
inductive Shape
  | null
  | bool (value : Bool)
  | num (value : ℚ)
  | str (text : Text)
  | arr (length : ℕ)
  | obj

def shape : Json → Shape
  | .null => .null
  | .bool value => .bool value
  | .num value => .num value
  | .str text => .str text
  | .arr items => .arr items.length
  | .obj _ => .obj

/-- Equality up to the order of members, of values that may be absent. -/
def Agree (a b : Option Json) : Prop :=
  ∀ path, (lookup path a).map shape = (lookup path b).map shape

def DeepEqual (a b : Json) : Prop :=
  Agree (some a) (some b)

theorem Agree.refl (a : Option Json) : Agree a a := fun _ => rfl

theorem DeepEqual.refl (a : Json) : DeepEqual a a := Agree.refl _

theorem deepEqual_of_members {a b : Json} (hshape : a.shape = b.shape)
    (hmembers : ∀ seg, Agree (a.member seg) (b.member seg)) : DeepEqual a b := by
  intro path
  cases path with
  | nil => exact congrArg some hshape
  | cons seg path => exact hmembers seg path

theorem deepEqual_arr {items others : List Json} (h : List.Forall₂ DeepEqual items others) :
    DeepEqual (.arr items) (.arr others) := by
  apply deepEqual_of_members
  · exact congrArg Shape.arr h.length_eq
  · intro seg
    cases seg with
    | key name => exact Agree.refl _
    | idx index =>
      simp only [member]
      induction h generalizing index with
      | nil => exact Agree.refl _
      | cons hhead _ ih =>
        cases index with
        | zero => exact hhead
        | succ index => exact ih index

theorem deepEqual_obj {members others : List (Text × Json)}
    (h : ∀ name, Agree (Assoc.get name members) (Assoc.get name others)) :
    DeepEqual (.obj members) (.obj others) := by
  apply deepEqual_of_members
  · rfl
  · intro seg
    cases seg with
    | key name => exact h name
    | idx index => exact Agree.refl _

end Json

end KnightCode.Delta
