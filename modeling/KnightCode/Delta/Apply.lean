import KnightCode.Delta.Op
import KnightCode.Library.Assoc

/-!
# Applying operations

The applier walks own properties only: a string into an array, a missing member and a walk into a
primitive are errors. `modify` is a walk to a container and what becomes of the root when that
container changes; the operations on a member change its parent, a splice and a permutation their
target.
-/

namespace KnightCode.Delta

open List

/-- The property name of a segment. -/
def Seg.name : Seg → Text
  | .key name => name
  | .idx index => JsonText.decimal index

def Seg.toError (seg : Seg) : DeltaError :=
  .unsafePath seg.toJson

namespace Json

def child : Json → Seg → Option Json
  | .arr items, .idx index => items[index]?
  | .obj members, seg => Assoc.get seg.name members
  | _, _ => none

/-- Define an own member: a present one in place, an absent one at the end. -/
def write : Json → Seg → Json → Json
  | .arr items, .idx index, value =>
    if index < items.length then .arr (items.set index value) else .arr (items ++ [value])
  | .obj members, seg, value => .obj (Assoc.set seg.name value members)
  | node, _, _ => node

end Json

def step (path : Path) (node : Json) (seg : Seg) : Except DeltaError Json :=
  match node, seg with
  | .arr _, .key _ => .error seg.toError
  | _, _ =>
    match node.child seg with
    | some value => .ok value
    | none => .error (.path path)

/-- Change the node at the end of `rest`, a part of the walk along `path`. -/
def modify (path : Path) (f : Json → Except DeltaError Json) : Path → Json → Except DeltaError Json
  | [], node => f node
  | seg :: rest, node => do
    let value ← step path node seg
    let value ← modify path f rest value
    return node.write seg value

/-! ### Splices -/

/-- `items.splice(index, 0, ...inserted)`. -/
def insertAt (index : ℕ) (inserted items : List Json) : List Json :=
  items.take index ++ (inserted ++ items.drop index)

def chunkSize : ℕ := 10000

def insertChunks (index : ℕ) : ℕ → ℕ → List Json → List Json → List Json
  | 0, _, _, items => items
  | fuel + 1, offset, inserted, items =>
    if inserted = [] then items
    else
      insertChunks index fuel (offset + chunkSize) (inserted.drop chunkSize)
        (insertAt (index + offset) (inserted.take chunkSize) items)

def arraySplice (index remove : ℕ) (inserted items : List Json) : List Json :=
  insertChunks index inserted.length 0 inserted (items.take index ++ items.drop (index + remove))

theorem insertAt_insertAt {index n : ℕ} {chunk rest items : List Json}
    (h : chunk.length = n ∨ rest = []) :
    insertAt (index + n) rest (insertAt index chunk items) =
      insertAt index (chunk ++ rest) items := by
  unfold insertAt
  obtain rfl | rfl := h
  · by_cases hi : index ≤ items.length
    · have hlen : (items.take index ++ chunk).length = index + chunk.length := by simp [hi]
      have hassoc : items.take index ++ (chunk ++ items.drop index) =
          items.take index ++ chunk ++ items.drop index := (append_assoc ..).symm
      rw [hassoc, take_left' hlen, drop_left' hlen]
      simp only [append_assoc]
    · have hle : items.length ≤ index := le_of_not_ge hi
      have hlen : (items ++ chunk).length ≤ index + chunk.length := by simp [hle]
      rw [take_of_length_le hle, drop_eq_nil_of_le hle, append_nil,
        take_of_length_le hlen, drop_eq_nil_of_le hlen]
      simp
  · rw [nil_append, take_append_drop, append_nil]

theorem insertChunks_eq (index : ℕ) {fuel offset : ℕ} {inserted : List Json}
    (h : inserted.length ≤ fuel) (items : List Json) :
    insertChunks index fuel offset inserted items = insertAt (index + offset) inserted items := by
  induction fuel generalizing offset inserted items with
  | zero =>
    have hnil : inserted = [] := length_eq_zero_iff.mp (Nat.le_zero.mp h)
    rw [hnil, insertChunks, insertAt, nil_append, take_append_drop]
  | succ fuel ih =>
    rw [insertChunks]
    split_ifs with hnil
    · rw [hnil, insertAt, nil_append, take_append_drop]
    · have hpos : 0 < inserted.length := length_pos_iff.mpr hnil
      have hfuel : (inserted.drop chunkSize).length ≤ fuel := by
        rw [length_drop, chunkSize]
        omega
      have hchunk : (inserted.take chunkSize).length = chunkSize ∨
          inserted.drop chunkSize = [] := by
        by_cases hc : chunkSize ≤ inserted.length
        · exact .inl (by simp [hc])
        · exact .inr (drop_eq_nil_of_le (le_of_not_ge hc))
      rw [ih hfuel, ← add_assoc, insertAt_insertAt hchunk, take_append_drop]

theorem arraySplice_eq (index remove : ℕ) (inserted items : List Json) :
    arraySplice index remove inserted items =
      items.take index ++ (inserted ++ items.drop (index + remove)) := by
  rw [arraySplice, insertChunks_eq index (le_refl _), add_zero, insertAt]
  by_cases h : index ≤ items.length
  · have hlen : (items.take index).length = index := by simp [h]
    rw [take_left' hlen, drop_left' hlen]
  · have hle : items.length ≤ index := le_of_not_ge h
    have hdrop : items.drop (index + remove) = [] := drop_eq_nil_of_le (by omega)
    rw [hdrop, append_nil, take_of_length_le hle, take_of_length_le hle, drop_eq_nil_of_le hle]

/-! ### Operations -/

def Edit.onTarget (path : Path) (edit : Edit) : Json → Except DeltaError Json
  | .arr items =>
    match edit with
    | .splice index remove inserted => .ok (.arr (arraySplice index remove inserted items))
    | .permute permutation =>
      if items.length ≠ permutation.length then .error (.path path)
      else .ok (.arr (permutation.map fun index => items.getD index .null))
    | _ => .error (.path path)
  | _ => .error (.path path)

/-- A member of a parent may be written: an array takes indices up to its length. -/
def assertMember (parent : Path) (key : Seg) : Json → Except DeltaError Unit
  | .arr items =>
    match key with
    | .key _ => .error key.toError
    | .idx index => if items.length < index then .error key.toError else .ok ()
  | .obj _ => .ok ()
  | _ => .error (.path parent)

def Edit.onMember (path : Path) (key : Seg) (edit : Edit) (parent : Json) :
    Except DeltaError Json :=
  match edit with
  | .set value => .ok (parent.write key value)
  | .delete =>
    match parent, key with
    | .arr items, .idx index =>
      if items.length ≤ index then .error (.path path) else .ok (.arr (items.eraseIdx index))
    | .obj members, _ => .ok (.obj (Assoc.erase key.name members))
    | _, _ => .error (.path path)
  | .append text =>
    match parent.child key with
    | some (.str current) => .ok (parent.write key (.str (current ++ text)))
    | _ => .error (.path path)
  | .truncate count =>
    match parent.child key with
    | some (.str current) => .ok (parent.write key (.str (current.drop count)))
    | _ => .error (.path path)
  | _ => .error (.path path)

def applyEdit (path : Path) (edit : Edit) (root : Json) : Except DeltaError Json :=
  if edit.atRoot then modify path (edit.onTarget path) path root
  else
    match path.getLast? with
    | none => .error (.path path)
    | some key =>
      modify path.dropLast (fun parent => do
        assertMember path.dropLast key parent
        edit.onMember path key parent) path.dropLast root

def applyOp (root : Json) (op : Op) : Except DeltaError Json := do
  assertValidOp op
  match op with
  | .replace value => return value
  | .edit path edit => applyEdit path edit root

/-- `apply`. -/
def applyOps (root : Json) (ops : List Op) : Except DeltaError Json :=
  ops.foldlM applyOp root

theorem applyOps_append {root after : Json} {ops : List Op} (h : applyOps root ops = .ok after)
    (more : List Op) : applyOps root (ops ++ more) = applyOps after more := by
  rw [applyOps, foldlM_append, ← applyOps, h]
  rfl

end KnightCode.Delta
