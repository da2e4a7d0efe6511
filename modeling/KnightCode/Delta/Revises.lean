import KnightCode.Delta.Walk

/-!
# Operations below a path

`Revises path before ops after`: wherever the value at `path` is `before`, the operations replace it
with `after` and change nothing else. The rules say how single operations and their sequences
revise, and how a member's revision revises its parent.
-/

namespace KnightCode.Delta

namespace Json
variable {path : Path}

/-- The root with another value at the end of a canonical walk. -/
def put (path : Path) (value root : Json) : Option Json :=
  writeAt (fun _ => some value) path (some root)

theorem lookup_append (path path' : Path) (root : Option Json) :
    lookup (path ++ path') root = lookup path' (lookup path root) := by
  induction path generalizing root with
  | nil => rfl
  | cons seg path ih => exact ih _

theorem writeAt_append (f : Option Json → Option Json) (path path' : Path) (root : Option Json) :
    writeAt f (path ++ path') root = writeAt (writeAt f path') path root := by
  induction path generalizing root with
  | nil => rfl
  | cons seg path ih =>
    cases root with
    | none => rfl
    | some node => simp only [List.cons_append, writeAt, ih]

theorem write_member {node child : Json} {seg : Seg} (h : node.member seg = some child) :
    node.write seg child = node := by
  cases node <;> cases seg <;> simp only [member, reduceCtorEq] at h
  · obtain ⟨hlt, hget⟩ := List.getElem?_eq_some_iff.mp h
    simp [write, hlt, ← hget]
  · exact congrArg obj (Assoc.set_get h)

theorem lookup_put {root value next : Json} (h : put path value root = some next) :
    lookup path (some next) = some value := by
  obtain ⟨found, hfound, hlookup⟩ := exists_of_writeAt h
  rwa [← hfound] at hlookup

theorem put_put {root value value' next : Json} (h : put path value root = some next) :
    put path value' next = put path value' root := by
  unfold put at h ⊢
  rw [writeAt_writeAt h]
  rfl

theorem put_lookup {root node : Json} (h : lookup path (some root) = some node) :
    put path node root = some root := by
  induction path generalizing root with
  | nil => exact h.symm
  | cons seg path ih =>
    cases hmem : root.member seg with
    | none =>
      have hnone : lookup path (root.member seg) = some node := h
      rw [hmem, lookup_none] at hnone
      cases hnone
    | some child =>
      have hchild : lookup path (root.member seg) = some node := h
      rw [hmem] at hchild
      refine writeAt_cons.mpr ⟨takes_of_member hmem, child, ?_, write_member hmem⟩
      rw [hmem]
      exact ih hchild

theorem put_member {seg : Seg} {root node value : Json} (h : lookup path (some root) = some node)
    (htakes : node.takes seg = true) :
    put (path ++ [seg]) value root = put path (node.write seg value) root := by
  unfold put
  rw [writeAt_append]
  apply writeAt_congr
  rw [h]
  simp [writeAt, htakes]

end Json

def Revises (path : Path) (before : Json) (ops : List Op) (after : Json) : Prop :=
  ∀ root, Json.lookup path (some root) = some before →
    ∃ next, Json.put path after root = some next ∧ applyOps root ops = .ok next

namespace Revises

variable {path : Path} {node next : Json}
variable {edit : Edit}

theorem refl (path : Path) (node : Json) : Revises path node [] node :=
  fun root h => ⟨root, Json.put_lookup h, rfl⟩

theorem trans {last : Json} {ops ops' : List Op} (h : Revises path node ops next)
    (h' : Revises path next ops' last) : Revises path node (ops ++ ops') last := by
  intro root hroot
  obtain ⟨mid, hmid, hrun⟩ := h root hroot
  obtain ⟨final, hfinal, hrun'⟩ := h' mid (Json.lookup_put hmid)
  refine ⟨final, ?_, ?_⟩
  · rw [← hfinal, Json.put_put hmid]
  · simp only [applyOps] at hrun hrun' ⊢
    rw [List.foldlM_append, hrun]
    exact hrun'

theorem member {seg : Seg} {child child' : Json} {ops : List Op}
    (h : Revises (path ++ [seg]) child ops child') (hmem : node.member seg = some child) :
    Revises path node ops (node.write seg child') := by
  intro root hroot
  have hchild : Json.lookup (path ++ [seg]) (some root) = some child := by
    rw [Json.lookup_append, hroot]
    exact hmem
  obtain ⟨final, hfinal, hrun⟩ := h root hchild
  refine ⟨final, ?_, hrun⟩
  rw [← hfinal, Json.put_member hroot (Json.takes_of_member hmem)]

theorem modify_lookup {f : Json → Except DeltaError Json} (whole : Path) {root : Json}
    (h : Json.lookup path (some root) = some node) (hf : f node = .ok next) :
    ∃ final, Json.put path next root = some final ∧ modify whole f path root = .ok final := by
  induction path generalizing root with
  | nil =>
    cases h
    exact ⟨next, rfl, hf⟩
  | cons seg path ih =>
    cases hmem : root.member seg with
    | none =>
      have hnone : Json.lookup path (root.member seg) = some node := h
      rw [hmem, Json.lookup_none] at hnone
      cases hnone
    | some child =>
      have hchild : Json.lookup path (root.member seg) = some node := h
      rw [hmem] at hchild
      obtain ⟨final, hput, hrun⟩ := ih hchild
      have htakes := Json.takes_of_member hmem
      refine ⟨root.write seg final, ?_, ?_⟩
      · refine Json.writeAt_cons.mpr ⟨htakes, final, ?_, rfl⟩
        rw [hmem]
        exact hput
      · rw [modify, (step_ok (Json.fits_of_takes htakes)).mpr hmem]
        simp [bind, Except.bind, hrun, pure, Except.pure]

theorem applyOps_edit (h : Op.Valid path edit) (root : Json) :
    applyOps root [.edit path edit] = applyEdit path edit root := by
  simp [applyOps, applyOp, assertValidOp_ok.mpr h, bind, Except.bind]
  cases applyEdit path edit root <;> rfl

theorem onTarget (hvalid : Op.Valid path edit) (hroot : edit.atRoot = true)
    (h : edit.onTarget path node = .ok next) : Revises path node [.edit path edit] next := by
  intro root hlookup
  obtain ⟨final, hput, hrun⟩ := modify_lookup path hlookup h
  refine ⟨final, hput, ?_⟩
  rw [applyOps_edit hvalid, applyEdit, if_pos hroot, hrun]

theorem atMember {key : Seg} (hvalid : Op.Valid (path ++ [key]) edit) (hroot : edit.atRoot = false)
    (h : edit.atMember path (path ++ [key]) key node = .ok next) :
    Revises path node [.edit (path ++ [key]) edit] next := by
  intro root hlookup
  obtain ⟨final, hput, hrun⟩ := modify_lookup path hlookup h
  refine ⟨final, hput, ?_⟩
  rw [applyOps_edit hvalid]
  simp only [applyEdit, hroot, Bool.false_eq_true, if_false, List.getLast?_append,
    List.getLast?_singleton, Option.some_or, List.dropLast_concat]
  exact hrun

theorem splice {items : List Json} (hsafe : SafePath path) (index remove : ℕ)
    (inserted : List Json) : Revises path (.arr items) [.edit path (.splice index remove inserted)]
      (.arr (items.take index ++ (inserted ++ items.drop (index + remove)))) := by
  apply onTarget
  · exact ⟨hsafe, fun h => (by cases h), fun _ h => by cases h⟩
  · rfl
  · simp [Edit.onTarget, arraySplice_eq]

theorem permute {items : List Json} (hsafe : SafePath path) {permutation : List ℕ}
    (hlength : items.length = permutation.length) (hperm : assertPermutation permutation = .ok ()) :
    Revises path (.arr items) [.edit path (.permute permutation)]
      (.arr (permutation.map fun index => items.getD index .null)) := by
  apply onTarget
  · refine ⟨hsafe, fun h => (by cases h), fun p h => ?_⟩
    cases h
    exact hperm
  · rfl
  · simp [Edit.onTarget, hlength]

theorem valid_of_member (hsafe : SafePath path) (hpath : path ≠ []) (hroot : edit.atRoot = false) :
    Op.Valid path edit := by
  refine ⟨hsafe, fun _ => hpath, fun p h => ?_⟩
  subst h
  cases hroot

theorem atMember_of_takes {key : Seg} (htakes : node.takes key = true) (parent path : Path) :
    edit.atMember parent path key node = edit.onMember path key node := by
  have hassert := (@assertMember_takes _ _ parent (Json.fits_of_takes htakes)).mpr htakes
  simp [Edit.atMember, hassert, bind, Except.bind]

theorem set {key : Seg} (hsafe : SafePath (path ++ [key])) (htakes : node.takes key = true)
    (value : Json) :
    Revises path node [.edit (path ++ [key]) (.set value)] (node.write key value) := by
  apply atMember (valid_of_member hsafe (by simp) rfl) rfl
  rw [atMember_of_takes htakes]
  rfl

theorem delete {name : Text} {members : List (Text × Json)}
    (hsafe : SafePath (path ++ [.key name])) :
    Revises path (.obj members) [.edit (path ++ [.key name]) .delete]
      (.obj (Assoc.erase name members)) := by
  apply atMember (valid_of_member hsafe (by simp) rfl) rfl
  rfl

theorem ofMember (hsafe : SafePath path) (hpath : path ≠ []) (hroot : edit.atRoot = false)
    (h : ∀ parent key, parent.child key = some node →
      edit.onMember path key parent = .ok (parent.write key next)) :
    Revises path node [.edit path edit] next := by
  obtain ⟨rest, key, rfl⟩ : ∃ rest key, path = rest ++ [key] :=
    ⟨path.dropLast, path.getLast hpath, (List.dropLast_append_getLast hpath).symm⟩
  intro root hlookup
  rw [Json.lookup_append] at hlookup
  cases hparent : Json.lookup rest (some root) with
  | none =>
    rw [hparent, Json.lookup_none] at hlookup
    cases hlookup
  | some parent =>
    rw [hparent] at hlookup
    have hmem : parent.member key = some node := hlookup
    have htakes := Json.takes_of_member hmem
    rw [← Json.child_of_fits (Json.fits_of_takes htakes)] at hmem
    have hrun : edit.atMember rest (rest ++ [key]) key parent = .ok (parent.write key next) := by
      rw [atMember_of_takes htakes]
      exact h parent key hmem
    have hvalid := valid_of_member hsafe hpath hroot
    obtain ⟨final, hput, happly⟩ := atMember hvalid hroot hrun root hparent
    refine ⟨final, ?_, happly⟩
    rw [← hput, Json.put_member hparent htakes]

theorem setAt (hsafe : SafePath path) (hpath : path ≠ []) (node value : Json) :
    Revises path node [.edit path (.set value)] value :=
  ofMember hsafe hpath rfl fun _ _ _ => rfl

theorem append (hsafe : SafePath path) (hpath : path ≠ []) (current text : Text) :
    Revises path (.str current) [.edit path (.append text)] (.str (current ++ text)) := by
  apply ofMember hsafe hpath rfl
  intro parent key hchild
  simp [Edit.onMember, hchild]

theorem truncate (hsafe : SafePath path) (hpath : path ≠ []) (current : Text) (count : ℕ) :
    Revises path (.str current) [.edit path (.truncate count)] (.str (current.drop count)) := by
  apply ofMember hsafe hpath rfl
  intro parent key hchild
  simp [Edit.onMember, hchild]

end Revises

end KnightCode.Delta
