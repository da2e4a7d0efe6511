import KnightCode.Delta.Apply
import KnightCode.Library.Outcome

/-!
# Applying without mutation

The replay copies the containers on the way to what an operation changes, and then applies the
operation to the copy. A container copied once is owned and not copied again; an append to an array
that is not owned is one concatenation. On values a copy is the identity, so what this module says
is that the copying never refuses what `apply` accepts: `applyImmutable_of_applyOps`.
-/

namespace KnightCode.Delta
variable {node next root : Json} {path : Path} {edit : Edit} {owned : Bool} {ops : List Op}

namespace Json

/-- `Object.hasOwn`. -/
def hasOwn : Json → Seg → Bool
  | .arr items, .idx index => decide (index < items.length)
  | .arr items, .key name =>
    name = ascii "length" ∨ ∃ index ∈ List.range items.length, JsonText.decimal index = name
  | .obj members, seg => (Assoc.get seg.name members).isSome
  | _, _ => false

/-- Neither a primitive nor null. -/
def isObj : Json → Bool
  | .arr _ => true
  | .obj _ => true
  | _ => false

end Json

def copyWalk (path : Path) : Path → Json → Except DeltaError Unit
  | [], node => if node.isObj then .ok () else .error (.path path)
  | seg :: rest, node =>
    if node.isObj then
      if node.hasOwn seg then
        match node, seg with
        | .arr _, .key _ => .error seg.toError
        | _, _ =>
          match node.child seg with
          | some value => copyWalk path rest value
          | none => .error (.path path)
      else .error (.path path)
    else .error (.path path)

def copyContainers (root : Json) (path : Path) : Except DeltaError Json := do
  copyWalk path path root
  return root

def appendWalk : Path → Json → Option Json
  | [], target => some target
  | seg :: path, target =>
    let valid : Bool :=
      match seg, target with
      | .key name, .obj _ => decide (name ∉ RESERVED_SEGMENTS)
      | .idx _, .arr _ => true
      | _, _ => false
    if valid && target.hasOwn seg then (target.child seg).bind (appendWalk path) else none

def appendCopy (owned : Bool) (root : Json) (path : Path) (index remove : ℕ) (items : List Json) :
    Except DeltaError (Option Json) :=
  if remove ≠ 0 then .ok none
  else
    match appendWalk path root with
    | some (.arr target) =>
      if owned ∨ index ≠ target.length then .ok none
      else
        match path.getLast? with
        | none => .ok (some (.arr (target ++ items)))
        | some key => do
          let copiedRoot ← copyContainers root path.dropLast
          let appended ← modify path.dropLast
            (fun parent => .ok (parent.write key (.arr (target ++ items)))) path.dropLast copiedRoot
          return some appended
    | _ => .ok none

def applyOpImmutable (owned : Bool) (root : Json) (op : Op) : Except DeltaError Json := do
  assertValidOp op
  match op with
  | .replace value => return value
  | .edit path edit =>
    let appending :=
      match edit with
      | .splice index remove items => appendCopy owned root path index remove items
      | _ => .ok none
    match ← appending with
    | some appended => return appended
    | none =>
      let copiedRoot ← copyContainers root (if edit.atRoot then path else path.dropLast)
      applyOps copiedRoot [op]

/-- `owned n` tells whether the target of operation `n` was copied by an earlier one. -/
def applyImmutableFrom (owned : ℕ → Bool) : ℕ → Json → List Op → Except DeltaError Json
  | _, root, [] => .ok root
  | n, root, op :: ops => do
    let next ← applyOpImmutable (owned n) root op
    applyImmutableFrom owned (n + 1) next ops

def applyImmutable (owned : ℕ → Bool) (target : Json) (ops : List Op) : Except DeltaError Json :=
  applyImmutableFrom owned 0 target ops

/-! ### The copies succeed -/

theorem step_error_path {whole whole' : Path} {value : Json} {seg : Seg} :
    step whole node seg = .ok value ↔ step whole' node seg = .ok value := by
  unfold step
  split
  · simp
  · split <;> simp

theorem hasOwn_of_step {value : Json} {seg : Seg} (h : step path node seg = .ok value) :
    node.isObj = true ∧ node.hasOwn seg = true ∧ node.child seg = some value ∧
      ∀ whole rest, copyWalk whole (seg :: rest) node = copyWalk whole rest value := by
  cases node with
  | arr items =>
    cases seg with
    | key name => cases h
    | idx index =>
      cases hget : items[index]? with
      | none => simp [step, Json.child, hget] at h
      | some item =>
        obtain ⟨hlt, -⟩ := List.getElem?_eq_some_iff.mp hget
        simp only [step, Json.child, hget, Except.ok.injEq] at h
        subst h
        have hown : (Json.arr items).hasOwn (.idx index) = true := decide_eq_true hlt
        have hchild : (Json.arr items).child (.idx index) = some item := hget
        refine ⟨rfl, hown, hchild, fun whole rest => ?_⟩
        simp [copyWalk, Json.isObj, hown, hchild]
  | obj members =>
    cases hget : Assoc.get seg.name members with
    | none => simp [step, Json.child, hget] at h
    | some member =>
      have hchild : (Json.obj members).child seg = some member := by
        rw [← hget]
        cases seg <;> rfl
      simp only [step, hchild, Except.ok.injEq] at h
      subst h
      have hown : (Json.obj members).hasOwn seg = true := by simp [Json.hasOwn, hget]
      refine ⟨rfl, hown, hchild, fun whole rest => ?_⟩
      simp [copyWalk, Json.isObj, hown, hchild]
  | _ => simp [step, Json.child] at h

variable {f : Json → Except DeltaError Json}

theorem copyWalk_of_modify {whole : Path} (hf : ∀ node next, f node = .ok next → node.isObj = true)
    (rest : Path) (h : modify path f rest node = .ok next) : copyWalk whole rest node = .ok () := by
  induction rest generalizing node next with
  | nil => exact if_pos (hf node next h)
  | cons seg rest ih =>
    rw [modify] at h
    cases hstep : step path node seg with
    | error error =>
      rw [hstep] at h
      cases h
    | ok value =>
      obtain ⟨-, -, -, hwalk⟩ := hasOwn_of_step hstep
      rw [hwalk]
      cases hrest : modify path f rest value with
      | error error =>
        rw [hstep] at h
        simp only [bind, Except.bind, hrest, reduceCtorEq] at h
      | ok changed => exact ih hrest

theorem onTarget_isObj (node next : Json) (h : edit.onTarget path node = .ok next) :
    node.isObj = true := by
  cases node with
  | arr items => rfl
  | _ => cases h

theorem onMember_isObj {key : Seg} (node next : Json) (h : (do
      assertMember path.dropLast key node
      edit.onMember path key node : Except DeltaError Json) = .ok next) : node.isObj = true := by
  cases node with
  | arr items => rfl
  | obj members => rfl
  | _ => cases h

theorem copyContainers_of_applyEdit (h : applyEdit path edit root = .ok next) :
    copyContainers root (if edit.atRoot then path else path.dropLast) = .ok root := by
  have hwalk : copyWalk (if edit.atRoot then path else path.dropLast)
      (if edit.atRoot then path else path.dropLast) root = .ok () := by
    unfold applyEdit at h
    by_cases hroot : edit.atRoot = true
    · rw [if_pos hroot] at h
      rw [if_pos hroot]
      exact copyWalk_of_modify onTarget_isObj path h
    · rw [if_neg hroot] at h
      rw [if_neg hroot]
      cases hlast : path.getLast? with
      | none =>
        rw [hlast] at h
        cases h
      | some key =>
        rw [hlast] at h
        exact copyWalk_of_modify onMember_isObj _ h
  rw [copyContainers, hwalk]
  rfl

/-! ### The append -/

theorem step_of_appendWalk {path rest : Path} {seg : Seg} {node target : Json}
    (h : appendWalk (seg :: rest) node = some target) :
    ∃ value, step path node seg = .ok value ∧ appendWalk rest value = some target := by
  unfold appendWalk at h
  obtain ⟨hvalid, hbind⟩ := Option.ite_none_right_eq_some.mp h
  have hvalid := (Bool.and_eq_true_iff.mp hvalid).1
  obtain ⟨value, hchild, hrest⟩ := Option.bind_eq_some_iff.mp hbind
  refine ⟨value, ?_, hrest⟩
  cases seg with
  | key name =>
    cases node with
    | obj members => simp [step, hchild]
    | _ => cases hvalid
  | idx index =>
    cases node with
    | arr items => simp [step, hchild]
    | _ => cases hvalid

theorem modify_appendWalk (path whole : Path) {target changed : Json} (hf : f target = .ok changed)
    (rest : Path) (h : appendWalk rest node = some target) :
    ∃ next, modify path f rest node = .ok next ∧
      ∀ key, rest.getLast? = some key → copyWalk whole rest.dropLast node = .ok () ∧
        modify whole (fun parent => .ok (parent.write key changed)) rest.dropLast node =
          .ok next := by
  induction rest generalizing node with
  | nil =>
    cases h
    exact ⟨changed, hf, fun key hkey => by cases hkey⟩
  | cons seg rest ih =>
    obtain ⟨value, hstep, hrest⟩ := @step_of_appendWalk path _ _ _ _ h
    obtain ⟨hobj, -, -, hwalk⟩ := hasOwn_of_step hstep
    obtain ⟨next, hrun, hlast⟩ := ih hrest
    refine ⟨node.write seg next, ?_, fun key hkey => ?_⟩
    · rw [modify]
      simp [bind, Except.bind, hstep, hrun, pure, Except.pure]
    · cases rest with
      | nil =>
        cases hkey
        cases hrest
        rw [modify, hf] at hrun
        cases hrun
        exact ⟨if_pos hobj, rfl⟩
      | cons seg' rest =>
        have hkey' : (seg' :: rest).getLast? = some key := by simpa using hkey
        obtain ⟨hcopy, hparent⟩ := hlast key hkey'
        rw [List.dropLast_cons_of_ne_nil (List.cons_ne_nil _ _)]
        refine ⟨(hwalk _ _).trans hcopy, ?_⟩
        rw [modify, step_error_path.mp hstep]
        simp [bind, Except.bind, hparent, pure, Except.pure]

theorem arraySplice_append (items inserted : List Json) :
    arraySplice items.length 0 inserted items = items ++ inserted := by
  simp [arraySplice_eq]

theorem appendCopy_exact {owned : Bool} {root next : Json} {path : Path} {index remove : ℕ}
    {items : List Json} (h : applyEdit path (.splice index remove items) root = .ok next) :
    appendCopy owned root path index remove items = .ok none ∨
      appendCopy owned root path index remove items = .ok (some next) := by
  unfold appendCopy
  split_ifs with hremove
  · exact .inl rfl
  · cases htarget : appendWalk path root with
    | none => exact .inl rfl
    | some target =>
      cases target with
      | arr target =>
        simp only
        split_ifs with howned
        · exact .inl rfl
        · obtain ⟨-, hindex⟩ := not_or.mp howned
          obtain rfl := not_not.mp hremove
          obtain rfl := not_not.mp hindex
          have hsplice : (Edit.splice target.length 0 items).onTarget path (.arr target) =
              .ok (.arr (target ++ items)) := by
            rw [Edit.onTarget, arraySplice_append]
          obtain ⟨final, hrun, hlast⟩ := modify_appendWalk path path.dropLast hsplice path htarget
          have hfinal : final = next := by
            have hroot : (Edit.splice target.length 0 items).atRoot = true := rfl
            rw [applyEdit, if_pos hroot, hrun] at h
            exact Except.ok.inj h
          subst hfinal
          right
          cases hkey : path.getLast? with
          | none =>
            have hnil := List.getLast?_eq_none_iff.mp hkey
            subst hnil
            cases htarget
            rw [modify, hsplice] at hrun
            simp only
            rw [Except.ok.inj hrun]
          | some key =>
            obtain ⟨hcopy, hparent⟩ := hlast key hkey
            simp [copyContainers, hcopy, hparent, bind, Except.bind, pure, Except.pure]
      | _ => exact .inl rfl

theorem applyOpImmutable_of_applyOp {op : Op} (h : applyOp root op = .ok next) :
    applyOpImmutable owned root op = .ok next := by
  unfold applyOpImmutable
  cases hvalid : assertValidOp op with
  | error error =>
    simp only [applyOp, bind, Except.bind, hvalid, reduceCtorEq] at h
  | ok valid =>
    cases op with
    | replace value => simpa [applyOp, hvalid, bind, Except.bind] using h
    | edit path edit =>
      have hedit : applyEdit path edit root = .ok next := by
        simpa [applyOp, hvalid, bind, Except.bind] using h
      have hcopy := copyContainers_of_applyEdit hedit
      have hops : applyOps root [.edit path edit] = .ok next := by
        simp [applyOps, h, bind, Except.bind, pure, Except.pure]
      cases edit with
      | splice index remove items =>
        obtain hnone | hsome := @appendCopy_exact owned _ _ _ _ _ _ hedit
        · simp [bind, Except.bind, hnone, hcopy, hops]
        · simp [bind, Except.bind, hsome, pure, Except.pure]
      | _ => simp [bind, Except.bind, hcopy, hops]

theorem applyImmutableFrom_of_applyOps (owned : ℕ → Bool) {n : ℕ} {root next : Json} {ops : List Op}
    (h : applyOps root ops = .ok next) : applyImmutableFrom owned n root ops = .ok next := by
  induction ops generalizing n root with
  | nil => exact h
  | cons op ops ih =>
    rw [applyOps, List.foldlM_cons] at h
    cases hop : applyOp root op with
    | error error =>
      rw [hop] at h
      cases h
    | ok mid =>
      rw [hop] at h
      rw [applyImmutableFrom, applyOpImmutable_of_applyOp hop]
      exact ih h

theorem applyImmutable_of_applyOps (owned : ℕ → Bool) {target : Json}
    (h : applyOps target ops = .ok next) : applyImmutable owned target ops = .ok next :=
  applyImmutableFrom_of_applyOps owned h

/-! ### What it accepts -/

theorem applyEdit_of_appendCopy {index remove : ℕ} {items : List Json}
    (h : appendCopy owned root path index remove items = .ok (some next)) :
    applyEdit path (.splice index remove items) root = .ok next := by
  have hedit : ∃ final, applyEdit path (.splice index remove items) root = .ok final := by
    unfold appendCopy at h
    by_cases hremove : remove ≠ 0
    · rw [if_pos hremove] at h
      cases h
    rw [if_neg hremove] at h
    cases htarget : appendWalk path root with
    | none =>
      rw [htarget] at h
      cases h
    | some target =>
      cases target with
      | arr target =>
        have hroot : (Edit.splice index remove items).atRoot = true := rfl
        obtain ⟨final, hrun, -⟩ := modify_appendWalk path path.dropLast
          (f := (Edit.splice index remove items).onTarget path) rfl path htarget
        exact ⟨final, by rw [applyEdit, if_pos hroot, hrun]⟩
      | _ =>
        rw [htarget] at h
        cases h
  obtain ⟨final, hfinal⟩ := hedit
  obtain hnone | hsome := @appendCopy_exact owned _ _ _ _ _ _ hfinal
  · rw [hnone] at h
    cases h
  · rw [hsome] at h
    cases h
    exact hfinal

theorem applyOp_of_applyOpImmutable {op : Op} (h : applyOpImmutable owned root op = .ok next) :
    applyOp root op = .ok next := by
  unfold applyOpImmutable at h
  obtain ⟨_, hvalid, h⟩ := Except.bind_eq_ok h
  cases op with
  | replace value =>
    cases h
    rfl
  | edit path edit =>
    obtain ⟨appended, happended, h⟩ := Except.bind_eq_ok h
    cases appended with
    | some appended =>
      cases h
      cases edit with
      | splice index remove items =>
        rw [applyOp, hvalid]
        exact applyEdit_of_appendCopy happended
      | _ => cases happended
    | none =>
      obtain ⟨copied, hcopied, h⟩ := Except.bind_eq_ok h
      obtain ⟨_, -, hsame⟩ := Except.bind_eq_ok hcopied
      cases hsame
      obtain ⟨final, hfinal, h⟩ := Except.bind_eq_ok h
      cases h
      exact hfinal

theorem applyImmutableFrom_eq_ok (owned : ℕ → Bool) {n : ℕ} :
    applyImmutableFrom owned n root ops = .ok next ↔ applyOps root ops = .ok next := by
  refine ⟨fun h => ?_, applyImmutableFrom_of_applyOps owned⟩
  induction ops generalizing n root with
  | nil => exact h
  | cons op ops ih =>
    obtain ⟨mid, hmid, h⟩ := Except.bind_eq_ok h
    rw [applyOps, List.foldlM_cons, applyOp_of_applyOpImmutable hmid]
    exact ih h

end KnightCode.Delta
