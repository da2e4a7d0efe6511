import KnightCode.Delta.Container

/-!
# Operations on containers in memory

The appliers as they run: containers stand at addresses of a heap, elements and members are
primitives or references, and writes are to cells. `apply` writes to the containers it finds; the
replay of immutable values copies those on its way first, once, and remembers the copies it owns;
the trusted replay does so without checks, splicing by moving elements within the array.
-/

namespace KnightCode.Delta

/-- What a variable, an element or a member holds. -/
inductive Ref
  | null
  | bool (value : Bool)
  | num (value : ℚ)
  | str (text : Text)
  | container (address : ℕ)
  /-- An element a sparse array lacks; what reading an absent one gives. -/
  | hole

abbrev Cell := Container Ref

/-- Cells by address, the next address being the length. -/
abbrev Heap := List Cell

instance : Element Ref where
  absent := .hole
  text?
    | .str text => some text
    | _ => none
  ofText := .str

namespace OpOf

variable {α β : Type}

def map (f : α → β) : OpOf α → OpOf β
  | .replace value => .replace (f value)
  | .edit path e => .edit path (e.map f)

/-- The operation on values. -/
def toOp : OpOf Json → Op
  | .replace value => .replace value
  | .edit path e => .edit path e.toEdit

/-- `assertValidOp`; it does not look into the values an operation brings. -/
def assertValid (op : OpOf α) : Except DeltaError Unit :=
  assertValidOp (op.map fun _ => Json.null).toOp

end OpOf

namespace Heap

variable (heap : Heap)

def cell : Ref → Option Cell
  | .container address => heap[address]?
  | _ => none

/-! ### In place -/

/-- One step of `resolveValue`. -/
def step (path : Path) (node : Ref) (seg : Seg) : Except DeltaError Ref :=
  match cell heap node with
  | none => .error (.path path)
  | some cell =>
    match cell, seg with
    | .arr _, .key _ => .error seg.toError
    | _, _ =>
      match cell.child seg with
      | some value => .ok value
      | none => .error (.path path)

def resolve (path : Path) : Path → Ref → Except DeltaError ℕ
  | [], .container address => .ok address
  | [], _ => .error (.path path)
  | seg :: rest, node => do
    let value ← step heap path node seg
    resolve path rest value

/-- Write the cell of an address; no reference dangles. -/
def update (address : ℕ) (f : Cell → Except DeltaError Cell) : Except DeltaError Heap :=
  match heap[address]? with
  | none => .error (.path [])
  | some cell => (f cell).map (heap.set address)

def applyEdit (path : Path) (edit : EditOf Ref) (root : Ref) : Except DeltaError Heap :=
  if edit.atRoot then do
    let target ← resolve heap path path root
    update heap target (edit.onTarget path)
  else
    match path.getLast? with
    | none => .error (.path path)
    | some key => do
      let parent ← resolve heap path.dropLast path.dropLast root
      update heap parent fun cell => do
        cell.assertMember key
        edit.onMember path key cell

def applyOp (root : Ref) (op : OpOf Ref) : Except DeltaError (Heap × Ref) := do
  op.assertValid
  match op with
  | .replace value => return (heap, value)
  | .edit path edit => return (← applyEdit heap path edit root, root)

/-- `apply`. -/
def applyOps (root : Ref) (ops : List (OpOf Ref)) : Except DeltaError (Heap × Ref) :=
  ops.foldlM (fun w op => applyOp w.1 w.2 op) (heap, root)

/-- A plain step: a name that reaches no prototype into an object, an index into an array. -/
def plainStep : Seg → Cell → Bool
  | .key name, .obj _ => decide (name ∉ RESERVED_SEGMENTS)
  | .idx _, .arr _ => true
  | _, _ => false

def appendWalk : Path → Ref → Option Ref
  | [], target => some target
  | seg :: path, target =>
    match cell heap target with
    | none => none
    | some cell =>
      if plainStep seg cell && cell.hasOwn seg then (cell.child seg).bind (appendWalk path)
      else none

end Heap

/-! ### Without mutation -/

/-- A heap, and the containers a replay owns. -/
structure Replay where
  heap : Heap
  owned : List ℕ

/-- An error, and the heap it leaves. -/
structure Thrown where
  error : DeltaError
  heap : Heap

namespace Replay

/-- What a part that writes nothing comes to. -/
def attempt {α : Type} (r : Replay) (outcome : Except DeltaError α) : Except Thrown α :=
  outcome.mapError fun error => ⟨error, r.heap⟩

/-- A new container, owned. -/
def own (r : Replay) (cell : Cell) : Replay :=
  ⟨r.heap ++ [cell], r.heap.length :: r.owned⟩

/-- The own element a step of `copyContainers` goes to. -/
def ownChild (path : Path) (cell : Cell) (seg : Seg) : Except DeltaError Ref :=
  if cell.hasOwn seg then
    match cell, seg with
    | .arr _, .key _ => .error seg.toError
    | _, _ =>
      match cell.child seg with
      | some child => .ok child
      | none => .error (.path path)
  else .error (.path path)

def copyChild (path : Path) (r : Replay) (destination : ℕ) (cell : Cell) (seg : Seg) :
    Ref → Except Thrown (Replay × ℕ)
  | .container child =>
    if child ∈ r.owned then .ok (r, child)
    else
      match r.heap[child]? with
      | none => .error ⟨.path path, r.heap⟩
      | some copied =>
        .ok ({ r.own copied with
          heap := (r.own copied).heap.set destination
            (cell.write seg (.container r.heap.length)) }, r.heap.length)
  | _ => .error ⟨.path path, r.heap⟩

def copyWalk (path : Path) : Path → Replay → ℕ → Except Thrown Replay
  | [], r, _ => .ok r
  | seg :: rest, r, destination =>
    match r.heap[destination]? with
    | none => .error ⟨.path path, r.heap⟩
    | some cell => do
      let child ← r.attempt (ownChild path cell seg)
      let (r, destination) ← copyChild path r destination cell seg child
      copyWalk path rest r destination

def copyContainers (r : Replay) (root : Ref) (path : Path) : Except Thrown (Replay × Ref) :=
  match root with
  | .container address =>
    if address ∈ r.owned then do
      return (← copyWalk path path r address, root)
    else
      match r.heap[address]? with
      | none => .error ⟨.path path, r.heap⟩
      | some cell => do
        return (← copyWalk path path (r.own cell) r.heap.length, .container r.heap.length)
  | _ => .error ⟨.path path, r.heap⟩

/-- The appended array in the place of the one it extends. -/
def putAppended (r : Replay) (root : Ref) (path : Path) (appended : Ref) :
    Except Thrown (Replay × Ref) :=
  match path.getLast? with
  | none => .ok (r, appended)
  | some key => do
    let (r, copiedRoot) ← r.copyContainers root path.dropLast
    let heap ← r.attempt (r.heap.resolve path.dropLast path.dropLast copiedRoot >>= fun parent =>
      r.heap.update parent fun cell => .ok (cell.write key appended))
    return ({ r with heap := heap }, copiedRoot)

/-- An append to an array that is not owned yet. -/
def appendCopy (r : Replay) (root : Ref) (path : Path) (index remove : ℕ) (items : List Ref) :
    Except Thrown (Option (Replay × Ref)) :=
  if remove ≠ 0 then .ok none
  else
    match r.heap.appendWalk path root with
    | some (.container target) =>
      match r.heap[target]? with
      | some (.arr elements) =>
        if target ∈ r.owned ∨ index ≠ elements.length then .ok none
        else
          ((r.own (.arr (elements ++ items))).putAppended root path
            (.container r.heap.length)).map some
      | _ => .ok none
    | _ => .ok none

/-- The path whose containers an edit needs copied. -/
def editPath (path : Path) {α : Type} (edit : EditOf α) : Path :=
  if edit.atRoot then path else path.dropLast

def copyAndEdit (r : Replay) (root : Ref) (path : Path) (edit : EditOf Ref) :
    Except Thrown (Replay × Ref) := do
  let (r, copiedRoot) ← r.copyContainers root (editPath path edit)
  let (heap, root) ← r.attempt (r.heap.applyOp copiedRoot (.edit path edit))
  return ({ r with heap := heap }, root)

def applyOp (r : Replay) (root : Ref) (op : OpOf Ref) : Except Thrown (Replay × Ref) := do
  r.attempt op.assertValid
  match op with
  | .replace value => return (r, value)
  | .edit path (.splice index remove items) =>
    match ← r.appendCopy root path index remove items with
    | some appended => return appended
    | none => r.copyAndEdit root path (.splice index remove items)
  | .edit path edit => r.copyAndEdit root path edit

end Replay

def applyImmutableBatches (heap : Heap) (root : Ref) (batches : List (List (OpOf Ref))) :
    Except Thrown (Replay × Ref) :=
  batches.foldlM (fun w ops => ops.foldlM (fun w op => w.1.applyOp w.2 op) w) (⟨heap, []⟩, root)

/-! ### Trusted -/

inductive TrustedError
  /-- `TypeError` -/
  | type (message : String)
  /-- `RangeError`, of an array's length -/
  | range

namespace Trusted

def copyWithin {α : Type} (items : List α) (target start end' : ℕ) : List α :=
  let count := min (min end' items.length - start) (items.length - target)
  if count = 0 then items
  else items.take target ++ ((items.drop start).take count ++ items.drop (target + count))

/-- Define the element at an index; an array grows with holes. -/
def defineAt (items : List Ref) (index : ℕ) (value : Ref) : List Ref :=
  if index < items.length then items.set index value
  else items ++ (List.replicate (index - items.length) .hole ++ [value])

/-- Define elements from an index on. -/
def defineFrom (items : List Ref) (start : ℕ) : List Ref → List Ref
  | [] => items
  | value :: values => defineFrom (defineAt items start value) (start + 1) values

def spliceTrusted (target : List Ref) (start remove : ℕ) (items : List Ref) :
    Except TrustedError (List Ref) :=
  let oldLength := target.length
  if remove < items.length then
    let grown := target ++ List.replicate (items.length - remove) Ref.hole
    .ok (defineFrom (copyWithin grown (start + items.length) (start + remove) oldLength) start items)
  else if items.length < remove then
    let moved := copyWithin target (start + items.length) (start + remove) oldLength
    if oldLength + items.length < remove then .error .range
    else .ok (defineFrom (moved.take (oldLength + items.length - remove)) start items)
  else .ok (defineFrom target start items)

def permuteTrusted (target : List Ref) (permutation : List ℕ) : Except TrustedError (List Ref) :=
  if target.length ≠ permutation.length then .error (.type "Trusted permutation length mismatch")
  else .ok (permutation.map fun index => target.getD index .hole)

/-- An own element, one of an array by the text of its index too. -/
def read (target : Cell) (key : Seg) : Ref :=
  match target, key with
  | .arr items, .key name =>
    (((List.range items.length).find? fun index => JsonText.decimal index = name).bind
      (items[·]?)).getD .hole
  | _, _ => (target.child key).getD .hole

/-- `defineData`; what is no index of an array leaves its elements. -/
def define (target : Cell) (key : Seg) (value : Ref) : Cell :=
  match target, key with
  | .arr items, .idx index => .arr (defineAt items index value)
  | .arr items, .key _ => .arr items
  | .obj members, key => .obj (Assoc.set key.name value members)

def copyChild (r : Replay) (destination : ℕ) (cell : Cell) (seg : Seg) :
    Ref → Except TrustedError (Replay × ℕ)
  | .container child =>
    if child ∈ r.owned then .ok (r, child)
    else
      match r.heap[child]? with
      | none => .error (.type "Trusted operation path is not a container")
      | some copied =>
        .ok ({ r.own copied with
          heap := (r.own copied).heap.set destination
            (define cell seg (.container r.heap.length)) }, r.heap.length)
  | _ => .error (.type "Trusted operation path is not a container")

def copyWalk : Path → Replay → ℕ → Except TrustedError (Replay × ℕ)
  | [], r, destination => .ok (r, destination)
  | seg :: path, r, destination =>
    match r.heap[destination]? with
    | none => .error (.type "Trusted operation path is not a container")
    | some cell => do
      let (r, destination) ← copyChild r destination cell seg (read cell seg)
      copyWalk path r destination

def copyPath (r : Replay) (root : Ref) (path : Path) :
    Except TrustedError (Replay × Ref × ℕ) :=
  match root with
  | .container address =>
    if address ∈ r.owned then do
      let (r, target) ← copyWalk path r address
      return (r, root, target)
    else
      match r.heap[address]? with
      | none => .error (.type "Trusted operation root is not a container")
      | some cell => do
        let (r', target) ← copyWalk path (r.own cell) r.heap.length
        return (r', .container r.heap.length, target)
  | _ => .error (.type "Trusted operation root is not a container")

/-- What a trusted edit does to the container it finds; an edit without a path has the key
`undefined`. -/
def edited (path : Path) (edit : EditOf Ref) (target : Cell) : Except TrustedError Cell :=
  let key := path.getLast?.getD (.key (ascii "undefined"))
  match edit with
  | .splice index remove items =>
    match target with
    | .arr elements => (spliceTrusted elements index remove items).map .arr
    | .obj _ => .error (.type "Trusted array operation target is not an array")
  | .permute permutation =>
    match target with
    | .arr elements => (permuteTrusted elements permutation).map .arr
    | .obj _ => .error (.type "Trusted array operation target is not an array")
  | .set value => .ok (define target key value)
  | .delete =>
    match target, key with
    | .arr elements, .idx index => (spliceTrusted elements index 1 []).map .arr
    | .arr _, .key _ => .error (.type "Trusted array deletion key is not numeric")
    | .obj members, key => .ok (.obj (Assoc.erase key.name members))
  | .append text =>
    match read target key with
    | .str current => .ok (define target key (.str (current ++ text)))
    | _ => .error (.type "Trusted append target is not a string")
  | .truncate count =>
    match read target key with
    | .str current => .ok (define target key (.str (current.drop count)))
    | _ => .error (.type "Trusted truncate target is not a string")

def applyOp (r : Replay) (root : Ref) (op : OpOf Ref) : Except TrustedError (Replay × Ref) :=
  match op with
  | .replace value => .ok (r, value)
  | .edit path edit => do
    let (r, copiedRoot, target) ← copyPath r root (Replay.editPath path edit)
    match r.heap[target]? with
    | none => .error (.type "Trusted operation path is not a container")
    | some cell => do
      let cell ← edited path edit cell
      return ({ r with heap := r.heap.set target cell }, copiedRoot)

end Trusted

def applyImmutableTrusted (heap : Heap) (root : Ref) (ops : List (OpOf Ref)) :
    Except TrustedError (Replay × Ref) :=
  ops.foldlM (fun w op => Trusted.applyOp w.1 w.2 op) (⟨heap, []⟩, root)

end KnightCode.Delta
