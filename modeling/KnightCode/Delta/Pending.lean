import KnightCode.Delta.Codec
import KnightCode.Delta.Walk

/-!
# The pending queue

The operations a slow consumer of one state has not taken yet, folded while they wait. Batches are
arrays of operation tuples, kept by reference and shared with other consumers, so the queue works
on a memory of arrays and tuples: whatever it changes, it changes there.
-/

namespace KnightCode.Delta

/-- Arrays, each a list of references to tuples, and the tuples. -/
structure Memory where
  array : ℕ → List ℕ
  tuple : ℕ → Op
  /-- The arrays made so far have the addresses below this one. -/
  arrays : ℕ
  tuples : ℕ

namespace Memory

def newTuple (memory : Memory) (op : Op) : ℕ × Memory :=
  (memory.tuples,
    { memory with
      tuple := Function.update memory.tuple memory.tuples op
      tuples := memory.tuples + 1 })

def newArray (memory : Memory) (refs : List ℕ) : ℕ × Memory :=
  (memory.arrays,
    { memory with
      array := Function.update memory.array memory.arrays refs
      arrays := memory.arrays + 1 })

def setArray (memory : Memory) (address : ℕ) (refs : List ℕ) : Memory :=
  { memory with array := Function.update memory.array address refs }

/-- The operations an array holds. -/
def ops (memory : Memory) (address : ℕ) : List Op :=
  (memory.array address).map memory.tuple

end Memory

/-- Pending operations past which only a replacement with the current value stays pending. -/
def MAX_PENDING_OPS : ℕ := 10000

structure Folding where
  /-- Owned by the queue until it is taken. -/
  ops : ℕ
  /-- Path key to the position of the last pending leaf operation on that path. -/
  leaves : List (Text × ℕ)

inductive Pending
  | empty
  /-- One batch, kept by reference. -/
  | batch (ops : ℕ)
  | folding (folding : Folding)
  /-- Overflowed. -/
  | replace

inductive PendingTake
  | ops (ops : ℕ)
  | replace

/-- The address of the empty array that an empty queue hands over. -/
def NO_OPS : ℕ := 0

/-- `next` folded into `previous`, which is on the same path. -/
def merge (memory : Memory) (previous next : ℕ) : Option (ℕ × Memory) :=
  match memory.tuple previous, memory.tuple next with
  | _, .edit _ (.set _) => some (next, memory)
  | .edit path (.append text), .edit _ (.append more) =>
    some (memory.newTuple (.edit path (.append (text ++ more))))
  | .edit path (.set (.str text)), .edit _ (.append more) =>
    some (memory.newTuple (.edit path (.set (.str (text ++ more)))))
  | _, _ => none

/-- Merge a leaf operation into the last pending one on its path, or index it at the position it is
about to be pushed to. True when merged. -/
def mergeLeaf (path : Path) (op : ℕ) (memory : Memory) (folding : Folding) :
    Bool × Memory × Folding :=
  let key := pathKey path
  let merged : Option (ℕ × ℕ × Memory) := do
    let position ← Assoc.get key folding.leaves
    let previous ← (memory.array folding.ops)[position]?
    let (tuple, memory) ← merge memory previous op
    return (position, tuple, memory)
  match merged with
  | some (position, tuple, memory) =>
    (true, memory.setArray folding.ops ((memory.array folding.ops).set position tuple), folding)
  | none =>
    let position := (memory.array folding.ops).length
    (false, memory, { folding with leaves := Assoc.set key position folding.leaves })

/-- What an operation does to the folding before it is pushed. True when it need not be. -/
def foldOp (op : ℕ) (memory : Memory) (folding : Folding) : Bool × Memory × Folding :=
  match memory.tuple op with
  | .replace _ => (false, memory.setArray folding.ops [], { folding with leaves := [] })
  | .edit path (.append _) => mergeLeaf path op memory folding
  | .edit path (.set value) =>
    if value.isPrimitive then mergeLeaf path op memory folding
    else (false, memory, { folding with leaves := [] })
  | _ => (false, memory, { folding with leaves := [] })

/-- Fold operations; nothing once the queue overflowed. -/
def fold : List ℕ → Memory → Folding → Memory × Option Folding
  | [], memory, folding => (memory, some folding)
  | op :: rest, memory, folding =>
    match foldOp op memory folding with
    | (true, memory, folding) => fold rest memory folding
    | (false, memory, folding) =>
      let memory := memory.setArray folding.ops (memory.array folding.ops ++ [op])
      if MAX_PENDING_OPS < (memory.array folding.ops).length then (memory, none)
      else fold rest memory folding

def Pending.ofFold : Option Folding → Pending
  | some queue => .folding queue
  | none => .replace

namespace Pending

/-- Queue the operations of one commit. -/
def push (ops : ℕ) (memory : Memory) (state : Pending) : Memory × Pending :=
  if memory.array ops = [] then (memory, state)
  else if isBase (memory.ops ops) then (memory, .batch ops)
  else
    match state with
    | .empty => (memory, .batch ops)
    | .batch first =>
      let (address, memory) := memory.newArray []
      match fold (memory.array first) memory ⟨address, []⟩ with
      | (memory, none) => (memory, .replace)
      | (memory, some queue) =>
        let (memory, folded) := fold (memory.array ops) memory queue
        (memory, ofFold folded)
    | .folding queue =>
      let (memory, folded) := fold (memory.array ops) memory queue
      (memory, ofFold folded)
    | .replace => (memory, .replace)

def take : Pending → PendingTake × Pending
  | .empty => (.ops NO_OPS, .empty)
  | .batch ops => (.ops ops, .empty)
  | .folding queue => (.ops queue.ops, .empty)
  | .replace => (.replace, .empty)

end Pending

end KnightCode.Delta
