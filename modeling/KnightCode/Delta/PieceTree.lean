import KnightCode.Delta.Apply

/-!
# Piece trees

A piece is a run of elements of one source, the base array or the elements of one insertion, taken
forwards or backwards. The pieces of an edited array are the nodes of a treap: in order they make
the sequence, and every node counts the elements below it. Trees are cut between two elements and
joined again; where two trees are joined, the pieces that meet become one when their elements follow
each other.
-/

namespace KnightCode.Delta

/-- `kind`, and `source` of an insert piece: its identity. -/
inductive PieceKind
  | base
  | insert (source : ℕ)
  deriving DecidableEq

/-- `step`: 1 or -1. -/
inductive PieceStep
  | forward
  | backward
  deriving DecidableEq

structure Piece where
  kind : PieceKind
  start : ℕ
  length : ℕ
  step : PieceStep
  deriving DecidableEq

/-- An element of an edited array: an element of a source. -/
abbrev Entry := PieceKind × ℕ

/-- `start + step * offset` -/
def PieceStep.from (step : PieceStep) (start offset : ℕ) : ℕ :=
  match step with
  | .forward => start + offset
  | .backward => start - offset

namespace Piece

def indices (p : Piece) : List ℕ :=
  (List.range p.length).map (p.step.from p.start)

def entries (p : Piece) : List Entry :=
  p.indices.map fun index => (p.kind, index)

@[simp] theorem length_indices (p : Piece) : p.indices.length = p.length := by
  simp [indices]

@[simp] theorem length_entries (p : Piece) : p.entries.length = p.length := by
  simp [entries]

theorem indices_forward {p : Piece} (h : p.step = .forward) :
    p.indices = List.range' p.start p.length := by
  rw [indices, h, List.range'_eq_map_range]
  rfl

theorem indices_single {p : Piece} (h : p.length = 1) : p.indices = [p.start] := by
  rw [indices, h]
  cases p.step <;> rfl

end Piece

def baseIndices (pieces : List Piece) : List ℕ :=
  pieces.flatMap fun p => if p.kind = .base then p.indices else []

theorem baseIndices_cons (p : Piece) (pieces : List Piece) :
    baseIndices (p :: pieces) = (if p.kind = .base then p.indices else []) ++ baseIndices pieces :=
  List.flatMap_cons

end KnightCode.Delta

/-! ### Trees -/

namespace KnightCode.Delta

inductive PieceTree
  | nil
  | node (piece : Piece) (left right : PieceTree) (priority : UInt32) (elements : ℕ)

/-- The state of the generator after its next number, which is that number. -/
def nextPiecePriority (seed : UInt32) : UInt32 :=
  let value := seed ^^^ (seed <<< 13)
  let value := value ^^^ (value >>> 17)
  value ^^^ (value <<< 5)

namespace PieceTree

def treeElements : PieceTree → ℕ
  | nil => 0
  | node _ _ _ _ elements => elements

/-- A node whose count is brought up to date. -/
def updated (piece : Piece) (left right : PieceTree) (priority : UInt32) : PieceTree :=
  node piece left right priority (left.treeElements + piece.length + right.treeElements)

def nodes : PieceTree → ℕ
  | nil => 0
  | node _ left right _ _ => left.nodes + right.nodes + 1

def flatten : PieceTree → List Piece
  | nil => []
  | node piece left right _ _ => left.flatten ++ piece :: right.flatten

end PieceTree

open PieceTree

/-- The new node and the generator's next state. -/
def createPieceNode (seed : UInt32) (piece : Piece) : PieceTree × UInt32 :=
  (.node piece .nil .nil (nextPiecePriority seed) piece.length, nextPiecePriority seed)

def mergePieceTrees : PieceTree → PieceTree → PieceTree
  | .nil, right => right
  | left, .nil => left
  | .node p a b u m, .node q c d v n =>
    if v ≤ u then updated p a (mergePieceTrees b (.node q c d v n)) u
    else updated q (mergePieceTrees (.node p a b u m) c) d v
  termination_by left right => left.nodes + right.nodes
  decreasing_by all_goals simp only [nodes]; omega

/-- The trees before and behind `index`. -/
def splitPieceTree (seed : UInt32) : PieceTree → ℕ → PieceTree × PieceTree × UInt32
  | .nil, _ => (.nil, .nil, seed)
  | .node piece left right priority _, index =>
    let leftLength := left.treeElements
    let pieceEnd := leftLength + piece.length
    if index < leftLength then
      let (before, behind, seed) := splitPieceTree seed left index
      (before, updated piece behind right priority, seed)
    else if pieceEnd < index then
      let (before, behind, seed) := splitPieceTree seed right (index - pieceEnd)
      (updated piece left before priority, behind, seed)
    else if index = leftLength then (left, updated piece .nil right priority, seed)
    else if index = pieceEnd then (updated piece left .nil priority, right, seed)
    else
      let offset := index - leftLength
      let (first, seed) := createPieceNode seed { piece with length := offset }
      let (second, seed) := createPieceNode seed
        { piece with
          start := piece.step.from piece.start offset
          length := piece.length - offset }
      (mergePieceTrees left first, mergePieceTrees second right, seed)

def rightmostPiece : Piece → PieceTree → Piece
  | piece, .nil => piece
  | _, .node piece _ right _ _ => rightmostPiece piece right

def leftmostPiece : Piece → PieceTree → Piece
  | piece, .nil => piece
  | _, .node piece left _ _ _ => leftmostPiece piece left

/-! ### Pieces that follow each other -/

namespace Piece

/-- `left.start + left.step * left.length === right.start` -/
def Follows (left right : Piece) : Prop :=
  match left.step with
  | .forward => left.start + left.length = right.start
  | .backward => left.start = right.start + left.length

/-- `Math.abs(right.start - left.start) === 1` -/
def Adjacent (left right : Piece) : Prop :=
  left.start + 1 = right.start ∨ left.start = right.start + 1

instance (left right : Piece) : Decidable (left.Follows right) := by
  unfold Follows
  cases left.step <;> infer_instance

instance (left right : Piece) : Decidable (left.Adjacent right) :=
  inferInstanceAs (Decidable (_ ∨ _))

/-- `right.start - left.start` of adjacent pieces. -/
def stepTo (left right : Piece) : PieceStep :=
  if left.start + 1 = right.start then .forward else .backward

/-- What two pieces in a list become when the second continues the first. -/
def merged (left right : Piece) : Option Piece :=
  if left.kind = right.kind ∧ left.length = 1 ∧ right.length = 1 ∧ left.Adjacent right then
    some { left with step := left.stepTo right, length := 2 }
  else if left.kind = right.kind ∧ left.step = right.step ∧ left.Follows right then
    some { left with length := left.length + right.length }
  else none

end Piece

def mergeablePieces (left right : Piece) : Bool :=
  if left.kind ≠ right.kind then false
  else if left.length = 1 ∧ right.length = 1 then decide (left.Adjacent right)
  else decide (left.step = right.step ∧ left.Follows right)

/-- The piece that stands for two mergeable ones. -/
def combinedPiece (left right : Piece) : Piece where
  kind := left.kind
  start := left.start
  length := left.length + right.length
  step := if left.length = 1 then left.stepTo right else left.step

/-- Join two trees, merging the pieces that meet. Every call below has fewer pieces, which `fuel`
counts. -/
def joinNormalized : ℕ → UInt32 → PieceTree → PieceTree → Option (PieceTree × UInt32)
  | 0, _, _, _ => none
  | _ + 1, seed, .nil, right => some (right, seed)
  | _ + 1, seed, left, .nil => some (left, seed)
  | fuel + 1, seed, .node p a b u m, .node q c d v n =>
    let leftPiece := rightmostPiece p b
    let rightPiece := leftmostPiece q c
    if mergeablePieces leftPiece rightPiece then
      let (leftRest, _, seed) := splitPieceTree seed (.node p a b u m) (m - leftPiece.length)
      let (_, rightRest, seed) := splitPieceTree seed (.node q c d v n) rightPiece.length
      let (middle, seed) := createPieceNode seed (combinedPiece leftPiece rightPiece)
      (joinNormalized fuel seed leftRest middle).bind fun (joined, seed) =>
        joinNormalized fuel seed joined rightRest
    else some (mergePieceTrees (.node p a b u m) (.node q c d v n), seed)

/-- The pieces behind `left`, each merged into the one before where it continues it. -/
def mergeFrom (left : Piece) : List Piece → List Piece
  | [] => [left]
  | right :: rest =>
    match left.merged right with
    | some piece => mergeFrom piece rest
    | none => left :: mergeFrom right rest

def mergePieces : List Piece → List Piece
  | [] => []
  | piece :: rest => mergeFrom piece rest

/-- Nodes for the pieces, joined one behind the other. -/
def addPieces (seed : UInt32) (root : PieceTree) : List Piece → PieceTree × UInt32
  | [] => (root, seed)
  | piece :: rest =>
    let (single, seed) := createPieceNode seed piece
    addPieces seed (mergePieceTrees root single) rest

def treeFromPieces (seed : UInt32) (pieces : List Piece) : PieceTree × UInt32 :=
  addPieces seed .nil (mergePieces pieces)

def extendRightmostPiece (amount : ℕ) : PieceTree → PieceTree
  | .nil => .nil
  | .node piece left .nil priority _ =>
    updated { piece with length := piece.length + amount } left .nil priority
  | .node piece left (.node q c d v n) priority _ =>
    updated piece left (extendRightmostPiece amount (.node q c d v n)) priority

end KnightCode.Delta
