import KnightCode.Delta.PieceTree

/-!
# Plans for an edited array

A plan turns the base array into the sequence its pieces denote: runs of elements are removed from
the end, what is retained is permuted, and runs of new elements are inserted. The fast plan reads
the runs off the pieces and gives up when base elements moved; the other walks the elements.
-/

namespace KnightCode.Delta

/-- Consecutive insert pieces: where they go, the first piece and the one behind the last. -/
structure InsertRun where
  logicalIndex : ℕ
  first : ℕ
  stop : ℕ
  deriving DecidableEq

structure ArrayPlan where
  /-- Start and length of each run. -/
  removeRuns : List (ℕ × ℕ)
  permutation : Option (List ℕ)
  insertRuns : List InsertRun
  deriving DecidableEq

/-! ### Insert runs -/

def Piece.isInsert (p : Piece) : Bool :=
  decide (p.kind ≠ .base)

def rangeLength (pieces : List Piece) : ℕ :=
  (pieces.map Piece.length).sum

def insertRunsFrom (pieceIndex logicalIndex : ℕ) : List Piece → List InsertRun
  | [] => []
  | piece :: rest =>
    if piece.kind = .base then insertRunsFrom (pieceIndex + 1) (logicalIndex + piece.length) rest
    else
      let run := piece :: rest.takeWhile Piece.isInsert
      let behind := logicalIndex + rangeLength run
      ⟨behind - rangeLength run, pieceIndex, pieceIndex + run.length⟩ ::
        insertRunsFrom (pieceIndex + run.length) behind (rest.dropWhile Piece.isInsert)
  termination_by pieces => pieces.length
  decreasing_by
    · exact lt_add_one _
    · exact Nat.lt_succ_of_le (List.dropWhile_sublist _).length_le

def insertRunsOf (pieces : List Piece) : List InsertRun :=
  insertRunsFrom 0 0 pieces

/-! ### The plan of ordered pieces -/

/-- The retained base ranges, first and last index of each, the last range first. `none` when base
elements moved. -/
def orderedRanges : List (ℕ × ℕ) → List Piece → Option (List (ℕ × ℕ))
  | ranges, [] => some ranges
  | ranges, piece :: rest =>
    if piece.kind ≠ .base ∨ piece.length = 0 then orderedRanges ranges rest
    else if piece.step ≠ .forward ∧ 1 < piece.length then none
    else if ranges.head?.any fun range => decide (piece.start ≤ range.2) then none
    else orderedRanges ((piece.start, piece.start + piece.length - 1) :: ranges) rest

/-- Unretained runs from the end backwards: behind the last range, between ranges, before the
first. -/
def gapsBefore : ℕ → List (ℕ × ℕ) → List (ℕ × ℕ)
  | stop, [] => if 0 < stop then [(0, stop)] else []
  | stop, (first, last) :: rest =>
    if last + 1 < stop then (last + 1, stop - (last + 1)) :: gapsBefore first rest
    else gapsBefore first rest

def orderedArrayPlan (baseLength : ℕ) (pieces : List Piece) : Option ArrayPlan :=
  (orderedRanges [] pieces).map fun ranges =>
    ⟨gapsBefore baseLength ranges, none, insertRunsOf pieces⟩

/-! ### The plan from the elements -/

/-- Where the run of unretained elements before `start` begins. -/
def runStart (retained : List Bool) : ℕ → ℕ
  | 0 => 0
  | start + 1 => if retained.getD start false then start + 1 else runStart retained start

theorem runStart_le (retained : List Bool) (start : ℕ) : runStart retained start ≤ start := by
  induction start with
  | zero => exact Nat.le_refl _
  | succ start ih =>
    rw [runStart]
    split_ifs <;> omega

/-- The runs of unretained elements before `stop`, the last one first. -/
def removeRunsOf (retained : List Bool) : ℕ → List (ℕ × ℕ)
  | 0 => []
  | stop + 1 =>
    if retained.getD stop false then removeRunsOf retained stop
    else (runStart retained stop, stop + 1 - runStart retained stop) ::
      removeRunsOf retained (runStart retained stop)
  termination_by stop => stop
  decreasing_by
    · exact lt_add_one _
    · exact Nat.lt_succ_of_le (runStart_le retained stop)

/-- The array of flags, one per base element. -/
def retainedOf (baseLength : ℕ) (targetBase : List ℕ) : List Bool :=
  targetBase.foldl (fun retained index => retained.set index true)
    (List.replicate baseLength false)

def retainedBaseOf (baseLength : ℕ) (retained : List Bool) : List ℕ :=
  (List.range baseLength).filter fun index => retained.getD index false

def elementArrayPlan (baseLength : ℕ) (pieces : List Piece) : ArrayPlan :=
  let targetBase := baseIndices pieces
  let retained := retainedOf baseLength targetBase
  let retainedBase := retainedBaseOf baseLength retained
  { removeRuns := removeRunsOf retained baseLength
    permutation :=
      if targetBase.zipIdx.any fun (value, index) => retainedBase[index]? != some value then
        some (targetBase.map fun value => retainedBase.idxOf value)
      else none
    insertRuns := insertRunsOf pieces }

def buildArrayPlan (baseLength : ℕ) (pieces : List Piece) : ArrayPlan :=
  (orderedArrayPlan baseLength pieces).getD (elementArrayPlan baseLength pieces)

/-! ### The operations of a plan -/

variable (items : ℕ → ℕ → Json)

/-- The elements of an insert piece, `items source index` being the value of one. -/
def Piece.inserted (p : Piece) : List Json :=
  match p.kind with
  | .base => []
  | .insert source => p.indices.map (items source)

/-- What a plan adds to a batch, in its order. The stop past `MAX_DELTA_OPERATIONS` is left out: such
a batch is replaced as a whole. -/
def ArrayPlan.operations (path : Path) (pieces : List Piece) (plan : ArrayPlan) : List Op :=
  (plan.removeRuns.map fun run => Op.edit path (.splice run.1 run.2 [])) ++
    (plan.permutation.toList.map fun permutation => Op.edit path (.permute permutation)) ++
      plan.insertRuns.map fun run =>
        Op.edit path (.splice run.logicalIndex 0
          (((pieces.take run.stop).drop run.first).flatMap (Piece.inserted items)))

/-- The sequence the pieces denote. -/
def denoted (base : List Json) (pieces : List Piece) : List Json :=
  pieces.flatMap fun p =>
    match p.kind with
    | .base => p.indices.map fun index => base.getD index .null
    | .insert source => p.indices.map (items source)

end KnightCode.Delta
