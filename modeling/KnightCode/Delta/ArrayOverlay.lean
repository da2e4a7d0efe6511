import KnightCode.Delta.PieceTree

/-!
# An array under edit

The overlay of an array: its piece tree, the elements of each insertion, and the values written over
single elements. The mutators replace ranges of the sequence by new elements; `reverse` turns every
piece around; `sort` reads the sequence, runs a comparator that may itself edit the array, and puts
the elements it read back in their new order.
-/

namespace KnightCode.Delta

variable {α : Type}

structure ArrayOverlay (α : Type) where
  root : PieceTree
  /-- `refs` of every insertion, by its identity. -/
  sources : List (List α)
  /-- `baseOverrides` and `insertOverrides`. -/
  overrides : Entry → Option α
  generation : ℕ
  seed : UInt32

namespace ArrayOverlay

/-- `arrayOverlay` of a base array. -/
def new (base : List α) : ArrayOverlay α :=
  if base = [] then ⟨.nil, [], fun _ => none, 0, 0x9e3779b9⟩
  else
    let (root, seed) := createPieceNode 0x9e3779b9 ⟨.base, 0, base.length, .forward⟩
    ⟨root, [], fun _ => none, 0, seed⟩

def arrayLength (o : ArrayOverlay α) : ℕ :=
  o.root.treeElements

def piecesOf (o : ArrayOverlay α) : List Piece :=
  o.root.flatten

def entries (o : ArrayOverlay α) : List Entry :=
  o.piecesOf.flatMap Piece.entries

def refs (o : ArrayOverlay α) (source : ℕ) : List α :=
  o.sources.getD source []

def sourceValue (base : List α) (o : ArrayOverlay α) (entry : Entry) : Option α :=
  match entry.1 with
  | .base => base[entry.2]?
  | .insert source => (o.refs source)[entry.2]?

def entryValueAt (base : List α) (o : ArrayOverlay α) (entry : Entry) : Option α :=
  (o.overrides entry).or (o.sourceValue base entry)

/-- The represented sequence. -/
def values (base : List α) (o : ArrayOverlay α) : List (Option α) :=
  o.entries.map (o.entryValueAt base)

/-! ### Ranges -/

/-- `insertPiece` and `insertPlacementPiece`: a new source, its elements from `start` on. -/
def insertPiece (refs : List α) (start : ℕ) (o : ArrayOverlay α) : ArrayOverlay α × List Piece :=
  if refs.length = start then (o, [])
  else
    ({ o with sources := o.sources ++ [refs] },
      [⟨.insert o.sources.length, start, refs.length - start, .forward⟩])

/-- The source whose elements the last piece ends with, when one inserted piece may extend it. -/
def tailSource (o : ArrayOverlay α) (addition : Piece) : Option (ℕ × ℕ) :=
  match o.root, addition.kind with
  | .node piece _ right _ _, .insert source =>
    let tail := rightmostPiece piece right
    match tail.kind with
    | .insert extended =>
      if tail.step = .forward ∧ tail.start + tail.length = (o.refs extended).length then
        some (extended, source)
      else none
    | .base => none
  | _, _ => none

def extendTail (o : ArrayOverlay α) (addition : Piece) (extended source : ℕ) : ArrayOverlay α :=
  { o with
    root := extendRightmostPiece addition.length o.root
    sources :=
      o.sources.set extended
        (o.refs extended ++ ((o.refs source).drop addition.start).take addition.length)
    generation := o.generation + 1 }

/-- The tree with another range in place of the `remove` elements at `index`. -/
def rejoin (o : ArrayOverlay α) (index remove : ℕ) (inserted : List Piece) :
    Option (ArrayOverlay α) :=
  let (left, rest, seed) := splitPieceTree o.seed o.root index
  let (_, right, seed) := splitPieceTree seed rest remove
  let (middle, seed) := treeFromPieces seed inserted
  let fuel := left.nodes + middle.nodes + right.nodes + 1
  (joinNormalized fuel seed left middle).bind fun (joined, seed) =>
    (joinNormalized fuel seed joined right).map fun (root, seed) =>
      { o with root := root, seed := seed, generation := o.generation + 1 }

def replacePieceRange (o : ArrayOverlay α) (index remove : ℕ) (inserted : List Piece) :
    Option (ArrayOverlay α) :=
  if remove = 0 ∧ inserted = [] then some o
  else
    match (if remove = 0 ∧ index = o.arrayLength then inserted else []) with
    | [addition] =>
      match o.tailSource addition with
      | some (extended, source) => some (o.extendTail addition extended source)
      | none => o.rejoin index remove inserted
    | _ => o.rejoin index remove inserted

/-- Replace a range by the elements of `refs` from `start` on, what each mutator but `reverse` and
`sort` does to the sequence. -/
def replaceRange (o : ArrayOverlay α) (index remove : ℕ) (refs : List α) (start : ℕ) :
    Option (ArrayOverlay α) :=
  let (o, inserted) := o.insertPiece refs start
  o.replacePieceRange index remove inserted

def replaceAllPieces (o : ArrayOverlay α) (pieces : List Piece) : ArrayOverlay α :=
  let (root, seed) := treeFromPieces o.seed pieces
  { o with root := root, seed := seed, generation := o.generation + 1 }

/-! ### Mutators -/

/-- Write a value over the element at `index`, or take back what was written: the caller's choice
by whether the value is the element's own. -/
def writeEntry (o : ArrayOverlay α) (index : ℕ) (value : Option α) : ArrayOverlay α :=
  match o.entries[index]? with
  | some entry => { o with overrides := Function.update o.overrides entry value }
  | none => o

def reversedPiece (p : Piece) : Piece :=
  match p.step with
  | .forward => { p with start := p.start + (p.length - 1), step := .backward }
  | .backward => { p with start := p.start - (p.length - 1), step := .forward }

def reverse (o : ArrayOverlay α) : ArrayOverlay α :=
  if o.arrayLength < 2 then o
  else o.replaceAllPieces (o.piecesOf.reverse.map reversedPiece)

/-- Pieces, the last one first, with one more element. -/
def addToken (pieces : List Piece) (entry : Entry) : List Piece :=
  let single : Piece := ⟨entry.1, entry.2, 1, .forward⟩
  match pieces with
  | [] => [single]
  | previous :: rest =>
    if previous.kind = entry.1 then
      if previous.length = 1 then
        if previous.Adjacent single then
          { previous with step := previous.stepTo single, length := 2 } :: rest
        else single :: previous :: rest
      else if previous.Follows single then
        { previous with length := previous.length + 1 } :: rest
      else single :: previous :: rest
    else single :: previous :: rest

def piecesFromSortOrder (order : List Entry) : List Piece :=
  (order.foldl addToken []).reverse

def appendMergedPiece (pieces : List Piece) (piece : Piece) : List Piece :=
  match pieces with
  | [] => [piece]
  | previous :: rest =>
    match previous.merged piece with
    | some merged => merged :: rest
    | none => piece :: previous :: rest

/-- An element that was met before gets a source of its own, with a copy of its value. -/
def deduplicate (base : List α) (o : ArrayOverlay α) :
    List Entry → List Entry → List Piece → ArrayOverlay α × List Piece × Bool
  | _, [], next => (o, next.reverse, false)
  | seen, entry :: rest, next =>
    if entry ∈ seen then
      let (o, inserted) := o.insertPiece (o.entryValueAt base entry).toList 0
      let (o, next, _) := deduplicate base o seen rest (inserted.foldl appendMergedPiece next)
      (o, next, true)
    else
      deduplicate base o (entry :: seen) rest
        (appendMergedPiece next ⟨entry.1, entry.2, 1, .forward⟩)

def deduplicateArrayEntries (base : List α) (o : ArrayOverlay α) : ArrayOverlay α :=
  match deduplicate base o [] o.entries [] with
  | (o', next, true) => o'.replaceAllPieces next
  | (_, _, false) => o

/-- What a sort read before its comparator ran. -/
structure SortStart (α : Type) where
  order : List Entry
  overrides : Entry → Option α
  generation : ℕ

def sortStart (o : ArrayOverlay α) : SortStart α :=
  ⟨o.entries, o.overrides, o.generation⟩

/-- The values written over the sorted elements are those there were before the comparator ran. -/
def restoreSortOverrides (o : ArrayOverlay α) (started : SortStart α) : ArrayOverlay α :=
  { o with
    overrides := fun entry =>
      if entry ∈ started.order then started.overrides entry else o.overrides entry }

/-- The rest of a sort, once its comparator has run and the order is known. -/
def sortEnd (base : List α) (o : ArrayOverlay α) (started : SortStart α) (order : List Entry) :
    Option (ArrayOverlay α) :=
  let o := o.restoreSortOverrides started
  let structural := o.generation ≠ started.generation
  let sorted :=
    if order <+: o.entries then some o
    else o.replacePieceRange 0 (min order.length o.arrayLength) (piecesFromSortOrder order)
  sorted.map fun o => if structural then o.deduplicateArrayEntries base else o

end ArrayOverlay

/-- An array, and the sorts whose comparators are running, the innermost first. -/
structure EditedArray (α : Type) where
  overlay : ArrayOverlay α
  sorting : List (ArrayOverlay.SortStart α)

inductive ArrayAct (α : Type)
  | replaceRange (index remove : ℕ) (refs : List α) (start : ℕ)
  | writeEntry (index : ℕ) (value : Option α)
  | reverse
  | sortStart
  | sortEnd (order : List Entry)
  | sortThrown

end KnightCode.Delta
