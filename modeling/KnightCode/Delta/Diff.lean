import KnightCode.Delta.Revision

/-!
# The difference of two revisions

`diffRevisions` compares two revisions in memory and emits the operations that lead from one to the
other. Arrays are aligned region by region: a region is a pair of sublists, its matches are
positions in them, and what lies between two matches is a region again.
-/

namespace KnightCode.Delta

def DEFAULT_OVERLAP_SCAN : ℕ := 65536

def MAX_DELTA_OPERATIONS : ℕ := 4096

/-- The operations so far; once they overflowed, none is added. -/
structure Batch where
  operations : List Op
  overflowed : Bool

def emitOperation (operation : Op) (batch : Batch) : Batch :=
  if batch.overflowed then batch
  else if MAX_DELTA_OPERATIONS ≤ batch.operations.length then { batch with overflowed := true }
  else { batch with operations := batch.operations ++ [operation] }

namespace Node

def isContainer : Node → Bool
  | .arr .. => true
  | .obj .. => true
  | _ => false

def items : Node → List Node
  | .arr _ items => items
  | _ => []

def members : Node → List (Text × Node)
  | .obj _ members => members
  | _ => []

end Node

def emitSet (path : Path) (value : Node) (batch : Batch) : Batch :=
  if path = [] then emitOperation (.replace value.toJson) batch
  else emitOperation (.edit path (.set value.toJson)) batch

/-! ### Permutations -/

def indexPositions : ℕ → List Node → List (Node.Key × List ℕ) → List (Node.Key × List ℕ)
  | _, [], positions => positions
  | index, value :: values, positions =>
    let indices := (Assoc.get value.key positions).getD []
    indexPositions (index + 1) values (Assoc.set value.key (indices ++ [index]) positions)

/-- The next unused position of every value, `used` being how many of each are. -/
def takePositions (positions : List (Node.Key × List ℕ)) :
    List (Node.Key × ℕ) → List Node → Option (List ℕ)
  | _, [] => some []
  | used, value :: values => do
    let indices ← Assoc.get value.key positions
    let count := (Assoc.get value.key used).getD 0
    let index ← indices[count]?
    let rest ← takePositions positions (Assoc.set value.key (count + 1) used) values
    return index :: rest

def permutationOf (before after : List Node) : Option (List ℕ) :=
  if before.length ≠ after.length then none
  else takePositions (indexPositions 0 before []) [] after

/-! ### Strings -/

/-- The first position of `head` in a text whose first position is `start`. -/
def indexOf (head : Text) (start : ℕ) (text : Text) : Option ℕ :=
  if head.isPrefixOf text then some start
  else
    match text with
    | [] => none
    | _ :: rest => indexOf head (start + 1) rest

/-- The candidates for an overlap that begin with `head`, a bounded number of them. -/
def tryCandidates (tail b head : Text) : ℕ → ℕ → Option ℕ
  | 0, _ => none
  | candidates + 1, start =>
    match indexOf head start (tail.drop start) with
    | none => none
    | some k =>
      let n := tail.length - k
      if n ≤ b.length ∧ tail.drop k = b.take n then some n
      else tryCandidates tail b head candidates (k + 1)

/-- A suffix of `a` that is a prefix of `b`, as its length. -/
def overlap (a b : Text) (scan probe maxCandidates : ℕ) : ℕ :=
  if a = [] ∨ b = [] ∨ scan = 0 then 0
  else
    let tail := if scan < a.length then a.drop (a.length - scan) else a
    let head := min probe b.length
    match tryCandidates tail b (b.take head) maxCandidates 0 with
    | some n => n
    | none =>
      if head = 1 then 0 else (tryCandidates tail b (b.take 1) maxCandidates 0).getD 0

def ownedSlice (text : Text) (start : ℕ) : Text :=
  (text.drop start ++ ascii " ").dropLast

def emitString (before after : Text) (path : Path) (batch : Batch) : Batch :=
  if before = after then batch
  else if before.length < after.length ∧ after.take before.length = before then
    emitOperation (.edit path (.append (ownedSlice after before.length))) batch
  else
    let shared := overlap before after DEFAULT_OVERLAP_SCAN 64 8
    if shared = 0 then emitOperation (.edit path (.set (.str after))) batch
    else
      let batch := emitOperation (.edit path (.truncate (before.length - shared))) batch
      if shared < after.length then
        emitOperation (.edit path (.append (ownedSlice after shared))) batch
      else batch

/-! ### Matches -/

def MAX_IDENTITY_CANDIDATES : ℕ := 200000

def MAX_SEMANTIC_CELLS : ℕ := 65536

def sameValue (left right : Node) : Bool :=
  left.same right || left.equalJson right

def lengthsRow (equal : Node → Node → Bool) (left : Node) : List Node → List ℕ → List ℕ
  | [], _ => [0]
  | right :: after, below =>
    let row := lengthsRow equal left after below.tail
    let length :=
      if equal left right then below.tail.headD 0 + 1 else max (below.headD 0) (row.headD 0)
    length :: row

/-- The length of a longest common subsequence of what is left at each pair of positions. -/
def lengthsTable (equal : Node → Node → Bool) : List Node → List Node → List (List ℕ)
  | [], after => [List.replicate (after.length + 1) 0]
  | left :: before, after =>
    let rows := lengthsTable equal before after
    lengthsRow equal left after (rows.headD []) :: rows

def walkLengths (equal : Node → Node → Bool) (lengths : ℕ → ℕ → ℕ) :
    List Node → List Node → ℕ → ℕ → List (ℕ × ℕ)
  | b :: before, a :: after, left, right =>
    if equal b a ∧ lengths left right = lengths (left + 1) (right + 1) + 1 then
      (left, right) :: walkLengths equal lengths before after (left + 1) (right + 1)
    else if lengths left (right + 1) ≤ lengths (left + 1) right then
      walkLengths equal lengths before (a :: after) (left + 1) right
    else walkLengths equal lengths (b :: before) after left (right + 1)
  | _, _, _, _ => []
termination_by before after => before.length + after.length

def lcsMatches (before after : List Node) (equal : Node → Node → Bool) (maxCells : ℕ) :
    Option (List (ℕ × ℕ)) :=
  if before = [] ∨ after = [] then some []
  else if maxCells < before.length * after.length then none
  else
    let table := lengthsTable equal before after
    some (walkLengths equal (fun left right => (table.getD left []).getD right 0) before after 0 0)

def semanticallyAligned (left right : Node) : Bool :=
  sameValue left right ||
    match left, right with
    | .arr _ items, .arr _ others =>
      decide (items.length = others.length) &&
        (items.zip others).any fun (value, other) => value.isContainer && value.same other
    | .obj _ members, .obj _ others =>
      members.any fun (name, value) =>
        value.isContainer && ((Assoc.get name others).map value.same).getD false
    | _, _ => false

/-- The bounds of a binary search come together. -/
def searchBounds (values : List ℕ) (value low high : ℕ) : ℕ :=
  if low < high then
    let middle := (low + high) / 2
    if values.getD middle 0 < value then searchBounds values value (middle + 1) high
    else searchBounds values value low middle
  else low
termination_by high - low

def lowerBound (values : List ℕ) (value : ℕ) : ℕ :=
  searchBounds values value 0 values.length

/-- Every one of `needles`, found from `index` on in order; the first of them is at `position`. -/
def findInOrder : List Node → List Node → ℕ → ℕ → Option (List (ℕ × ℕ))
  | _, [], _, _ => some []
  | [], _ :: _, _, _ => none
  | value :: values, needle :: needles, index, position =>
    if value.same needle then
      (findInOrder values needles (index + 1) (position + 1)).map ((index, position) :: ·)
    else findInOrder values (needle :: needles) (index + 1) position

def identitySubsequence (before after : List Node) : Option (List (ℕ × ℕ)) :=
  if after.length < before.length then findInOrder before after 0 0
  else if before.length < after.length then (findInOrder after before 0 0).map (List.map Prod.swap)
  else none

/-- The first position of every value that is not before `next`, one past the last one taken. -/
def greedyIdentityAnchors (positions : List (Node.Key × List ℕ)) :
    List Node → ℕ → ℕ → List (ℕ × ℕ)
  | [], _, _ => []
  | value :: after, afterIndex, next =>
    match Assoc.get value.key positions with
    | none => greedyIdentityAnchors positions after (afterIndex + 1) next
    | some candidates =>
      match candidates[lowerBound candidates next]? with
      | none => greedyIdentityAnchors positions after (afterIndex + 1) next
      | some beforeIndex =>
        (beforeIndex, afterIndex) ::
          greedyIdentityAnchors positions after (afterIndex + 1) (beforeIndex + 1)

structure MatchCandidate where
  before : ℕ
  after : ℕ
  previous : Option ℕ

/-- The candidates so far, and for each length the one that ends a sequence of it lowest. -/
structure Anchors where
  candidates : List MatchCandidate
  tails : List ℕ
  tailValues : List ℕ

/-- `values[position] = value`, where `position` may be the end. -/
def assignAt (values : List ℕ) (position value : ℕ) : List ℕ :=
  if position < values.length then values.set position value else values ++ [value]

def addCandidate (afterIndex beforeIndex : ℕ) (anchors : Anchors) : Anchors :=
  let position := lowerBound anchors.tailValues beforeIndex
  let previous := if position = 0 then none else anchors.tails[position - 1]?
  { candidates := anchors.candidates ++ [⟨beforeIndex, afterIndex, previous⟩]
    tails := assignAt anchors.tails position anchors.candidates.length
    tailValues := assignAt anchors.tailValues position beforeIndex }

def addCandidates (positions : List (Node.Key × List ℕ)) : List Node → ℕ → Anchors → Anchors
  | [], _, anchors => anchors
  | value :: after, afterIndex, anchors =>
    let beforePositions := (Assoc.get value.key positions).getD []
    addCandidates positions after (afterIndex + 1)
      (beforePositions.foldr (addCandidate afterIndex) anchors)

def chain (candidates : List MatchCandidate) : ℕ → Option ℕ → List (ℕ × ℕ)
  | 0, _ => []
  | _, none => []
  | fuel + 1, some index =>
    match candidates[index]? with
    | none => []
    | some candidate =>
      (candidate.before, candidate.after) :: chain candidates fuel candidate.previous

def candidateCount (positions : List (Node.Key × List ℕ)) (after : List Node) : ℕ :=
  (after.map fun value => ((Assoc.get value.key positions).getD []).length).foldr (· + ·) 0

def identityAnchors (before after : List Node) : List (ℕ × ℕ) :=
  let positions := indexPositions 0 before []
  if MAX_IDENTITY_CANDIDATES < candidateCount positions after then
    greedyIdentityAnchors positions after 0 0
  else
    let anchors := addCandidates positions after 0 ⟨[], [], []⟩
    (chain anchors.candidates anchors.candidates.length anchors.tails.getLast?).reverse

/-- The positions at which a region of two equal lengths is the same. -/
def positionalMatches : List Node → List Node → ℕ → List (ℕ × ℕ)
  | b :: before, a :: after, offset =>
    if sameValue b a then (offset, offset) :: positionalMatches before after (offset + 1)
    else positionalMatches before after (offset + 1)
  | _, _, _ => []

/-- The matches of the first alignment that has any. -/
def regionMatches (before after : List Node) : List (ℕ × ℕ) :=
  let positional :=
    if before.length = after.length then positionalMatches before after 0 else []
  let subsequence := (identitySubsequence before after).getD []
  if positional ≠ [] then positional
  else if subsequence ≠ [] then subsequence
  else
    let identity := identityAnchors before after
    if identity ≠ [] then identity
    else (lcsMatches before after semanticallyAligned MAX_SEMANTIC_CELLS).getD []

/-! ### Values -/

def slice (start stop : ℕ) (values : List Node) : List Node :=
  (values.take stop).drop start

/-- A region without its common beginning. -/
def dropShared : List Node → List Node → ℕ → List Node × List Node × ℕ
  | b :: before, a :: after, outputStart =>
    if sameValue b a then dropShared before after (outputStart + 1)
    else (b :: before, a :: after, outputStart)
  | before, after, outputStart => (before, after, outputStart)

/-- A region without its common end. -/
def dropSharedEnd (before after : List Node) : List Node × List Node :=
  let (before, after, _) := dropShared before.reverse after.reverse 0
  (before.reverse, after.reverse)

def emitDeletions (after : List (Text × Node)) (path : Path) :
    List (Text × Node) → Batch → Batch
  | [], batch => batch
  | (name, _) :: before, batch =>
    if batch.overflowed then batch
    else if Assoc.get name after = none then
      emitDeletions after path before (emitOperation (.edit (path ++ [.key name]) .delete) batch)
    else emitDeletions after path before batch

/-! The functions below call each other on parts of their arguments; `fuel` bounds the depth of the
calls, and `diffRevisions` has enough of it. -/

mutual

def diffValue : ℕ → Node → Node → Path → Batch → Option Batch
  | 0, _, _, _, _ => none
  | fuel + 1, before, after, path, batch =>
    if before.same after ∨ batch.overflowed then some batch
    else
      match before, after with
      | .str left, .str right =>
        if path ≠ [] then some (emitString left right path batch)
        else some (emitSet path after batch)
      | .arr .., .arr .. => diffArray fuel before after path batch
      | .obj .., .obj .. => diffObject fuel before after path batch
      | _, _ => some (emitSet path after batch)

def diffArray : ℕ → Node → Node → Path → Batch → Option Batch
  | 0, _, _, _, _ => none
  | fuel + 1, before, after, path, batch =>
    if before.same after ∨ before.equalJson after then some batch
    else
      let order :=
        if before.items.length = after.items.length ∧ 1 < before.items.length ∧
            ¬ sameValue (before.items.headD .null) (after.items.headD .null) ∧
            ¬ sameValue (before.items.getLastD .null) (after.items.getLastD .null) then
          permutationOf before.items after.items
        else none
      match order with
      | some order => some (emitOperation (.edit path (.permute order)) batch)
      | none => diffArrayRegion fuel before.items after.items path 0 batch

def diffArrayRegion : ℕ → List Node → List Node → Path → ℕ → Batch → Option Batch
  | 0, _, _, _, _, _ => none
  | fuel + 1, before, after, path, outputStart, batch =>
    if batch.overflowed then some batch
    else
      let (before, after, outputStart) := dropShared before after outputStart
      let (before, after) := dropSharedEnd before after
      let replacement :=
        Op.edit path (.splice outputStart before.length (after.map Node.toJson))
      if before.length = 0 ∧ after.length = 0 then some batch
      else if before.length = 0 ∨ after.length = 0 then some (emitOperation replacement batch)
      else
        let found := regionMatches before after
        if found ≠ [] then
          processArrayMatches fuel before after path 0 0 outputStart found batch
        else if before.length = 1 ∧ after.length = 1 then
          diffValue fuel (before.headD .null) (after.headD .null) (path ++ [.idx outputStart]) batch
        else some (emitOperation replacement batch)

def processArrayMatches :
    ℕ → List Node → List Node → Path → ℕ → ℕ → ℕ → List (ℕ × ℕ) → Batch → Option Batch
  | 0, _, _, _, _, _, _, _, _ => none
  | fuel + 1, before, after, path, beforeAt, afterAt, outputAt, [], batch =>
    if batch.overflowed then some batch
    else diffArrayRegion fuel (before.drop beforeAt) (after.drop afterAt) path outputAt batch
  | fuel + 1, before, after, path, beforeAt, afterAt, outputAt,
      (beforeMatch, afterMatch) :: found, batch =>
    if batch.overflowed then some batch
    else do
      let batch ← diffArrayRegion fuel (slice beforeAt beforeMatch before)
        (slice afterAt afterMatch after) path outputAt batch
      let outputAt := outputAt + (afterMatch - afterAt)
      let left := before.getD beforeMatch .null
      let right := after.getD afterMatch .null
      let changed :=
        if sameValue left right then some batch
        else diffValue fuel left right (path ++ [.idx outputAt]) batch
      let batch ← changed
      processArrayMatches fuel before after path (beforeMatch + 1) (afterMatch + 1) (outputAt + 1)
        found batch

def diffObject : ℕ → Node → Node → Path → Batch → Option Batch
  | 0, _, _, _, _ => none
  | fuel + 1, before, after, path, batch =>
    if (Assoc.keys before.members ++ Assoc.keys after.members).any (· ∈ RESERVED_SEGMENTS) then
      if before.equalJson after then some batch else some (emitSet path after batch)
    else do
      let batch ← diffMembers fuel before.members path after.members batch
      return emitDeletions after.members path before.members batch

def diffMembers :
    ℕ → List (Text × Node) → Path → List (Text × Node) → Batch → Option Batch
  | 0, _, _, _, _ => none
  | _ + 1, _, _, [], batch => some batch
  | fuel + 1, before, path, (name, value) :: after, batch =>
    if batch.overflowed then some batch
    else do
      let changed :=
        match Assoc.get name before with
        | some old => diffValue fuel old value (path ++ [.key name]) batch
        | none => some (emitSet (path ++ [.key name]) value batch)
      let batch ← changed
      diffMembers fuel before path after batch

end

/-! ### Costs -/

section Cost

-- `String(value)`
variable (numberText : ℚ → Text)

mutual

def jsonCost : Json → ℕ
  | .null => 4
  | .str text => text.length + 2
  | .num value => (numberText value).length
  | .bool value => if value then 4 else 5
  | .arr items => 2 + itemsCost items + (items.length - 1)
  | .obj members => 2 + membersCost members + (members.length - 1)

def itemsCost : List Json → ℕ
  | [] => 0
  | item :: items => jsonCost item + itemsCost items

def membersCost : List (Text × Json) → ℕ
  | [] => 0
  | (name, value) :: members => name.length + 3 + jsonCost value + membersCost members

end

def segCost : Seg → ℕ
  | .key name => name.length + 2
  | .idx index => (numberText index).length

def pathCost (path : Path) : ℕ :=
  2 + (path.map (segCost numberText)).foldr (· + ·) 0 + (path.length - 1)

def operationCost : Op → ℕ
  | .replace value => 6 + jsonCost numberText value
  | .edit path edit =>
    match edit with
    | .set value => 7 + pathCost numberText path + jsonCost numberText value
    | .delete => 6 + pathCost numberText path
    | .append text => 7 + pathCost numberText path + text.length + 2
    | .truncate count => 7 + pathCost numberText path + (numberText count).length
    | .splice index remove items =>
      10 + pathCost numberText path + (numberText index).length + (numberText remove).length +
        jsonCost numberText (.arr items)
    | .permute permutation =>
      7 + pathCost numberText path +
        jsonCost numberText (.arr (permutation.map fun (index : ℕ) => .num index))

def deltaCost (operations : List Op) : ℕ :=
  operations.foldl (fun cost operation => cost + (operationCost numberText operation + 1)) 2

/-- A compact batch that leads from `before` to `after`. -/
def diffRevisions (before after : Node) : Option (List Op) := do
  let batch ← diffValue (3 * (before.weight + after.weight)) before after [] ⟨[], false⟩
  if batch.overflowed then return [.replace after.toJson]
  if batch.operations.isEmpty ∨ isBase batch.operations then return batch.operations
  if deltaCost numberText batch.operations < 65536 then return batch.operations
  let snapshotCost := jsonCost numberText after.toJson + 6
  return if snapshotCost ≤ deltaCost numberText batch.operations then [.replace after.toJson]
    else batch.operations

end Cost

end KnightCode.Delta
