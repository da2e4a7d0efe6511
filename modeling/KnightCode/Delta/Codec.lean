import KnightCode.Delta.Op
import KnightCode.Library.Assoc

/-!
# The path codec

What crosses a boundary is a list of tuples. A path goes out inline on its first use, is given an
id on its second, and is left out while it stays the path of the operation before; the number of
elements of a tuple tells whether it names a path. A replacement starts both dictionaries again.
-/

namespace KnightCode.Delta

def Seg.stringify : Seg → Text
  | .key name => JsonText.quote name
  | .idx index => JsonText.decimal index

/-- The segments after the first one, and the closing bracket. -/
def pathTail : Path → Text
  | [] => ascii "]"
  | seg :: path => ascii "," ++ (seg.stringify ++ pathTail path)

/-- `JSON.stringify(path)`. -/
def pathKey : Path → Text
  | [] => ascii "[]"
  | seg :: path => ascii "[" ++ (seg.stringify ++ pathTail path)

/-! ### Tuples -/

def Edit.verb : Edit → Text
  | .set _ => ascii "s"
  | .delete => ascii "d"
  | .append _ => ascii "a"
  | .truncate _ => ascii "t"
  | .splice .. => ascii "p"
  | .permute _ => ascii "m"

/-- The elements of a tuple after its path. -/
def Edit.args : Edit → List Json
  | .set value => [value]
  | .delete => []
  | .append text => [.str text]
  | .truncate count => [.num count]
  | .splice index remove items => [.num index, .num remove, .arr items]
  | .permute permutation => [.arr (permutation.map fun (index : ℕ) => .num index)]

inductive PathRef
  | path (path : Path)
  | id (id : ℕ)

def PathRef.toJson : PathRef → Json
  | .path p => p.toJson
  | .id n => .num n

/-- What a tuple says once it is checked. -/
inductive WireOp
  | replace (value : Json)
  | define (id : ℕ) (path : Path)
  | edit (ref : Option PathRef) (edit : Edit)

/-- `Number.isInteger(value) && value >= 0`. -/
def natural : Json → Option ℕ
  | .num value => if value.den = 1 ∧ 0 ≤ value.num then some value.num.toNat else none
  | _ => none

/-- `assertSafePath` of segments as received. -/
def safePath : List Json → Except DeltaError Path
  | [] => .ok []
  | .str name :: path =>
    if name ∈ RESERVED_SEGMENTS then .error (.unsafePath (.str name))
    else (safePath path).map (List.cons (.key name))
  | seg :: path =>
    match natural seg with
    | some index => (safePath path).map (List.cons (.idx index))
    | none => .error (.unsafePath seg)

def okRef : Json → Except DeltaError PathRef
  | .num value =>
    match natural (.num value) with
    | some id => .ok (.id id)
    | none => .error (.type "bad path id")
  | .arr path => (safePath path).map .path
  | _ => .error (.type "path is not an array")

/-- A natural number, or the error of its check. -/
def count (value : Json) (message : String) : Except DeltaError ℕ :=
  match natural value with
  | some n => .ok n
  | none => .error (.type message)

/-- `assertPermutation` of a value as received: `length` items, `seen` met so far. -/
def permutation (length : ℕ) : List ℕ → List Json → Except DeltaError (List ℕ)
  | _, [] => .ok []
  | seen, value :: rest =>
    match natural value with
    | none => .error (.type "m permutation is not a bijection")
    | some index =>
      if length ≤ index ∨ index ∈ seen then .error (.type "m permutation is not a bijection")
      else (permutation length (index :: seen) rest).map (List.cons index)

def okPermutation : Json → Except DeltaError (List ℕ)
  | .arr items => permutation items.length [] items
  | _ => .error (.type "m permutation is not an array")

def okText : Json → Except DeltaError Text
  | .str text => .ok text
  | _ => .error (.type "a value")

def okItems : Json → Except DeltaError (List Json)
  | .arr items => .ok items
  | _ => .error (.type "p items")

/-- The splice of a checked tuple. -/
def okSplice (index remove items : Json) : Except DeltaError Edit := do
  let index ← count index "p index"
  let remove ← count remove "p remove"
  let items ← okItems items
  return .splice index remove items

/-- `assertValidWireOp`, with what the tuple says. -/
def assertValidWireOp : List Json → Except DeltaError WireOp
  | .str verb :: op =>
    if verb = ascii "r" then
      match op with
      | [value] => .ok (.replace value)
      | _ => .error (.type "r arity")
    else if verb = ascii "s" then
      match op with
      | [ref, value] => do
        let ref ← okRef ref
        return .edit ref (.set value)
      | [value] => .ok (.edit none (.set value))
      | _ => .error (.type "s arity")
    else if verb = ascii "d" then
      match op with
      | [ref] => do
        let ref ← okRef ref
        return .edit ref .delete
      | [] => .ok (.edit none .delete)
      | _ => .error (.type "d arity")
    else if verb = ascii "a" then
      match op with
      | [ref, text] => do
        let ref ← okRef ref
        let text ← okText text
        return .edit ref (.append text)
      | [text] => (okText text).map fun text => .edit none (.append text)
      | _ => .error (.type "a arity")
    else if verb = ascii "t" then
      match op with
      | [ref, n] => do
        let ref ← okRef ref
        let n ← count n "t count"
        return .edit ref (.truncate n)
      | [n] => (count n "t count").map fun n => .edit none (.truncate n)
      | _ => .error (.type "t arity")
    else if verb = ascii "p" then
      match op with
      | [ref, index, remove, items] => do
        let ref ← okRef ref
        let edit ← okSplice index remove items
        return .edit ref edit
      | [index, remove, items] => (okSplice index remove items).map (.edit none)
      | _ => .error (.type "p arity")
    else if verb = ascii "m" then
      match op with
      | [ref, value] => do
        let ref ← okRef ref
        let p ← okPermutation value
        return .edit ref (.permute p)
      | [value] => (okPermutation value).map fun p => .edit none (.permute p)
      | _ => .error (.type "m arity")
    else if verb = ascii "#" then
      match op with
      | [id, .arr path] => do
        let id ← count id "# shape"
        let path ← safePath path
        return .define id path
      | _ => .error (.type "# shape")
    else .error (.unknownVerb (.str verb))
  | [] => .error (.type "op is not a tuple")
  | verb :: _ => .error (.unknownVerb verb)

/-! ### The encoder -/

structure Encoder where
  seen : List Text
  ids : List (Text × ℕ)
  nextId : ℕ
  /-- The last path in this batch. -/
  previous : Option Text

def encoder : Encoder where
  seen := []
  ids := []
  nextId := 0
  previous := none

/-- The tuples of one operation. -/
def encodeOp (e : Encoder) : Op → List (List Json) × Encoder
  | .replace value => ([[.str (ascii "r"), value]], encoder)
  | .edit path edit =>
    let key := pathKey path
    if e.previous = some key then ([.str edit.verb :: edit.args], e)
    else
      let tuple (ref : PathRef) := .str edit.verb :: ref.toJson :: edit.args
      let e := { e with previous := some key }
      match Assoc.get key e.ids with
      | some id => ([tuple (.id id)], e)
      | none =>
        if key ∈ e.seen then
          ([[.str (ascii "#"), .num e.nextId, path.toJson], tuple (.id e.nextId)],
            { e with ids := Assoc.set key e.nextId e.ids, nextId := e.nextId + 1 })
        else ([tuple (.path path)], { e with seen := key :: e.seen })

def encodeOps (e : Encoder) : List Op → List (List Json) × Encoder
  | [] => ([], e)
  | op :: ops =>
    let (out, e) := encodeOp e op
    let (rest, e) := encodeOps e ops
    (out ++ rest, e)

def encode (e : Encoder) (ops : List Op) : List (List Json) × Encoder :=
  encodeOps { e with previous := none } ops

/-! ### The decoder -/

structure Decoder where
  paths : List (ℕ × Path)

def decoder : Decoder where
  paths := []

/-- The path an operation names, or the one before. -/
def resolveRef (d : Decoder) (previous : Option Path) : Option PathRef → Except DeltaError Path
  | none =>
    match previous with
    | some path => .ok path
    | none => .error (.path [])
  | some (.id id) =>
    match Assoc.get id d.paths with
    | some path => .ok path
    | none => .error (.id id)
  | some (.path path) => .ok path

/-- The tuples left of a batch, after one whose path was `previous`. -/
def decodeFrom (d : Decoder) (previous : Option Path) :
    List (List Json) → Except DeltaError (List Op × Decoder)
  | [] => .ok ([], d)
  | tuple :: wire => do
    match ← assertValidWireOp tuple with
    | .define id path => decodeFrom { d with paths := Assoc.set id path d.paths } previous wire
    | .replace value =>
      let (ops, d) ← decodeFrom decoder none wire
      return (.replace value :: ops, d)
    | .edit ref edit =>
      let path ← resolveRef d previous ref
      if ¬ edit.atRoot ∧ path = [] then .error (.path path)
      let (ops, d) ← decodeFrom d (some path) wire
      return (.edit path edit :: ops, d)

def decode (d : Decoder) (wire : List (List Json)) : Except DeltaError (List Op × Decoder) :=
  decodeFrom d none wire

/-! ### Sequences of batches -/

def encodeAll (e : Encoder) : List (List Op) → List (List (List Json))
  | [] => []
  | batch :: batches =>
    let (wire, e) := encode e batch
    wire :: encodeAll e batches

def decodeAll (d : Decoder) : List (List (List Json)) → Except DeltaError (List (List Op))
  | [] => .ok []
  | wire :: wires => do
    let (ops, d) ← decode d wire
    let rest ← decodeAll d wires
    return ops :: rest

end KnightCode.Delta
