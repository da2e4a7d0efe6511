import KnightCode.Store.Expression

/-!
# The JavaScript evaluator of the table vocabulary

The `tx.get` overlay matches conditions and applies sets to rows with SQL's three-valued rules and
code point text order. Arithmetic is on integers; every sum and difference is checked against
`SAFE`.
-/

namespace KnightCode.Store

variable {κ : Type}

/-- SQL's three-valued truth: `none` is unknown. -/
abbrev Truth := Option Bool

def both (a b : Truth) : Truth :=
  if a = some false ∨ b = some false then some false
  else if a = none ∨ b = none then none
  else some true

def either (a b : Truth) : Truth :=
  if a = some true ∨ b = some true then some true
  else if a = none ∨ b = none then none
  else some false

/-- `Number(b)`. -/
def ofBool (b : Bool) : ℚ := if b then 1 else 0

/-- Orders two cells of one column as SQLite does. -/
def compareScalar : Scalar → Scalar → ℚ
  | .text a, .text b => Utf8.compareText a b
  | .int a, .int b => a - b
  | .num a, .num b => a - b
  | .bool a, .bool b => ofBool a - ofBool b
  | _, _ => 0

def Comparison.holds (order : ℚ) : Comparison → Bool
  | .eq => order = 0
  | .ne => order ≠ 0
  | .lt => order < 0
  | .lte => order ≤ 0
  | .gt => 0 < order
  | .gte => 0 ≤ order

/-- The names of the members every object inherits. -/
def inheritedNames : List String :=
  ["constructor", "hasOwnProperty", "isPrototypeOf", "propertyIsEnumerable", "toLocaleString",
    "toString", "valueOf", "__defineGetter__", "__defineSetter__", "__lookupGetter__",
    "__lookupSetter__", "__proto__"]

/-- Why an evaluation gives no value: it throws, or it reads a cell that is absent under the name of
an inherited member. What the code then makes of that member is not followed. -/
inductive Stop
  | thrown (error : Invalid)
  | inherited (name : String)

/-- Whether `row[column]` is a member every object inherits. -/
def Row.inherits (row : Row κ) (column : String) : Bool :=
  (row column).isNone ∧ column ∈ inheritedNames

/-- `row[column]`. -/
def Row.read (row : Row κ) (column : String) : Except Stop (Option (Cell κ)) :=
  if row.inherits column then .error (.inherited column) else .ok (row column)

/-- A scalar operand; the compiler lets no other cell be one. -/
def Cell.scalar? : Option (Cell κ) → Option Scalar
  | some (.scalar value) => some value
  | _ => none

def startsWith (text : Text) : Scalar → Bool
  | .text value => text.isPrefixOf value
  | _ => false

mutual

def truth (row : Row κ) : WhereNode → Except Stop Truth
  | .and nodes => truthAnd row (some true) nodes
  | .or nodes => truthOr row (some false) nodes
  | .not node => (truth row node).map (Option.map (!·))
  | .isNull column => (row.read column).map fun cell => some cell.isNone
  | .inArray column values =>
    if values.isEmpty then .ok (some false)
    else (row.read column).map fun cell => (Cell.scalar? cell).map fun value =>
      values.any fun each => compareScalar value each = 0
  | .startsWith column text =>
    (row.read column).map fun cell => (Cell.scalar? cell).map (startsWith text)
  | .compare op column operand =>
    (row.read column).map fun cell => (Cell.scalar? cell).map fun value =>
      op.holds (compareScalar value operand)

/-- `reduce` with `both`; a false accumulator stays, its rest not evaluated. -/
def truthAnd (row : Row κ) (all : Truth) : List WhereNode → Except Stop Truth
  | [] => .ok all
  | node :: rest =>
    if all = some false then truthAnd row all rest
    else do truthAnd row (both all (← truth row node)) rest

def truthOr (row : Row κ) (any : Truth) : List WhereNode → Except Stop Truth
  | [] => .ok any
  | node :: rest =>
    if any = some true then truthOr row any rest
    else do truthOr row (either any (← truth row node)) rest

end

def matchesRow (node : WhereNode) (row : Row κ) : Except Stop Bool :=
  (truth row node).map fun truth => truth = some true

/-- A sum of safe integers as a double: from 2^53 on the nearest even multiple of its spacing. -/
def toDouble (n : ℤ) : ℤ :=
  if n.natAbs ≤ 2 ^ 53 then n
  else if n % 4 = 1 then n - 1
  else if n % 4 = 3 then n + 1
  else n

/-- A result of integer arithmetic, refused outside ±(2^53 - 1). -/
def checked (table : String) (op : Operation) (result : ℤ) : Except Stop (Option (Cell κ)) :=
  let result := toDouble result
  if result > SAFE ∨ result < -SAFE then
    (invalid "args" s!"{table}: {op.label} gives {result}, outside ±(2^53 - 1)").mapError .thrown
  else .ok (some (.scalar (.int result)))

/-- An operation on two values of the column's type. -/
def operate (table : String) (op : Operation) (a b : Scalar) : Except Stop (Option (Cell κ)) :=
  match op, a, b with
  | .concat, .text a, .text b => .ok (some (.scalar (.text (a ++ b))))
  | .max, a, b => .ok (some (.scalar (if 0 ≤ compareScalar a b then a else b)))
  | .min, a, b => .ok (some (.scalar (if compareScalar a b ≤ 0 then a else b)))
  | .add, .int a, .int b => checked table op (a + b)
  | .sub, .int a, .int b => checked table op (a - b)
  | _, _, _ => .ok none

def replacePrefix (from' to' : Text) : Option (Cell κ) → Option (Cell κ)
  | some (.scalar (.text value)) =>
    if from'.isPrefixOf value then some (.scalar (.text (to' ++ value.drop from'.length)))
    else some (.scalar (.text value))
  | value => value

def evaluate (table : String) (row : Row κ) : ExprNode κ → Except Stop (Option (Cell κ))
  | .null => .ok none
  | .literal value => .ok (some (.scalar value))
  | .col name => row.read name
  | .json value => .ok (some (.json value))
  | .when condition a b => do
    if ← matchesRow condition row then evaluate table row a else evaluate table row b
  | .coalesce a b => do
    match ← evaluate table row a with
    | some value => return some value
    | none => evaluate table row b
  | .replacePrefix subject from' to' =>
    (evaluate table row subject).map (replacePrefix from' to')
  | .binary op x y => do
    let a ← evaluate table row x
    let b ← evaluate table row y
    match Cell.scalar? a, Cell.scalar? b with
    | some a, some b => operate table op a b
    | _, _ => return none

/-- `row` after `set`, every right side evaluated against `row`. -/
def applySet (table : String) (set : SetNode κ) (row : Row κ) : Except Stop (Row κ) :=
  set.foldlM (fun next entry => (evaluate table row entry.2).map fun value => .literal
    (Function.update next entry.1 value)) row

end KnightCode.Store
