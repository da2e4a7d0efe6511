import KnightCode.Store.Evaluate
import Mathlib.Data.Int.Log
import Mathlib.Data.Rat.Floor

/-!
# The statements of a table

`exprSql`, `whereSql` and `setSql` render compiled nodes to SQL whose values are positional
parameters; a statement is bound by giving each `?`, in the order of the text, the next parameter.
`SqlExpr.eval` is SQLite's meaning of a bound expression: `NULL` propagates, conditions have three
truth values, text is compared by code point, and a sum or difference beyond 64 bits is a real. What
a column may hold is checked when it is assigned.
-/

namespace KnightCode.Store

variable {κ : Type}

/-- What a `?` is bound to. The text `JSON.stringify` gives for the values of an `inArray`, which
`json_each` reads back, stands for those values. -/
inductive Param
  | value (value : SqlValue)
  | array (values : List SqlValue)

mutual

inductive SqlExpr
  | null
  | param
  | bound (value : SqlValue)
  | column (name : PhysicalColumn)
  | add (a b : SqlExpr)
  | sub (a b : SqlExpr)
  | max (a b : SqlExpr)
  | min (a b : SqlExpr)
  | concat (a b : SqlExpr)
  | coalesce (a b : SqlExpr)
  | substr (a start length : SqlExpr)
  | substrFrom (a start : SqlExpr)
  | case (condition : SqlCondition) (a b : SqlExpr)

inductive SqlCondition
  | truth (value : Bool)
  | compare (op : Comparison) (a b : SqlExpr)
  | isNull (a : SqlExpr)
  | each (a : SqlExpr)
  | boundEach (a : SqlExpr) (values : List SqlValue)
  | and (a b : SqlCondition)
  | or (a b : SqlCondition)
  | not (a : SqlCondition)

end

/-! ### Rendering -/

/-- Whatever is rendered, and the parameters with its own pushed. -/
abbrev Rendered (α : Type) := α × List Param

mutual

def whereSql : WhereNode → List Param → Rendered SqlCondition
  | .and [], params => (.truth true, params)
  | .and (node :: rest), params =>
    let first := whereSql node params
    andSql first.1 rest first.2
  | .or [], params => (.truth false, params)
  | .or (node :: rest), params =>
    let first := whereSql node params
    orSql first.1 rest first.2
  | .not node, params =>
    let inner := whereSql node params
    (.not inner.1, inner.2)
  | .isNull column, params => (.isNull (.column (.cell column)), params)
  | .inArray column values, params =>
    (.each (.column (.cell column)), params ++ [.array (values.map toSqlite)])
  | .startsWith column text, params =>
    match Utf8.prefixUpperBound text with
    | none =>
      (.compare .gte (.column (.cell column)) .param, params ++ [.value (toSqlite (.text text))])
    | some upper =>
      (.and (.compare .gte (.column (.cell column)) .param) (.compare .lt (.column (.cell column))
        .param), params ++ [.value (toSqlite (.text text)), .value (toSqlite (.text upper))])
  | .compare op column operand, params =>
    (.compare op (.column (.cell column)) .param, params ++ [.value (toSqlite operand)])

/-- `join(" AND ")`. -/
def andSql (all : SqlCondition) : List WhereNode → List Param → Rendered SqlCondition
  | [], params => (all, params)
  | node :: rest, params =>
    let next := whereSql node params
    andSql (.and all next.1) rest next.2

/-- `join(" OR ")`. -/
def orSql (any : SqlCondition) : List WhereNode → List Param → Rendered SqlCondition
  | [], params => (any, params)
  | node :: rest, params =>
    let next := whereSql node params
    orSql (.or any next.1) rest next.2

end

def Operation.sql : Operation → SqlExpr → SqlExpr → SqlExpr
  | .add => .add
  | .sub => .sub
  | .max => .max
  | .min => .min
  | .concat => .concat

section Render

variable (json : JsonCodec κ)

/-- The text of a `json(...)` cell; `compileSet` lets no value without one be a cell's. -/
def jsonSql (value : Plain κ) : SqlValue :=
  (json.stringify value).elim .null fun text => .text (Utf8.points text)

def exprSql : ExprNode κ → List Param → Rendered SqlExpr
  | .null, params => (.null, params)
  | .literal value, params => (.param, params ++ [.value (toSqlite value)])
  | .col name, params => (.column (.cell name), params)
  | .json value, params => (.param, params ++ [.value (jsonSql json value)])
  | .when condition a b, params =>
    let condition := whereSql condition params
    let a := exprSql a condition.2
    let b := exprSql b a.2
    (.case condition.1 a.1 b.1, b.2)
  | .replacePrefix subject from' to', params =>
    let length : ℤ := (Utf8.points from').length
    let value := exprSql subject params
    let pushed := value.2 ++ [.value (.integer length), .value (toSqlite (.text from')),
      .value (toSqlite (.text to'))]
    let rest := exprSql subject pushed
    let unchanged := exprSql subject (rest.2 ++ [.value (.integer (length + 1))])
    (.case (.compare .eq (.substr value.1 (.bound (.integer 1)) .param) .param)
        (.concat .param (.substrFrom rest.1 .param)) unchanged.1, unchanged.2)
  | .coalesce a b, params =>
    let a := exprSql a params
    let b := exprSql b a.2
    (.coalesce a.1 b.1, b.2)
  | .binary op a b, params =>
    let a := exprSql a params
    let b := exprSql b a.2
    (op.sql a.1 b.1, b.2)

def stamp (version : ℕ) : ExprNode κ → SqlValue
  | .null => .null
  | _ => .integer version

/-- The assignments of `set`; a written `json(...)` column also stamps its version. -/
def setSql (versions : String → Option ℕ) :
    SetNode κ → List Param → Rendered (List (PhysicalColumn × SqlExpr))
  | [], params => ([], params)
  | (column, node) :: rest, params =>
    let value := exprSql json node params
    match versions column with
    | none =>
      let others := setSql versions rest value.2
      ((.cell column, value.1) :: others.1, others.2)
    | some version =>
      let others := setSql versions rest (value.2 ++ [.value (stamp version node)])
      ((.cell column, value.1) :: (.version column, .param) :: others.1, others.2)

end Render

/-! ### Binding -/

/-- The next parameter, and those after it. -/
def takeParam : List Param → SqlValue × List Param
  | .value value :: rest => (value, rest)
  | .array _ :: rest => (.null, rest)
  | [] => (.null, [])

mutual

def SqlExpr.bind : SqlExpr → List Param → Rendered SqlExpr
  | .param, params => (.bound (takeParam params).1, (takeParam params).2)
  | .null, params => (.null, params)
  | .bound value, params => (.bound value, params)
  | .column name, params => (.column name, params)
  | .add a b, params => let a := a.bind params; let b := b.bind a.2; (.add a.1 b.1, b.2)
  | .sub a b, params => let a := a.bind params; let b := b.bind a.2; (.sub a.1 b.1, b.2)
  | .max a b, params => let a := a.bind params; let b := b.bind a.2; (.max a.1 b.1, b.2)
  | .min a b, params => let a := a.bind params; let b := b.bind a.2; (.min a.1 b.1, b.2)
  | .concat a b, params => let a := a.bind params; let b := b.bind a.2; (.concat a.1 b.1, b.2)
  | .coalesce a b, params => let a := a.bind params; let b := b.bind a.2; (.coalesce a.1 b.1, b.2)
  | .substr a start length, params =>
    let a := a.bind params
    let start := start.bind a.2
    let length := length.bind start.2
    (.substr a.1 start.1 length.1, length.2)
  | .substrFrom a start, params =>
    let a := a.bind params
    let start := start.bind a.2
    (.substrFrom a.1 start.1, start.2)
  | .case condition a b, params =>
    let condition := condition.bind params
    let a := a.bind condition.2
    let b := b.bind a.2
    (.case condition.1 a.1 b.1, b.2)

def SqlCondition.bind : SqlCondition → List Param → Rendered SqlCondition
  | .truth value, params => (.truth value, params)
  | .compare op a b, params =>
    let a := a.bind params
    let b := b.bind a.2
    (.compare op a.1 b.1, b.2)
  | .isNull a, params => let a := a.bind params; (.isNull a.1, a.2)
  | .each a, params =>
    let a := a.bind params
    match a.2 with
    | .array values :: rest => (.boundEach a.1 values, rest)
    | rest => (.boundEach a.1 [], rest.tail)
  | .boundEach a values, params => let a := a.bind params; (.boundEach a.1 values, a.2)
  | .and a b, params => let a := a.bind params; let b := b.bind a.2; (.and a.1 b.1, b.2)
  | .or a b, params => let a := a.bind params; let b := b.bind a.2; (.or a.1 b.1, b.2)
  | .not a, params => let a := a.bind params; (.not a.1, a.2)

end

/-! ### Meaning -/

/-- SQLite's order of two values that are not `NULL`: numbers below text. -/
def SqlValue.compare : SqlValue → SqlValue → Ordering
  | .text a, .text b => Utf8.comparePoints a b
  | .integer a, .integer b => Ord.compare a b
  | .real a, .real b => Ord.compare a b
  | .integer a, .real b => Ord.compare (a : ℚ) b
  | .real a, .integer b => Ord.compare a (b : ℚ)
  | .text _, _ => .gt
  | _, .text _ => .lt
  | .null, .null => .eq
  | .null, _ => .lt
  | _, .null => .gt

def Comparison.sqlHolds (order : Ordering) : Comparison → Bool
  | .eq => order = .eq
  | .ne => order ≠ .eq
  | .lt => order = .lt
  | .lte => order ≠ .gt
  | .gt => order = .gt
  | .gte => order ≠ .lt

/-- A comparison, unknown when a side is `NULL`. -/
def sqlCompare (op : Comparison) (a b : SqlValue) : Truth :=
  if a = .null ∨ b = .null then none else some (op.sqlHolds (a.compare b))

/-- SQL's `AND`. -/
def sqlAnd : Truth → Truth → Truth
  | some false, _ => some false
  | _, some false => some false
  | some true, some true => some true
  | _, _ => none

/-- SQL's `OR`. -/
def sqlOr : Truth → Truth → Truth
  | some true, _ => some true
  | _, some true => some true
  | some false, some false => some false
  | _, _ => none

/-- `x IN (...)`: false for no value, unknown for `NULL`. The values of an array are not `NULL`. -/
def sqlIn (a : SqlValue) (values : List SqlValue) : Truth :=
  if values = [] then some false
  else if a = .null then none
  else some (values.any fun value => a.compare value = .eq)

/-- Beyond the integers of 64 bits. -/
def overflows (n : ℤ) : Bool := n < -2 ^ 63 ∨ 2 ^ 63 ≤ n

/-- The double nearest to `q`, of two the one with the even significand. -/
def nearest (q : ℚ) : ℚ :=
  let unit : ℚ := 2 ^ (Int.log 2 |q| - 52)
  let below := ⌊q / unit⌋
  let rest := q / unit - below
  if rest < 1 / 2 ∨ rest = 1 / 2 ∧ below % 2 = 0 then below * unit else (below + 1) * unit

/-- Arithmetic; `NULL` with a side `NULL` or no number. -/
def arith (f : ℤ → ℤ → ℤ) (g : ℚ → ℚ → ℚ) : SqlValue → SqlValue → SqlValue
  | .integer a, .integer b =>
    if overflows (f a b) then .real (nearest (g (nearest a) (nearest b))) else .integer (f a b)
  | .integer a, .real b => .real (nearest (g (nearest a) b))
  | .real a, .integer b => .real (nearest (g a (nearest b)))
  | .real a, .real b => .real (nearest (g a b))
  | _, _ => .null

/-- Text from the 1-based position `start`. -/
def substrFrom : SqlValue → SqlValue → SqlValue
  | .text a, .integer start => .text (a.drop (start - 1).toNat)
  | _, _ => .null

def substr : SqlValue → SqlValue → SqlValue → SqlValue
  | .text a, .integer start, .integer length =>
    .text ((a.drop (start - 1).toNat).take length.toNat)
  | _, _, _ => .null

def sqlConcat : SqlValue → SqlValue → SqlValue
  | .text a, .text b => .text (a ++ b)
  | _, _ => .null

/-- The greater of two values, `NULL` when one is. -/
def sqlMax (a b : SqlValue) : SqlValue :=
  if a = .null ∨ b = .null then .null else if a.compare b = .lt then b else a

def sqlMin (a b : SqlValue) : SqlValue :=
  if a = .null ∨ b = .null then .null else if a.compare b = .gt then b else a

mutual

def SqlExpr.eval (row : PhysicalRow) : SqlExpr → SqlValue
  | .null => .null
  | .param => .null
  | .bound value => value
  | .column name => row name
  | .add a b => arith (· + ·) (· + ·) (a.eval row) (b.eval row)
  | .sub a b => arith (· - ·) (· - ·) (a.eval row) (b.eval row)
  | .max a b => sqlMax (a.eval row) (b.eval row)
  | .min a b => sqlMin (a.eval row) (b.eval row)
  | .concat a b => sqlConcat (a.eval row) (b.eval row)
  | .coalesce a b => if a.eval row = .null then b.eval row else a.eval row
  | .substr a start length => Store.substr (a.eval row) (start.eval row) (length.eval row)
  | .substrFrom a start => Store.substrFrom (a.eval row) (start.eval row)
  | .case condition a b => if condition.eval row = some true then a.eval row else b.eval row

def SqlCondition.eval (row : PhysicalRow) : SqlCondition → Truth
  | .truth value => some value
  | .compare op a b => sqlCompare op (a.eval row) (b.eval row)
  | .isNull a => some (a.eval row = .null)
  | .each _ => none
  | .boundEach a values => sqlIn (a.eval row) values
  | .and a b => sqlAnd (a.eval row) (b.eval row)
  | .or a b => sqlOr (a.eval row) (b.eval row)
  | .not a => (a.eval row).map (!·)

end

end KnightCode.Store

/-! ### The rows of a table -/

namespace KnightCode.Store

variable {κ : Type}

abbrev Rows := List PhysicalRow

inductive Statement
  | put (params : List SqlValue)
  | update (assignments : List (PhysicalColumn × SqlExpr)) (params : List Param)
  | delete (params : List SqlValue)
  | updateWhere (assignments : List (PhysicalColumn × SqlExpr)) (condition : SqlCondition)
      (params : List Param)
  | deleteWhere (condition : SqlCondition) (params : List Param)

/-! ### What a column takes -/

/-- A value of a scalar column as a `STRICT` table keeps it, after its `CHECK`. -/
def ScalarType.store : ScalarType → SqlValue → Option SqlValue
  | .str, .text value => some (.text value)
  | .int, .integer value => if -SAFE ≤ value ∧ value ≤ SAFE then some (.integer value) else none
  | .int, .real value =>
    if value.den = 1 ∧ -SAFE ≤ value.num ∧ value.num ≤ SAFE then some (.integer value.num) else none
  | .num, .real value => some (.real value)
  | .num, .integer value => some (.real value)
  | .bool, .integer value => if value = 0 ∨ value = 1 then some (.integer value) else none
  | .bool, .real value => if value = 0 ∨ value = 1 then some (.integer value.num) else none
  | _, _ => none

/-- `NOT NULL`, unless the column is `opt(...)`. -/
def storeNull (optional : Bool) : Option SqlValue :=
  if optional then some .null else none

namespace TableDefinition

variable (table : TableDefinition κ)

/-- `columnSql`: a value assigned to a column, `none` where a constraint fails. -/
def store (column : PhysicalColumn) (value : SqlValue) : Option SqlValue :=
  match column with
  | .rowVersion =>
    match value with
    | .integer value => some (.integer value)
    | _ => none
  | .cell name => (table.byName name).bind fun column =>
    match column.type, value with
    | _, .null => storeNull column.optional
    | .scalar type, value => type.store value
    | .json _, .text value => some (.text value)
    | .json _, _ => none
  | .version name => (table.byName name).bind fun column =>
    match value with
    | .null => storeNull column.optional
    | .integer value => some (.integer value)
    | _ => none

def assign (values : List (PhysicalColumn × SqlValue)) (row : PhysicalRow) : Option PhysicalRow :=
  values.foldlM (fun row assigned =>
    (table.store assigned.1 assigned.2).map (Function.update row assigned.1)) row

def keyOf (row : PhysicalRow) : Key := table.key.map fun name => row (.cell name)

/-- `jsonVersions`: the version a written column's version column is stamped with. -/
def jsonVersion (name : String) : Option ℕ :=
  (table.byName name).bind fun column =>
    match column.type with
    | .json column => some column.version
    | .scalar _ => none

end TableDefinition

/-! ### Bound statements -/

/-- The assignments of a `SET` bound in order. -/
def bindSet : List (PhysicalColumn × SqlExpr) → List Param → Rendered (List (PhysicalColumn × SqlExpr))
  | [], params => ([], params)
  | (column, value) :: rest, params =>
    let value := value.bind params
    let others := bindSet rest value.2
    ((column, value.1) :: others.1, others.2)

/-- The parameters of `"k" = ? AND ...`. -/
def takeKey : ℕ → List Param → Key
  | 0, _ => []
  | n + 1, params => (takeParam params).1 :: takeKey n (takeParam params).2

/-! ### Execution -/

/-- `SET` on one row, every right side evaluated in the row before. -/
def setRow (table : TableDefinition κ) (assignments : List (PhysicalColumn × SqlExpr))
    (row : PhysicalRow) : Option PhysicalRow :=
  table.assign (assignments.map fun assigned => (assigned.1, assigned.2.eval row)) row

def Statement.execute (table : TableDefinition κ) (rows : Rows) : Statement → Option Rows
  | .put params =>
    (table.assign (table.physical.zip params) fun _ => .null).map fun row =>
      rows.filter (fun each => table.keyOf each ≠ table.keyOf row) ++ [row]
  | .update assignments params =>
    let bound := bindSet assignments params
    let key := takeKey table.key.length bound.2
    rows.mapM fun row => if table.keyOf row = key then setRow table bound.1 row else some row
  | .delete params => some (rows.filter fun row => table.keyOf row ≠ params)
  | .updateWhere assignments condition params =>
    let bound := bindSet assignments params
    let condition := (condition.bind bound.2).1
    rows.mapM fun row =>
      if condition.eval row = some true then setRow table bound.1 row else some row
  | .deleteWhere condition params =>
    let condition := (condition.bind params).1
    some (rows.filter fun row => condition.eval row ≠ some true)

/-- The statements in order; a failing one fails the step. -/
def execute (table : TableDefinition κ) (statements : List Statement) (rows : Rows) : Option Rows :=
  statements.foldlM (fun rows statement => statement.execute table rows) rows

end KnightCode.Store
