import KnightCode.Store.Rows

/-!
# The table expression language

The conditions and expressions plugins build, and their compilation into one data-only vocabulary:
columns are checked against the table, operands made storable, and an expression that may be `NULL`
is refused for a column that is not `opt(...)`.
-/

namespace KnightCode.Store

variable {κ : Type}

inductive Comparison
  | eq
  | ne
  | lt
  | lte
  | gt
  | gte
  deriving DecidableEq

/-- The operations of two operands of one type. -/
inductive Operation
  | add
  | sub
  | max
  | min
  | concat
  deriving DecidableEq

def Operation.label : Operation → String
  | .add => "add"
  | .sub => "sub"
  | .max => "max"
  | .min => "min"
  | .concat => "concat"

/-! ### Compiled nodes -/

inductive WhereNode
  | compare (op : Comparison) (column : String) (operand : Scalar)
  | inArray (column : String) (values : List Scalar)
  | isNull (column : String)
  | startsWith (column : String) (text : Text)
  | and (nodes : List WhereNode)
  | or (nodes : List WhereNode)
  | not (node : WhereNode)

/-- A compiled value expression; `null` clears. -/
inductive ExprNode (κ : Type)
  | null
  | literal (value : Scalar)
  | col (name : String)
  | json (value : Plain κ)
  | binary (op : Operation) (a b : ExprNode κ)
  | coalesce (a b : ExprNode κ)
  | replacePrefix (subject : ExprNode κ) (from' to' : Text)
  | when (condition : WhereNode) (a b : ExprNode κ)

/-- The new value of each changed column. -/
abbrev SetNode (κ : Type) := List (String × ExprNode κ)

/-! ### What plugins build -/

mutual

inductive Expression (κ : Type)
  | plain (value : Plain κ)
  | col (name : String)
  | binary (op : Operation) (a b : Expression κ)
  | coalesce (a b : Expression κ)
  | replacePrefix (subject : Expression κ) (from' to' : Plain κ)
  | when (condition : Condition κ) (a b : Expression κ)

inductive Condition (κ : Type)
  | compare (op : Comparison) (column : Expression κ) (value : Plain κ)
  | inArray (column : Expression κ) (values : Option (List (Plain κ)))
  | isNull (column : Expression κ)
  | startsWith (column : Expression κ) (value : Plain κ)
  | and (conditions : List (Condition κ))
  | or (conditions : List (Condition κ))
  | not (condition : Condition κ)
  | other

end

/-! ### Compilation -/

section Compile

variable (json : JsonCodec κ) (table : TableDefinition κ)

/-- The column a condition compares: a reference to a known scalar column. -/
def scalarColumn (ref : Expression κ) (what : String) : Except Invalid (Column κ × ScalarType) :=
  match ref with
  | .col name =>
    match table.byName name with
    | none => invalid "args" s!"{table.name}: {what}: no column \"{name}\""
    | some column =>
      match column.type with
      | .json _ =>
        invalid "args" s!"{table.name}: {what}: json(...) column \"{name}\" is not queryable"
      | .scalar type => .ok (column, type)
  | _ => invalid "args" s!"{table.name}: {what}: expected a column reference"

/-- An operand compared with a column, made storable. -/
def operand (column : Column κ) (type : ScalarType) (value : Plain κ) (what : String) :
    Except Invalid Scalar :=
  match value with
  | .undefined =>
    invalid "args" s!"{what}: column \"{column.name}\" compared with undefined; ask with isNull"
  | .null => invalid "args" s!"{what}: column \"{column.name}\" compared with null; ask with isNull"
  | value => checkScalar json type value s!"{what}: column \"{column.name}\""

mutual

def compileWhere (what : String) : Condition κ → Except Invalid WhereNode
  | .and conditions => (compileAll what conditions).map .and
  | .or conditions => (compileAll what conditions).map .or
  | .not condition => (compileWhere what condition).map .not
  | .isNull column => (scalarColumn table column what).map fun column => .isNull column.1.name
  | .startsWith column value => do
    let (column, type) ← scalarColumn table column what
    if type ≠ .str then invalid "args" s!"{table.name}: {what}: prefix needs a str() column"
    else match ← operand json column type value what with
      | .text text => return .startsWith column.name text
      | _ => invalid "args" s!"{table.name}: {what}: prefix needs a str() column"
  | .inArray column values => do
    let (column, type) ← scalarColumn table column what
    match values with
    | none => invalid "args" s!"{table.name}: {what}: inArray needs an array"
    | some values =>
      return .inArray column.name (← values.mapM fun value => operand json column type value what)
  | .compare op column value => do
    let (column, type) ← scalarColumn table column what
    return .compare op column.name (← operand json column type value what)
  | .other => invalid "args" s!"{table.name}: {what}: expected a condition"

def compileAll (what : String) : List (Condition κ) → Except Invalid (List WhereNode)
  | [] => .ok []
  | condition :: rest => do
    let node ← compileWhere what condition
    return node :: (← compileAll what rest)

end

def refuse {α : Type} (what message : String) : Except Invalid α :=
  invalid "args" s!"{table.name}: {what}: {message}"

def Operation.types : Operation → List ScalarType
  | .concat => [.str]
  | .add | .sub => [.int]
  | .max | .min => [.int, .num]

def compileExpr (type : ScalarType) (what : String) :
    Expression κ → Except Invalid (ExprNode κ × Bool)
  | .plain .undefined => .ok (.null, true)
  | .plain .null => .ok (.null, true)
  | .plain value => (checkScalar json type value s!"{table.name}: {what}").map fun value =>
    (.literal value, false)
  | .col name =>
    match table.byName name with
    | none => refuse table what s!"no column \"{name}\""
    | some column =>
      match column.type with
      | .scalar columnType =>
        if columnType = type then .ok (.col name, column.optional)
        else refuse table what s!"column \"{name}\" is {columnType.label}, not {type.label}"
      | .json _ => refuse table what s!"column \"{name}\" is json, not {type.label}"
  | .binary op a b => do
    let given := String.intercalate " or " (op.types.map (·.label))
    if type ∉ op.types then
      refuse table what s!"{op.label} gives {given}, the column is {type.label}"
    else
      let a ← compileExpr type what a
      let b ← compileExpr type what b
      return (.binary op a.1 b.1, a.2 || b.2)
  | .coalesce a b => do
    let a ← compileExpr type what a
    let b ← compileExpr type what b
    return (.coalesce a.1 b.1, a.2 && b.2)
  | .replacePrefix subject from' to' => do
    if type ≠ .str then
      refuse table what s!"replacePrefix gives str, the column is {type.label}"
    else
      let subject ← compileExpr type what subject
      match ← checkScalar json .str from' s!"{table.name}: {what}",
          ← checkScalar json .str to' s!"{table.name}: {what}" with
      | .text from', .text to' => return (.replacePrefix subject.1 from' to', subject.2)
      | _, _ => refuse table what "replacePrefix gives str"
  | .when condition a b => do
    let condition ← compileWhere json table what condition
    let a ← compileExpr type what a
    let b ← compileExpr type what b
    return (.when condition a.1 b.1, a.2 || b.2)

def compileColumn (what name : String) (value : Expression κ) :
    Except Invalid (String × ExprNode κ) :=
  match table.byName name with
  | none => invalid "args" s!"{table.name}: {what}: no column \"{name}\""
  | some column =>
    let place := s!"{what}: column \"{name}\""
    if name ∈ table.key then
      refuse table what s!"key column \"{name}\" cannot change (delete and put)"
    else match value, column.type with
      | .plain .undefined, _ =>
        if column.optional then .ok (name, .null)
        else invalid "args" s!"{table.name}: {place} is not opt(...) and cannot be cleared"
      | .plain .null, .scalar type =>
        refuse table place s!"null is no {type.label} value (undefined clears)"
      | .plain value, .json _ =>
        match json.stringify value with
        | none => refuse table place "not JSON"
        | some _ => .ok (name, .json value)
      | .plain value, .scalar type =>
        (checkScalar json type value s!"{table.name}: {place}").map fun value =>
          (name, .literal value)
      | _, .json _ => refuse table place "json(...) columns take plain values"
      | value, .scalar type => do
        let compiled ← compileExpr json table type place value
        if compiled.2 && !column.optional then
          refuse table place "the expression may be NULL; the column is not opt(...)"
        else return (name, compiled.1)

/-- `compileSet`; a set is an object, so its columns are distinct. `none` is a value that is no
object. -/
def compileSet (set : Option (List (String × Expression κ))) (what : String) :
    Except Invalid (SetNode κ) :=
  match set with
  | none => invalid "args" s!"{table.name}: {what}: expected an object of column values"
  | some [] => invalid "args" s!"{table.name}: {what}: the set is empty"
  | some entries => entries.mapM fun entry => compileColumn json table what entry.1 entry.2

end Compile

end KnightCode.Store
