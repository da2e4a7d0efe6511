import KnightCode.Library.CodePoints
import KnightCode.Library.Assoc

/-!
# Rows of a declared table

A table's columns are `str`, `int`, `num`, `bool` or `json(...)`. A codec checks a plugin's rows and
keys and encodes them into what the store binds; a stored row is decoded back. Text is UTF-16 on the
plugin's side and code points on the store's. A number carries the type of the column it is for: an
`int` is an integer, a `num` a rational.

`κ` are a plugin's objects, arrays and functions. A row records the value of a `json(...)` cell as
the plugin handed it over, the store keeps the text `JSON.stringify` gives for it.
-/

namespace KnightCode.Store

/-- An error of a plugin's arguments, or of a read the transaction refuses. -/
structure Invalid where
  code : String
  message : String
  deriving DecidableEq

def invalid {α : Type} (code message : String) : Except Invalid α := .error ⟨code, message⟩

/-- `Number.MAX_SAFE_INTEGER`. -/
def SAFE : ℤ := 2 ^ 53 - 1

inductive ScalarType
  | str
  | int
  | num
  | bool
  deriving DecidableEq

def ScalarType.label : ScalarType → String
  | .str => "str"
  | .int => "int"
  | .num => "num"
  | .bool => "bool"

inductive Scalar
  | text (value : Text)
  | int (value : ℤ)
  | num (value : ℚ)
  | bool (value : Bool)
  deriving DecidableEq

/-- A value as SQLite holds it. -/
inductive SqlValue
  | null
  | integer (value : ℤ)
  | real (value : ℚ)
  | text (points : List ℕ)
  deriving DecidableEq

/-- What a plugin hands over for a value. `number none` is a number that is not finite, `other` an
object, an array or a function. -/
inductive Plain (κ : Type)
  | undefined
  | null
  | bool (value : Bool)
  | number (value : Option ℚ)
  | text (value : Text)
  | other (value : κ)

/-- `JSON.stringify`, `none` where it gives `undefined` or throws, and `JSON.parse`; `describe` shows
a value in a message. -/
structure JsonCodec (κ : Type) where
  stringify : Plain κ → Option Text
  parse : Text → Plain κ
  describe : Plain κ → String
  wellFormed : ∀ value, ∀ text ∈ stringify value, Utf8.WellFormed text

/-- What is read back of a value that is stored as its text. -/
def JsonCodec.back {κ : Type} (json : JsonCodec κ) (value : Plain κ) : Plain κ :=
  (json.stringify value).elim value json.parse

/-- A `json(...)` column: the version of its cells, its schema's fingerprint, and how a cell of an
older version is migrated and checked; `none` where it cannot. -/
structure JsonColumn (κ : Type) where
  version : ℕ
  fingerprint : String
  migrate : Plain κ → ℕ → Option (Plain κ)

inductive ColumnType (κ : Type)
  | scalar (type : ScalarType)
  | json (column : JsonColumn κ)

structure Column (κ : Type) where
  name : String
  type : ColumnType κ
  optional : Bool
  default : Option Scalar

/-- A cell of a row; absent where it is `NULL`. -/
inductive Cell (κ : Type)
  | scalar (value : Scalar)
  | json (value : Plain κ)

/-- A row is an object literal: these are its own cells. -/
abbrev Row (κ : Type) := String → Option (Cell κ)

/-- A row whose cells are assigned to an empty object. An assignment to `__proto__` makes no cell;
that of an object, which makes it the row's prototype, is not followed. -/
def Row.literal {κ : Type} (cells : String → Option (Cell κ)) : Row κ :=
  fun name => if name = "__proto__" then none else cells name

/-- The columns of the stored table. Names of columns have no `$`, which the version columns' have. -/
inductive PhysicalColumn
  | cell (name : String)
  | version (name : String)
  | rowVersion
  deriving DecidableEq

abbrev PhysicalRow := PhysicalColumn → SqlValue

/-- A value a scalar column may hold. -/
def Scalar.Fits : ScalarType → Scalar → Prop
  | .str, .text value => Utf8.WellFormed value
  | .int, .int value => -SAFE ≤ value ∧ value ≤ SAFE
  | .num, .num _ => True
  | .bool, .bool _ => True
  | _, _ => False

/-- A declared table at one version. -/
structure TableDefinition (κ : Type) where
  name : String
  version : ℕ
  columns : List (Column κ)
  key : List String
  distinct : (columns.map (·.name)).Nodup
  keyed : ∀ name ∈ key, ∃ column ∈ columns, column.name = name ∧ column.optional = false ∧
    ∃ type, column.type = .scalar type ∧ (type = .str ∨ type = .int)
  defaulted : ∀ column ∈ columns, ∀ value ∈ column.default,
    ∃ type, column.type = .scalar type ∧ value.Fits type

variable {κ : Type}

def TableDefinition.byName (table : TableDefinition κ) (name : String) : Option (Column κ) :=
  table.columns.find? (fun column => column.name = name)

def Column.versionColumn (column : Column κ) : Option PhysicalColumn :=
  match column.type with
  | .json _ => some (.version column.name)
  | .scalar _ => none

/-- `physicalColumns`. -/
def TableDefinition.physical (table : TableDefinition κ) : List PhysicalColumn :=
  table.columns.map (fun column => .cell column.name) ++
    table.columns.filterMap Column.versionColumn ++ [.rowVersion]

/-! ### Checking values -/

/-- `text` as the store keeps it. -/
def storedText (text : Text) (what : String) : Except Invalid Text :=
  if 0 ∈ text then invalid "args" s!"{what}: text may not contain NUL"
  else .ok (Utf8.toWellFormed text)

def isSafeInteger (q : ℚ) : Bool :=
  q.den = 1 ∧ -SAFE ≤ q.num ∧ q.num ≤ SAFE

/-- A plugin's value of a scalar column as the store keeps it. -/
def checkScalar (json : JsonCodec κ) (type : ScalarType) (value : Plain κ) (what : String) :
    Except Invalid Scalar :=
  let refused : Except Invalid Scalar :=
    invalid "args" s!"{what}: {json.describe value} is not a {type.label} value"
  match type, value with
  | .str, .text value => (storedText value what).map .text
  | .int, .number (some value) => if isSafeInteger value then .ok (.int value.num) else refused
  | .num, .number (some value) => .ok (.num value)
  | .bool, .bool value => .ok (.bool value)
  | _, _ => refused

/-- A scalar as SQLite binds it: booleans as 0 and 1, a number as one of its column's type. -/
def toSqlite : Scalar → SqlValue
  | .text value => .text (Utf8.points value)
  | .int value => .integer value
  | .num value => .real value
  | .bool value => .integer (if value then 1 else 0)

/-- A checked cell: what is bound and what is recorded. -/
def encodeCell (json : JsonCodec κ) (column : Column κ) (value : Plain κ) (what : String) :
    Except Invalid (SqlValue × Cell κ) :=
  match column.type with
  | .scalar type => (checkScalar json type value what).map fun stored =>
    (toSqlite stored, .scalar stored)
  | .json _ =>
    match json.stringify value with
    | none => invalid "args" s!"{what}: not JSON"
    | some text => .ok (.text (Utf8.points text), .json value)

/-! ### The codec -/

/-- A plugin's object: the names of its own fields, and what it gives for a name, inherited members
included. `none` is a value that is no object. -/
abbrev Fields (κ : Type) := Option (List String × (String → Plain κ))

def closed (fields : Fields κ) (names : List String) (what : String) :
    Except Invalid (String → Plain κ) :=
  match fields with
  | none => invalid "args" s!"{what}: expected an object"
  | some (own, read) =>
    match own.find? (fun field => field ∉ names) with
    | some field => invalid "args" s!"{what}: unknown column \"{field}\""
    | none => .ok read

/-- A key ready for the store. Its identity is its parameters, whose JSON text the code compares. -/
abbrev Key := List SqlValue

structure EncodedRow (κ : Type) where
  params : List SqlValue
  row : Row κ
  id : Key

def Scalar.plain : Scalar → Plain κ
  | .text value => .text value
  | .int value => .number (some value)
  | .num value => .number (some value)
  | .bool value => .bool value

/-- One column of a `put`: what is bound and what is recorded, `none` for `NULL`. -/
def putCell (json : JsonCodec κ) (fields : String → Plain κ) (column : Column κ)
    (what : String) : Except Invalid (Option (SqlValue × Cell κ)) :=
  let value :=
    match fields column.name, column.type with
    | .undefined, .scalar _ => (column.default.map Scalar.plain).getD .undefined
    | value, _ => value
  match value with
  | .undefined =>
    if column.optional then .ok none
    else invalid "args" s!"{what}: column \"{column.name}\" is missing"
  | value =>
    (encodeCell json column value s!"{what}: column \"{column.name}\"").map some

namespace TableDefinition

variable (table : TableDefinition κ) (json : JsonCodec κ)

def versionParam (column : Column κ) (cell : Option (SqlValue × Cell κ)) : Option SqlValue :=
  match column.type, cell with
  | .json column, some _ => some (.integer column.version)
  | .json _, none => some .null
  | .scalar _, _ => none

def put (fields : Fields κ) : Except Invalid (EncodedRow κ) := do
  let what := s!"{table.name}: put"
  let fields ← closed fields (table.columns.map (·.name)) what
  let cells ← table.columns.mapM fun column =>
    (putCell json fields column what).map fun cell => (column, cell)
  let params := cells.map (fun cell => (cell.2.map (·.1)).getD .null) ++
    cells.filterMap (fun cell => versionParam cell.1 cell.2) ++ [.integer table.version]
  let row : Row κ := .literal fun name =>
    (cells.find? (fun cell => cell.1.name = name)).bind (·.2.map (·.2))
  return {
    params := params
    row := row
    id := table.key.map fun name => ((table.physical.zip params).find?
      (fun bound => bound.1 = .cell name)).elim .null (·.2) }

/-- `RowCodec.key`. -/
def encodeKey (fields : Fields κ) (what : String) : Except Invalid Key := do
  let fields ← closed fields table.key s!"{table.name}: {what}: the key"
  table.key.mapM fun name => do
    let place := s!"{table.name}: {what}: key column \"{name}\""
    match fields name, (table.byName name).map (·.type) with
    | .undefined, _ => invalid "args" s!"{place} is missing"
    | value, some (.scalar type) => (checkScalar json type value place).map toSqlite
    | _, _ => invalid "args" s!"{place}: a json(...) column has no scalar value"

def readCell (json : JsonCodec κ) (column : JsonColumn κ) (text : List ℕ) (version : ℤ)
    (what : String) : Except Invalid (Plain κ) :=
  let value := json.parse (Utf8.ofPoints text)
  if version = column.version then .ok value
  else if version > column.version then
    invalid "unavailable" s!"{what}: stored at version {version}, newer than {column.version}"
  else
    match column.migrate value version.toNat with
    | none => invalid "unavailable" s!"{what}: no migrate from version {version} to {column.version}"
    | some value => .ok value

def decodeCell (column : Column κ) (stored : PhysicalRow) : Except Invalid (Option (Cell κ)) :=
  match column.type, stored (.cell column.name), stored (.version column.name) with
  | _, .null, _ => .ok none
  | .scalar .bool, value, _ => .ok (some (.scalar (.bool (value = .integer 1))))
  | .scalar _, .integer value, _ => .ok (some (.scalar (.int value)))
  | .scalar _, .real value, _ => .ok (some (.scalar (.num value)))
  | .scalar _, .text value, _ => .ok (some (.scalar (.text (Utf8.ofPoints value))))
  | .json column', .text value, .integer version =>
    (readCell json column' value version s!"{table.name}.{column.name}").map (some ∘ .json)
  | .json _, _, _ => invalid "unavailable" s!"{table.name}.{column.name}: not a cell"

def decode (stored : PhysicalRow) : Except Invalid (Row κ) := do
  let cells ← table.columns.mapM fun column =>
    (table.decodeCell json column stored).map fun cell => (column.name, cell)
  return .literal fun name => (cells.find? (fun cell => cell.1 = name)).bind (·.2)

end TableDefinition

end KnightCode.Store
