import KnightCode.Store.Evolve

/-!
# A stored table and its edits

A table as the store has it: the record the catalog keeps and the SQL table itself. The edits of a
migration are applied to both, `none` where SQLite refuses the DDL. `φ` are fingerprints.
-/

namespace KnightCode.Store

variable {κ φ : Type}

/-! ### SQL tables -/

inductive SqlType
  | scalar (type : ScalarType)
  | json
  | version
  deriving DecidableEq

/-- A column of an SQL table, with its `NOT NULL` and `DEFAULT`. -/
structure SqlColumn where
  type : SqlType
  optional : Bool
  default : Option Scalar
  deriving DecidableEq

/-- An index's columns are those it is created with, the key's included. -/
@[ext]
structure SqlTable where
  columns : PhysicalColumn → Option SqlColumn
  key : List String
  indexes : List (String × List String)
  rows : Rows

/-- `columnSql`: a column, and a `json(...)` column's version column. -/
def columnSql (name : String) (column : ColumnRecord) : List (PhysicalColumn × SqlColumn) :=
  match column.type with
  | .scalar type => [(.cell name, ⟨.scalar type, column.optional, column.default⟩)]
  | .json _ _ => [(.cell name, ⟨.json, column.optional, none⟩),
      (.version name, ⟨.version, column.optional, none⟩)]

/-- `f` with what it has at `from'` at `to'` instead. -/
def moved {α : Type} (from' to' : PhysicalColumn) (empty : α) (f : PhysicalColumn → α) :
    PhysicalColumn → α :=
  fun column => if column = to' then f from' else if column = from' then empty else f column

section Moved

variable {α : Type} {from' to' column : PhysicalColumn} {empty : α} {f : PhysicalColumn → α}

theorem moved_to : moved from' to' empty f to' = f from' := if_pos rfl

theorem moved_of_ne (hto : column ≠ to') (hfrom : column ≠ from') :
    moved from' to' empty f column = f column :=
  (if_neg hto).trans (if_neg hfrom)

theorem moved_eq_update :
    moved from' to' empty f = Function.update (Function.update f from' empty) to' (f from') := by
  funext column
  rw [moved, Function.update_apply, Function.update_apply]

theorem moved_none (hfrom : f from' = empty) (hto : from' ≠ to' → f to' = empty) :
    moved from' to' empty f = f := by
  funext column
  unfold moved
  split_ifs with h h'
  · rw [h, hfrom]
    by_cases heq : from' = to'
    · rw [← heq, hfrom]
    · exact (hto heq).symm
  · rw [h', hfrom]
  · rfl

end Moved

def renamedCell (from' to' : PhysicalColumn) (name : String) : String :=
  match from', to' with
  | .cell from', .cell to' => renamed from' to' name
  | _, _ => name

/-- What existing rows get in an added column. -/
def SqlColumn.initial (column : SqlColumn) : SqlValue :=
  (column.default.map toSqlite).getD .null

/-- Whether an added column's default passes its `NOT NULL`, type and `CHECK`. -/
def SqlColumn.addable (column : SqlColumn) : Bool :=
  match column.default, column.type with
  | none, _ => column.optional
  | some value, .scalar type => (type.store (toSqlite value)).isSome
  | some _, _ => false

namespace SqlTable

variable (sql : SqlTable)

/-- `ALTER TABLE ... RENAME COLUMN`. -/
def renameColumn (from' to' : PhysicalColumn) : Option SqlTable :=
  if sql.columns from' = none ∨ (from' ≠ to' ∧ sql.columns to' ≠ none) then none
  else some {
    columns := moved from' to' none sql.columns
    key := sql.key.map (renamedCell from' to')
    indexes := sql.indexes.map fun index => (index.1, index.2.map (renamedCell from' to'))
    rows := sql.rows.map (moved from' to' .null) }

/-- `ALTER TABLE ... ADD COLUMN`. -/
def addColumn (column : PhysicalColumn × SqlColumn) : Option SqlTable :=
  if sql.columns column.1 ≠ none ∨ SqlColumn.addable column.2 = false then none
  else some { sql with
    columns := Function.update sql.columns column.1 (some column.2)
    rows := sql.rows.map fun row => Function.update row column.1 (SqlColumn.initial column.2) }

/-- Whether the key or an index is over a column. -/
def uses (column : PhysicalColumn) : Bool :=
  match column with
  | .cell name => name ∈ sql.key ∨ ∃ index ∈ sql.indexes, name ∈ index.2
  | _ => false

/-- `ALTER TABLE ... DROP COLUMN`. -/
def dropColumn (column : PhysicalColumn) : Option SqlTable :=
  if sql.columns column = none ∨ sql.uses column then none
  else some { sql with
    columns := Function.update sql.columns column none
    rows := sql.rows.map fun row => Function.update row column .null }

/-- `CREATE INDEX`. -/
def createIndex (name : String) (columns : List String) : Option SqlTable :=
  if Assoc.get name sql.indexes ≠ none ∨ ∃ each ∈ columns, sql.columns (.cell each) = none then none
  else some { sql with indexes := Assoc.set name columns sql.indexes }

/-- `DROP INDEX`. -/
def dropIndex (name : String) : Option SqlTable :=
  if Assoc.get name sql.indexes = none then none
  else some { sql with indexes := Assoc.erase name sql.indexes }

end SqlTable

/-! ### Records -/

inductive TableState
  | ready
  | migrating
  deriving DecidableEq

structure TableRecord (φ : Type) where
  version : ℕ
  state : TableState
  columns : List (String × ColumnRecord)
  key : List String
  fingerprint : φ
  indexes : List (String × List String)

structure StoredTable (φ : Type) where
  record : TableRecord φ
  sql : SqlTable

/-- The columns of an index as it is rendered: its own and the key's. -/
def withKey (key columns : List String) : List String :=
  columns ++ key.filter fun name => name ∉ columns

def isJson (columns : List (String × ColumnRecord)) (name : String) : Bool :=
  (Assoc.get name columns).any ColumnRecord.isJson

namespace StoredTable

variable (stored : StoredTable φ)

def withSql (sql : SqlTable) : StoredTable φ := { stored with sql := sql }

def applyIndex (name : String) (columns : List String) : Option (StoredTable φ) :=
  (stored.sql.createIndex name (withKey stored.record.key columns)).map fun sql =>
    { record := { stored.record with indexes := Assoc.set name columns stored.record.indexes }
      sql := sql }

def applyDropIndex (name : String) : Option (StoredTable φ) :=
  (stored.sql.dropIndex name).map fun sql =>
    { record := { stored.record with indexes := Assoc.erase name stored.record.indexes }
      sql := sql }

/-- `applyAlter`: the DDL of a column edit, and the record's change. -/
def applyRename (from' to' : String) : Option (StoredTable φ) := do
  let sql ← stored.sql.renameColumn (.cell from') (.cell to')
  let sql ←
    if isJson stored.record.columns from' then sql.renameColumn (.version from') (.version to')
    else some sql
  return {
    record := { stored.record with
      columns := stored.record.columns.map fun column => (renamed from' to' column.1, column.2)
      key := stored.record.key.map (renamed from' to')
      indexes := stored.record.indexes.map fun index =>
        (index.1, index.2.map (renamed from' to')) }
    sql := sql }

def applyAdd (name : String) (column : ColumnRecord) : Option (StoredTable φ) :=
  ((columnSql name column).foldlM SqlTable.addColumn stored.sql).map fun sql =>
    { record := { stored.record with columns := Assoc.set name column stored.record.columns }
      sql := sql }

def applyDrop (name : String) : Option (StoredTable φ) := do
  let sql ← stored.sql.dropColumn (.cell name)
  let sql ←
    if isJson stored.record.columns name then sql.dropColumn (.version name) else some sql
  return {
    record := { stored.record with columns := Assoc.erase name stored.record.columns }
    sql := sql }

def applyJson (name : String) (column : ColumnRecord) : StoredTable φ :=
  { stored with
    record := { stored.record with columns := Assoc.set name column stored.record.columns } }

/-- `stageEdit`: one edit of a migration. -/
def applyEdit (stored : StoredTable φ) : TableEdit → Option (StoredTable φ)
  | .rename from' to' => stored.applyRename from' to'
  | .add name column => stored.applyAdd name column
  | .drop name => stored.applyDrop name
  | .json name column => some (stored.applyJson name column)
  | .index name columns => stored.applyIndex name columns
  | .dropIndex name => stored.applyDropIndex name

def applyEdits (edits : List TableEdit) : Option (StoredTable φ) := edits.foldlM applyEdit stored

end StoredTable

/-! ### What an edit makes of a row -/

def editRow (columns : List (String × ColumnRecord)) (row : PhysicalRow) : TableEdit → PhysicalRow
  | .rename from' to' =>
    let row := moved (.cell from') (.cell to') .null row
    if isJson columns from' then moved (.version from') (.version to') .null row else row
  | .add name column => (columnSql name column).foldl
      (fun row column => Function.update row column.1 (SqlColumn.initial column.2)) row
  | .drop name =>
    let row := Function.update row (.cell name) .null
    if isJson columns name then Function.update row (.version name) .null else row
  | _ => row

def editColumns (columns : List (String × ColumnRecord)) : TableEdit → List (String × ColumnRecord)
  | .rename from' to' => columns.map fun column => (renamed from' to' column.1, column.2)
  | .add name column => Assoc.set name column columns
  | .drop name => Assoc.erase name columns
  | .json name column => Assoc.set name column columns
  | _ => columns

def editsRow : List (String × ColumnRecord) → List TableEdit → PhysicalRow → PhysicalRow
  | _, [], row => row
  | columns, edit :: edits, row => editsRow (editColumns columns edit) edits (editRow columns row edit)

end KnightCode.Store
