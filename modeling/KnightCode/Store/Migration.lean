import KnightCode.Store.EditsApplied
import KnightCode.Store.Assignment

/-!
# Bringing a table to its version

At activation a table the store does not have is created at the newest version; an older one is
migrated, one version at a time: the edits before the data step and the record `migrating`; the
step, a `rows` step in chunks; with its last chunk, or with the `update`, the edits after it and the
record `ready`. Each commit is atomic. An activation may end between two commits, and the next goes
on from the record and the `$v` of the rows.
-/

namespace KnightCode.Store

variable {κ φ : Type}

/-! ### Histories -/

abbrev Versions (κ : Type) := List (Migration κ × TableVersion κ)

def Evolved (json : JsonCodec κ) :
    TableVersion κ → Versions κ → Prop
  | _, [] => True
  | previous, next :: later =>
    (∃ calls, evolveTable json previous calls = .ok next) ∧ Evolved json next.2 later

def newestOf : TableVersion κ → Versions κ → TableVersion κ
  | version, [] => version
  | _, next :: later => newestOf next.2 later

theorem Evolved.append {json : JsonCodec κ} {base : TableVersion κ}
    {later more : Versions κ} (h : Evolved json base later)
    (hmore : Evolved json (newestOf base later) more) : Evolved json base (later ++ more) := by
  induction later generalizing base with
  | nil => exact hmore
  | cons next later ih => exact ⟨h.1, ih h.2 hmore⟩

structure TableHistory (json : JsonCodec κ) where
  base : TableVersion κ
  later : Versions κ
  evolved : Evolved json base later

namespace TableHistory

variable {json : JsonCodec κ} (history : TableHistory json)

def newest : TableVersion κ := newestOf history.base history.later

/-- `historyOf`: every version, the base first, with the migration to it. -/
def versions : List (TableVersion κ × Option (Migration κ)) :=
  (history.base, none) :: history.later.map fun next => (next.2, some next.1)

def evolve (calls : List (EditorCall κ)) : TableHistory json :=
  match h : evolveTable json history.newest calls with
  | .ok next => ⟨history.base, history.later ++ [next],
      history.evolved.append ⟨⟨calls, h⟩, trivial⟩⟩
  | .error _ => history

def owed (state : TableState) (version : ℕ) : Versions κ :=
  history.later.filter fun next =>
    match state with
    | .ready => version < next.2.table.version
    | .migrating => version ≤ next.2.table.version

end TableHistory

/-- `tableFingerprint` of a version. -/
def TableVersion.fingerprint
    (tableFingerprint : List (String × ColumnRecord) → List String →
      List (String × List String) → φ) (version : TableVersion κ) : φ :=
  tableFingerprint (version.table.columns.map fun column => (column.name, column.record))
    version.table.key version.indexes

/-! ### Plans -/

inductive TablePlan (κ : Type)
  | create
  | ready
  | migrate (versions : Versions κ) (resume : Bool)

def planTable [DecidableEq φ] {json : JsonCodec κ} (fingerprint : TableVersion κ → φ)
    (history : TableHistory json) (recorded : Option (TableRecord φ)) (what : String) :
    Except String (TablePlan κ) :=
  match recorded with
  | none => .ok .create
  | some record =>
    let version := record.version
    let newest := history.newest.table.version
    if newest < version then
      .error s!"{what}: the store has version {version}, newer than the code's {newest}"
    else
      match history.versions.find? (fun each => each.1.table.version = version) with
      | none => .error (s!"{what}: the store has version {version}, older than the history's" ++
          s!" base {history.base.table.version}")
      | some (definition, migration) =>
        if fingerprint definition ≠ record.fingerprint then
          .error (s!"{what}: version {version} is recorded with another definition" ++
            " (a history edited in place)")
        else
          match record.state with
          | .ready =>
            if version = newest then .ok .ready
            else .ok (.migrate (history.owed .ready version) false)
          | .migrating =>
            if (migration.bind (·.step)).isNone then
              .error (s!"{what}: version {version} is recorded migrating, but has no data step" ++
                " to resume")
            else .ok (.migrate (history.owed .migrating version) true)

/-! ### Values in an SQL table -/

/-- A value assigned to a column, `none` where a constraint fails. -/
def SqlColumn.store (column : SqlColumn) (value : SqlValue) : Option SqlValue :=
  match column.type, value with
  | _, .null => storeNull column.optional
  | .scalar type, value => type.store value
  | .json, .text value => some (.text value)
  | .version, .integer value => some (.integer value)
  | _, _ => none

def assignRow (columns : PhysicalColumn → Option SqlColumn)
    (values : List (PhysicalColumn × SqlValue)) (row : PhysicalRow) : Option PhysicalRow :=
  values.foldlM (fun row assigned => (columns assigned.1).bind fun column => (column.store
    assigned.2).map (Function.update row assigned.1)) row

/-- `SET` on one row, every right side evaluated in the row before. -/
def updateRow (columns : PhysicalColumn → Option SqlColumn)
    (assignments : List (PhysicalColumn × SqlExpr)) (row : PhysicalRow) : Option PhysicalRow :=
  assignRow columns (assignments.map fun assigned => (assigned.1, assigned.2.eval row)) row

/-- `UPDATE` of the rows `chosen`. -/
def SqlTable.update (sql : SqlTable) (assignments : List (PhysicalColumn × SqlExpr))
    (chosen : PhysicalRow → Bool) : Option SqlTable :=
  (sql.rows.mapM fun row =>
    if chosen row then updateRow sql.columns assignments row else some row).map fun rows =>
      { sql with rows := rows }

/-! ### Writes -/

inductive TableWrite (φ : Type)
  | table (version : ℕ) (state : TableState) (columns : List (String × ColumnRecord))
      (key : List String) (fingerprint : φ)
  | edit (edit : TableEdit)
  | update (key : List String) (assignments : List (PhysicalColumn × SqlExpr)) (params : List Param)
  | updateWhere (assignments : List (PhysicalColumn × SqlExpr)) (condition : SqlCondition)
      (params : List Param)

def StoredTable.write (stored : StoredTable φ) : TableWrite φ → Option (StoredTable φ)
  | .table version state columns key fingerprint =>
    some { stored with
      record := ⟨version, state, columns, key, fingerprint, stored.record.indexes⟩ }
  | .edit edit => stored.applyEdit edit
  | .update key assignments params =>
    let bound := bindSet assignments params
    let id := takeKey key.length bound.2
    (stored.sql.update bound.1 fun row => keyBy key row = id).map stored.withSql
  | .updateWhere assignments condition params =>
    let bound := bindSet assignments params
    let condition := (condition.bind bound.2).1
    (stored.sql.update bound.1 fun row => condition.eval row = some true).map stored.withSql

def StoredTable.commit (stored : StoredTable φ) (writes : List (TableWrite φ)) :
    Option (StoredTable φ) :=
  writes.foldlM StoredTable.write stored

/-- `createTableSql`. -/
def SqlTable.create (columns : List (String × ColumnRecord)) (key : List String) : SqlTable where
  columns := (columns.flatMap fun column => columnSql column.1 column.2).foldl
    (fun (columns : PhysicalColumn → Option SqlColumn) each =>
      Function.update columns each.1 (some each.2))
    (Function.update (fun _ => none) .rowVersion (some ⟨.version, false, none⟩))
  key := key
  indexes := []
  rows := []

section Migrate

variable (json : JsonCodec κ) (fingerprint : TableVersion κ → φ)

def recordedColumns (columns : List (Column κ)) : List (String × ColumnRecord) :=
  columns.map fun column => (column.name, column.record)

/-- `creation`: the table and its indexes. -/
def creation (version : TableVersion κ) : Option (StoredTable φ) :=
  let columns := recordedColumns version.table.columns
  let created : StoredTable φ := {
    record := ⟨version.table.version, .ready, columns, version.table.key, fingerprint version, []⟩
    sql := SqlTable.create columns version.table.key }
  created.commit (version.indexes.map fun index => .edit (.index index.1 index.2))

def recordOf (columns : TableDefinition κ) (version : TableVersion κ) (state : TableState) :
    TableWrite φ :=
  .table version.table.version state (recordedColumns columns.columns) columns.key
    (fingerprint version)

/-! ### Data steps -/

def stampedSql (table : TableDefinition κ) (set : SetNode κ) (v : ℕ) :
    Rendered (List (PhysicalColumn × SqlExpr)) :=
  let assignments := setSql json table.jsonVersion set []
  (assignments.1 ++ [(.rowVersion, .param)], assignments.2 ++ [.value (.integer v)])

/-- `{ lt: [ROW_VERSION, v] }`. -/
def belowSql (v : ℕ) (params : List Param) : Rendered SqlCondition :=
  (.compare .lt (.column .rowVersion) .param, params ++ [.value (.integer v)])

def updateStep (table : TableDefinition κ) (where' : Option WhereNode) (set : SetNode κ) (v : ℕ) :
    TableWrite φ :=
  let assignments := stampedSql json table set v
  match where' with
  | none =>
    let below := belowSql v assignments.2
    .updateWhere assignments.1 below.1 below.2
  | some where' =>
    let condition := whereSql where' assignments.2
    let below := belowSql v condition.2
    .updateWhere assignments.1 (.and condition.1 below.1) below.2

def cellOf (column : Column κ) (value : Plain κ) (what : String) : Except String (ExprNode κ) :=
  match value with
  | .undefined =>
    if column.optional then .ok .null
    else .error s!"{what} is not opt(...) and cannot be cleared"
  | value =>
    match encodeCell json column value what with
    | .ok (_, .scalar stored) => .ok (.literal stored)
    | .ok (_, .json stored) => .ok (.json stored)
    | .error error => .error error.message

def patchCell (table : TableDefinition κ) (what : String) (field : String × Plain κ) :
    Except String (String × ExprNode κ) :=
  match table.byName field.1 with
  | none => .error s!"{what}: no column \"{field.1}\""
  | some column =>
    if field.1 ∈ table.key then .error s!"{what}: key column \"{field.1}\" cannot change"
    else (cellOf json column field.2 s!"{what}: column \"{field.1}\"").map (Prod.mk field.1)

def patchSet (table : TableDefinition κ) (patch : Row κ → Option (List (String × Plain κ)))
    (v : ℕ) (row : PhysicalRow) : Except String (SetNode κ) :=
  let what := s!"{table.name} version {v}: rows"
  match table.decode json row with
  | .error error => .error error.message
  | .ok decoded =>
    match patch decoded with
    | none => .error s!"{what}: expected an object of column values"
    | some fields => fields.mapM (patchCell json table what)

def patchRow (table : TableDefinition κ) (patch : Row κ → Option (List (String × Plain κ)))
    (v : ℕ) (row : PhysicalRow) : Except String (TableWrite φ) :=
  (patchSet json table patch v row).map fun set =>
    let assignments := stampedSql json table set v
    .update table.key assignments.1 (assignments.2 ++ (keyBy table.key row).map .value)

/-! ### Chunks -/

/-- The size of a `rows` chunk. -/
def MIGRATION_CHUNK : ℕ := 100

def below (v : ℕ) (row : PhysicalRow) : Bool :=
  sqlCompare .lt (row .rowVersion) (.integer v) = some true

def rowCompare : Key → Key → Ordering := List.compareLex SqlValue.compare

def page (sql : SqlTable) (key : List String) (v : ℕ) (after : Option Key) (limit : ℕ) : Rows :=
  ((sql.rows.filter fun row => below v row && after.all fun last => rowCompare (keyBy key row) last
    = .gt).mergeSort fun a b => (rowCompare (keyBy key a) (keyBy key b)).isLE).take limit

/-- Where a version's migration is: before its first commit, or in the data step, `after` the last
key of a chunk. -/
inductive Stage
  | begin
  | step (after : Option Key)

inductive Progress (κ : Type)
  | idle
  | create
  | migrate (versions : Versions κ) (stage : Stage)
  | ready
  | failed (error : Option String)

/-- A commit of a migration and what comes after it; `none` is an error of SQLite. -/
def StoredTable.proceed (stored : StoredTable φ) (writes : List (TableWrite φ))
    (progress : Progress κ) : Except (Option String) (StoredTable φ × Progress κ) :=
  match stored.commit writes with
  | some stored => .ok (stored, progress)
  | none => .error none

/-- `migrateSteps` to its next commit. -/
def migrateSteps (stored : StoredTable φ) (version : TableVersion κ) (migration : Migration κ)
    (rest : Versions κ) (stage : Stage) :
    Except (Option String) (StoredTable φ × Progress κ) :=
  let ready : List (TableWrite φ) :=
    migration.after.map .edit ++ [recordOf fingerprint version.table version .ready]
  let done : Progress κ := .migrate rest .begin
  let here : Stage → Progress κ := .migrate ((migration, version) :: rest)
  match migration.step, stage with
  | none, _ => stored.proceed (migration.before.map .edit ++ ready) done
  | some step, .begin =>
    stored.proceed (migration.before.map .edit ++
      [recordOf fingerprint step.table version .migrating]) (here (.step none))
  | some (.update table where' set), .step _ =>
    stored.proceed (updateStep json table where' set version.table.version :: ready) done
  | some (.rows table patch), .step after =>
    let v := version.table.version
    let rows := page stored.sql table.key v after (MIGRATION_CHUNK + 1)
    match (rows.take MIGRATION_CHUNK).mapM (patchRow json table patch v) with
    | .error error => .error (some error)
    | .ok writes =>
      if rows.length ≤ MIGRATION_CHUNK then stored.proceed (writes ++ ready) done
      else stored.proceed writes
        (here (.step ((rows[MIGRATION_CHUNK - 1]?).map (keyBy table.key))))

/-- `migrateTable` to its next commit. -/
def migrateTable (stored : StoredTable φ) (versions : Versions κ)
    (stage : Stage) : Except (Option String) (StoredTable φ × Progress κ) :=
  match versions with
  | [] => .ok (stored, .ready)
  | (migration, version) :: rest =>
    migrateSteps json fingerprint stored version migration rest stage

end Migrate

/-! ### Activations -/

/-- The code's history, the table in the store, and how far the activation has brought it. -/
structure Activation (json : JsonCodec κ) (φ : Type) where
  history : TableHistory json
  stored : Option (StoredTable φ)
  progress : Progress κ

inductive Action (κ : Type)
  | prepare (evolutions : List (List (EditorCall κ)))
  | commit
  | stop

namespace Activation

variable {json : JsonCodec κ}

section Run

variable [DecidableEq φ] (fingerprint : TableVersion κ → φ) (activation : Activation json φ)

/-- `prepareTables` as it starts. -/
def prepare (evolutions : List (List (EditorCall κ))) : Activation json φ :=
  let history := evolutions.foldl TableHistory.evolve activation.history
  let what := s!"table \"{history.newest.table.name}\""
  let progress :=
    match planTable fingerprint history (activation.stored.map (·.record)) what with
    | .error error => .failed (some error)
    | .ok .create => .create
    | .ok .ready => .ready
    | .ok (.migrate versions true) => .migrate versions (.step none)
    | .ok (.migrate versions false) => .migrate versions .begin
  ⟨history, activation.stored, progress⟩

/-- The next commit of the activation underway. -/
def advance : Activation json φ :=
  match activation.progress, activation.stored with
  | .create, none =>
    match creation fingerprint activation.history.newest with
    | some stored => { activation with stored := some stored, progress := .ready }
    | none => { activation with progress := .failed none }
  | .migrate versions stage, some stored =>
    match migrateTable json fingerprint stored versions stage with
    | .ok (stored, progress) => { activation with stored := some stored, progress := progress }
    | .error error => { activation with progress := .failed error }
  | _, _ => activation

def perform : Action κ → Activation json φ
  | .prepare evolutions => activation.prepare fingerprint evolutions
  | .commit => activation.advance fingerprint
  | .stop => { activation with progress := .idle }

end Run

end Activation

end KnightCode.Store
