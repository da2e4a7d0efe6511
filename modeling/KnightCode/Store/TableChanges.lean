import KnightCode.Store.Sql

/-!
# The writes of a transaction to a table

Each write is checked and staged by its own call, a bad one throwing there. `get` overlays the
writes of its key on the committed row: it goes back over the last updates, and replays them on what
was written before. After a bulk write it is refused.
-/

namespace KnightCode.Store

variable {κ : Type}

/-- One staged write of one key, as the overlay replays it. -/
inductive KeyWrite (κ : Type)
  | put (row : Row κ)
  | update (set : SetNode κ)
  | delete

def KeyWrite.isUpdate : KeyWrite κ → Bool
  | .update _ => true
  | _ => false

structure TableChanges (κ : Type) where
  staged : List Statement
  byKey : Key → List (KeyWrite κ)
  bulk : Bool

def TableChanges.empty : TableChanges κ := ⟨[], fun _ => [], false⟩

namespace TableChanges

section Stage

variable (json : JsonCodec κ) (table : TableDefinition κ) (changes : TableChanges κ)

/-- `#write`. -/
def write (id : Key) (write : KeyWrite κ) : TableChanges κ :=
  { changes with byKey := Function.update changes.byKey id (changes.byKey id ++ [write]) }

def stage (statement : Statement) : TableChanges κ :=
  { changes with staged := changes.staged ++ [statement] }

/-- `TableSql.update`. -/
def updateSql (set : SetNode κ) (key : Key) : Statement :=
  let assignments := setSql json table.jsonVersion set []
  .update assignments.1 (assignments.2 ++ key.map .value)

def put (row : Fields κ) : Except Invalid (TableChanges κ) := do
  let encoded ← table.put json row
  return (changes.stage (.put encoded.params)).write encoded.id (.put encoded.row)

def update (key : Fields κ) (set : Option (List (String × Expression κ))) :
    Except Invalid (TableChanges κ) := do
  let encoded ← table.encodeKey json key "update"
  let compiled ← compileSet json table set "update"
  return (changes.stage (updateSql json table compiled encoded)).write encoded (.update compiled)

def delete (key : Fields κ) : Except Invalid (TableChanges κ) := do
  let encoded ← table.encodeKey json key "delete"
  return (changes.stage (.delete encoded)).write encoded .delete

def updateWhere (condition : Condition κ) (set : Option (List (String × Expression κ))) :
    Except Invalid (TableChanges κ) := do
  let condition ← compileWhere json table "updateWhere" condition
  let compiled ← compileSet json table set "updateWhere"
  let assignments := setSql json table.jsonVersion compiled []
  let filter := whereSql condition assignments.2
  return { changes.stage (.updateWhere assignments.1 filter.1 filter.2) with bulk := true }

def deleteWhere (condition : Condition κ) : Except Invalid (TableChanges κ) := do
  let condition ← compileWhere json table "deleteWhere" condition
  let filter := whereSql condition []
  return { changes.stage (.deleteWhere filter.1 filter.2) with bulk := true }

end Stage

/-! ### Reading -/

def start (writes : List (KeyWrite κ)) : ℕ → ℕ
  | 0 => 0
  | n + 1 => if (writes[n]?.map KeyWrite.isUpdate).getD false then start writes n else n + 1

/-- An `update` of an absent row changes nothing. -/
def replayWrite (table : TableDefinition κ) (row : Option (Row κ)) (write : KeyWrite κ) :
    Except Stop (Option (Row κ)) :=
  match row, write with
  | some row, .update set => (applySet table.name set row).map some
  | row, _ => .ok row

section Get

variable (json : JsonCodec κ) (table : TableDefinition κ) (rows : Rows)

def read (key : Key) : Except Invalid (Option (Row κ)) :=
  match rows.find? (fun row => table.keyOf row = key) with
  | none => .ok none
  | some stored => (table.decode json stored).map some

/-- `tx.get` over the committed `rows`. -/
def get (changes : TableChanges κ) (key : Fields κ) : Except Stop (Option (Row κ)) := do
  if changes.bulk then
    (invalid "read_after_bulk"
      s!"{table.name}: tx.get after an updateWhere or deleteWhere on the table").mapError .thrown
  else
    let encoded ← (table.encodeKey json key "get").mapError .thrown
    let writes := changes.byKey encoded
    let first := start writes writes.length
    let row ←
      match (if first = 0 then none else writes[first - 1]?) with
      | none => (read json table rows encoded).mapError .thrown
      | some (.put row) => pure (some row)
      | some _ => pure none
    (writes.drop first).foldlM (replayWrite table) row

end Get

end TableChanges

/-! ### A transaction's calls -/

inductive KeyCall (κ : Type)
  | put (row : Fields κ)
  | update (key : Fields κ) (set : Option (List (String × Expression κ)))
  | delete (key : Fields κ)

section Calls

variable (json : JsonCodec κ) (table : TableDefinition κ)

def KeyCall.make (changes : TableChanges κ) : KeyCall κ → Except Invalid (TableChanges κ)
  | .put row => changes.put json table row
  | .update key set => changes.update json table key set
  | .delete key => changes.delete json table key

/-- A call that throws stages nothing. -/
def KeyCall.perform (changes : TableChanges κ) (call : KeyCall κ) : TableChanges κ :=
  (call.make json table changes).toOption.getD changes

def performAll (calls : List (KeyCall κ)) : TableChanges κ :=
  calls.foldl (KeyCall.perform json table) .empty

end Calls

end KnightCode.Store
