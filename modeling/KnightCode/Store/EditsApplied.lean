import KnightCode.Store.StoredTable

/-!
# Edits applied to a stored table

A stored table stands at a shape when its record and its SQL table have the shape's columns, key and
indexes. An edit that may be made in the shape applies, leaves the table at the shape after it, and
makes of each row what `editRow` says, its key unchanged.
-/

namespace KnightCode.Store

open Function List Option

variable {κ φ : Type}

/-! ### Shapes -/

def Column.cell (column : Column κ) : SqlColumn :=
  match column.type with
  | .scalar type => ⟨.scalar type, column.optional, column.default⟩
  | .json _ => ⟨.json, column.optional, none⟩

def Column.version (column : Column κ) : Option SqlColumn :=
  match column.type with
  | .scalar _ => none
  | .json _ => some ⟨.version, column.optional, none⟩

namespace Shape

variable (shape : Shape κ)

def recorded : List (String × ColumnRecord) :=
  shape.columns.map fun column => (column.name, column.record)

def sqlColumns : PhysicalColumn → Option SqlColumn
  | .cell name => (shape.column name).map Column.cell
  | .version name => (shape.column name).bind Column.version
  | .rowVersion => some ⟨.version, false, none⟩

def sqlIndexes : List (String × List String) :=
  shape.indexes.map fun index => (index.1, withKey shape.key index.2)

/-- Columns of distinct names; the key and the indexes over columns that are there. -/
structure Valid : Prop where
  distinct : shape.names.Nodup
  keyed : ∀ name ∈ shape.key, ∃ column ∈ shape.columns, column.name = name ∧
    column.optional = false ∧ ∃ type, column.type = .scalar type ∧ (type = .str ∨ type = .int)
  indexed : ∀ index ∈ shape.indexes, ∀ name ∈ index.2,
    ∃ column ∈ shape.columns, column.name = name

end Shape

theorem TableVersion.valid (version : TableVersion κ) : version.shape.Valid :=
  ⟨version.table.distinct, version.table.keyed, version.indexed⟩

section Columns

variable {shape : Shape κ}
variable {column : Column κ} {name : String}

theorem Shape.column_of_mem (h : shape.names.Nodup) (hmem : column ∈ shape.columns) :
    shape.column column.name = some column :=
  Assoc.find?_of_nodup Column.name h hmem

theorem Shape.mem_of_column (h : shape.column name = some column) :
    column ∈ shape.columns ∧ column.name = name := by
  have hname := find?_some h
  exact ⟨mem_of_find?_eq_some h, of_decide_eq_true hname⟩

theorem Shape.column_eq_none (h : ∀ column ∈ shape.columns, column.name ≠ name) :
    shape.column name = none :=
  find?_eq_none.mpr fun column hcolumn heq => h column hcolumn (of_decide_eq_true heq)

/-- One column set changes its physical columns only. -/
theorem sqlColumns_eq_update {shape' : Shape κ} {set : Option (Column κ)}
    (h : ∀ other, shape'.column other = if other = name then set else shape.column other) :
    shape'.sqlColumns = update (update shape.sqlColumns (.cell name)
      (set.map Column.cell)) (.version name) (set.bind Column.version) := by
  funext physical
  cases physical with
  | rowVersion => rfl
  | cell other =>
    rw [update_of_ne (fun heq => by cases heq), Shape.sqlColumns, h]
    by_cases heq : other = name
    · rw [if_pos heq, heq, update_self]
    · rw [if_neg heq, update_of_ne fun h => heq (PhysicalColumn.cell.inj h)]
      rfl
  | version other =>
    rw [Shape.sqlColumns, h]
    by_cases heq : other = name
    · rw [if_pos heq, heq, update_self]
    · rw [if_neg heq, update_of_ne fun h => heq (PhysicalColumn.version.inj h),
        update_of_ne fun h => by cases h]
      rfl

theorem isJson_recorded (h : shape.names.Nodup) (hcolumn : shape.column name = some column) :
    isJson shape.recorded name = column.record.isJson := by
  obtain ⟨hmem, rfl⟩ := Shape.mem_of_column hcolumn
  have hkeys : (Assoc.keys shape.recorded).Nodup := by
    unfold Assoc.keys Shape.recorded
    rw [List.map_map]
    exact h
  have hrecord : (column.name, column.record) ∈ shape.recorded :=
    mem_map.mpr ⟨column, hmem, rfl⟩
  rw [isJson, Assoc.get_of_mem hkeys hrecord, any_some]

end Columns

/-! ### A table at a shape -/

/-- The record and the SQL table have the columns, key and indexes of `shape`. -/
structure Stands (stored : StoredTable φ) (shape : Shape κ) : Prop where
  columns : stored.record.columns = shape.recorded
  key : stored.record.key = shape.key
  indexes : stored.record.indexes = shape.indexes
  sqlColumns : stored.sql.columns = shape.sqlColumns
  sqlKey : stored.sql.key = shape.key
  sqlIndexes : stored.sql.indexes = shape.sqlIndexes

def keyBy (key : List String) (row : PhysicalRow) : Key := key.map fun name => row (.cell name)

/-- A value a key column holds: text or an integer. -/
def SqlValue.Keyed (value : SqlValue) : Prop :=
  (∃ points, value = .text points) ∨ ∃ n, value = .integer n

structure RowsFit (key : List String) (version : ℕ) (rows : Rows) : Prop where
  distinct : (rows.map (keyBy key)).Nodup
  keyed : ∀ row ∈ rows, ∀ name ∈ key, (row (.cell name)).Keyed
  stamped : ∀ row ∈ rows, ∃ n : ℤ, row .rowVersion = .integer n ∧ n ≤ version

theorem RowsFit.map {key key' : List String} {version : ℕ} {rows : Rows}
    (h : RowsFit key version rows) {f : PhysicalRow → PhysicalRow}
    (hkey : ∀ row, keyBy key' (f row) = keyBy key row)
    (hstamp : ∀ row, f row .rowVersion = row .rowVersion) : RowsFit key' version (rows.map f) := by
  refine ⟨?_, fun row hrow name hname => ?_, fun row hrow => ?_⟩
  · rw [List.map_map]
    have hkeys : (keyBy key' ∘ f) = keyBy key := funext hkey
    rw [hkeys]
    exact h.distinct
  · obtain ⟨before, hbefore, rfl⟩ := mem_map.mp hrow
    have hmem : f before (.cell name) ∈ keyBy key' (f before) :=
      mem_map.mpr ⟨name, hname, rfl⟩
    rw [hkey] at hmem
    obtain ⟨other, hother, heq⟩ := mem_map.mp hmem
    exact heq ▸ h.keyed before hbefore other hother
  · obtain ⟨before, hbefore, rfl⟩ := mem_map.mp hrow
    rw [hstamp]
    exact h.stamped before hbefore

/-- What applying an edit gives. -/
structure Applied (stored : StoredTable φ) (shape : Shape κ) (edit : TableEdit)
    (shape' : Shape κ) (after : StoredTable φ) : Prop where
  stands : Stands after shape'
  rows : after.sql.rows = stored.sql.rows.map fun row => editRow stored.record.columns row edit
  record : after.record.version = stored.record.version ∧ after.record.state = stored.record.state ∧
    after.record.fingerprint = stored.record.fingerprint
  columns : after.record.columns = editColumns stored.record.columns edit
  key : ∀ row, keyBy shape'.key (editRow stored.record.columns row edit) = keyBy shape.key row
  stamp : ∀ row, editRow stored.record.columns row edit .rowVersion = row .rowVersion

section Apply

variable {stored : StoredTable φ} {shape : Shape κ}
variable {name : String} {columns : List String} {existing column : Column κ}

theorem sqlColumns_cell_ne_none (h : ∃ column ∈ shape.columns, column.name = name) :
    shape.sqlColumns (.cell name) ≠ none := by
  obtain ⟨column, hcolumn, hname⟩ := h
  intro hnone
  have hfind : shape.column name = none := map_eq_none_iff.mp hnone
  exact find?_eq_none.mp hfind column hcolumn (decide_eq_true hname)

theorem mem_withKey {key : List String} (h : name ∈ withKey key columns) :
    name ∈ columns ∨ name ∈ key := by
  obtain h | h := mem_append.mp h
  · exact .inl h
  · exact .inr (mem_filter.mp h).1

theorem Stands.rows (h : Stands stored shape) (rows : Rows) :
    Stands { stored with sql := { stored.sql with rows := rows } } shape :=
  { h with }

theorem applied_index (h : Stands stored shape) (hvalid : shape.Valid)
    (hnew : Assoc.get name shape.indexes = none)
    (hcolumns : ∀ each ∈ columns, ∃ column ∈ shape.columns, column.name = each) :
    ∃ after, stored.applyEdit (.index name columns) = some after ∧
      Applied stored shape (.index name columns) (shape.index name columns) after := by
  have hfree : Assoc.get name stored.sql.indexes = none := by
    rw [h.sqlIndexes, Shape.sqlIndexes, Assoc.get_map, hnew, map_none]
  have hthere : ∀ each ∈ withKey stored.record.key columns,
      stored.sql.columns (.cell each) ≠ none := by
    intro each heach
    rw [h.sqlColumns]
    apply sqlColumns_cell_ne_none
    obtain heach | heach := mem_withKey heach
    · exact hcolumns each heach
    · rw [h.key] at heach
      obtain ⟨column, hcolumn, hname, -⟩ := hvalid.keyed each heach
      exact ⟨column, hcolumn, hname⟩
  have hcreate : stored.sql.createIndex name (withKey stored.record.key columns) =
      some { stored.sql with
        indexes := Assoc.set name (withKey stored.record.key columns) stored.sql.indexes } := by
    rw [SqlTable.createIndex, if_neg]
    rintro (hused | ⟨each, heach, hnone⟩)
    · exact hused hfree
    · exact hthere each heach hnone
  refine ⟨_, by rw [StoredTable.applyEdit, StoredTable.applyIndex, hcreate]; rfl, ?_⟩
  refine ⟨{ h with indexes := ?_, sqlIndexes := ?_ }, (map_id _).symm,
    ⟨rfl, rfl, rfl⟩, rfl, fun row => rfl, fun row => rfl⟩
  · exact congrArg (Assoc.set name columns) h.indexes
  · dsimp only
    rw [h.sqlIndexes, h.key, Shape.sqlIndexes, Assoc.set_map]
    rfl

theorem applied_dropIndex (h : Stands stored shape)
    (hindex : Assoc.get name shape.indexes = some columns) :
    ∃ after, stored.applyEdit (.dropIndex name) = some after ∧
      Applied stored shape (.dropIndex name) (shape.dropIndex name) after := by
  have hused : Assoc.get name stored.sql.indexes ≠ none := by
    rw [h.sqlIndexes, Shape.sqlIndexes, Assoc.get_map, hindex]
    exact some_ne_none _
  refine ⟨_, by
    rw [StoredTable.applyEdit, StoredTable.applyDropIndex, SqlTable.dropIndex, if_neg hused]
    rfl, ?_⟩
  refine ⟨{ h with indexes := ?_, sqlIndexes := ?_ }, (map_id _).symm,
    ⟨rfl, rfl, rfl⟩, rfl, fun row => rfl, fun row => rfl⟩
  · exact congrArg (Assoc.erase name) h.indexes
  · dsimp only
    rw [h.sqlIndexes, Shape.sqlIndexes, Assoc.erase_map]
    rfl

theorem json_names (shape : Shape κ) (name : String) (column : JsonColumn κ) :
    (shape.json name column).names = shape.names := by
  unfold Shape.names Shape.json
  rw [List.map_map]
  refine map_congr_left fun each _ => ?_
  rw [comp_apply]
  split_ifs <;> rfl

theorem json_column (hexisting : shape.column name = some existing) (column : JsonColumn κ)
    (other : String) : (shape.json name column).column other =
      if other = name then some { existing with type := .json column } else shape.column other := by
  have hmap : (shape.json name column).column other = (shape.column other).map fun each =>
      if each.name = name then { each with type := .json column } else each := by
    unfold Shape.column Shape.json
    rw [find?_map]
    refine congrArg (Option.map _) (congrArg (find? · shape.columns) (funext fun each => ?_))
    rw [comp_apply]
    split_ifs <;> rfl
  rw [hmap]
  split_ifs with hname
  · rw [hname, hexisting, map_some, if_pos (Shape.mem_of_column hexisting).2]
  · refine (Option.map_congr fun each heach => if_neg ?_).trans (Option.map_id' ..)
    exact fun heq => hname ((Shape.mem_of_column heach).2.symm.trans heq)

theorem set_recorded (column : JsonColumn κ) (hdistinct : shape.names.Nodup)
    (hmem : existing ∈ shape.columns) :
    Assoc.set existing.name ({ existing with type := .json column } : Column κ).record
      shape.recorded = (shape.json existing.name column).recorded := by
  have hset : ∀ columns : List (Column κ), (columns.map (·.name)).Nodup → existing ∈ columns →
      Assoc.set existing.name ({ existing with type := .json column } : Column κ).record
        (columns.map fun each => (each.name, each.record)) =
      (columns.map fun each => if each.name = existing.name then
        { each with type := .json column } else each).map
          fun each => (each.name, each.record) := by
    intro columns
    induction columns with
    | nil => exact fun _ habsent => absurd habsent not_mem_nil
    | cons first columns ih =>
      intro hnodup hin
      rw [map_cons, nodup_cons] at hnodup
      rw [map_cons, map_cons, map_cons, Assoc.set]
      obtain rfl | hin := mem_cons.mp hin
      · rw [if_pos rfl, if_pos rfl, List.map_map]
        refine congrArg (cons _) (map_congr_left fun each heach => ?_)
        have hne : each.name ≠ existing.name := fun heq =>
          hnodup.1 (heq ▸ mem_map_of_mem heach)
        rw [comp_apply, if_neg hne]
      · have hne : first.name ≠ existing.name := fun heq =>
          hnodup.1 (heq ▸ mem_map_of_mem hin)
        rw [if_neg hne, if_neg hne, ih hnodup.2 hin]
  exact hset shape.columns hdistinct hmem

theorem applied_json (h : Stands stored shape) (hvalid : shape.Valid) {before column : JsonColumn κ}
    (hexisting : shape.column name = some existing) (hjson : existing.type = .json before) :
    ∃ after, stored.applyEdit (.json name { existing with type := .json column }.record) =
        some after ∧
      Applied stored shape (.json name { existing with type := .json column }.record)
        (shape.json name column) after := by
  obtain ⟨hmem, rfl⟩ := Shape.mem_of_column hexisting
  refine ⟨_, rfl, { h with columns := ?_, sqlColumns := ?_ }, (map_id _).symm,
    ⟨rfl, rfl, rfl⟩, rfl, fun row => rfl, fun row => rfl⟩
  · exact (congrArg (Assoc.set existing.name _) h.columns).trans
      (set_recorded column hvalid.distinct hmem)
  · refine h.sqlColumns.trans ?_
    have hcell : shape.sqlColumns (.cell existing.name) = some existing.cell := by
      rw [Shape.sqlColumns, hexisting]
      rfl
    have hversion : shape.sqlColumns (.version existing.name) = existing.version := by
      rw [Shape.sqlColumns, hexisting]
      rfl
    have hsame : ({ existing with type := .json column } : Column κ).cell = existing.cell ∧
        ({ existing with type := .json column } : Column κ).version = existing.version := by
      unfold Column.cell Column.version
      rw [hjson]
      exact ⟨rfl, rfl⟩
    rw [sqlColumns_eq_update (json_column hexisting column), map_some, bind_some, hsame.1, hsame.2,
      ← hcell, ← hversion, update_eq_self, update_eq_self]

theorem drop_column (shape : Shape κ) (name other : String) :
    (shape.drop name).column other = if other = name then none else shape.column other := by
  unfold Shape.column Shape.drop
  dsimp only
  rw [find?_filter]
  split_ifs with heq
  · subst heq
    exact find?_eq_none.mpr fun column _ => by simp
  · refine congrArg (find? · shape.columns) (funext fun column => ?_)
    by_cases hname : column.name = other
    · simp [hname, heq]
    · simp [hname]

theorem drop_sqlColumns (shape : Shape κ) (name : String) :
    (shape.drop name).sqlColumns = update
      (update shape.sqlColumns (.cell name) none) (.version name) none :=
  sqlColumns_eq_update (drop_column shape name)

theorem sqlColumns_version (hcolumn : shape.column name = some column) :
    (shape.sqlColumns (.version name)).isSome = column.record.isJson := by
  rw [Shape.sqlColumns, hcolumn, bind_some, ColumnRecord.isJson, Column.record, Column.version]
  cases column.type <;> rfl

theorem applied_drop (h : Stands stored shape) (hvalid : shape.Valid)
    (hcolumn : shape.column name = some column) (hkey : name ∉ shape.key)
    (hindexes : ∀ index ∈ shape.indexes, name ∉ index.2) :
    ∃ after, stored.applyEdit (.drop name) = some after ∧
      Applied stored shape (.drop name) (shape.drop name) after := by
  obtain ⟨hmem, hname⟩ := Shape.mem_of_column hcolumn
  have hjson : isJson stored.record.columns name = column.record.isJson :=
    h.columns ▸ isJson_recorded hvalid.distinct hcolumn
  have hversion := sqlColumns_version hcolumn
  have hcell : stored.sql.columns (.cell name) ≠ none :=
    h.sqlColumns ▸ sqlColumns_cell_ne_none ⟨column, hmem, hname⟩
  have hunused : stored.sql.uses (.cell name) = false := by
    rw [SqlTable.uses, h.sqlKey, h.sqlIndexes]
    refine decide_eq_false ?_
    rintro (hin | ⟨index, hindex, hin⟩)
    · exact hkey hin
    · obtain ⟨source, hsource, rfl⟩ := mem_map.mp hindex
      obtain hin | hin := mem_withKey hin
      · exact hindexes source hsource hin
      · exact hkey hin
  have hfirst : stored.sql.dropColumn (.cell name) = some { stored.sql with
      columns := update stored.sql.columns (.cell name) none
      rows := stored.sql.rows.map fun row => update row (.cell name) .null } := by
    rw [SqlTable.dropColumn, if_neg]
    rintro (hnone | hused)
    · exact hcell hnone
    · rw [hunused] at hused
      cases hused
  have hrecord : Assoc.erase name stored.record.columns = (shape.drop name).recorded := by
    rw [h.columns, Assoc.erase_eq_filter, Shape.recorded, Shape.recorded, List.filter_map]
    rfl
  have hkeyed : ∀ row : PhysicalRow, keyBy shape.key
      (editRow stored.record.columns row (.drop name)) = keyBy shape.key row := by
    intro row
    refine map_congr_left fun each heach => ?_
    have hne : each ≠ name := fun heq => hkey (heq ▸ heach)
    have hcellne : PhysicalColumn.cell each ≠ .cell name := fun heq =>
      hne (PhysicalColumn.cell.inj heq)
    simp only [editRow]
    split_ifs
    · rw [update_of_ne (fun heq => by cases heq), update_of_ne hcellne]
    · rw [update_of_ne hcellne]
  have hstamp : ∀ row : PhysicalRow,
      editRow stored.record.columns row (.drop name) .rowVersion = row .rowVersion := by
    intro row
    simp only [editRow]
    split_ifs
    · rw [update_of_ne (fun heq => by cases heq),
        update_of_ne (fun heq => by cases heq)]
    · rw [update_of_ne (fun heq => by cases heq)]
  rw [StoredTable.applyEdit, StoredTable.applyDrop, hfirst]
  cases hcase : column.record.isJson with
  | false =>
    rw [hcase] at hjson hversion
    have hnoversion : shape.sqlColumns (.version name) = none :=
      not_isSome_iff_eq_none.mp (Bool.eq_false_iff.mp hversion)
    rw [bind_eq_bind, bind_some, hjson, if_neg Bool.false_ne_true]
    refine ⟨_, rfl, { h with columns := hrecord, sqlColumns := ?_ }, ?_, ⟨rfl, rfl, rfl⟩,
      rfl, hkeyed, hstamp⟩
    · dsimp only
      rw [drop_sqlColumns, h.sqlColumns]
      refine (update_eq_self_iff.mpr ?_).symm
      rw [update_of_ne fun heq => by cases heq]
      exact hnoversion.symm
    · refine map_congr_left fun row _ => ?_
      rw [editRow, hjson]
      rfl
  | true =>
    rw [hcase] at hjson hversion
    have hpresent : shape.sqlColumns (.version name) ≠ none := isSome_iff_ne_none.mp hversion
    rw [bind_eq_bind, bind_some, hjson, if_pos rfl, SqlTable.dropColumn, if_neg]
    · refine ⟨_, rfl, { h with columns := hrecord, sqlColumns := ?_ }, ?_, ⟨rfl, rfl, rfl⟩,
        rfl, hkeyed, hstamp⟩
      · dsimp only
        rw [drop_sqlColumns, h.sqlColumns]
      · refine (List.map_map ..).trans (map_congr_left fun row _ => ?_)
        rw [editRow, hjson]
        rfl
    · rintro (hnone | hused)
      · dsimp only at hnone
        rw [update_of_ne (fun heq => by cases heq), h.sqlColumns] at hnone
        exact hpresent hnone
      · cases hused

theorem add_recorded (h : Stands stored shape)
    (hnew : ∀ other ∈ shape.columns, other.name ≠ column.name) :
    Assoc.set column.name column.record stored.record.columns = (shape.add column).recorded := by
  have hfresh : column.name ∉ Assoc.keys shape.recorded := by
    intro hmem
    unfold Assoc.keys Shape.recorded at hmem
    rw [List.map_map] at hmem
    obtain ⟨other, hother, hname⟩ := mem_map.mp hmem
    exact hnew other hother hname
  rw [h.columns, Assoc.set_of_not_mem _ hfresh, Shape.recorded, Shape.recorded, Shape.add,
    map_append]
  rfl

theorem add_column (hnew : ∀ other ∈ shape.columns, other.name ≠ column.name) (name : String) :
    (shape.add column).column name =
      if name = column.name then some column else shape.column name := by
  unfold Shape.column Shape.add
  rw [find?_append]
  split_ifs with hname
  · have hnone : shape.columns.find? (fun column => column.name = name) = none :=
      find?_eq_none.mpr fun other hother heq =>
        hnew other hother ((of_decide_eq_true heq).trans hname)
    rw [hnone, none_or]
    exact find?_cons_of_pos (decide_eq_true hname.symm)
  · have hnone : [column].find? (fun column => column.name = name) = none :=
      find?_cons_of_neg fun heq => hname (of_decide_eq_true heq).symm
    rw [hnone, or_none]

theorem add_sqlColumns {column : Column κ}
    (hnew : ∀ other ∈ shape.columns, other.name ≠ column.name) :
    (shape.add column).sqlColumns = (columnSql column.name column.record).foldl
      (fun (columns : PhysicalColumn → Option SqlColumn) each =>
        update columns each.1 (some each.2)) shape.sqlColumns := by
  have hnone : shape.column column.name = none := Shape.column_eq_none hnew
  rw [sqlColumns_eq_update (add_column hnew), map_some, bind_some, Column.cell, Column.version]
  cases htype : column.type with
  | scalar type =>
    simp only [columnSql, Column.record, htype, foldl_cons, foldl_nil]
    refine update_eq_self_iff.mpr ?_
    rw [update_of_ne (fun heq => by cases heq), Shape.sqlColumns, hnone, bind_none]
  | json json => simp only [columnSql, Column.record, htype, foldl_cons, foldl_nil]

theorem addColumn_some (sql : SqlTable) (column : PhysicalColumn × SqlColumn)
    (hfree : sql.columns column.1 = none) (haddable : SqlColumn.addable column.2 = true) :
    sql.addColumn column = some { sql with
      columns := update sql.columns column.1 (some column.2)
      rows := sql.rows.map fun row =>
        update row column.1 (SqlColumn.initial column.2) } := by
  rw [SqlTable.addColumn, if_neg]
  rintro (hused | hrefused)
  · exact hused hfree
  · cases haddable.symm.trans hrefused

theorem store_of_fits {type : ScalarType} {value : Scalar} (h : value.Fits type) :
    type.store (toSqlite value) = some (toSqlite value) := by
  obtain ⟨-, hnone⟩ | ⟨-, -, hstore⟩ := store_toSqlite h.typed
  · cases type with
    | int =>
      cases value with
      | int value => exact if_pos h
      | _ => cases h
    | bool =>
      cases value with
      | bool value => cases value <;> rfl
      | _ => cases h
    | _ => cases value <;> first | rfl | cases h
  · exact hstore

theorem columnSql_addable (hnew : ∀ other ∈ shape.columns, other.name ≠ column.name)
    (hfits : ∀ value ∈ column.default, ∃ type, column.type = .scalar type ∧ value.Fits type)
    (hdefault : column.optional = true ∨ column.default ≠ none) (sql : SqlTable)
    (hsql : sql.columns = shape.sqlColumns) :
    (columnSql column.name column.record).foldlM SqlTable.addColumn sql = some { sql with
      columns := (columnSql column.name column.record).foldl
        (fun (columns : PhysicalColumn → Option SqlColumn) each =>
          update columns each.1 (some each.2)) sql.columns
      rows := sql.rows.map fun row => (columnSql column.name column.record).foldl
        (fun row each => update row each.1 (SqlColumn.initial each.2)) row } := by
  have hnone : shape.column column.name = none := Shape.column_eq_none hnew
  have hcell : sql.columns (.cell column.name) = none := by
    rw [hsql, Shape.sqlColumns, hnone, map_none]
  have hversion : sql.columns (.version column.name) = none := by
    rw [hsql, Shape.sqlColumns, hnone, bind_none]
  cases htype : column.type with
  | scalar type =>
    simp only [columnSql, Column.record, htype, foldl_cons, foldl_nil]
    have haddable :
        SqlColumn.addable ⟨.scalar type, column.optional, column.default⟩ = true := by
      cases hvalue : column.default with
      | none =>
        rw [hvalue] at hdefault
        exact hdefault.resolve_right fun h => h rfl
      | some value =>
        obtain ⟨type', htype', hfit⟩ := hfits value hvalue
        cases htype.symm.trans htype'
        exact isSome_iff_exists.mpr ⟨_, store_of_fits hfit⟩
    rw [foldlM_cons, addColumn_some sql _ hcell haddable]
    rfl
  | json json =>
    simp only [columnSql, Column.record, htype, foldl_cons, foldl_nil]
    have hoptional : column.optional = true := by
      refine hdefault.resolve_right fun hsome => ?_
      obtain ⟨value, hvalue⟩ := ne_none_iff_exists'.mp hsome
      obtain ⟨type', htype', -⟩ := hfits value hvalue
      cases htype.symm.trans htype'
    have hversion' : update sql.columns (.cell column.name)
        (some ⟨.json, column.optional, none⟩) (.version column.name) = none := by
      rw [update_of_ne fun h => by cases h]
      exact hversion
    have haddable : ∀ type, SqlColumn.addable ⟨type, column.optional, none⟩ = true :=
      fun type => hoptional
    let cell : PhysicalColumn × SqlColumn :=
      (.cell column.name, ⟨.json, column.optional, none⟩)
    let first : SqlTable := { sql with
      columns := update sql.columns cell.1 (some cell.2)
      rows := sql.rows.map fun row => update row cell.1 (SqlColumn.initial cell.2) }
    have hfirst : sql.addColumn cell = some first :=
      addColumn_some sql cell hcell (haddable .json)
    have hsecond := addColumn_some first
      (.version column.name, ⟨.version, column.optional, none⟩) hversion' (haddable .version)
    rw [foldlM_cons, hfirst, bind_eq_bind, bind_some, foldlM_cons, hsecond]
    dsimp only [first]
    rw [List.map_map]
    rfl

theorem foldl_update_of_not_mem {β : Type} (f : β → SqlValue) {l : List (PhysicalColumn × β)}
    {column : PhysicalColumn} (h : column ∉ l.map (·.1)) (row : PhysicalRow) :
    l.foldl (fun row entry => update row entry.1 (f entry.2)) row column = row column := by
  induction l generalizing row with
  | nil => rfl
  | cons first l ih =>
    rw [map_cons, mem_cons, not_or] at h
    rw [foldl_cons, ih h.2, update_of_ne h.1]

theorem mem_columnSql {column : ColumnRecord} {physical : PhysicalColumn}
    (h : physical ∈ (columnSql name column).map (·.1)) :
    physical = .cell name ∨ physical = .version name := by
  unfold columnSql at h
  split at h
  · exact .inl (mem_singleton.mp h)
  · obtain h | h := mem_cons.mp h
    · exact .inl h
    · exact .inr (mem_singleton.mp h)

theorem editRow_add (columns : List (String × ColumnRecord)) (row : PhysicalRow) (name : String)
    (column : ColumnRecord) : (∀ other, other ≠ name →
      editRow columns row (.add name column) (.cell other) = row (.cell other)) ∧
      editRow columns row (.add name column) .rowVersion = row .rowVersion := by
  rw [editRow]
  refine ⟨fun other hother => foldl_update_of_not_mem _ (fun hmem => ?_) row,
    foldl_update_of_not_mem _ (fun hmem => ?_) row⟩
  · obtain h | h := mem_columnSql hmem
    · exact hother (PhysicalColumn.cell.inj h)
    · cases h
  · obtain h | h := mem_columnSql hmem <;> cases h

theorem applied_add (h : Stands stored shape) (hvalid : shape.Valid)
    (hnew : ∀ other ∈ shape.columns, other.name ≠ column.name)
    (hfits : ∀ value ∈ column.default, ∃ type, column.type = .scalar type ∧ value.Fits type)
    (hdefault : column.optional = true ∨ column.default ≠ none) :
    ∃ after, stored.applyEdit (.add column.name column.record) = some after ∧
      Applied stored shape (.add column.name column.record) (shape.add column) after := by
  have hadd := columnSql_addable hnew hfits hdefault stored.sql h.sqlColumns
  rw [StoredTable.applyEdit, StoredTable.applyAdd, hadd, map_some]
  refine ⟨_, rfl, { h with columns := add_recorded h hnew, sqlColumns := ?_ }, rfl,
    ⟨rfl, rfl, rfl⟩, rfl, fun row => ?_, fun row => (editRow_add _ _ _ _).2⟩
  · dsimp only
    rw [h.sqlColumns, add_sqlColumns hnew]
  · refine map_congr_left fun each heach => (editRow_add _ _ _ _).1 each ?_
    obtain ⟨other, hother, rfl, -⟩ := hvalid.keyed each heach
    exact hnew other hother

section Rename

variable {from' to' : String} {column : Column κ}

theorem renamed_inj (hto : shape.Free from' to') {a b : String}
    (ha : ∃ column ∈ shape.columns, column.name = a)
    (hb : ∃ column ∈ shape.columns, column.name = b)
    (h : renamed from' to' a = renamed from' to' b) : a = b := by
  obtain ⟨first, hfirst, rfl⟩ := ha
  obtain ⟨second, hsecond, rfl⟩ := hb
  unfold renamed at h
  split_ifs at h with hone htwo htwo
  · exact hone.trans htwo.symm
  · exact absurd h.symm (hto second hsecond htwo)
  · exact absurd h (hto first hfirst hone)
  · exact h

theorem rename_names (hdistinct : shape.names.Nodup) (hto : shape.Free from' to') :
    (shape.rename from' to').names.Nodup := by
  have hnames : (shape.rename from' to').names = shape.names.map (renamed from' to') := by
    unfold Shape.names Shape.rename
    rw [List.map_map, List.map_map]
    rfl
  rw [hnames]
  refine List.Nodup.map_on (fun a ha b hb h => ?_) hdistinct
  obtain ⟨first, hfirst, rfl⟩ := mem_map.mp ha
  obtain ⟨second, hsecond, rfl⟩ := mem_map.mp hb
  exact renamed_inj hto ⟨first, hfirst, rfl⟩ ⟨second, hsecond, rfl⟩ h

theorem rename_column (hdistinct : shape.names.Nodup) (hcolumn : shape.column from' = some column)
    (hto : shape.Free from' to') (other : String) :
    (shape.rename from' to').column other =
      if other = to' then some (column.rename from' to')
      else if other = from' then none else shape.column other := by
  obtain ⟨hmem, rfl⟩ := Shape.mem_of_column hcolumn
  have hdistinct' := rename_names hdistinct hto
  by_cases hnew : other = to'
  · have hname : (column.rename column.name to').name = to' := if_pos rfl
    have hfinal := Shape.column_of_mem hdistinct' (mem_map_of_mem hmem)
    rw [if_pos hnew, hnew]
    exact (congrArg ((shape.rename column.name to').column) hname).symm.trans hfinal
  · rw [if_neg hnew]
    by_cases hold : other = column.name
    · rw [if_pos hold]
      refine Shape.column_eq_none fun each heach => ?_
      obtain ⟨source, hsource, rfl⟩ := mem_map.mp heach
      unfold Column.rename renamed
      dsimp only
      split_ifs with hfrom
      · exact fun heq => hnew heq.symm
      · exact fun heq => hfrom (heq.trans hold)
    · rw [if_neg hold]
      cases hfound : shape.column other with
      | none =>
        refine Shape.column_eq_none fun each heach => ?_
        obtain ⟨source, hsource, rfl⟩ := mem_map.mp heach
        unfold Column.rename renamed
        dsimp only
        split_ifs with hfrom
        · exact fun heq => hnew heq.symm
        · exact fun heq => find?_eq_none.mp hfound source hsource (decide_eq_true heq)
      | some found =>
        obtain ⟨hin, rfl⟩ := Shape.mem_of_column hfound
        have hsame : found.rename column.name to' = found := by
          unfold Column.rename renamed
          rw [if_neg hold]
        have hname : (found.rename column.name to').name = found.name := congrArg Column.name hsame
        have hfinal := Shape.column_of_mem hdistinct' (mem_map_of_mem hin)
        exact ((congrArg ((shape.rename column.name to').column) hname).symm.trans hfinal).trans
          (congrArg some hsame)

theorem rename_sqlColumns (hdistinct : shape.names.Nodup)
    (hcolumn : shape.column from' = some column) (hto : shape.Free from' to') :
    (shape.rename from' to').sqlColumns = moved (.version from') (.version to') none
      (moved (.cell from') (.cell to') none shape.sqlColumns) := by
  have hset : ∀ other, (shape.rename from' to').column other =
      if other = to' then some (column.rename from' to')
      else (shape.drop from').column other := by
    intro other
    rw [rename_column hdistinct hcolumn hto, drop_column]
  have hcell : shape.sqlColumns (.cell from') = some column.cell := by
    rw [Shape.sqlColumns, hcolumn, map_some]
  have hversion : shape.sqlColumns (.version from') = column.version := by
    rw [Shape.sqlColumns, hcolumn, bind_some]
  rw [sqlColumns_eq_update hset, drop_sqlColumns, moved_eq_update, moved_eq_update,
    update_of_ne (fun h => by cases h), update_of_ne (fun h => by cases h), hcell,
    hversion]
  exact congrArg (update · _ _) (update_comm (fun h => by cases h) ..)

theorem withKey_map {f : String → String} {key columns : List String}
    (hf : ∀ a ∈ key, ∀ b ∈ columns, f a = f b → a = b) :
    (withKey key columns).map f = withKey (key.map f) (columns.map f) := by
  unfold withKey
  rw [map_append, List.filter_map]
  refine congrArg (columns.map f ++ ·) (congrArg (map f) (filter_congr fun a ha => ?_))
  rw [comp_apply]
  refine decide_eq_decide.mpr (not_congr ⟨mem_map_of_mem, fun hmem => ?_⟩)
  obtain ⟨b, hb, heq⟩ := mem_map.mp hmem
  exact hf a ha b hb heq.symm ▸ hb

theorem rename_sqlIndexes (hvalid : shape.Valid) (hto : shape.Free from' to') :
    (shape.rename from' to').sqlIndexes = shape.sqlIndexes.map fun index =>
      (index.1, index.2.map (renamed from' to')) := by
  unfold Shape.sqlIndexes
  rw [Shape.rename, List.map_map, List.map_map]
  refine map_congr_left fun index hindex => congrArg (Prod.mk index.1) ?_
  refine (withKey_map fun a ha b hb => renamed_inj hto ?_ ?_).symm
  · obtain ⟨column, hcolumn, hname, -⟩ := hvalid.keyed a ha
    exact ⟨column, hcolumn, hname⟩
  · exact hvalid.indexed index hindex b hb

theorem editRow_rename (columns : List (String × ColumnRecord)) (row : PhysicalRow) :
    (∀ name, editRow columns row (.rename from' to') (.cell name) =
      moved (.cell from') (.cell to') .null row (.cell name)) ∧
    editRow columns row (.rename from' to') .rowVersion = row .rowVersion := by
  simp only [editRow]
  refine ⟨fun name => ?_, ?_⟩
  · split_ifs
    · exact moved_of_ne (fun h => by cases h) fun h => by cases h
    · rfl
  · split_ifs
    · exact (moved_of_ne (fun h => by cases h) fun h => by cases h).trans
        (moved_of_ne (fun h => by cases h) fun h => by cases h)
    · exact moved_of_ne (fun h => by cases h) fun h => by cases h

theorem keyBy_rename (hvalid : shape.Valid) (hto : shape.Free from' to')
    (columns : List (String × ColumnRecord)) (row : PhysicalRow) :
    keyBy (shape.rename from' to').key (editRow columns row (.rename from' to')) =
      keyBy shape.key row := by
  unfold keyBy
  rw [Shape.rename, List.map_map]
  refine map_congr_left fun name hname => ?_
  obtain ⟨column, hcolumn, rfl, -⟩ := hvalid.keyed name hname
  rw [comp_apply, (editRow_rename columns row).1]
  by_cases hfrom : column.name = from'
  · have hnew : renamed from' to' column.name = to' := if_pos hfrom
    rw [hnew, moved_to, hfrom]
  · have hkept : renamed from' to' column.name = column.name := if_neg hfrom
    rw [hkept, moved_of_ne (fun h => hto column hcolumn hfrom (PhysicalColumn.cell.inj h))
      fun h => hfrom (PhysicalColumn.cell.inj h)]

theorem applied_rename (h : Stands stored shape) (hvalid : shape.Valid)
    (hcolumn : shape.column from' = some column) (hto : shape.Free from' to') :
    ∃ after, stored.applyEdit (.rename from' to') = some after ∧
      Applied stored shape (.rename from' to') (shape.rename from' to') after := by
  obtain ⟨hmem, hname⟩ := Shape.mem_of_column hcolumn
  have hjson : isJson stored.record.columns from' = column.record.isJson :=
    h.columns ▸ isJson_recorded hvalid.distinct hcolumn
  have hversion := sqlColumns_version hcolumn
  have hto_none : from' ≠ to' → shape.column to' = none := fun hne =>
    Shape.column_eq_none fun other hother heq => by
      by_cases hfrom : other.name = from'
      · exact hne (hfrom.symm.trans heq)
      · exact hto other hother hfrom heq
  have hrecord : stored.record.columns.map (fun column => (renamed from' to' column.1, column.2)) =
      (shape.rename from' to').recorded := by
    rw [h.columns, Shape.recorded, Shape.recorded, Shape.rename, List.map_map, List.map_map]
    rfl
  let cellMoved : SqlTable := {
    columns := moved (.cell from') (.cell to') none stored.sql.columns
    key := stored.sql.key.map (renamed from' to')
    indexes := stored.sql.indexes.map fun index => (index.1, index.2.map (renamed from' to'))
    rows := stored.sql.rows.map (moved (.cell from') (.cell to') .null) }
  have hfirst : stored.sql.renameColumn (.cell from') (.cell to') = some cellMoved := by
    rw [SqlTable.renameColumn, if_neg]
    · rfl
    · rw [h.sqlColumns]
      rintro (hnone | ⟨hne, hthere⟩)
      · exact sqlColumns_cell_ne_none ⟨column, hmem, hname⟩ hnone
      · refine hthere ?_
        rw [Shape.sqlColumns, hto_none fun heq => hne (congrArg PhysicalColumn.cell heq), map_none]
  have hcolumns := rename_sqlColumns hvalid.distinct hcolumn hto
  have hkept : ∀ name, cellMoved.columns (.version name) = shape.sqlColumns (.version name) := by
    intro name
    have hmoved : cellMoved.columns (.version name) = stored.sql.columns (.version name) :=
      @moved_of_ne _ (.cell from') (.cell to') (.version name) none stored.sql.columns
        (fun heq => PhysicalColumn.noConfusion heq) fun heq => PhysicalColumn.noConfusion heq
    rw [hmoved, h.sqlColumns]
  have hindexes : cellMoved.indexes = (shape.rename from' to').sqlIndexes :=
    (congrArg (map _) h.sqlIndexes).trans (rename_sqlIndexes hvalid hto).symm
  have hkey : cellMoved.key = (shape.rename from' to').key := congrArg (map _) h.sqlKey
  have hrecordKey : stored.record.key.map (renamed from' to') = (shape.rename from' to').key :=
    congrArg (map _) h.key
  have hrecordIndexes : stored.record.indexes.map (fun index =>
      (index.1, index.2.map (renamed from' to'))) = (shape.rename from' to').indexes :=
    congrArg (map _) h.indexes
  have hkeyed := keyBy_rename hvalid hto stored.record.columns
  have hstamp : ∀ row, editRow stored.record.columns row (.rename from' to') .rowVersion =
      row .rowVersion := fun row => (editRow_rename stored.record.columns row).2
  rw [StoredTable.applyEdit, StoredTable.applyRename, hfirst, bind_eq_bind, bind_some]
  have hversionTo : from' ≠ to' → shape.sqlColumns (.version to') = none := fun hne => by
    rw [Shape.sqlColumns, hto_none hne, bind_none]
  cases hcase : column.record.isJson with
  | false =>
    rw [hcase] at hjson hversion
    have hnoversion : shape.sqlColumns (.version from') = none :=
      not_isSome_iff_eq_none.mp (Bool.eq_false_iff.mp hversion)
    have hsame : moved (.version from') (.version to') none cellMoved.columns =
        cellMoved.columns := by
      refine moved_none ((hkept from').trans hnoversion) fun hne => (hkept to').trans ?_
      exact hversionTo fun heq => hne (congrArg PhysicalColumn.version heq)
    rw [hjson, if_neg Bool.false_ne_true]
    refine ⟨_, rfl, ⟨hrecord, hrecordKey, hrecordIndexes, ?_, hkey, hindexes⟩, ?_,
      ⟨rfl, rfl, rfl⟩, rfl, hkeyed, hstamp⟩
    · rw [hcolumns, ← h.sqlColumns]
      exact hsame.symm
    · refine map_congr_left fun row _ => ?_
      rw [editRow, hjson]
      rfl
  | true =>
    rw [hcase] at hjson hversion
    have hpresent : shape.sqlColumns (.version from') ≠ none :=
      isSome_iff_ne_none.mp hversion
    have hsecond : cellMoved.renameColumn (.version from') (.version to') = some { cellMoved with
        columns := moved (.version from') (.version to') none cellMoved.columns
        rows := cellMoved.rows.map (moved (.version from') (.version to') .null) } := by
      rw [SqlTable.renameColumn, if_neg]
      · refine congrArg some (SqlTable.ext rfl ?_ ?_ rfl)
        · exact map_id _
        · exact (map_congr_left fun index _ => congrArg (Prod.mk index.1)
            (map_id index.2)).trans (map_id _)
      · rintro (hnone | ⟨hne, hthere⟩)
        · exact hpresent ((hkept from').symm.trans hnone)
        · exact hthere ((hkept to').trans
            (hversionTo fun heq => hne (congrArg PhysicalColumn.version heq)))
    rw [hjson, if_pos rfl, hsecond]
    refine ⟨_, rfl, ⟨hrecord, hrecordKey, hrecordIndexes, ?_, hkey, hindexes⟩, ?_,
      ⟨rfl, rfl, rfl⟩, rfl, hkeyed, hstamp⟩
    · rw [hcolumns, ← h.sqlColumns]
    · refine (List.map_map ..).trans (map_congr_left fun row _ => ?_)
      rw [editRow, hjson]
      rfl

end Rename

/-! ### Edits one after another -/

variable {next : Shape κ} {edit : TableEdit} {edits : List TableEdit}

theorem EditStep.applied (h : EditStep shape edit next) (hstands : Stands stored shape)
    (hvalid : shape.Valid) :
    ∃ after, stored.applyEdit edit = some after ∧ Applied stored shape edit next after := by
  cases h with
  | rename hfrom hto => exact applied_rename hstands hvalid hfrom hto
  | add hnew hfits hdefault => exact applied_add hstands hvalid hnew hfits hdefault
  | json hexisting hjson => exact applied_json hstands hvalid hexisting hjson
  | drop hcolumn hkey hindexes => exact applied_drop hstands hvalid hcolumn hkey hindexes
  | index hnew hcolumns => exact applied_index hstands hvalid hnew hcolumns
  | dropIndex hindex => exact applied_dropIndex hstands hindex

theorem Shape.Valid.rename (hvalid : shape.Valid) {from' to' : String}
    (hto : shape.Free from' to') : (shape.rename from' to').Valid := by
  have hrenamed : ∀ name, (∃ column ∈ shape.columns, column.name = name) →
      ∃ column ∈ (shape.rename from' to').columns, column.name = renamed from' to' name := by
    rintro name ⟨column, hcolumn, rfl⟩
    exact ⟨column.rename from' to', mem_map_of_mem hcolumn, rfl⟩
  refine ⟨rename_names hvalid.distinct hto, fun name hname => ?_, fun index hindex name hname => ?_⟩
  · obtain ⟨before, hbefore, rfl⟩ := mem_map.mp hname
    obtain ⟨column, hcolumn, rfl, hoptional, htype⟩ := hvalid.keyed before hbefore
    exact ⟨column.rename from' to', mem_map_of_mem hcolumn, rfl, hoptional, htype⟩
  · obtain ⟨before, hbefore, rfl⟩ := mem_map.mp hindex
    obtain ⟨source, hsource, rfl⟩ := mem_map.mp hname
    exact hrenamed source (hvalid.indexed before hbefore source hsource)

theorem Shape.Valid.json (hvalid : shape.Valid) {before column : JsonColumn κ}
    (hmem : existing ∈ shape.columns) (hjson : existing.type = .json before) :
    (shape.json existing.name column).Valid := by
  refine ⟨?_, fun name hname => ?_, fun index hindex name hname => ?_⟩
  · rw [json_names]
    exact hvalid.distinct
  · obtain ⟨key, hkey, rfl, hoptional, type, htype, hkeyed⟩ := hvalid.keyed name hname
    have hne : key.name ≠ existing.name := by
      intro heq
      obtain rfl := inj_on_of_nodup_map hvalid.distinct hkey hmem heq
      cases htype.symm.trans hjson
    exact ⟨key, mem_map.mpr ⟨key, hkey, if_neg hne⟩, rfl, hoptional, type, htype, hkeyed⟩
  · obtain ⟨other, hother, rfl⟩ := hvalid.indexed index hindex name hname
    refine ⟨_, mem_map_of_mem hother, ?_⟩
    split_ifs <;> rfl

theorem EditStep.valid (h : EditStep shape edit next) (hvalid : shape.Valid) : next.Valid := by
  cases h with
  | rename hfrom hto => exact hvalid.rename hto
  | @add column hnew hfits hdefault =>
    refine ⟨?_, fun name hname => ?_, fun index hindex name hname => ?_⟩
    · unfold Shape.names Shape.add
      rw [map_append, map_singleton]
      refine nodup_append.mpr ⟨hvalid.distinct, nodup_singleton _, fun a ha b hb => ?_⟩
      obtain ⟨other, hother, rfl⟩ := mem_map.mp ha
      rw [mem_singleton.mp hb]
      exact hnew other hother
    · obtain ⟨key, hkey, hrest⟩ := hvalid.keyed name hname
      exact ⟨key, mem_append_left _ hkey, hrest⟩
    · obtain ⟨other, hother, hnamed⟩ := hvalid.indexed index hindex name hname
      exact ⟨other, mem_append_left _ hother, hnamed⟩
  | json hexisting hjson =>
    obtain ⟨hmem, rfl⟩ := Shape.mem_of_column hexisting
    exact hvalid.json hmem hjson
  | @drop name column hcolumn hkey hindexes =>
    have hkept : ∀ column ∈ shape.columns, column.name ≠ name →
        column ∈ (shape.drop name).columns := fun column hmem hne =>
      mem_filter.mpr ⟨hmem, decide_eq_true hne⟩
    refine ⟨hvalid.distinct.sublist (filter_sublist.map _), fun each heach => ?_,
      fun index hindex each heach => ?_⟩
    · obtain ⟨key, hmem, rfl, hrest⟩ := hvalid.keyed each heach
      exact ⟨key, hkept key hmem fun heq => hkey (heq ▸ heach), rfl, hrest⟩
    · obtain ⟨other, hmem, rfl⟩ := hvalid.indexed index hindex each heach
      exact ⟨other, hkept other hmem fun heq => hindexes index hindex (heq ▸ heach), rfl⟩
  | @index name columns hnew hcolumns =>
    refine ⟨hvalid.distinct, hvalid.keyed, fun index hindex => ?_⟩
    obtain rfl | hindex := Assoc.mem_set hindex
    · exact hcolumns
    · exact hvalid.indexed index hindex
  | dropIndex hindex =>
    exact ⟨hvalid.distinct, hvalid.keyed, fun index hmem =>
      hvalid.indexed index (Assoc.mem_erase.mp hmem).2⟩

theorem Edits.valid (h : Edits shape edits next) (hvalid : shape.Valid) : next.Valid := by
  induction h with
  | nil shape => exact hvalid
  | cons hfirst _ ih => exact ih (hfirst.valid hvalid)

def editsColumns (columns : List (String × ColumnRecord)) (edits : List TableEdit) :
    List (String × ColumnRecord) :=
  edits.foldl editColumns columns

/-- What applying edits gives. -/
structure AppliedAll (stored : StoredTable φ) (shape : Shape κ) (edits : List TableEdit)
    (shape' : Shape κ) (after : StoredTable φ) : Prop where
  stands : Stands after shape'
  rows : after.sql.rows = stored.sql.rows.map (editsRow stored.record.columns edits)
  record : after.record.version = stored.record.version ∧ after.record.state = stored.record.state ∧
    after.record.fingerprint = stored.record.fingerprint
  columns : after.record.columns = editsColumns stored.record.columns edits
  key : ∀ row, keyBy shape'.key (editsRow stored.record.columns edits row) = keyBy shape.key row
  stamp : ∀ row, editsRow stored.record.columns edits row .rowVersion = row .rowVersion

theorem Edits.applied (h : Edits shape edits next) (hstands : Stands stored shape)
    (hvalid : shape.Valid) :
    ∃ after, stored.applyEdits edits = some after ∧ AppliedAll stored shape edits next after := by
  induction h generalizing stored with
  | nil shape => exact ⟨stored, rfl, hstands, (map_id _).symm, ⟨rfl, rfl, rfl⟩, rfl,
      fun row => rfl, fun row => rfl⟩
  | @cons shape middle last edit edits hfirst hrest ih =>
    obtain ⟨first, happly, happlied⟩ := hfirst.applied hstands hvalid
    obtain ⟨after, hafter, hall⟩ := ih happlied.stands (hfirst.valid hvalid)
    have hrows : first.sql.rows.map (editsRow first.record.columns edits) =
        stored.sql.rows.map (editsRow stored.record.columns (edit :: edits)) := by
      rw [happlied.rows, List.map_map, happlied.columns]
      rfl
    refine ⟨after, ?_, hall.stands, hall.rows.trans hrows, ?_, ?_, fun row => ?_, fun row => ?_⟩
    · rw [StoredTable.applyEdits, foldlM_cons, happly]
      exact hafter
    · obtain ⟨hversion, hstate, hfingerprint⟩ := happlied.record
      obtain ⟨hversion', hstate', hfingerprint'⟩ := hall.record
      exact ⟨hversion'.trans hversion, hstate'.trans hstate, hfingerprint'.trans hfingerprint⟩
    · rw [hall.columns, happlied.columns]
      rfl
    · rw [editsRow, ← happlied.columns, hall.key, happlied.key]
    · rw [editsRow, ← happlied.columns, hall.stamp, happlied.stamp]

end Apply

end KnightCode.Store
