import KnightCode.Store.Assignment

/-!
# The rows of puts

The parameters a `put` encodes pass the columns' checks, and the row they make holds the row the
overlay records, under the key it records.
-/

namespace KnightCode.Store

open Function List Option Except

variable {κ : Type} {json : JsonCodec κ} {table : TableDefinition κ} {stored : PhysicalRow}
variable {column : Column κ} {cell : Option (SqlValue × Cell κ)}

/-! ### Assigning values that are kept -/

variable {l : List (PhysicalColumn × SqlValue)}

theorem assign_kept (h : ∀ entry ∈ l, table.store entry.1 entry.2 = some entry.2) :
    table.assign l stored =
      some (l.foldl (fun row entry => update row entry.1 entry.2) stored) := by
  induction l generalizing stored with
  | nil => rfl
  | cons entry l ih =>
    rw [← singleton_append, assign_append, assign_one, h entry mem_cons_self, map_some, bind_some]
    exact ih fun other hother => h other (mem_cons_of_mem _ hother)

theorem foldl_update_of_mem (hl : (l.map (·.1)).Nodup) {entry : PhysicalColumn × SqlValue}
    (h : entry ∈ l) :
    l.foldl (fun row entry => update row entry.1 entry.2) stored entry.1 = entry.2 := by
  have hkept : ∀ (l : List (PhysicalColumn × SqlValue)) (row : PhysicalRow),
      entry.1 ∉ l.map (·.1) →
      l.foldl (fun row entry => update row entry.1 entry.2) row entry.1 = row entry.1 := by
    intro l
    induction l with
    | nil => exact fun row _ => rfl
    | cons first l ih =>
      intro row hnot
      rw [map_cons, mem_cons, not_or] at hnot
      rw [foldl_cons, ih _ hnot.2, update_of_ne hnot.1]
  induction l generalizing stored with
  | nil => exact absurd h not_mem_nil
  | cons first l ih =>
    rw [map_cons, nodup_cons] at hl
    rw [foldl_cons]
    obtain rfl | h := mem_cons.mp h
    · rw [hkept l _ hl.1, update_self]
    · exact ih hl.2 h

theorem zip_filterMap {α β γ : Type} {f : α → Option β} {g : α → Option γ} {l : List α}
    (h : ∀ a ∈ l, (f a).isSome = (g a).isSome) :
    (l.filterMap f).zip (l.filterMap g) =
      l.filterMap fun a => (f a).bind fun b => (g a).map fun c => (b, c) := by
  induction l with
  | nil => rfl
  | cons a l ih =>
    have hrest := ih fun b hb => h b (mem_cons_of_mem a hb)
    have hfirst := h a mem_cons_self
    rw [filterMap_cons, filterMap_cons, filterMap_cons]
    cases hf : f a with
    | none =>
      rw [hf, isSome_none, eq_comm, isSome_eq_false_iff, isNone_iff_eq_none]
        at hfirst
      rw [hfirst]
      exact hrest
    | some b =>
      rw [hf, isSome_some, eq_comm, isSome_iff_exists] at hfirst
      obtain ⟨c, hc⟩ := hfirst
      rw [hc]
      exact congrArg (cons (b, c)) hrest

/-! ### The cells of a put -/

def Cell.jsonValue : Option (Cell κ) → Option (Plain κ)
  | some (.json value) => some value
  | _ => none

def CellPut (json : JsonCodec κ) (column : Column κ) : Option (SqlValue × Cell κ) → Prop
  | none => column.optional = true
  | some (param, .scalar value) => ∃ type, column.type = .scalar type ∧ value.Fits type ∧
      param = toSqlite value
  | some (param, .json value) => (∃ column', column.type = .json column') ∧
      ∃ text, json.stringify value = some text ∧ param = .text (Utf8.points text)

theorem encodeCell_put {value : Plain κ} {what : String} {cell : SqlValue × Cell κ}
    (h : encodeCell json column value what = .ok cell) : CellPut json column (some cell) := by
  unfold encodeCell at h
  split at h
  · rename_i type htype
    obtain ⟨scalar, hscalar, rfl⟩ := map_eq_ok h
    exact ⟨type, htype, checkScalar_fits hscalar, rfl⟩
  · rename_i column' htype
    split at h
    · cases h
    · rename_i text htext
      cases h
      exact ⟨⟨column', htype⟩, text, htext, rfl⟩

theorem putCell_put {fields : String → Plain κ} {what : String}
    (h : putCell json fields column what = .ok cell) : CellPut json column cell := by
  unfold putCell at h
  dsimp only at h
  split at h
  · split_ifs at h with hoptional
    · cases h
      exact hoptional
    · cases h
  · obtain ⟨encoded, hencoded, rfl⟩ := map_eq_ok h
    exact encodeCell_put hencoded

/-- The value bound for a column. -/
def cellParam (cell : Option (SqlValue × Cell κ)) : SqlValue := (cell.map (·.1)).getD .null

theorem store_put {column : Column κ} {cell : Option (SqlValue × Cell κ)}
    (hcolumn : table.byName column.name = some column) (h : CellPut json column cell) :
    table.store (.cell column.name) (cellParam cell) = some (cellParam cell) := by
  cases cell with
  | none => exact store_null hcolumn h
  | some cell =>
    obtain ⟨param, cell⟩ := cell
    cases cell with
    | scalar value =>
      obtain ⟨type, htype, hfits, rfl⟩ := h
      refine (store_cell hcolumn htype (toSqlite_ne_null value)).trans ?_
      obtain ⟨hexceeds, -⟩ | ⟨-, -, hstore⟩ := store_toSqlite hfits.typed
      · cases value with
        | int value =>
          cases type with
          | int =>
            have houtside : SAFE < value ∨ value < -SAFE := of_decide_eq_true hexceeds
            have hinside : -SAFE ≤ value ∧ value ≤ SAFE := hfits
            omega
          | _ => cases hfits
        | _ => cases hexceeds
      · exact hstore
    | json value =>
      obtain ⟨⟨column', htype⟩, text, -, rfl⟩ := h
      rw [TableDefinition.store, hcolumn, bind_some, htype]
      rfl

/-! ### The stored row -/

def putBound (table : TableDefinition κ) (cells : List (Column κ × Option (SqlValue × Cell κ))) :
    List (PhysicalColumn × SqlValue) :=
  cells.map (fun cell => (.cell cell.1.name, cellParam cell.2)) ++
    cells.filterMap (fun cell => (TableDefinition.versionParam cell.1 cell.2).map fun version =>
      (.version cell.1.name, version)) ++
    [(.rowVersion, .integer table.version)]

theorem isSome_versionParam (column : Column κ) (cell : Option (SqlValue × Cell κ)) :
    column.versionColumn.isSome = (TableDefinition.versionParam column cell).isSome := by
  unfold Column.versionColumn TableDefinition.versionParam
  cases column.type with
  | scalar type => rfl
  | json column' => cases cell <;> rfl

theorem versionColumn_eq {param : SqlValue}
    (h : TableDefinition.versionParam column cell = some param) :
    column.versionColumn = some (.version column.name) := by
  unfold TableDefinition.versionParam at h
  unfold Column.versionColumn
  cases htype : column.type with
  | scalar type =>
    rw [htype] at h
    cases h
  | json column' => rfl

theorem zip_putBound {cells : List (Column κ × Option (SqlValue × Cell κ))}
    (hcells : cells.map (·.1) = table.columns) :
    table.physical.zip (cells.map (fun cell => cellParam cell.2) ++
      cells.filterMap (fun cell => TableDefinition.versionParam cell.1 cell.2) ++
      [.integer table.version]) = putBound table cells := by
  have hversions : ∀ cell ∈ cells, (cell.1.versionColumn).isSome =
      (TableDefinition.versionParam cell.1 cell.2).isSome :=
    fun cell _ => isSome_versionParam cell.1 cell.2
  have hlength : (cells.filterMap fun cell => cell.1.versionColumn).length =
      (cells.filterMap fun cell => TableDefinition.versionParam cell.1 cell.2).length := by
    rw [length_filterMap_eq_countP, length_filterMap_eq_countP]
    exact countP_congr fun cell hcell => by rw [hversions cell hcell]
  have hbound : ∀ cell : Column κ × Option (SqlValue × Cell κ),
      ((cell.1.versionColumn).bind fun column =>
        (TableDefinition.versionParam cell.1 cell.2).map fun version => (column, version)) =
      (TableDefinition.versionParam cell.1 cell.2).map fun version =>
        (.version cell.1.name, version) := by
    intro cell
    cases hparam : TableDefinition.versionParam cell.1 cell.2 with
    | none => cases cell.1.versionColumn <;> rfl
    | some param => rw [versionColumn_eq hparam, bind_some]
  have hcolumns : cells.map (fun cell => PhysicalColumn.cell cell.1.name) =
      table.columns.map fun column => .cell column.name := by
    rw [← hcells, List.map_map]
    rfl
  have hstamps : cells.filterMap (fun cell => cell.1.versionColumn) =
      table.columns.filterMap Column.versionColumn := by
    rw [← hcells, filterMap_map]
    rfl
  unfold TableDefinition.physical putBound
  rw [← hcolumns, ← hstamps, zip_append, zip_append, zip_map', zip_filterMap hversions]
  · exact congrArg (fun stamps => _ ++ stamps ++ _) (filterMap_congr fun cell _ => hbound cell)
  · rw [length_map, length_map]
  · rw [length_append, length_append, length_map, length_map, hlength]

theorem nodup_physical (table : TableDefinition κ) : table.physical.Nodup := by
  have hcells : (table.columns.map fun column => PhysicalColumn.cell column.name).Nodup := by
    have hdistinct := table.distinct.map (f := PhysicalColumn.cell)
      fun a b heq => PhysicalColumn.cell.inj heq
    rwa [List.map_map] at hdistinct
  have hversion : ∀ column : Column κ, ∀ physical ∈ column.versionColumn,
      physical = .version column.name := by
    intro column physical hphysical
    unfold Column.versionColumn at hphysical
    split at hphysical
    · exact (Option.some.inj hphysical).symm
    · cases hphysical
  have hversions : (table.columns.filterMap Column.versionColumn).Nodup := by
    have hdistinct := table.distinct
    rw [List.Nodup, pairwise_map] at hdistinct
    refine List.Pairwise.filterMap _ (fun a a' hne b hb b' hb' heq => ?_) hdistinct
    rw [hversion a b hb, hversion a' b' hb'] at heq
    exact hne (PhysicalColumn.version.inj heq)
  unfold TableDefinition.physical
  refine List.Nodup.append (List.Nodup.append hcells hversions ?_) (nodup_singleton _) ?_
  · intro physical hcell hstamp
    obtain ⟨column, -, rfl⟩ := mem_map.mp hcell
    obtain ⟨column', -, hstamp⟩ := mem_filterMap.mp hstamp
    cases hversion column' _ hstamp
  · intro physical hphysical hrow
    obtain rfl := mem_singleton.mp hrow
    obtain hcell | hstamp := mem_append.mp hphysical
    · obtain ⟨column, -, hcell⟩ := mem_map.mp hcell
      cases hcell
    · obtain ⟨column', -, hstamp⟩ := mem_filterMap.mp hstamp
      cases hversion column' _ hstamp

theorem mapM_map_fst {β : Type} {f : Column κ → Except Invalid β} {l : List (Column κ)}
    {r : List (Column κ × β)}
    (h : (l.mapM fun column => (f column).map fun b => (column, b)) = .ok r) :
    r.map (·.1) = l ∧ ∀ cell ∈ r, f cell.1 = .ok cell.2 := by
  refine ⟨?_, fun cell hcell => ?_⟩
  · induction l generalizing r with
    | nil =>
      cases h
      rfl
    | cons column l ih =>
      rw [mapM_cons] at h
      obtain ⟨first, hfirst, h⟩ := bind_eq_ok h
      obtain ⟨rest, hrest, h⟩ := bind_eq_ok h
      obtain ⟨b, -, rfl⟩ := map_eq_ok hfirst
      cases h
      rw [map_cons, ih hrest]
  · obtain ⟨column, -, hcolumn⟩ := mem_mapM h hcell
    obtain ⟨b, hb, rfl⟩ := map_eq_ok hcolumn
    exact hb

section PutBound

variable {cells : List (Column κ × Option (SqlValue × Cell κ))}

/-- The row of a put's bound values. -/
def putStored (table : TableDefinition κ) (cells : List (Column κ × Option (SqlValue × Cell κ))) :
    PhysicalRow :=
  (putBound table cells).foldl (fun row entry => update row entry.1 entry.2) fun _ => .null

theorem putBound_map_fst (hcells : cells.map (·.1) = table.columns) :
    (putBound table cells).map (·.1) = table.physical := by
  have hstamp : ∀ cell : Column κ × Option (SqlValue × Cell κ),
      Option.map (·.1) ((TableDefinition.versionParam cell.1 cell.2).map fun version =>
        (PhysicalColumn.version cell.1.name, version)) = cell.1.versionColumn := by
    intro cell
    cases hparam : TableDefinition.versionParam cell.1 cell.2 with
    | none =>
      have hnone := isSome_versionParam cell.1 cell.2
      rw [hparam, isSome_none, isSome_eq_false_iff, isNone_iff_eq_none] at hnone
      exact hnone.symm
    | some param => exact (versionColumn_eq hparam).symm
  unfold putBound TableDefinition.physical
  rw [map_append, map_append, List.map_map, map_filterMap, ← hcells, List.map_map, filterMap_map]
  refine congrArg (fun stamps => _ ++ stamps ++ _) (filterMap_congr fun cell _ => hstamp cell)

theorem putStored_of_mem (hcells : cells.map (·.1) = table.columns)
    (entry : PhysicalColumn × SqlValue) (h : entry ∈ putBound table cells) :
    putStored table cells entry.1 = entry.2 :=
  foldl_update_of_mem ((putBound_map_fst hcells).symm ▸ nodup_physical table) h

theorem mem_columns (hcells : cells.map (·.1) = table.columns)
    {cell : Column κ × Option (SqlValue × Cell κ)} (h : cell ∈ cells) :
    table.byName cell.1.name = some cell.1 :=
  byName_of_mem (hcells ▸ mem_map_of_mem h)

theorem assign_putBound (hcells : cells.map (·.1) = table.columns)
    (hput : ∀ cell ∈ cells, CellPut json cell.1 cell.2) :
    table.assign (putBound table cells) (fun _ => .null) = some (putStored table cells) := by
  refine assign_kept fun entry hentry => ?_
  unfold putBound at hentry
  obtain hentry | hentry := mem_append.mp hentry
  · obtain hentry | hentry := mem_append.mp hentry
    · obtain ⟨cell, hcell, rfl⟩ := mem_map.mp hentry
      exact store_put (mem_columns hcells hcell) (hput cell hcell)
    · obtain ⟨cell, hcell, hentry⟩ := mem_filterMap.mp hentry
      obtain ⟨version, hversion, rfl⟩ := map_eq_some_iff.mp hentry
      have hcolumn := mem_columns hcells hcell
      have hcellput := hput cell hcell
      rw [TableDefinition.store, hcolumn, bind_some]
      unfold TableDefinition.versionParam at hversion
      split at hversion
      · cases hversion
        rfl
      · rename_i hnone
        cases hversion
        rw [hnone] at hcellput
        exact if_pos hcellput
      · cases hversion
  · obtain rfl := mem_singleton.mp hentry
    rfl

/-- The row a put records. -/
def putRow (cells : List (Column κ × Option (SqlValue × Cell κ))) : Row κ := fun name =>
  (cells.find? (fun cell => cell.1.name = name)).bind (·.2.map (·.2))

theorem putRow_of_none (hcells : cells.map (·.1) = table.columns) {name : String}
    (hname : table.byName name = none) : putRow cells name = none := by
  have hnone : cells.find? (fun cell => cell.1.name = name) = none := by
    rw [find?_eq_none]
    intro cell hcell heq
    have hnotfound := find?_eq_none.mp hname cell.1 (hcells ▸ mem_map_of_mem hcell)
    exact hnotfound heq
  rw [putRow, hnone]
  rfl

theorem putStored_holds (hcells : cells.map (·.1) = table.columns)
    (hput : ∀ cell ∈ cells, CellPut json cell.1 cell.2) :
    Holds json table (fun name => Cell.jsonValue (putRow cells name)) (putStored table cells)
      (putRow cells) := by
  have hdistinct : (cells.map fun cell => cell.1.name).Nodup := by
    have hnames := table.distinct
    rwa [← hcells, List.map_map] at hnames
  refine ⟨fun name column hcolumn => ?_, fun name hname => ?_⟩
  · have hmem : column ∈ cells.map (·.1) := hcells ▸ mem_of_find?_eq_some hcolumn
    obtain ⟨cell, hcell, rfl⟩ := mem_map.mp hmem
    have hown := byName_name hcolumn
    subst hown
    rw [putRow, Assoc.find?_of_nodup (fun cell => cell.1.name) hdistinct hcell, bind_some]
    have hstored : putStored table cells (.cell cell.1.name) = cellParam cell.2 :=
      putStored_of_mem hcells (.cell cell.1.name, cellParam cell.2)
        (mem_append_left _ (mem_append_left _ (mem_map_of_mem hcell)))
    have hcellput := hput cell hcell
    obtain ⟨column, _ | ⟨param, _ | _⟩⟩ := cell
    · exact ⟨hcellput, hstored, rfl⟩
    · obtain ⟨type, htype, hfits, rfl⟩ := hcellput
      exact ⟨⟨type, htype, hfits, hstored⟩, rfl⟩
    · rename_i value
      obtain ⟨⟨column', htype⟩, text, htext, rfl⟩ := hcellput
      have hparam : TableDefinition.versionParam column
          (some (.text (Utf8.points text), .json value)) = some (.integer column'.version) := by
        unfold TableDefinition.versionParam
        rw [show column.type = .json column' from htype]
      have hversion : putStored table cells (.version column.name) = .integer column'.version :=
        putStored_of_mem hcells (.version column.name, .integer column'.version)
          (mem_append_left _ (mem_append_right _
            (mem_filterMap.mpr ⟨_, hcell, by rw [hparam]; rfl⟩)))
      refine ⟨⟨column', _, _, htype, hstored, hversion, readCell_text htext⟩, fun given hgiven => ?_⟩
      exact (Option.some.inj hgiven).symm
  · rw [putRow_of_none hcells hname]
    exact ⟨rfl, rfl⟩

theorem putStored_key (hcells : cells.map (·.1) = table.columns) :
    table.keyOf (putStored table cells) = table.key.map fun name =>
      ((putBound table cells).find? (fun bound => bound.1 = .cell name)).elim .null (·.2) := by
  refine map_congr_left fun name hname => ?_
  obtain ⟨column, hcolumn, rfl, -, -⟩ := table.keyed name hname
  rw [← hcells] at hcolumn
  obtain ⟨cell, hcell, rfl⟩ := mem_map.mp hcolumn
  have hmem : (PhysicalColumn.cell cell.1.name, cellParam cell.2) ∈ putBound table cells :=
    mem_append_left _ (mem_append_left _ (mem_map_of_mem hcell))
  have hnodup : ((putBound table cells).map Prod.fst).Nodup :=
    (putBound_map_fst hcells).symm ▸ nodup_physical table
  have hfound := Assoc.find?_of_nodup Prod.fst hnodup hmem
  rw [hfound]
  exact putStored_of_mem hcells _ hmem

end PutBound

theorem put_stored {fields : Fields κ} {encoded : EncodedRow κ}
    (h : table.put json fields = .ok encoded) (hnamed : table.byName "__proto__" = none) :
    ∃ stored, table.assign (table.physical.zip encoded.params) (fun _ => .null) = some stored ∧
      Holds json table (fun name => Cell.jsonValue (encoded.row name)) stored encoded.row ∧
      table.keyOf stored = encoded.id := by
  unfold TableDefinition.put at h
  obtain ⟨fields, -, h⟩ := bind_eq_ok h
  obtain ⟨cells, hmap, h⟩ := bind_eq_ok h
  obtain ⟨hcells, hcell⟩ := mapM_map_fst hmap
  have hput : ∀ cell ∈ cells, CellPut json cell.1 cell.2 :=
    fun cell hmem => putCell_put (hcell cell hmem)
  have hbound := zip_putBound hcells
  have hrow : Row.literal (putRow cells) = putRow cells :=
    literal_eq (putRow_of_none hcells hnamed)
  cases h
  refine ⟨putStored table cells, ?_, ?_, ?_⟩
  · exact (congrArg (table.assign · fun _ => .null) hbound).trans (assign_putBound hcells hput)
  · have hheld := putStored_holds hcells hput
    rw [← hrow] at hheld
    exact hheld
  · rw [putStored_key hcells, ← hbound]
    rfl

end KnightCode.Store
