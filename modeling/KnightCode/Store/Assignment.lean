import KnightCode.Store.Agreement
import KnightCode.Store.Sql

/-!
# Assigning a set

A stored row holds a row of a transaction (`Holds`) when each of its cells is one its column may
have and is read as the row's; a `json(...)` cell the transaction gave is read as its text says. The
statement of a set takes such a row to one that holds the exact row after the set, unless a column
is assigned an integer outside the safe range: then its `CHECK` fails.
-/

namespace KnightCode.Store

open Function List Option

variable {κ : Type} {json : JsonCodec κ} {table : TableDefinition κ} {row : Row κ}
  {stored : PhysicalRow} {given : String → Option (Plain κ)}
variable {name : String} {column : Column κ} {type : ScalarType}

/-! ### Compiled sets -/

/-- A compiled column of a set: outside the key, and typed; `NULL` only where the column may be. -/
def EntryTyped (table : TableDefinition κ) (entry : String × ExprNode κ) : Prop :=
  entry.1 ∉ table.key ∧ ∃ column, table.byName entry.1 = some column ∧
    ((∃ type, column.type = .scalar type ∧ entry.2.Typed table type ∧
      (column.optional = false → ∀ row stored, Reads table row stored → Filled table row →
        exact row entry.2 ≠ none)) ∨
    (∃ column', column.type = .json column' ∧
      ((entry.2 = .null ∧ column.optional = true) ∨ ∃ value, entry.2 = .json value)))

theorem entryTyped_null (hkey : name ∉ table.key) (hcolumn : table.byName name = some column)
    (hoptional : column.optional = true) : EntryTyped table (name, .null) := by
  refine ⟨hkey, column, hcolumn, ?_⟩
  cases htype : column.type with
  | scalar type =>
    exact .inl ⟨type, rfl, trivial, fun h => absurd (hoptional.symm.trans h) Bool.true_eq_false.mp⟩
  | json column' => exact .inr ⟨column', rfl, .inl ⟨rfl, hoptional⟩⟩

theorem entryTyped_literal {value : Scalar} (hkey : name ∉ table.key)
    (hcolumn : table.byName name = some column) (htype : column.type = .scalar type)
    (hvalue : value.Fits type) : EntryTyped table (name, .literal value) :=
  ⟨hkey, column, hcolumn, .inl ⟨type, htype, hvalue, fun _ _ _ _ _ => some_ne_none _⟩⟩

variable {what : String} {entry : String × ExprNode κ} {node : ExprNode κ}

theorem entryTyped_expression {expression : Expression κ} {compiled : ExprNode κ × Bool}
    (hkey : name ∉ table.key) (hcolumn : table.byName name = some column)
    (htype : column.type = .scalar type)
    (h : compileExpr json table type what expression = .ok compiled)
    (hnull : ¬ (compiled.2 && !column.optional) = true) : EntryTyped table (name, compiled.1) := by
  refine ⟨hkey, column, hcolumn, .inl ⟨type, htype, (compileExpr_spec h).1, ?_⟩⟩
  intro hoptional row stored hreads hfilled
  have hnullable : compiled.2 = false := by
    rw [hoptional, Bool.not_false, Bool.and_true, Bool.not_eq_true] at hnull
    exact hnull
  exact (compileExpr_spec h).2 hnullable row stored hreads hfilled

theorem compileColumn_typed {value : Expression κ}
    (h : compileColumn json table what name value = .ok entry) : EntryTyped table entry := by
  unfold compileColumn at h
  split at h
  · cases h
  · rename_i column hcolumn
    dsimp only at h
    by_cases hkey : name ∈ table.key
    · rw [if_pos hkey] at h
      cases h
    · rw [if_neg hkey] at h
      split at h
      · split_ifs at h with hoptional
        · cases h
          exact entryTyped_null hkey hcolumn hoptional
        · cases h
      · cases h
      · rename_i htype
        split at h
        · cases h
        · cases h
          exact ⟨hkey, column, hcolumn, .inr ⟨_, htype, .inr ⟨_, rfl⟩⟩⟩
      · rename_i htype
        obtain ⟨scalar, hscalar, rfl⟩ := Except.map_eq_ok h
        exact entryTyped_literal hkey hcolumn htype (checkScalar_fits hscalar)
      · cases h
      · rename_i htype
        obtain ⟨compiled, hcompiled, h⟩ := Except.bind_eq_ok h
        split_ifs at h with hnull
        · cases h
        · cases h
          exact entryTyped_expression hkey hcolumn htype hcompiled hnull

variable {set : Option (List (String × Expression κ))}

theorem compileSet_typed {compiled : SetNode κ}
    (h : compileSet json table set what = .ok compiled) :
    ∀ entry ∈ compiled, EntryTyped table entry := by
  unfold compileSet at h
  split at h
  · cases h
  · cases h
  · intro entry hentry
    obtain ⟨source, -, hsource⟩ := mem_mapM h hentry
    exact compileColumn_typed hsource

/-- A `json(...)` cell of a compiled set has a text. -/
def ExprNode.Written (json : JsonCodec κ) (node : ExprNode κ) : Prop :=
  ∀ value, node = .json value → ∃ text, json.stringify value = some text

theorem ExprNode.Typed.written (h : node.Typed table type) : node.Written json := by
  rintro value rfl
  exact absurd h id

theorem compileColumn_written {value : Expression κ}
    (h : compileColumn json table what name value = .ok entry) : entry.2.Written json := by
  obtain ⟨-, column, -, ⟨type, -, htyped, -⟩ | ⟨column', -, ⟨hnull, -⟩ | ⟨given, hgiven⟩⟩⟩ :=
    compileColumn_typed h
  · exact htyped.written
  · rw [hnull]
    exact fun value heq => by cases heq
  · unfold compileColumn at h
    split at h
    · cases h
    · dsimp only at h
      by_cases hkey : name ∈ table.key
      · rw [if_pos hkey] at h
        cases h
      rw [if_neg hkey] at h
      split at h
      · split_ifs at h
        · cases h
          cases hgiven
        · cases h
      · cases h
      · split at h
        · cases h
        · rename_i text htext
          cases h
          rintro value ⟨⟩
          exact ⟨text, htext⟩
      · obtain ⟨scalar, -, rfl⟩ := Except.map_eq_ok h
        cases hgiven
      · cases h
      · obtain ⟨compiled, hcompiled, h⟩ := Except.bind_eq_ok h
        split_ifs at h
        · cases h
        · cases h
          exact ((compileExpr_spec hcompiled).1).written

theorem compileSet_written {compiled : SetNode κ}
    (h : compileSet json table set what = .ok compiled) :
    ∀ entry ∈ compiled, entry.2.Written json := by
  unfold compileSet at h
  split at h
  · cases h
  · cases h
  · intro entry hentry
    obtain ⟨source, -, hsource⟩ := mem_mapM h hentry
    exact compileColumn_written hsource

/-! ### Rows held -/

/-- `value` and `version`, stored in a column, are read as a cell; one the transaction gave is the
value `given`, read as its text says. -/
def CellHolds (json : JsonCodec κ) (column : Column κ) (value version : SqlValue)
    (given : Option (Plain κ)) : Option (Cell κ) → Prop
  | none => column.optional = true ∧ value = .null ∧ given = none
  | some (.scalar scalar) => (∃ type, column.type = .scalar type ∧ scalar.Fits type ∧
      value = toSqlite scalar) ∧ given = none
  | some (.json plain) => (∃ column' text stamp, column.type = .json column' ∧
      value = .text text ∧ version = .integer stamp ∧
      ∀ what, TableDefinition.readCell json column' text stamp what =
        .ok (given.elim plain json.back)) ∧
      ∀ value ∈ given, value = plain

structure Holds (json : JsonCodec κ) (table : TableDefinition κ)
    (given : String → Option (Plain κ)) (stored : PhysicalRow) (row : Row κ) : Prop where
  cell : ∀ name column, table.byName name = some column →
    CellHolds json column (stored (.cell name)) (stored (.version name)) (given name) (row name)
  other : ∀ name, table.byName name = none → row name = none ∧ given name = none

/-- The row as it is read back, the cells a transaction gave from their texts. -/
def Row.back (json : JsonCodec κ) (given : String → Option (Plain κ)) (row : Row κ) : Row κ :=
  fun name => ((given name).map fun value => .json (json.back value)).or (row name)

theorem Holds.reads (h : Holds json table given stored row) : Reads table row stored := by
  rintro name type ⟨column, hcolumn, htype⟩
  have hcell := h.cell name column hcolumn
  cases hrow : row name with
  | none =>
    rw [hrow] at hcell
    exact .inl ⟨rfl, hcell.2.1⟩
  | some cell =>
    rw [hrow] at hcell
    cases cell with
    | scalar value =>
      obtain ⟨⟨type', htype', hfits, hstored⟩, -⟩ := hcell
      obtain rfl := ColumnType.scalar.inj (htype.symm.trans htype')
      exact .inr ⟨value, rfl, hfits.typed, hstored⟩
    | json value =>
      obtain ⟨⟨column', -, -, htype', -⟩, -⟩ := hcell
      cases htype.symm.trans htype'

theorem Holds.filled (h : Holds json table given stored row) : Filled table row := by
  intro name column hcolumn hoptional hnone
  have hcell := h.cell name column hcolumn
  rw [hnone] at hcell
  exact Bool.false_ne_true (hoptional.symm.trans hcell.1)

theorem Holds.given_eq (h : Holds json table given stored row) {value : Plain κ}
    (hgiven : given name = some value) : row name = some (.json value) := by
  cases hcolumn : table.byName name with
  | none => exact absurd ((h.other name hcolumn).2.symm.trans hgiven) (some_ne_none value).symm
  | some column =>
    have hcell := h.cell name column hcolumn
    rw [hgiven] at hcell
    cases hrow : row name with
    | none =>
      rw [hrow] at hcell
      cases hcell.2.2
    | some cell =>
      rw [hrow] at hcell
      cases cell with
      | scalar scalar => cases hcell.2
      | json plain => rw [hcell.2 value rfl]

variable {cell : Option (Cell κ)}

theorem decodeCell_of_holds {given : Option (Plain κ)}
    (h : CellHolds json column (stored (.cell column.name)) (stored (.version column.name)) given
      cell) :
    table.decodeCell json column stored =
      .ok ((given.map fun value => .json (json.back value)).or cell) := by
  unfold TableDefinition.decodeCell
  cases cell with
  | none =>
    rw [h.2.1, h.2.2]
    rfl
  | some cell =>
    cases cell with
    | scalar value =>
      obtain ⟨⟨type, htype, hfits, hstored⟩, rfl⟩ := h
      rw [hstored, htype]
      cases type with
      | str =>
        cases value with
        | text value =>
          have htext := Utf8.ofPoints_points hfits
          exact congrArg (fun text => Except.ok (some (Cell.scalar (Scalar.text text)))) htext
        | _ => cases hfits
      | int =>
        cases value with
        | int value => rfl
        | _ => cases hfits
      | num =>
        cases value with
        | num value => rfl
        | _ => cases hfits
      | bool =>
        cases value with
        | bool value => cases value <;> rfl
        | _ => cases hfits
    | json value =>
      obtain ⟨⟨column', text, version, htype, hstored, hversion, hread⟩, -⟩ := h
      rw [hstored, hversion, htype]
      refine (congrArg (Except.map (some ∘ Cell.json)) (hread _)).trans ?_
      cases given <;> rfl

theorem mapM_ok {α β : Type} {f : α → Except Invalid β} {g : α → β} {l : List α}
    (h : ∀ a ∈ l, f a = .ok (g a)) : l.mapM f = .ok (l.map g) := by
  induction l with
  | nil => rfl
  | cons a l ih =>
    rw [mapM_cons, h a mem_cons_self, ih fun b hb => h b (mem_cons_of_mem a hb)]
    rfl

theorem byName_of_mem (h : column ∈ table.columns) : table.byName column.name = some column :=
  Assoc.find?_of_nodup Column.name table.distinct h

theorem Holds.decode (h : Holds json table given stored row)
    (hnamed : table.byName "__proto__" = none) :
    table.decode json stored = .ok (row.back json given) := by
  have hcells : ∀ column ∈ table.columns,
      ((table.decodeCell json column stored).map fun cell => (column.name, cell)) =
        .ok (column.name, row.back json given column.name) := by
    intro column hcolumn
    rw [decodeCell_of_holds (h.cell column.name column (byName_of_mem hcolumn))]
    rfl
  have hother : ∀ name, table.byName name = none → row.back json given name = none := by
    intro name hname
    obtain ⟨hrow, hgiven⟩ := h.other name hname
    rw [Row.back, hrow, hgiven]
    rfl
  have hfound : (fun name => ((table.columns.map fun column =>
      (column.name, row.back json given column.name)).find?
        (fun cell => cell.1 = name)).bind (·.2)) = row.back json given := by
    funext name
    rw [find?_map]
    cases hname : table.byName name with
    | none =>
      have hnone : table.columns.find?
          ((fun cell : String × Option (Cell κ) => decide (cell.1 = name)) ∘
            fun column => (column.name, row.back json given column.name)) = none := hname
      rw [hnone, hother name hname]
      rfl
    | some column =>
      have hsome : table.columns.find?
          ((fun cell : String × Option (Cell κ) => decide (cell.1 = name)) ∘
            fun column => (column.name, row.back json given column.name)) = some column := hname
      rw [hsome]
      exact congrArg (row.back json given) (byName_name hname)
  unfold TableDefinition.decode
  rw [mapM_ok hcells]
  exact congrArg Except.ok
    ((congrArg Row.literal hfound).trans (literal_eq (hother "__proto__" hnamed)))

theorem Holds.update (h : Holds json table given stored row)
    (hcolumn : table.byName name = some column) {plain : Option (Plain κ)} {next : PhysicalRow}
    (hcell : CellHolds json column (next (.cell name)) (next (.version name)) plain cell)
    (hothers : ∀ other, other ≠ name → next (.cell other) = stored (.cell other) ∧
      next (.version other) = stored (.version other)) :
    Holds json table (update given name plain) next (update row name cell) := by
  refine ⟨fun other column' hother => ?_, fun other hother => ?_⟩
  · by_cases hname : other = name
    · subst hname
      obtain rfl := Option.some.inj (hcolumn.symm.trans hother)
      rw [update_self, update_self]
      exact hcell
    · obtain ⟨hsame, hversion⟩ := hothers other hname
      rw [update_of_ne hname, update_of_ne hname, hsame, hversion]
      exact h.cell other column' hother
  · have hname : other ≠ name := by
      rintro rfl
      cases hcolumn.symm.trans hother
    rw [update_of_ne hname, update_of_ne hname]
    exact h.other other hother

/-! ### The assignments of a set -/

/-- The values a set assigns, integers unbounded. -/
def assignments (json : JsonCodec κ) (table : TableDefinition κ) (row : Row κ) :
    SetNode κ → List (PhysicalColumn × SqlValue)
  | [] => []
  | (column, node) :: rest =>
    (.cell column, cellSql json (exact row node)) ::
      ((table.jsonVersion column).toList.map fun version =>
        (.version column, stamp version node)) ++
      assignments json table row rest

theorem eval_entry (json : JsonCodec κ) (h : EntryTyped table entry) {text bound : SqlExpr}
    {own : List Param} (hbinds : Binds SqlExpr.bind (exprSql json entry.2) text own bound)
    (hword : reaches overflows row entry.2 = false)
    (heval : ∀ type, entry.2.Typed table type → reaches overflows row entry.2 = false →
      bound.eval stored = cellSql json (exact row entry.2)) :
    bound.eval stored = cellSql json (exact row entry.2) := by
  obtain ⟨-, column, -, ⟨type, -, htyped, -⟩ | ⟨-, -, ⟨hnull, -⟩ | ⟨value, hvalue⟩⟩⟩ := h
  · exact heval type htyped hword
  · exact heval .str (by rw [hnull]; trivial) hword
  · -- the only text is the parameter, and what it takes back the value
    rw [hvalue] at hbinds ⊢
    obtain ⟨hrender, hbind⟩ := hbinds
    obtain ⟨rfl, rfl⟩ := Prod.mk.inj (hrender [])
    obtain ⟨rfl, -⟩ := Prod.mk.inj (hbind [])
    rfl

theorem binds_set (json : JsonCodec κ) (versions : String → Option ℕ) (set : SetNode κ) :
    ∃ text own bound, Binds bindSet (setSql json versions set) text own bound ∧
      ∀ {table : TableDefinition κ} {row : Row κ} {stored : PhysicalRow},
        versions = table.jsonVersion → Reads table row stored →
        (∀ entry ∈ set, EntryTyped table entry) →
        (∀ entry ∈ set, reaches overflows row entry.2 = false) →
          bound.map (fun assigned => (assigned.1, assigned.2.eval stored)) =
            assignments json table row set := by
  induction set with
  | nil => exact ⟨[], [], [], .of_nil (fun params => rfl) fun rest => rfl, fun _ _ _ _ => rfl⟩
  | cons entry rest ih =>
    obtain ⟨column, node⟩ := entry
    obtain ⟨text, own, bound, hbinds, heval⟩ := binds_expr json node
    obtain ⟨texts, others, bounds, ⟨hrenders, hbounds⟩, hvalues⟩ := ih
    have hboth : ∀ {table : TableDefinition κ} {row : Row κ} {stored : PhysicalRow},
        versions = table.jsonVersion → Reads table row stored →
        (∀ entry ∈ (column, node) :: rest, EntryTyped table entry) →
        (∀ entry ∈ (column, node) :: rest, reaches overflows row entry.2 = false) →
          bound.eval stored = cellSql json (exact row node) ∧
          bounds.map (fun assigned => (assigned.1, assigned.2.eval stored)) =
            assignments json table row rest := fun hversions hreads hset hwords =>
      ⟨eval_entry json (hset (column, node) mem_cons_self) hbinds
        (hwords (column, node) mem_cons_self) fun type htyped => heval hreads htyped,
        hvalues hversions hreads (fun entry hentry => hset entry (mem_cons_of_mem _ hentry))
          fun entry hentry => hwords entry (mem_cons_of_mem _ hentry)⟩
    obtain ⟨hrender, hbind⟩ := hbinds
    cases hversion : versions column with
    | none =>
      refine ⟨(.cell column, text) :: texts, own ++ others, (.cell column, bound) :: bounds,
        ⟨fun params => ?_, fun rest => ?_⟩, fun hversions hreads hset hwords => ?_⟩
      · simp only [setSql, hversion, hrender, hrenders, append_assoc]
      · simp only [bindSet, append_assoc, hbind, hbounds]
      · obtain ⟨hvalue, hrest⟩ := hboth hversions hreads hset hwords
        rw [map_cons, hrest, hvalue, assignments, ← hversions, hversion]
        rfl
    | some version =>
      refine ⟨(.cell column, text) :: (.version column, .param) :: texts,
        own ++ (.value (stamp version node) :: others),
        (.cell column, bound) :: (.version column, .bound (stamp version node)) :: bounds,
        ⟨fun params => ?_, fun rest => ?_⟩, fun hversions hreads hset hwords => ?_⟩
      · simp only [setSql, hversion, hrender, hrenders, append_assoc, cons_append, nil_append]
      · simp only [bindSet, append_assoc, cons_append, hbind, SqlExpr.bind, takeParam, hbounds]
      · obtain ⟨hvalue, hrest⟩ := hboth hversions hreads hset hwords
        rw [map_cons, map_cons, hrest, hvalue, assignments, ← hversions, hversion]
        rfl

/-! ### Checks -/

/-- An integer outside ±(2^53 - 1), which an `int` column's `CHECK` refuses. -/
def Scalar.exceeds : Scalar → Bool
  | .int value => outside value
  | _ => false

/-- The exact value of an expression is an integer outside ±(2^53 - 1). -/
def exceeds (row : Row κ) (node : ExprNode κ) : Bool :=
  (Cell.scalar? (exact row node)).elim false Scalar.exceeds

theorem store_toSqlite {value : Scalar} (h : value.Typed type) :
    (value.exceeds = true ∧ type.store (toSqlite value) = none) ∨
    (value.exceeds = false ∧ value.Fits type ∧
      type.store (toSqlite value) = some (toSqlite value)) := by
  cases type with
  | str =>
    cases value with
    | text value => exact .inr ⟨rfl, h, rfl⟩
    | _ => cases h
  | int =>
    cases value with
    | int value =>
      rw [Scalar.exceeds, outside, toSqlite, ScalarType.store]
      by_cases hfits : -SAFE ≤ value ∧ value ≤ SAFE
      · have hinside : ¬ (SAFE < value ∨ value < -SAFE) := by omega
        exact .inr ⟨decide_eq_false hinside, hfits, if_pos hfits⟩
      · have houtside : SAFE < value ∨ value < -SAFE := by omega
        exact .inl ⟨decide_eq_true houtside, if_neg hfits⟩
    | _ => cases h
  | num =>
    cases value with
    | num value => exact .inr ⟨rfl, trivial, rfl⟩
    | _ => cases h
  | bool =>
    cases value with
    | bool value => cases value <;> exact .inr ⟨rfl, trivial, rfl⟩
    | _ => cases h

theorem store_cell {value : SqlValue} (hcolumn : table.byName name = some column)
    (htype : column.type = .scalar type) (hvalue : value ≠ .null) :
    table.store (.cell name) value = type.store value := by
  rw [TableDefinition.store, hcolumn, bind_some, htype]
  cases value with
  | null => exact absurd rfl hvalue
  | _ => rfl

theorem store_null {name : String} {column : Column κ} (hcolumn : table.byName name = some column)
    (hoptional : column.optional = true) : table.store (.cell name) .null = some .null := by
  rw [TableDefinition.store, hcolumn, bind_some]
  cases column.type <;> exact if_pos hoptional

theorem assign_append (l l' : List (PhysicalColumn × SqlValue)) :
    table.assign (l ++ l') stored = (table.assign l stored).bind (table.assign l') :=
  foldlM_append

theorem assign_one (column : PhysicalColumn) (value : SqlValue) :
    table.assign [(column, value)] stored =
      (table.store column value).map (update stored column) := by
  unfold TableDefinition.assign
  rw [foldlM_cons]
  cases table.store column value <;> rfl

theorem others_of_update {value : SqlValue} (other : String) (h : other ≠ name) :
    update stored (.cell name) value (.cell other) = stored (.cell other) ∧
      update stored (.cell name) value (.version other) = stored (.version other) := by
  refine ⟨update_of_ne ?_ _ _, update_of_ne ?_ _ _⟩
  · exact fun heq => h (PhysicalColumn.cell.inj heq)
  · exact fun heq => by cases heq

/-- The value a set gives a `json(...)` cell. -/
def ExprNode.jsonValue : ExprNode κ → Option (Plain κ)
  | .json value => some value
  | _ => none

theorem ExprNode.Typed.jsonValue (h : node.Typed table type) : node.jsonValue = none := by
  cases node with
  | json value => exact absurd h id
  | _ => rfl

theorem readCell_text {column' : JsonColumn κ} {value : Plain κ} {text : Text}
    (htext : json.stringify value = some text) (what : String) :
    TableDefinition.readCell json column' (Utf8.points text) column'.version what =
      .ok (json.back value) := by
  unfold TableDefinition.readCell JsonCodec.back
  dsimp only
  rw [if_pos rfl, Utf8.ofPoints_points (json.wellFormed value text htext), htext]
  rfl

theorem assign_entry {next : PhysicalRow} {nextGiven : String → Option (Plain κ)}
    {nextRow : Row κ} (hreads : Reads table row stored) (hfilled : Filled table row)
    (hentry : EntryTyped table (name, node)) (hwritten : node.Written json)
    (hnext : Holds json table nextGiven next nextRow) :
    (exceeds row node = true ∧ table.assign ((.cell name, cellSql json (exact row node)) ::
      ((table.jsonVersion name).toList.map fun version => (.version name, stamp version node)))
      next = none) ∨
    (exceeds row node = false ∧ ∃ after,
      table.assign ((.cell name, cellSql json (exact row node)) ::
        ((table.jsonVersion name).toList.map fun version => (.version name, stamp version node)))
        next = some after ∧
      Holds json table (update nextGiven name node.jsonValue) after
        (update nextRow name (exact row node))) := by
  obtain ⟨-, column, hcolumn, ⟨type, htype, htyped, hnull⟩ | ⟨column', htype, hvalue⟩⟩ := hentry
  · have hversion : table.jsonVersion name = none := by
      rw [TableDefinition.jsonVersion, hcolumn, bind_some, htype]
    rw [hversion, toList_none, map_nil, assign_one, htyped.jsonValue]
    obtain hnone | ⟨value, hvalue, hvaluetyped⟩ := exact_typed hreads htyped
    · have hoptional : column.optional = true := by
        cases hcase : column.optional with
        | true => rfl
        | false => exact absurd hnone (hnull hcase row stored hreads hfilled)
      rw [exceeds, hnone, cellSql, store_null hcolumn hoptional]
      exact .inr ⟨rfl, _, rfl, hnext.update hcolumn
        ⟨hoptional, update_self _ _ _, rfl⟩ others_of_update⟩
    · rw [exceeds, hvalue, cellSql, store_cell hcolumn htype (toSqlite_ne_null value)]
      obtain ⟨hexceeds, hstore⟩ | ⟨hexceeds, hfits, hstore⟩ := store_toSqlite hvaluetyped
      · exact .inl ⟨hexceeds, by rw [hstore]; rfl⟩
      · rw [hstore]
        exact .inr ⟨hexceeds, _, rfl, hnext.update hcolumn
          ⟨⟨type, htype, hfits, update_self _ _ _⟩, rfl⟩ others_of_update⟩
  · have hversion : table.jsonVersion name = some column'.version := by
      rw [TableDefinition.jsonVersion, hcolumn, bind_some, htype]
    have hothers : ∀ (cell version : SqlValue) (other : String), other ≠ name →
        update (update next (.cell name) cell) (.version name) version
          (.cell other) = next (.cell other) ∧
        update (update next (.cell name) cell) (.version name) version
          (.version other) = next (.version other) := by
      intro cell version other hother
      rw [update_of_ne (fun heq => by cases heq),
        update_of_ne (fun heq => hother (PhysicalColumn.version.inj heq))]
      exact others_of_update other hother
    have hcell : ∀ cell version : SqlValue,
        update (update next (.cell name) cell) (.version name) version
          (.cell name) = cell := by
      intro cell version
      rw [update_of_ne (fun heq => by cases heq), update_self]
    rw [hversion, toList_some, map_singleton]
    obtain ⟨hnull, hoptional⟩ | ⟨value, hvalue⟩ := hvalue
    · obtain rfl : node = .null := hnull
      rw [exact, cellSql, stamp]
      have hstored : table.assign [(.cell name, .null), (.version name, .null)] next =
          some (update (update next (.cell name) .null)
            (.version name) .null) := by
        have hstamp : table.store (.version name) .null = some .null := by
          rw [TableDefinition.store, hcolumn]
          exact if_pos hoptional
        rw [← singleton_append, assign_append, assign_one, store_null hcolumn hoptional,
          map_some, bind_some, assign_one, hstamp, map_some]
      exact .inr ⟨rfl, _, hstored, hnext.update hcolumn ⟨hoptional, hcell _ _, rfl⟩ (hothers _ _)⟩
    · obtain rfl : node = .json value := hvalue
      obtain ⟨text, htext⟩ := hwritten value rfl
      have hstamped : stamp column'.version (.json value : ExprNode κ) =
          .integer column'.version := rfl
      have hsql : jsonSql json value = .text (Utf8.points text) := by
        rw [jsonSql, htext]
        rfl
      rw [exact, cellSql, hstamped, hsql]
      have hstored : table.assign [(.cell name, .text (Utf8.points text)),
            (.version name, .integer column'.version)] next =
          some (update (update next (.cell name)
            (.text (Utf8.points text))) (.version name) (.integer column'.version)) := by
        have hcell : table.store (.cell name) (.text (Utf8.points text)) =
            some (.text (Utf8.points text)) := by
          rw [TableDefinition.store, hcolumn, bind_some, htype]
        have hstamp : table.store (.version name) (.integer column'.version) =
            some (.integer column'.version) := by
          rw [TableDefinition.store, hcolumn]
          rfl
        rw [← singleton_append, assign_append, assign_one, hcell,
          map_some, bind_some, assign_one, hstamp, map_some]
      refine .inr ⟨rfl, _, hstored, hnext.update hcolumn
        ⟨⟨column', Utf8.points text, column'.version, htype, hcell _ _,
          update_self _ _ _, readCell_text htext⟩, fun given hgiven => ?_⟩ (hothers _ _)⟩
      exact (Option.some.inj hgiven).symm

/-- The values of the `json(...)` cells of a row behind a set. -/
def givenSet (set : SetNode κ) (given : String → Option (Plain κ)) : String → Option (Plain κ) :=
  set.foldl (fun given entry => update given entry.1 entry.2.jsonValue) given

theorem assign_set (hholds : Holds json table given stored row) {set : SetNode κ}
    (hset : ∀ entry ∈ set, EntryTyped table entry)
    (hwritten : ∀ entry ∈ set, entry.2.Written json) :
    (set.any (fun entry => exceeds row entry.2) = true ∧
      table.assign (assignments json table row set) stored = none) ∨
    (set.any (fun entry => exceeds row entry.2) = false ∧ ∃ after,
      table.assign (assignments json table row set) stored = some after ∧
      Holds json table (givenSet set given) after (exactSet set row)) := by
  have hfold : ∀ (next : PhysicalRow) (nextGiven : String → Option (Plain κ)) (nextRow : Row κ),
      Holds json table nextGiven next nextRow →
      (set.any (fun entry => exceeds row entry.2) = true ∧
        table.assign (assignments json table row set) next = none) ∨
      (set.any (fun entry => exceeds row entry.2) = false ∧ ∃ after,
        table.assign (assignments json table row set) next = some after ∧
        Holds json table (givenSet set nextGiven) after (set.foldl
          (fun next entry => update next entry.1 (exact row entry.2)) nextRow)) := by
    induction set with
    | nil => exact fun next nextGiven nextRow hnext => .inr ⟨rfl, next, rfl, hnext⟩
    | cons entry rest ih =>
      obtain ⟨name, node⟩ := entry
      intro next nextGiven nextRow hnext
      rw [any_cons, assignments, assign_append]
      obtain ⟨hexceeds, hnone⟩ | ⟨hexceeds, after, hafter, hheld⟩ :=
        assign_entry hholds.reads hholds.filled (hset (name, node) mem_cons_self)
          (hwritten (name, node) mem_cons_self) hnext
      · exact .inl ⟨by rw [hexceeds, Bool.true_or], by rw [hnone]; rfl⟩
      · rw [hexceeds, Bool.false_or, hafter, bind_some, foldl_cons]
        exact ih (fun entry hentry => hset entry (mem_cons_of_mem _ hentry))
          (fun entry hentry => hwritten entry (mem_cons_of_mem _ hentry)) after _ _ hheld
  exact hfold stored given row hholds

end KnightCode.Store

/-! ### Positional parameters -/

namespace KnightCode.Store

open List

variable {κ : Type}

/-- One text, its own parameters pushed, and the text bound by them alone. -/
def Positional {α : Type} (bind : α → List Param → Rendered α)
    (render : List Param → Rendered α) : Prop :=
  ∃ text own bound, (∀ params, render params = (text, params ++ own)) ∧
    ∀ rest, bind text (own ++ rest) = (bound, rest)

/-- The text bound by its own parameters. -/
def Rendered.bound {α : Type} (bind : α → List Param → Rendered α) (rendered : Rendered α) : α :=
  (bind rendered.1 rendered.2).1

theorem Positional.render {α : Type} {bind : α → List Param → Rendered α}
    {render : List Param → Rendered α} (h : Positional bind render) (params : List Param) :
    render params = ((render []).1, params ++ (render []).2) := by
  obtain ⟨text, own, bound, hrender, -⟩ := h
  rw [hrender params, hrender [], nil_append]

theorem Positional.bind {α : Type} {bind : α → List Param → Rendered α}
    {render : List Param → Rendered α} (h : Positional bind render) (rest : List Param) :
    bind (render []).1 ((render []).2 ++ rest) = ((render []).bound bind, rest) := by
  obtain ⟨text, own, bound, hrender, hbind⟩ := h
  have hown := hbind []
  rw [append_nil] at hown
  rw [Rendered.bound, hrender [], nil_append, hbind rest, hown]

theorem positional_where (node : WhereNode) : Positional SqlCondition.bind (whereSql node) := by
  obtain ⟨text, own, bound, hbinds, -⟩ := binds_where Unit node
  exact ⟨text, own, bound, hbinds⟩

theorem positional_set (json : JsonCodec κ) (versions : String → Option ℕ) (set : SetNode κ) :
    Positional bindSet (setSql json versions set) := by
  obtain ⟨text, own, bound, hbinds, -⟩ := binds_set json versions set
  exact ⟨text, own, bound, hbinds⟩

end KnightCode.Store
