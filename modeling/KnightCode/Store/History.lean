import KnightCode.Store.Assignment

/-!
# A table's history

A table's versions go from a base through each `evolveTable`, whose editor checks every edit as it
is made and records it: the edits before the data step, the step over the columns there, the edits
after it. `Shape` are the columns, key and indexes an edit changes; `Edits` are edits that may be
made one after another.
-/

namespace KnightCode.Store

open List

variable {κ : Type}
variable {what : String}

/-! ### Versions -/

inductive RecordedType
  | scalar (type : ScalarType)
  | json (version : ℕ) (fingerprint : String)
  deriving DecidableEq

structure ColumnRecord where
  type : RecordedType
  optional : Bool
  default : Option Scalar
  deriving DecidableEq

def ColumnRecord.isJson (column : ColumnRecord) : Bool :=
  match column.type with
  | .json _ _ => true
  | .scalar _ => false

/-- `columnRecord`. -/
def Column.record (column : Column κ) : ColumnRecord where
  type :=
    match column.type with
    | .scalar type => .scalar type
    | .json json => .json json.version json.fingerprint
  optional := column.optional
  default := column.default

/-- The columns, key and indexes of a table; of each index its declared columns, the key appended
when it is rendered. -/
structure Shape (κ : Type) where
  columns : List (Column κ)
  key : List String
  indexes : List (String × List String)
  named : (Assoc.keys indexes).Nodup

def Shape.names (shape : Shape κ) : List String := shape.columns.map (·.name)

def Shape.column (shape : Shape κ) (name : String) : Option (Column κ) :=
  shape.columns.find? (fun column => column.name = name)

/-- A definition with its indexes. -/
structure TableVersion (κ : Type) where
  table : TableDefinition κ
  indexes : List (String × List String)
  named : (Assoc.keys indexes).Nodup
  indexed : ∀ entry ∈ indexes, ∀ name ∈ entry.2, ∃ column ∈ table.columns, column.name = name

def TableVersion.shape (version : TableVersion κ) : Shape κ :=
  ⟨version.table.columns, version.table.key, version.indexes, version.named⟩

inductive TableEdit
  | rename (from' to' : String)
  | add (name : String) (column : ColumnRecord)
  | drop (name : String)
  | json (name : String) (column : ColumnRecord)
  | index (name : String) (columns : List String)
  | dropIndex (name : String)

/-- A version's data step, over the columns between the edits before it and after it. `patch` gives
`none` where it throws or returns no object. -/
inductive DataStep (κ : Type)
  | rows (table : TableDefinition κ) (patch : Row κ → Option (List (String × Plain κ)))
  | update (table : TableDefinition κ) (where' : Option WhereNode) (set : SetNode κ)

def DataStep.table : DataStep κ → TableDefinition κ
  | .rows table _ => table
  | .update table _ _ => table

/-- What one `evolveTable` changed. -/
structure Migration (κ : Type) where
  before : List TableEdit
  step : Option (DataStep κ)
  after : List TableEdit

/-! ### Checks of a definition -/

/-- `COLUMN_NAME`. -/
def isColumnName (name : String) : Bool :=
  match name.toList with
  | [] => false
  | first :: rest => (first.isAlpha || first = '_') &&
      rest.all (fun c => c.isAlphanum || c = '_')

/-- `INDEX_NAME`. -/
def isIndexName (name : String) : Bool :=
  !name.isEmpty && name.toList.all (fun c => c.isLower || c.isDigit || c = '_')

/-- `name` with ASCII letters lowercased, as SQLite folds identifiers. -/
def foldAscii (name : String) : String := String.ofList (name.toList.map Char.toLower)

def Scalar.isDefault : ScalarType → Scalar → Bool
  | .str, .text value => 0 ∉ value ∧ Utf8.toWellFormed value = value
  | .int, .int value => -SAFE ≤ value ∧ value ≤ SAFE
  | .num, .num _ => true
  | .bool, .bool _ => true
  | _, _ => false

def checkColumnName (name what : String) : Except String Unit :=
  if isColumnName name then .ok ()
  else .error s!"{what}: column \"{name}\": expected [A-Za-z_][A-Za-z0-9_]*"

/-- The checks of one column: no default beside `opt(...)`, and one of the column's type. -/
def describeColumn (column : Column κ) (what : String) : Except String Unit :=
  match column.default, column.type with
  | none, _ => .ok ()
  | some value, .scalar type =>
    if column.optional then .error s!"{what}: an opt(...) column has no default"
    else if value.isDefault type then .ok ()
    else .error s!"{what}: the default is not a {type.label} value"
  | some _, .json _ => .error s!"{what}: \"default\" is not supported in a table column"

def describeColumns (table : String) : List String → List (Column κ) → Except String Unit
  | _, [] => .ok ()
  | seen, column :: rest => do
    checkColumnName column.name table
    if foldAscii column.name ∈ seen then
      .error s!"{table}: column \"{column.name}\" differs from another only in case"
    else
      describeColumn column s!"{table}: column \"{column.name}\""
      describeColumns table (foldAscii column.name :: seen) rest

/-- A column a key, an index or an order may use. -/
def Column.isOrder (column : Column κ) : Bool :=
  !column.optional && match column.type with
    | .scalar .str => true
    | .scalar .int => true
    | _ => false

def orderEach (columns : List (Column κ)) (what : String) : List String → Except String Unit
  | [] => .ok ()
  | name :: rest =>
    match columns.find? (fun column => column.name = name) with
    | none => .error s!"{what}: no column \"{name}\""
    | some column =>
      if column.isOrder then orderEach columns what rest
      else .error s!"{what}: column \"{name}\" is not a non-opt str() or int() column"

def orderColumns (columns : List (Column κ)) (names : List String) (what : String) :
    Except String Unit :=
  if names.Nodup then orderEach columns what names
  else .error s!"{what}: a column occurs twice"

def checkIndexes (table : String) (columns : List (Column κ)) :
    List (String × List String) → Except String Unit
  | [] => .ok ()
  | (index, names) :: rest => do
    if !isIndexName index then .error s!"{table}: index \"{index}\": expected [a-z0-9_]+"
    else
      orderColumns columns names s!"{table}: index \"{index}\""
      checkIndexes table columns rest

theorem isDefault_fits {type : ScalarType} {value : Scalar} (h : value.isDefault type = true) :
    value.Fits type := by
  cases type with
  | str =>
    cases value with
    | text value =>
      have hstored : 0 ∉ value ∧ Utf8.toWellFormed value = value := of_decide_eq_true h
      exact (congrArg Utf8.WellFormed hstored.2).mp (Utf8.wellFormed_toWellFormed value)
    | _ => cases h
  | int =>
    cases value with
    | int value =>
      have hsafe : -SAFE ≤ value ∧ value ≤ SAFE := of_decide_eq_true h
      exact hsafe
    | _ => cases h
  | num =>
    cases value with
    | num value => trivial
    | _ => cases h
  | bool =>
    cases value with
    | bool value => trivial
    | _ => cases h

theorem describeColumn_fits {column : Column κ} (h : describeColumn column what = .ok ()) :
    ∀ value ∈ column.default, ∃ type, column.type = .scalar type ∧ value.Fits type := by
  unfold describeColumn at h
  split at h
  · rename_i hnone
    intro value hvalue
    rw [hnone] at hvalue
    cases hvalue
  · rename_i default type hdefault htype
    intro value hvalue
    obtain rfl := Option.some.inj (hdefault.symm.trans hvalue)
    split_ifs at h with hoptional hfits
    exact ⟨type, htype, isDefault_fits hfits⟩
  · cases h

variable {columns : List (Column κ)}

theorem describeColumns_ok {table : String} {seen : List String}
    (h : describeColumns table seen columns = .ok ()) :
    (columns.map fun column => foldAscii column.name).Nodup ∧
      (∀ column ∈ columns, foldAscii column.name ∉ seen) ∧
      ∀ column ∈ columns, ∃ what, describeColumn column what = .ok () := by
  induction columns generalizing seen with
  | nil => exact ⟨.nil, fun column hcolumn => absurd hcolumn not_mem_nil,
      fun column hcolumn => absurd hcolumn not_mem_nil⟩
  | cons column columns ih =>
    obtain ⟨-, -, h⟩ := Except.bind_eq_ok h
    by_cases hseen : foldAscii column.name ∈ seen
    · rw [if_pos hseen] at h
      cases h
    · rw [if_neg hseen] at h
      obtain ⟨done, hcolumn, h⟩ := Except.bind_eq_ok h
      obtain ⟨hnodup, hfresh, hdescribed⟩ := ih h
      refine ⟨?_, fun other hother => ?_, fun other hother => ?_⟩
      · rw [map_cons, nodup_cons]
        refine ⟨fun hmem => ?_, hnodup⟩
        obtain ⟨other, hother, heq⟩ := mem_map.mp hmem
        exact hfresh other hother (heq ▸ mem_cons_self)
      · obtain rfl | hother := mem_cons.mp hother
        · exact hseen
        · exact fun hmem => hfresh other hother (mem_cons_of_mem _ hmem)
      · obtain rfl | hother := mem_cons.mp hother
        · exact ⟨_, hcolumn⟩
        · exact hdescribed other hother

theorem orderEach_ok {names : List String} (h : orderEach columns what names = .ok ()) :
    ∀ name ∈ names, ∃ column ∈ columns, column.name = name ∧ column.isOrder = true := by
  induction names with
  | nil => exact fun name hname => absurd hname not_mem_nil
  | cons first names ih =>
    rw [orderEach] at h
    split at h
    · cases h
    · rename_i column hcolumn
      split_ifs at h with horder
      intro name hname
      obtain rfl | hname := mem_cons.mp hname
      · have hfound := find?_some hcolumn
        exact ⟨column, mem_of_find?_eq_some hcolumn, of_decide_eq_true hfound, horder⟩
      · exact ih h name hname

theorem orderColumns_ok {names : List String} (h : orderColumns columns names what = .ok ()) :
    names.Nodup ∧ ∀ name ∈ names, ∃ column ∈ columns, column.name = name ∧
      column.isOrder = true := by
  unfold orderColumns at h
  split_ifs at h with hnodup
  exact ⟨hnodup, orderEach_ok h⟩

theorem isOrder_eq {column : Column κ} (h : column.isOrder = true) :
    column.optional = false ∧ ∃ type, column.type = .scalar type ∧ (type = .str ∨ type = .int) := by
  unfold Column.isOrder at h
  obtain ⟨hoptional, htype⟩ := (Bool.and_eq_true _ _).mp h
  refine ⟨Bool.not_eq_true' _ |>.mp hoptional, ?_⟩
  split at htype
  · rename_i hstr
    exact ⟨.str, hstr, .inl rfl⟩
  · rename_i hint
    exact ⟨.int, hint, .inr rfl⟩
  · cases htype

theorem checkIndexes_ok {table : String} {indexes : List (String × List String)}
    (h : checkIndexes table columns indexes = .ok ()) :
    ∀ entry ∈ indexes, ∀ name ∈ entry.2, ∃ column ∈ columns, column.name = name := by
  induction indexes with
  | nil => exact fun entry hentry => absurd hentry not_mem_nil
  | cons first indexes ih =>
    rw [checkIndexes] at h
    split_ifs at h
    obtain ⟨done, hfirst, h⟩ := Except.bind_eq_ok h
    intro entry hentry name hname
    obtain rfl | hentry := mem_cons.mp hentry
    · obtain ⟨column, hcolumn, hnamed, -⟩ := (orderColumns_ok hfirst).2 name hname
      exact ⟨column, hcolumn, hnamed⟩
    · exact ih h entry hentry name hname

/-- The constructor of a definition: its checks, and the definition with its indexes. -/
def TableVersion.make (name : String) (version : ℕ) (shape : Shape κ) :
    Except String (TableVersion κ) :=
  if version < 1 then .error s!"{name}: version {version} is not a positive integer"
  else
    match hcolumns : describeColumns name [] shape.columns with
    | .error error => .error error
    | .ok () =>
      match hkey : orderColumns shape.columns shape.key s!"{name}: the key" with
      | .error error => .error error
      | .ok () =>
        if shape.key = [] then .error s!"{name}: the key has no column"
        else
          match hindexes : checkIndexes name shape.columns shape.indexes with
          | .error error => .error error
          | .ok () => .ok {
              table := {
                name := name
                version := version
                columns := shape.columns
                key := shape.key
                distinct := List.Nodup.of_map foldAscii (by
                  rw [map_map]
                  exact (describeColumns_ok hcolumns).1)
                keyed := fun key hmem => by
                  obtain ⟨column, hcolumn, hname, horder⟩ := (orderColumns_ok hkey).2 key hmem
                  exact ⟨column, hcolumn, hname, isOrder_eq horder⟩
                defaulted := fun column hcolumn => by
                  obtain ⟨what, hdescribed⟩ := (describeColumns_ok hcolumns).2.2 column hcolumn
                  exact describeColumn_fits hdescribed }
              indexes := shape.indexes
              named := shape.named
              indexed := checkIndexes_ok hindexes }

theorem TableVersion.make_ok {name : String} {version : ℕ} {shape : Shape κ}
    {made : TableVersion κ} (h : TableVersion.make name version shape = .ok made) :
    made.shape = shape ∧ made.table.version = version ∧ made.table.name = name := by
  unfold TableVersion.make at h
  by_cases hversion : version < 1
  · rw [if_pos hversion] at h
    cases h
  · rw [if_neg hversion] at h
    split at h
    · cases h
    · split at h
      · cases h
      · by_cases hkey : shape.key = []
        · rw [if_pos hkey] at h
          cases h
        · rw [if_neg hkey] at h
          split at h
          · cases h
          · cases h
            exact ⟨rfl, rfl, rfl⟩

end KnightCode.Store
