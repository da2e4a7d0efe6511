import KnightCode.Store.History

/-!
# The editor of a version

`evolveTable` appends the next version from the edits of one migration. `Edits` are edits each of
which may be made in the shape the ones before leave: the editor records such, from the previous
version to the columns of the data step, and from there to the new version.
-/

namespace KnightCode.Store

open Option Except

variable {κ : Type}
variable {shape : Shape κ} {previous : TableVersion κ}

/-! ### Shapes -/

def renamed (from' to' name : String) : String := if name = from' then to' else name

def Column.rename (from' to' : String) (column : Column κ) : Column κ :=
  { column with name := renamed from' to' column.name }

namespace Shape

variable (shape : Shape κ)

def rename (from' to' : String) : Shape κ where
  columns := shape.columns.map (Column.rename from' to')
  key := shape.key.map (renamed from' to')
  indexes := shape.indexes.map fun index => (index.1, index.2.map (renamed from' to'))
  named := by
    have hkeys : Assoc.keys (shape.indexes.map fun index =>
        (index.1, index.2.map (renamed from' to'))) = Assoc.keys shape.indexes := by
      unfold Assoc.keys
      rw [List.map_map]
      rfl
    rw [hkeys]
    exact shape.named

def add (column : Column κ) : Shape κ :=
  { shape with columns := shape.columns ++ [column] }

/-- A `json(...)` column's new version, its nullability kept. -/
def json (name : String) (column : JsonColumn κ) : Shape κ :=
  { shape with columns := shape.columns.map fun each =>
      if each.name = name then { each with type := .json column } else each }

def drop (name : String) : Shape κ :=
  { shape with columns := shape.columns.filter fun column => column.name ≠ name }

def index (name : String) (columns : List String) : Shape κ where
  columns := shape.columns
  key := shape.key
  indexes := Assoc.set name columns shape.indexes
  named := Assoc.nodup_keys_set shape.named

def dropIndex (name : String) : Shape κ where
  columns := shape.columns
  key := shape.key
  indexes := Assoc.erase name shape.indexes
  named := Assoc.nodup_keys_erase shape.named

end Shape

/-! ### The editor -/

/-- The editor: the shape as the edits leave it, the edits before and after the data step, and the
step; `tail` from the step or the first edit that comes after it. -/
structure Editor (κ : Type) where
  name : String
  version : ℕ
  shape : Shape κ
  tail : Bool
  before : List TableEdit
  step : Option (DataStep κ)
  after : List TableEdit

def Editor.of (previous : TableVersion κ) : Editor κ :=
  ⟨previous.table.name, previous.table.version + 1, previous.shape, false, [], none, []⟩

namespace Editor

section Edits

variable (editor : Editor κ)

def what : String := s!"{editor.name} version {editor.version}"

def assertBefore (edit : String) : Except String Unit :=
  if editor.tail then
    .error s!"{editor.what}: {edit} comes before the data step and before drop, index and dropIndex"
  else .ok ()

def assertColumn (name edit : String) : Except String (Column κ) :=
  match editor.shape.column name with
  | some column => .ok column
  | none => .error s!"{editor.what}: {edit}: no column \"{name}\""

/-- `name` names no other column than `except`, also ignoring ASCII case. -/
def assertNewName (name edit : String) (except : Option String) : Except String Unit :=
  match editor.shape.columns.find? (fun column =>
    some column.name ≠ except ∧ foldAscii column.name = foldAscii name) with
  | none => .ok ()
  | some column => .error (s!"{editor.what}: {edit}: column \"{column.name}\" exists" ++
      " (names differing only in case collide)")

def rename (from' to' : String) : Except String (Editor κ) := do
  editor.assertBefore "rename"
  let _ ← editor.assertColumn from' "rename"
  checkColumnName to' s!"{editor.what}: rename"
  editor.assertNewName to' "rename" (some from')
  return { editor with
    shape := editor.shape.rename from' to'
    before := editor.before ++ [.rename from' to'] }

def add (column : Column κ) : Except String (Editor κ) := do
  editor.assertBefore "add"
  editor.assertNewName column.name "add" none
  describeColumns s!"{editor.what}: add" [] [column]
  if !column.optional && (column.record.isJson || column.default.isNone) then
    .error (s!"{editor.what}: add: column \"{column.name}\" needs opt(...) or a default" ++
      " (existing rows get it)")
  else
    return { editor with
      shape := editor.shape.add column
      before := editor.before ++ [.add column.name column.record] }

def json (name : String) (column : JsonColumn κ) : Except String (Editor κ) := do
  editor.assertBefore "json"
  let existing ← editor.assertColumn name "json"
  match existing.type with
  | .scalar _ => .error s!"{editor.what}: json: column \"{name}\" is not a json(...) column"
  | .json before =>
    if column.version < before.version then
      .error s!"{editor.what}: json: column \"{name}\" goes back from version {before.version}"
    else if column.version = before.version ∧ column.fingerprint ≠ before.fingerprint then
      .error (s!"{editor.what}: json: column \"{name}\" changes its schema at version" ++
        s!" {before.version} (raise its version)")
    else
      let described : Column κ := { existing with type := .json column }
      return { editor with
        shape := editor.shape.json name column
        before := editor.before ++ [.json name described.record] }

/-- The table as the edits so far leave it, at the new version. -/
def current : Except String (TableVersion κ) :=
  TableVersion.make editor.name editor.version editor.shape

def rows (patch : Row κ → Option (List (String × Plain κ))) : Except String (Editor κ) := do
  editor.assertBefore "rows"
  let current ← editor.current
  return { editor with step := some (.rows current.table patch), tail := true }

def update (json : JsonCodec κ) (where' : Option (Condition κ))
    (set : Option (List (String × Expression κ))) : Except String (Editor κ) := do
  editor.assertBefore "update"
  let current ← editor.current
  let what := s!"version {editor.version} update"
  let condition ← where'.mapM fun condition =>
    (compileWhere json current.table what condition).mapError (·.message)
  let compiled ← (compileSet json current.table set what).mapError (·.message)
  return { editor with step := some (.update current.table condition compiled), tail := true }

def dropped (index : String) : Editor κ :=
  { editor with
    shape := editor.shape.dropIndex index
    after := editor.after ++ [.dropIndex index] }

/-- A column dropped, its indexes before it. -/
def drop (name : String) : Except String (Editor κ) := do
  let editor := { editor with tail := true }
  let _ ← editor.assertColumn name "drop"
  if name ∈ editor.shape.key then .error s!"{editor.what}: drop: \"{name}\" is a key column"
  else
    let indexes := editor.shape.indexes.filter fun index => name ∈ index.2
    let editor := indexes.foldl (fun editor index => editor.dropped index.1) editor
    return { editor with
      shape := editor.shape.drop name
      after := editor.after ++ [.drop name] }

def index (name : String) (columns : List String) : Except String (Editor κ) := do
  let editor := { editor with tail := true }
  let what := s!"{editor.what}: index \"{name}\""
  if !isIndexName name then .error s!"{what}: expected [a-z0-9_]+"
  else if (Assoc.get name editor.shape.indexes).isSome then .error s!"{what} exists"
  else
    orderColumns editor.shape.columns columns what
    return { editor with
      shape := editor.shape.index name columns
      after := editor.after ++ [.index name columns] }

def dropIndex (name : String) : Except String (Editor κ) :=
  let editor := { editor with tail := true }
  if (Assoc.get name editor.shape.indexes).isNone then
    .error s!"{editor.what}: dropIndex: no index \"{name}\""
  else .ok (editor.dropped name)

end Edits

end Editor

inductive EditorCall (κ : Type)
  | rename (from' to' : String)
  | add (column : Column κ)
  | json (name : String) (column : JsonColumn κ)
  | rows (patch : Row κ → Option (List (String × Plain κ)))
  | update (where' : Option (Condition κ)) (set : Option (List (String × Expression κ)))
  | drop (name : String)
  | index (name : String) (columns : List String)
  | dropIndex (name : String)

def EditorCall.make (json : JsonCodec κ) (editor : Editor κ) :
    EditorCall κ → Except String (Editor κ)
  | .rename from' to' => editor.rename from' to'
  | .add column => editor.add column
  | .json name column => editor.json name column
  | .rows patch => editor.rows patch
  | .update where' set => editor.update json where' set
  | .drop name => editor.drop name
  | .index name columns => editor.index name columns
  | .dropIndex name => editor.dropIndex name

def evolveTable (json : JsonCodec κ) (previous : TableVersion κ) (calls : List (EditorCall κ)) :
    Except String (Migration κ × TableVersion κ) := do
  let editor ← calls.foldlM (EditorCall.make json) (Editor.of previous)
  let version ← editor.current
  return (⟨editor.before, editor.step, editor.after⟩, version)

/-! ### The edits it records -/

abbrev Shape.Free (shape : Shape κ) (from' to' : String) : Prop :=
  ∀ column ∈ shape.columns, column.name ≠ from' → column.name ≠ to'

inductive EditStep : Shape κ → TableEdit → Shape κ → Prop
  | rename {shape : Shape κ} {from' to' : String} {column : Column κ}
      (hfrom : shape.column from' = some column)
      (hto : shape.Free from' to') :
      EditStep shape (.rename from' to') (shape.rename from' to')
  | add {shape : Shape κ} {column : Column κ}
      (hnew : ∀ other ∈ shape.columns, other.name ≠ column.name)
      (hfits : ∀ value ∈ column.default, ∃ type, column.type = .scalar type ∧ value.Fits type)
      (hdefault : column.optional = true ∨ column.default ≠ none) :
      EditStep shape (.add column.name column.record) (shape.add column)
  | json {shape : Shape κ} {name : String} {existing : Column κ} {before column : JsonColumn κ}
      (hexisting : shape.column name = some existing) (hjson : existing.type = .json before) :
      EditStep shape (.json name { existing with type := .json column }.record)
        (shape.json name column)
  | drop {shape : Shape κ} {name : String} {column : Column κ}
      (hcolumn : shape.column name = some column) (hkey : name ∉ shape.key)
      (hindexes : ∀ index ∈ shape.indexes, name ∉ index.2) :
      EditStep shape (.drop name) (shape.drop name)
  | index {shape : Shape κ} {name : String} {columns : List String}
      (hnew : Assoc.get name shape.indexes = none)
      (hcolumns : ∀ each ∈ columns, ∃ column ∈ shape.columns, column.name = each) :
      EditStep shape (.index name columns) (shape.index name columns)
  | dropIndex {shape : Shape κ} {name : String} {columns : List String}
      (hindex : Assoc.get name shape.indexes = some columns) :
      EditStep shape (.dropIndex name) (shape.dropIndex name)

/-- Edits made one after another. -/
inductive Edits : Shape κ → List TableEdit → Shape κ → Prop
  | nil (shape : Shape κ) : Edits shape [] shape
  | cons {shape next last : Shape κ} {edit : TableEdit} {edits : List TableEdit}
      (h : EditStep shape edit next) (hrest : Edits next edits last) :
      Edits shape (edit :: edits) last

theorem Edits.concat {next last : Shape κ} {edits : List TableEdit} {edit : TableEdit}
    (h : Edits shape edits next) (hedit : EditStep next edit last) :
    Edits shape (edits ++ [edit]) last := by
  induction h with
  | nil shape => exact .cons hedit (.nil last)
  | cons hfirst _ ih => exact .cons hfirst (ih hedit)

/-- A data step over the columns of `shape`; an `update` sets columns outside the key. -/
structure StepOn (shape : Shape κ) (version : ℕ) (step : DataStep κ) : Prop where
  columns : step.table.columns = shape.columns
  key : step.table.key = shape.key
  version : step.table.version = version
  set : ∀ table where' set, step = .update table where' set → ∀ entry ∈ set, EntryTyped table entry

structure Recorded (previous : TableVersion κ) (editor : Editor κ) : Prop where
  version : editor.version = previous.table.version + 1
  edits : ∃ middle, Edits previous.shape editor.before middle ∧
    Edits middle editor.after editor.shape ∧
    (editor.tail = false → editor.step = none ∧ editor.after = []) ∧
    ∀ step, editor.step = some step → StepOn middle editor.version step

variable {editor : Editor κ}

theorem Recorded.before (h : Recorded previous editor) (htail : editor.tail = false) :
    Edits previous.shape editor.before editor.shape ∧ editor.step = none ∧ editor.after = [] := by
  obtain ⟨middle, hbefore, hafter, hhead, -⟩ := h.edits
  obtain ⟨hstep, hnil⟩ := hhead htail
  rw [hnil] at hafter
  cases hafter
  exact ⟨hbefore, hstep, hnil⟩

variable {next : Editor κ}

theorem Recorded.edit (h : Recorded previous editor) (htail : editor.tail = false)
    {edit : TableEdit} (hedit : EditStep editor.shape edit shape)
    (hnext : next = { editor with shape := shape, before := editor.before ++ [edit] }) :
    Recorded previous next := by
  subst hnext
  obtain ⟨hbefore, hstep, hafter⟩ := h.before htail
  refine ⟨h.version, shape, hbefore.concat hedit, ?_, fun _ => ⟨hstep, hafter⟩, ?_⟩
  · dsimp only
    rw [hafter]
    exact .nil shape
  · intro step hsome
    cases hstep.symm.trans hsome

theorem Recorded.editAfter (h : Recorded previous editor) (htail : editor.tail = true)
    {edit : TableEdit} (hedit : EditStep editor.shape edit shape)
    (hnext : next = { editor with shape := shape, after := editor.after ++ [edit] }) :
    Recorded previous next := by
  subst hnext
  obtain ⟨middle, hbefore, hafter, -, hstep⟩ := h.edits
  refine ⟨h.version, middle, hbefore, hafter.concat hedit, fun hfalse => ?_, hstep⟩
  cases htail.symm.trans hfalse

theorem Recorded.toTail (h : Recorded previous editor) :
    Recorded previous { editor with tail := true } := by
  obtain ⟨middle, hbefore, hafter, -, hstep⟩ := h.edits
  exact ⟨h.version, middle, hbefore, hafter, fun hfalse => (by cases hfalse), hstep⟩

theorem Recorded.withStep (h : Recorded previous editor) (htail : editor.tail = false)
    (step : DataStep κ) (hstep : StepOn editor.shape editor.version step)
    (hnext : next = { editor with step := some step, tail := true }) : Recorded previous next := by
  subst hnext
  obtain ⟨hbefore, -, hafter⟩ := h.before htail
  refine ⟨h.version, editor.shape, hbefore, ?_, fun hfalse => (by cases hfalse), ?_⟩
  · dsimp only
    rw [hafter]
    exact .nil editor.shape
  · intro other hsome
    cases hsome
    exact hstep

theorem assertBefore_ok {edit : String} {done : Unit} (h : editor.assertBefore edit = .ok done) :
    editor.tail = false := by
  unfold Editor.assertBefore at h
  cases htail : editor.tail with
  | false => rfl
  | true =>
    rw [htail] at h
    cases h

theorem assertColumn_ok {name edit : String} {column : Column κ}
    (h : editor.assertColumn name edit = .ok column) : editor.shape.column name = some column := by
  unfold Editor.assertColumn at h
  split at h
  · rename_i found hfound
    cases h
    exact hfound
  · cases h

theorem assertNewName_ok {name edit : String} {except : Option String} {done : Unit}
    (h : editor.assertNewName name edit except = .ok done) :
    ∀ column ∈ editor.shape.columns, some column.name ≠ except → column.name ≠ name := by
  unfold Editor.assertNewName at h
  split at h
  · rename_i hnone
    intro column hcolumn hexcept hname
    have hnot := List.find?_eq_none.mp hnone column hcolumn
    exact hnot (decide_eq_true ⟨hexcept, congrArg foldAscii hname⟩)
  · cases h

section Calls

variable {codec : JsonCodec κ} {previous version : TableVersion κ} {editor next : Editor κ}
variable {name : String}

theorem Recorded.rename (h : Recorded previous editor) {from' to' : String}
    (hmake : editor.rename from' to' = .ok next) : Recorded previous next := by
  obtain ⟨_, hbefore, hmake⟩ := bind_eq_ok hmake
  obtain ⟨column, hcolumn, hmake⟩ := bind_eq_ok hmake
  obtain ⟨_, -, hmake⟩ := bind_eq_ok hmake
  obtain ⟨_, hnew, hmake⟩ := bind_eq_ok hmake
  cases hmake
  refine h.edit (assertBefore_ok hbefore) (.rename (assertColumn_ok hcolumn) ?_) rfl
  intro other hother hne
  exact assertNewName_ok hnew other hother fun heq => hne (some.inj heq)

theorem Recorded.add (h : Recorded previous editor) {column : Column κ}
    (hmake : editor.add column = .ok next) : Recorded previous next := by
  obtain ⟨_, hbefore, hmake⟩ := bind_eq_ok hmake
  obtain ⟨_, hnew, hmake⟩ := bind_eq_ok hmake
  obtain ⟨_, hdescribed, hmake⟩ := bind_eq_ok hmake
  by_cases hneeds : (!column.optional && (column.record.isJson || column.default.isNone)) = true
  · rw [if_pos hneeds] at hmake
    cases hmake
  · rw [if_neg hneeds] at hmake
    cases hmake
    obtain ⟨-, -, hcolumns⟩ := describeColumns_ok hdescribed
    obtain ⟨what, hcolumn⟩ := hcolumns column List.mem_cons_self
    refine h.edit (assertBefore_ok hbefore) (.add ?_ (describeColumn_fits hcolumn) ?_) rfl
    · intro other hother
      exact assertNewName_ok hnew other hother (some_ne_none _)
    · cases hoptional : column.optional with
      | true => exact .inl rfl
      | false =>
        rw [hoptional, Bool.not_false, Bool.true_and, Bool.or_eq_true, not_or] at hneeds
        exact .inr fun hnone => hneeds.2 (isNone_iff_eq_none.mpr hnone)

theorem Recorded.json (h : Recorded previous editor) {column : JsonColumn κ}
    (hmake : editor.json name column = .ok next) : Recorded previous next := by
  obtain ⟨_, hbefore, hmake⟩ := bind_eq_ok hmake
  obtain ⟨existing, hexisting, hmake⟩ := bind_eq_ok hmake
  split at hmake
  · cases hmake
  · rename_i before hjson
    split_ifs at hmake
    cases hmake
    exact h.edit (assertBefore_ok hbefore) (.json (assertColumn_ok hexisting) hjson) rfl

theorem current_ok (h : editor.current = .ok version) :
    version.table.columns = editor.shape.columns ∧ version.table.key = editor.shape.key ∧
      version.table.version = editor.version := by
  obtain ⟨hshape, hversion, -⟩ := TableVersion.make_ok h
  exact ⟨congrArg Shape.columns hshape, congrArg Shape.key hshape, hversion⟩

theorem Recorded.rows (h : Recorded previous editor)
    {patch : Row κ → Option (List (String × Plain κ))}
    (hmake : editor.rows patch = .ok next) : Recorded previous next := by
  obtain ⟨_, hbefore, hmake⟩ := bind_eq_ok hmake
  obtain ⟨current, hcurrent, hmake⟩ := bind_eq_ok hmake
  cases hmake
  obtain ⟨hcolumns, hkey, hversion⟩ := current_ok hcurrent
  refine h.withStep (assertBefore_ok hbefore) (.rows current.table patch)
    ⟨hcolumns, hkey, hversion, ?_⟩ rfl
  intro table where' set heq
  cases heq

theorem Recorded.update (h : Recorded previous editor) {where' : Option (Condition κ)}
    {set : Option (List (String × Expression κ))}
    (hmake : editor.update codec where' set = .ok next) : Recorded previous next := by
  obtain ⟨_, hbefore, hmake⟩ := bind_eq_ok hmake
  obtain ⟨current, hcurrent, hmake⟩ := bind_eq_ok hmake
  obtain ⟨condition, -, hmake⟩ := bind_eq_ok hmake
  obtain ⟨compiled, hcompiled, hmake⟩ := bind_eq_ok hmake
  cases hmake
  obtain ⟨hcolumns, hkey, hversion⟩ := current_ok hcurrent
  refine h.withStep (assertBefore_ok hbefore) (.update current.table condition compiled)
    ⟨hcolumns, hkey, hversion, ?_⟩ rfl
  intro table where' set heq
  cases heq
  exact compileSet_typed (mapError_eq_ok hcompiled)

variable {name : String}

theorem Recorded.index (h : Recorded previous editor) {columns : List String}
    (hmake : editor.index name columns = .ok next) : Recorded previous next := by
  unfold Editor.index at hmake
  dsimp only at hmake
  split_ifs at hmake with hname hexists
  obtain ⟨_, horder, hmake⟩ := bind_eq_ok hmake
  cases hmake
  refine h.toTail.editAfter rfl (.index ?_ ?_) rfl
  · exact not_isSome_iff_eq_none.mp hexists
  · intro each heach
    obtain ⟨column, hcolumn, hnamed, -⟩ := (orderColumns_ok horder).2 each heach
    exact ⟨column, hcolumn, hnamed⟩

theorem Recorded.dropped (h : Recorded previous editor) (htail : editor.tail = true)
    {columns : List String} (hindex : Assoc.get name editor.shape.indexes = some columns) :
    Recorded previous (editor.dropped name) :=
  h.editAfter htail (.dropIndex hindex) rfl

theorem Recorded.dropIndex (h : Recorded previous editor)
    (hmake : editor.dropIndex name = .ok next) : Recorded previous next := by
  unfold Editor.dropIndex at hmake
  dsimp only at hmake
  split_ifs at hmake with hnone
  cases hmake
  obtain ⟨columns, hcolumns⟩ := ne_none_iff_exists'.mp
    (fun heq => hnone (isNone_iff_eq_none.mpr heq))
  exact h.toTail.dropped rfl hcolumns

theorem Recorded.dropAll (names : List (String × List String)) (h : Recorded previous editor)
    (htail : editor.tail = true) (hdistinct : (Assoc.keys names).Nodup)
    (hnames : ∀ index ∈ names, index ∈ editor.shape.indexes) :
    Recorded previous (names.foldl (fun editor index => editor.dropped index.1) editor) ∧
      (names.foldl (fun editor index => editor.dropped index.1) editor).tail = true ∧
      (names.foldl (fun editor index => editor.dropped index.1) editor).shape.columns =
        editor.shape.columns ∧
      (names.foldl (fun editor index => editor.dropped index.1) editor).shape.key =
        editor.shape.key ∧
      ∀ index ∈ (names.foldl (fun editor index => editor.dropped index.1) editor).shape.indexes,
        index ∈ editor.shape.indexes ∧ index.1 ∉ Assoc.keys names := by
  induction names generalizing editor with
  | nil => exact ⟨h, htail, rfl, rfl, fun index hindex => ⟨hindex, List.not_mem_nil⟩⟩
  | cons first names ih =>
    rw [List.foldl_cons]
    have hfirst := Assoc.get_of_mem editor.shape.named (hnames first List.mem_cons_self)
    obtain ⟨hfresh, hdistinct⟩ := List.nodup_cons.mp hdistinct
    have hkept : ∀ index ∈ names, index ∈ (editor.dropped first.1).shape.indexes := by
      intro index hindex
      refine Assoc.mem_erase.mpr ⟨fun heq => ?_, hnames index (List.mem_cons_of_mem _ hindex)⟩
      exact hfresh (heq ▸ List.mem_map_of_mem hindex)
    obtain ⟨hrecorded, htail', hcolumns, hkey, hindexes⟩ :=
      ih (h.dropped htail hfirst) htail hdistinct hkept
    refine ⟨hrecorded, htail', hcolumns, hkey, fun index hindex => ?_⟩
    obtain ⟨hmem, hnot⟩ := hindexes index hindex
    obtain ⟨hne, hmem⟩ := Assoc.mem_erase.mp hmem
    refine ⟨hmem, fun hin => ?_⟩
    obtain heq | hin := List.mem_cons.mp hin
    · exact hne heq
    · exact hnot hin

theorem Recorded.drop (h : Recorded previous editor) (hmake : editor.drop name = .ok next) :
    Recorded previous next := by
  unfold Editor.drop at hmake
  obtain ⟨column, hcolumn, hmake⟩ := bind_eq_ok hmake
  by_cases hkey : name ∈ editor.shape.key
  · rw [if_pos hkey] at hmake
    cases hmake
  · rw [if_neg hkey] at hmake
    cases hmake
    have hsublist : (editor.shape.indexes.filter fun index => name ∈ index.2).Sublist
        editor.shape.indexes := List.filter_sublist
    obtain ⟨hrecorded, htail, hcolumns, hkeys, hindexes⟩ :=
      h.toTail.dropAll (editor.shape.indexes.filter fun index => name ∈ index.2) rfl
        (editor.shape.named.sublist (hsublist.map _)) fun index hindex => hsublist.subset hindex
    have hfound : (Editor.shape _).column name = some column :=
      (congrArg (List.find? fun column : Column κ => column.name = name) hcolumns).trans
        (assertColumn_ok hcolumn)
    refine hrecorded.editAfter htail (.drop hfound ?_ ?_) rfl
    · rw [hkeys]
      exact hkey
    · intro index hindex hname
      obtain ⟨hmem, hnot⟩ := hindexes index hindex
      exact hnot (List.mem_map_of_mem (List.mem_filter.mpr ⟨hmem, decide_eq_true hname⟩))

theorem Recorded.make (h : Recorded previous editor) {call : EditorCall κ}
    (hmake : call.make codec editor = .ok next) : Recorded previous next := by
  cases call with
  | rename from' to' => exact h.rename hmake
  | add column => exact h.add hmake
  | json name column => exact h.json hmake
  | rows patch => exact h.rows hmake
  | update where' set => exact h.update hmake
  | drop name => exact h.drop hmake
  | index name columns => exact h.index hmake
  | dropIndex name => exact h.dropIndex hmake

end Calls

/-- The migration of a version: its edits before the data step lead from the previous version to the
step's columns, those after it to the version. -/
theorem evolveTable_edits {json : JsonCodec κ} {version : TableVersion κ} {migration : Migration κ}
    {calls : List (EditorCall κ)} (h : evolveTable json previous calls = .ok (migration, version)) :
    version.table.version = previous.table.version + 1 ∧
    ∃ middle, Edits previous.shape migration.before middle ∧
      Edits middle migration.after version.shape ∧
      ∀ step, migration.step = some step → StepOn middle version.table.version step := by
  obtain ⟨editor, heditor, h⟩ := bind_eq_ok h
  obtain ⟨made, hmade, h⟩ := bind_eq_ok h
  cases h
  obtain ⟨hshape, hversion, -⟩ := TableVersion.make_ok hmade
  have hrun : ∀ (calls : List (EditorCall κ)) (first : Editor κ), Recorded previous first →
      calls.foldlM (EditorCall.make json) first = .ok editor → Recorded previous editor := by
    intro calls
    induction calls with
    | nil =>
      intro first hfirst heq
      cases heq
      exact hfirst
    | cons call calls ih =>
      intro first hfirst heq
      rw [List.foldlM_cons] at heq
      obtain ⟨next, hnext, heq⟩ := bind_eq_ok heq
      exact ih next (hfirst.make hnext) heq
  have hstart : Recorded previous (Editor.of previous) :=
    ⟨rfl, previous.shape, .nil _, .nil _, fun _ => ⟨rfl, rfl⟩, fun step hstep => by cases hstep⟩
  have hrecorded := hrun calls _ hstart heditor
  obtain ⟨middle, hbefore, hafter, -, hstep⟩ := hrecorded.edits
  refine ⟨hversion.trans hrecorded.version, middle, hbefore, hshape ▸ hafter, fun step hsome => ?_⟩
  rw [hversion]
  exact hstep step hsome

end KnightCode.Store
