import KnightCode.Store.Migration

/-!
# What a migration makes of a row

Each version takes a row through the edits before its data step, the step, and the edits after it.
`remaining` is what is still to be done to a row of a table as it is recorded: of a table recorded
`migrating`, the step of that version only to a row not stamped with it. `Standing` is a table the
store may hold under a history.
-/

namespace KnightCode.Store

variable {κ φ : Type}

def TableDefinition.shape (table : TableDefinition κ) : Shape κ :=
  ⟨table.columns, table.key, [], List.nodup_nil⟩

section Upgrade

variable (json : JsonCodec κ)

def boundSet (table : TableDefinition κ) (set : SetNode κ) (v : ℕ) :
    List (PhysicalColumn × SqlExpr) :=
  (setSql json table.jsonVersion set []).bound bindSet ++ [(.rowVersion, .bound (.integer v))]

def whereHolds (where' : Option WhereNode) (row : PhysicalRow) : Bool :=
  where'.all fun node => ((whereSql node []).bound SqlCondition.bind).eval row = some true

def DataStep.row (v : ℕ) (row : PhysicalRow) : DataStep κ → Option PhysicalRow
  | .rows table patch =>
    match patchSet json table patch v row with
    | .ok set => updateRow table.shape.sqlColumns (boundSet json table set v) row
    | .error _ => none
  | .update table where' set =>
    if whereHolds where' row then
      updateRow table.shape.sqlColumns (boundSet json table set v) row
    else some row

def Migration.row (migration : Migration κ) (v : ℕ) (row : PhysicalRow) : Option PhysicalRow :=
  match migration.step with
  | some step => step.row json v row
  | none => some row

def upgradeTo (columns : List (String × ColumnRecord)) (migration : Migration κ)
    (version : TableVersion κ) (row : PhysicalRow) : Option PhysicalRow :=
  (migration.row json version.table.version (editsRow columns migration.before row)).map
    (editsRow (editsColumns columns migration.before) migration.after)

/-- A row brought through versions, in their order. -/
def upgrade : List (String × ColumnRecord) → Versions κ →
    PhysicalRow → Option PhysicalRow
  | _, [], row => some row
  | columns, next :: rest, row =>
    (upgradeTo json columns next.1 next.2 row).bind
      (upgrade (recordedColumns next.2.table.columns) rest)

/-- The data step of a version made where it was not yet. -/
def Migration.stepBelow (migration : Migration κ) (v : ℕ) (row : PhysicalRow) :
    Option PhysicalRow :=
  if below v row then migration.row json v row else some row

def remaining (state : TableState) (columns : List (String × ColumnRecord))
    (versions : Versions κ) (row : PhysicalRow) : Option PhysicalRow :=
  match state, versions with
  | .ready, versions => upgrade json columns versions row
  | .migrating, [] => some row
  | .migrating, next :: rest =>
    ((next.1.stepBelow json next.2.table.version row).map (editsRow columns next.1.after)).bind
      (upgrade json (recordedColumns next.2.table.columns) rest)

theorem upgrade_append {columns : List (String × ColumnRecord)}
    {versions more : Versions κ} {base : TableVersion κ}
    (hcolumns : columns = recordedColumns base.table.columns) (row : PhysicalRow) :
    upgrade json columns (versions ++ more) row = (upgrade json columns versions row).bind
      (upgrade json (recordedColumns (newestOf base versions).table.columns) more) := by
  induction versions generalizing columns base row with
  | nil =>
    rw [hcolumns]
    rfl
  | cons next versions ih =>
    rw [List.cons_append, upgrade, upgrade, Option.bind_assoc]
    exact congrArg (Option.bind _) (funext fun row => ih rfl row)

end Upgrade

/-! ### What the store may hold -/

variable {json : JsonCodec κ}

/-- A ready table behind the migrations `before`. -/
structure Rested (fingerprint : TableVersion κ → φ) (history : TableHistory json)
    (stored : StoredTable φ) (before versions : Versions κ) : Prop where
  later : history.later = before ++ versions
  state : stored.record.state = .ready
  recorded : stored.record.version = (newestOf history.base before).table.version
  named : fingerprint (newestOf history.base before) = stored.record.fingerprint
  stands : Stands stored (newestOf history.base before).shape
  rows : RowsFit stored.record.key stored.record.version stored.sql.rows

/-- A table whose data step is under way. -/
structure Midway (fingerprint : TableVersion κ → φ) (history : TableHistory json)
    (stored : StoredTable φ) (before rest : Versions κ)
    (migration : Migration κ) (version : TableVersion κ) (middle : Shape κ) (step : DataStep κ) :
    Prop where
  later : history.later = before ++ (migration, version) :: rest
  opens : Edits (newestOf history.base before).shape migration.before middle
  closes : Edits middle migration.after version.shape
  makes : migration.step = some step
  on : StepOn middle version.table.version step
  state : stored.record.state = .migrating
  recorded : stored.record.version = version.table.version
  named : fingerprint version = stored.record.fingerprint
  stands : Stands stored middle
  rows : RowsFit stored.record.key stored.record.version stored.sql.rows

inductive Standing (fingerprint : TableVersion κ → φ) (history : TableHistory json)
    (stored : StoredTable φ) : Versions κ → Prop
  | ready {before versions : Versions κ}
      (h : Rested fingerprint history stored before versions) :
      Standing fingerprint history stored versions
  | migrating {before rest : Versions κ} {migration : Migration κ}
      {version : TableVersion κ} {middle : Shape κ} {step : DataStep κ}
      (h : Midway fingerprint history stored before rest migration version middle step) :
      Standing fingerprint history stored ((migration, version) :: rest)

section Histories

variable {base : TableVersion κ} {before versions : Versions κ}

theorem newestOf_append (base : TableVersion κ)
    (before versions : Versions κ) :
    newestOf base (before ++ versions) = newestOf (newestOf base before) versions := by
  induction before generalizing base with
  | nil => rfl
  | cons next before ih => exact ih next.2

theorem Evolved.of_append (h : Evolved json base (before ++ versions)) :
    Evolved json base before ∧ Evolved json (newestOf base before) versions := by
  induction before generalizing base with
  | nil => exact ⟨trivial, h⟩
  | cons next before ih =>
    obtain ⟨hbefore, hversions⟩ := ih h.2
    exact ⟨⟨h.1, hbefore⟩, hversions⟩

theorem Evolved.version_le (h : Evolved json base versions) :
    base.table.version ≤ (newestOf base versions).table.version ∧
      ∀ next ∈ versions, base.table.version < next.2.table.version ∧
        next.2.table.version ≤ (newestOf base versions).table.version := by
  induction versions generalizing base with
  | nil => exact ⟨le_refl _, fun next hnext => absurd hnext List.not_mem_nil⟩
  | cons first versions ih =>
    obtain ⟨⟨calls, hcalls⟩, hrest⟩ := h
    obtain ⟨hle, hall⟩ := ih hrest
    have hfirst := (evolveTable_edits hcalls).1
    have hnewest : newestOf base (first :: versions) = newestOf first.2 versions := rfl
    rw [hnewest]
    refine ⟨by omega, fun next hnext => ?_⟩
    obtain rfl | hnext := List.mem_cons.mp hnext
    · exact ⟨by omega, hle⟩
    · obtain ⟨hlt, hle⟩ := hall next hnext
      exact ⟨by omega, hle⟩

variable {history : TableHistory json}

theorem owed_ready (h : history.later = before ++ versions) :
    history.owed .ready (newestOf history.base before).table.version = versions := by
  have hevolved := history.evolved
  rw [h] at hevolved
  obtain ⟨hbefore, hversions⟩ := hevolved.of_append
  unfold TableHistory.owed
  rw [h, List.filter_append]
  have hnone : before.filter (fun next => decide ((newestOf history.base before).table.version <
      next.2.table.version)) = [] :=
    List.filter_eq_nil_iff.mpr fun next hnext hlt =>
      absurd (of_decide_eq_true hlt) (not_lt.mpr (hbefore.version_le.2 next hnext).2)
  have hall : versions.filter (fun next => decide ((newestOf history.base before).table.version <
      next.2.table.version)) = versions :=
    List.filter_eq_self.mpr fun next hnext =>
      decide_eq_true (hversions.version_le.2 next hnext).1
  rw [hnone, hall, List.nil_append]

theorem owed_migrating {next : Migration κ × TableVersion κ}
    (h : history.later = before ++ next :: versions) :
    history.owed .migrating next.2.table.version = next :: versions := by
  have hevolved := history.evolved
  rw [h] at hevolved
  obtain ⟨hbefore, ⟨calls, hcalls⟩, hversions⟩ := hevolved.of_append
  have hnext := (evolveTable_edits hcalls).1
  unfold TableHistory.owed
  rw [h, List.filter_append]
  have hnone : before.filter (fun each => decide (next.2.table.version ≤
      each.2.table.version)) = [] :=
    List.filter_eq_nil_iff.mpr fun each heach hle => by
      have hmade := (hbefore.version_le.2 each heach).2
      have hle := of_decide_eq_true hle
      omega
  have hall : (next :: versions).filter (fun each => decide (next.2.table.version ≤
      each.2.table.version)) = next :: versions := by
    refine List.filter_eq_self.mpr fun each heach => decide_eq_true ?_
    obtain rfl | heach := List.mem_cons.mp heach
    · exact le_refl _
    · exact (hversions.version_le.2 each heach).1.le
  rw [hnone, hall, List.nil_append]

end Histories

theorem Standing.owed {fingerprint : TableVersion κ → φ} {history : TableHistory json}
    {stored : StoredTable φ} {versions : Versions κ}
    (h : Standing fingerprint history stored versions) :
    history.owed stored.record.state stored.record.version = versions := by
  cases h with
  | ready h =>
    rw [h.state, h.recorded]
    exact owed_ready h.later
  | migrating h =>
    rw [h.state, h.recorded]
    exact owed_migrating h.later

end KnightCode.Store
