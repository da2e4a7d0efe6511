import KnightCode.Store.Upgrade

/-!
# The statements of a data step

A patch's `UPDATE` and the `updateWhere` of an `update` step, executed with their positional
parameters, make of each row they choose what `DataStep.row` says. A data step keeps a row's key and
stamps what it changes.
-/

namespace KnightCode.Store

open List Option

variable {κ φ : Type}

/-! ### Assigned columns -/

section Assign

variable {columns : PhysicalColumn → Option SqlColumn} {row after : PhysicalRow}
variable {values : List (PhysicalColumn × SqlValue)}

theorem assignRow_cons {assigned : PhysicalColumn × SqlValue}
    (h : assignRow columns (assigned :: values) row = some after) :
    ∃ column value, columns assigned.1 = some column ∧ column.store assigned.2 = some value ∧
      assignRow columns values (Function.update row assigned.1 value) = some after := by
  unfold assignRow at h
  rw [foldlM_cons, bind_eq_bind, bind_eq_some_iff] at h
  obtain ⟨next, hnext, hrest⟩ := h
  obtain ⟨column, hcolumn, hstored⟩ := bind_eq_some_iff.mp hnext
  obtain ⟨value, hvalue, rfl⟩ := map_eq_some_iff.mp hstored
  exact ⟨column, value, hcolumn, hvalue, hrest⟩

theorem assignRow_of_not_mem {column : PhysicalColumn}
    (hcolumn : ∀ assigned ∈ values, assigned.1 ≠ column)
    (h : assignRow columns values row = some after) : after column = row column := by
  induction values generalizing row with
  | nil =>
    obtain rfl := Option.some.inj h
    rfl
  | cons first values ih =>
    obtain ⟨_, value, -, -, hrest⟩ := assignRow_cons h
    rw [ih (fun assigned hassigned => hcolumn assigned (mem_cons_of_mem _ hassigned)) hrest,
      Function.update_of_ne (hcolumn first mem_cons_self).symm]

theorem assignRow_append (first second : List (PhysicalColumn × SqlValue)) (row : PhysicalRow) :
    assignRow columns (first ++ second) row =
      (assignRow columns first row).bind (assignRow columns second) :=
  foldlM_append

theorem updateRow_stamp {shape : Shape κ} {assignments : List (PhysicalColumn × SqlExpr)} {v : ℕ}
    (h : updateRow shape.sqlColumns
      (assignments ++ [(.rowVersion, .bound (.integer v))]) row = some after) :
    after .rowVersion = .integer v := by
  rw [updateRow, map_append, assignRow_append, bind_eq_some_iff] at h
  obtain ⟨before, -, hstamp⟩ := h
  obtain ⟨column, value, hcolumn, hvalue, hrest⟩ := assignRow_cons hstamp
  obtain rfl := Option.some.inj hrest
  cases hcolumn
  cases hvalue
  exact Function.update_self ..

end Assign

section Sets

variable (json : JsonCodec κ) (table : TableDefinition κ) {set : SetNode κ}

theorem mem_setSql {versions : String → Option ℕ} {params : List Param}
    {assigned : PhysicalColumn × SqlExpr} (h : assigned ∈ (setSql json versions set params).1) :
    ∃ entry ∈ set, assigned.1 = .cell entry.1 ∨ assigned.1 = .version entry.1 := by
  induction set generalizing params with
  | nil => exact absurd h not_mem_nil
  | cons first rest ih =>
    obtain ⟨name, node⟩ := first
    rw [setSql] at h
    split at h
    · obtain rfl | h := mem_cons.mp h
      · exact ⟨_, mem_cons_self, .inl rfl⟩
      · obtain ⟨entry, hentry, hassigned⟩ := ih h
        exact ⟨entry, mem_cons_of_mem _ hentry, hassigned⟩
    · obtain rfl | h := mem_cons.mp h
      · exact ⟨_, mem_cons_self, .inl rfl⟩
      · obtain rfl | h := mem_cons.mp h
        · exact ⟨_, mem_cons_self, .inr rfl⟩
        · obtain ⟨entry, hentry, hassigned⟩ := ih h
          exact ⟨entry, mem_cons_of_mem _ hentry, hassigned⟩

theorem bindSet_columns (assignments : List (PhysicalColumn × SqlExpr)) (params : List Param) :
    (bindSet assignments params).1.map (·.1) = assignments.map (·.1) := by
  induction assignments generalizing params with
  | nil => rfl
  | cons first rest ih =>
    rw [bindSet, map_cons, map_cons]
    exact congrArg (cons _) (ih _)

theorem bindSet_append (first second : List (PhysicalColumn × SqlExpr)) (params : List Param) :
    bindSet (first ++ second) params =
      ((bindSet first params).1 ++ (bindSet second (bindSet first params).2).1,
        (bindSet second (bindSet first params).2).2) := by
  induction first generalizing params with
  | nil => rfl
  | cons entry first ih =>
    rw [cons_append, bindSet, ih, bindSet]
    rfl

theorem updateRow_key {columns : PhysicalColumn → Option SqlColumn} {v : ℕ}
    {row after : PhysicalRow} (h : updateRow columns (boundSet json table set v) row = some after)
    {name : String} (hname : ∀ entry ∈ set, entry.1 ≠ name) :
    after (.cell name) = row (.cell name) := by
  refine assignRow_of_not_mem (fun assigned hassigned heq => ?_) h
  obtain ⟨bound, hbound, rfl⟩ := mem_map.mp hassigned
  obtain hbound | hbound := mem_append.mp hbound
  · have hcolumn : bound.1 ∈ (setSql json table.jsonVersion set []).1.map (·.1) := by
      rw [← bindSet_columns _ (setSql json table.jsonVersion set []).2]
      exact mem_map_of_mem hbound
    obtain ⟨rendered, hrendered, hsame⟩ := mem_map.mp hcolumn
    obtain ⟨entry, hentry, hcell | hversion⟩ := mem_setSql json hrendered
    · exact hname entry hentry
        (PhysicalColumn.cell.inj (hcell.symm.trans (hsame.trans heq)))
    · cases hversion.symm.trans (hsame.trans heq)
  · rw [mem_singleton.mp hbound] at heq
    cases heq

theorem bind_stampedSql (set : SetNode κ) (v : ℕ) (rest : List Param) :
    bindSet (stampedSql json table set v).1 ((stampedSql json table set v).2 ++ rest) =
      (boundSet json table set v, rest) := by
  have hbind := (positional_set json table.jsonVersion set).bind
    (.value (.integer v) :: rest)
  unfold stampedSql
  dsimp only
  rw [append_assoc, singleton_append, bindSet_append, hbind]
  rfl

end Sets

/-! ### Data steps on rows -/

section Steps

variable {json : JsonCodec κ} {v : ℕ} {row after : PhysicalRow}
variable {patch : Row κ → Option (List (String × Plain κ))} {table : TableDefinition κ}

theorem patchSet_key {set : SetNode κ} (h : patchSet json table patch v row = .ok set) :
    ∀ entry ∈ set, entry.1 ∉ table.key := by
  unfold patchSet at h
  dsimp only at h
  split at h
  · cases h
  · split at h
    · cases h
    · intro entry hentry
      obtain ⟨field, -, hfield⟩ := mem_mapM h hentry
      unfold patchCell at hfield
      split at hfield
      · cases hfield
      · by_cases hkey : field.1 ∈ table.key
        · rw [if_pos hkey] at hfield
          cases hfield
        · rw [if_neg hkey] at hfield
          obtain ⟨node, -, rfl⟩ := Except.map_eq_ok hfield
          exact hkey

structure Stepped (step : DataStep κ) (v : ℕ) (row after : PhysicalRow) : Prop where
  key : ∀ name ∈ step.table.key, after (.cell name) = row (.cell name)
  stamp : after .rowVersion = .integer v ∨ after .rowVersion = row .rowVersion
  stamped : ∀ table patch, step = .rows table patch → after .rowVersion = .integer v

theorem DataStep.row_stepped {step : DataStep κ} {middle : Shape κ} {version : ℕ}
    (hon : StepOn middle version step) (h : step.row json v row = some after) :
    Stepped step v row after := by
  cases step with
  | rows table patch =>
    rw [DataStep.row] at h
    split at h
    · rename_i set hset
      have hstamp : after .rowVersion = .integer v := updateRow_stamp h
      refine ⟨fun name hname => updateRow_key json table h fun entry hentry heq => ?_,
        .inl hstamp, fun _ _ _ => hstamp⟩
      exact patchSet_key hset entry hentry (heq ▸ hname)
    · cases h
  | update table where' set =>
    rw [DataStep.row] at h
    split_ifs at h with hwhere
    · refine ⟨fun name hname => updateRow_key json table h fun entry hentry heq => ?_,
        .inl (updateRow_stamp h), fun _ _ heq => by cases heq⟩
      exact (hon.set table where' set rfl entry hentry).1 (heq ▸ hname)
    · obtain rfl := Option.some.inj h
      exact ⟨fun name hname => rfl, .inr rfl, fun _ _ heq => by cases heq⟩

theorem takeKey_map (key : Key) (rest : List Param) :
    takeKey key.length (key.map .value ++ rest) = key := by
  induction key with
  | nil => rfl
  | cons first key ih =>
    rw [map_cons, cons_append, length_cons, takeKey]
    exact congrArg (cons first) ih

theorem write_patch {set : SetNode κ} (h : patchSet json table patch v row = .ok set)
    (stored : StoredTable φ) :
    ∃ write : TableWrite φ, patchRow json table patch v row = .ok write ∧
      stored.write write = (stored.sql.update (boundSet json table set v)
        fun each => keyBy table.key each = keyBy table.key row).map stored.withSql := by
  refine ⟨_, by rw [patchRow, h]; rfl, ?_⟩
  have hlength : table.key.length = (keyBy table.key row).length := (length_map _).symm
  rw [StoredTable.write, bind_stampedSql]
  dsimp only
  rw [hlength, ← append_nil ((keyBy table.key row).map Param.value), takeKey_map]

theorem write_updateWhere (stored : StoredTable φ)
    {assignments bound : List (PhysicalColumn × SqlExpr)} {condition holds : SqlCondition}
    {params rest left : List Param} (hset : bindSet assignments params = (bound, rest))
    (hcondition : condition.bind rest = (holds, left)) :
    stored.write (.updateWhere assignments condition params) =
      (stored.sql.update bound fun row => holds.eval row = some true).map stored.withSql := by
  have hbound : bound = (bindSet assignments params).1 := by rw [hset]
  have hholds : holds = (condition.bind (bindSet assignments params).2).1 := by
    rw [hset, hcondition]
  subst hbound hholds
  rfl

theorem sqlAnd_true {a b : Truth} : sqlAnd a b = some true ↔ a = some true ∧ b = some true := by
  revert a b
  decide

theorem write_updateStep (json : JsonCodec κ) (v : ℕ) (stored : StoredTable φ)
    (table : TableDefinition κ) (where' : Option WhereNode) (set : SetNode κ) :
    stored.write (updateStep json table where' set v) =
      (stored.sql.update (boundSet json table set v)
        fun row => whereHolds where' row && below v row).map stored.withSql := by
  cases where' with
  | none =>
    exact write_updateWhere stored
      (bind_stampedSql json table set v [.value (.integer v)]) rfl
  | some where' =>
    have hrender := (positional_where where').render (stampedSql json table set v).2
    have hset := bind_stampedSql json table set v
      ((whereSql where' []).2 ++ [.value (.integer v)])
    have hwhere := (positional_where where').bind [.value (.integer v)]
    have hcondition : (SqlCondition.and (whereSql where' []).1
          (.compare .lt (.column .rowVersion) .param)).bind
        ((whereSql where' []).2 ++ [.value (.integer v)]) =
          (.and ((whereSql where' []).bound SqlCondition.bind)
            (.compare .lt (.column .rowVersion) (.bound (.integer v))), []) := by
      rw [SqlCondition.bind, hwhere]
      rfl
    have hwrite := write_updateWhere stored hset hcondition
    rw [updateStep]
    simp only [belowSql, hrender, append_assoc]
    refine hwrite.trans (congrArg (Option.map _) (congrArg (stored.sql.update _)
      (funext fun row => ?_)))
    rw [SqlCondition.eval]
    exact (decide_eq_decide.mpr sqlAnd_true).trans (Bool.decide_and _ _)

end Steps

end KnightCode.Store
