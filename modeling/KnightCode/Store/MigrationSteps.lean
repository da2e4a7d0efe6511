import KnightCode.Store.Chunks

/-!
# A commit of a migration

A commit leaves a table that may stand under the history, and of each row what remained before the
commit is what remains after it; or a row cannot be brought through, and nothing is written. In a
`rows` step the rows still below the version come after the last key of the chunks made.
-/

namespace KnightCode.Store

open List Option

variable {κ φ : Type} {json : JsonCodec κ} {fingerprint : TableVersion κ → φ}
  {history : TableHistory json} {stored : StoredTable φ} {middle : Shape κ}
  {migration : Migration κ} {version : TableVersion κ}
  {rest versions : Versions κ}
variable {rows : Rows}

/-! ### Rows -/

variable {row : PhysicalRow} {v : ℕ}

theorem below_iff {n : ℤ} (h : row .rowVersion = .integer n) :
    below v row = true ↔ n < v := by
  unfold below sqlCompare
  rw [h, if_neg (by simp), decide_eq_true_iff, some_inj, Comparison.sqlHolds,
    decide_eq_true_iff, SqlValue.compare, compare_lt_iff_lt]

theorem RowsFit.mono {key : List String} {v w : ℕ} (h : RowsFit key v rows) (hle : v ≤ w) :
    RowsFit key w rows := by
  refine ⟨h.distinct, h.keyed, fun row hrow => ?_⟩
  obtain ⟨n, hn, hstamp⟩ := h.stamped row hrow
  exact ⟨n, hn, by omega⟩

theorem RowsFit.stepped {key : List String} {rows' : Rows} (h : RowsFit key v rows)
    (hrows : List.Forall₂ (fun row after => keyBy key after = keyBy key row ∧
      (after .rowVersion = .integer v ∨ after .rowVersion = row .rowVersion)) rows rows') :
    RowsFit key v rows' := by
  have hkeys : rows.map (keyBy key) = rows'.map (keyBy key) :=
    Pointwise.map_eq (Pointwise.imp hrows fun _ _ _ h => h.1.symm)
  refine ⟨hkeys ▸ h.distinct, fun after hafter name hname => ?_, fun after hafter => ?_⟩
  · obtain ⟨row, hrow, hkey, -⟩ := Pointwise.exists_left hrows hafter
    have hsame : after (.cell name) = row (.cell name) := map_inj_left.mp hkey name hname
    exact hsame ▸ h.keyed row hrow name hname
  · obtain ⟨row, hrow, -, hstamp | hstamp⟩ := Pointwise.exists_left hrows hafter
    · exact ⟨v, hstamp, le_refl _⟩
    · rw [hstamp]
      exact h.stamped row hrow

/-! ### Edits and records -/

theorem commit_edits (stored : StoredTable φ) (edits : List TableEdit) :
    stored.commit (edits.map .edit) = stored.applyEdits edits := by
  rw [StoredTable.commit, foldlM_map]
  rfl

theorem Stands.table (h : Stands stored middle) {columns : List (Column κ)}
    (hcolumns : columns = middle.columns) (v : ℕ) (state : TableState) (print : φ) :
    Stands { stored with record := ⟨v, state, recordedColumns columns, middle.key, print,
      stored.record.indexes⟩ } middle :=
  { h with columns := congrArg recordedColumns hcolumns, key := rfl }

/-- A table brought to a version by the commit that ends its migration. -/
structure Readied (fingerprint : TableVersion κ → φ) (version : TableVersion κ)
    (rows : Rows) (after : StoredTable φ) : Prop where
  stands : Stands after version.shape
  state : after.record.state = .ready
  recorded : after.record.version = version.table.version
  named : fingerprint version = after.record.fingerprint
  rows : after.sql.rows = rows

/-- The writes that end a migration. -/
def ending (fingerprint : TableVersion κ → φ) (migration : Migration κ) (version : TableVersion κ) :
    List (TableWrite φ) :=
  migration.after.map .edit ++ [recordOf fingerprint version.table version .ready]

theorem commit_ready (fingerprint : TableVersion κ → φ) (version : TableVersion κ)
    (hstands : Stands stored middle) (hvalid : middle.Valid)
    (hafter : Edits middle migration.after version.shape) :
    ∃ after, stored.commit (ending fingerprint migration version) = some after ∧
      Readied fingerprint version
        (stored.sql.rows.map (editsRow stored.record.columns migration.after)) after ∧
      ∀ row, keyBy version.table.key (editsRow stored.record.columns migration.after row) =
          keyBy middle.key row ∧
        editsRow stored.record.columns migration.after row .rowVersion = row .rowVersion := by
  obtain ⟨edited, hedited, happlied⟩ := hafter.applied hstands hvalid
  refine ⟨_, by rw [ending, commit_append, commit_edits, hedited]; rfl,
    ⟨happlied.stands.table rfl version.table.version .ready (fingerprint version), rfl, rfl, rfl,
      happlied.rows⟩, fun row => ⟨happlied.key row, happlied.stamp row⟩⟩

variable {after : StoredTable φ} {before : Versions κ}

theorem Readied.standing (h : Readied fingerprint version rows after)
    (hlater : history.later = before ++ (migration, version) :: rest)
    (hrows : RowsFit version.table.key version.table.version rows) :
    Standing fingerprint history after rest := by
  have hnewest : newestOf history.base (before ++ [(migration, version)]) = version := by
    rw [newestOf_append]
    rfl
  have hall : history.later = (before ++ [(migration, version)]) ++ rest := hlater.trans (by simp)
  refine .ready ⟨hall, h.state, ?_, ?_, ?_, ?_⟩
  · rw [hnewest]
    exact h.recorded
  · rw [hnewest]
    exact h.named
  · rw [hnewest]
    exact h.stands
  · rw [h.rows, h.recorded, h.stands.key]
    exact hrows

theorem Readied.remains (h : Readied fingerprint version rows after) (row : PhysicalRow) :
    remaining json after.record.state after.record.columns rest row =
      upgrade json (recordedColumns version.table.columns) rest row := by
  rw [h.state, h.stands.columns]
  rfl

/-! ### Progress -/

def StageFits (stored : StoredTable φ) (versions : Versions κ) :
    Stage → Prop
  | .begin => stored.record.state = .ready
  | .step after => stored.record.state = .migrating ∧ ∀ next ∈ versions.head?,
      ∀ row ∈ stored.sql.rows, below next.2.table.version row = true →
        ∀ last ∈ after, rowCompare (keyBy stored.record.key row) last = .gt

def ProgressFits (stored : StoredTable φ) (versions : Versions κ) :
    Progress κ → Prop
  | .migrate through stage => through = versions ∧ StageFits stored versions stage
  | .ready => versions = [] ∧ stored.record.state = .ready
  | _ => False

/-- The commits of an activation are at most this many. -/
def work (stored : StoredTable φ) : Progress κ → ℕ
  | .migrate versions .begin => versions.length * (stored.sql.rows.length + 2) + 1
  | .migrate (next :: rest) (.step _) => rest.length * (stored.sql.rows.length + 2) + 1 +
      (stored.sql.rows.countP (below next.2.table.version) + 1)
  | .migrate [] (.step _) => 1
  | _ => 0

/-- What a commit gives: less work, every row with what remained of it; or an error because of a
row. -/
def Proceeds (json : JsonCodec κ) (fingerprint : TableVersion κ → φ) (history : TableHistory json)
    (stored : StoredTable φ) (versions : Versions κ) (stage : Stage)
    (result : Except (Option String) (StoredTable φ × Progress κ)) : Prop :=
  (∃ error, result = .error error ∧ ∃ row ∈ stored.sql.rows,
    remaining json stored.record.state stored.record.columns versions row = none) ∨
  ∃ after through progress, result = .ok (after, progress) ∧
    Standing fingerprint history after through ∧ ProgressFits after through progress ∧
    work after progress < work stored (.migrate versions stage) ∧
    List.Forall₂ (fun row row' => remaining json stored.record.state stored.record.columns versions
      row = remaining json after.record.state after.record.columns through row')
      stored.sql.rows after.sql.rows

theorem work_next (after : StoredTable φ) (rest : Versions κ)
    {count : ℕ} (h : after.sql.rows.length = count) :
    work after (.migrate rest .begin) = rest.length * (count + 2) + 1 := by
  rw [work, h]

variable {writes : List (TableWrite φ)}

theorem Proceeds.ready {stage : Stage} (hcommit : stored.commit writes = some after)
    (hready : Readied fingerprint version rows after)
    (hlater : history.later = before ++ (migration, version) :: rest)
    (hfits : RowsFit version.table.key version.table.version rows)
    (hwork : rest.length * (stored.sql.rows.length + 2) + 1 <
      work stored (.migrate ((migration, version) :: rest) stage))
    (hrows : List.Forall₂ (fun row row' =>
      remaining json stored.record.state stored.record.columns ((migration, version) :: rest) row =
        upgrade json (recordedColumns version.table.columns) rest row') stored.sql.rows rows) :
    Proceeds json fingerprint history stored ((migration, version) :: rest) stage
      (stored.proceed writes (.migrate rest .begin)) := by
  have hlength : after.sql.rows.length = stored.sql.rows.length := by
    rw [hready.rows]
    exact hrows.length_eq.symm
  refine .inr ⟨after, rest, .migrate rest .begin, ?_, hready.standing hlater hfits,
    ⟨rfl, hready.state⟩, ?_, ?_⟩
  · rw [StoredTable.proceed, hcommit]
  · rw [work_next after rest hlength]
    exact hwork
  · rw [hready.rows]
    exact hrows.imp fun row row' h => h.trans (hready.remains row').symm

section Steps

variable {before : Versions κ}
variable {step : DataStep κ}

/-- A table at the start of a migration. -/
structure Starting (fingerprint : TableVersion κ → φ) (history : TableHistory json)
    (stored : StoredTable φ) (before rest : Versions κ)
    (migration : Migration κ) (version : TableVersion κ) (middle : Shape κ) : Prop
    extends Rested fingerprint history stored before ((migration, version) :: rest) where
  opens : Edits (newestOf history.base before).shape migration.before middle
  closes : Edits middle migration.after version.shape
  lt : (newestOf history.base before).table.version < version.table.version

theorem Starting.edited (h : Starting fingerprint history stored before rest migration version middle)
    {edited : StoredTable φ}
    (happlied : AppliedAll stored (newestOf history.base before).shape migration.before middle
      edited) :
    RowsFit middle.key version.table.version edited.sql.rows := by
  rw [happlied.rows]
  refine (h.rows.mono (h.recorded.trans_le h.lt.le)).map (fun row => ?_) happlied.stamp
  rw [happlied.key, h.stands.key]

theorem proceeds_plain (hstep : migration.step = none)
    (h : Starting fingerprint history stored before rest migration version middle) :
    Proceeds json fingerprint history stored ((migration, version) :: rest) .begin
      (stored.proceed (migration.before.map .edit ++ ending fingerprint migration version)
        (.migrate rest .begin)) := by
  have hprevious := (newestOf history.base before).valid
  obtain ⟨edited, hedited, happlied⟩ := h.opens.applied h.stands hprevious
  obtain ⟨after, hcommit, hready, hkept⟩ :=
    commit_ready fingerprint version happlied.stands (h.opens.valid hprevious) h.closes
  have hall : stored.commit
      (migration.before.map .edit ++ ending fingerprint migration version) = some after := by
    rw [commit_append, commit_edits, hedited, bind_some, hcommit]
  refine .ready hall hready h.later ?_ ?_ ?_
  · exact (h.edited happlied).map (fun row => (hkept row).1) fun row => (hkept row).2
  · rw [work, length_cons, add_mul]
    omega
  · rw [happlied.rows, List.map_map, forall₂_map_right_iff]
    refine forall₂_same.mpr fun row _ => ?_
    rw [h.state, remaining, upgrade, upgradeTo, Migration.row, hstep, happlied.columns]
    rfl

theorem proceeds_begin (hstep : migration.step = some step)
    (hon : StepOn middle version.table.version step)
    (h : Starting fingerprint history stored before rest migration version middle) :
    Proceeds json fingerprint history stored ((migration, version) :: rest) .begin
      (stored.proceed (migration.before.map .edit ++
          [recordOf fingerprint step.table version .migrating])
        (.migrate ((migration, version) :: rest) (.step none))) := by
  obtain ⟨edited, hedited, happlied⟩ :=
    h.opens.applied h.stands (newestOf history.base before).valid
  have hfits := h.edited happlied
  let after : StoredTable φ := { edited with
    record := ⟨version.table.version, .migrating, recordedColumns step.table.columns, middle.key,
      fingerprint version, edited.record.indexes⟩ }
  have hcommit : stored.commit (migration.before.map .edit ++
      [recordOf fingerprint step.table version .migrating]) = some after := by
    rw [commit_append, commit_edits, hedited, recordOf, hon.key]
    rfl
  have hcolumns : recordedColumns step.table.columns = edited.record.columns := by
    rw [hon.columns, happlied.stands.columns]
    rfl
  refine .inr ⟨after, (migration, version) :: rest, .migrate ((migration, version) :: rest)
    (.step none), ?_, ?_, ⟨rfl, rfl, fun next _ row _ _ last hlast => by cases hlast⟩, ?_, ?_⟩
  · rw [StoredTable.proceed, hcommit]
  · exact .migrating ⟨h.later, h.opens, h.closes, hstep, hon, rfl, rfl, rfl,
      happlied.stands.table hon.columns version.table.version .migrating (fingerprint version),
      hfits⟩
  · have hlength : edited.sql.rows.length = stored.sql.rows.length := by
      rw [happlied.rows, length_map]
    have hcount : edited.sql.rows.countP (below version.table.version) ≤
        stored.sql.rows.length := hlength ▸ countP_le_length
    have hwork : work after (.migrate ((migration, version) :: rest) (.step none)) =
        rest.length * (edited.sql.rows.length + 2) + 1 +
          (edited.sql.rows.countP (below version.table.version) + 1) := rfl
    rw [hwork, work, length_cons, add_mul, hlength]
    omega
  · rw [happlied.rows, forall₂_map_right_iff]
    refine forall₂_same.mpr fun row hrow => ?_
    obtain ⟨n, hn, hstamp⟩ := h.rows.stamped row hrow
    have hlt := h.recorded.trans_lt h.lt
    have hbelow : below version.table.version
        (editsRow stored.record.columns migration.before row) = true :=
      (below_iff ((happlied.stamp row).trans hn)).mpr (by omega)
    rw [h.state, remaining, upgrade, upgradeTo, ← happlied.columns, ← hcolumns]
    exact congrArg (fun stepped => (Option.map _ stepped).bind _)
      (if_pos hbelow).symm

theorem stepBelow_kept (hstep : migration.step = some step) (hon : StepOn middle v step)
    {row row' : PhysicalRow} (h : migration.stepBelow json v row = some row') :
    keyBy middle.key row' = keyBy middle.key row ∧
      (row' .rowVersion = .integer v ∨ row' .rowVersion = row .rowVersion) := by
  unfold Migration.stepBelow Migration.row at h
  rw [hstep] at h
  split_ifs at h with hbelow
  · have hstepped := DataStep.row_stepped hon h
    refine ⟨map_congr_left fun name hname => ?_, hstepped.stamp⟩
    exact hstepped.key name (hon.key ▸ hname)
  · obtain rfl := Option.some.inj h
    exact ⟨rfl, .inr rfl⟩

section Midway

variable (h : Midway fingerprint history stored before rest migration version middle step)
include h

theorem Midway.remaining_none (hnone : migration.stepBelow json version.table.version row = none) :
    remaining json stored.record.state stored.record.columns ((migration, version) :: rest) row =
      none := by
  rw [h.state, remaining, hnone]
  rfl

theorem Midway.sqlColumns : stored.sql.columns = step.table.shape.sqlColumns := by
  have hsame : middle.columns = step.table.shape.columns := h.on.columns.symm
  rw [h.stands.sqlColumns]
  unfold Shape.sqlColumns Shape.column
  rw [hsame]

theorem Midway.stepped (hchanged : List.Forall₂ (fun row row' =>
      migration.stepBelow json version.table.version row = some row' ∨ row' = row)
      stored.sql.rows rows) :
    RowsFit stored.record.key stored.record.version rows := by
  refine h.rows.stepped (hchanged.imp fun row row' hrow => ?_)
  obtain hmade | rfl := hrow
  · rw [h.stands.key, h.recorded]
    exact stepBelow_kept h.makes h.on hmade
  · exact ⟨rfl, .inr rfl⟩

theorem Midway.proceeds_done
    (hwrites : stored.commit writes = some (stored.withSql { stored.sql with rows := rows }))
    (hchanged : List.Forall₂ (fun row row' =>
      migration.stepBelow json version.table.version row = some row') stored.sql.rows rows)
    (after : Option Key) :
    Proceeds json fingerprint history stored ((migration, version) :: rest) (.step after)
      (stored.proceed (writes ++ ending fingerprint migration version) (.migrate rest .begin)) := by
  obtain ⟨last, hcommit, hready, hkept⟩ := commit_ready fingerprint version (h.stands.rows rows)
    (h.opens.valid (newestOf history.base before).valid) h.closes
  have hall : stored.commit (writes ++ ending fingerprint migration version) = some last := by
    rw [commit_append, hwrites, bind_some]
    exact hcommit
  have hfits : RowsFit middle.key version.table.version rows := by
    rw [← h.stands.key, ← h.recorded]
    exact h.stepped (hchanged.imp fun _ _ => .inl)
  refine .ready hall hready h.later ?_ ?_ ?_
  · exact hfits.map (fun row => (hkept row).1) fun row => (hkept row).2
  · rw [work]
    omega
  · rw [forall₂_map_right_iff]
    refine hchanged.imp fun row row' hrow => ?_
    rw [h.state, remaining, hrow]
    rfl

end Midway

theorem proceeds_update {table : TableDefinition κ} {where' : Option WhereNode} {set : SetNode κ}
    (h : Midway fingerprint history stored before rest migration version middle
      (.update table where' set)) (after : Option Key) :
    Proceeds json fingerprint history stored ((migration, version) :: rest) (.step after)
      (stored.proceed (updateStep json table where' set version.table.version ::
        ending fingerprint migration version) (.migrate rest .begin)) := by
  have hrow : ∀ row, migration.stepBelow json version.table.version row =
      if (whereHolds where' row && below version.table.version row) = true then
        updateRow stored.sql.columns (boundSet json table set version.table.version) row
      else some row := by
    intro row
    unfold Migration.stepBelow Migration.row
    rw [h.makes, h.sqlColumns]
    dsimp only
    rw [DataStep.row]
    cases below version.table.version row <;> cases whereHolds where' row <;> rfl
  have hwrite := write_updateStep json version.table.version stored table where' set
  rw [SqlTable.update, ← funext hrow] at hwrite
  cases hmap : stored.sql.rows.mapM (migration.stepBelow json version.table.version) with
  | none =>
    rw [hmap] at hwrite
    obtain ⟨row, hmem, hnone⟩ := Pointwise.exists_of_mapM hmap
    refine .inl ⟨none, ?_, row, hmem, h.remaining_none hnone⟩
    rw [StoredTable.proceed, StoredTable.commit, foldlM_cons, hwrite]
    rfl
  | some rows =>
    rw [hmap] at hwrite
    have hcommit : stored.commit [updateStep json table where' set version.table.version] =
        some (stored.withSql { stored.sql with rows := rows }) := by
      rw [StoredTable.commit, foldlM_cons, hwrite]
      rfl
    rw [← singleton_append]
    exact h.proceeds_done hcommit (Pointwise.of_mapM hmap) after

/-! ### A chunk -/

section Chunk

variable {table : TableDefinition κ} {patch : Row κ → Option (List (String × Plain κ))}
variable {after : Option Key}

/-- The rows of one chunk. -/
def chunkOf (stored : StoredTable φ) (key : List String) (v : ℕ) (after : Option Key) : Rows :=
  (inOrder stored.sql key v after).take MIGRATION_CHUNK

/-- A row of the chunk is stepped and stamped, any other is left. -/
def ChunkStepped (json : JsonCodec κ) (migration : Migration κ) (v : ℕ) (chunk : Rows)
    (row row' : PhysicalRow) : Prop :=
  (row ∈ chunk ∧ migration.stepBelow json v row = some row' ∧ row' .rowVersion = .integer v) ∨
    (row ∉ chunk ∧ row' = row)

theorem below_stamped (h : row .rowVersion = .integer v) :
    below v row = false :=
  Bool.eq_false_iff.mpr fun hunder => absurd ((below_iff h).mp hunder) (lt_irrefl _)

variable (h : Midway fingerprint history stored before rest migration version middle
  (.rows table patch))
include h

theorem Midway.key : table.key = stored.record.key :=
  h.on.key.trans h.stands.key.symm

theorem Midway.distinct : (stored.sql.rows.map (keyBy table.key)).Nodup :=
  h.key ▸ h.rows.distinct

theorem Midway.chunk_nodup :
    ((chunkOf stored table.key version.table.version after).map (keyBy table.key)).Nodup := by
  have hordered : ((inOrder stored.sql table.key version.table.version after).map
      (keyBy table.key)).Nodup :=
    ((mergeSort_perm _ _).map _).nodup_iff.mpr (h.distinct.sublist (filter_sublist.map _))
  exact hordered.sublist ((take_sublist _ _).map _)

variable (hstage : StageFits stored ((migration, version) :: rest) (.step after))
include hstage

theorem Midway.mem_inOrder (row : PhysicalRow) :
    row ∈ inOrder stored.sql table.key version.table.version after ↔
      row ∈ stored.sql.rows ∧ below version.table.version row = true := by
  refine Store.mem_inOrder.trans (and_congr_right fun hrow => and_iff_left_of_imp fun hbelow => ?_)
  rw [h.key]
  exact hstage.2 _ rfl row hrow hbelow

theorem Midway.mem_chunk (hrow : row ∈ chunkOf stored table.key version.table.version after) :
    row ∈ stored.sql.rows ∧ below version.table.version row = true :=
  (h.mem_inOrder hstage row).mp (mem_of_mem_take hrow)

theorem Midway.eq_of_chunk {row other : PhysicalRow} (hrow : row ∈ stored.sql.rows)
    (hother : other ∈ chunkOf stored table.key version.table.version after)
    (heq : keyBy table.key other = keyBy table.key row) :
    row ∈ chunkOf stored table.key version.table.version after :=
  eq_of_key h.distinct (h.mem_chunk hstage hother).1 hrow heq ▸ hother

theorem Midway.chunk_fails (hrow : row ∈ chunkOf stored table.key version.table.version after)
    (hnone : (DataStep.rows table patch).row json version.table.version row = none) :
    ∃ row ∈ stored.sql.rows, remaining json stored.record.state stored.record.columns
      ((migration, version) :: rest) row = none := by
  obtain ⟨hmem, hunder⟩ := h.mem_chunk hstage hrow
  refine ⟨row, hmem, h.remaining_none ?_⟩
  rw [Migration.stepBelow, if_pos hunder, Migration.row, h.makes]
  exact hnone

theorem Midway.chunk_stepped (hchanged : List.Forall₂ (fun row after' =>
      if keyBy table.key row ∈
        (chunkOf stored table.key version.table.version after).map (keyBy table.key) then
        (DataStep.rows table patch).row json version.table.version row = some after'
      else after' = row) stored.sql.rows rows) :
    List.Forall₂ (fun row row' => row ∈ stored.sql.rows ∧
      ChunkStepped json migration version.table.version
        (chunkOf stored table.key version.table.version after) row row') stored.sql.rows rows := by
  refine Pointwise.imp hchanged fun row hrow row' hrow' => ⟨hrow, ?_⟩
  by_cases hown : row ∈ chunkOf stored table.key version.table.version after
  · rw [if_pos (mem_map_of_mem hown)] at hrow'
    refine .inl ⟨hown, ?_, (DataStep.row_stepped h.on hrow').stamped table patch rfl⟩
    rw [Migration.stepBelow, if_pos (h.mem_chunk hstage hown).2, Migration.row, h.makes]
    exact hrow'
  · rw [if_neg] at hrow'
    · exact .inr ⟨hown, hrow'⟩
    · intro hin
      obtain ⟨other, hother, heq⟩ := mem_map.mp hin
      exact hown (h.eq_of_chunk hstage hrow hother heq)

variable (hstepped : List.Forall₂ (fun row row' => row ∈ stored.sql.rows ∧
  ChunkStepped json migration version.table.version
    (chunkOf stored table.key version.table.version after) row row') stored.sql.rows rows)
include hstepped

/-- The last chunk: no row is left below the version. -/
theorem Midway.proceeds_last
    (hlength : (inOrder stored.sql table.key version.table.version after).length ≤ MIGRATION_CHUNK)
    (hcommit : stored.commit writes = some (stored.withSql { stored.sql with rows := rows })) :
    Proceeds json fingerprint history stored ((migration, version) :: rest) (.step after)
      (stored.proceed (writes ++ ending fingerprint migration version) (.migrate rest .begin)) := by
  refine h.proceeds_done hcommit (hstepped.imp fun row row' hrow => ?_) after
  obtain ⟨hmem, ⟨-, hmade, -⟩ | ⟨hout, rfl⟩⟩ := hrow
  · exact hmade
  · rw [Migration.stepBelow, if_neg]
    refine fun hunder => hout ?_
    rw [chunkOf, take_of_length_le hlength]
    exact (h.mem_inOrder hstage row').mpr ⟨hmem, hunder⟩

variable {last : PhysicalRow} (hfound : (inOrder stored.sql table.key version.table.version
  after)[MIGRATION_CHUNK - 1]? = some last)
include hfound

omit h hstage hstepped in
theorem last_mem_chunk : last ∈ chunkOf stored table.key version.table.version after := by
  refine mem_of_getElem? (i := MIGRATION_CHUNK - 1) ?_
  rw [chunkOf, getElem?_take_of_lt (by decide)]
  exact hfound

/-- The rows still below the version come after the chunk's last key. -/
theorem Midway.chunk_behind {row' : PhysicalRow} (hrow' : row' ∈ rows)
    (hunder : below version.table.version row' = true) :
    rowCompare (keyBy stored.record.key row') (keyBy table.key last) = .gt := by
  obtain ⟨row, -, hrow, ⟨-, -, hstamp⟩ | ⟨hout, rfl⟩⟩ := Pointwise.exists_left hstepped hrow'
  · rw [below_stamped hstamp] at hunder
    cases hunder
  · have hlast := last_mem_chunk hfound
    have hle := inOrder_behind hfound ((h.mem_inOrder hstage row').mpr ⟨hrow, hunder⟩) hout
    have hne : rowCompare (keyBy table.key last) (keyBy table.key row') ≠ .eq := by
      intro heq
      have hkeyed : ∀ row ∈ stored.sql.rows, ∀ value ∈ keyBy table.key row, value.Keyed := by
        intro row hrow value hvalue
        obtain ⟨name, hname, rfl⟩ := mem_map.mp hvalue
        exact h.rows.keyed row hrow name (h.key ▸ hname)
      have hsame := eq_of_rowCompare (hkeyed last (h.mem_chunk hstage hlast).1)
        (hkeyed row' hrow) heq
      exact hout (h.eq_of_chunk hstage hrow hlast hsame)
    rw [← h.key]
    exact Std.OrientedCmp.gt_of_lt ((Ordering.isLE_iff_eq_lt_or_eq_eq.mp hle).resolve_right hne)

theorem Midway.chunk_count : rows.countP (below version.table.version) <
    stored.sql.rows.countP (below version.table.version) := by
  have hlast := last_mem_chunk hfound
  refine Pointwise.countP_lt hstepped (fun row row' hrow hunder => ?_)
    ⟨last, (h.mem_chunk hstage hlast).1, (h.mem_chunk hstage hlast).2, ?_⟩
  · obtain ⟨-, ⟨-, -, hstamp⟩ | ⟨-, rfl⟩⟩ := hrow
    · rw [below_stamped hstamp] at hunder
      cases hunder
    · exact hunder
  · rintro row' ⟨-, ⟨-, -, hstamp⟩ | ⟨hout, -⟩⟩
    · exact below_stamped hstamp
    · exact absurd hlast hout

/-- A chunk that is not the last. -/
theorem Midway.proceeds_chunk
    (hcommit : stored.commit writes = some (stored.withSql { stored.sql with rows := rows })) :
    Proceeds json fingerprint history stored ((migration, version) :: rest) (.step after)
      (stored.proceed writes (.migrate ((migration, version) :: rest)
        (.step (some (keyBy table.key last))))) := by
  rw [StoredTable.proceed, hcommit]
  refine .inr ⟨_, (migration, version) :: rest, _, rfl, ?_, ⟨rfl, h.state, ?_⟩, ?_, ?_⟩
  · refine .migrating { h with
      stands := h.stands.rows rows
      rows := h.stepped (hstepped.imp fun row row' hrow => ?_) }
    obtain ⟨-, ⟨-, hmade, -⟩ | ⟨-, hsame⟩⟩ := hrow
    · exact .inl hmade
    · exact .inr hsame
  · intro next hnext row' hrow' hunder key hlastKey
    cases hnext
    cases hlastKey
    exact h.chunk_behind hstage hstepped hfound hrow' hunder
  · have hcount := h.chunk_count hstage hstepped hfound
    have hwork : work (stored.withSql { stored.sql with rows := rows })
        (.migrate ((migration, version) :: rest) (.step (some (keyBy table.key last)))) =
          rest.length * (rows.length + 2) + 1 +
            (rows.countP (below version.table.version) + 1) := rfl
    rw [hwork, work, ← hstepped.length_eq]
    dsimp only
    omega
  · refine hstepped.imp fun row row' hrow => ?_
    obtain ⟨-, ⟨-, hmade, hstamp⟩ | ⟨-, rfl⟩⟩ := hrow
    · have hagain : migration.stepBelow json version.table.version row' = some row' := by
        rw [Migration.stepBelow, below_stamped hstamp]
        rfl
      have hrecord : (stored.withSql { stored.sql with rows := rows }).record =
        stored.record := rfl
      rw [hrecord, h.state, remaining, remaining, hmade, hagain]
    · rfl

omit hstepped hfound in
theorem Midway.proceeds_rows :
    Proceeds json fingerprint history stored ((migration, version) :: rest) (.step after)
      (migrateSteps json fingerprint stored version migration rest (.step after)) := by
  have hchunk : (page stored.sql table.key version.table.version after
      (MIGRATION_CHUNK + 1)).take MIGRATION_CHUNK =
      chunkOf stored table.key version.table.version after := by
    rw [page_eq, take_take]
    rfl
  unfold migrateSteps
  rw [h.makes]
  dsimp only
  rw [hchunk]
  cases hwrites : (chunkOf stored table.key version.table.version after).mapM (patchRow json table
      patch version.table.version : PhysicalRow → Except String (TableWrite φ)) with
  | error error =>
    obtain ⟨row, hrow, herror⟩ := exists_of_mapM_error hwrites
    exact .inl ⟨some error, rfl, h.chunk_fails hstage hrow (row_of_patchRow herror)⟩
  | ok writes =>
    dsimp only
    obtain ⟨hnone, row, hrow, hfail⟩ | ⟨rows, hcommit, hchanged⟩ :=
      commit_patches hwrites h.sqlColumns h.distinct h.chunk_nodup fun row hrow =>
        (h.mem_chunk hstage hrow).1
    · refine .inl ⟨none, ?_, h.chunk_fails hstage hrow hfail⟩
      split_ifs
      · rw [StoredTable.proceed, commit_append, hnone]
        rfl
      · rw [StoredTable.proceed, hnone]
    have hstepped := h.chunk_stepped hstage hchanged
    split_ifs with hlast
    · rw [page_eq, length_take] at hlast
      exact h.proceeds_last hstage hstepped (by omega) hcommit
    · rw [page_eq, length_take] at hlast
      have hlength : MIGRATION_CHUNK - 1 <
          (inOrder stored.sql table.key version.table.version after).length := by omega
      obtain ⟨last, hfound⟩ : ∃ last, (inOrder stored.sql table.key version.table.version
          after)[MIGRATION_CHUNK - 1]? = some last := ⟨_, getElem?_eq_getElem hlength⟩
      have hpage : (page stored.sql table.key version.table.version after
          (MIGRATION_CHUNK + 1))[MIGRATION_CHUNK - 1]? = some last := by
        rw [page_eq, getElem?_take_of_lt (by decide)]
        exact hfound
      rw [hpage]
      exact h.proceeds_chunk hstage hstepped hfound hcommit

end Chunk

end Steps

theorem Standing.ready_of_nil (h : Standing fingerprint history stored []) :
    stored.record.state = .ready := by
  cases h with
  | ready h => exact h.state

theorem Standing.proceeds (h : Standing fingerprint history stored versions) {stage : Stage}
    (hstage : StageFits stored versions stage) :
    Proceeds json fingerprint history stored versions stage
      (migrateTable json fingerprint stored versions stage) := by
  have hstanding := h
  cases h with
  | @ready before versions h =>
    cases versions with
    | nil =>
      refine .inr ⟨stored, [], .ready, rfl, hstanding, ⟨rfl, h.state⟩, ?_,
        forall₂_same.mpr fun row _ => rfl⟩
      cases stage <;> exact Nat.succ_pos _
    | cons next rest =>
      obtain ⟨migration, version⟩ := next
      have hevolved := history.evolved
      rw [h.later] at hevolved
      obtain ⟨-, ⟨calls, hcalls⟩, -⟩ := hevolved.of_append
      obtain ⟨hnext, middle, hbefore, hafter, hon⟩ := evolveTable_edits hcalls
      have hlt : (newestOf history.base before).table.version < version.table.version := by omega
      cases stage with
      | step after => cases h.state.symm.trans hstage.1
      | begin =>
        rw [migrateTable]
        unfold migrateSteps
        cases hstep : migration.step with
        | none =>
          exact proceeds_plain hstep ⟨h, hbefore, hafter, hlt⟩
        | some step =>
          exact proceeds_begin hstep (hon step hstep) ⟨h, hbefore, hafter, hlt⟩
  | @migrating before rest migration version middle step h =>
    cases stage with
    | begin => cases h.state.symm.trans hstage
    | step after =>
      rw [migrateTable]
      cases step with
      | rows table patch =>
        exact h.proceeds_rows hstage
      | update table where' set =>
        unfold migrateSteps
        rw [h.makes]
        exact proceeds_update h after

end KnightCode.Store
