import KnightCode.Library.Pointwise
import KnightCode.Store.Puts
import KnightCode.Store.TableChanges

/-!
# The overlay and the execution

A transaction's writes are followed key by key with unbounded integers. Executing the staged
statements leaves the rows so reached, or fails: exactly when some update of a row assigns an
integer outside the safe range. `get` gives the key's row, or refuses: exactly when an update it
replays reaches a sum or difference outside. The two conditions differ, and where they do the
overlay disagrees with the execution. So it does where a value of a `json(...)` cell is not what its
text is read as.
-/

namespace KnightCode.Store

variable {κ : Type} {json : JsonCodec κ} {table : TableDefinition κ}
variable {stored : PhysicalRow} {row : Row κ} {rows : Rows} {rowOf : Key → Option (Row κ)}
  {given : String → Option (Plain κ)} {givenOf : Key → String → Option (Plain κ)}
  {key : Key} {changes : TableChanges κ}

/-! ### Rows with unbounded integers -/

def KeyWrite.exact (write : KeyWrite κ) (row : Option (Row κ)) : Option (Row κ) :=
  match write with
  | .put row => some row
  | .update set => row.map (exactSet set)
  | .delete => none

def rowAfter (row : Option (Row κ)) (writes : List (KeyWrite κ)) : Option (Row κ) :=
  writes.foldl (fun row write => write.exact row) row

/-- The values the writes of a transaction gave the `json(...)` cells of a row. -/
def KeyWrite.gives (write : KeyWrite κ) (given : String → Option (Plain κ)) :
    String → Option (Plain κ) :=
  match write with
  | .put row => fun name => Cell.jsonValue (row name)
  | .update set => givenSet set given
  | .delete => fun _ => none

def givenAfter (given : String → Option (Plain κ)) (writes : List (KeyWrite κ)) :
    String → Option (Plain κ) :=
  writes.foldl (fun given write => write.gives given) given

/-- An update of a row with an expression that is `test`. -/
def KeyWrite.has (test : Row κ → ExprNode κ → Bool) (write : KeyWrite κ) (row : Option (Row κ)) :
    Bool :=
  match write, row with
  | .update set, some row => set.any fun entry => test row entry.2
  | _, _ => false

def anyWrite (test : Row κ → ExprNode κ → Bool) : Option (Row κ) → List (KeyWrite κ) → Bool
  | _, [] => false
  | row, write :: rest => write.has test row || anyWrite test (write.exact row) rest

/-! ### Rows held -/

open List hiding set

structure RowsHold (json : JsonCodec κ) (table : TableDefinition κ) (rows : Rows)
    (givenOf : Key → String → Option (Plain κ)) (rowOf : Key → Option (Row κ)) : Prop where
  distinct : (rows.map table.keyOf).Nodup
  absent : ∀ key, rowOf key = none → ∀ stored ∈ rows, table.keyOf stored ≠ key
  present : ∀ key row, rowOf key = some row →
    ∃ stored ∈ rows, table.keyOf stored = key ∧ Holds json table (givenOf key) stored row

theorem Holds.keyOf (h : Holds json table given stored row) :
    table.keyOf stored = table.key.map fun name => cellSql json (row name) := by
  refine map_congr_left fun name hname => ?_
  obtain ⟨column, hcolumn, rfl, -, type, htype, -⟩ := table.keyed name hname
  obtain ⟨hrow, hstored⟩ | ⟨value, hrow, -, hstored⟩ :=
    h.reads column.name type ⟨column, byName_of_mem hcolumn, htype⟩
  · rw [hrow, hstored]
    rfl
  · rw [hrow, hstored]
    rfl

theorem exactSet_of_not_mem {set : SetNode κ} {name : String} (h : ∀ entry ∈ set, entry.1 ≠ name) :
    exactSet set row name = row name := by
  have hfold : ∀ next : Row κ, set.foldl
      (fun next entry => Function.update next entry.1 (Store.exact row entry.2)) next name =
        next name := by
    induction set with
    | nil => exact fun next => rfl
    | cons entry rest ih =>
      intro next
      rw [foldl_cons, ih fun other hother => h other (mem_cons_of_mem _ hother),
        Function.update_of_ne (h entry mem_cons_self).symm]
  exact hfold row

theorem keyOf_exactSet {after : PhysicalRow} {set : SetNode κ}
    (hstored : Holds json table given stored row)
    {after' : String → Option (Plain κ)} (hafter : Holds json table after' after (exactSet set row))
    (hset : ∀ entry ∈ set, EntryTyped table entry) : table.keyOf after = table.keyOf stored := by
  rw [hstored.keyOf, hafter.keyOf]
  refine map_congr_left fun name hname => ?_
  rw [exactSet_of_not_mem fun entry hentry heq => (hset entry hentry).1 (heq ▸ hname)]

theorem RowsHold.put (h : RowsHold json table rows givenOf rowOf)
    (hstored : Holds json table given stored row) :
    RowsHold json table
      (rows.filter (fun each => table.keyOf each ≠ table.keyOf stored) ++ [stored])
      (Function.update givenOf (table.keyOf stored) given)
      (Function.update rowOf (table.keyOf stored) (some row)) := by
  refine ⟨?_, fun key hkey each heach => ?_, fun key found hfound => ?_⟩
  · rw [map_append, map_singleton]
    refine List.Nodup.append (h.distinct.sublist (filter_sublist.map _))
      (nodup_singleton _) ?_
    intro key hkey hnew
    obtain rfl := mem_singleton.mp hnew
    obtain ⟨each, heach, heq⟩ := mem_map.mp hkey
    exact of_decide_eq_true (mem_filter.mp heach).2 heq
  · have hne : key ≠ table.keyOf stored := by
      rintro rfl
      rw [Function.update_self] at hkey
      cases hkey
    rw [Function.update_of_ne hne] at hkey
    obtain heach | heach := mem_append.mp heach
    · exact h.absent key hkey each (mem_filter.mp heach).1
    · obtain rfl := mem_singleton.mp heach
      exact hne.symm
  · by_cases hkey : key = table.keyOf stored
    · subst hkey
      rw [Function.update_self] at hfound
      cases hfound
      rw [Function.update_self]
      exact ⟨stored, mem_append_right _ (mem_singleton_self _), rfl, hstored⟩
    · rw [Function.update_of_ne hkey] at hfound
      rw [Function.update_of_ne hkey]
      obtain ⟨each, heach, rfl, hheld⟩ := h.present key found hfound
      exact ⟨each, mem_append_left _ (mem_filter.mpr ⟨heach, decide_eq_true hkey⟩), rfl,
        hheld⟩

theorem RowsHold.delete (h : RowsHold json table rows givenOf rowOf) (key : Key) :
    RowsHold json table (rows.filter fun row => table.keyOf row ≠ key)
      (Function.update givenOf key given) (Function.update rowOf key none) := by
  refine ⟨h.distinct.sublist (filter_sublist.map _), fun other hother each heach => ?_,
    fun other row hrow => ?_⟩
  · obtain ⟨heach, hne⟩ := mem_filter.mp heach
    by_cases hkey : other = key
    · exact hkey ▸ of_decide_eq_true hne
    · rw [Function.update_of_ne hkey] at hother
      exact h.absent other hother each heach
  · have hne : other ≠ key := by
      rintro rfl
      rw [Function.update_self] at hrow
      cases hrow
    rw [Function.update_of_ne hne] at hrow
    rw [Function.update_of_ne hne]
    obtain ⟨stored, hstored, rfl, hheld⟩ := h.present other row hrow
    exact ⟨stored, mem_filter.mpr ⟨hstored, decide_eq_true hne⟩, rfl, hheld⟩

theorem RowsHold.set (h : RowsHold json table rows givenOf rowOf) {after : PhysicalRow}
    (hmem : stored ∈ rows) (hkey : table.keyOf after = table.keyOf stored)
    (hafter : Holds json table given after row) :
    RowsHold json table
      (rows.map fun each => if table.keyOf each = table.keyOf stored then after else each)
      (Function.update givenOf (table.keyOf stored) given)
      (Function.update rowOf (table.keyOf stored) (some row)) := by
  have hkeys : ∀ each, table.keyOf
      (if table.keyOf each = table.keyOf stored then after else each) = table.keyOf each := by
    intro each
    split_ifs with heq
    · rw [hkey, heq]
    · rfl
  refine ⟨?_, fun key hnone each heach => ?_, fun key found hfound => ?_⟩
  · rw [map_map]
    exact (map_congr_left fun each _ => hkeys each) ▸ h.distinct
  · obtain ⟨before, hbefore, rfl⟩ := mem_map.mp heach
    rw [hkeys]
    by_cases hown : key = table.keyOf stored
    · subst hown
      rw [Function.update_self] at hnone
      cases hnone
    · rw [Function.update_of_ne hown] at hnone
      exact h.absent key hnone before hbefore
  · by_cases hown : key = table.keyOf stored
    · subst hown
      rw [Function.update_self] at hfound
      cases hfound
      rw [Function.update_self]
      exact ⟨after, mem_map.mpr ⟨stored, hmem, if_pos rfl⟩, hkey, hafter⟩
    · rw [Function.update_of_ne hown] at hfound
      rw [Function.update_of_ne hown]
      obtain ⟨each, heach, rfl, hheld⟩ := h.present key found hfound
      exact ⟨each, mem_map.mpr ⟨each, heach, if_neg hown⟩, rfl, hheld⟩

/-! ### One statement -/

inductive Staged (json : JsonCodec κ) (table : TableDefinition κ) :
    Key × KeyWrite κ → Statement → Prop
  | put {fields : Fields κ} {encoded : EncodedRow κ} (h : table.put json fields = .ok encoded) :
      Staged json table (encoded.id, .put encoded.row) (.put encoded.params)
  | update {key : Key} {set : SetNode κ} (hkey : key.length = table.key.length)
      (hset : ∀ entry ∈ set, EntryTyped table entry)
      (hwritten : ∀ entry ∈ set, entry.2.Written json) :
      Staged json table (key, .update set) (TableChanges.updateSql json table set key)
  | delete {key : Key} : Staged json table (key, .delete) (.delete key)

theorem takeKey_values (key : Key) : takeKey key.length (key.map .value) = key := by
  induction key with
  | nil => rfl
  | cons value key ih =>
    rw [length_cons, map_cons, takeKey, takeParam]
    exact congrArg (cons value) ih

theorem mapM_some_map {α β : Type} {f : α → Option β} {g : α → β} {l : List α}
    (h : ∀ a ∈ l, f a = some (g a)) : l.mapM f = some (l.map g) := by
  induction l with
  | nil => rfl
  | cons a l ih =>
    rw [mapM_cons, h a mem_cons_self, ih fun b hb => h b (mem_cons_of_mem a hb)]
    rfl

theorem RowsHold.absent_update (h : RowsHold json table rows givenOf rowOf)
    (hrow : rowOf key = none) (given : String → Option (Plain κ)) :
    RowsHold json table rows (Function.update givenOf key given) (Function.update rowOf key none) := by
  have hsame : Function.update rowOf key none = rowOf := by
    rw [← hrow]
    exact Function.update_eq_self key rowOf
  rw [hsame]
  refine ⟨h.distinct, h.absent, fun other row hother => ?_⟩
  have hne : other ≠ key := by
    rintro rfl
    cases hrow.symm.trans hother
  rw [Function.update_of_ne hne]
  exact h.present other row hother

theorem execute_update (h : RowsHold json table rows givenOf rowOf) {set : SetNode κ}
    (hkey : key.length = table.key.length) (hset : ∀ entry ∈ set, EntryTyped table entry)
    (hwritten : ∀ entry ∈ set, entry.2.Written json)
    (hwords : KeyWrite.has (reaches overflows) (.update set) (rowOf key) = false) :
    (KeyWrite.has Store.exceeds (.update set) (rowOf key) = true ∧
      (TableChanges.updateSql json table set key).execute table rows = none) ∨
    (KeyWrite.has Store.exceeds (.update set) (rowOf key) = false ∧ ∃ after,
      (TableChanges.updateSql json table set key).execute table rows = some after ∧
      RowsHold json table after
        (Function.update givenOf key (KeyWrite.gives (.update set) (givenOf key)))
        (Function.update rowOf key (KeyWrite.exact (.update set) (rowOf key)))) := by
  obtain ⟨text, own, bound, ⟨hrender, hbind⟩, hvalues⟩ := binds_set json table.jsonVersion set
  have hexecute : (TableChanges.updateSql json table set key).execute table rows =
      rows.mapM fun row =>
        if table.keyOf row = key then setRow table bound row else some row := by
    rw [TableChanges.updateSql, Statement.execute, hrender, nil_append,
      hbind, ← hkey, takeKey_values]
  rw [hexecute]
  cases hrow : rowOf key with
  | none =>
    refine .inr ⟨rfl, rows, ?_, h.absent_update hrow _⟩
    rw [mapM_some_map (g := id), map_id]
    exact fun stored hstored => if_neg (h.absent key hrow stored hstored)
  | some row =>
    obtain ⟨stored, hmem, rfl, hholds⟩ := h.present key row hrow
    have hwords : ∀ entry ∈ set, reaches overflows row entry.2 = false := by
      rw [hrow] at hwords
      exact fun entry hentry =>
        Bool.eq_false_iff.mpr (any_eq_false.mp hwords entry hentry)
    have hset' : setRow table bound stored =
        table.assign (assignments json table row set) stored := by
      rw [setRow, hvalues rfl hholds.reads hset hwords]
    obtain ⟨hexceeds, hnone⟩ | ⟨hexceeds, after, hafter, hheld⟩ := assign_set hholds hset hwritten
    · refine .inl ⟨hexceeds, Pointwise.mapM_none hmem ?_⟩
      rw [if_pos rfl, hset', hnone]
    · refine .inr ⟨hexceeds, _, mapM_some_map fun each heach => ?_,
        h.set hmem (keyOf_exactSet hholds hheld hset) hheld⟩
      by_cases hown : table.keyOf each = table.keyOf stored
      · obtain rfl := inj_on_of_nodup_map h.distinct heach hmem hown
        rw [if_pos rfl, if_pos rfl, hset', hafter]
      · rw [if_neg hown, if_neg hown]

variable {statement : Statement}

theorem execute_staged (h : RowsHold json table rows givenOf rowOf) {write : KeyWrite κ}
    (hstaged : Staged json table (key, write) statement) (hnamed : table.byName "__proto__" = none)
    (hwords : write.has (reaches overflows) (rowOf key) = false) :
    (write.has Store.exceeds (rowOf key) = true ∧ statement.execute table rows = none) ∨
    (write.has Store.exceeds (rowOf key) = false ∧ ∃ after,
      statement.execute table rows = some after ∧
      RowsHold json table after (Function.update givenOf key (write.gives (givenOf key)))
        (Function.update rowOf key (write.exact (rowOf key)))) := by
  cases hstaged with
  | put hput =>
    obtain ⟨stored, hassign, hholds, hid⟩ := put_stored hput hnamed
    refine .inr ⟨rfl, _, ?_, hid ▸ h.put hholds⟩
    rw [Statement.execute, hassign, ← hid]
    rfl
  | update hkey hset hwritten => exact execute_update h hkey hset hwritten hwords
  | delete => exact .inr ⟨rfl, _, rfl, h.delete key⟩

/-! ### The staged statements -/

def writesOf (log : List (Key × KeyWrite κ)) (key : Key) : List (KeyWrite κ) :=
  log.filterMap fun entry => if entry.1 = key then some entry.2 else none

theorem writesOf_cons (key : Key) (write : KeyWrite κ) (log : List (Key × KeyWrite κ))
    (other : Key) :
    writesOf ((key, write) :: log) other =
      if key = other then write :: writesOf log other else writesOf log other := by
  unfold writesOf
  rw [filterMap_cons]
  split_ifs <;> rfl

variable {log : List (Key × KeyWrite κ)}

theorem update_writesOf {β γ : Type} (f : β → KeyWrite κ → β) (after : β → List (KeyWrite κ) → γ)
    (hafter : ∀ b write writes, after b (write :: writes) = after (f b write) writes)
    (of : Key → β) (key : Key) (write : KeyWrite κ) (log : List (Key × KeyWrite κ)) :
    (fun other => after (of other) (writesOf ((key, write) :: log) other)) = fun other =>
      after (Function.update of key (f (of key) write) other) (writesOf log other) := by
  funext other
  rw [writesOf_cons]
  by_cases hne : key = other
  · subst hne
    rw [if_pos rfl, hafter, Function.update_self]
  · rw [if_neg hne, Function.update_of_ne (Ne.symm hne)]

/-- The statements in order leave the rows the writes give, or fail: exactly when some update
assigns an integer outside the safe range. -/
theorem execute_log {statements : List Statement}
    (hlog : List.Forall₂ (Staged json table) log statements)
    (hnamed : table.byName "__proto__" = none) (h : RowsHold json table rows givenOf rowOf)
    (hwords : ∀ key, anyWrite (reaches overflows) (rowOf key) (writesOf log key) = false) :
    ((∃ key, anyWrite Store.exceeds (rowOf key) (writesOf log key) = true) ∧
      execute table statements rows = none) ∨
    ((∀ key, anyWrite Store.exceeds (rowOf key) (writesOf log key) = false) ∧
      ∃ after, execute table statements rows = some after ∧
        RowsHold json table after (fun key => givenAfter (givenOf key) (writesOf log key))
          fun key => rowAfter (rowOf key) (writesOf log key)) := by
  induction hlog generalizing rows rowOf givenOf with
  | nil => exact .inr ⟨fun key => rfl, rows, rfl, h⟩
  | @cons entry statement log statements hstaged hrest ih =>
    obtain ⟨key, write⟩ := entry
    have hown : writesOf ((key, write) :: log) key = write :: writesOf log key := by
      rw [writesOf_cons, if_pos rfl]
    have hany : ∀ test : Row κ → ExprNode κ → Bool, write.has test (rowOf key) = false →
        ∀ other, anyWrite test (rowOf other) (writesOf ((key, write) :: log) other) =
          anyWrite test (Function.update rowOf key (write.exact (rowOf key)) other)
            (writesOf log other) := by
      intro test hfirst other
      rw [writesOf_cons]
      by_cases hne : key = other
      · subst hne
        rw [if_pos rfl, anyWrite, hfirst, Bool.false_or, Function.update_self]
      · rw [if_neg hne, Function.update_of_ne (Ne.symm hne)]
    have hfirst : write.has (reaches overflows) (rowOf key) = false := by
      have hkey := hwords key
      rw [hown, anyWrite, Bool.or_eq_false_iff] at hkey
      exact hkey.1
    obtain ⟨hexceeds, hnone⟩ | ⟨hexceeds, after, hafter, hheld⟩ :=
      execute_staged h hstaged hnamed hfirst
    · refine .inl ⟨⟨key, ?_⟩, ?_⟩
      · rw [hown, anyWrite, hexceeds, Bool.true_or]
      · rw [execute, foldlM_cons, hnone]
        rfl
    · have hstep : execute table (statement :: statements) rows =
          execute table statements after := by
        rw [execute, foldlM_cons, hafter]
        rfl
      rw [hstep, update_writesOf (fun row write => write.exact row) rowAfter (fun _ _ _ => rfl),
        update_writesOf (fun given write => write.gives given) givenAfter (fun _ _ _ => rfl)]
      simp only [hany _ hexceeds]
      refine ih hheld fun other => ?_
      rw [← hany _ hfirst other]
      exact hwords other

/-- A transaction's changes record the writes of `log`. -/
structure Logged (json : JsonCodec κ) (table : TableDefinition κ) (changes : TableChanges κ)
    (log : List (Key × KeyWrite κ)) : Prop where
  staged : List.Forall₂ (Staged json table) log changes.staged
  byKey : ∀ key, changes.byKey key = writesOf log key
  bulk : changes.bulk = false

theorem Logged.write (h : Logged json table changes log) {write : KeyWrite κ}
    (hstaged : Staged json table (key, write) statement) :
    Logged json table ((changes.stage statement).write key write) (log ++ [(key, write)]) := by
  refine ⟨rel_append h.staged (.cons hstaged .nil), fun other => ?_, h.bulk⟩
  have hwrites : writesOf (log ++ [(key, write)]) other =
      writesOf log other ++ writesOf [(key, write)] other := filterMap_append
  rw [hwrites, writesOf_cons]
  by_cases hne : other = key
  · subst hne
    rw [if_pos rfl, ← h.byKey]
    exact Function.update_self _ _ _
  · rw [if_neg (Ne.symm hne), ← h.byKey]
    exact (Function.update_of_ne hne _ _).trans (append_nil _).symm

/-- A write that makes no cell named `__proto__`. -/
def KeyWrite.Named : KeyWrite κ → Prop
  | .put row => row "__proto__" = none
  | .update set => ∀ entry ∈ set, entry.1 ≠ "__proto__"
  | .delete => True

theorem Staged.named {entry : Key × KeyWrite κ} (h : Staged json table entry statement)
    (hnamed : table.byName "__proto__" = none) : entry.2.Named := by
  cases h with
  | put hput =>
    obtain ⟨stored, -, hholds, -⟩ := put_stored hput hnamed
    exact (hholds.other "__proto__" hnamed).1
  | update hkey hset hwritten =>
    intro entry hentry heq
    obtain ⟨-, column, hcolumn, -⟩ := hset entry hentry
    rw [heq, hnamed] at hcolumn
    cases hcolumn
  | delete => trivial

theorem Logged.named (h : Logged json table changes log) (hnamed : table.byName "__proto__" = none) :
    ∀ write ∈ changes.byKey key, write.Named := by
  intro write hwrite
  rw [h.byKey] at hwrite
  obtain ⟨entry, hentry, hwrite⟩ := mem_filterMap.mp hwrite
  split_ifs at hwrite
  · cases hwrite
    obtain ⟨i, hi, rfl⟩ := mem_iff_getElem.mp hentry
    have hlength := h.staged.length_eq
    exact ((forall₂_iff_get.mp h.staged).2 i hi (hlength ▸ hi)).named hnamed

theorem length_encodeKey {fields : Fields κ} {what : String}
    (h : table.encodeKey json fields what = .ok key) : key.length = table.key.length := by
  obtain ⟨fields, -, h⟩ := Except.bind_eq_ok h
  exact length_mapM h

theorem Logged.perform (h : Logged json table changes log) (call : KeyCall κ) :
    ∃ log', Logged json table (call.perform json table changes) log' := by
  unfold KeyCall.perform
  cases hmake : call.make json table changes with
  | error error => exact ⟨log, h⟩
  | ok next =>
    cases call with
    | put row =>
      obtain ⟨encoded, hencoded, hnext⟩ := Except.bind_eq_ok hmake
      cases hnext
      exact ⟨_, h.write (.put hencoded)⟩
    | update key set =>
      obtain ⟨encoded, hencoded, hnext⟩ := Except.bind_eq_ok hmake
      obtain ⟨compiled, hcompiled, hnext⟩ := Except.bind_eq_ok hnext
      cases hnext
      exact ⟨_, h.write (.update (length_encodeKey hencoded) (compileSet_typed hcompiled)
        (compileSet_written hcompiled))⟩
    | delete key =>
      obtain ⟨encoded, hencoded, hnext⟩ := Except.bind_eq_ok hmake
      cases hnext
      exact ⟨_, h.write .delete⟩

theorem logged_performAll (json : JsonCodec κ) (table : TableDefinition κ)
    (calls : List (KeyCall κ)) : ∃ log, Logged json table (performAll json table calls) log := by
  have hrun : ∀ (changes : TableChanges κ) (log : List (Key × KeyWrite κ)),
      Logged json table changes log →
      ∃ log', Logged json table (calls.foldl (KeyCall.perform json table) changes) log' := by
    induction calls with
    | nil => exact fun changes log h => ⟨log, h⟩
    | cons call calls ih =>
      intro changes log h
      obtain ⟨log', h'⟩ := h.perform call
      exact ih _ log' h'
  exact hrun .empty [] ⟨.nil, fun key => rfl, rfl⟩

/-! ### The overlay -/

theorem start_spec (writes : List (KeyWrite κ)) :
    ∀ n ≤ writes.length, TableChanges.start writes n ≤ n ∧
      (∀ i write, TableChanges.start writes n ≤ i → i < n → writes[i]? = some write →
        write.isUpdate = true) ∧
      (TableChanges.start writes n = 0 ∨ ∃ write,
        writes[TableChanges.start writes n - 1]? = some write ∧ write.isUpdate = false ∧
        0 < TableChanges.start writes n) := by
  intro n
  induction n with
  | zero => exact fun _ => ⟨Nat.le_refl 0, fun i _ _ h => absurd h (Nat.not_lt_zero i), .inl rfl⟩
  | succ n ih =>
    intro hn
    have hget : writes[n]? = some writes[n] := List.getElem?_eq_getElem hn
    rw [TableChanges.start, hget, Option.map_some, Option.getD_some]
    by_cases hupdate : writes[n].isUpdate = true
    · rw [if_pos hupdate]
      obtain ⟨hle, hupdates, hstart⟩ := ih (by omega)
      refine ⟨by omega, fun i write hi hlt hwrite => ?_, hstart⟩
      by_cases hlast : i = n
      · subst hlast
        obtain rfl := Option.some.inj (hget.symm.trans hwrite)
        exact hupdate
      · exact hupdates i write hi (by omega) hwrite
    · rw [if_neg hupdate]
      refine ⟨Nat.le_refl _, fun i write hi hlt _ => by omega, .inr ⟨writes[n], ?_, ?_, by omega⟩⟩
      · rw [Nat.add_sub_cancel]
        exact hget
      · exact Bool.eq_false_iff.mpr hupdate

variable {row : Option (Row κ)}

theorem exact_named {write : KeyWrite κ} (hwrite : write.Named)
    (hrow : ∀ found ∈ row, found "__proto__" = none) :
    ∀ found ∈ write.exact row, found "__proto__" = none := by
  intro found hfound
  cases write with
  | put row =>
    cases hfound
    exact hwrite
  | update set =>
    obtain ⟨before, hbefore, rfl⟩ := Option.map_eq_some_iff.mp hfound
    rw [exactSet_of_not_mem hwrite]
    exact hrow before hbefore
  | delete => cases hfound

variable {writes : List (KeyWrite κ)}

theorem rowAfter_named (hwrites : ∀ write ∈ writes, write.Named)
    (hrow : ∀ found ∈ row, found "__proto__" = none) :
    ∀ found ∈ rowAfter row writes, found "__proto__" = none := by
  induction writes generalizing row with
  | nil => exact hrow
  | cons write writes ih =>
    exact ih (fun other hother => hwrites other (mem_cons_of_mem _ hother))
      (exact_named (hwrites write mem_cons_self) hrow)

theorem replay_refusesOr (table : TableDefinition κ)
    (hupdates : ∀ write ∈ writes, write.isUpdate = true) (hwrites : ∀ write ∈ writes, write.Named)
    (hrow : ∀ found ∈ row, found "__proto__" = none)
    (hown : anyWrite (fun row node => node.inherits row) row writes = false) :
    RefusesOr (anyWrite (reaches outside) row writes) (rowAfter row writes)
      (writes.foldlM (TableChanges.replayWrite table) row) := by
  induction writes generalizing row with
  | nil => exact .inr ⟨rfl, rfl⟩
  | cons write writes ih =>
    have hnamed := hwrites write mem_cons_self
    rw [anyWrite, Bool.or_eq_false_iff] at hown
    have hrest := ih (fun other hother => hupdates other (mem_cons_of_mem _ hother))
      (fun other hother => hwrites other (mem_cons_of_mem _ hother))
      (exact_named hnamed hrow) hown.2
    rw [foldlM_cons, anyWrite]
    cases write with
    | put row | delete => cases hupdates _ mem_cons_self
    | update set =>
      cases row with
      | none => exact hrest
      | some row =>
        obtain ⟨hreaches, error, herror⟩ | ⟨hreaches, hok⟩ :=
          applySet_refusesOr table.name hown.1 hnamed (hrow row rfl)
        · refine .inl ⟨?_, error, ?_⟩
          · rw [KeyWrite.has, hreaches, Bool.true_or]
          · rw [TableChanges.replayWrite, herror]
            rfl
        · rw [KeyWrite.has, hreaches, Bool.false_or, TableChanges.replayWrite, hok]
          exact hrest

theorem RowsHold.read (h : RowsHold json table rows givenOf rowOf)
    (hnamed : table.byName "__proto__" = none) (key : Key) :
    TableChanges.read json table rows key =
      .ok ((rowOf key).map (Row.back json (givenOf key))) := by
  unfold TableChanges.read
  cases hrow : rowOf key with
  | none =>
    have hnone : rows.find? (fun row => table.keyOf row = key) = none :=
      find?_eq_none.mpr fun stored hstored heq =>
        h.absent key hrow stored hstored (of_decide_eq_true heq)
    rw [hnone]
    rfl
  | some row =>
    obtain ⟨stored, hmem, rfl, hheld⟩ := h.present key row hrow
    rw [Assoc.find?_of_nodup table.keyOf h.distinct hmem]
    dsimp only
    rw [hheld.decode hnamed]
    rfl

theorem RowsHold.named (h : RowsHold json table rows givenOf rowOf)
    (hnamed : table.byName "__proto__" = none) (key : Key) :
    ∀ found ∈ rowOf key, found "__proto__" = none := by
  intro found hfound
  obtain ⟨stored, -, -, hheld⟩ := h.present key found hfound
  exact (hheld.other "__proto__" hnamed).1

/-- The writes `get` replays: the updates behind the last put or delete. -/
def replayed (writes : List (KeyWrite κ)) : List (KeyWrite κ) :=
  writes.drop (TableChanges.start writes writes.length)

def settled (writes : List (KeyWrite κ)) : List (KeyWrite κ) :=
  writes.take (TableChanges.start writes writes.length)

theorem get_refusesOr (h : RowsHold json table rows (fun _ _ => none) rowOf)
    (hnamed : table.byName "__proto__" = none)
    (hwrites : ∀ write ∈ changes.byKey key, write.Named) (hbulk : changes.bulk = false)
    {fields : Fields κ} (hkey : table.encodeKey json fields "get" = .ok key)
    (hown : anyWrite (fun row node => node.inherits row)
      (rowAfter (rowOf key) (settled (changes.byKey key))) (replayed (changes.byKey key)) = false) :
    RefusesOr (anyWrite (reaches outside)
        (rowAfter (rowOf key) (settled (changes.byKey key))) (replayed (changes.byKey key)))
      (rowAfter (rowOf key) (changes.byKey key))
      (TableChanges.get json table rows changes fields) := by
  let writes := changes.byKey key
  let first := TableChanges.start writes writes.length
  obtain ⟨hle, hupdates, hstart⟩ := start_spec writes writes.length (Nat.le_refl _)
  have hreplayed : ∀ write ∈ replayed writes, write.isUpdate = true := by
    intro write hwrite
    obtain ⟨i, hi, rfl⟩ := mem_iff_getElem.mp hwrite
    unfold replayed at hi ⊢
    rw [length_drop] at hi
    rw [getElem_drop]
    exact hupdates _ _ (Nat.le_add_right _ _) (by omega) (List.getElem?_eq_getElem _)
  have hall : rowAfter (rowOf key) writes =
      rowAfter (rowAfter (rowOf key) (settled writes)) (replayed writes) := by
    unfold rowAfter settled replayed
    rw [← foldl_append, take_append_drop]
  have hget : TableChanges.get json table rows changes fields =
      (replayed writes).foldlM (TableChanges.replayWrite table)
        (rowAfter (rowOf key) (settled writes)) := by
    unfold TableChanges.get
    rw [hbulk, hkey]
    obtain hzero | ⟨write, hwrite, hnot, hpos⟩ := hstart
    · have hsettled : settled writes = [] := by
        rw [settled, hzero, take_zero]
      have hback : (rowOf key).map (Row.back json fun _ => none) = rowOf key := by
        cases rowOf key <;> rfl
      rw [hsettled]
      have hread := (h.read hnamed key).trans (congrArg Except.ok hback)
      simp [bind, Except.bind, Except.mapError, hzero, hread, writes, replayed, rowAfter]
    · have hsettled : settled writes =
          writes.take (TableChanges.start writes writes.length - 1) ++ [write] := by
        have hlast := take_add_one (l := writes)
          (i := TableChanges.start writes writes.length - 1)
        rw [Nat.sub_add_cancel hpos, hwrite] at hlast
        exact hlast
      have hrow : rowAfter (rowOf key) (settled writes) = write.exact (rowAfter (rowOf key)
          (writes.take (TableChanges.start writes writes.length - 1))) := by
        rw [hsettled, rowAfter, foldl_append]
        rfl
      rw [hrow]
      cases write with
      | put row | delete =>
        simp [bind, Except.bind, Except.mapError, pure, Except.pure, hpos.ne', hwrite, writes,
          replayed, KeyWrite.exact]
      | update set => cases hnot
  rw [hget, hall]
  exact replay_refusesOr table hreplayed
    (fun write hwrite => hwrites write (mem_of_mem_drop hwrite))
    (rowAfter_named (fun write hwrite => hwrites write (mem_of_mem_take hwrite))
      (h.named hnamed key)) hown

end KnightCode.Store
