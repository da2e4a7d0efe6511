import KnightCode.Store.Overlay

/-!
# Where `tx.get` agrees with the statements

`tx.get` of a key agrees with the execution of a transaction's statements when it throws as that
fails, and else returns the row that leaves. It does in every transaction in which some update of
some row assigns an integer outside the safe range exactly when some update it replays reaches a sum
or difference outside, and whose values of the row's `json(...)` cells are what their texts are read
as.
-/

namespace KnightCode.Store

open Function List Option Except

variable {κ : Type}

/-- The committed rows of a table: one of each key, each readable as a row. -/
structure Committed (json : JsonCodec κ) (table : TableDefinition κ) where
  rows : List (PhysicalRow × Row κ)
  holds : ∀ row ∈ rows, Holds json table (fun _ => none) row.1 row.2
  distinct : (rows.map fun row => table.keyOf row.1).Nodup

namespace Committed

variable {json : JsonCodec κ} {table : TableDefinition κ} (committed : Committed json table)

def stored : Rows := committed.rows.map (·.1)

def rowOf (key : Key) : Option (Row κ) :=
  (committed.rows.find? fun row => table.keyOf row.1 = key).map (·.2)

theorem rowsHold : RowsHold json table committed.stored (fun _ _ => none) committed.rowOf := by
  refine ⟨?_, fun key hnone stored hstored => ?_, fun key row hrow => ?_⟩
  · unfold stored
    rw [List.map_map]
    exact committed.distinct
  · obtain ⟨entry, hentry, rfl⟩ := mem_map.mp hstored
    have hfind := map_eq_none_iff.mp hnone
    exact fun heq => find?_eq_none.mp hfind entry hentry (decide_eq_true heq)
  · obtain ⟨entry, hentry, rfl⟩ := map_eq_some_iff.mp hrow
    have hmem := mem_of_find?_eq_some hentry
    have hholds := find?_some hentry
    exact ⟨entry.1, mem_map_of_mem hmem, of_decide_eq_true hholds, committed.holds entry hmem⟩

end Committed

section Agrees

variable (json : JsonCodec κ) (table : TableDefinition κ) (committed : Committed json table)
  (changes : TableChanges κ)

/-- What the staged statements make of the row of `key`: `none` where they fail. -/
def executed (key : Key) : Option (Except Invalid (Option (Row κ))) :=
  (execute table changes.staged committed.stored).map fun after =>
    TableChanges.read json table after key

/-- `tx.get` throws where the statements fail, and else returns the row they leave. -/
def Agrees (fields : Fields κ) (key : Key) : Prop :=
  (executed json table committed changes key = none ∧ ∃ error, TableChanges.get json table
    committed.stored changes fields = .error (.thrown error)) ∨
  ∃ row, executed json table committed changes key = some (.ok row) ∧
    TableChanges.get json table committed.stored changes fields = .ok row

/-- An update replayed by `tx.get` of `key` has an expression that is `test`. -/
def Replays (test : Row κ → ExprNode κ → Bool) (key : Key) : Prop :=
  anyWrite test (rowAfter (committed.rowOf key) (settled (changes.byKey key)))
    (replayed (changes.byKey key)) = true

/-- A staged update of a row has an expression that is `test`. -/
def Updates (test : Row κ → ExprNode κ → Bool) : Prop :=
  ∃ key, anyWrite test (committed.rowOf key) (changes.byKey key) = true

/-- The values the transaction gave the `json(...)` cells that the row of `key` ends with are what
their texts are read as. -/
def JsonKept (key : Key) : Prop :=
  rowAfter (committed.rowOf key) (changes.byKey key) ≠ none → ∀ name value,
    givenAfter (fun _ => none) (changes.byKey key) name = some value → json.back value = value

end Agrees

variable {json : JsonCodec κ} {table : TableDefinition κ}

theorem Holds.back_eq_iff {given : String → Option (Plain κ)} {stored : PhysicalRow} {row : Row κ}
    (h : Holds json table given stored row) :
    row.back json given = row ↔
      ∀ name value, given name = some value → json.back value = value := by
  refine ⟨fun heq name value hgiven => ?_, fun hkept => funext fun name => ?_⟩
  · have hcell := congrFun heq name
    rw [Row.back, hgiven, h.given_eq hgiven] at hcell
    exact Cell.json.inj (Option.some.inj hcell)
  · unfold Row.back
    cases hgiven : given name with
    | none => rfl
    | some value =>
      rw [map_some, hkept name value hgiven, h.given_eq hgiven]
      rfl

theorem RowsHold.map_back_eq_iff {rows : Rows} {givenOf : Key → String → Option (Plain κ)}
    {rowOf : Key → Option (Row κ)} (h : RowsHold json table rows givenOf rowOf) (key : Key) :
    (rowOf key).map (Row.back json (givenOf key)) = rowOf key ↔
      (rowOf key ≠ none → ∀ name value, givenOf key name = some value → json.back value = value) := by
  cases hrow : rowOf key with
  | none => exact iff_of_true rfl fun hne => absurd rfl hne
  | some row =>
    obtain ⟨stored, -, -, hheld⟩ := h.present key row hrow
    rw [map_some, some_inj, hheld.back_eq_iff]
    exact ⟨fun hkept _ => hkept, fun hkept => hkept (some_ne_none row)⟩

def jsonTrue : Text := [116, 114, 117, 101]

def jsonNull : Text := [110, 117, 108, 108]

/-- JSON text of `true` and `null`, which is also that of a number that is not finite. -/
def truthJson : JsonCodec Unit where
  stringify
    | .bool true => some jsonTrue
    | .null => some jsonNull
    | .number none => some jsonNull
    | _ => none
  parse text := if text = jsonTrue then .bool true else .null
  describe _ := "value"
  wellFormed := by
    intro value text htext
    have hcases : text = jsonTrue ∨ text = jsonNull := by
      split at htext <;> cases htext
      · exact .inl rfl
      · exact .inr rfl
      · exact .inr rfl
    obtain rfl | rfl := hcases <;> exact
      Utf8.wellFormed_of_forall (List.forall_iff_forall_mem.mp (by decide))

/-- A `json(...)` column whose cells have one version. -/
def marked : JsonColumn Unit := ⟨1, "mark", fun _ _ => none⟩

def counts : TableDefinition Unit where
  name := "counts"
  version := 1
  columns := [⟨"id", .scalar .int, false, none⟩, ⟨"count", .scalar .int, false, none⟩,
    ⟨"mark", .json marked, true, none⟩]
  key := ["id"]
  distinct := by decide
  keyed := by
    intro name hname
    obtain rfl := mem_singleton.mp hname
    exact ⟨_, mem_cons_self, rfl, rfl, .int, rfl, .inr rfl⟩
  defaulted := by
    intro column hcolumn value hvalue
    simp only [mem_cons, not_mem_nil, or_false] at hcolumn
    obtain rfl | rfl | rfl := hcolumn <;> cases hvalue

/-- The row of id 1 with the greatest count. -/
def greatest : PhysicalRow := fun column =>
  if column = .cell "id" then .integer 1
  else if column = .cell "count" then .integer SAFE
  else if column = .rowVersion then .integer 1
  else .null

def greatestRow : Row Unit := fun name =>
  if name = "id" then some (.scalar (.int 1))
  else if name = "count" then some (.scalar (.int SAFE))
  else none

theorem greatest_holds : Holds truthJson counts (fun _ => none) greatest greatestRow := by
  refine ⟨fun name column hcolumn => ?_, fun name hname => ⟨?_, rfl⟩⟩
  · have hmem := mem_of_find?_eq_some hcolumn
    have hown := byName_name hcolumn
    simp only [counts, mem_cons, not_mem_nil, or_false] at hmem
    obtain rfl | rfl | rfl := hmem
    · obtain rfl : "id" = name := hown
      exact ⟨⟨.int, rfl, by unfold Scalar.Fits SAFE; decide, by decide +kernel⟩, rfl⟩
    · obtain rfl : "count" = name := hown
      exact ⟨⟨.int, rfl, by unfold Scalar.Fits SAFE; decide, by decide +kernel⟩, rfl⟩
    · obtain rfl : "mark" = name := hown
      exact ⟨rfl, by decide +kernel, rfl⟩
  · have hnone := find?_eq_none.mp hname
    have hid : name ≠ "id" := fun heq =>
      hnone _ mem_cons_self (decide_eq_true heq.symm)
    have hcount : name ≠ "count" := fun heq =>
      hnone _ (mem_cons_of_mem _ mem_cons_self) (decide_eq_true heq.symm)
    rw [greatestRow, if_neg hid, if_neg hcount]

def greatestCount : Committed truthJson counts where
  rows := [(greatest, greatestRow)]
  holds row hrow := by
    obtain rfl := mem_singleton.mp hrow
    exact greatest_holds
  distinct := nodup_singleton _

/-- An object literal of `fields`. -/
def object (fields : List (String × Plain Unit)) : Fields Unit :=
  some (fields.map (·.1), fun name => (Assoc.get name fields).getD .undefined)

/-- `{ id: 1 }`. -/
def first : Fields Unit := object [("id", .number (some 1))]

/-- `update({ id: 1 }, { count: sub(add(count, 1), 1) })`. -/
def thereAndBack : KeyCall Unit :=
  .update first
    (some [("count", .binary .sub (.binary .add (.col "count") (.plain (.number (some 1))))
      (.plain (.number (some 1))))])

/-- `update({ id: 1 }, { count: sub(count, 1), mark })`. -/
def countedDown (mark : Plain Unit) : KeyCall Unit :=
  .update first
    (some [("count", .binary .sub (.col "count") (.plain (.number (some 1)))),
      ("mark", .plain mark)])

theorem byKey_update {changes : TableChanges κ} {fields : Fields κ}
    {set : Option (List (String × Expression κ))} {key other : Key}
    (hkey : table.encodeKey json fields "update" = .ok key) (hother : other ≠ key) :
    ((KeyCall.update fields set).perform json table changes).byKey other = changes.byKey other := by
  unfold KeyCall.perform
  cases hmake : (KeyCall.update fields set).make json table changes with
  | error error => rfl
  | ok next =>
    obtain ⟨encoded, hencoded, hnext⟩ := bind_eq_ok hmake
    obtain ⟨compiled, -, hnext⟩ := bind_eq_ok hnext
    obtain rfl := ok.inj (hkey.symm.trans hencoded)
    cases hnext
    exact update_of_ne hother _ _

/-- A transaction of one update of id 1 updates no other row. -/
theorem updates_first {set : Option (List (String × Expression Unit))}
    {test : Row Unit → ExprNode Unit → Bool} (h : Updates truthJson counts greatestCount
      (performAll truthJson counts [.update first set]) test) :
    anyWrite test (greatestCount.rowOf [.integer 1])
      ((performAll truthJson counts [.update first set]).byKey [.integer 1]) = true := by
  obtain ⟨key, hkey⟩ := h
  by_cases hfirst : key = [.integer 1]
  · exact hfirst ▸ hkey
  · have hnone : (performAll truthJson counts [.update first set]).byKey key = [] :=
      byKey_update rfl hfirst
    rw [hnone] at hkey
    cases hkey

theorem jsonKept_countedDown : JsonKept truthJson counts greatestCount
    (performAll truthJson counts [countedDown (.bool true)]) [.integer 1] := by
  intro _ name value hvalue
  have hgiven : givenAfter (fun _ => none)
      ((performAll truthJson counts [countedDown (.bool true)]).byKey [.integer 1]) =
        update (update (fun _ => none) "count" none) "mark"
          (some (.bool true)) := rfl
  rw [hgiven] at hvalue
  by_cases hname : name = "mark"
  · subst hname
    rw [update_self] at hvalue
    cases hvalue
    rfl
  · have hnone : update (fun _ => none) "count" none name = some value :=
      (update_of_ne hname _ _).symm.trans hvalue
    rw [update_eq_self_iff.mpr rfl] at hnone
    cases hnone

end KnightCode.Store
