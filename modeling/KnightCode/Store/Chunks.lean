import KnightCode.Store.DataSteps
import KnightCode.Library.Pointwise

/-!
# Chunks of a `rows` step

A page holds the first of the rows below the version after a key, in key order; keys are totally
ordered. The writes of a chunk's patches change the chunk's rows, each by its own patch, and no
other row.
-/

namespace KnightCode.Store

open List Except

variable {κ φ : Type}

/-! ### The order of keys -/

theorem comparePoints_eq (a b : List ℕ) :
    Utf8.comparePoints a b = List.compareLex Ord.compare a b := by
  induction a generalizing b with
  | nil => cases b <;> rfl
  | cons n a ih =>
    cases b with
    | nil => rfl
    | cons m b =>
      rw [Utf8.comparePoints, List.compareLex_cons_cons, ← ih]
      obtain h | h | h := lt_trichotomy n m
      · rw [if_pos h, compare_lt_iff_lt.mpr h]
        rfl
      · rw [if_neg h.not_lt, if_neg h.not_gt, compare_eq_iff_eq.mpr h]
        rfl
      · rw [if_neg h.not_gt, if_pos h, compare_gt_iff_gt.mpr h]
        rfl

theorem compare_intCast (a b : ℤ) : Ord.compare (a : ℚ) (b : ℚ) = Ord.compare a b := by
  obtain h | h | h := lt_trichotomy a b
  · rw [compare_lt_iff_lt.mpr h, compare_lt_iff_lt.mpr (Int.cast_lt.mpr h)]
  · rw [compare_eq_iff_eq.mpr h, compare_eq_iff_eq.mpr (congrArg Int.cast h)]
  · rw [compare_gt_iff_gt.mpr h, compare_gt_iff_gt.mpr (Int.cast_lt.mpr h)]

namespace SqlValue

def kind : SqlValue → ℕ
  | .null => 0
  | .integer _ => 1
  | .real _ => 1
  | .text _ => 2

def number : SqlValue → ℚ
  | .integer value => value
  | .real value => value
  | _ => 0

def points : SqlValue → List ℕ
  | .text points => points
  | _ => []

theorem compare_eq (a b : SqlValue) : a.compare b =
    compareLex (compareOn kind) (compareLex (compareOn number)
      fun a b => List.compareLex Ord.compare a.points b.points) a b := by
  cases a <;> cases b <;>
    simp [SqlValue.compare, compareLex, compareOn, kind, number, points, compare_intCast,
      comparePoints_eq, List.compareLex_nil_nil] <;> rfl

instance : Std.TransCmp SqlValue.compare := by
  have hpoints : Std.TransCmp (fun a b : SqlValue =>
      List.compareLex Ord.compare a.points b.points) :=
    { eq_swap := @fun a b =>
        @Std.OrientedCmp.eq_swap _ (List.compareLex Ord.compare) _ a.points b.points
      isLE_trans := @fun a b c =>
        @Std.TransCmp.isLE_trans _ (List.compareLex Ord.compare) _ a.points b.points c.points }
  have heq : SqlValue.compare = compareLex (compareOn kind) (compareLex (compareOn number)
      fun a b => List.compareLex Ord.compare a.points b.points) :=
    funext fun a => funext fun b => compare_eq a b
  rw [heq]
  infer_instance

end SqlValue

instance : Std.TransCmp rowCompare :=
  inferInstanceAs (Std.TransCmp (List.compareLex SqlValue.compare))

theorem SqlValue.Keyed.eq_of_compare {a b : SqlValue} (ha : a.Keyed) (hb : b.Keyed)
    (h : a.compare b = .eq) : a = b := by
  obtain ⟨s, rfl⟩ | ⟨n, rfl⟩ := ha
  · obtain ⟨t, rfl⟩ | ⟨m, rfl⟩ := hb
    · exact congrArg SqlValue.text (Utf8.eq_of_comparePoints h)
    · cases h
  · obtain ⟨t, rfl⟩ | ⟨m, rfl⟩ := hb
    · cases h
    · exact congrArg SqlValue.integer (compare_eq_iff_eq.mp h)

theorem eq_of_rowCompare {a b : Key} (ha : ∀ value ∈ a, value.Keyed)
    (hb : ∀ value ∈ b, value.Keyed) (h : rowCompare a b = .eq) : a = b := by
  unfold rowCompare at h
  induction a generalizing b with
  | nil =>
    cases b with
    | nil => rfl
    | cons m b => cases h
  | cons n a ih =>
    cases b with
    | nil => cases h
    | cons m b =>
      rw [List.compareLex_cons_cons, Ordering.then_eq_eq] at h
      have hfirst := (ha n mem_cons_self).eq_of_compare (hb m mem_cons_self) h.1
      rw [hfirst, ih (fun value hvalue => ha value (mem_cons_of_mem _ hvalue))
        (fun value hvalue => hb value (mem_cons_of_mem _ hvalue)) h.2]

/-! ### Pages -/

section Page

variable {sql : SqlTable} {key : List String} {v : ℕ} {after : Option Key} {row : PhysicalRow}

def inOrder (sql : SqlTable) (key : List String) (v : ℕ) (after : Option Key) : Rows :=
  (sql.rows.filter fun row =>
      below v row && after.all fun last => rowCompare (keyBy key row) last = .gt).mergeSort
    fun a b => (rowCompare (keyBy key a) (keyBy key b)).isLE

theorem page_eq (limit : ℕ) : page sql key v after limit = (inOrder sql key v after).take limit :=
  rfl

theorem mem_inOrder : row ∈ inOrder sql key v after ↔
    row ∈ sql.rows ∧ below v row = true ∧
      ∀ last ∈ after, rowCompare (keyBy key row) last = .gt := by
  unfold inOrder
  rw [mem_mergeSort, mem_filter, Bool.and_eq_true, Option.all_eq_true]
  refine and_congr_right fun _ => and_congr_right fun _ => ?_
  exact forall₂_congr fun last _ => decide_eq_true_iff

theorem inOrder_sorted : (inOrder sql key v after).Pairwise fun a b =>
    (rowCompare (keyBy key a) (keyBy key b)).isLE = true := by
  have htrans : ∀ a b c : PhysicalRow,
      (rowCompare (keyBy key a) (keyBy key b)).isLE = true →
      (rowCompare (keyBy key b) (keyBy key c)).isLE = true →
      (rowCompare (keyBy key a) (keyBy key c)).isLE = true :=
    fun a b c hab hbc => Std.TransCmp.isLE_trans hab hbc
  have htotal : ∀ a b : PhysicalRow, ((rowCompare (keyBy key a) (keyBy key b)).isLE ||
      (rowCompare (keyBy key b) (keyBy key a)).isLE) = true := by
    intro a b
    cases h : (rowCompare (keyBy key a) (keyBy key b)).isLE with
    | true => rfl
    | false =>
      have hgt := Ordering.isLE_eq_false.mp h
      exact Ordering.isLE_of_eq_lt (Std.OrientedCmp.lt_of_gt hgt)
  exact pairwise_mergeSort htrans htotal _

theorem inOrder_behind {n : ℕ} {last : PhysicalRow}
    (hlast : (inOrder sql key v after)[n]? = some last) (hrow : row ∈ inOrder sql key v after)
    (hbehind : row ∉ (inOrder sql key v after).take (n + 1)) :
    (rowCompare (keyBy key last) (keyBy key row)).isLE = true := by
  have hsorted : (inOrder sql key v after).Pairwise fun a b =>
      (rowCompare (keyBy key a) (keyBy key b)).isLE = true := inOrder_sorted
  have hmem : last ∈ (inOrder sql key v after).take (n + 1) := by
    refine mem_of_getElem? (i := n) ?_
    rw [getElem?_take_of_lt (lt_add_one n), hlast]
  rw [← take_append_drop (n + 1) (inOrder sql key v after)] at hsorted hrow
  have hdrop := (mem_append.mp hrow).resolve_left hbehind
  exact (pairwise_append.mp hsorted).2.2 last hmem row hdrop

end Page

/-! ### The writes of a chunk -/

section Writes

variable {json : JsonCodec κ} {table : TableDefinition κ}
  {patch : Row κ → Option (List (String × Plain κ))} {v : ℕ}

theorem commit_append (stored : StoredTable φ) (first second : List (TableWrite φ)) :
    stored.commit (first ++ second) = (stored.commit first).bind fun stored =>
      stored.commit second :=
  foldlM_append

theorem eq_of_key {rows : Rows} {key : List String} (h : (rows.map (keyBy key)).Nodup)
    {a b : PhysicalRow} (ha : a ∈ rows) (hb : b ∈ rows) (heq : keyBy key a = keyBy key b) : a = b :=
  inj_on_of_nodup_map h ha hb heq

variable {stored : StoredTable φ}

theorem write_patch_rows {row : PhysicalRow} {write : TableWrite φ}
    (hwrite : patchRow json table patch v row = .ok write)
    (hcolumns : stored.sql.columns = table.shape.sqlColumns)
    (hdistinct : (stored.sql.rows.map (keyBy table.key)).Nodup) (hrow : row ∈ stored.sql.rows) :
    (stored.write write = none ∧ (DataStep.rows table patch).row json v row = none) ∨
    ∃ rows, stored.write write = some (stored.withSql { stored.sql with rows := rows }) ∧
      List.Forall₂ (fun each after => keyBy table.key after = keyBy table.key each ∧
        if keyBy table.key each = keyBy table.key row then
          (DataStep.rows table patch).row json v each = some after
        else after = each) stored.sql.rows rows := by
  obtain ⟨set, hset, -⟩ := map_eq_ok hwrite
  obtain ⟨other, hother, happly⟩ := write_patch hset stored
  obtain rfl := ok.inj (hwrite.symm.trans hother)
  have hstep : updateRow stored.sql.columns (boundSet json table set v) row =
      (DataStep.rows table patch).row json v row := by
    rw [DataStep.row, hset, hcolumns]
  rw [happly, SqlTable.update]
  cases hmap : stored.sql.rows.mapM (fun each =>
      if keyBy table.key each = keyBy table.key row then
        updateRow stored.sql.columns (boundSet json table set v) each else some each) with
  | none =>
    refine .inl ⟨?_, ?_⟩
    · simp only [decide_eq_true_eq]
      rw [hmap]
      rfl
    · obtain ⟨each, heach, hnone⟩ := Pointwise.exists_of_mapM hmap
      split_ifs at hnone with hkey
      obtain rfl := eq_of_key hdistinct heach hrow hkey
      exact hstep ▸ hnone
  | some rows =>
    refine .inr ⟨rows, ?_, ?_⟩
    · simp only [decide_eq_true_eq]
      rw [hmap]
      rfl
    · refine Pointwise.imp (Pointwise.of_mapM hmap) fun each heach after hafter => ?_
      by_cases hkey : keyBy table.key each = keyBy table.key row
      · obtain rfl := eq_of_key hdistinct heach hrow hkey
        rw [if_pos hkey] at hafter
        refine ⟨map_congr_left fun name hname => ?_, ?_⟩
        · exact updateRow_key json table hafter fun entry hentry heq =>
            patchSet_key hset entry hentry (heq ▸ hname)
        · rw [if_pos hkey, ← hstep, hafter]
      · rw [if_neg hkey] at hafter
        obtain rfl := Option.some.inj hafter
        rw [if_neg hkey]
        exact ⟨rfl, rfl⟩

theorem exists_of_mapM_error {ε α β : Type} {f : α → Except ε β} {l : List α} {error : ε}
    (h : l.mapM f = .error error) : ∃ a ∈ l, f a = .error error := by
  induction l with
  | nil => cases h
  | cons a l ih =>
    rw [mapM_cons] at h
    cases ha : f a with
    | error first =>
      rw [ha] at h
      cases h
      exact ⟨a, mem_cons_self, ha⟩
    | ok b =>
      cases hl : l.mapM f with
      | error second =>
        rw [ha, hl] at h
        cases h
        obtain ⟨other, hother, herror⟩ := ih hl
        exact ⟨other, mem_cons_of_mem _ hother, herror⟩
      | ok m =>
        rw [ha, hl] at h
        cases h

theorem row_of_patchRow {row : PhysicalRow} {error : String}
    (h : (patchRow json table patch v row : Except String (TableWrite φ)) = .error error) :
    (DataStep.rows table patch).row json v row = none := by
  rw [DataStep.row]
  cases hset : patchSet json table patch v row with
  | error error => rfl
  | ok set =>
    rw [patchRow, hset] at h
    cases h

theorem commit_patches {chunk : Rows} {writes : List (TableWrite φ)}
    (hwrites : chunk.mapM (patchRow json table patch v) = .ok writes)
    (hcolumns : stored.sql.columns = table.shape.sqlColumns)
    (hdistinct : (stored.sql.rows.map (keyBy table.key)).Nodup)
    (hchunk : (chunk.map (keyBy table.key)).Nodup) (hmem : ∀ row ∈ chunk, row ∈ stored.sql.rows) :
    (stored.commit writes = none ∧
      ∃ row ∈ chunk, (DataStep.rows table patch).row json v row = none) ∨
    ∃ rows, stored.commit writes = some (stored.withSql { stored.sql with rows := rows }) ∧
      List.Forall₂ (fun row after => if keyBy table.key row ∈ chunk.map (keyBy table.key) then
          (DataStep.rows table patch).row json v row = some after
        else after = row) stored.sql.rows rows := by
  induction chunk generalizing stored writes with
  | nil =>
    cases hwrites
    refine .inr ⟨stored.sql.rows, rfl, forall₂_same.mpr fun row _ => ?_⟩
    rw [map_nil, if_neg not_mem_nil]
  | cons row chunk ih =>
    rw [mapM_cons] at hwrites
    obtain ⟨write, hwrite, hwrites⟩ := bind_eq_ok hwrites
    obtain ⟨others, hothers, hwrites⟩ := bind_eq_ok hwrites
    cases hwrites
    obtain ⟨hfresh, hchunk⟩ := nodup_cons.mp hchunk
    have hcommit : stored.commit (write :: others) =
        (stored.write write).bind fun stored => stored.commit others := foldlM_cons
    rw [hcommit]
    obtain ⟨hnone, hfails⟩ | ⟨rows, hfirst, hrelated⟩ :=
      write_patch_rows hwrite hcolumns hdistinct (hmem row mem_cons_self)
    · refine .inl ⟨by rw [hnone]; rfl, row, mem_cons_self, hfails⟩
    · rw [hfirst, Option.bind_some]
      have hkeys : stored.sql.rows.map (keyBy table.key) = rows.map (keyBy table.key) :=
        Pointwise.map_eq (Pointwise.imp hrelated fun _ _ _ h => h.1.symm)
      have hkept : ∀ each ∈ chunk, each ∈ rows := by
        intro each heach
        obtain ⟨after, hafter, -, hchanged⟩ :=
          Pointwise.exists_right hrelated (hmem each (mem_cons_of_mem _ heach))
        have hne : keyBy table.key each ≠ keyBy table.key row := fun heq =>
          hfresh (heq ▸ mem_map_of_mem heach)
        rw [if_neg hne] at hchanged
        exact hchanged ▸ hafter
      obtain ⟨hnone, other, hother, hfails⟩ | ⟨last, hlast, hrest⟩ :=
        @ih (stored.withSql { stored.sql with rows := rows }) others hothers hcolumns
          (hkeys ▸ hdistinct) hchunk hkept
      · exact .inl ⟨hnone, other, mem_cons_of_mem _ hother, hfails⟩
      · refine .inr ⟨last, hlast, Pointwise.comp hrelated hrest fun each _ between after h h' => ?_⟩
        obtain ⟨hkey, h⟩ := h
        rw [hkey] at h'
        rw [map_cons]
        by_cases hown : keyBy table.key each = keyBy table.key row
        · rw [if_pos hown] at h
          rw [hown, if_neg hfresh] at h'
          rw [if_pos (hown ▸ mem_cons_self), h', h]
        · rw [if_neg hown] at h
          subst h
          by_cases hin : keyBy table.key between ∈ chunk.map (keyBy table.key)
          · rw [if_pos hin] at h'
            rw [if_pos (mem_cons_of_mem _ hin), h']
          · rw [if_neg hin] at h'
            rw [if_neg, h']
            exact fun hcons => (mem_cons.mp hcons).elim hown hin

end Writes

end KnightCode.Store
