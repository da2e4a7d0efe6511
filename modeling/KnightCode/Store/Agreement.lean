import KnightCode.Store.Exact
import KnightCode.Store.Sql

/-!
# One expression, two interpreters

Where a stored row has a row's scalars (`Reads`), the SQL rendered for a typed condition has the
condition's exact truth, and the SQL of a typed expression the expression's exact value, unless a
sum or difference overflows 64 bits.
Rendering pushes a node's own parameters behind those there are, and binding takes them back in the
order of the text (`Binds`).
-/

namespace KnightCode.Store

open List Option Except

variable {κ : Type} {json : JsonCodec κ} {table : TableDefinition κ} {row : Row κ}
  {stored : PhysicalRow}
variable {type : ScalarType} {column : String}

/-! ### Scalars of a stored row -/

/-- The scalar columns of `stored` hold those of `row`, each a value of its column's type. -/
def Reads (table : TableDefinition κ) (row : Row κ) (stored : PhysicalRow) : Prop :=
  ∀ name type, table.HasColumn name type →
    (row name = none ∧ stored (.cell name) = .null) ∨
    ∃ value : Scalar, row name = some (.scalar value) ∧ value.Typed type ∧
      stored (.cell name) = toSqlite value

theorem toSqlite_ne_null (value : Scalar) : toSqlite value ≠ .null := by
  cases value <;> exact fun h => by cases h

variable {a b : Scalar}

theorem compareScalar_toSqlite (ha : a.Typed type) (hb : b.Typed type) :
    (compareScalar a b < 0 ↔ (toSqlite a).compare (toSqlite b) = .lt) ∧
      (0 < compareScalar a b ↔ (toSqlite a).compare (toSqlite b) = .gt) := by
  cases type with
  | str =>
    cases a with
    | text a =>
      cases b with
      | text b =>
        obtain ⟨hlt, hgt⟩ := Utf8.compareText_points ha hb
        rw [compareScalar, toSqlite, toSqlite, SqlValue.compare, ← hlt, ← hgt]
        exact ⟨Int.cast_lt_zero, Int.cast_pos⟩
      | _ => cases hb
    | _ => cases ha
  | int =>
    cases a with
    | int a =>
      cases b with
      | int b =>
        rw [compareScalar, toSqlite, toSqlite, SqlValue.compare, compare_lt_iff_lt,
          compare_gt_iff_gt, sub_lt_zero, sub_pos, Int.cast_lt, Int.cast_lt]
        exact ⟨Iff.rfl, Iff.rfl⟩
      | _ => cases hb
    | _ => cases ha
  | num =>
    cases a with
    | num a =>
      cases b with
      | num b =>
        rw [compareScalar, toSqlite, toSqlite, SqlValue.compare, compare_lt_iff_lt,
          compare_gt_iff_gt, sub_lt_zero, sub_pos]
        exact ⟨Iff.rfl, Iff.rfl⟩
      | _ => cases hb
    | _ => cases ha
  | bool =>
    cases a with
    | bool a =>
      cases b with
      | bool b =>
        cases a <;> cases b <;>
          simp [compareScalar, toSqlite, SqlValue.compare, ofBool, compare_lt_iff_lt,
            compare_gt_iff_gt]
      | _ => cases hb
    | _ => cases ha

theorem holds_toSqlite (ha : a.Typed type) (hb : b.Typed type) (op : Comparison) :
    op.sqlHolds ((toSqlite a).compare (toSqlite b)) = op.holds (compareScalar a b) := by
  obtain ⟨hlt, hgt⟩ := compareScalar_toSqlite ha hb
  obtain h | h | h := lt_trichotomy (compareScalar a b) 0
  · rw [hlt.mp h]
    cases op <;> simp [Comparison.sqlHolds, Comparison.holds, h, h.ne, h.le, h.not_gt, h.not_ge]
  · have heq : (toSqlite a).compare (toSqlite b) = .eq := by
      cases hsql : (toSqlite a).compare (toSqlite b) with
      | lt => exact absurd h (hlt.mpr hsql).ne
      | gt => exact absurd h (hgt.mpr hsql).ne'
      | eq => rfl
    rw [heq, h]
    cases op <;> decide
  · rw [hgt.mp h]
    cases op <;> simp [Comparison.sqlHolds, Comparison.holds, h, h.ne', h.le, h.not_gt, h.not_ge]

/-! ### Conditions -/

theorem sqlAnd_eq (a b : Truth) : sqlAnd a b = both a b := by
  obtain _ | _ | _ := a <;> obtain _ | _ | _ := b <;> rfl

theorem sqlOr_eq (a b : Truth) : sqlOr a b = either a b := by
  obtain _ | _ | _ := a <;> obtain _ | _ | _ := b <;> rfl

/-- Behind any parameters the rendering is `text` and pushes its `own`, which the text takes back
to be `bound`. -/
def Binds {α : Type} (bind : α → List Param → Rendered α) (render : List Param → Rendered α)
    (text : α) (own : List Param) (bound : α) : Prop :=
  (∀ params, render params = (text, params ++ own)) ∧ ∀ rest, bind text (own ++ rest) = (bound, rest)

theorem Binds.of_nil {α : Type} {bind : α → List Param → Rendered α}
    {render : List Param → Rendered α} {text : α} (hrender : ∀ params, render params = (text, params))
    {bound : α} (hbind : ∀ rest, bind text rest = (bound, rest)) :
    Binds bind render text [] bound := by
  refine ⟨fun params => ?_, hbind⟩
  rw [hrender, append_nil]

theorem eval_compare (hreads : Reads table row stored) {operand : Scalar}
    (hcolumn : table.HasColumn column type) (hoperand : operand.Fits type) (op : Comparison) :
    (SqlCondition.compare op (.column (.cell column)) (.bound (toSqlite operand))).eval stored =
      exactTruth row (.compare op column operand) := by
  rw [SqlCondition.eval, SqlExpr.eval, SqlExpr.eval, exactTruth, sqlCompare]
  obtain ⟨hrow, hstored⟩ | ⟨value, hrow, htyped, hstored⟩ := hreads column type hcolumn
  · rw [hrow, hstored]
    rfl
  · rw [hrow, hstored, if_neg (not_or.mpr ⟨toSqlite_ne_null value, toSqlite_ne_null operand⟩),
      holds_toSqlite htyped hoperand.typed]
    rfl

theorem eval_inArray (hreads : Reads table row stored) {values : List Scalar}
    (hcolumn : table.HasColumn column type) (hvalues : ∀ value ∈ values, value.Fits type) :
    (SqlCondition.boundEach (.column (.cell column)) (values.map toSqlite)).eval stored =
      exactTruth row (.inArray column values) := by
  rw [SqlCondition.eval, SqlExpr.eval, exactTruth, sqlIn]
  cases values with
  | nil => rfl
  | cons first rest =>
    have hbound : (first :: rest).map toSqlite ≠ [] := cons_ne_nil _ _
    have hvalued : ¬ (first :: rest).isEmpty = true := Bool.false_ne_true
    rw [if_neg hbound, if_neg hvalued]
    obtain ⟨hrow, hstored⟩ | ⟨value, hrow, htyped, hstored⟩ := hreads column type hcolumn
    · rw [hrow, hstored]
      rfl
    · rw [hrow, hstored, if_neg (toSqlite_ne_null value), List.any_map]
      refine congrArg some (Bool.eq_iff_iff.mpr ?_)
      rw [List.any_eq_true, List.any_eq_true]
      refine exists_congr fun each => and_congr_right fun heach => ?_
      exact Bool.eq_iff_iff.mp (holds_toSqlite htyped (hvalues each heach).typed .eq)

theorem eval_isNull (hreads : Reads table row stored) (hcolumn : table.HasColumn column type) :
    (SqlCondition.isNull (.column (.cell column))).eval stored = exactTruth row (.isNull column) := by
  rw [SqlCondition.eval, SqlExpr.eval, exactTruth]
  obtain ⟨hrow, hstored⟩ | ⟨value, hrow, -, hstored⟩ := hreads column type hcolumn
  · rw [hrow, hstored]
    rfl
  · rw [hrow, hstored, decide_eq_false (toSqlite_ne_null value)]
    rfl

theorem reads_text (hreads : Reads table row stored) (hcolumn : table.HasColumn column .str)
    (text : Text) :
    (stored (.cell column) = .null ∧ exactTruth row (.startsWith column text) = none) ∨
      ∃ value, stored (.cell column) = .text (Utf8.points value) ∧ Utf8.WellFormed value ∧
        exactTruth row (.startsWith column text) = some (text.isPrefixOf value) := by
  rw [exactTruth]
  obtain ⟨hrow, hstored⟩ | ⟨value, hrow, htyped, hstored⟩ := hreads column .str hcolumn
  · exact .inl ⟨hstored, by rw [hrow]; rfl⟩
  · cases value with
    | text value => exact .inr ⟨value, hstored, htyped, by rw [hrow]; rfl⟩
    | _ => cases htyped

theorem eval_above (hreads : Reads table row stored) {text : Text}
    (hcolumn : table.HasColumn column .str) (htext : Utf8.WellFormed text)
    (hupper : Utf8.prefixUpperBound text = none) :
    (SqlCondition.compare .gte (.column (.cell column)) (.bound (toSqlite (.text text)))).eval
      stored = exactTruth row (.startsWith column text) := by
  rw [SqlCondition.eval, SqlExpr.eval, SqlExpr.eval, sqlCompare]
  obtain ⟨hstored, htruth⟩ | ⟨value, hstored, hvalue, htruth⟩ := reads_text hreads hcolumn text
  · rw [hstored, htruth]
    rfl
  · rw [hstored, htruth, if_neg (by simp [toSqlite])]
    have hprefix := (Utf8.isPrefix_iff htext hvalue).2 hupper
    rw [← isPrefixOf_iff_prefix] at hprefix
    exact congrArg some (Bool.eq_iff_iff.mpr ((decide_eq_true_iff).trans hprefix))

theorem eval_between (hreads : Reads table row stored) {text upper : Text}
    (hcolumn : table.HasColumn column .str) (htext : Utf8.WellFormed text)
    (hupper : Utf8.prefixUpperBound text = some upper) :
    (SqlCondition.and (.compare .gte (.column (.cell column)) (.bound (toSqlite (.text text))))
        (.compare .lt (.column (.cell column)) (.bound (toSqlite (.text upper))))).eval stored =
      exactTruth row (.startsWith column text) := by
  rw [SqlCondition.eval, SqlCondition.eval, SqlCondition.eval, SqlExpr.eval, SqlExpr.eval,
    SqlExpr.eval, sqlCompare, sqlCompare]
  obtain ⟨hstored, htruth⟩ | ⟨value, hstored, hvalue, htruth⟩ := reads_text hreads hcolumn text
  · rw [hstored, htruth]
    rfl
  · rw [hstored, htruth, if_neg (by simp [toSqlite]), if_neg (by simp [toSqlite])]
    have hprefix := (Utf8.isPrefix_iff htext hvalue).1 upper hupper
    rw [← isPrefixOf_iff_prefix] at hprefix
    rw [sqlAnd_eq]
    have hboth : ∀ a b : Bool, both (some a) (some b) = some (a && b) := by decide
    rw [hboth]
    refine congrArg some (Bool.eq_iff_iff.mpr ?_)
    rw [Bool.and_eq_true]
    exact Iff.trans (and_congr decide_eq_true_iff decide_eq_true_iff) hprefix

mutual

/-- A rendered condition takes its parameters back, and then tells what the evaluator does. -/
theorem binds_where (κ : Type) (node : WhereNode) : ∃ text own bound,
    Binds SqlCondition.bind (whereSql node) text own bound ∧
      ∀ {table : TableDefinition κ} {row : Row κ} {stored : PhysicalRow}, Reads table row stored →
        node.Typed table → bound.eval stored = exactTruth row node := by
  cases node with
  | compare op column operand =>
    refine ⟨.compare op (.column (.cell column)) .param, [.value (toSqlite operand)],
      .compare op (.column (.cell column)) (.bound (toSqlite operand)),
      ⟨fun params => rfl, fun rest => rfl⟩, fun hreads htyped => ?_⟩
    obtain ⟨type, hcolumn, hoperand⟩ := htyped
    exact eval_compare hreads hcolumn hoperand op
  | inArray column values =>
    refine ⟨.each (.column (.cell column)), [.array (values.map toSqlite)],
      .boundEach (.column (.cell column)) (values.map toSqlite),
      ⟨fun params => rfl, fun rest => rfl⟩, fun hreads htyped => ?_⟩
    obtain ⟨type, hcolumn, hvalues⟩ := htyped
    exact eval_inArray hreads hcolumn hvalues
  | isNull column =>
    refine ⟨.isNull (.column (.cell column)), [], .isNull (.column (.cell column)),
      .of_nil (fun params => rfl) fun rest => rfl, fun hreads htyped => ?_⟩
    obtain ⟨type, hcolumn⟩ := htyped
    exact eval_isNull hreads hcolumn
  | startsWith column text =>
    cases hupper : Utf8.prefixUpperBound text with
    | none =>
      refine ⟨.compare .gte (.column (.cell column)) .param, [.value (toSqlite (.text text))],
        .compare .gte (.column (.cell column)) (.bound (toSqlite (.text text))), ⟨fun params => ?_,
        fun rest => rfl⟩, fun hreads htyped => eval_above hreads htyped.1 htyped.2 hupper⟩
      rw [whereSql, hupper]
    | some upper =>
      refine ⟨.and (.compare .gte (.column (.cell column)) .param) (.compare .lt (.column (.cell
        column)) .param), [.value (toSqlite (.text text)), .value (toSqlite (.text upper))], .and
        (.compare .gte (.column (.cell column)) (.bound (toSqlite (.text text)))) (.compare .lt
        (.column (.cell column)) (.bound (toSqlite (.text upper)))), ⟨fun params => ?_, fun rest =>
        rfl⟩, fun hreads htyped => eval_between hreads htyped.1 htyped.2 hupper⟩
      rw [whereSql, hupper]
  | and nodes =>
    cases nodes with
    | nil => exact ⟨.truth true, [], .truth true, .of_nil (fun params => rfl) fun rest => rfl,
        fun _ _ => rfl⟩
    | cons first rest =>
      obtain ⟨text, own, bound, ⟨hrender, hbind⟩, heval⟩ := binds_where κ first
      obtain ⟨all, others, whole, hall, hwhole, hvalue⟩ := binds_and κ rest hbind
      refine ⟨all, own ++ others, whole, ⟨fun params => ?_, hwhole⟩, fun hreads htyped => ?_⟩
      · rw [whereSql, hrender, hall, append_assoc]
      · have hboth : ∀ a : Truth, both (some true) a = a := by decide
        rw [hvalue hreads htyped.2, heval hreads htyped.1, exactTruth, exactAnd, if_neg (by decide),
          hboth]
  | or nodes =>
    cases nodes with
    | nil => exact ⟨.truth false, [], .truth false, .of_nil (fun params => rfl) fun rest => rfl,
        fun _ _ => rfl⟩
    | cons first rest =>
      obtain ⟨text, own, bound, ⟨hrender, hbind⟩, heval⟩ := binds_where κ first
      obtain ⟨any, others, whole, hany, hwhole, hvalue⟩ := binds_or κ rest hbind
      refine ⟨any, own ++ others, whole, ⟨fun params => ?_, hwhole⟩, fun hreads htyped => ?_⟩
      · rw [whereSql, hrender, hany, append_assoc]
      · have heither : ∀ a : Truth, either (some false) a = a := by decide
        rw [hvalue hreads htyped.2, heval hreads htyped.1, exactTruth, exactOr, if_neg (by decide),
          heither]
  | not node =>
    obtain ⟨text, own, bound, ⟨hrender, hbind⟩, heval⟩ := binds_where κ node
    refine ⟨.not text, own, .not bound, ⟨fun params => ?_, fun rest => ?_⟩, fun hreads htyped => ?_⟩
    · rw [whereSql, hrender]
    · rw [SqlCondition.bind, hbind]
    · rw [SqlCondition.eval, heval hreads htyped, exactTruth]

theorem binds_and (κ : Type) (nodes : List WhereNode) {all boundAll : SqlCondition}
    {ownAll : List Param} (hbind : ∀ rest, all.bind (ownAll ++ rest) = (boundAll, rest)) :
    ∃ text own bound, (∀ params, andSql all nodes params = (text, params ++ own)) ∧
      (∀ rest, SqlCondition.bind text ((ownAll ++ own) ++ rest) = (bound, rest)) ∧
      ∀ {table : TableDefinition κ} {row : Row κ} {stored : PhysicalRow}, Reads table row stored →
        WhereNode.AllTyped table nodes →
          bound.eval stored = exactAnd row (boundAll.eval stored) nodes := by
  cases nodes with
  | nil =>
    refine ⟨all, [], boundAll, fun params => ?_, fun rest => ?_, fun _ _ => rfl⟩
    · rw [andSql, append_nil]
    · rw [append_nil, hbind]
  | cons node nodes =>
    obtain ⟨text, own, bound, ⟨hrender, hbound⟩, heval⟩ := binds_where κ node
    have hboth : ∀ rest, (SqlCondition.and all text).bind ((ownAll ++ own) ++ rest) =
        (.and boundAll bound, rest) := by
      intro rest
      rw [SqlCondition.bind, append_assoc, hbind, hbound]
    obtain ⟨whole, others, boundWhole, hwhole, htakes, hvalue⟩ := binds_and κ nodes hboth
    refine ⟨whole, own ++ others, boundWhole, fun params => ?_, fun rest => ?_,
      fun hreads htyped => ?_⟩
    · rw [andSql, hrender, hwhole, append_assoc]
    · rw [← append_assoc]
      exact htakes rest
    · rw [hvalue hreads htyped.2, SqlCondition.eval, heval hreads htyped.1, sqlAnd_eq, exactAnd]
      split_ifs with hfalse
      · rw [hfalse]
        rfl
      · rfl

theorem binds_or (κ : Type) (nodes : List WhereNode) {any boundAny : SqlCondition}
    {ownAny : List Param} (hbind : ∀ rest, any.bind (ownAny ++ rest) = (boundAny, rest)) :
    ∃ text own bound, (∀ params, orSql any nodes params = (text, params ++ own)) ∧
      (∀ rest, SqlCondition.bind text ((ownAny ++ own) ++ rest) = (bound, rest)) ∧
      ∀ {table : TableDefinition κ} {row : Row κ} {stored : PhysicalRow}, Reads table row stored →
        WhereNode.AllTyped table nodes →
          bound.eval stored = exactOr row (boundAny.eval stored) nodes := by
  cases nodes with
  | nil =>
    refine ⟨any, [], boundAny, fun params => ?_, fun rest => ?_, fun _ _ => rfl⟩
    · rw [orSql, append_nil]
    · rw [append_nil, hbind]
  | cons node nodes =>
    obtain ⟨text, own, bound, ⟨hrender, hbound⟩, heval⟩ := binds_where κ node
    have heither : ∀ rest, (SqlCondition.or any text).bind ((ownAny ++ own) ++ rest) =
        (.or boundAny bound, rest) := by
      intro rest
      rw [SqlCondition.bind, append_assoc, hbind, hbound]
    obtain ⟨whole, others, boundWhole, hwhole, htakes, hvalue⟩ := binds_or κ nodes heither
    refine ⟨whole, own ++ others, boundWhole, fun params => ?_, fun rest => ?_,
      fun hreads htyped => ?_⟩
    · rw [orSql, hrender, hwhole, append_assoc]
    · rw [← append_assoc]
      exact htakes rest
    · rw [hvalue hreads htyped.2, SqlCondition.eval, heval hreads htyped.1, sqlOr_eq, exactOr]
      split_ifs with htrue
      · rw [htrue]
        rfl
      · rfl

end

/-! ### Expressions -/

theorem exactOperate_typed {op : Operation} (hop : type ∈ op.types) (ha : a.Typed type)
    (hb : b.Typed type) :
    ∃ value, (exactOperate op a b : Option (Cell κ)) = some (.scalar value) ∧ value.Typed type := by
  cases op with
  | max | min =>
    refine ⟨_, rfl, ?_⟩
    split_ifs
    · exact ha
    · exact hb
  | concat =>
    obtain rfl : type = .str := mem_singleton.mp hop
    cases a with
    | text a =>
      cases b with
      | text b => exact ⟨_, rfl, Utf8.wellFormed_append ha hb⟩
      | _ => cases hb
    | _ => cases ha
  | add | sub =>
    obtain rfl : type = .int := mem_singleton.mp hop
    cases a with
    | int a =>
      cases b with
      | int b => exact ⟨_, rfl, trivial⟩
      | _ => cases hb
    | _ => cases ha

theorem exact_typed (hreads : Reads table row stored) {node : ExprNode κ}
    (htyped : node.Typed table type) :
    exact row node = none ∨ ∃ value, exact row node = some (.scalar value) ∧ value.Typed type := by
  induction node with
  | null => exact .inl rfl
  | literal value => exact .inr ⟨value, rfl, htyped.typed⟩
  | col name =>
    obtain ⟨hrow, -⟩ | ⟨value, hrow, hvalue, -⟩ := hreads name type htyped
    · exact .inl hrow
    · exact .inr ⟨value, hrow, hvalue⟩
  | json value => exact absurd htyped id
  | when condition a b iha ihb =>
    rw [exact]
    split_ifs
    · exact iha htyped.2.1
    · exact ihb htyped.2.2
  | coalesce a b iha ihb =>
    rw [exact]
    obtain ha | ⟨value, ha, hvalue⟩ := iha htyped.1
    · rw [ha]
      exact ihb htyped.2
    · exact .inr ⟨value, by rw [ha]; rfl, hvalue⟩
  | replacePrefix subject from' to' ih =>
    obtain ⟨rfl, hsubject, hfrom, hto⟩ := htyped
    rw [exact]
    obtain hnone | ⟨value, hvalue, hwell⟩ := ih hsubject
    · exact .inl (by rw [hnone]; rfl)
    · rw [hvalue]
      cases value with
      | text text =>
        rw [replacePrefix]
        split_ifs with hprefix
        · have hdrop := Utf8.wellFormed_drop hfrom hwell ( isPrefixOf_iff_prefix.mp hprefix)
          exact .inr ⟨_, rfl, Utf8.wellFormed_append hto hdrop.1⟩
        · exact .inr ⟨_, rfl, hwell⟩
      | _ => cases hwell
  | binary op a b iha ihb =>
    obtain ⟨hop, ha, hb⟩ := htyped
    rw [exact]
    obtain hnone | ⟨left, hleft, hltyped⟩ := iha ha
    · exact .inl (by rw [hnone]; rfl)
    · rw [hleft]
      obtain hnone | ⟨right, hright, hrtyped⟩ := ihb hb
      · exact .inl (by rw [hnone]; rfl)
      · rw [hright]
        exact .inr (exactOperate_typed hop hltyped hrtyped)

/-- The columns that are not `opt(...)` have values. -/
def Filled (table : TableDefinition κ) (row : Row κ) : Prop :=
  ∀ name column, table.byName name = some column → column.optional = false → row name ≠ none

/-- A compiled expression is typed, and has a value where it is said not to be nullable. -/
theorem compileExpr_spec {what : String} {expression : Expression κ} {node : ExprNode κ}
    {nullable : Bool} (h : compileExpr json table type what expression = .ok (node, nullable)) :
    node.Typed table type ∧ (nullable = false → ∀ row stored, Reads table row stored →
      Filled table row → exact row node ≠ none) := by
  cases expression with
  | plain value =>
    cases value with
    | undefined | null => cases h; exact ⟨trivial, fun hnull => by cases hnull⟩
    | bool value | number value | text value | other value =>
      obtain ⟨scalar, hscalar, h⟩ := map_eq_ok h
      cases h
      exact ⟨checkScalar_fits hscalar, fun _ _ _ _ _ => some_ne_none _⟩
  | col name =>
    rw [compileExpr] at h
    split at h
    · cases h
    · rename_i column hcolumn
      split at h
      · rename_i columnType htype
        split_ifs at h with heq
        · obtain ⟨rfl, hoptional⟩ := Prod.mk.inj (ok.inj h)
          exact ⟨⟨column, hcolumn, heq ▸ htype⟩, fun hnull row stored _ hfilled =>
            hfilled name column hcolumn (hoptional.trans hnull)⟩
        · cases h
      · cases h
  | binary op a b =>
    rw [compileExpr] at h
    split_ifs at h with hop
    · obtain ⟨⟨a', nullA⟩, ha, h⟩ := bind_eq_ok h
      obtain ⟨⟨b', nullB⟩, hb, h⟩ := bind_eq_ok h
      obtain ⟨rfl, hnull⟩ := Prod.mk.inj (ok.inj h)
      obtain ⟨hatyped, ha⟩ := compileExpr_spec ha
      obtain ⟨hbtyped, hb⟩ := compileExpr_spec hb
      refine ⟨⟨hop, hatyped, hbtyped⟩, fun hfalse row stored hreads hfilled => ?_⟩
      obtain ⟨rfl, rfl⟩ := Bool.or_eq_false_iff.mp (hnull.trans hfalse)
      have hleft := exact_typed hreads hatyped
      have hright := exact_typed hreads hbtyped
      rw [or_iff_right (ha rfl row stored hreads hfilled)] at hleft
      rw [or_iff_right (hb rfl row stored hreads hfilled)] at hright
      obtain ⟨left, hleft, hltyped⟩ := hleft
      obtain ⟨right, hright, hrtyped⟩ := hright
      obtain ⟨value, hvalue, -⟩ := exactOperate_typed (κ := κ) hop hltyped hrtyped
      rw [exact, hleft, hright]
      exact fun hnone => some_ne_none _ (hvalue.symm.trans hnone)
    · cases h
  | coalesce a b =>
    rw [compileExpr] at h
    obtain ⟨⟨a', nullA⟩, ha, h⟩ := bind_eq_ok h
    obtain ⟨⟨b', nullB⟩, hb, h⟩ := bind_eq_ok h
    obtain ⟨rfl, hnull⟩ := Prod.mk.inj (ok.inj h)
    obtain ⟨hatyped, ha⟩ := compileExpr_spec ha
    obtain ⟨hbtyped, hb⟩ := compileExpr_spec hb
    refine ⟨⟨hatyped, hbtyped⟩, fun hfalse row stored hreads hfilled => ?_⟩
    rw [exact, ne_eq, or_eq_none_iff]
    rintro ⟨hanone, hbnone⟩
    obtain rfl | rfl := Bool.and_eq_false_iff.mp (hnull.trans hfalse)
    · exact ha rfl row stored hreads hfilled hanone
    · exact hb rfl row stored hreads hfilled hbnone
  | replacePrefix subject from' to' =>
    rw [compileExpr] at h
    split_ifs at h with htype
    · cases h
    · obtain ⟨⟨subject', null⟩, hsubject, h⟩ := bind_eq_ok h
      obtain ⟨first, hfirst, h⟩ := bind_eq_ok h
      obtain ⟨second, hsecond, h⟩ := bind_eq_ok h
      have hfirst := checkScalar_fits hfirst
      have hsecond := checkScalar_fits hsecond
      split at h
      · obtain ⟨rfl, rfl⟩ := Prod.mk.inj (ok.inj h)
        obtain ⟨htyped, hsubject⟩ := compileExpr_spec hsubject
        refine ⟨⟨not_not.mp htype, htyped, hfirst, hsecond⟩,
          fun hfalse row stored hreads hfilled => ?_⟩
        have hvalue := exact_typed hreads htyped
        rw [or_iff_right (hsubject hfalse row stored hreads hfilled)] at hvalue
        obtain ⟨value, hvalue, -⟩ := hvalue
        rw [exact, hvalue]
        cases value with
        | text text =>
          rw [replacePrefix]
          split_ifs <;> exact some_ne_none _
        | _ => exact some_ne_none _
      · cases h
  | when condition a b =>
    rw [compileExpr] at h
    obtain ⟨condition', hcondition, h⟩ := bind_eq_ok h
    obtain ⟨⟨a', nullA⟩, ha, h⟩ := bind_eq_ok h
    obtain ⟨⟨b', nullB⟩, hb, h⟩ := bind_eq_ok h
    obtain ⟨rfl, hnull⟩ := Prod.mk.inj (ok.inj h)
    obtain ⟨hatyped, ha⟩ := compileExpr_spec ha
    obtain ⟨hbtyped, hb⟩ := compileExpr_spec hb
    refine ⟨⟨compileWhere_typed hcondition, hatyped, hbtyped⟩,
      fun hfalse row stored hreads hfilled => ?_⟩
    obtain ⟨rfl, rfl⟩ := Bool.or_eq_false_iff.mp (hnull.trans hfalse)
    rw [exact]
    split_ifs
    · exact ha rfl row stored hreads hfilled
    · exact hb rfl row stored hreads hfilled

/-! ### Rendered expressions -/

def cellSql (json : JsonCodec κ) : Option (Cell κ) → SqlValue
  | none => .null
  | some (.scalar value) => toSqlite value
  | some (.json value) => jsonSql json value

theorem arith_integers {f : ℤ → ℤ → ℤ} {g : ℚ → ℚ → ℚ} {a b : ℤ} (h : overflows (f a b) = false) :
    arith f g (.integer a) (.integer b) = .integer (f a b) := by
  rw [arith, h]
  exact if_neg Bool.false_ne_true

theorem operate_toSqlite (json : JsonCodec κ) {op : Operation} (hop : type ∈ op.types)
    (ha : a.Typed type) (hb : b.Typed type) {left right : SqlExpr}
    (hword : op.reaches overflows (some a) (some b) = false) (hleft : left.eval stored = toSqlite a)
    (hright : right.eval stored = toSqlite b) :
    (op.sql left right).eval stored = cellSql json (exactOperate op a b) := by
  obtain ⟨hlt, hgt⟩ := compareScalar_toSqlite ha hb
  cases op with
  | max =>
    rw [Operation.sql, SqlExpr.eval, hleft, hright, sqlMax, exactOperate,
      if_neg (not_or.mpr ⟨toSqlite_ne_null a, toSqlite_ne_null b⟩)]
    by_cases h : compareScalar a b < 0
    · rw [if_pos (hlt.mp h), if_neg (not_le.mpr h)]
      rfl
    · rw [if_neg (mt hlt.mpr h), if_pos (not_lt.mp h)]
      rfl
  | min =>
    rw [Operation.sql, SqlExpr.eval, hleft, hright, sqlMin, exactOperate,
      if_neg (not_or.mpr ⟨toSqlite_ne_null a, toSqlite_ne_null b⟩)]
    by_cases h : 0 < compareScalar a b
    · rw [if_pos (hgt.mp h), if_neg (not_le.mpr h)]
      rfl
    · rw [if_neg (mt hgt.mpr h), if_pos (not_lt.mp h)]
      rfl
  | concat =>
    obtain rfl : type = .str := mem_singleton.mp hop
    rw [Operation.sql, SqlExpr.eval, hleft, hright]
    cases a with
    | text a =>
      cases b with
      | text b => exact congrArg SqlValue.text (Utf8.points_append ha b).symm
      | _ => cases hb
    | _ => cases ha
  | add | sub =>
    obtain rfl : type = .int := mem_singleton.mp hop
    rw [Operation.sql, SqlExpr.eval, hleft, hright]
    cases a with
    | int a =>
      cases b with
      | int b => exact arith_integers hword
      | _ => cases hb
    | _ => cases ha

theorem operate_null (op : Operation) {left right : SqlExpr}
    (h : left.eval stored = .null ∨ right.eval stored = .null) :
    (op.sql left right).eval stored = .null := by
  cases op with
  | max => rw [Operation.sql, SqlExpr.eval, sqlMax, if_pos h]
  | min => rw [Operation.sql, SqlExpr.eval, sqlMin, if_pos h]
  | add | sub | concat =>
    rw [Operation.sql, SqlExpr.eval]
    obtain h | h := h <;> rw [h]
    · cases right.eval stored <;> rfl
    · cases left.eval stored <;> rfl

/-- `CASE WHEN substr(value, 1, length) = from THEN to || substr(value, length + 1) ELSE value END`
replaces the prefix. -/
theorem replacePrefix_toSqlite (json : JsonCodec κ) {text from' to' : Text}
    (hfrom : Utf8.WellFormed from') (hto : Utf8.WellFormed to') (htext : Utf8.WellFormed text) :
    (if sqlCompare .eq
        (Store.substr (.text (Utf8.points text)) (.integer 1) (.integer (Utf8.points from').length))
        (.text (Utf8.points from')) = some true then
      sqlConcat (.text (Utf8.points to'))
        (Store.substrFrom (.text (Utf8.points text)) (.integer ((Utf8.points from').length + 1)))
    else .text (Utf8.points text)) =
      cellSql json (replacePrefix from' to' (some (.scalar (.text text)))) := by
  have hsubstr : Store.substr (.text (Utf8.points text)) (.integer 1)
      (.integer (Utf8.points from').length) =
        .text ((Utf8.points text).take (Utf8.points from').length) := by
    rw [Store.substr, sub_self, Int.toNat_zero, drop_zero, Int.toNat_natCast]
  have hcompare : sqlCompare .eq (.text ((Utf8.points text).take (Utf8.points from').length))
      (.text (Utf8.points from')) = some true ↔ from' <+: text := by
    rw [Utf8.prefix_points hfrom htext, prefix_iff_eq_take, sqlCompare, if_neg (by simp),
      some_inj, Comparison.sqlHolds, SqlValue.compare, decide_eq_true_iff]
    refine ⟨fun h => (Utf8.eq_of_comparePoints h).symm, fun h => ?_⟩
    rw [← h]
    exact Utf8.comparePoints_self _
  rw [hsubstr, replacePrefix]
  by_cases hprefix : from' <+: text
  · rw [if_pos (hcompare.mpr hprefix), if_pos ( isPrefixOf_iff_prefix.mpr hprefix)]
    have hdrop := (Utf8.wellFormed_drop hfrom htext hprefix).2
    have hlength : (((Utf8.points from').length : ℤ) + 1 - 1).toNat =
        (Utf8.points from').length := by omega
    rw [Store.substrFrom, hlength, sqlConcat, cellSql, toSqlite, Utf8.points_append hto, hdrop]
  · rw [if_neg (mt hcompare.mp hprefix), if_neg (mt isPrefixOf_iff_prefix.mp hprefix)]
    rfl

/-- A rendered expression takes its parameters back, and then has the exact value. -/
theorem binds_expr (json : JsonCodec κ) (node : ExprNode κ) : ∃ text own bound,
    Binds SqlExpr.bind (exprSql json node) text own bound ∧
      ∀ {table : TableDefinition κ} {row : Row κ} {stored : PhysicalRow} {type : ScalarType},
        Reads table row stored → node.Typed table type → reaches overflows row node = false →
          bound.eval stored = cellSql json (exact row node) := by
  induction node with
  | null => exact ⟨.null, [], .null, .of_nil (fun params => rfl) fun rest => rfl, fun _ _ _ => rfl⟩
  | literal value => exact ⟨.param, [.value (toSqlite value)], .bound (toSqlite value),
      ⟨fun params => rfl, fun rest => rfl⟩, fun _ _ _ => rfl⟩
  | col name =>
    refine ⟨.column (.cell name), [], .column (.cell name),
      .of_nil (fun params => rfl) fun rest => rfl, fun hreads htyped _ => ?_⟩
    rw [SqlExpr.eval, exact]
    obtain ⟨hrow, hstored⟩ | ⟨value, hrow, -, hstored⟩ := hreads name _ htyped
    · rw [hrow, hstored]
      rfl
    · rw [hrow, hstored]
      rfl
  | json value => exact ⟨.param, [.value (jsonSql json value)], .bound (jsonSql json value),
      ⟨fun params => rfl, fun rest => rfl⟩, fun _ _ _ => rfl⟩
  | when condition a b iha ihb =>
    obtain ⟨textC, ownC, boundC, ⟨hrenderC, hbindC⟩, hevalC⟩ := binds_where κ condition
    obtain ⟨textA, ownA, boundA, ⟨hrenderA, hbindA⟩, hevalA⟩ := iha
    obtain ⟨textB, ownB, boundB, ⟨hrenderB, hbindB⟩, hevalB⟩ := ihb
    refine ⟨.case textC textA textB, ownC ++ (ownA ++ ownB), .case boundC boundA boundB,
      ⟨fun params => ?_, fun rest => ?_⟩, @fun table row stored type hreads htyped hword => ?_⟩
    · simp only [exprSql, hrenderC, hrenderA, hrenderB, append_assoc]
    · simp only [SqlExpr.bind, append_assoc, hbindC, hbindA, hbindB]
    · rw [SqlExpr.eval, hevalC hreads htyped.1, exact, exactMatches]
      rw [reaches, exactMatches] at hword
      by_cases htrue : exactTruth row condition = some true
      · rw [if_pos (decide_eq_true htrue)] at hword ⊢
        rw [if_pos htrue, hevalA hreads htyped.2.1 hword]
      · rw [if_neg (mt of_decide_eq_true htrue)] at hword ⊢
        rw [if_neg htrue, hevalB hreads htyped.2.2 hword]
  | coalesce a b iha ihb =>
    obtain ⟨textA, ownA, boundA, ⟨hrenderA, hbindA⟩, hevalA⟩ := iha
    obtain ⟨textB, ownB, boundB, ⟨hrenderB, hbindB⟩, hevalB⟩ := ihb
    refine ⟨.coalesce textA textB, ownA ++ ownB, .coalesce boundA boundB,
      ⟨fun params => ?_, fun rest => ?_⟩, fun hreads htyped hword => ?_⟩
    · simp only [exprSql, hrenderA, hrenderB, append_assoc]
    · simp only [SqlExpr.bind, append_assoc, hbindA, hbindB]
    · rw [reaches] at hword
      obtain ⟨hwordA, hwordB⟩ := Bool.or_eq_false_iff.mp hword
      rw [SqlExpr.eval, hevalA hreads htyped.1 hwordA, exact]
      obtain ha | ⟨value, ha, -⟩ := exact_typed hreads htyped.1
      · rw [ha, Option.isNone_none, Bool.true_and] at hwordB
        rw [ha]
        exact hevalB hreads htyped.2 hwordB
      · rw [ha]
        exact if_neg (toSqlite_ne_null value)
  | replacePrefix subject from' to' ih =>
    obtain ⟨text, own, bound, ⟨hrender, hbind⟩, heval⟩ := ih
    let length : ℤ := (Utf8.points from').length
    refine ⟨.case (.compare .eq (.substr text (.bound (.integer 1)) .param) .param)
        (.concat .param (.substrFrom text .param)) text,
      own ++ ([.value (.integer length), .value (toSqlite (.text from')),
        .value (toSqlite (.text to'))] ++ (own ++ (.value (.integer (length + 1)) :: own))),
      .case (.compare .eq (.substr bound (.bound (.integer 1)) (.bound (.integer length)))
          (.bound (toSqlite (.text from'))))
        (.concat (.bound (toSqlite (.text to')))
          (.substrFrom bound (.bound (.integer (length + 1))))) bound,
      ⟨fun params => ?_, fun rest => ?_⟩, fun hreads htyped hword => ?_⟩
    · simp only [exprSql, hrender, append_assoc, cons_append, nil_append, length]
    · simp only [SqlExpr.bind, SqlCondition.bind, append_assoc, cons_append,
        nil_append, hbind, takeParam]
    · obtain ⟨rfl, hsubject, hfrom, hto⟩ := htyped
      simp only [SqlCondition.eval, SqlExpr.eval, heval hreads hsubject hword, exact]
      obtain hnone | ⟨value, hvalue, hwell⟩ := exact_typed hreads hsubject
      · rw [hnone]
        rfl
      · rw [hvalue]
        cases value with
        | text text => exact replacePrefix_toSqlite json hfrom hto hwell
        | _ => cases hwell
  | binary op a b iha ihb =>
    obtain ⟨textA, ownA, boundA, ⟨hrenderA, hbindA⟩, hevalA⟩ := iha
    obtain ⟨textB, ownB, boundB, ⟨hrenderB, hbindB⟩, hevalB⟩ := ihb
    refine ⟨op.sql textA textB, ownA ++ ownB, op.sql boundA boundB,
      ⟨fun params => ?_, fun rest => ?_⟩, fun hreads htyped hword => ?_⟩
    · simp only [exprSql, hrenderA, hrenderB, append_assoc]
    · cases op <;> simp only [Operation.sql, SqlExpr.bind, append_assoc, hbindA, hbindB]
    · obtain ⟨hop, ha, hb⟩ := htyped
      rw [reaches, Bool.or_eq_false_iff, Bool.or_eq_false_iff] at hword
      obtain ⟨⟨hwordA, hwordB⟩, hword⟩ := hword
      have hevalA := hevalA hreads ha hwordA
      have hevalB := hevalB hreads hb hwordB
      rw [exact]
      obtain hnone | ⟨left, hleft, hltyped⟩ := exact_typed hreads ha
      · rw [hnone] at hevalA ⊢
        exact operate_null op (.inl hevalA)
      · obtain hnone | ⟨right, hright, hrtyped⟩ := exact_typed hreads hb
        · rw [hnone] at hevalB
          rw [hleft, hnone]
          exact operate_null op (.inr hevalB)
        · rw [hleft] at hevalA
          rw [hright] at hevalB
          rw [hleft, hright] at hword ⊢
          exact operate_toSqlite json hop hltyped hrtyped hword hevalA hevalB

end KnightCode.Store
