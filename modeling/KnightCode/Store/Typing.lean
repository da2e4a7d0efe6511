import KnightCode.Library.Outcome
import KnightCode.Store.Evaluate

/-!
# What the compiler gives

A compiled condition compares scalar columns with values those columns may hold, and a compiled
expression has values of its column's type. The nodes of a set are typed, name columns outside the
key, and are `NULL` only where the column may be.
-/

namespace KnightCode.Store

open List Except

variable {κ : Type} {json : JsonCodec κ} {table : TableDefinition κ} {row : Row κ}
  {what : String}
variable {type : ScalarType} {column : Column κ}

/-! ### Typed nodes -/

/-- A value of a scalar type, an `int` of any size. -/
def Scalar.Typed : ScalarType → Scalar → Prop
  | .str, .text value => Utf8.WellFormed value
  | .int, .int _ => True
  | .num, .num _ => True
  | .bool, .bool _ => True
  | _, _ => False

theorem Scalar.Fits.typed {value : Scalar} (h : value.Fits type) : value.Typed type := by
  cases type <;> cases value <;> first | exact h | exact trivial

/-- `name` is a scalar column of `type`. -/
def TableDefinition.HasColumn (table : TableDefinition κ) (name : String) (type : ScalarType) :
    Prop :=
  ∃ column, table.byName name = some column ∧ column.type = .scalar type

mutual

def WhereNode.Typed (table : TableDefinition κ) : WhereNode → Prop
  | .compare _ column operand => ∃ type, table.HasColumn column type ∧ operand.Fits type
  | .inArray column values => ∃ type, table.HasColumn column type ∧ ∀ value ∈ values, value.Fits type
  | .isNull column => ∃ type, table.HasColumn column type
  | .startsWith column text => table.HasColumn column .str ∧ Utf8.WellFormed text
  | .and nodes => WhereNode.AllTyped table nodes
  | .or nodes => WhereNode.AllTyped table nodes
  | .not node => node.Typed table

def WhereNode.AllTyped (table : TableDefinition κ) : List WhereNode → Prop
  | [] => True
  | node :: rest => node.Typed table ∧ WhereNode.AllTyped table rest

end

def ExprNode.Typed (table : TableDefinition κ) (type : ScalarType) : ExprNode κ → Prop
  | .null => True
  | .literal value => value.Fits type
  | .col name => table.HasColumn name type
  | .json _ => False
  | .binary op a b => type ∈ op.types ∧ a.Typed table type ∧ b.Typed table type
  | .coalesce a b => a.Typed table type ∧ b.Typed table type
  | .replacePrefix subject from' to' => type = .str ∧ subject.Typed table type ∧
      Utf8.WellFormed from' ∧ Utf8.WellFormed to'
  | .when condition a b => condition.Typed table ∧ a.Typed table type ∧ b.Typed table type

/-! ### What the compiler gives -/

theorem checkScalar_fits {value : Plain κ} {scalar : Scalar}
    (h : checkScalar json type value what = .ok scalar) : scalar.Fits type := by
  unfold checkScalar at h
  dsimp only at h
  split at h
  · obtain ⟨text, htext, rfl⟩ := map_eq_ok h
    unfold storedText at htext
    split_ifs at htext with hnul
    · cases htext
    · cases htext
      exact Utf8.wellFormed_toWellFormed _
  · rename_i value
    split_ifs at h with hsafe
    · cases h
      have hsafe : value.den = 1 ∧ -SAFE ≤ value.num ∧ value.num ≤ SAFE := of_decide_eq_true hsafe
      exact hsafe.2
    · cases h
  · cases h
    trivial
  · cases h
    trivial
  · cases h

theorem byName_name {name : String} (h : table.byName name = some column) : column.name = name := by
  have hfound := find?_some h
  exact of_decide_eq_true hfound

theorem scalarColumn_ok {ref : Expression κ} {column : Column κ} {type : ScalarType}
    (h : scalarColumn table ref what = .ok (column, type)) : table.HasColumn column.name type := by
  unfold scalarColumn at h
  split at h
  · split at h
    · cases h
    · rename_i found hfound
      split at h
      · cases h
      · rename_i found' htype
        cases h
        exact ⟨column, (byName_name hfound).symm ▸ hfound, htype⟩
  · cases h

theorem operand_fits {value : Plain κ} {scalar : Scalar}
    (h : operand json column type value what = .ok scalar) : scalar.Fits type := by
  unfold operand at h
  split at h
  · cases h
  · cases h
  · exact checkScalar_fits h

theorem mem_mapM {ε α β : Type} {f : α → Except ε β} {l : List α} {r : List β}
    (h : l.mapM f = .ok r) {b : β} (hb : b ∈ r) : ∃ a ∈ l, f a = .ok b := by
  induction l generalizing r with
  | nil =>
    cases h
    exact absurd hb not_mem_nil
  | cons a l ih =>
    rw [mapM_cons] at h
    obtain ⟨first, hfirst, h⟩ := bind_eq_ok h
    obtain ⟨rest, hrest, h⟩ := bind_eq_ok h
    cases h
    obtain rfl | hb := mem_cons.mp hb
    · exact ⟨a, mem_cons_self, hfirst⟩
    · obtain ⟨a', ha', hb⟩ := ih hrest hb
      exact ⟨a', mem_cons_of_mem a ha', hb⟩

theorem length_mapM {α β : Type} {f : α → Except Invalid β} {l : List α} {r : List β}
    (h : l.mapM f = .ok r) : r.length = l.length := by
  induction l generalizing r with
  | nil =>
    cases h
    rfl
  | cons a l ih =>
    rw [mapM_cons] at h
    obtain ⟨first, -, h⟩ := bind_eq_ok h
    obtain ⟨rest, hrest, h⟩ := bind_eq_ok h
    cases h
    rw [length_cons, length_cons, ih hrest]

theorem operands_fit {values : List (Plain κ)} {scalars : List Scalar}
    (h : (values.mapM fun value => operand json column type value what) = .ok scalars) :
    ∀ value ∈ scalars, value.Fits type := by
  intro value hvalue
  obtain ⟨plain, -, hoperand⟩ := mem_mapM h hvalue
  exact operand_fits hoperand

mutual

theorem compileWhere_typed {condition : Condition κ} {node : WhereNode}
    (h : compileWhere json table what condition = .ok node) : node.Typed table := by
  cases condition with
  | compare op column value =>
    rw [compileWhere] at h
    obtain ⟨⟨found, type⟩, hcolumn, h⟩ := bind_eq_ok h
    obtain ⟨scalar, hscalar, h⟩ := bind_eq_ok h
    cases h
    exact ⟨type, scalarColumn_ok hcolumn, operand_fits hscalar⟩
  | inArray column values =>
    rw [compileWhere] at h
    obtain ⟨⟨found, type⟩, hcolumn, h⟩ := bind_eq_ok h
    cases values with
    | none => cases h
    | some values =>
      obtain ⟨scalars, hscalars, h⟩ := bind_eq_ok h
      cases h
      exact ⟨type, scalarColumn_ok hcolumn, operands_fit hscalars⟩
  | isNull column =>
    rw [compileWhere] at h
    obtain ⟨⟨found, type⟩, hcolumn, rfl⟩ := map_eq_ok h
    exact ⟨type, scalarColumn_ok hcolumn⟩
  | startsWith column value =>
    rw [compileWhere] at h
    obtain ⟨⟨found, type⟩, hcolumn, h⟩ := bind_eq_ok h
    dsimp only at h
    split_ifs at h with htype
    · cases h
    · obtain ⟨scalar, hscalar, h⟩ := bind_eq_ok h
      rw [ne_eq, not_not] at htype
      subst htype
      have hfits := operand_fits hscalar
      cases scalar with
      | text text =>
        cases h
        exact ⟨scalarColumn_ok hcolumn, hfits⟩
      | int value => cases h
      | num value => cases h
      | bool value => cases h
  | and conditions | or conditions =>
    rw [compileWhere] at h
    obtain ⟨nodes, hnodes, rfl⟩ := map_eq_ok h
    exact compileAll_typed hnodes
  | not condition =>
    rw [compileWhere] at h
    obtain ⟨inner, hinner, rfl⟩ := map_eq_ok h
    have htyped : inner.Typed table := compileWhere_typed hinner
    exact htyped
  | other => cases h

theorem compileAll_typed {conditions : List (Condition κ)} {nodes : List WhereNode}
    (h : compileAll json table what conditions = .ok nodes) : WhereNode.AllTyped table nodes := by
  cases conditions with
  | nil =>
    cases h
    trivial
  | cons condition rest =>
    rw [compileAll] at h
    obtain ⟨node, hnode, h⟩ := bind_eq_ok h
    obtain ⟨others, hothers, h⟩ := bind_eq_ok h
    cases h
    exact ⟨compileWhere_typed hnode, compileAll_typed hothers⟩

end

end KnightCode.Store
