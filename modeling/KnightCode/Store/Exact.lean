import KnightCode.Store.Typing

/-!
# Values without a bound

`exact` is the value of an expression when integers have no bound and a row holds only its own
cells. The evaluator gives that value, or refuses: exactly when a sum or difference it reaches is
outside the safe range (`reaches`). It does so where it reads no inherited member (`inherits`).
-/

namespace KnightCode.Store

open List

variable {κ : Type} {table : TableDefinition κ}

/-! ### Conditions -/

mutual

/-- The truth of a condition on a row of its own cells. -/
def exactTruth (row : Row κ) : WhereNode → Truth
  | .and nodes => exactAnd row (some true) nodes
  | .or nodes => exactOr row (some false) nodes
  | .not node => (exactTruth row node).map (!·)
  | .isNull column => some (row column).isNone
  | .inArray column values =>
    if values.isEmpty then some false
    else (Cell.scalar? (row column)).map fun value =>
      values.any fun each => compareScalar value each = 0
  | .startsWith column text => (Cell.scalar? (row column)).map (startsWith text)
  | .compare op column operand =>
    (Cell.scalar? (row column)).map fun value => op.holds (compareScalar value operand)

def exactAnd (row : Row κ) (all : Truth) : List WhereNode → Truth
  | [] => all
  | node :: rest =>
    exactAnd row (if all = some false then some false else both all (exactTruth row node)) rest

def exactOr (row : Row κ) (any : Truth) : List WhereNode → Truth
  | [] => any
  | node :: rest =>
    exactOr row (if any = some true then some true else either any (exactTruth row node)) rest

end

def exactMatches (node : WhereNode) (row : Row κ) : Bool :=
  exactTruth row node = some true

mutual

/-- Whether the evaluation of a condition reads an inherited member. -/
def WhereNode.inherits (row : Row κ) : WhereNode → Bool
  | .and nodes => inheritsAnd row (some true) nodes
  | .or nodes => inheritsOr row (some false) nodes
  | .not node => node.inherits row
  | .isNull column => row.inherits column
  | .inArray column values => !values.isEmpty && row.inherits column
  | .startsWith column _ => row.inherits column
  | .compare _ column _ => row.inherits column

def inheritsAnd (row : Row κ) (all : Truth) : List WhereNode → Bool
  | [] => false
  | node :: rest =>
    if all = some false then inheritsAnd row all rest
    else node.inherits row || inheritsAnd row (both all (exactTruth row node)) rest

def inheritsOr (row : Row κ) (any : Truth) : List WhereNode → Bool
  | [] => false
  | node :: rest =>
    if any = some true then inheritsOr row any rest
    else node.inherits row || inheritsOr row (either any (exactTruth row node)) rest

end

variable {row : Row κ} (name : String)

theorem read_eq {column : String} (h : row.inherits column = false) :
    row.read column = .ok (row column) := by
  rw [Row.read, h]
  exact if_neg Bool.false_ne_true

mutual

variable {row : Row κ}

theorem truth_eq {node : WhereNode} (h : node.inherits row = false) :
    truth row node = .ok (exactTruth row node) := by
  cases node with
  | compare op column operand | isNull column | startsWith column text =>
    rw [WhereNode.inherits] at h
    rw [truth, read_eq h, exactTruth]
    rfl
  | inArray column values =>
    rw [WhereNode.inherits] at h
    rw [truth, exactTruth]
    split_ifs with hempty
    · rfl
    · rw [Bool.not_eq_true] at hempty
      rw [hempty, Bool.not_false, Bool.true_and] at h
      rw [read_eq h]
      rfl
  | and nodes =>
    rw [WhereNode.inherits] at h
    rw [truth, exactTruth]
    exact truthAnd_eq h
  | or nodes =>
    rw [WhereNode.inherits] at h
    rw [truth, exactTruth]
    exact truthOr_eq h
  | not node =>
    rw [WhereNode.inherits] at h
    rw [truth, truth_eq h, exactTruth]
    rfl

theorem truthAnd_eq {all : Truth} {nodes : List WhereNode} (h : inheritsAnd row all nodes = false) :
    truthAnd row all nodes = .ok (exactAnd row all nodes) := by
  cases nodes with
  | nil => rfl
  | cons node rest =>
    rw [inheritsAnd] at h
    rw [truthAnd, exactAnd]
    split_ifs at h ⊢ with hfalse
    · rw [truthAnd_eq h, hfalse]
    · obtain ⟨hnode, hrest⟩ := Bool.or_eq_false_iff.mp h
      rw [truth_eq hnode]
      exact truthAnd_eq hrest

theorem truthOr_eq {any : Truth} {nodes : List WhereNode} (h : inheritsOr row any nodes = false) :
    truthOr row any nodes = .ok (exactOr row any nodes) := by
  cases nodes with
  | nil => rfl
  | cons node rest =>
    rw [inheritsOr] at h
    rw [truthOr, exactOr]
    split_ifs at h ⊢ with htrue
    · rw [truthOr_eq h, htrue]
    · obtain ⟨hnode, hrest⟩ := Bool.or_eq_false_iff.mp h
      rw [truth_eq hnode]
      exact truthOr_eq hrest

end

theorem matchesRow_eq {node : WhereNode} (h : node.inherits row = false) :
    matchesRow node row = .ok (exactMatches node row) := by
  rw [matchesRow, truth_eq h]
  rfl

/-! ### Expressions -/

/-- An operation on two values, integers unbounded. -/
def exactOperate (op : Operation) (a b : Scalar) : Option (Cell κ) :=
  match op, a, b with
  | .concat, .text a, .text b => some (.scalar (.text (a ++ b)))
  | .max, a, b => some (.scalar (if 0 ≤ compareScalar a b then a else b))
  | .min, a, b => some (.scalar (if compareScalar a b ≤ 0 then a else b))
  | .add, .int a, .int b => some (.scalar (.int (a + b)))
  | .sub, .int a, .int b => some (.scalar (.int (a - b)))
  | _, _, _ => none

/-- The value of an expression, integers unbounded. -/
def exact (row : Row κ) : ExprNode κ → Option (Cell κ)
  | .null => none
  | .literal value => some (.scalar value)
  | .col name => row name
  | .json value => some (.json value)
  | .when condition a b => if exactMatches condition row then exact row a else exact row b
  | .coalesce a b => (exact row a).or (exact row b)
  | .replacePrefix subject from' to' => replacePrefix from' to' (exact row subject)
  | .binary op x y =>
    match Cell.scalar? (exact row x), Cell.scalar? (exact row y) with
    | some a, some b => exactOperate op a b
    | _, _ => none

def outside (n : ℤ) : Bool := SAFE < n ∨ n < -SAFE

/-- A sum or difference that is `out`. -/
def Operation.reaches (out : ℤ → Bool) (op : Operation) (a b : Option Scalar) : Bool :=
  match op, a, b with
  | .add, some (.int a), some (.int b) => out (a + b)
  | .sub, some (.int a), some (.int b) => out (a - b)
  | _, _, _ => false

/-- Whether the evaluation of an expression reaches a sum or difference that is `out`. -/
def reaches (out : ℤ → Bool) (row : Row κ) : ExprNode κ → Bool
  | .when condition a b =>
    if exactMatches condition row then reaches out row a else reaches out row b
  | .coalesce a b => reaches out row a || ((exact row a).isNone && reaches out row b)
  | .replacePrefix subject _ _ => reaches out row subject
  | .binary op x y => reaches out row x || reaches out row y ||
      op.reaches out (Cell.scalar? (exact row x)) (Cell.scalar? (exact row y))
  | _ => false

/-- Whether the evaluation of an expression reads an inherited member. -/
def ExprNode.inherits (row : Row κ) : ExprNode κ → Bool
  | .col name => row.inherits name
  | .when condition a b => condition.inherits row ||
      if exactMatches condition row then a.inherits row else b.inherits row
  | .coalesce a b => a.inherits row || ((exact row a).isNone && b.inherits row)
  | .replacePrefix subject _ _ => subject.inherits row
  | .binary _ x y => x.inherits row || y.inherits row
  | _ => false

/-- The columns of `set`, integers unbounded. -/
def exactSet (set : SetNode κ) (row : Row κ) : Row κ :=
  set.foldl (fun next entry => Function.update next entry.1 (exact row entry.2)) row

/-! ### The evaluator -/

/-- `result` is `value`, or an error where `refused`. -/
def RefusesOr {α : Type} (refused : Bool) (value : α) (result : Except Stop α) : Prop :=
  (refused = true ∧ ∃ error, result = .error (.thrown error)) ∨ (refused = false ∧ result = .ok value)

theorem outside_toDouble (n : ℤ) : outside (toDouble n) = outside n := by
  unfold outside toDouble SAFE
  split_ifs <;> simp only [decide_eq_decide] <;> omega

theorem toDouble_of_not_outside {n : ℤ} (h : outside n = false) : toDouble n = n := by
  unfold toDouble
  have hsafe : ¬ (SAFE < n ∨ n < -SAFE) := of_decide_eq_false h
  rw [if_pos]
  unfold SAFE at hsafe
  omega

theorem checked_refusesOr (op : Operation) (n : ℤ) :
    RefusesOr (outside n) (some (.scalar (.int n)) : Option (Cell κ)) (checked name op n) := by
  unfold checked
  dsimp only
  cases h : outside n with
  | true =>
    have hdouble : toDouble n > SAFE ∨ toDouble n < -SAFE :=
      of_decide_eq_true ((outside_toDouble n).trans h)
    rw [if_pos hdouble]
    exact .inl ⟨rfl, _, rfl⟩
  | false =>
    have hdouble : ¬ (toDouble n > SAFE ∨ toDouble n < -SAFE) :=
      of_decide_eq_false ((outside_toDouble n).trans h)
    rw [if_neg hdouble, toDouble_of_not_outside h]
    exact .inr ⟨rfl, rfl⟩

theorem operate_refusesOr (op : Operation) (a b : Scalar) :
    RefusesOr (op.reaches outside (some a) (some b)) (exactOperate op a b : Option (Cell κ))
      (operate name op a b) := by
  cases op with
  | max | min => exact .inr ⟨rfl, rfl⟩
  | concat => cases a <;> cases b <;> exact .inr ⟨rfl, rfl⟩
  | add =>
    cases a with
    | int a =>
      cases b with
      | int b => exact checked_refusesOr name .add (a + b)
      | _ => exact .inr ⟨rfl, rfl⟩
    | _ => exact .inr ⟨rfl, rfl⟩
  | sub =>
    cases a with
    | int a =>
      cases b with
      | int b => exact checked_refusesOr name .sub (a - b)
      | _ => exact .inr ⟨rfl, rfl⟩
    | _ => exact .inr ⟨rfl, rfl⟩

theorem evaluate_refusesOr {node : ExprNode κ} (hown : node.inherits row = false) :
    RefusesOr (reaches outside row node) (exact row node) (evaluate name row node) := by
  induction node with
  | null | literal value | json value => exact .inr ⟨rfl, rfl⟩
  | col column => exact .inr ⟨rfl, read_eq hown⟩
  | when condition a b iha ihb =>
    rw [ExprNode.inherits] at hown
    obtain ⟨hcondition, hown⟩ := Bool.or_eq_false_iff.mp hown
    rw [reaches, exact, evaluate, matchesRow_eq hcondition]
    simp only [bind, Except.bind]
    split_ifs at hown ⊢
    · exact iha hown
    · exact ihb hown
  | coalesce a b iha ihb =>
    rw [ExprNode.inherits] at hown
    obtain ⟨howna, hownb⟩ := Bool.or_eq_false_iff.mp hown
    rw [reaches, exact, evaluate]
    obtain ⟨ha, e, hea⟩ | ⟨ha, hea⟩ := iha howna
    · exact .inl ⟨by rw [ha, Bool.true_or], e, by rw [hea]; rfl⟩
    · rw [ha, hea, Bool.false_or]
      cases hvalue : exact row a with
      | none =>
        rw [hvalue, Option.isNone_none, Bool.true_and] at hownb
        exact ihb hownb
      | some value => exact .inr ⟨rfl, rfl⟩
  | replacePrefix subject from' to' ih =>
    rw [reaches, exact, evaluate]
    obtain ⟨h, e, he⟩ | ⟨h, he⟩ := ih hown
    · exact .inl ⟨h, e, by rw [he]; rfl⟩
    · exact .inr ⟨h, by rw [he]; rfl⟩
  | binary op x y ihx ihy =>
    rw [ExprNode.inherits] at hown
    obtain ⟨hownx, howny⟩ := Bool.or_eq_false_iff.mp hown
    rw [reaches, exact, evaluate]
    obtain ⟨hx, e, hex⟩ | ⟨hx, hex⟩ := ihx hownx
    · exact .inl ⟨by rw [hx]; rfl, e, by rw [hex]; rfl⟩
    · rw [hx, hex, Bool.false_or]
      obtain ⟨hy, e, hey⟩ | ⟨hy, hey⟩ := ihy howny
      · exact .inl ⟨by rw [hy]; rfl, e, by rw [hey]; rfl⟩
      · rw [hy, hey, Bool.false_or]
        cases hleft : Cell.scalar? (exact row x) with
        | none => cases op <;> exact .inr ⟨rfl, by simp [bind, Except.bind, hleft]; rfl⟩
        | some a =>
          cases hright : Cell.scalar? (exact row y) with
          | none =>
            cases op <;> cases a <;>
              exact .inr ⟨rfl, by simp [bind, Except.bind, hleft, hright]; rfl⟩
          | some b =>
            have hoperate := operate_refusesOr (κ := κ) name op a b
            simpa [bind, Except.bind, hleft, hright] using hoperate

theorem literal_eq (h : row "__proto__" = none) : Row.literal row = row := by
  funext name
  unfold Row.literal
  split_ifs with hname
  · rw [hname, h]
  · rfl

theorem applySet_refusesOr {set : SetNode κ}
    (hown : (set.any fun entry => entry.2.inherits row) = false)
    (hset : ∀ entry ∈ set, entry.1 ≠ "__proto__") (hrow : row "__proto__" = none) :
    RefusesOr (set.any fun entry => reaches outside row entry.2) (exactSet set row)
      (applySet name set row) := by
  have hfold : ∀ next : Row κ, next "__proto__" = none →
      RefusesOr (set.any fun entry => reaches outside row entry.2)
      (set.foldl (fun next entry => Function.update next entry.1 (exact row entry.2)) next)
      (set.foldlM (fun next entry =>
        (evaluate name row entry.2).map fun value =>
          Row.literal (Function.update next entry.1 value)) next) := by
    induction set with
    | nil => exact fun next _ => .inr ⟨rfl, rfl⟩
    | cons entry rest ih =>
      intro next hnext
      rw [any_cons, Bool.or_eq_false_iff] at hown
      rw [any_cons, foldl_cons, foldlM_cons]
      obtain ⟨h, e, he⟩ | ⟨h, he⟩ := evaluate_refusesOr name hown.1
      · exact .inl ⟨by rw [h]; rfl, e, by rw [he]; rfl⟩
      · have hafter : Function.update next entry.1 (exact row entry.2) "__proto__" = none := by
          rw [Function.update_of_ne (hset entry mem_cons_self).symm, hnext]
        rw [h, he, Bool.false_or, Except.map, literal_eq hafter]
        exact ih hown.2 (fun other hother => hset other (mem_cons_of_mem _ hother)) _ hafter
  exact hfold row hrow

end KnightCode.Store
