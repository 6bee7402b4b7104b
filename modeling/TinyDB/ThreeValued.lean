import TinyDB.Predicate

/-!
# WHERE and three-valued logic

`_eval_predicate` has two truth values, SQL has three. `evalPredicate_sql_iff`:
where comparisons are between comparable operands, a row passes exactly when the
predicate is TRUE in SQL, unless NULL meets IN or NOT IN (`nullAstray`), or an operand
is itself a predicate and is `taken` for another value than it has in SQL.
-/

namespace TinyDB

open Lib

/-! ## Truth values -/

/-- TRUE, FALSE and UNKNOWN. -/
inductive Truth where
  | holds
  | fails
  | unknown
  deriving DecidableEq, Repr

namespace Truth

def ofBool (b : Bool) : Truth := if b then .holds else .fails

def and : Truth → Truth → Truth
  | .fails, _ => .fails
  | .holds, t => t
  | .unknown, .fails => .fails
  | .unknown, _ => .unknown

def or : Truth → Truth → Truth
  | .holds, _ => .holds
  | .fails, t => t
  | .unknown, .holds => .holds
  | .unknown, _ => .unknown

def not : Truth → Truth
  | .holds => .fails
  | .fails => .holds
  | .unknown => .unknown

def isTrue (t : Truth) : Bool := decide (t = .holds)

@[simp] theorem isTrue_ofBool (b : Bool) : (ofBool b).isTrue = b := by cases b <;> rfl

@[simp] theorem isTrue_and (s t : Truth) : (s.and t).isTrue = (s.isTrue && t.isTrue) := by
  cases s <;> cases t <;> rfl

@[simp] theorem isTrue_or (s t : Truth) : (s.or t).isTrue = (s.isTrue || t.isTrue) := by
  cases s <;> cases t <;> rfl

/-- UNKNOWN is the NULL among the truth values. -/
def toValue : Truth → Value
  | .holds => .bool true
  | .fails => .bool false
  | .unknown => .null

end Truth

/-- The truth of a value. SQL has none for numbers and texts; they count as in Python. -/
def Value.truth : Value → Truth
  | .null => .unknown
  | v => .ofBool v.truthy

@[simp] theorem truth_toValue (t : Truth) : t.toValue.truth = t := by cases t <;> rfl

@[simp] theorem isTrue_truth (v : Value) : v.truth.isTrue = v.truthy := by
  cases v with
  | null => rfl
  | _ => exact Truth.isTrue_ofBool _

/-! ## Predicates in SQL -/

/-- A comparison with NULL is UNKNOWN. -/
def sqlCompare (op : CompareOp) (left right : Value) : Truth :=
  match op with
  | .isNull => .ofBool (decide (left = .null))
  | .isNotNull => .ofBool (decide (left ≠ .null))
  | op =>
    if left = .null ∨ right = .null then .unknown
    else
      match compareValues op left right with
      | .ok b => .ofBool b
      | .error _ => .unknown

/-- `value = v1 OR value = v2 OR ...`. -/
def sqlIn (value : Value) : List Value → Truth
  | [] => .fails
  | v :: values => (sqlCompare .eq value v).or (sqlIn value values)

def sqlMember (value : Value) (values : List Value) (negated : Bool) : Truth :=
  if negated then (sqlIn value values).not else sqlIn value values

def sqlConnect : LogicOp → Truth → Truth → Truth
  | .and => Truth.and
  | .or => Truth.or

/-- The value of an expression in SQL. -/
def sqlValue (row : RowDict) : Expr → Value
  | .column name => row.find name
  | .qualifiedColumn none name => row.find name
  | .qualifiedColumn (some table) name => (row.get? (table ++ "." ++ name)).getD (row.find name)
  | .sqlLiteral value _ => value
  | .binaryOp op left right => (sqlCompare op (sqlValue row left) (sqlValue row right)).toValue
  | .logicalOp op left right =>
    (sqlConnect op (sqlValue row left).truth (sqlValue row right).truth).toValue
  | .inPredicate expr values negated => (sqlMember (sqlValue row expr) values negated).toValue
  | .star => .null
  | .unaryOp _ _ => .null

/-- The predicate is TRUE on the row. -/
def sqlTrue (row : RowDict) (expr : Expr) : Bool := (sqlValue row expr).truth.isTrue

/-! ## Trees of the parser -/

/-- What `parse_expression` builds. -/
def Expr.Parsed : Expr → Prop
  | .column _ => True
  | .qualifiedColumn table _ => table ≠ none
  | .sqlLiteral _ _ => True
  | .binaryOp _ left right => left.Parsed ∧ right.Parsed
  | .logicalOp _ left right => left.Parsed ∧ right.Parsed
  | .inPredicate expr values _ => expr.Parsed ∧ values ≠ []
  | .star => False
  | .unaryOp _ _ => False

inductive Kind where
  | number
  | text
  deriving DecidableEq, Repr

def Value.kind : Value → Option Kind
  | .null => none
  | .text _ => some .text
  | _ => some .number

/-- A predicate compares as a BOOL. -/
def operandKind (row : RowDict) : Expr → Option Kind
  | .binaryOp _ _ _ => some .number
  | .logicalOp _ _ _ => some .number
  | .inPredicate _ _ _ => some .number
  | expr => (sqlValue row expr).kind

def SameKind (k l : Option Kind) : Prop := k = none ∨ l = none ∨ k = l

instance (k l : Option Kind) : Decidable (SameKind k l) :=
  inferInstanceAs (Decidable (_ ∨ _ ∨ _))

/-- The operands of every comparison are comparable. -/
def Comparable (row : RowDict) : Expr → Prop
  | .binaryOp op left right => Comparable row left ∧ Comparable row right ∧
      (op = .isNull ∨ op = .isNotNull ∨ SameKind (operandKind row left) (operandKind row right))
  | .logicalOp _ left right => Comparable row left ∧ Comparable row right
  | .inPredicate expr _ _ => Comparable row expr
  | _ => True

/-! ## Where the evaluator departs -/

/-- What an operand is taken for: a comparison is FALSE where it is UNKNOWN, any other
predicate is NULL. -/
def taken (row : RowDict) : Expr → Value
  | .binaryOp op left right => .bool (sqlCompare op (taken row left) (taken row right)).isTrue
  | .logicalOp _ _ _ => .null
  | .inPredicate _ _ _ => .null
  | expr => sqlValue row expr

/-- NULL in a list is equal to NULL, and to nothing else. -/
def nullAstray (value : Value) (values : List Value) (negated : Bool) : Bool :=
  if negated then
    if value = .null then decide (.null ∉ values)
    else decide (.null ∈ values) && !values.any fun v => value.pyEq v
  else decide (value = .null) && decide (.null ∈ values)

/-- The row passes exactly when the predicate is TRUE. A side of AND or OR that is judged
wrongly does no harm where the other side decides. -/
def meetsSql (row : RowDict) : Expr → Bool
  | .logicalOp .and left right =>
    if meetsSql row left then meetsSql row right || !sqlTrue row left
    else if meetsSql row right then !sqlTrue row right
    else sqlTrue row left != sqlTrue row right
  | .logicalOp .or left right =>
    if meetsSql row left then meetsSql row right || sqlTrue row left
    else if meetsSql row right then sqlTrue row right
    else sqlTrue row left != sqlTrue row right
  | .binaryOp op left right =>
    (sqlCompare op (taken row left) (taken row right)).isTrue ==
      sqlTrue row (.binaryOp op left right)
  | .inPredicate expr values negated =>
    nullAstray (taken row expr) values negated ==
      ((sqlMember (taken row expr) values negated).isTrue !=
        sqlTrue row (.inPredicate expr values negated))
  | _ => true

/-! ## Tests on values -/

theorem compareValues_ok {left right : Value} (op : CompareOp) (hl : left ≠ .null)
    (hr : right ≠ .null) (h : SameKind left.kind right.kind) :
    ∃ b, compareValues op left right = .ok b := by
  cases left with
  | null => exact absurd rfl hl
  | text s =>
    cases right with
    | null => exact absurd rfl hr
    | text t => cases op <;> exact ⟨_, rfl⟩
    | _ => simp [SameKind, Value.kind] at h
  | _ =>
    cases right with
    | null => exact absurd rfl hr
    | text t => simp [SameKind, Value.kind] at h
    | _ => cases op <;> exact ⟨_, rfl⟩

/-- A comparison of comparable values is two-valued: UNKNOWN counts as false. -/
theorem compareWith_eq {left right : Value} {op : CompareOp}
    (h : op = .isNull ∨ op = .isNotNull ∨ SameKind left.kind right.kind) :
    compareWith op left (.ok right) = .ok (sqlCompare op left right).isTrue := by
  have hvalue : op ≠ .isNull → op ≠ .isNotNull →
      (if left = .null ∨ right = .null then Except.ok false else compareValues op left right) =
        .ok (if left = .null ∨ right = .null then Truth.unknown
          else match compareValues op left right with
            | .ok b => .ofBool b
            | .error _ => .unknown).isTrue := by
    intro h1 h2
    by_cases hn : left = .null ∨ right = .null
    · rw [if_pos hn, if_pos hn]
      rfl
    · rw [if_neg hn, if_neg hn]
      rw [not_or] at hn
      have hk : SameKind left.kind right.kind := by
        rcases h with h | h | h
        · exact absurd h h1
        · exact absurd h h2
        · exact h
      obtain ⟨b, hb⟩ := compareValues_ok op hn.1 hn.2 hk
      rw [hb, Truth.isTrue_ofBool]
  cases op with
  | isNull => simp [compareWith, sqlCompare]
  | isNotNull => simp [compareWith, sqlCompare]
  | _ => exact hvalue (by simp) (by simp)

theorem pyEq_null (v : Value) : Value.pyEq .null v = decide (v = .null) := by
  cases v <;> simp [Value.pyEq, Value.numeric?]

theorem pyEq_of_null {v : Value} (h : v ≠ .null) : v.pyEq .null = false := by
  cases v with
  | null => exact absurd rfl h
  | _ => simp [Value.pyEq, Value.numeric?]

/-- Membership of NULL is UNKNOWN. -/
theorem sqlIn_null {values : List Value} (h : values ≠ []) : sqlIn .null values = .unknown := by
  induction values with
  | nil => exact absurd rfl h
  | cons v values ih =>
    have hv : sqlCompare .eq .null v = .unknown := by simp [sqlCompare]
    rw [sqlIn, hv]
    cases values with
    | nil => rfl
    | cons w values =>
      rw [ih (List.cons_ne_nil _ _)]
      rfl

/-- Membership of a value: a NULL in the list leaves it open. -/
theorem sqlIn_value {value : Value} (h : value ≠ .null) (values : List Value) :
    sqlIn value values = if values.any (fun v => value.pyEq v) = true then .holds
      else if .null ∈ values then .unknown else .fails := by
  induction values with
  | nil => rfl
  | cons v values ih =>
    rw [sqlIn, ih, List.any_cons]
    by_cases hv : v = .null
    · subst hv
      have hc : sqlCompare .eq value .null = .unknown := by simp [sqlCompare]
      rw [hc, pyEq_of_null h, Bool.false_or]
      by_cases hany : values.any (fun v => value.pyEq v) = true
      · simp [hany, Truth.or]
      · by_cases hn : Value.null ∈ values <;> simp [hany, hn, Truth.or]
    · have hc : sqlCompare .eq value v = .ofBool (value.pyEq v) := by
        simp [sqlCompare, compareValues, h, hv]
      have hm : (Value.null ∈ v :: values) = (Value.null ∈ values) := by
        simp [List.mem_cons, Ne.symm hv]
      rw [hc]
      simp only [hm]
      cases value.pyEq v with
      | true => rfl
      | false => rfl

/-- **Membership in the code**: NULL is astray. -/
theorem member_eq (value : Value) {values : List Value} (negated : Bool) (h : values ≠ []) :
    (if negated then !values.any fun v => value.pyEq v else values.any fun v => value.pyEq v) =
      ((sqlMember value values negated).isTrue != nullAstray value values negated) := by
  by_cases hv : value = .null
  · subst hv
    have hany : (values.any fun v => Value.pyEq .null v) = decide (Value.null ∈ values) := by
      simp only [pyEq_null]
      rw [Bool.eq_iff_iff]
      simp
    cases negated with
    | false => simp [sqlMember, sqlIn_null h, nullAstray, hany, Truth.isTrue]
    | true => simp [sqlMember, sqlIn_null h, nullAstray, hany, Truth.isTrue, Truth.not]
  · cases negated with
    | false =>
      by_cases hany : (values.any fun v => value.pyEq v) = true
      · simp [sqlMember, sqlIn_value hv, nullAstray, hany, hv, Truth.isTrue]
      · by_cases hn : Value.null ∈ values <;>
          simp [sqlMember, sqlIn_value hv, nullAstray, hany, hv, hn, Truth.isTrue]
    | true =>
      by_cases hany : (values.any fun v => value.pyEq v) = true
      · simp [sqlMember, sqlIn_value hv, nullAstray, hany, hv, Truth.isTrue, Truth.not]
      · by_cases hn : Value.null ∈ values <;>
          simp [sqlMember, sqlIn_value hv, nullAstray, hany, hv, hn, Truth.isTrue, Truth.not]

/-! ## Trees -/

section

variable {row : RowDict} {expr : Expr}

theorem kind_taken (row : RowDict) (expr : Expr) :
    (taken row expr).kind = none ∨ (taken row expr).kind = operandKind row expr := by
  cases expr with
  | logicalOp op left right => exact Or.inl rfl
  | inPredicate expr values negated => exact Or.inl rfl
  | _ => exact Or.inr rfl

theorem SameKind.taken {left right : Expr}
    (h : SameKind (operandKind row left) (operandKind row right)) :
    SameKind (TinyDB.taken row left).kind (TinyDB.taken row right).kind := by
  rcases kind_taken row left with hl | hl
  · exact Or.inl hl
  · rcases kind_taken row right with hr | hr
    · exact Or.inr (Or.inl hr)
    · rw [hl, hr]
      exact h

/-- **Operands** are taken for `taken`. -/
theorem evalExpr_taken (hp : expr.Parsed) (hc : Comparable row expr) :
    evalExpr row expr = .ok (taken row expr) := by
  induction expr with
  | column name => rfl
  | qualifiedColumn table name => cases table <;> rfl
  | star => cases hp
  | sqlLiteral value raw => rfl
  | binaryOp op left right ihl ihr =>
    obtain ⟨hcl, hcr, hk⟩ := hc
    rw [evalExpr, ihl hp.1 hcl, ihr hp.2 hcr, ok_bind,
      compareWith_eq (hk.imp_right (Or.imp_right SameKind.taken))]
    rfl
  | logicalOp op left right => rfl
  | unaryOp op operand => cases hp
  | inPredicate expr values negated => rfl

/-- **Predicates** are judged as in SQL exactly where `meetsSql` says so. -/
theorem evalPredicate_eq (hp : expr.Parsed) (hc : Comparable row expr) :
    evalPredicate row expr = .ok (sqlTrue row expr == meetsSql row expr) := by
  induction expr with
  | column name => simp [evalPredicate, sqlTrue, sqlValue, meetsSql]
  | qualifiedColumn table name =>
    cases table <;> simp [evalPredicate, evalExpr, sqlTrue, sqlValue, meetsSql]
  | star => cases hp
  | sqlLiteral value raw => simp [evalPredicate, sqlTrue, sqlValue, meetsSql]
  | binaryOp op left right =>
    obtain ⟨hcl, hcr, hk⟩ := hc
    rw [evalPredicate, evalComparison, evalExpr_taken hp.1 hcl, evalExpr_taken hp.2 hcr, ok_bind,
      compareWith_eq (hk.imp_right (Or.imp_right SameKind.taken)), meetsSql]
    cases (sqlCompare op (taken row left) (taken row right)).isTrue <;>
      cases sqlTrue row (.binaryOp op left right) <;> rfl
  | logicalOp op left right ihl ihr =>
    have hl := ihl hp.1 hc.1
    have hr := ihr hp.2 hc.2
    cases op with
    | and =>
      have ht : sqlTrue row (.logicalOp .and left right) =
          (sqlTrue row left && sqlTrue row right) := by
        simp [sqlTrue, sqlValue, sqlConnect]
      rw [evalPredicate, hl, hr, ht, meetsSql]
      cases sqlTrue row left <;> cases sqlTrue row right <;> cases meetsSql row left <;>
        cases meetsSql row right <;> rfl
    | or =>
      have ht : sqlTrue row (.logicalOp .or left right) =
          (sqlTrue row left || sqlTrue row right) := by
        simp [sqlTrue, sqlValue, sqlConnect]
      rw [evalPredicate, hl, hr, ht, meetsSql]
      cases sqlTrue row left <;> cases sqlTrue row right <;> cases meetsSql row left <;>
        cases meetsSql row right <;> rfl
  | unaryOp op operand => cases hp
  | inPredicate expr values negated =>
    have he : expr.Parsed := hp.1
    have hcomp : Comparable row expr := hc
    simp only [evalPredicate, evalExpr_taken he hcomp, ok_bind, member_eq _ negated hp.2, meetsSql]
    cases (sqlMember (taken row expr) values negated).isTrue <;>
      cases nullAstray (taken row expr) values negated <;>
      cases sqlTrue row (.inPredicate expr values negated) <;> rfl

end

/-! ## Columns and literals as operands -/

def Expr.Simple : Expr → Prop
  | .column _ => True
  | .qualifiedColumn _ _ => True
  | .sqlLiteral _ _ => True
  | _ => False

theorem taken_simple (row : RowDict) {expr : Expr} (h : expr.Simple) :
    taken row expr = sqlValue row expr := by
  cases expr with
  | binaryOp op left right => cases h
  | logicalOp op left right => cases h
  | inPredicate expr values negated => cases h
  | _ => rfl

/-- Comparisons of columns and literals are judged as in SQL. -/
theorem meetsSql_comparison (row : RowDict) (op : CompareOp) {left right : Expr}
    (hl : left.Simple) (hr : right.Simple) : meetsSql row (.binaryOp op left right) = true := by
  rw [meetsSql, taken_simple row hl, taken_simple row hr, sqlTrue, sqlValue, truth_toValue]
  exact beq_self_eq_true _

/-- Membership of a column or a literal is judged as in SQL unless NULL is astray. -/
theorem meetsSql_member (row : RowDict) {expr : Expr} (h : expr.Simple) (values : List Value)
    (negated : Bool) : meetsSql row (.inPredicate expr values negated) =
      !nullAstray (sqlValue row expr) values negated := by
  rw [meetsSql, taken_simple row h, sqlTrue, sqlValue, truth_toValue]
  cases nullAstray (sqlValue row expr) values negated <;> simp

/-- **A row passes exactly when its predicate is TRUE in SQL, under exactly this condition.** -/
theorem evalPredicate_sql_iff (row : RowDict) (expr : Expr) (hp : expr.Parsed)
    (hc : Comparable row expr) :
    (evalPredicate row expr = .ok true ↔ sqlTrue row expr = true) ↔ meetsSql row expr = true := by
  rw [evalPredicate_eq hp hc, Except.ok.injEq]
  cases sqlTrue row expr <;> cases meetsSql row expr <;> simp

/-- `(a = 1 OR b NOT IN (2))` where `a` is 1 and `b` is NULL. -/
theorem evalPredicate_sql_iff_or :
    let row : RowDict := OrdDict.ofList [("a", .int 1), ("b", .null)]
    let expr : Expr := .logicalOp .or (.binaryOp .eq (.column "a") (.sqlLiteral (.int 1) "1"))
      (.inPredicate (.column "b") [.int 2] true)
    (evalPredicate row expr = .ok true ↔ sqlTrue row expr = true) ↔ meetsSql row expr = true :=
  evalPredicate_sql_iff _ _ (by simp [Expr.Parsed])
    ⟨⟨trivial, trivial, Or.inr (Or.inr (by decide +kernel))⟩, trivial⟩

/-- A row with NULL passes `a NOT IN (1)`. -/
theorem null_not_in_passes :
    ¬ ∀ (row : RowDict) (expr : Expr), expr.Parsed → Comparable row expr →
      (evalPredicate row expr = .ok true ↔ sqlTrue row expr = true) := by
  intro h
  have hrow := h (OrdDict.ofList [("a", .null)]) (.inPredicate (.column "a") [.int 1] true)
    (by simp [Expr.Parsed]) trivial
  exact absurd (hrow.mp (by decide +kernel)) (by decide +kernel)

end TinyDB
