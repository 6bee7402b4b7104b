import TinyDB.Ast
import TinyDB.RowLayout
import TinyDB.Lib.OrdDict
import TinyDB.Lib.Result

/-!
# Row dictionaries and predicates

The evaluation half of `executor/select.py`, which SELECT, UPDATE, DELETE and
joins share. A comparison with a NULL operand is false; ordering values of
different kinds raises.
-/

namespace TinyDB

open Lib

abbrev RowDict := OrdDict String Value

/-- `row.get(key)`. -/
def RowDict.find (row : RowDict) (key : String) : Value := (row.get? key).getD .null

/-- `_row_to_dict`. -/
def rowToDict (schema : Schema) (values : Row) (rowid : Nat) : RowDict :=
  (OrdDict.ofList ((schema.map Prod.fst).zip values)).set "rowid" (.int rowid)

/-- The order and equality operators on two values that are not NULL. -/
def compareValues (op : CompareOp) (left right : Value) : Except PyErr Bool :=
  match op with
  | .eq => .ok (left.pyEq right)
  | .ne => .ok (!left.pyEq right)
  | .lt => left.pyLt right
  | .le => left.pyLe right
  | .gt => left.pyGt right
  | .ge => left.pyGe right
  | .isNull => .ok false
  | .isNotNull => .ok false

/-- `_eval_comparison` once the left operand is known. -/
def compareWith (op : CompareOp) (left : Value) (right : Except PyErr Value) : Except PyErr Bool :=
  match op with
  | .isNull => .ok (decide (left = .null))
  | .isNotNull => .ok (decide (left ≠ .null))
  | op => do
    let right ← right
    if left = .null ∨ right = .null then .ok false
    else compareValues op left right

/-- `_eval_expr`. -/
def evalExpr (row : RowDict) : Expr → Except PyErr Value
  | .column name => .ok (row.find name)
  | .qualifiedColumn none name => .ok (row.find name)
  | .qualifiedColumn (some table) name =>
    .ok ((row.get? (table ++ "." ++ name)).getD (row.find name))
  | .sqlLiteral value _ => .ok value
  | .binaryOp op left right => do
    let left ← evalExpr row left
    let result ← compareWith op left (evalExpr row right)
    .ok (.bool result)
  | .star => .ok .null
  | .logicalOp _ _ _ => .ok .null
  | .unaryOp _ _ => .ok .null
  | .inPredicate _ _ _ => .ok .null

/-- `_eval_comparison`. -/
def evalComparison (row : RowDict) (op : CompareOp) (left right : Expr) : Except PyErr Bool := do
  let left ← evalExpr row left
  compareWith op left (evalExpr row right)

/-- `_eval_predicate`. -/
def evalPredicate (row : RowDict) : Expr → Except PyErr Bool
  | .logicalOp .and left right => do
    if ← evalPredicate row left then evalPredicate row right else .ok false
  | .logicalOp .or left right => do
    if ← evalPredicate row left then .ok true else evalPredicate row right
  | .binaryOp op left right => evalComparison row op left right
  | .inPredicate expr values negated => do
    let value ← evalExpr row expr
    let result := values.any fun v => value.pyEq v
    .ok (if negated then !result else result)
  | .unaryOp op operand => do
    let operand ← evalExpr row operand
    .ok (if op = "NOT" then !operand.truthy else false)
  | .column name => .ok (row.find name).truthy
  | .qualifiedColumn table name => do
    let value ← evalExpr row (.qualifiedColumn table name)
    .ok value.truthy
  | .sqlLiteral value _ => .ok value.truthy
  | .star => .ok false

/-- A WHERE clause; a missing one holds of every row. -/
def evalWhere (row : RowDict) : Option Expr → Except PyErr Bool
  | none => .ok true
  | some node => evalPredicate row node

/-- Keep the elements whose test succeeds; the first test that raises ends it. -/
def filterRaising {α : Type} (test : α → Except PyErr Bool) : List α → Except PyErr (List α)
  | [] => .ok []
  | x :: l => do
    let keep ← test x
    let rest ← filterRaising test l
    .ok (if keep then x :: rest else rest)

end TinyDB
