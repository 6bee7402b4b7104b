import TinyDB.Value

/-!
# Statements

`parser/ast.py`. Expressions are one inductive type, since predicates,
projections and keys all draw on the same nodes.
-/

namespace TinyDB

inductive CompareOp where
  | eq
  | ne
  | lt
  | le
  | gt
  | ge
  | isNull
  | isNotNull
  deriving DecidableEq, Repr

inductive LogicOp where
  | and
  | or
  deriving DecidableEq, Repr

inductive Expr where
  | column (name : String)
  | qualifiedColumn (table : Option String) (name : String)
  | star
  | sqlLiteral (value : Value) (raw : String)
  | binaryOp (op : CompareOp) (left right : Expr)
  | logicalOp (op : LogicOp) (left right : Expr)
  | unaryOp (op : String) (operand : Expr)
  | inPredicate (expr : Expr) (values : List Value) (negated : Bool)
  deriving DecidableEq, Repr

inductive Constraint where
  | primaryKey
  | notNull
  | unique
  deriving DecidableEq, Repr

structure ColumnDef where
  name : String
  colType : String
  constraints : List Constraint
  deriving DecidableEq, Repr

structure CreateTable where
  name : String
  columns : List ColumnDef
  ifNotExists : Bool := false
  deriving DecidableEq, Repr

structure DropTable where
  names : List String
  ifExists : Bool := false
  deriving DecidableEq, Repr

structure Insert where
  table : String
  columns : Option (List String)
  values : List (List Value)
  deriving DecidableEq, Repr

inductive Direction where
  | asc
  | desc
  deriving DecidableEq, Repr

structure OrderItem where
  expr : Expr
  direction : Direction := .asc
  deriving DecidableEq, Repr

inductive JoinType where
  | inner
  | left
  deriving DecidableEq, Repr

structure JoinClause where
  kind : JoinType
  table : String
  alias' : Option String
  on' : Option Expr
  deriving DecidableEq, Repr

structure Select where
  projections : List Expr
  table : String
  joins : List JoinClause := []
  alias' : Option String := none
  where' : Option Expr := none
  orderBy : List OrderItem := []
  limit : Option Nat := none
  offset : Option Nat := none
  groupBy : List Expr := []
  deriving DecidableEq, Repr

structure Update where
  table : String
  assignments : List (String × Value)
  where' : Option Expr := none
  deriving DecidableEq, Repr

structure Delete where
  table : String
  where' : Option Expr := none
  deriving DecidableEq, Repr

inductive Statement where
  | createTable (stmt : CreateTable)
  | dropTable (stmt : DropTable)
  | insert (stmt : Insert)
  | select (stmt : Select)
  | update (stmt : Update)
  | delete (stmt : Delete)
  | begin
  | commit
  | rollback
  | checkpoint
  | explain (statement : Statement)
  deriving DecidableEq, Repr

/-- `type(statement).__name__`. -/
def Statement.typeName : Statement → String
  | .createTable _ => "CreateTable"
  | .dropTable _ => "DropTable"
  | .insert _ => "Insert"
  | .select _ => "Select"
  | .update _ => "Update"
  | .delete _ => "Delete"
  | .begin => "Begin"
  | .commit => "Commit"
  | .rollback => "Rollback"
  | .checkpoint => "Checkpoint"
  | .explain _ => "Explain"

end TinyDB
