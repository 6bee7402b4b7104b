import TinyDB.Select

/-!
# Aggregates and EXPLAIN

`executor/aggregate.py`, `executor/index_plan.py` and `executor/plan_nodes.py`.
Of the plan nodes the model has the four that the planner builds. A plan is
printed as nested dictionaries, whose values may also be predicates.
-/

namespace TinyDB

open Lib

/-! ## Aggregates -/

/-- `_num`. -/
def num : Value → Except PyErr Value
  | .null => .ok (.int 0)
  | .int i => .ok (.float (Binary64.ofInt i))
  | .float f => .ok (.float f)
  | .bool b => .ok (.float (Binary64.ofInt (if b then 1 else 0)))
  | .text s =>
    match floatOfText s.toList with
    | none => .error .valueError
    | some f => .ok (.float f)

/-- `a + b` of the results of `_num`. -/
def addNum : Value → Value → Value
  | .int a, .int b => .int (a + b)
  | .int a, .float g => .float ((Binary64.ofInt a).add g)
  | .float f, .int b => .float (f.add (Binary64.ofInt b))
  | .float f, .float g => .float (f.add g)
  | a, _ => a

/-- `sum`, from the left. -/
def sumNums (vals : List Value) : Value := vals.foldl addNum (.int 0)

/-- `total / n`. -/
def divNum (total : Value) (n : Nat) : Value :=
  match total with
  | .int a => .float ((Binary64.ofInt a).div (Binary64.ofInt n))
  | .float f => .float (f.div (Binary64.ofInt n))
  | v => v

def numsOf (col : String) : List RowDict → Except PyErr (List Value)
  | [] => .ok []
  | r :: rows => do
    let v ← num (r.find col)
    let rest ← numsOf col rows
    .ok (v :: rest)

/-- `text[4:-1]`. -/
def aggregateColumn (text : List Char) : String :=
  String.ofList ((text.take (text.length - 1)).drop 4)

/-- One turn of `_aggregate_group`. -/
def aggregateOne (rows : List RowDict) (index : Nat) (proj : Expr) (out : RowDict) :
    Except PyErr RowDict :=
  match proj with
  | .sqlLiteral (.text s) _ =>
    let text := s.toList
    if startsWith "COUNT".toList text then .ok (out.set "count" (.int rows.length))
    else if startsWith "SUM".toList text then do
      let vals ← numsOf (aggregateColumn text) rows
      .ok (out.set "sum" (sumNums vals))
    else if startsWith "AVG".toList text then do
      let vals ← numsOf (aggregateColumn text) rows
      .ok (out.set "avg" (if vals = [] then .int 0 else divNum (sumNums vals) vals.length))
    else .ok (out.set ("col_" ++ toString index) (.text s))
  | .column name =>
    .ok (out.set name (match rows with | [] => .null | r :: _ => r.find name))
  | _ => .ok (out.set ("col_" ++ toString index) .null)

def aggregateFrom (rows : List RowDict) : Nat → List Expr → RowDict → Except PyErr RowDict
  | _, [], out => .ok out
  | index, proj :: projections, out => do
    let out ← aggregateOne rows index proj out
    aggregateFrom rows (index + 1) projections out

/-- `_aggregate_group`. -/
def aggregateGroup (rows : List RowDict) (projections : List Expr) : Except PyErr RowDict :=
  aggregateFrom rows 0 projections OrdDict.empty

/-- `_eval_group_key`. -/
def evalGroupKey (row : RowDict) : Expr → Value
  | .column name => row.find name
  | _ => .null

/-- `groups.setdefault(key, []).append(row)`. -/
def addToGroup (key : List Value) (row : RowDict) :
    List (List Value × List RowDict) → List (List Value × List RowDict)
  | [] => [(key, [row])]
  | (k, rows) :: groups =>
    if Value.pyEqAll k key then (k, rows ++ [row]) :: groups
    else (k, rows) :: addToGroup key row groups

/-- `left < right` of two tuples. -/
def keyLt : List Value → List Value → Except PyErr Bool
  | a :: as, b :: bs => if a.pyEq b then keyLt as bs else a.pyLt b
  | [], _ :: _ => .ok true
  | _, [] => .ok false

def setGroupKeys (out : RowDict) : List Expr → List Value → RowDict
  | .column name :: groupBy, v :: key => setGroupKeys (out.set name v) groupBy key
  | _ :: groupBy, _ :: key => setGroupKeys out groupBy key
  | _, _ => out

def aggregateGroups (projections groupBy : List Expr) :
    List (List Value × List RowDict) → Except PyErr (List RowDict)
  | [] => .ok []
  | (key, rows) :: groups => do
    let agg ← aggregateGroup rows projections
    let rest ← aggregateGroups projections groupBy groups
    .ok (setGroupKeys agg groupBy key :: rest)

def execAggregate (rows : List RowDict) (projections groupBy : List Expr) :
    Except PyErr (List RowDict) :=
  if groupBy = [] then do
    let agg ← aggregateGroup rows projections
    .ok [agg]
  else do
    let groups := rows.foldl (fun groups row => addToGroup (groupBy.map (evalGroupKey row)) row
      groups) []
    let groups ← sorted (fun a b => keyLt a.1 b.1) false groups
    aggregateGroups projections groupBy groups

/-- `_has_aggregate`. -/
def hasAggregate (projections : List Expr) : Bool :=
  projections.any fun
    | .sqlLiteral (.text s) _ =>
      startsWith "COUNT".toList s.toList || startsWith "SUM".toList s.toList ||
        startsWith "AVG".toList s.toList
    | _ => false

/-! ## Plans -/

inductive PlanNode where
  | tableScan (table : String) (rows : Nat) (cost : Binary64)
  | indexScan (table column : String) (seekKey : Value) (rows : Nat) (cost : Binary64)
  | filter (predicate : Expr) (child : PlanNode) (rows : Nat) (cost : Binary64)
  | nestedLoopJoin (left right : PlanNode) (condition : Option Expr) (rows : Nat) (cost : Binary64)
  deriving DecidableEq, Repr

namespace PlanNode

def estimatedRows : PlanNode → Nat
  | tableScan _ rows _ => rows
  | indexScan _ _ _ rows _ => rows
  | filter _ _ rows _ => rows
  | nestedLoopJoin _ _ _ rows _ => rows

def estimatedCost : PlanNode → Binary64
  | tableScan _ _ cost => cost
  | indexScan _ _ _ _ cost => cost
  | filter _ _ _ cost => cost
  | nestedLoopJoin _ _ _ _ cost => cost

end PlanNode

namespace IndexPlanner

/-- `_DEFAULT_ROW_COUNT`. -/
def defaultRowCount : Nat := 1000

/-- `_SEQ_PAGE_COST`, `_RANDOM_PAGE_COST` and `_INDEX_HEIGHT_DEFAULT`. -/
def seqPageCost : Binary64 := Binary64.ofInt 1
def randomPageCost : Binary64 := Binary64.ofInt 2
def indexHeightDefault : Binary64 := Binary64.ofInt 2

def rowCountOf (entry : TableMeta) : Nat :=
  if 0 < entry.rowCount then entry.rowCount else defaultRowCount

/-- `_eval_literal`. -/
def evalLiteral : Expr → Value
  | .sqlLiteral value _ => value
  | .column name => .text name
  | _ => .null

/-- `_match_index_column`. -/
def matchIndexColumn (cond : Option Expr) (entry : TableMeta) : Option (String × Value) :=
  match cond with
  | some (.binaryOp .eq (.column name) right) =>
    if (entry.indexes.map Prod.fst).contains name then some (name, evalLiteral right) else none
  | _ => none

/-- `_plan_scan`. -/
def planScan (table : String) (cond : Option Expr) (catalog : Catalog) :
    Except PyErr PlanNode := do
  let entry ← catalog.getTable table
  let rowCount := rowCountOf entry
  let pages := max 1 (rowCount / 50)
  match matchIndexColumn cond entry with
  | some (column, seekKey) =>
    .ok (.indexScan table column seekKey (max 1 (rowCount / 10))
      (indexHeightDefault.add randomPageCost))
  | none => .ok (.tableScan table rowCount ((Binary64.ofInt pages).mul seqPageCost))

/-- `_plan_join`. -/
def planJoin (left : PlanNode) (join : JoinClause) (catalog : Catalog) : Except PyErr PlanNode := do
  let joinMeta ← catalog.getTable join.table
  let rightScan ← planScan join.table none catalog
  .ok (.nestedLoopJoin left rightScan join.on'
    (left.estimatedRows * max 1 (rowCountOf joinMeta / 10))
    (left.estimatedCost.add ((Binary64.ofInt left.estimatedRows).mul rightScan.estimatedCost)))

def planJoins (catalog : Catalog) : PlanNode → List JoinClause → Except PyErr PlanNode
  | root, [] => .ok root
  | root, join :: joins => do
    let root ← planJoin root join catalog
    planJoins catalog root joins

/-- `_extract_post_scan_predicate`. -/
def extractPostScanPredicate : Option Expr → Option Expr
  | some (.binaryOp .eq (.column _) _) => none
  | cond => cond

def planSelect (stmt : Select) (catalog : Catalog) : Except PyErr PlanNode := do
  let scan ← planScan stmt.table stmt.where' catalog
  let root :=
    match extractPostScanPredicate stmt.where' with
    | none => scan
    | some remaining =>
      .filter remaining scan (max 1 (scan.estimatedRows / 2))
        (scan.estimatedCost.add (Binary64.ofInt 1))
  planJoins catalog root stmt.joins

end IndexPlanner

/-- A value of a printed plan. -/
inductive PlanValue where
  | value (v : Value)
  | expr (e : Expr)
  | dicts (ds : List (List (String × PlanValue)))

abbrev PlanDict := List (String × PlanValue)

/-- `plan_to_dict`. -/
def planToDict : PlanNode → PlanDict
  | .tableScan table rows cost =>
    [("node", .value (.text "TableScan")), ("table", .value (.text table)),
      ("estimated_rows", .value (.int rows)), ("estimated_cost", .value (.float cost))]
  | .indexScan table column seekKey rows cost =>
    [("node", .value (.text "IndexScan")), ("table", .value (.text table)),
      ("column", .value (.text column)), ("seek_key", .value seekKey),
      ("estimated_rows", .value (.int rows)), ("estimated_cost", .value (.float cost))]
  | .filter predicate child rows cost =>
    [("node", .value (.text "Filter")), ("predicate", .expr predicate),
      ("estimated_rows", .value (.int rows)), ("estimated_cost", .value (.float cost)),
      ("children", .dicts [planToDict child])]
  | .nestedLoopJoin left right _ rows cost =>
    [("node", .value (.text "NestedLoopJoin")),
      ("estimated_rows", .value (.int rows)), ("estimated_cost", .value (.float cost)),
      ("children", .dicts [planToDict left, planToDict right])]

end TinyDB
