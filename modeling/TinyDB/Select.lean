import TinyDB.Catalog
import TinyDB.Heap
import TinyDB.Predicate
import TinyDB.Lib.Decimal
import TinyDB.Lib.Sorting

/-!
# SELECT

`executor/select.py` and the parts of `executor/join.py` it calls. Nothing here
writes: the store is only read. `execSelect` takes the single-table path when
there are no joins; the join path ignores `project` and always projects.
-/

namespace TinyDB

open Lib

/-! ## Projection -/

/-- The tables behind `str.isalpha` and `str.lower`. -/
class PyText where
  isalpha : Char → Bool
  lower : List Char → List Char

/-- The two for text without characters outside ASCII. -/
instance asciiText : PyText := ⟨Char.isAlpha, lowerChars⟩

variable [PyText]

/-- `str(value)`. -/
def strValue : Value → List Char
  | .null => "None".toList
  | .int i => (toString i).toList
  | .float f => f.repr
  | .text s => s.toList
  | .bool b => if b then "True".toList else "False".toList

/-- `_proj_key`. -/
def projKey (index : Nat) : Expr → String
  | .column name => name
  | .sqlLiteral value _ =>
    let text := PyText.lower (strValue value)
    let text := replaceChars ['(', '*', ')'] [] text.length text
    let text := replaceChars ['('] ['_'] text.length text
    String.ofList (replaceChars [')'] [] text.length text)
  | _ => "col_" ++ toString index

/-- The name an aggregate text such as `SUM(a)` mentions. -/
def aggregateName (text : List Char) : String :=
  if '(' ∈ text then
    let inner := ((text.dropWhile fun c => c != '(').drop 1).takeWhile fun c => c != '('
    String.ofList (rstripChar ')' inner)
  else String.ofList text

/-- One turn of `_project_row`. -/
def projectOne (rowDict : RowDict) (index : Nat) (proj : Expr) (out : RowDict) :
    Except PyErr RowDict :=
  match proj with
  | .column name => .ok (out.set name (rowDict.find name))
  | .qualifiedColumn table name => do
    let value ← evalExpr rowDict (.qualifiedColumn (some (table.getD "None")) name)
    .ok (out.set name value)
  | .sqlLiteral (.text s) raw =>
    match s.toList with
    | [] => .error .indexError
    | c :: text =>
      let value :=
        if PyText.isalpha c then rowDict.find (aggregateName (c :: text)) else .text s
      .ok (out.set (projKey index (.sqlLiteral (.text s) raw)) value)
  | .sqlLiteral value raw => .ok (out.set (projKey index (.sqlLiteral value raw)) value)
  | proj => do
    let value ← evalExpr rowDict proj
    .ok (out.set (projKey index proj) value)

def projectFrom (rowDict : RowDict) : Nat → List Expr → RowDict → Except PyErr RowDict
  | _, [], out => .ok out
  | index, proj :: projections, out => do
    let out ← projectOne rowDict index proj out
    projectFrom rowDict (index + 1) projections out

/-- `_project_row`. -/
def projectRow (projections : List Expr) (rowDict : RowDict) : Except PyErr RowDict :=
  projectFrom rowDict 0 projections OrdDict.empty

def projectRows (projections : List Expr) : List RowDict → Except PyErr (List RowDict)
  | [] => .ok []
  | rowDict :: rows => do
    let out ← projectRow projections rowDict
    let rest ← projectRows projections rows
    .ok (out :: rest)

/-! ## The clauses -/

def evalKeys {α : Type} (expr : Expr) (dict : α → RowDict) :
    List α → Except PyErr (List (Value × α))
  | [] => .ok []
  | x :: rows => do
    let key ← evalExpr (dict x) expr
    let rest ← evalKeys expr dict rows
    .ok ((key, x) :: rest)

/-- ORDER BY: only the first key is used. -/
def sortRows {α : Type} (orderBy : List OrderItem) (dict : α → RowDict) (rows : List α) :
    Except PyErr (List α) :=
  match orderBy with
  | [] => .ok rows
  | item :: _ => do
    let keyed ← evalKeys item.expr dict rows
    let keyed ← sorted (fun a b => a.1.pyLt b.1) (decide (item.direction = .desc)) keyed
    .ok (keyed.map Prod.snd)

omit [PyText] in
theorem evalKeys_snd {α : Type} {expr : Expr} {dict : α → RowDict} {l : List α}
    {keyed : List (Value × α)} (h : evalKeys expr dict l = .ok keyed) :
    keyed.map Prod.snd = l := by
  induction l generalizing keyed with
  | nil =>
    cases h
    rfl
  | cons x l ih =>
    simp only [evalKeys, bind_eq_ok, Except.ok.injEq] at h
    obtain ⟨key, -, rest, hrest, rfl⟩ := h
    rw [List.map_cons, ih hrest]

omit [PyText] in
theorem sortRows_perm {α : Type} {orderBy : List OrderItem} {dict : α → RowDict} {l l' : List α}
    (h : sortRows orderBy dict l = .ok l') : l'.Perm l := by
  cases orderBy with
  | nil =>
    cases h
    exact List.Perm.refl _
  | cons item orderBy =>
    simp only [sortRows, bind_eq_ok, Except.ok.injEq] at h
    obtain ⟨keyed, hkeyed, ordered, hsorted, rfl⟩ := h
    rw [← evalKeys_snd hkeyed]
    exact (sorted_perm hsorted).map Prod.snd

def limitRows {α : Type} (limit offset : Option Nat) (rows : List α) : List α :=
  let rows := rows.drop (offset.getD 0)
  match limit with
  | none => rows
  | some n => rows.take n

def hasStar (projections : List Expr) : Bool := projections.any fun p => decide (p = .star)

/-- `_exec_single_table`. -/
def execSingleTable (store : FileStore) (entry : TableMeta) (stmt : Select) (project : Bool) :
    Except PyErr (List RowDict) := do
  let rows ← Heap.scan ⟨entry.rootPageId, entry.schema⟩ store
  let dict := fun row : Nat × Row => rowToDict entry.schema row.2 row.1
  let rows ← filterRaising (fun row => evalWhere (dict row) stmt.where') rows
  let rows ← sortRows stmt.orderBy dict rows
  let dicts := (limitRows stmt.limit stmt.offset rows).map dict
  if project = false then .ok dicts
  else if hasStar stmt.projections then .ok (dicts.map fun d => d.erase "rowid")
  else projectRows stmt.projections dicts

/-! ## Joins -/

/-- `_resolve_table_name`. -/
def resolveTableName (join : JoinClause) : String :=
  match join.alias' with
  | none => join.table
  | some alias' => if alias' = "" then join.table else alias'

/-- The columns of one table: those seen before become ambiguous. -/
def noteColumns : Schema → List String × List String → List String × List String
  | [], seen => seen
  | (colName, _) :: schema, (all, ambiguous) =>
    noteColumns schema
      (if colName ∈ all then (all, colName :: ambiguous) else (colName :: all, ambiguous))

def ambiguousColumns (catalog : Catalog) (tables : List String) : List String :=
  (tables.foldl (fun seen table =>
    match catalog.getTable table with
    | .ok entry => noteColumns entry.schema seen
    | .error _ => seen) ([], [])).2

/-- `resolve_qualified_columns`; the projections come back unchanged. -/
def resolveQualifiedColumns (ambiguous : List String) : List Expr → Except PyErr Unit
  | [] => .ok ()
  | .column name :: projections =>
    if name ∈ ambiguous then .error (.ambiguousColumn name)
    else resolveQualifiedColumns ambiguous projections
  | _ :: projections => resolveQualifiedColumns ambiguous projections

/-- `_find_column_type`. -/
def findColumnType (catalog : Catalog) (name : String) (table : Option String) :
    Option ColumnType :=
  match table with
  | none => none
  | some table =>
    match catalog.getTable table with
    | .error _ => none
    | .ok entry => (entry.schema.find? fun col => col.1 = name).map Prod.snd

/-- `_column_type`. -/
def columnTypeOf (catalog : Catalog) : Expr → Option ColumnType
  | .column name => findColumnType catalog name none
  | .qualifiedColumn (some table) name => findColumnType catalog name (some table)
  | _ => none

/-- `_types_compatible`. -/
def typesCompatible (left right : ColumnType) : Bool :=
  decide (left = right) ||
    (decide (left = .int ∨ left = .float) && decide (right = .int ∨ right = .float))

/-- `getattr(node, "name", "?")`. -/
def nameOf : Expr → String
  | .column name => name
  | .qualifiedColumn _ name => name
  | _ => "?"

def checkJoinTypeCompatibility (join : JoinClause) (catalog : Catalog) : Except PyErr Unit :=
  match join.on' with
  | some (.binaryOp _ left right) =>
    match columnTypeOf catalog left, columnTypeOf catalog right with
    | some l, some r =>
      if typesCompatible l r then .ok ()
      else .error (.typeMismatch (nameOf left) l.value r.value)
    | _, _ => .ok ()
  | _ => .ok ()

/-- `_scan_table`. -/
def scanTable (store : FileStore) (entry : TableMeta) : Except PyErr (List RowDict) := do
  let rows ← Heap.scan ⟨entry.rootPageId, entry.schema⟩ store
  .ok (rows.map fun row => rowToDict entry.schema row.2 row.1)

/-- `_merge_rows`. -/
def mergeRows (left right : RowDict) (join : JoinClause) : RowDict :=
  right.entries.foldl (fun merged e =>
    if merged.contains e.1 then merged.set (resolveTableName join ++ "." ++ e.1) e.2
    else merged.set e.1 e.2) left

/-- `_match_join_condition`. -/
def matchJoinCondition (join : JoinClause) (row : RowDict) : Except PyErr Bool :=
  evalWhere row join.on'

/-- The merged rows of one left row. -/
def matchRows (join : JoinClause) (leftRow : RowDict) : List RowDict → Except PyErr (List RowDict)
  | [] => .ok []
  | rightRow :: rightRows => do
    let merged := mergeRows leftRow rightRow join
    let hit ← matchJoinCondition join merged
    let rest ← matchRows join leftRow rightRows
    .ok (if hit then merged :: rest else rest)

/-- The columns of the right table, all NULL. -/
def nullRight (rightTable : String) (schema : Schema) : RowDict :=
  (OrdDict.ofList (schema.map fun col => (rightTable ++ "." ++ col.1, Value.null))).set
    "rowid" .null

def joinRows (join : JoinClause) (rightTable : String) (rightSchema : Schema)
    (rightRows : List RowDict) : List RowDict → Except PyErr (List RowDict)
  | [] => .ok []
  | leftRow :: leftRows => do
    let matched ← matchRows join leftRow rightRows
    let rest ← joinRows join rightTable rightSchema rightRows leftRows
    if join.kind = .left ∧ matched = [] then
      .ok (leftRow.update (nullRight rightTable rightSchema) :: rest)
    else .ok (matched ++ rest)

def execNestedLoopJoin (store : FileStore) (catalog : Catalog) (leftRows : List RowDict)
    (join : JoinClause) : Except PyErr (List RowDict) := do
  let rightTable := resolveTableName join
  let rightMeta ← catalog.getTable rightTable
  let rightRows ← scanTable store rightMeta
  joinRows join rightTable rightMeta.schema rightRows leftRows

def joinAll (store : FileStore) (catalog : Catalog) :
    List RowDict → List JoinClause → Except PyErr (List RowDict)
  | result, [] => .ok result
  | result, join :: joins => do
    checkJoinTypeCompatibility join catalog
    let result ← execNestedLoopJoin store catalog result join
    joinAll store catalog result joins

/-- `_exec_join_path`. -/
def execJoinPath (store : FileStore) (catalog : Catalog) (entry : TableMeta) (stmt : Select) :
    Except PyErr (List RowDict) := do
  let leftDicts ← scanTable store entry
  let result ← joinAll store catalog leftDicts stmt.joins
  let result ← filterRaising (fun row => evalWhere row stmt.where') result
  let result ← sortRows stmt.orderBy id result
  let result := limitRows stmt.limit stmt.offset result
  if hasStar stmt.projections then .ok (result.map fun d => d.erase "rowid")
  else projectRows stmt.projections result

def execSelect (store : FileStore) (catalog : Catalog) (entry : TableMeta) (stmt : Select)
    (project : Bool) : Except PyErr (List RowDict) :=
  if stmt.joins = [] then execSingleTable store entry stmt project
  else do
    let tables := entry.name :: stmt.joins.map resolveTableName
    resolveQualifiedColumns (ambiguousColumns catalog tables) stmt.projections
    execJoinPath store catalog entry stmt

end TinyDB
