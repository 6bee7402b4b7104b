import TinyDB.Catalog
import TinyDB.Heap
import TinyDB.Predicate

/-!
# INSERT, UPDATE and DELETE

`executor/dml.py`. Rows are checked and written one at a time, so each
statement returns the store beside its result: what was written before an
exception stays.
-/

namespace TinyDB

open Lib

/-- `_coerce`. -/
def coerce (value : Value) (colType : ColumnType) : Except PyErr Value := coerceIn value colType "?"

/-- `schema_dict[col]`; of repeated names the last counts. -/
def schemaType (schema : Schema) (col : String) : Except PyErr ColumnType :=
  match (OrdDict.ofList schema).get? col with
  | none => .error (.keyError col)
  | some t => .ok t

/-- The constraints of one table by column name. -/
abbrev ColumnConstraints := OrdDict String (List Constraint)

def ColumnConstraints.has (constraints : ColumnConstraints) (col : String) (c : Constraint) : Bool :=
  ((constraints.get? col).getD []).contains c

/-- `_validate_row`, over `zip(columns, values)`. -/
def validateRow (entry : TableMeta) (constraints : ColumnConstraints) :
    List (String × Value) → Except PyErr Unit
  | [] => .ok ()
  | (col, value) :: rest => do
    let colType ← schemaType entry.schema col
    if value = .null then
      if constraints.has col .notNull then .error (.notNullViolation col entry.name)
      else validateRow entry constraints rest
    else
      let got := pythonTypeName value
      let expected := colType.value
      if got ≠ expected ∧ ¬ (got = "BOOL" ∧ expected = "INT") then
        .error (.typeMismatch col expected got)
      else validateRow entry constraints rest

/-- `[_coerce(row_dict.get(name), typ) for name, typ in meta.schema]`. -/
def coerceColumns (find : String → Value) : Schema → Except PyErr Row
  | [] => .ok []
  | (name, colType) :: schema => do
    let value ← coerce (find name) colType
    let rest ← coerceColumns find schema
    .ok (value :: rest)

/-- `pk_cols`. -/
def pkCols (constraints : ColumnConstraints) : List String :=
  (constraints.entries.filter fun e => e.2.contains .primaryKey).map Prod.fst

/-- `pk_indices`. -/
def pkIndices (schema : Schema) (pk : List String) : List Nat :=
  (List.range schema.length).filter fun i => decide ((schema.getD i ("", .int)).1 ∈ pk)

def keyOf (indices : List Nat) (values : Row) : List Value :=
  indices.map fun i => values.getD i .null

def insertName (x : String) : List String → List String
  | [] => [x]
  | y :: l => if x < y then x :: y :: l else y :: insertName x l

/-- `",".join(sorted(pk_cols))`. -/
def joinNames (names : List String) : String :=
  String.intercalate "," (names.foldl (fun l x => insertName x l) [])

/-- `_check_unique`. -/
def checkUnique (heap : Heap) (store : FileStore) (entry : TableMeta) (ordered : Row)
    (pk : List String) : Except PyErr Unit := do
  let indices := pkIndices entry.schema pk
  let pkValues := keyOf indices ordered
  let rows ← heap.scan store
  if rows.any fun row => Value.pyEqAll (keyOf indices row.2) pkValues then
    .error (.uniqueViolation (joinNames pk) entry.name (.tuple pkValues))
  else .ok ()

/-- One turn of the INSERT loop: `ordered`, if the tuple passes the row checks. -/
def prepareRow (entry : TableMeta) (constraints : ColumnConstraints) (colNames : List String)
    (values : List Value) : Except PyErr Row := do
  validateRow entry constraints (colNames.zip values)
  let rowDict : RowDict := OrdDict.ofList (colNames.zip values)
  coerceColumns rowDict.find entry.schema

def insertRow (heap : Heap) (entry : TableMeta) (constraints : ColumnConstraints)
    (colNames : List String) (store : FileStore) (values : List Value) :
    Except PyErr FileStore := do
  let ordered ← prepareRow entry constraints colNames values
  if pkCols constraints ≠ [] then checkUnique heap store entry ordered (pkCols constraints)
  let (_, store) ← heap.append store ordered
  .ok store

def insertRows (heap : Heap) (entry : TableMeta) (constraints : ColumnConstraints)
    (colNames : List String) : FileStore → List (List Value) → Except PyErr Unit × FileStore
  | store, [] => (.ok (), store)
  | store, values :: valuesList =>
    match insertRow heap entry constraints colNames store values with
    | .error e => (.error e, store)
    | .ok store => insertRows heap entry constraints colNames store valuesList

def TableMeta.heap (entry : TableMeta) : Heap := ⟨entry.rootPageId, entry.schema⟩

/-- `columns or [name for name, _typ in meta.schema]`. -/
def insertColumns (entry : TableMeta) (columns : Option (List String)) : List String :=
  match columns with
  | none => entry.schema.map Prod.fst
  | some [] => entry.schema.map Prod.fst
  | some columns => columns

def execInsert (store : FileStore) (entry : TableMeta) (columns : Option (List String))
    (valuesList : List (List Value)) (constraints : ColumnConstraints) :
    Except PyErr Unit × FileStore :=
  insertRows entry.heap entry constraints (insertColumns entry columns) store valuesList

/-- The value an UPDATE gives to one column. -/
def updatedValue (assignments rowDict : RowDict) (name : String) (colType : ColumnType) :
    Except PyErr Value :=
  match assignments.get? name with
  | some value => coerce value colType
  | none => .ok (rowDict.find name)

/-- The values an UPDATE gives to one row. -/
def updatedValues (assignments rowDict : RowDict) : Schema → Except PyErr Row
  | [] => .ok []
  | (name, colType) :: schema => do
    let value ← updatedValue assignments rowDict name colType
    let rest ← updatedValues assignments rowDict schema
    .ok (value :: rest)

def updateRow (heap : Heap) (assignments : RowDict) (store : FileStore) (rowid : Nat)
    (rowDict : RowDict) : Except PyErr FileStore := do
  let newValues ← updatedValues assignments rowDict heap.schema
  heap.update store rowid newValues

/-- The loop that UPDATE and DELETE share: `write` is run on each row of the scan
that satisfies the WHERE clause. -/
def writeRows (schema : Schema) (cond : Option Expr)
    (write : FileStore → Nat → RowDict → Except PyErr FileStore) :
    FileStore → Nat → List (Nat × Row) → Except PyErr Nat × FileStore
  | store, count, [] => (.ok count, store)
  | store, count, (rowid, values) :: rows =>
    let rowDict := rowToDict schema values rowid
    match evalWhere rowDict cond with
    | .error e => (.error e, store)
    | .ok false => writeRows schema cond write store count rows
    | .ok true =>
      match write store rowid rowDict with
      | .error e => (.error e, store)
      | .ok store => writeRows schema cond write store (count + 1) rows

def execUpdate (store : FileStore) (entry : TableMeta) (assignments : List (String × Value))
    (cond : Option Expr) : Except PyErr Nat × FileStore :=
  match entry.heap.scan store with
  | .error e => (.error e, store)
  | .ok rows =>
    writeRows entry.schema cond
      (fun store rowid rowDict =>
        updateRow entry.heap (OrdDict.ofList assignments) store rowid rowDict)
      store 0 rows

def execDelete (store : FileStore) (entry : TableMeta) (cond : Option Expr) :
    Except PyErr Nat × FileStore :=
  if cond = none then (.error .unsafeDeleteWithoutWhere, store)
  else
    match entry.heap.scan store with
    | .error e => (.error e, store)
    | .ok rows =>
      writeRows entry.schema cond (fun store rowid _ => entry.heap.delete store rowid) store 0 rows

end TinyDB
