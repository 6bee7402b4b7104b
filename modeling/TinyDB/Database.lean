import TinyDB.Aggregate
import TinyDB.Dml
import TinyDB.Replay

/-!
# Executor, transactions and the database

`executor/__init__.py`, `tx.py` and `database.py`. A `Database` is everything one
connection holds: the store and the log file, and in memory the log object, the
transactions, the catalog and the constraints of the tables this connection
created. `Disk` is what a kill leaves of it. Statements return the database
beside their result, since an exception does not undo what was done before it.
-/

namespace TinyDB

open Lib

/-! ## Transaction manager -/

structure TxState where
  txId : Nat
  active : Bool := true
  deriving DecidableEq, Repr

structure TxManager where
  txs : OrdDict Nat TxState
  nextTxId : Nat
  deriving DecidableEq

namespace TxManager

def new : TxManager := ⟨OrdDict.empty, 1⟩

def anyActive (tx : TxManager) : Bool := tx.txs.values.any TxState.active

def begin (tx : TxManager) : Except PyErr (Nat × TxManager) :=
  if tx.anyActive then .error .transactionAlreadyActive
  else .ok (tx.nextTxId, ⟨tx.txs.set tx.nextTxId ⟨tx.nextTxId, true⟩, tx.nextTxId + 1⟩)

/-- `_check_tx`. -/
def checkTx (tx : TxManager) (txId : Nat) : Except PyErr Unit :=
  match tx.txs.get? txId with
  | none => .error .transactionAlreadyActive
  | some st => if st.active then .ok () else .error .transactionAlreadyActive

/-- `commit` and `rollback`: log the end of the transaction and forget it. -/
def finish (tx : TxManager) (wal : Wal) (walFile : Bytes) (kind : RecordKind) (txId : Nat) :
    Except PyErr (TxManager × Wal × Bytes) := do
  tx.checkTx txId
  let (_, wal, walFile) ← wal.append walFile kind txId 0 [] []
  .ok (⟨tx.txs.erase txId, tx.nextTxId⟩, wal, walFile)

end TxManager

/-! ## Databases -/

structure Disk where
  file : List Bytes
  wal : Option Bytes
  deriving DecidableEq, Repr

structure Database where
  store : FileStore
  walFile : Bytes
  wal : Wal
  tx : TxManager
  catalog : Catalog
  constraints : OrdDict String ColumnConstraints
  deriving DecidableEq

namespace Database

/-- `Database(path)`. -/
def openDatabase (disk : Disk) (pageSize : Nat) : Except PyErr Database := do
  let store ← FileStore.openStore disk.file disk.wal pageSize
  let walFile := disk.wal.getD []
  let catalog ← Catalog.empty.load store
  .ok ⟨store, walFile, Wal.openLog walFile, TxManager.new, catalog, OrdDict.empty⟩

/-- What is left when the process is killed. -/
def kill (db : Database) : Disk := ⟨db.store.file, some db.walFile⟩

/-- `close`; an exception from the store is swallowed. -/
def close (db : Database) : Disk :=
  match db.store.flushFreeHead with
  | .ok store => ⟨store.file, some db.walFile⟩
  | .error _ => ⟨db.store.file, some db.walFile⟩

/-! ## Statements -/

variable [PyText]

/-- What `_dispatch` returns. -/
inductive Returned where
  | nothing
  | rows (rows : List RowDict)
  | plan (dicts : List PlanDict)
  | count (n : Nat)

/-- What `execute` returns. -/
inductive Result where
  | rows (rows : List RowDict)
  | plan (dicts : List PlanDict)

/-- `self._constraints[stmt.name] = ...`. -/
def columnConstraints (columns : List ColumnDef) : ColumnConstraints :=
  OrdDict.ofList (columns.map fun col => (col.name, col.constraints))

def tableConstraints (db : Database) (table : String) : ColumnConstraints :=
  (db.constraints.get? table).getD OrdDict.empty

def dispatchCreateTable (db : Database) (stmt : CreateTable) : Except PyErr Returned × Database :=
  match execCreateTable db.catalog db.store stmt with
  | (.error e, catalog, store) => (.error e, { db with catalog, store })
  | (.ok (), catalog, store) =>
    let constraints := db.constraints.set stmt.name (columnConstraints stmt.columns)
    (.ok .nothing, { db with catalog, store, constraints })

def dispatchDropTable (db : Database) (stmt : DropTable) : Except PyErr Returned × Database :=
  match execDropTable db.catalog db.store stmt with
  | (.error e, catalog, store) => (.error e, { db with catalog, store })
  | (.ok (), catalog, store) => (.ok .nothing, { db with catalog, store })

def dispatchInsert (db : Database) (stmt : Insert) : Except PyErr Returned × Database :=
  match db.catalog.getTable stmt.table with
  | .error e => (.error e, db)
  | .ok entry =>
    match execInsert db.store entry stmt.columns stmt.values (db.tableConstraints stmt.table) with
    | (.error e, store) => (.error e, { db with store })
    | (.ok (), store) => (.ok .nothing, { db with store })

def dispatchUpdate (db : Database) (stmt : Update) : Except PyErr Returned × Database :=
  match db.catalog.getTable stmt.table with
  | .error e => (.error e, db)
  | .ok entry =>
    match execUpdate db.store entry stmt.assignments stmt.where' with
    | (.error e, store) => (.error e, { db with store })
    | (.ok n, store) => (.ok (.count n), { db with store })

def dispatchDelete (db : Database) (stmt : Delete) : Except PyErr Returned × Database :=
  match db.catalog.getTable stmt.table with
  | .error e => (.error e, db)
  | .ok entry =>
    match execDelete db.store entry stmt.where' with
    | (.error e, store) => (.error e, { db with store })
    | (.ok n, store) => (.ok (.count n), { db with store })

def dispatchSelect (db : Database) (stmt : Select) : Except PyErr Returned := do
  let entry ← db.catalog.getTable stmt.table
  let hasAgg := decide (stmt.groupBy ≠ []) || hasAggregate stmt.projections
  let rows ← execSelect db.store db.catalog entry stmt (!hasAgg)
  if hasAgg then do
    let rows ← execAggregate rows stmt.projections stmt.groupBy
    .ok (.rows rows)
  else .ok (.rows rows)

/-- `exec_explain`. -/
def execExplain (catalog : Catalog) : Statement → Except PyErr Returned
  | .select stmt => do
    let plan ← IndexPlanner.planSelect stmt catalog
    .ok (.plan [planToDict plan])
  | inner =>
    .ok (.plan [[("node", .value (.text "Explain")), ("statement", .value (.text inner.typeName))]])

/-- `exec_checkpoint`. -/
def dispatchCheckpoint (db : Database) : Except PyErr Returned × Database :=
  let (wal, walFile) := db.wal.truncate
  (.ok .nothing, { db with wal, walFile })

def dispatchBegin (db : Database) : Except PyErr Returned × Database :=
  match db.tx.begin with
  | .error e => (.error e, db)
  | .ok (txId, tx) => (.ok (.count txId), { db with tx })

/-- `Executor._dispatch`. -/
def dispatch (db : Database) : Statement → Except PyErr Returned × Database
  | .createTable stmt => db.dispatchCreateTable stmt
  | .dropTable stmt => db.dispatchDropTable stmt
  | .checkpoint => db.dispatchCheckpoint
  | .insert stmt => db.dispatchInsert stmt
  | .select stmt => (db.dispatchSelect stmt, db)
  | .explain stmt => (execExplain db.catalog stmt, db)
  | .update stmt => db.dispatchUpdate stmt
  | .delete stmt => db.dispatchDelete stmt
  | .begin => db.dispatchBegin
  | .commit => (.ok .nothing, db)
  | .rollback => (.ok .nothing, db)

def rowsAffected (n : Nat) : Result := .rows [OrdDict.empty.set "rows_affected" (.int n)]

def statusOk : Result := .rows [OrdDict.empty.set "status" (.text "ok")]

/-- `_normalize_result`. -/
def normalizeResult (stmt : Statement) (result : Returned) : Result :=
  match stmt, result with
  | .select _, .rows rows => .rows rows
  | .select _, _ => .rows []
  | .explain _, .plan dicts => .plan dicts
  | .explain _, _ => .rows []
  | .insert _, _ => rowsAffected 1
  | .update _, .count n => rowsAffected n
  | .update _, _ => rowsAffected 0
  | .delete _, .count n => rowsAffected n
  | .delete _, _ => rowsAffected 0
  | _, _ => statusOk

/-- `execute`, on the parsed statement. -/
def execute (db : Database) (stmt : Statement) : Except PyErr Result × Database :=
  let (result, db) := db.dispatch stmt
  (result.map (normalizeResult stmt), db)

def listTables (db : Database) : List String := db.catalog.listTables

/-- The rows of a table, or why they cannot be read. -/
def tableRows (db : Database) (table : String) : Except PyErr (List (Nat × Row)) := do
  let entry ← db.catalog.getTable table
  entry.heap.scan db.store

/-! ## transaction() -/

/-- `_snapshot_pages`: the bodies of pages `pid` and the `n - 1` after it. -/
def snapshotPages (store : FileStore) : Nat → Nat → Except PyErr (List (Nat × Bytes))
  | 0, _ => .ok []
  | n + 1, pid => do
    let page ← store.readPage pid
    let rest ← snapshotPages store n (pid + 1)
    .ok ((pid, page.body) :: rest)

def snapshot (db : Database) : Except PyErr (List (Nat × Bytes)) :=
  snapshotPages db.store db.store.pageCount 0

/-- The loop of `_restore_pages`; a page keeps the type and LSN it has now. -/
def restoreBodies : FileStore → List (Nat × Bytes) → Except PyErr Unit × FileStore
  | store, [] => (.ok (), store)
  | store, (pid, body) :: rest =>
    match store.readPage pid with
    | .error e => (.error e, store)
    | .ok page =>
      match store.writePage { page with body := body } with
      | .error e => (.error e, store)
      | .ok store => restoreBodies store rest

/-- `_restore_pages`. -/
def restorePages (db : Database) (saved : List (Nat × Bytes)) : Except PyErr Unit × Database :=
  match restoreBodies db.store saved with
  | (.error e, store) => (.error e, { db with store })
  | (.ok (), store) =>
    match db.catalog.load store with
    | .error e => (.error e, { db with store })
    | .ok catalog => (.ok (), { db with store, catalog })

/-- Entering the block: the snapshot is taken, then the transaction begins. -/
def enterBlock (db : Database) : Except PyErr (List (Nat × Bytes) × Nat × Database) := do
  let saved ← db.snapshot
  let (txId, tx) ← db.tx.begin
  .ok (saved, txId, { db with tx })

/-- The statements of a block, one after the other. What one of them raises is
caught in the block or ends it; in both cases it is the last word about it. -/
def executeAll (db : Database) : List Statement → Database
  | [] => db
  | stmt :: stmts => (db.execute stmt).2.executeAll stmts

/-- Leaving the block with an exception. -/
def rollbackBlock (db : Database) (saved : List (Nat × Bytes)) (txId : Nat) :
    Except PyErr Unit × Database :=
  match db.tx.finish db.wal db.walFile .txRollback txId with
  | .error e => (.error e, db)
  | .ok (tx, wal, walFile) => { db with tx, wal, walFile }.restorePages saved

/-- Leaving the block at its end. A commit that raises leads to the rollback. -/
def commitBlock (db : Database) (saved : List (Nat × Bytes)) (txId : Nat) : Database :=
  match db.tx.finish db.wal db.walFile .txCommit txId with
  | .error _ => (db.rollbackBlock saved txId).2
  | .ok (tx, wal, walFile) => { db with tx, wal, walFile }

/-- `with db.transaction()` around the statements; `fails` tells whether the block
ends with an exception. A block that cannot be entered runs no statement. -/
def transaction (db : Database) (stmts : List Statement) (fails : Bool) : Database :=
  match db.enterBlock with
  | .error _ => db
  | .ok (saved, txId, db) =>
    let db := db.executeAll stmts
    if fails then (db.rollbackBlock saved txId).2 else db.commitBlock saved txId

/-- A new database of 512-byte pages after the statements. -/
def newDatabase (stmts : List Statement) : Database :=
  match openDatabase ⟨[], none⟩ 512 with
  | .ok db => db.executeAll stmts
  | .error _ => ⟨⟨[], 512, 0, 0⟩, [], ⟨0, 1⟩, TxManager.new, Catalog.empty, OrdDict.empty⟩

end Database
end TinyDB
