import TinyDB.Blocks
import TinyDB.Lib.Run

/-!
# Two connections on one file

Each connection keeps the catalog, the page count and the free head in its own
memory; the file and the log are shared. An event is a whole statement of one
connection, or that it enters or leaves a `transaction()` block.
`reachable_inFile`: whatever the two do, in any order, pages read under their own
numbers and the tables that a connection knows are on pages of the file.
-/

namespace TinyDB

open Lib FileStore

inductive Side where
  | a
  | b
  deriving DecidableEq, Repr

def Side.other : Side → Side
  | .a => .b
  | .b => .a

theorem Side.other_ne (side : Side) : side.other ≠ side := by cases side <;> decide

/-- One connection and its open block: the snapshot and the id of the transaction. -/
structure Connection where
  db : Database
  block : Option (List (Nat × Bytes) × Nat)

/-- The shared files and the connections. The files inside a connection are those that
it saw last; before it acts again they are replaced by the shared ones. -/
structure Connections where
  disk : Disk
  conn : Side → Connection

inductive Event where
  | execute (side : Side) (stmt : Statement)
  | enter (side : Side)
  | leave (side : Side) (fails : Bool)
  deriving DecidableEq, Repr

def Database.onDisk (db : Database) (disk : Disk) : Database :=
  { db with store := { db.store with file := disk.file }, walFile := disk.wal.getD [] }

namespace Connections

/-- A connection with the files as they are now. -/
def seen (c : Connections) (side : Side) : Database := (c.conn side).db.onDisk c.disk

/-- A connection has acted and leaves the files to the other. -/
def put (c : Connections) (side : Side) (db : Database) (block : Option (List (Nat × Bytes) × Nat)) :
    Connections := ⟨db.kill, Function.update c.conn side ⟨db, block⟩⟩

/-- Both connections are opened, one after the other. Both hold the shared file lock. -/
def openBoth (disk : Disk) (pageSize : Nat) : Except PyErr Connections := do
  let a ← Database.openDatabase disk pageSize
  let b ← Database.openDatabase a.kill pageSize
  .ok ⟨b.kill, fun side => match side with
    | .a => ⟨a, none⟩
    | .b => ⟨b, none⟩⟩

def step (c : Connections) : Event → Connections
  | .execute side stmt => c.put side ((c.seen side).execute stmt).2 (c.conn side).block
  | .enter side =>
    match (c.seen side).enterBlock with
    | .error _ => c
    | .ok (saved, txId, db) => c.put side db (some (saved, txId))
  | .leave side fails =>
    match (c.conn side).block with
    | none => c
    | some (saved, txId) =>
      if fails then c.put side ((c.seen side).rollbackBlock saved txId).2 none
      else c.put side ((c.seen side).commitBlock saved txId) none

/-- What two connections on one file can come to. A connection can be closed and opened
again at any time, which ends its block. -/
inductive Reachable (pageSize : Nat) : Connections → Prop where
  | opened {c : Connections} : openBoth ⟨[], none⟩ pageSize = .ok c → Reachable pageSize c
  | step {c : Connections} (event : Event) : Reachable pageSize c → Reachable pageSize (c.step event)
  | reopen {c : Connections} {db : Database} (side : Side) : Reachable pageSize c →
      Database.openDatabase (c.seen side).close pageSize = .ok db →
      Reachable pageSize (c.put side db none)

/-- A new file of 512-byte pages; the second connection is opened again after the first
has run the statements. -/
def openPair (stmts : List Statement) : Except PyErr Connections := do
  let c ← openBoth ⟨[], none⟩ 512
  let c := run step c (stmts.map (Event.execute .a))
  let b ← Database.openDatabase (c.seen .b).close 512
  .ok (c.put .b b none)

def newConnections (stmts : List Statement) : Connections :=
  match openPair stmts with
  | .ok c => c
  | .error _ => ⟨⟨[], none⟩, fun _ => ⟨Database.newDatabase [], none⟩⟩

@[simp] theorem onDisk_kill (db : Database) : db.onDisk db.kill = db := rfl

@[simp] theorem seen_put_self (c : Connections) (side : Side) (db : Database)
    (block : Option (List (Nat × Bytes) × Nat)) : (c.put side db block).seen side = db := by
  simp only [seen, put, Function.update_self, onDisk_kill]

theorem conn_put_ne (c : Connections) {side other : Side} (h : other ≠ side) (db : Database)
    (block : Option (List (Nat × Bytes) × Nat)) : (c.put side db block).conn other = c.conn other :=
  Function.update_of_ne h _ _

theorem seen_put_ne (c : Connections) {side other : Side} (h : other ≠ side) (db : Database)
    (block : Option (List (Nat × Bytes) × Nat)) :
    (c.put side db block).seen other = (c.conn other).db.onDisk db.kill := by
  rw [seen, conn_put_ne c h]
  rfl

/-! ## The invariant -/

/-- What holds of a connection on the shared files. -/
structure Fine (pageSize : Nat) (db : Database) (block : Option (List (Nat × Bytes) × Nat)) :
    Prop where
  inFile : InFile db.store db.catalog
  pageSize : db.store.pageSize = pageSize
  log : EndLog True db.walFile
  wal : db.wal.BetweenFrames
  block : ∀ saved txId, block = some (saved, txId) → Restorable db.store saved

def AllFine (pageSize : Nat) (c : Connections) : Prop :=
  ∀ side, Fine pageSize (c.seen side) (c.conn side).block

variable {pageSize : Nat} {c : Connections}

/-- The other connection finds the files that the first one left. -/
theorem allFine_put (h : AllFine pageSize c) {side : Side} {db : Database}
    {block : Option (List (Nat × Bytes) × Nat)} (hdb : Fine pageSize db block)
    (hg : Grows (c.seen side).store db.store) : AllFine pageSize (c.put side db block) := by
  intro other
  by_cases he : other = side
  · subst he
    rw [seen_put_self, show ((c.put other db block).conn other).block = block by
      simp only [put, Function.update_self]]
    exact hdb
  · have ho := h other
    rw [seen_put_ne c he, conn_put_ne c he]
    have hlen : (c.seen other).store.file.length ≤ db.store.file.length := hg.length
    have hgrow : Grows (c.seen other).store ((c.conn other).db.onDisk db.kill).store :=
      ⟨rfl, hlen⟩
    have hin : InFile { (c.seen other).store with file := db.store.file } (c.seen other).catalog :=
      hdb.inFile.other ho.inFile (ho.pageSize.trans hdb.pageSize.symm) hlen
    exact ⟨hin, ho.pageSize, hdb.log, ho.wal, fun saved txId hb => (ho.block saved txId hb).grows hgrow⟩

/-! ## Events -/

variable {db : Database} {block : Option (List (Nat × Bytes) × Nat)}

theorem execute_wal (db : Database) (stmt : Statement) :
    ((db.execute stmt).2.walFile = db.walFile ∧ (db.execute stmt).2.wal = db.wal) ∨
      ((db.execute stmt).2.walFile = [] ∧ (db.execute stmt).2.wal.offset = 0) := by
  rcases db.execute_cases stmt with ⟨store, he⟩ | ⟨create, rfl⟩ | ⟨drop, rfl⟩ | ⟨-, tx, he⟩ | rfl
  · rw [he]
    exact Or.inl ⟨rfl, rfl⟩
  · rw [Database.execute_createTable]
    exact Or.inl ⟨rfl, rfl⟩
  · rw [Database.execute_dropTable]
    exact Or.inl ⟨rfl, rfl⟩
  · rw [he]
    exact Or.inl ⟨rfl, rfl⟩
  · exact Or.inr ⟨rfl, rfl⟩

theorem fine_execute (h : Fine pageSize db block) (stmt : Statement) :
    Fine pageSize (db.execute stmt).2 block ∧ Grows db.store (db.execute stmt).2.store := by
  obtain ⟨hin, hg⟩ := execute_inFile h.inFile stmt
  refine ⟨⟨hin, hg.pageSize.trans h.pageSize, ?_, ?_,
    fun saved txId hb => (h.block saved txId hb).grows hg⟩, hg⟩
  · rcases execute_wal db stmt with ⟨hf, -⟩ | ⟨hf, -⟩
    · rw [hf]; exact h.log
    · rw [hf]; exact endLog_nil True
  · rcases execute_wal db stmt with ⟨-, hw⟩ | ⟨-, hw⟩
    · rw [hw]; exact h.wal
    · exact ⟨0, hw⟩

theorem enterBlock_eq_ok {saved : List (Nat × Bytes)} {txId : Nat} {db' : Database} :
    db.enterBlock = .ok (saved, txId, db') ↔
      Database.snapshotPages db.store db.store.pageCount 0 = .ok saved ∧
        ∃ tx, db.tx.begin = .ok (txId, tx) ∧ db' = { db with tx } := by
  simp only [Database.enterBlock, Database.snapshot, bind_eq_ok, Except.ok.injEq, Prod.mk.injEq]
  constructor
  · rintro ⟨_, hs, ⟨id, tx⟩, hb, rfl, rfl, rfl⟩
    exact ⟨hs, tx, hb, rfl⟩
  · rintro ⟨hs, tx, hb, rfl⟩
    exact ⟨saved, hs, (txId, tx), hb, rfl, rfl, rfl⟩

theorem fine_enter (h : Fine pageSize db block) {saved : List (Nat × Bytes)} {txId : Nat}
    {db' : Database} (he : db.enterBlock = .ok (saved, txId, db')) :
    Fine pageSize db' (some (saved, txId)) ∧ Grows db.store db'.store := by
  obtain ⟨hs, tx, -, rfl⟩ := enterBlock_eq_ok.mp he
  refine ⟨⟨h.inFile, h.pageSize, h.log, h.wal, ?_⟩, Grows.refl _⟩
  intro saved' txId' hb
  cases hb
  exact restorable_snapshot h.inFile hs

/-- The record that ends a transaction leaves the log a row of frames. -/
theorem finish_log {gaps : Prop} {tx tx' : TxManager} {wal wal' : Wal} {bytes bytes' : Bytes}
    {kind : RecordKind} {txId : Nat} (hk : kind ≠ .mutate) (hlog : EndLog gaps bytes)
    (hw : wal.BetweenFrames) (hgap : gaps ∨ wal.offset ≤ bytes.length)
    (hf : tx.finish wal bytes kind txId = .ok (tx', wal', bytes')) :
    EndLog gaps bytes' ∧ wal'.BetweenFrames ∧ wal'.offset ≤ bytes'.length := by
  simp only [TxManager.finish, bind_eq_ok, Except.ok.injEq, Prod.mk.injEq] at hf
  obtain ⟨_, -, ⟨lsn, wal1, bytes1⟩, ha, -, rfl, rfl⟩ := hf
  exact hlog.append hw hk ha hgap

theorem fine_rollback (h : Fine pageSize db block) {saved : List (Nat × Bytes)} (txId : Nat)
    (hs : Restorable db.store saved) :
    Fine pageSize (db.rollbackBlock saved txId).2 none ∧
      Grows db.store (db.rollbackBlock saved txId).2.store := by
  unfold Database.rollbackBlock
  split
  · exact ⟨⟨h.inFile, h.pageSize, h.log, h.wal, fun _ _ hb => by cases hb⟩, Grows.refl _⟩
  · rename_i tx wal walFile hf
    obtain ⟨hlog, hw, -⟩ := finish_log (by decide) h.log h.wal (Or.inl True.intro) hf
    obtain ⟨store', hr, hres⟩ := restoreBodies_spec h.inFile.readable hs.page
    obtain ⟨hin, hg⟩ := hres.inFile h.inFile hs
    simp only [Database.restorePages, hr]
    split
    · exact ⟨⟨hin, hg.pageSize.trans h.pageSize, hlog, hw, fun _ _ hb => by cases hb⟩, hg⟩
    · rename_i catalog hload
      exact ⟨⟨load_inFile hin hload, hg.pageSize.trans h.pageSize, hlog, hw,
        fun _ _ hb => by cases hb⟩, hg⟩

theorem fine_commit (h : Fine pageSize db block) {saved : List (Nat × Bytes)} (txId : Nat)
    (hs : Restorable db.store saved) :
    Fine pageSize (db.commitBlock saved txId) none ∧
      Grows db.store (db.commitBlock saved txId).store := by
  unfold Database.commitBlock
  split
  · exact fine_rollback h txId hs
  · rename_i tx wal walFile hf
    obtain ⟨hlog, hw, -⟩ := finish_log (by decide) h.log h.wal (Or.inl True.intro) hf
    exact ⟨⟨h.inFile, h.pageSize, hlog, hw, fun _ _ hb => by cases hb⟩, Grows.refl _⟩

/-- **One event,** and the file gets no shorter. -/
theorem allFine_step (h : AllFine pageSize c) (event : Event) :
    AllFine pageSize (c.step event) ∧
      c.disk.file.length ≤ (c.step event).disk.file.length := by
  cases event with
  | execute side stmt =>
    obtain ⟨hf, hg⟩ := fine_execute (h side) stmt
    exact ⟨allFine_put h hf hg, hg.length⟩
  | enter side =>
    simp only [step]
    split
    · exact ⟨h, Nat.le_refl _⟩
    · rename_i saved txId db he
      obtain ⟨hf, hg⟩ := fine_enter (h side) he
      exact ⟨allFine_put h hf hg, hg.length⟩
  | leave side fails =>
    simp only [step]
    split
    · exact ⟨h, Nat.le_refl _⟩
    · rename_i saved txId hb
      have hs := (h side).block saved txId hb
      cases fails with
      | true =>
        obtain ⟨hf, hg⟩ := fine_rollback (h side) txId hs
        exact ⟨allFine_put h hf hg, hg.length⟩
      | false =>
        obtain ⟨hf, hg⟩ := fine_commit (h side) txId hs
        exact ⟨allFine_put h hf hg, hg.length⟩

theorem fine_open {store : FileStore} {catalog : Catalog} {bytes : Bytes} (h : InFile store catalog)
    (hs : store.pageSize = pageSize) (hlog : EndLog True bytes)
    (ho : Database.openDatabase ⟨store.file, some bytes⟩ pageSize = .ok db) :
    Fine pageSize db none ∧ Grows store db.store := by
  rw [← hs] at ho
  obtain ⟨hin, hg, hwal, hw, -⟩ := openDatabase_inFile h hlog ho
  refine ⟨⟨hin, hg.pageSize.trans hs, by rw [hwal]; exact hlog, ?_, fun _ _ hb => by cases hb⟩, hg⟩
  rw [hw]
  exact betweenFrames_openLog bytes

theorem allFine_opened (h : openBoth ⟨[], none⟩ pageSize = .ok c) : AllFine pageSize c := by
  simp only [openBoth, bind_eq_ok, Except.ok.injEq] at h
  obtain ⟨a, ha, b, hb, rfl⟩ := h
  obtain ⟨hina, hwa, hla, hpa⟩ := openDatabase_new_inFile ha
  have hfa : Fine pageSize a none := ⟨hina, hpa, by rw [hwa]; exact endLog_nil True,
    by rw [hla]; exact betweenFrames_openLog [], fun _ _ he => by cases he⟩
  obtain ⟨hfb, hg⟩ := fine_open hina hpa hfa.log hb
  intro side
  cases side with
  | b => exact hfb
  | a =>
    have hgrow : Grows a.store (a.onDisk b.kill).store := ⟨rfl, hg.length⟩
    exact ⟨hfb.inFile.other hina (hpa.trans hfb.pageSize.symm) hg.length, hpa, hfb.log, hfa.wal,
      fun _ _ he => by cases he⟩

theorem allFine_reachable (h : Reachable pageSize c) : AllFine pageSize c := by
  induction h with
  | opened ho => exact allFine_opened ho
  | step event _ ih => exact (allFine_step ih event).1
  | reopen side _ ho ih =>
    obtain ⟨store', hclose, hin, hg⟩ := close_inFile (ih side).inFile
    rw [hclose] at ho
    obtain ⟨hf, hg'⟩ := fine_open hin (hg.pageSize.trans (ih side).pageSize) (ih side).log ho
    exact allFine_put ih hf (hg.trans hg')

/-- **Whatever two connections do,** each of them knows only tables on pages of the file. -/
theorem reachable_inFile (h : Reachable pageSize c) (side : Side) :
    InFile (c.seen side).store (c.seen side).catalog := (allFine_reachable h side).inFile

theorem Reachable.run (h : Reachable pageSize c) (events : List Event) :
    Reachable pageSize (Lib.run Connections.step c events) := by
  induction events generalizing c with
  | nil => exact h
  | cons event events ih => exact ih (.step event h)

theorem newConnections_reachable {stmts : List Statement} (h : (openPair stmts).isOk = true) :
    Reachable 512 (newConnections stmts) := by
  unfold newConnections
  cases hp : openPair stmts with
  | error e =>
    rw [hp] at h
    cases h
  | ok c =>
    simp only [openPair, bind_eq_ok, Except.ok.injEq] at hp
    obtain ⟨c0, hopen, b, hb, rfl⟩ := hp
    exact .reopen .b (.run (.opened hopen) _) hb

theorem allFine_run (h : AllFine pageSize c) (events : List Event) :
    AllFine pageSize (run step c events) ∧
      c.disk.file.length ≤ (run step c events).disk.file.length := by
  induction events generalizing c with
  | nil => exact ⟨h, Nat.le_refl _⟩
  | cons event events ih =>
    obtain ⟨h1, hle⟩ := allFine_step h event
    obtain ⟨h2, hle'⟩ := ih h1
    exact ⟨h2, Nat.le_trans hle hle'⟩

end Connections
end TinyDB
