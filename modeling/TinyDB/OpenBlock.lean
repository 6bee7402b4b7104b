import TinyDB.Connections
import TinyDB.Kills

/-!
# A kill inside a block

The log that one connection writes holds the records of COMMIT and ROLLBACK and
nothing else, so opening the file replays no page. `kill_in_block_iff`: what a kill
inside a `transaction()` block leaves is what was there before the block exactly if
the statements of the block have changed no table.
-/

namespace TinyDB

open Lib FileStore Connections

namespace Database

/-- What one connection can come to outside of a block, in any number of sessions; each
ends with a close or with a kill, which may come inside a block. -/
inductive Ran (pageSize : Nat) : Database → Prop where
  | opened {db : Database} : openDatabase ⟨[], none⟩ pageSize = .ok db → Ran pageSize db
  | execute {db : Database} (stmt : Statement) : Ran pageSize db → Ran pageSize (db.execute stmt).2
  | block {db : Database} (stmts : List Statement) (fails : Bool) : Ran pageSize db →
      Ran pageSize (db.transaction stmts fails)
  | closed {db other : Database} : Ran pageSize db →
      openDatabase db.close pageSize = .ok other → Ran pageSize other
  | killed {db other : Database} : Ran pageSize db →
      openDatabase db.kill pageSize = .ok other → Ran pageSize other
  | killedInside {db mid other : Database} {saved : List (Nat × Bytes)} {txId : Nat}
      (stmts : List Statement) : Ran pageSize db → db.enterBlock = .ok (saved, txId, mid) →
      openDatabase (mid.executeAll stmts).kill pageSize = .ok other → Ran pageSize other

/-- What holds of one connection on its own file: the log is a row of frames. -/
structure Settled (pageSize : Nat) (db : Database) : Prop where
  inFile : InFile db.store db.catalog
  pageSize : db.store.pageSize = pageSize
  log : EndLog False db.walFile
  wal : db.wal.BetweenFrames
  within : db.wal.offset ≤ db.walFile.length

variable {pageSize : Nat} {db other : Database}

/-! ## The invariant -/

theorem settled_execute (h : Settled pageSize db) (stmt : Statement) :
    Settled pageSize (db.execute stmt).2 := by
  obtain ⟨hin, hg⟩ := execute_inFile h.inFile stmt
  rcases execute_wal db stmt with ⟨hf, hw⟩ | ⟨hf, hw⟩
  · exact ⟨hin, hg.pageSize.trans h.pageSize, by rw [hf]; exact h.log, by rw [hw]; exact h.wal,
      by rw [hf, hw]; exact h.within⟩
  · exact ⟨hin, hg.pageSize.trans h.pageSize, by rw [hf]; exact endLog_nil False, ⟨0, hw⟩,
      by rw [hw]; exact Nat.zero_le _⟩

theorem settled_executeAll (h : Settled pageSize db) (stmts : List Statement) :
    Settled pageSize (db.executeAll stmts) := by
  induction stmts generalizing db with
  | nil => exact h
  | cons stmt stmts ih => exact ih (settled_execute h stmt)

theorem settled_opened {store : FileStore} {catalog : Catalog} {bytes : Bytes}
    (hin : InFile store catalog) (hs : store.pageSize = pageSize) (hlog : EndLog False bytes)
    (ho : openDatabase ⟨store.file, some bytes⟩ pageSize = .ok db) : Settled pageSize db := by
  subst hs
  obtain ⟨hin', hg, hwal, hw, -⟩ := openDatabase_inFile hin hlog ho
  refine ⟨hin', hg.pageSize, by rw [hwal]; exact hlog, ?_, ?_⟩
  · rw [hw]
    exact betweenFrames_openLog bytes
  · rw [hw]
    exact Nat.zero_le _

theorem settled_new (ho : openDatabase ⟨[], none⟩ pageSize = .ok db) : Settled pageSize db := by
  obtain ⟨hin, hwal, hw, hps⟩ := openDatabase_new_inFile ho
  refine ⟨hin, hps, by rw [hwal]; exact endLog_nil False, ?_, ?_⟩
  · rw [hw]
    exact betweenFrames_openLog []
  · rw [hw]
    exact Nat.zero_le _

/-- The pages and the catalog may be others when the log is one that the connection wrote. -/
private theorem Settled.logged (h : Settled pageSize db) {tx : TxManager} {wal : Wal}
    {walFile : Bytes} {kind : RecordKind} {txId : Nat} (hk : kind ≠ .mutate)
    (hf : db.tx.finish db.wal db.walFile kind txId = .ok (tx, wal, walFile)) :
    EndLog False walFile ∧ wal.BetweenFrames ∧ wal.offset ≤ walFile.length :=
  finish_log hk h.log h.wal (Or.inr h.within) hf

theorem settled_rollback (h : Settled pageSize db) {saved : List (Nat × Bytes)} (txId : Nat)
    (hs : Restorable db.store saved) : Settled pageSize (db.rollbackBlock saved txId).2 := by
  unfold rollbackBlock
  split
  · exact h
  · rename_i tx wal walFile hf
    obtain ⟨hlog, hw, hle⟩ := h.logged (by decide) hf
    obtain ⟨store', hr, hres⟩ := restoreBodies_spec h.inFile.readable hs.page
    obtain ⟨hin, hg⟩ := hres.inFile h.inFile hs
    simp only [restorePages, hr]
    split
    · exact ⟨hin, hg.pageSize.trans h.pageSize, hlog, hw, hle⟩
    · rename_i catalog hload
      exact ⟨load_inFile hin hload, hg.pageSize.trans h.pageSize, hlog, hw, hle⟩

theorem settled_commit (h : Settled pageSize db) {saved : List (Nat × Bytes)} (txId : Nat)
    (hs : Restorable db.store saved) : Settled pageSize (db.commitBlock saved txId) := by
  unfold commitBlock
  split
  · exact settled_rollback h txId hs
  · rename_i tx wal walFile hf
    obtain ⟨hlog, hw, hle⟩ := h.logged (by decide) hf
    exact ⟨h.inFile, h.pageSize, hlog, hw, hle⟩

/-- Inside a block the snapshot can be put back at any time. -/
theorem settled_enter (h : Settled pageSize db) {mid : Database} {saved : List (Nat × Bytes)}
    {txId : Nat} (he : db.enterBlock = .ok (saved, txId, mid)) (stmts : List Statement) :
    Settled pageSize (mid.executeAll stmts) ∧ Restorable (mid.executeAll stmts).store saved := by
  obtain ⟨hs, tx, -, rfl⟩ := enterBlock_eq_ok.mp he
  have hmid : Settled pageSize { db with tx } := ⟨h.inFile, h.pageSize, h.log, h.wal, h.within⟩
  have hsaved : Restorable { db with tx }.store saved := restorable_snapshot h.inFile hs
  clear he hs
  generalize { db with tx } = mid at hmid hsaved
  induction stmts generalizing mid with
  | nil => exact ⟨hmid, hsaved⟩
  | cons stmt stmts ih =>
    exact ih _ (settled_execute hmid stmt) (hsaved.grows (execute_inFile hmid.inFile stmt).2)

theorem settled_transaction (h : Settled pageSize db) (stmts : List Statement) (fails : Bool) :
    Settled pageSize (db.transaction stmts fails) := by
  unfold transaction
  split
  · exact h
  · rename_i saved txId mid he
    obtain ⟨hmid, hs⟩ := settled_enter h he stmts
    simp only
    split
    · exact settled_rollback hmid txId hs
    · exact settled_commit hmid txId hs

theorem ran_settled (h : Ran pageSize db) : Settled pageSize db := by
  induction h with
  | opened ho => exact settled_new ho
  | execute stmt _ ih => exact settled_execute ih stmt
  | block stmts fails _ ih => exact settled_transaction ih stmts fails
  | closed _ ho ih =>
    obtain ⟨store', hclose, hin, hg⟩ := close_inFile ih.inFile
    rw [hclose] at ho
    exact settled_opened hin (hg.pageSize.trans ih.pageSize) ih.log ho
  | killed _ ho ih => exact settled_opened ih.inFile ih.pageSize ih.log ho
  | killedInside stmts _ he ho ih =>
    obtain ⟨hmid, -⟩ := settled_enter ih he stmts
    exact settled_opened hmid.inFile hmid.pageSize hmid.log ho

/-! ## Opening after a kill -/

/-- The header page loads as the catalog that the connection has in memory. -/
def HeaderHolds (db : Database) : Prop := Catalog.empty.load db.store = .ok db.catalog

instance (db : Database) : Decidable db.HeaderHolds := by
  unfold HeaderHolds
  infer_instance

theorem SameTables.trans {a b c : Database} (h : a.SameTables b) (h' : b.SameTables c) :
    a.SameTables c :=
  ⟨h'.1.trans h.1, fun table => ⟨(h'.2 table).1.trans (h.2 table).1,
    (h'.2 table).2.trans (h.2 table).2⟩⟩

theorem SameTables.symm {a b : Database} (h : a.SameTables b) : b.SameTables a :=
  ⟨h.1.symm, fun table => ⟨(h.2 table).1.symm, (h.2 table).2.symm⟩⟩

/-- The log puts nothing back, so the tables are those on the pages. -/
theorem open_killed (h : Settled pageSize db) (hload : db.HeaderHolds) :
    ∃ other, openDatabase db.kill pageSize = .ok other ∧ db.SameTables other := by
  obtain ⟨head, body, hh, -⟩ := h.inFile.toHeader
  have hcounted : Header { db.store with pageCount := db.store.file.length } head body :=
    hh.congr rfl rfl
  have hopen := openFile_spec hcounted (sound_counted h.inFile) h.inFile.file_pos
  obtain ⟨lsn, hread⟩ := hh.read
  have hfile := h.inFile.file_pos
  have hcount := h.inFile.counted.1
  let opened : FileStore := { db.store with freeHead := head, pageCount := db.store.file.length }
  have hload' : Catalog.empty.load opened = .ok db.catalog := by
    rw [← hload, Catalog.load, Catalog.load, if_neg (by simp only [opened]; omega),
      if_neg (by omega)]
    rfl
  refine ⟨⟨opened, db.walFile, Wal.openLog db.walFile, TxManager.new, db.catalog, OrdDict.empty⟩,
    ?_, rfl, fun table => ⟨rfl, tableRows_congr rfl fun _ _ => rfl⟩⟩
  simp only [openDatabase, openStore, kill, ← h.pageSize, hopen, ok_bind, replayWal_noGaps h.log]
  change (Catalog.empty.load opened >>= _) = _
  rw [hload']
  rfl

/-- **A kill inside a block.** For every state that one connection can come to and every
list of statements that the block has run when the process is killed, while the header
page holds the catalog: opening the file shows what was there before the block if and only
if the statements have changed no table. -/
theorem kill_in_block_iff (pageSize : Nat) (db mid : Database) (saved : List (Nat × Bytes))
    (txId : Nat) (stmts : List Statement) (hran : Ran pageSize db)
    (henter : db.enterBlock = .ok (saved, txId, mid)) (hload : (mid.executeAll stmts).HeaderHolds) :
    (∃ other, openDatabase (mid.executeAll stmts).kill pageSize = .ok other ∧ db.SameTables other) ↔
      db.SameTables (mid.executeAll stmts) := by
  obtain ⟨hmid, -⟩ := settled_enter (ran_settled hran) henter stmts
  obtain ⟨opened, ho, hsame⟩ := open_killed hmid hload
  constructor
  · rintro ⟨other, ho', h⟩
    rw [ho, Except.ok.injEq] at ho'
    subst ho'
    exact h.trans hsame.symm
  · exact fun h => ⟨opened, ho, h.trans hsame⟩

theorem ran_executeAll (h : Ran pageSize db) (stmts : List Statement) :
    Ran pageSize (db.executeAll stmts) := by
  induction stmts generalizing db with
  | nil => exact h
  | cons stmt stmts ih => exact ih (.execute stmt h)

def oneRow : Database :=
  newDatabase [.createTable ⟨"t", [⟨"a", "INT", [.notNull]⟩], false⟩, .insert ⟨"t", none, [[.int 1]]⟩]

theorem oneRow_ran : Ran 512 oneRow := by
  have hnew : openDatabase ⟨[], none⟩ 512 = .ok (newDatabase []) := by decide +kernel
  exact ran_executeAll (.opened hnew) _

/-- The block that `oneRow` enters. -/
def oneRowBlock : Database := { oneRow with tx := ⟨OrdDict.empty.set 1 ⟨1, true⟩, 2⟩ }

def oneRowSaved : List (Nat × Bytes) :=
  match oneRow.snapshot with
  | .ok saved => saved
  | .error _ => []

theorem oneRow_enter : oneRow.enterBlock = .ok (oneRowSaved, 1, oneRowBlock) := by
  decide +kernel

/-- The block deletes no row, and an INSERT is refused. -/
def idleStatements : List Statement :=
  [.delete ⟨"t", some (.binaryOp .eq (.column "a") (.sqlLiteral (.int 2) "2"))⟩,
    .insert ⟨"t", none, [[.null]]⟩]

theorem kill_in_block_iff_idle :
    ∃ other, openDatabase (oneRowBlock.executeAll idleStatements).kill 512 = .ok other ∧
      oneRow.SameTables other := by
  have hcat : (oneRowBlock.executeAll idleStatements).catalog = oneRow.catalog := by decide +kernel
  have hstore : (oneRowBlock.executeAll idleStatements).store = oneRow.store := by decide +kernel
  refine (kill_in_block_iff 512 oneRow oneRowBlock oneRowSaved 1 idleStatements oneRow_ran
    oneRow_enter (by decide +kernel)).mpr ⟨by rw [listTables, hcat]; rfl, fun table => ?_⟩
  exact ⟨by rw [hcat], tableRows_congr (by rw [hcat]) fun _ _ => by rw [hstore]⟩

/-- The row of a block that was not committed is there after a kill. -/
theorem kill_keeps_open_row : ¬ ∀ (pageSize : Nat) (db mid : Database)
    (saved : List (Nat × Bytes)) (txId : Nat) (stmts : List Statement), Ran pageSize db →
      db.enterBlock = .ok (saved, txId, mid) →
      ∃ other, openDatabase (mid.executeAll stmts).kill pageSize = .ok other ∧
        db.SameTables other := by
  intro h
  obtain ⟨other, ho, -, hsame⟩ := h 512 oneRow oneRowBlock oneRowSaved 1
    [.insert ⟨"t", none, [[.int 2]]⟩] oneRow_ran oneRow_enter
  have hafter : (openDatabase (oneRowBlock.executeAll [.insert ⟨"t", none, [[.int 2]]⟩]).kill 512
      ).map (fun db => (db.tableRows "t").map List.length) = .ok (.ok 2) := by decide +kernel
  have hbefore : (oneRow.tableRows "t").map List.length = .ok 1 := by decide +kernel
  rw [ho] at hafter
  simp only [Except.map, Except.ok.injEq] at hafter
  have hrows := (hsame "t").2
  rw [hrows] at hafter
  change (oneRow.tableRows "t").map List.length = _ at hafter
  rw [hbefore] at hafter
  cases hafter

end Database
end TinyDB
