import TinyDB.Connections

/-!
# A rollback beside another connection

While one connection has a block open, the other may write to tables of its own.
The rollback writes every page that the first connection counted back as it was
when the block began, also those pages. `rollback_isolated_iff`: a row that the
other connection wrote is as it left it exactly when the table is on a page that
was not counted, or the row is again what it was when the block began.
-/

namespace TinyDB

open Lib FileStore

/-- The values that the page of a table has under the rowid. -/
def TableMeta.rowAt (entry : TableMeta) (store : FileStore) (rowid : Nat) :
    Except PyErr (List Row) := do
  let rows ← entry.heap.scan store
  .ok ((rows.filter fun row => row.1 = rowid).map Prod.snd)

/-- The values that a connection reads under the rowid: none or one, if rowids are unique. -/
def Database.rowAt (db : Database) (table : String) (rowid : Nat) : Except PyErr (List Row) := do
  let entry ← db.catalog.getTable table
  entry.rowAt db.store rowid

namespace Connections

/-- While the block of `side` is open it only executes statements. The other connection
is free, also to open and end blocks of its own. -/
def InBlock (side : Side) : Event → Prop
  | .execute _ _ => True
  | .enter other => other ≠ side
  | .leave other _ => other ≠ side

instance (side : Side) (event : Event) : Decidable (InBlock side event) := by
  cases event <;> (unfold InBlock; infer_instance)

/-- No statement of `side` writes the table. -/
def Untouched (side : Side) (events : List Event) (table : String) : Prop :=
  ∀ stmt, .execute side stmt ∈ events → table ∉ stmt.names

/-- A statement of `side` on the table returned and the row is not what it was before. -/
def Wrote (side : Side) (c : Connections) (events : List Event) (table : String) (rowid : Nat) :
    Prop :=
  ∃ front stmt rest, events = front ++ .execute side stmt :: rest ∧ table ∈ stmt.names ∧
    (((run step c front).seen side).execute stmt).1.isOk = true ∧
    (((run step c front).seen side).execute stmt).2.rowAt table rowid ≠
      ((run step c front).seen side).rowAt table rowid

/-- The block of `side` can log its rollback. -/
def rollsBack (c : Connections) (side : Side) : Bool :=
  match (c.conn side).block with
  | none => false
  | some (_, txId) =>
    ((c.seen side).tx.finish (c.seen side).wal (c.seen side).walFile .txRollback txId).isOk

/-- The state when `side` entered a block and the events came after that. -/
def duringBlock (c : Connections) (side : Side) (events : List Event) : Connections :=
  run step (c.step (.enter side)) events

/-- The rollback of `side` leaves the rows that the other connection wrote meanwhile on
tables that the block did not touch. -/
def Isolated (c : Connections) (side : Side) (events : List Event) : Prop :=
  ∀ table rowid, Untouched side events table →
    Wrote side.other (c.step (.enter side)) events table rowid →
    (((c.duringBlock side events).step (.leave side true)).seen side.other).rowAt table rowid =
      ((c.duringBlock side events).seen side.other).rowAt table rowid

/-- Each of these rows is as when the block began, unless its page was not counted then. -/
def PutBack (c : Connections) (side : Side) (events : List Event) : Prop :=
  ∀ table rowid, Untouched side events table →
    Wrote side.other (c.step (.enter side)) events table rowid →
    ∀ entry, ((c.duringBlock side events).seen side.other).catalog.getTable table = .ok entry →
      entry.rootPageId < (c.seen side).store.pageCount →
      entry.rowAt (c.seen side.other).store rowid =
        entry.rowAt ((c.duringBlock side events).seen side.other).store rowid

variable {pageSize : Nat} {c : Connections} {side : Side}

/-! ## The open block -/

theorem step_block {event : Event} (h : InBlock side event) :
    ((c.step event).conn side).block = (c.conn side).block := by
  have hput : ∀ other (db : Database) (block : Option (List (Nat × Bytes) × Nat)), other ≠ side →
      ((c.put other db block).conn side).block = (c.conn side).block := fun other db block hne => by
    rw [conn_put_ne c (fun e => hne e.symm)]
  cases event with
  | execute other stmt =>
    by_cases he : other = side
    · subst he
      simp only [step, put, Function.update_self]
    · exact hput other _ _ he
  | enter other =>
    simp only [step]
    split
    · rfl
    · exact hput other _ _ h
  | leave other fails =>
    simp only [step]
    split
    · rfl
    · split <;> exact hput other _ _ h

theorem run_block {events : List Event} (h : ∀ event ∈ events, InBlock side event) :
    ((run step c events).conn side).block = (c.conn side).block := by
  induction events generalizing c with
  | nil => rfl
  | cons event events ih =>
    have hone : ((c.step event).conn side).block = (c.conn side).block :=
      step_block (h event (List.mem_cons_self ..))
    rw [← hone]
    exact ih fun e he => h e (List.mem_cons_of_mem _ he)

/-! ## The rollback -/

theorem scan_congr {heap : Heap} {store store' : FileStore} {page page' : Page}
    (h : store.readPage heap.rootPageId = .ok page)
    (h' : store'.readPage heap.rootPageId = .ok page') (hb : page'.body = page.body) :
    heap.scan store' = heap.scan store := by
  simp only [Heap.scan, h, h', ok_bind, hb]

theorem rowAt_congr {entry : TableMeta} {store store' : FileStore}
    (h : entry.heap.scan store' = entry.heap.scan store) (rowid : Nat) :
    entry.rowAt store' rowid = entry.rowAt store rowid := by
  simp only [TableMeta.rowAt, h]

/-- What a rollback does to the shared file. -/
theorem rollback_store {db : Database} (h : InFile db.store db.catalog)
    {saved : List (Nat × Bytes)} {txId : Nat} (hs : Restorable db.store saved)
    (hlog : (db.tx.finish db.wal db.walFile .txRollback txId).isOk = true) :
    Restored db.store (db.rollbackBlock saved txId).2.store saved := by
  unfold Database.rollbackBlock
  split
  · rename_i e he
    rw [he] at hlog
    cases hlog
  · obtain ⟨store', hr, hres⟩ := restoreBodies_spec h.readable hs.page
    simp only [Database.restorePages, hr]
    split <;> exact hres

/-- The pages that were counted read as when the block began, the others as before the
rollback. -/
theorem rollback_row (h : AllFine pageSize c) {events : List Event}
    (henter : (c.seen side).enterBlock.isOk = true)
    (hblock : ∀ event ∈ events, InBlock side event)
    (hroll : (c.duringBlock side events).rollsBack side = true) {entry : TableMeta}
    (hin : entry.rootPageId < (c.duringBlock side events).disk.file.length) (rowid : Nat) :
    entry.rowAt (((c.duringBlock side events).step (.leave side true)).seen side.other).store rowid =
      if entry.rootPageId < (c.seen side).store.pageCount then
        entry.rowAt (c.seen side.other).store rowid
      else entry.rowAt ((c.duringBlock side events).seen side.other).store rowid := by
  obtain ⟨⟨saved, txId, db⟩, he⟩ : ∃ r, (c.seen side).enterBlock = .ok r := by
    cases hr : (c.seen side).enterBlock with
    | error e => rw [hr] at henter; cases henter
    | ok r => exact ⟨r, rfl⟩
  have hstart : c.step (.enter side) = c.put side db (some (saved, txId)) := by
    simp only [step, he]
  obtain ⟨hsnap, -⟩ := enterBlock_eq_ok.mp he
  obtain ⟨hfine, -⟩ := allFine_step h (.enter side)
  obtain ⟨hmid, -⟩ := allFine_run hfine events
  have hsaved : ((c.duringBlock side events).conn side).block = some (saved, txId) := by
    rw [duringBlock, run_block hblock, hstart]
    simp only [put, Function.update_self]
  change AllFine pageSize (c.duringBlock side events) at hmid
  generalize c.duringBlock side events = mid at *
  have hlog : ((mid.seen side).tx.finish (mid.seen side).wal (mid.seen side).walFile .txRollback
      txId).isOk = true := by
    simpa only [rollsBack, hsaved] using hroll
  have hres := rollback_store (hmid side).inFile ((hmid side).block saved txId hsaved) hlog
  have hleave : mid.step (.leave side true) =
      mid.put side ((mid.seen side).rollbackBlock saved txId).2 none := by
    simp only [step, hsaved, ↓reduceIte]
  obtain ⟨now, hnow, -⟩ := (hmid side).inFile.readable.page entry.rootPageId hin
  rw [hleave, seen_put_ne _ side.other_ne]
  -- the page as each connection reads it
  have hafter : ∀ body, ((mid.seen side).rollbackBlock saved txId).2.store.readPage
      entry.rootPageId = .ok { now with body := body } →
      (((mid.conn side.other).db.onDisk ((mid.seen side).rollbackBlock saved txId).2.kill).store
        ).readPage entry.heap.rootPageId = .ok { now with body := body } := fun body hb => hb
  have hmidread : ((mid.seen side.other).store).readPage entry.heap.rootPageId = .ok now := hnow
  split
  · rename_i hlt
    have hcount := snapshotPages_lt hsnap
    obtain ⟨page, hold, -⟩ := (h side).inFile.readable.page entry.rootPageId (by omega)
    have hread := hres.read_snapshot hsnap hold hnow
    rw [if_pos hlt] at hread
    have hold' : (c.seen side.other).store.readPage entry.heap.rootPageId = .ok page := hold
    exact rowAt_congr (scan_congr hold' (hafter _ hread) rfl) rowid
  · rename_i hge
    obtain ⟨-, -, hout⟩ := snapshotPages_spec hsnap
    have hread := hres.page entry.rootPageId now hnow
    rw [hout _ (Or.inr (by omega))] at hread
    exact rowAt_congr (scan_congr hmidread (hafter _ hread) rfl) rowid

/-- The other connection keeps its catalog. -/
theorem leave_catalog (mid : Connections) (side : Side) (fails : Bool) :
    ((mid.step (.leave side fails)).seen side.other).catalog = (mid.seen side.other).catalog := by
  have hput : ∀ db block, ((mid.put side db block).seen side.other).catalog =
      (mid.seen side.other).catalog := fun db block => by
    rw [seen_put_ne _ side.other_ne]
    rfl
  simp only [step]
  split
  · rfl
  · split <;> exact hput _ _

/-- **When the rows of the other connection survive a rollback.** In every state that two
connections can come to and for everything they do while the block of one is open. -/
theorem rollback_isolated_iff (pageSize : Nat) (c : Connections) (side : Side)
    (events : List Event) (hreach : Reachable pageSize c)
    (henter : (c.seen side).enterBlock.isOk = true)
    (hblock : ∀ event ∈ events, InBlock side event)
    (hroll : (c.duringBlock side events).rollsBack side = true) :
    c.Isolated side events ↔ c.PutBack side events := by
  have hfine := allFine_reachable hreach
  obtain ⟨hmid, -⟩ := allFine_run (allFine_step hfine (.enter side)).1 events
  change AllFine pageSize (c.duringBlock side events) at hmid
  have hcat := leave_catalog (c.duringBlock side events) side true
  unfold Isolated PutBack
  refine forall_congr' fun table => forall_congr' fun rowid => imp_congr_right fun _ =>
    imp_congr_right fun _ => ?_
  simp only [Database.rowAt, hcat]
  cases hg : ((c.duringBlock side events).seen side.other).catalog.getTable table with
  | error e =>
    constructor
    · intro _ entry he
      cases he
    · intro _
      rfl
  | ok entry =>
    obtain ⟨-, hlt⟩ := (hmid side.other).inFile.root_ne_zero hg
    simp only [ok_bind, rollback_row hfine henter hblock hroll hlt rowid, Except.ok.injEq,
      forall_eq']
    by_cases hcount : entry.rootPageId < (c.seen side).store.pageCount
    · simp only [hcount, ↓reduceIte, forall_const]
    · simp only [hcount, ↓reduceIte, false_imp_iff]

/-- Two tables, and the second connection adds a row to one of them while the first
has a block open. -/
def twoTables : Connections :=
  newConnections [.createTable ⟨"t", [⟨"a", "INT", []⟩], false⟩,
    .createTable ⟨"u", [⟨"b", "INT", []⟩], false⟩]

def insertBeside : List Event := [.execute .b (.insert ⟨"u", none, [[.int 1]]⟩)]

theorem twoTables_reachable : Reachable 512 twoTables :=
  newConnections_reachable (by decide +kernel)

theorem rollback_isolated_iff_beside :
    twoTables.Isolated .a insertBeside ↔ twoTables.PutBack .a insertBeside :=
  rollback_isolated_iff 512 twoTables .a insertBeside twoTables_reachable (by decide +kernel)
    (by decide) (by decide +kernel)

/-- The row that the second connection added is gone after the rollback of the first. -/
theorem rollback_loses_row : ¬ ∀ (pageSize : Nat) (c : Connections) (side : Side)
    (events : List Event), Reachable pageSize c → (c.seen side).enterBlock.isOk = true →
      (∀ event ∈ events, InBlock side event) → (c.duringBlock side events).rollsBack side = true →
      c.Isolated side events := by
  intro h
  have hall := h 512 twoTables .a insertBeside twoTables_reachable (by decide +kernel) (by decide)
    (by decide +kernel)
  have hwrote : Wrote Side.a.other (twoTables.step (.enter .a)) insertBeside "u" 1 :=
    ⟨[], _, [], rfl, by decide, by decide +kernel, by decide +kernel⟩
  have hrow := hall "u" 1 (by
    intro stmt hm
    rw [insertBeside, List.mem_singleton] at hm
    cases hm) hwrote
  revert hrow
  decide +kernel

end Connections
end TinyDB
