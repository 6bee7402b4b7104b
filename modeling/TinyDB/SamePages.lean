import TinyDB.InFile
import TinyDB.TablePairs

/-!
# Two stores with the same pages

Behind the header page the stores hold the same bytes. Statements read and write
tables only there, so they return the same on both and leave them alike. CREATE
TABLE and DROP TABLE also need the free head and the page count to agree, and a
header page to write the catalog to.
-/

namespace TinyDB

open Lib FileStore

structure SamePages (s t : FileStore) : Prop where
  pageSize : t.pageSize = s.pageSize
  length : t.file.length = s.file.length
  rawRead : ∀ i, i ≠ 0 → t.rawRead i = s.rawRead i

/-- Also what the processes hold in memory agrees; counts that no page number can reach
need not. -/
structure Alike (s t : FileStore) : Prop extends SamePages s t where
  freeHead : t.freeHead = s.freeHead
  pageCount : t.pageCount = s.pageCount ∨ (256 ^ 4 ≤ s.pageCount ∧ 256 ^ 4 ≤ t.pageCount)

theorem SamePages.refl (s : FileStore) : SamePages s s := ⟨rfl, rfl, fun _ _ => rfl⟩

theorem SamePages.symm {s t : FileStore} (h : SamePages s t) : SamePages t s :=
  ⟨h.pageSize.symm, h.length.symm, fun i hi => (h.rawRead i hi).symm⟩

theorem SamePages.readPage {s t : FileStore} (h : SamePages s t) {i : Nat} (hi : i ≠ 0) :
    t.readPage i = s.readPage i := readPage_congr (h.rawRead i hi)

section

variable {s t : FileStore}

theorem samePages_pwrite (h : SamePages s t) {pid : Nat} (raw : Bytes) (hle : pid ≤ s.file.length) :
    SamePages (s.pwrite pid raw) (t.pwrite pid raw) := by
  have hle' : pid ≤ t.file.length := by rw [h.length]; exact hle
  refine ⟨h.pageSize, ?_, fun i hi => ?_⟩
  · simp only [pwrite, length_pwritePage _ _ _ _ hle, length_pwritePage _ _ _ _ hle', h.length]
  · rw [rawRead_pwrite _ _ _ _ hle, rawRead_pwrite _ _ _ _ hle', h.rawRead i hi]

theorem samePages_writePage (h : SamePages s t) (page : Page) (hle : page.pageId ≤ s.file.length) :
    Lockstep SamePages (s.writePage page) (t.writePage page) := by
  refine Lockstep.bind_same _ fun head _ => ?_
  rw [h.pageSize]
  exact Lockstep.ok (samePages_pwrite h _ hle)

/-! ## The heap -/

theorem SamePages.scan (h : SamePages s t) (heap : Heap) (h0 : heap.rootPageId ≠ 0) :
    heap.scan t = heap.scan s := by
  simp only [Heap.scan, h.readPage h0]

theorem samePages_rewrite (h : SamePages s t) (hr : s.Readable) {pid : Nat} {page : Page}
    (hp : s.readPage pid = .ok page) (body : Bytes) :
    Lockstep SamePages (s.writePage { page with body := body })
      (t.writePage { page with body := body }) := by
  refine samePages_writePage h _ ?_
  simp only [hr.pageId hp]
  exact Nat.le_of_lt (readPage_lt hp)

theorem samePages_append (h : SamePages s t) (hr : s.Readable) (heap : Heap)
    (h0 : heap.rootPageId ≠ 0) (values : Row) :
    Lockstep (fun a b : Nat × FileStore => SamePages a.2 b.2) (heap.append s values)
      (heap.append t values) := by
  simp only [Heap.append, h.readPage h0]
  refine Lockstep.bind_same _ fun page hp => Lockstep.bind_same _ fun appended _ => ?_
  exact (samePages_rewrite h hr hp appended.2).bind fun a b hab => Lockstep.ok hab

theorem samePages_writeBack (h : SamePages s t) (hr : s.Readable) {pid : Nat} {page : Page}
    (hp : s.readPage pid = .ok page) (body : Option Bytes) :
    Lockstep SamePages (Heap.writeBack s page body) (Heap.writeBack t page body) := by
  cases body with
  | none => exact Lockstep.ok h
  | some body => exact samePages_rewrite h hr hp body

theorem samePages_update (h : SamePages s t) (hr : s.Readable) (heap : Heap)
    (h0 : heap.rootPageId ≠ 0) (rowid : Nat) (values : Row) :
    Lockstep SamePages (heap.update s rowid values) (heap.update t rowid values) := by
  simp only [Heap.update, h.readPage h0]
  exact Lockstep.bind_same _ fun page hp => Lockstep.bind_same _ fun body _ =>
    samePages_writeBack h hr hp body

theorem samePages_delete (h : SamePages s t) (hr : s.Readable) (heap : Heap)
    (h0 : heap.rootPageId ≠ 0) (rowid : Nat) :
    Lockstep SamePages (heap.delete s rowid) (heap.delete t rowid) := by
  simp only [Heap.delete, h.readPage h0]
  exact Lockstep.bind_same _ fun page hp => Lockstep.bind_same _ fun body _ =>
    samePages_writeBack h hr hp body

/-! ## INSERT, UPDATE and DELETE -/

/-- The same result, and stores with the same pages. -/
def SameOutcome {α : Type} (x y : α × FileStore) : Prop := y.1 = x.1 ∧ SamePages x.2 y.2

/-- Stores with the same pages, of which the first can be read. -/
private def ReadAlike (s t : FileStore) : Prop := SamePages s t ∧ s.Readable

private theorem paired_samePages (entry : TableMeta) (h0 : entry.rootPageId ≠ 0) :
    Paired ReadAlike entry entry.rootPageId where
  scan _ _ h := h.1.scan entry.heap h0
  append _ _ values h :=
    (samePages_append h.1 h.2 entry.heap h0 values).with fun _ _ ha _ hab =>
      ⟨hab, (writesOnly_append h.2 ha).readable⟩
  update _ _ rowid values h :=
    (samePages_update h.1 h.2 entry.heap h0 rowid values).with fun _ _ ha _ hab =>
      ⟨hab, (writesOnly_update entry.heap h.2 ha).readable⟩
  delete _ _ rowid h :=
    (samePages_delete h.1 h.2 entry.heap h0 rowid).with fun _ _ ha _ hab =>
      ⟨hab, (writesOnly_delete entry.heap h.2 ha).readable⟩

theorem samePages_execInsert (h : SamePages s t) (hr : s.Readable) (entry : TableMeta)
    (h0 : entry.rootPageId ≠ 0) (columns : Option (List String)) (valuesList : List (List Value))
    (constraints : ColumnConstraints) :
    SameOutcome (execInsert s entry columns valuesList constraints)
      (execInsert t entry columns valuesList constraints) := by
  obtain ⟨h1, h2, -⟩ :=
    (paired_samePages entry h0).execInsert ⟨h, hr⟩ columns valuesList constraints
  exact ⟨h1, h2⟩

theorem samePages_execUpdate (h : SamePages s t) (hr : s.Readable) (entry : TableMeta)
    (h0 : entry.rootPageId ≠ 0) (assignments : List (String × Value)) (cond : Option Expr) :
    SameOutcome (execUpdate s entry assignments cond) (execUpdate t entry assignments cond) := by
  obtain ⟨h1, h2, -⟩ := (paired_samePages entry h0).execUpdate ⟨h, hr⟩ assignments cond
  exact ⟨h1, h2⟩

theorem samePages_execDelete (h : SamePages s t) (hr : s.Readable) (entry : TableMeta)
    (h0 : entry.rootPageId ≠ 0) (cond : Option Expr) :
    SameOutcome (execDelete s entry cond) (execDelete t entry cond) := by
  obtain ⟨h1, h2, -⟩ := (paired_samePages entry h0).execDelete ⟨h, hr⟩ cond
  exact ⟨h1, h2⟩

/-! ## SELECT -/

variable {catalog : Catalog}

theorem SamePages.joinAll (h : SamePages s t)
    (hroots : RootsIn catalog.entries.values s.file.length) (joins : List JoinClause)
    (rows : List RowDict) : joinAll t catalog rows joins = joinAll s catalog rows joins := by
  induction joins generalizing rows with
  | nil => rfl
  | cons join joins ih =>
    have hone : execNestedLoopJoin t catalog rows join = execNestedLoopJoin s catalog rows join := by
      simp only [execNestedLoopJoin]
      cases hg : catalog.getTable (resolveTableName join) with
      | error e => rfl
      | ok entry =>
        have hm := (OrdDict.get?_eq_some_iff _ _ _).mp (getTable_eq_ok.mp hg)
        have h0 := (hroots entry (OrdDict.mem_values.mpr ⟨_, hm⟩)).1
        simp only [ok_bind, scanTable, h.scan ⟨entry.rootPageId, entry.schema⟩ h0]
    simp only [TinyDB.joinAll, hone, ih]

theorem SamePages.execSelect (h : SamePages s t)
    (hroots : RootsIn catalog.entries.values s.file.length) {entry : TableMeta}
    (h0 : entry.rootPageId ≠ 0) (stmt : Select) (project : Bool) :
    execSelect t catalog entry stmt project = execSelect s catalog entry stmt project := by
  have hscan := h.scan ⟨entry.rootPageId, entry.schema⟩ h0
  simp only [TinyDB.execSelect, execSingleTable, execJoinPath, scanTable, hscan,
    h.joinAll hroots]

end

end TinyDB
