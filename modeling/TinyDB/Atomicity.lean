import TinyDB.Database
import TinyDB.SlotMaps

/-!
# Are statements all or nothing?

An INSERT, UPDATE or DELETE writes its rows one at a time and never takes a
write back. `dml_atomic_iff`: a statement that raises leaves the rows of its
table as they were exactly when whatever raises comes before the first write
that changes a row (`AllOrNothing`).
-/

namespace TinyDB

open Lib

/-- The table that an INSERT, UPDATE or DELETE writes. -/
def Statement.target : Statement → Option String
  | .insert stmt => some stmt.table
  | .update stmt => some stmt.table
  | .delete stmt => some stmt.table
  | _ => none

namespace Database

/-- The table has the entry and its page holds rows. -/
def HoldsTable (db : Database) (table : String) (entry : TableMeta) : Prop :=
  db.catalog.getTable table = .ok entry ∧
    ∃ page, ∃ slots : List (Slot entry.heap.schema), Heap.HeapAt db.store entry.heap page slots

/-- If the statement raises, the table has the rows it had before. -/
def Atomic (db : Database) (entry : TableMeta) (stmt : Statement) : Prop :=
  (db.execute stmt).1.isOk = false →
    ∃ rows, entry.heap.scan (db.execute stmt).2.store = .ok rows ∧
      rows.Perm (db.store.rowsOf entry)

/-! ## What a statement writes -/

/-- The rows an INSERT adds before the first tuple that is refused. -/
def insertedRows (db : Database) (entry : TableMeta) (stmt : Insert) : List Row :=
  insertWrites entry (db.tableConstraints stmt.table) (insertColumns entry stmt.columns)
    ((db.store.rowsOf entry).map Prod.snd) stmt.values

/-- The rows an UPDATE writes before the first that is refused. -/
def updatedRows (db : Database) (entry : TableMeta) (stmt : Update) : List (Nat × Row) :=
  updateWrites entry.schema (OrdDict.ofList stmt.assignments) stmt.where' (db.store.rowsOf entry)

/-- What the statement writes fits the page, and no rowid that an UPDATE may write
is listed twice. -/
def OnPage (db : Database) (entry : TableMeta) : Statement → Prop
  | .insert stmt => max 2 (db.store.bodyOf entry).length +
      rowsSize entry.schema (db.insertedRows entry stmt) ≤ db.store.bodySize
  | .update stmt => max 2 (db.store.bodyOf entry).length +
      updateSize entry.schema (OrdDict.ofList stmt.assignments) (db.store.bodyOf entry)
        (hits entry.schema stmt.where' (db.store.rowsOf entry)) ≤ db.store.bodySize ∧
      ((db.store.rowsOf entry).map Prod.fst).Nodup
  | _ => True

/-- The update of a row leaves it as it was: it has not been moved, and its new
values read back as the old ones. -/
def keepsRow (db : Database) (entry : TableMeta) (stmt : Update) (hit : Nat × Row) : Bool :=
  entry.heap.unmoved db.store hit.1 &&
    (match newValues entry.schema (OrdDict.ofList stmt.assignments) hit with
      | .ok values => decide (readBackRow values = hit.2)
      | .error _ => false)

/-- Nothing is refused and no WHERE clause raises, or that happens before a write
that changes a row. A delete does not reach a row that was moved. -/
def AllOrNothing (db : Database) (entry : TableMeta) : Statement → Prop
  | .insert stmt =>
    insertRaises entry (db.tableConstraints stmt.table) (insertColumns entry stmt.columns)
      ((db.store.rowsOf entry).map Prod.snd) stmt.values = false ∨ db.insertedRows entry stmt = []
  | .update stmt =>
    updateRaises entry.schema (OrdDict.ofList stmt.assignments) stmt.where'
      (db.store.rowsOf entry) = false ∨
      ∀ hit ∈ db.updatedRows entry stmt, db.keepsRow entry stmt hit = true
  | .delete stmt =>
    stmt.where' = none ∨ whereError entry.schema stmt.where' (db.store.rowsOf entry) = none ∨
      ∀ hit ∈ hits entry.schema stmt.where' (db.store.rowsOf entry),
        entry.heap.unmoved db.store hit.1 = false
  | _ => True

instance (db : Database) (entry : TableMeta) (stmt : Statement) :
    Decidable (db.OnPage entry stmt) :=
  match stmt with
  | .createTable _ | .dropTable _ | .insert _ | .select _ | .update _ | .delete _ | .begin
  | .commit | .rollback | .checkpoint | .explain _ => by unfold OnPage; infer_instance

instance (db : Database) (entry : TableMeta) (stmt : Statement) :
    Decidable (db.AllOrNothing entry stmt) :=
  match stmt with
  | .createTable _ | .dropTable _ | .insert _ | .select _ | .update _ | .delete _ | .begin
  | .commit | .rollback | .checkpoint | .explain _ => by unfold AllOrNothing; infer_instance

/-! ## One statement each -/

section

variable {db : Database} {entry : TableMeta} {page : Page} {slots : List (Slot entry.heap.schema)}

private theorem insert_atomic (stmt : Insert)
    (hg : db.catalog.getTable stmt.table = .ok entry)
    (h : Heap.HeapAt db.store entry.heap page slots) (hp : db.OnPage entry (.insert stmt)) :
    db.Atomic entry (.insert stmt) ↔ db.AllOrNothing entry (.insert stmt) := by
  obtain ⟨store', page', news, result, hexec, hres, hvals, -, hlive, hat, -⟩ :=
    execInsert_spec stmt.columns stmt.values (db.tableConstraints stmt.table) h hp
  have hstore : (db.execute (.insert stmt)).2.store = store' := by
    simp only [execute, dispatch, dispatchInsert, hg, hexec]
    cases result <;> rfl
  have hok : (db.execute (.insert stmt)).1.isOk = result.isOk := by
    simp only [execute, dispatch, dispatchInsert, hg, hexec]
    cases result <;> rfl
  have hnews : db.insertedRows entry stmt = [] ↔ news = [] := by
    rw [insertedRows, ← hvals, List.map_eq_nil_iff]
  rw [Atomic, AllOrNothing, hnews, hok, hstore, hres, Heap.scan_spec hat, rowsOf_eq h,
    Heap.liveRows_append]
  simp only [Bool.not_eq_eq_eq_not, Bool.not_false, Except.ok.injEq, exists_eq_left']
  constructor
  · intro hall
    by_cases hr : insertRaises entry (db.tableConstraints stmt.table)
        (insertColumns entry stmt.columns) ((Heap.liveRows slots).map Prod.snd) stmt.values = true
    · refine Or.inr ?_
      have hlen := (hall hr).length_eq
      cases news with
      | nil => rfl
      | cons new news =>
        have hd := hlive new (List.mem_cons_self ..)
        simp [Heap.liveRows, Slot.live?, hd] at hlen
    · exact Or.inl (by simpa using hr)
  · rintro (hr | rfl) hraise
    · rw [hr] at hraise
      cases hraise
    · simp [Heap.liveRows]

private theorem delete_atomic (stmt : Delete)
    (hg : db.catalog.getTable stmt.table = .ok entry)
    (h : Heap.HeapAt db.store entry.heap page slots) :
    db.Atomic entry (.delete stmt) ↔ db.AllOrNothing entry (.delete stmt) := by
  cases hw : stmt.where' with
  | none =>
    have hstore : (db.execute (.delete stmt)).2.store = db.store := by
      simp only [execute, dispatch, dispatchDelete, hg, execDelete, hw, ↓reduceIte]
    simp only [Atomic, AllOrNothing, hw, hstore, Heap.scan_spec h, rowsOf_eq h, true_or, iff_true]
    exact fun _ => ⟨_, rfl, List.Perm.refl _⟩
  | some cond =>
    obtain ⟨store', page', result, hexec, hres, hat, -⟩ := execDelete_spec cond h
    have hstore : (db.execute (.delete stmt)).2.store = store' := by
      simp only [execute, dispatch, dispatchDelete, hg, hw, hexec]
      cases result <;> rfl
    have hok : (db.execute (.delete stmt)).1.isOk = result.isOk := by
      simp only [execute, dispatch, dispatchDelete, hg, hw, hexec]
      cases result <;> rfl
    rw [rowsOf_eq h] at hres hat
    rw [Atomic, AllOrNothing, hok, hstore, hres, Heap.scan_spec hat, rowsOf_eq h, hw]
    simp only [Bool.not_eq_eq_eq_not, Bool.not_false, Except.ok.injEq, exists_eq_left',
      reduceCtorEq, false_or]
    have hmem : ∀ hit ∈ hits entry.schema (some cond) (Heap.liveRows slots),
        entry.heap.unmoved db.store hit.1 = Heap.firstAlive hit.1 slots := fun hit hh =>
      Heap.unmoved_eq h (Heap.mem_rowids_of_live (mem_of_mem_hits hh))
    rcases Heap.deleteAll_cases (hits entry.schema (some cond) (Heap.liveRows slots)) slots with
      ⟨hdead, hsame⟩ | ⟨⟨hit, hh, halive⟩, hlt⟩
    · rw [hsame]
      refine iff_of_true (fun _ => List.Perm.refl _) (Or.inr fun hit hh => ?_)
      rw [hmem hit hh]
      exact hdead hit hh
    · constructor
      · intro hall
        refine Or.inl ?_
        by_contra hne
        have hlen := (hall (Option.isSome_iff_ne_none.mpr hne)).length_eq
        omega
      · rintro (hnone | hall) hraise
        · rw [hnone] at hraise
          cases hraise
        · have := hall hit hh
          rw [hmem hit hh, halive] at this
          cases this

private theorem update_atomic (stmt : Update)
    (hg : db.catalog.getTable stmt.table = .ok entry)
    (h : Heap.HeapAt db.store entry.heap page slots) (hp : db.OnPage entry (.update stmt)) :
    db.Atomic entry (.update stmt) ↔ db.AllOrNothing entry (.update stmt) := by
  obtain ⟨hfit, hone⟩ := hp
  obtain ⟨store', page', news, result, hexec, hres, hgive, hat, -⟩ :=
    execUpdate_spec stmt.assignments stmt.where' h hfit
  have hstore : (db.execute (.update stmt)).2.store = store' := by
    simp only [execute, dispatch, dispatchUpdate, hg, hexec]
    cases result <;> rfl
  have hok : (db.execute (.update stmt)).1.isOk = result.isOk := by
    simp only [execute, dispatch, dispatchUpdate, hg, hexec]
    cases result <;> rfl
  rw [Atomic, AllOrNothing, hok, hstore, hres, Heap.scan_spec hat, updatedRows]
  rw [rowsOf_eq h] at hone hgive ⊢
  simp only [Bool.not_eq_eq_eq_not, Bool.not_false, Except.ok.injEq, exists_eq_left']
  generalize hws : updateWrites entry.schema (OrdDict.ofList stmt.assignments) stmt.where'
    (Heap.liveRows slots) = writes at hgive ⊢
  -- the hits are rows of the scan, so their rowids are distinct and have slots
  have hsub : writes.Sublist (Heap.liveRows slots) := by
    rw [← hws]
    exact (List.takeWhile_sublist _).trans (hits_sublist _ _ _)
  have hnd : (news.map Slot.rowid).Nodup := by
    rw [Heap.gives_rowids hgive]
    exact hone.sublist (hsub.map Prod.fst)
  have hdead : ∀ new ∈ news, new.dead = false := fun new hn => by
    obtain ⟨hit, -, hg⟩ := exists_of_mem_right hgive hn
    exact hg.dead
  have hmem : ∀ new ∈ news, new.rowid ∈ slots.map Slot.rowid := fun new hn => by
    obtain ⟨hit, hh, hg⟩ := exists_of_mem_right hgive hn
    rw [hg.rowid]
    exact Heap.mem_rowids_of_live (hsub.subset hh)
  obtain ⟨m, hm⟩ := Lists.exists_of_nodup hone
  -- a hit is kept when its slot is the first alive and the new values read back as the old
  have hkeep : ∀ hit ∈ writes, ∀ new ∈ news, Heap.Gives (OrdDict.ofList stmt.assignments) hit new →
      (db.keepsRow entry stmt hit = true ↔
        Heap.firstAlive new.rowid slots = true ∧ readBackRow new.values = hit.2) := by
    intro hit hh new hn hg
    have hu := Heap.unmoved_eq h (hmem new hn)
    rw [hg.rowid] at hu
    have hv : newValues entry.schema (OrdDict.ofList stmt.assignments) hit = .ok new.values :=
      hg.values
    rw [keepsRow, hv, hu, hg.rowid]
    simp
  constructor
  · intro hall
    by_cases hr : updateRaises entry.schema (OrdDict.ofList stmt.assignments) stmt.where'
        (Heap.liveRows slots) = true
    · refine Or.inr fun hit hh => ?_
      have hperm := hall hr
      obtain ⟨new, hn, hg⟩ := exists_of_mem_left hgive hh
      have halive := (Heap.updateAll_alive hdead hmem hnd).2 hperm.length_eq
      have hl := Heap.updateAll_lists hdead halive hmem hnd hm
      have heq := congrFun (Lists.eq_of_perm hl hm hperm) new.rowid
      rw [Heap.updateMap_of_mem hnd hn] at heq
      have hold := (hm.mem_iff hit.1 hit.2).mp (hsub.subset hh)
      rw [hg.rowid, hold, Option.some.injEq] at heq
      exact (hkeep hit hh new hn hg).mpr ⟨halive new hn, heq⟩
    · exact Or.inl (by simpa using hr)
  · rintro (hr | hall) hraise
    · rw [hr] at hraise
      cases hraise
    · have hboth : ∀ new ∈ news, Heap.firstAlive new.rowid slots = true ∧
          m new.rowid = some (readBackRow new.values) := by
        intro new hn
        obtain ⟨hit, hh, hg⟩ := exists_of_mem_right hgive hn
        obtain ⟨ha, hv⟩ := (hkeep hit hh new hn hg).mp (hall hit hh)
        refine ⟨ha, ?_⟩
        rw [hv, hg.rowid]
        exact (hm.mem_iff hit.1 hit.2).mp (hsub.subset hh)
      have hl := Heap.updateAll_lists hdead (fun new hn => (hboth new hn).1) hmem hnd hm
      have hsame : Heap.updateMap news m = m := by
        funext r
        by_cases hrm : r ∈ news.map Slot.rowid
        · obtain ⟨new, hn, rfl⟩ := List.mem_map.mp hrm
          rw [Heap.updateMap_of_mem hnd hn, (hboth new hn).2]
        · exact Heap.updateMap_of_not_mem hrm
      rw [hsame] at hl
      exact Lists.perm_of_eq hl hm

end

/-- **A statement is all or nothing exactly when it raises before it changes a row.** -/
theorem dml_atomic_iff (db : Database) (entry : TableMeta) (table : String) (stmt : Statement)
    (ht : stmt.target = some table) (h : db.HoldsTable table entry) (hp : db.OnPage entry stmt) :
    db.Atomic entry stmt ↔ db.AllOrNothing entry stmt := by
  obtain ⟨hg, page, slots, hat⟩ := h
  cases stmt with
  | insert stmt =>
    cases ht
    exact insert_atomic stmt hg hat hp
  | update stmt =>
    cases ht
    exact update_atomic stmt hg hat hp
  | delete stmt =>
    cases ht
    exact delete_atomic stmt hg hat
  | createTable stmt => cases ht
  | dropTable stmt => cases ht
  | select stmt => cases ht
  | begin => cases ht
  | commit => cases ht
  | rollback => cases ht
  | checkpoint => cases ht
  | explain stmt => cases ht

/-! ## Two statements on a new table -/

/-- `CREATE TABLE t (a INT)`. -/
def intTable : Database := newDatabase [.createTable { name := "t", columns := [⟨"a", "INT", []⟩] }]

def intEntry : TableMeta := { name := "t", rootPageId := 1, schema := [("a", .int)] }

theorem intTable_holds : intTable.HoldsTable "t" intEntry :=
  ⟨by decide +kernel, ⟨1, .table, 0, []⟩, [], by decide +kernel, rfl, by decide +kernel,
    by decide +kernel, Or.inr ⟨rfl, rfl⟩, by decide +kernel⟩

/-- `INSERT INTO t VALUES ('x'), (1)` raises before it writes. -/
theorem dml_atomic_first_tuple :
    intTable.Atomic intEntry (.insert ⟨"t", none, [[.text "x"], [.int 1]]⟩) :=
  (dml_atomic_iff intTable intEntry "t" _ rfl intTable_holds (by decide +kernel)).mpr
    (by decide +kernel)

/-- `INSERT INTO t VALUES (1), ('x')` raises and leaves its first row. -/
theorem dml_keeps_first_tuple :
    intTable.HoldsTable "t" intEntry ∧
      ¬ intTable.Atomic intEntry (.insert ⟨"t", none, [[.int 1], [.text "x"]]⟩) := by
  refine ⟨intTable_holds, fun h => ?_⟩
  obtain ⟨rows, hscan, hperm⟩ := h (by decide +kernel)
  have hrows : intEntry.heap.scan
      (intTable.execute (.insert ⟨"t", none, [[.int 1], [.text "x"]]⟩)).2.store =
      .ok [(1, [.int 1])] := by decide +kernel
  have hbefore : intTable.store.rowsOf intEntry = [] := by decide +kernel
  rw [hrows, Except.ok.injEq] at hscan
  rw [← hscan, hbefore] at hperm
  exact absurd hperm.length_eq (by decide)

end Database
end TinyDB
