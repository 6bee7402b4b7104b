import TinyDB.Ownership

/-!
# What a statement leaves alone

INSERT, UPDATE and DELETE write the root page of their table and nothing else,
whatever is on it (`WritesOnly`). With CREATE TABLE and DROP TABLE this gives
`execute_intact`: every statement keeps the ownership of pages, and tables that
it does not name keep their entries and their bytes.
-/

namespace TinyDB

open Lib FileStore

/-! ## What execute does -/

namespace Database

theorem execute_createTable (db : Database) (stmt : CreateTable) :
    db.execute (.createTable stmt) =
      let r := execCreateTable db.catalog db.store stmt
      (r.1.map fun _ => statusOk, { db with
        catalog := r.2.1
        store := r.2.2
        constraints := if r.1.isOk then
          db.constraints.set stmt.name (columnConstraints stmt.columns) else db.constraints }) := by
  simp only [execute, dispatch, dispatchCreateTable]
  rcases execCreateTable db.catalog db.store stmt with ⟨e | _, catalog, store⟩ <;> rfl

theorem execute_dropTable (db : Database) (stmt : DropTable) :
    db.execute (.dropTable stmt) =
      let r := dropTables db.catalog db.store stmt.names
      (r.1.map fun _ => statusOk, { db with catalog := r.2.1, store := r.2.2 }) := by
  simp only [execute, dispatch, dispatchDropTable, execDropTable]
  rcases dropTables db.catalog db.store stmt.names with ⟨e | _, catalog, store⟩ <;> rfl

section

variable {db : Database} {entry : TableMeta}

theorem execute_insert (stmt : Insert) (hg : db.catalog.getTable stmt.table = .ok entry) :
    db.execute (.insert stmt) =
      let r := execInsert db.store entry stmt.columns stmt.values (db.tableConstraints stmt.table)
      (r.1.map fun _ => rowsAffected 1, { db with store := r.2 }) := by
  simp only [execute, dispatch, dispatchInsert, hg]
  rcases execInsert db.store entry stmt.columns stmt.values (db.tableConstraints stmt.table) with
    ⟨e | _, store⟩ <;> rfl

theorem execute_update (stmt : Update) (hg : db.catalog.getTable stmt.table = .ok entry) :
    db.execute (.update stmt) =
      let r := execUpdate db.store entry stmt.assignments stmt.where'
      (r.1.map rowsAffected, { db with store := r.2 }) := by
  simp only [execute, dispatch, dispatchUpdate, hg]
  rcases execUpdate db.store entry stmt.assignments stmt.where' with ⟨e | _, store⟩ <;> rfl

theorem execute_delete (stmt : Delete) (hg : db.catalog.getTable stmt.table = .ok entry) :
    db.execute (.delete stmt) =
      let r := execDelete db.store entry stmt.where'
      (r.1.map rowsAffected, { db with store := r.2 }) := by
  simp only [execute, dispatch, dispatchDelete, hg]
  rcases execDelete db.store entry stmt.where' with ⟨e | _, store⟩ <;> rfl

end

/-- **What a statement can change** besides the store. -/
theorem execute_cases (db : Database) (stmt : Statement) :
    (∃ store, (db.execute stmt).2 = { db with store := store }) ∨
      (∃ create : CreateTable, stmt = .createTable create) ∨
      (∃ drop : DropTable, stmt = .dropTable drop) ∨
      (stmt = .begin ∧ ∃ tx, (db.execute stmt).2 = { db with tx := tx }) ∨ stmt = .checkpoint := by
  cases stmt with
  | createTable create => exact Or.inr (Or.inl ⟨create, rfl⟩)
  | dropTable drop => exact Or.inr (Or.inr (Or.inl ⟨drop, rfl⟩))
  | insert stmt =>
    cases hg : db.catalog.getTable stmt.table with
    | error e =>
      simp only [execute, dispatch, dispatchInsert, hg]
      exact Or.inl ⟨db.store, rfl⟩
    | ok entry =>
      rw [execute_insert stmt hg]
      exact Or.inl ⟨_, rfl⟩
  | update stmt =>
    cases hg : db.catalog.getTable stmt.table with
    | error e =>
      simp only [execute, dispatch, dispatchUpdate, hg]
      exact Or.inl ⟨db.store, rfl⟩
    | ok entry =>
      rw [execute_update stmt hg]
      exact Or.inl ⟨_, rfl⟩
  | delete stmt =>
    cases hg : db.catalog.getTable stmt.table with
    | error e =>
      simp only [execute, dispatch, dispatchDelete, hg]
      exact Or.inl ⟨db.store, rfl⟩
    | ok entry =>
      rw [execute_delete stmt hg]
      exact Or.inl ⟨_, rfl⟩
  | begin =>
    refine Or.inr (Or.inr (Or.inr (Or.inl ⟨rfl, ?_⟩)))
    simp only [execute, dispatch, dispatchBegin]
    cases db.tx.begin with
    | error e => exact ⟨db.tx, rfl⟩
    | ok r => exact ⟨r.2, rfl⟩
  | select stmt => exact Or.inl ⟨db.store, rfl⟩
  | explain stmt => exact Or.inl ⟨db.store, rfl⟩
  | commit => exact Or.inl ⟨db.store, rfl⟩
  | rollback => exact Or.inl ⟨db.store, rfl⟩
  | checkpoint => exact Or.inr (Or.inr (Or.inr (Or.inr rfl)))

end Database

/-! ## Statements on one page -/

/-- At most page `pid` changed, and every page still reads under its own number. -/
structure WritesOnly (pid : Nat) (store store' : FileStore) : Prop where
  same : SameExcept pid store store'
  readable : store'.Readable

theorem WritesOnly.refl {store : FileStore} (pid : Nat) (h : store.Readable) :
    WritesOnly pid store store := ⟨SameExcept.refl pid store, h⟩

theorem WritesOnly.trans {pid : Nat} {s t u : FileStore} (h : WritesOnly pid s t)
    (h' : WritesOnly pid t u) : WritesOnly pid s u := ⟨h.same.trans h'.same, h'.readable⟩

section

variable {store store' : FileStore}

/-- A page that was read is written back with another body. -/
theorem writesOnly_writePage (h : store.Readable) {pid : Nat} {page : Page}
    (hr : store.readPage pid = .ok page) {body : Bytes}
    (hw : store.writePage { page with body := body } = .ok store') :
    WritesOnly pid store store' := by
  have hid := h.pageId hr
  have hlt : page.pageId < store.file.length := by rw [hid]; exact readPage_lt hr
  have hsame := sameExcept_writePage hw hlt
  simp only [hid] at hsame
  exact ⟨hsame, h.write { page with body := body } (Nat.le_of_lt hlt) hw⟩

theorem writesOnly_append (h : store.Readable) {heap : Heap} {values : Row} {rowid : Nat}
    (ha : heap.append store values = .ok (rowid, store')) :
    WritesOnly heap.rootPageId store store' := by
  simp only [Heap.append, bind_eq_ok, Except.ok.injEq, Prod.mk.injEq] at ha
  obtain ⟨page, hr, ⟨_, body⟩, -, _, hw, -, rfl⟩ := ha
  exact writesOnly_writePage h hr hw

theorem writesOnly_writeBack (h : store.Readable) {pid : Nat} {page : Page}
    (hr : store.readPage pid = .ok page) {body : Option Bytes}
    (hw : Heap.writeBack store page body = .ok store') : WritesOnly pid store store' := by
  cases body with
  | none =>
    cases hw
    exact WritesOnly.refl pid h
  | some body => exact writesOnly_writePage h hr hw

theorem writesOnly_update (heap : Heap) (h : store.Readable) {values : Row} {rowid : Nat}
    (hu : heap.update store rowid values = .ok store') :
    WritesOnly heap.rootPageId store store' := by
  simp only [Heap.update, bind_eq_ok] at hu
  obtain ⟨page, hr, body, -, hw⟩ := hu
  exact writesOnly_writeBack h hr hw

theorem writesOnly_delete (heap : Heap) (h : store.Readable) {rowid : Nat}
    (hd : heap.delete store rowid = .ok store') : WritesOnly heap.rootPageId store store' := by
  simp only [Heap.delete, bind_eq_ok] at hd
  obtain ⟨page, hr, body, -, hw⟩ := hd
  exact writesOnly_writeBack h hr hw

theorem writesOnly_insertRows (h : store.Readable) (heap : Heap) (entry : TableMeta)
    (constraints : ColumnConstraints) (colNames : List String) (valuesList : List (List Value)) :
    WritesOnly heap.rootPageId store
      (insertRows heap entry constraints colNames store valuesList).2 := by
  induction valuesList generalizing store with
  | nil => exact WritesOnly.refl _ h
  | cons values rest ih =>
    simp only [insertRows]
    cases hrow : insertRow heap entry constraints colNames store values with
    | error e => exact WritesOnly.refl _ h
    | ok store1 =>
      have hone : WritesOnly heap.rootPageId store store1 := by
        simp only [insertRow, bind_eq_ok] at hrow
        obtain ⟨ordered, -, hrow⟩ := hrow
        split at hrow
        · simp only [bind_eq_ok, Except.ok.injEq] at hrow
          obtain ⟨-, -, ⟨rowid, _⟩, happ, rfl⟩ := hrow
          exact writesOnly_append h happ
        · simp only [bind_eq_ok, Except.ok.injEq] at hrow
          obtain ⟨⟨rowid, _⟩, happ, rfl⟩ := hrow
          exact writesOnly_append h happ
      exact hone.trans (ih hone.readable)

theorem writesOnly_writeRows (schema : Schema) (cond : Option Expr) {pid : Nat}
    {write : FileStore → Nat → RowDict → Except PyErr FileStore}
    (hwrite : ∀ s s' rowid dict, s.Readable → write s rowid dict = .ok s' → WritesOnly pid s s')
    (h : store.Readable) (n : Nat) (rows : List (Nat × Row)) :
    WritesOnly pid store (writeRows schema cond write store n rows).2 := by
  induction rows generalizing store n with
  | nil => exact WritesOnly.refl _ h
  | cons row rows ih =>
    obtain ⟨rowid, values⟩ := row
    simp only [writeRows]
    cases evalWhere (rowToDict schema values rowid) cond with
    | error e => exact WritesOnly.refl _ h
    | ok hit =>
      cases hit with
      | false => exact ih h n
      | true =>
        cases hw : write store rowid (rowToDict schema values rowid) with
        | error e => exact WritesOnly.refl _ h
        | ok store1 =>
          have hone := hwrite store store1 rowid _ h hw
          exact hone.trans (ih hone.readable (n + 1))

theorem writesOnly_execInsert (h : store.Readable) (entry : TableMeta)
    (columns : Option (List String)) (valuesList : List (List Value))
    (constraints : ColumnConstraints) :
    WritesOnly entry.rootPageId store
      (execInsert store entry columns valuesList constraints).2 :=
  writesOnly_insertRows h entry.heap entry constraints _ valuesList

theorem writesOnly_execUpdate (h : store.Readable) (entry : TableMeta)
    (assignments : List (String × Value)) (cond : Option Expr) :
    WritesOnly entry.rootPageId store (execUpdate store entry assignments cond).2 := by
  unfold execUpdate
  cases entry.heap.scan store with
  | error e => exact WritesOnly.refl _ h
  | ok rows =>
    refine writesOnly_writeRows entry.schema cond ?_ h 0 rows
    intro s s' rowid dict hs hw
    simp only [updateRow, bind_eq_ok] at hw
    obtain ⟨values, -, hu⟩ := hw
    exact writesOnly_update entry.heap hs hu

theorem writesOnly_execDelete (h : store.Readable) (entry : TableMeta) (cond : Option Expr) :
    WritesOnly entry.rootPageId store (execDelete store entry cond).2 := by
  unfold execDelete
  split
  · exact WritesOnly.refl _ h
  · cases entry.heap.scan store with
    | error e => exact WritesOnly.refl _ h
    | ok rows =>
      refine writesOnly_writeRows entry.schema cond ?_ h 0 rows
      exact fun s s' rowid dict hs hw => writesOnly_delete entry.heap hs hw

end

/-! ## Every statement -/

/-- The tables a statement names. -/
def Statement.names : Statement → List String
  | .createTable stmt => [stmt.name]
  | .dropTable stmt => stmt.names
  | .insert stmt => [stmt.table]
  | .update stmt => [stmt.table]
  | .delete stmt => [stmt.table]
  | _ => []

/-- Tables that are not among the names keep their entries and the bytes of their pages. -/
structure Kept (names : List String) (store store' : FileStore) (catalog catalog' : Catalog) :
    Prop where
  pageSize : store'.pageSize = store.pageSize
  grows : store.file.length ≤ store'.file.length
  entry : ∀ name, name ∉ names → catalog'.entries.get? name = catalog.entries.get? name
  page : ∀ name entry, name ∉ names → catalog.entries.get? name = some entry →
    store'.rawRead entry.rootPageId = store.rawRead entry.rootPageId

theorem Kept.refl (names : List String) (store : FileStore) (catalog : Catalog) :
    Kept names store store catalog catalog := ⟨rfl, Nat.le_refl _, fun _ _ => rfl, fun _ _ _ _ => rfl⟩

theorem Kept.trans {a b : List String} {s t u : FileStore} {c d e : Catalog}
    (h : Kept a s t c d) (h' : Kept b t u d e) : Kept (a ++ b) s u c e := by
  refine ⟨h'.pageSize.trans h.pageSize, Nat.le_trans h.grows h'.grows, ?_, ?_⟩
  · intro name hn
    rw [List.mem_append, not_or] at hn
    rw [h'.entry name hn.2, h.entry name hn.1]
  · intro name entry hn hg
    rw [List.mem_append, not_or] at hn
    rw [h'.page name entry hn.2 (by rw [h.entry name hn.1]; exact hg), h.page name entry hn.1 hg]

section

variable {store store' : FileStore} {catalog : Catalog} {head : Nat} {body : Bytes} {ps : List Nat}

theorem Created.kept (h : Intact store catalog head body ps) {name : String} {columns : Schema}
    {pid : Nat} {body' : Bytes} {result : Except PyErr Unit}
    (hc : Created store store' catalog name columns ps pid body body' result) :
    Kept [name] store store' catalog
      ⟨catalog.entries.set name { name, rootPageId := pid, schema := columns }⟩ := by
  refine ⟨hc.pageSize, hc.grows, ?_, ?_⟩
  · intro other hn
    rw [List.mem_singleton] at hn
    rw [OrdDict.get?_set, if_neg fun e => hn e.symm]
  · intro other entry hn hg
    obtain ⟨hm, -, -⟩ := h.owns.mem_values hg
    obtain ⟨h0, hlt, hfr⟩ := h.owns.root entry hm
    refine hc.frame _ h0 fun e => ?_
    rcases hc.place with ⟨rest, rfl, -⟩ | ⟨-, -, hp, -⟩
    · exact hfr (by rw [e]; exact List.mem_cons_self ..)
    · omega

theorem Dropped.kept (h : Intact store catalog head body ps) {name : String} {entry : TableMeta}
    {body' : Bytes} {result : Except PyErr Unit}
    (hd : Dropped store store' catalog name entry body body' result) :
    Kept [name] store store' catalog ⟨catalog.entries.erase name⟩ := by
  refine ⟨hd.pageSize, Nat.le_of_eq hd.length.symm, ?_, ?_⟩
  · intro other hn
    rw [List.mem_singleton] at hn
    rw [OrdDict.get?_erase, if_neg fun e => hn e.symm]
  · intro other entry' hn hg
    obtain ⟨hm, -, -⟩ := h.owns.mem_values hg
    refine hd.frame _ (h.owns.root entry' hm).1 fun e => ?_
    rw [List.mem_singleton] at hn
    exact hn (h.owns.root_inj hg hd.found e)

/-- One page of one table was written. -/
theorem WritesOnly.kept (h : Intact store catalog head body ps) {name : String}
    {entry : TableMeta} (hg : catalog.entries.get? name = some entry)
    (hw : WritesOnly entry.rootPageId store store') :
    Intact store' catalog head body ps ∧ Kept [name] store store' catalog catalog := by
  obtain ⟨hm, -, -⟩ := h.owns.mem_values hg
  obtain ⟨h0, hlt, hfr⟩ := h.owns.root entry hm
  refine ⟨h.sameExcept hw.same hw.readable h0 hfr, hw.same.pageSize,
    Nat.le_of_eq hw.same.length.symm, fun _ _ => rfl, ?_⟩
  intro other entry' hn hg'
  refine hw.same.rawRead _ fun e => ?_
  rw [List.mem_singleton] at hn
  exact hn (h.owns.root_inj hg' hg e)

theorem intact_pageCount (h : Intact store catalog head body ps)
    (hmax : 256 ^ 4 ≤ store.pageCount) :
    Intact { store with pageCount := store.pageCount + 1 } catalog head body ps where
  sound := ⟨h.sound.toReadable.congr rfl rfl, by
    have := h.sound.count
    simp only
    omega⟩
  header := h.header.congr rfl rfl
  free := h.free.congr (Nat.le_refl _) rfl fun _ _ => rfl
  owns := h.owns
  held := h.held

theorem createTable_intact (h : Intact store catalog head body ps) (name : String)
    (columns : Schema) {result : Except PyErr Unit} {catalog' : Catalog}
    (hc : catalog.createTable store name columns = (result, catalog', store')) :
    ∃ body' ps', Intact store' catalog' head body' ps' ∧
      Kept [name] store store' catalog catalog' := by
  rcases createTable_cases h name columns with ⟨-, e, he⟩ | ⟨-, hmax, e, he⟩ |
    ⟨pid, store1, body1, result1, he, hcr, hin⟩
  · rw [he] at hc
    cases hc
    exact ⟨body, ps, h, Kept.refl _ _ _⟩
  · rw [he] at hc
    cases hc
    exact ⟨body, ps, intact_pageCount h hmax, rfl, Nat.le_refl _, fun _ _ => rfl, fun _ _ _ _ => rfl⟩
  · rw [he] at hc
    cases hc
    exact ⟨body1, ps.drop 1, hin, hcr.kept h⟩

theorem dropTables_intact (h : Intact store catalog head body ps) (names : List String)
    {result : Except PyErr Unit} {catalog' : Catalog}
    (hd : dropTables catalog store names = (result, catalog', store')) :
    ∃ body' ps', Intact store' catalog' head body' ps' ∧
      Kept names store store' catalog catalog' := by
  induction names generalizing store catalog body ps with
  | nil =>
    cases hd
    exact ⟨body, ps, h, Kept.refl _ _ _⟩
  | cons name names ih =>
    rcases dropTable_cases h name with ⟨-, e, he⟩ | ⟨entry, store1, body1, result1, he, hdr, hin⟩
    · simp only [dropTables, he] at hd
      cases hd
      exact ⟨body, ps, h, Kept.refl _ _ _⟩
    · have hk := hdr.kept h
      cases result1 with
      | error e =>
        simp only [dropTables, he] at hd
        cases hd
        refine ⟨body1, _, hin, hk.pageSize, hk.grows, ?_, ?_⟩
        · exact fun other hn => hk.entry other fun hm => hn (List.mem_singleton.mp hm ▸
            List.mem_cons_self ..)
        · exact fun other e hn => hk.page other e fun hm => hn (List.mem_singleton.mp hm ▸
            List.mem_cons_self ..)
      | ok u =>
        simp only [dropTables, he] at hd
        obtain ⟨body2, ps2, hin2, hk2⟩ := ih hin hd
        exact ⟨body2, ps2, hin2, hk.trans hk2⟩

end

/-- **Every statement keeps the ownership of pages,** and what it does not name. -/
theorem execute_intact {db : Database} {head : Nat} {body : Bytes} {ps : List Nat}
    (h : Intact db.store db.catalog head body ps) (stmt : Statement) :
    ∃ body' ps', Intact (db.execute stmt).2.store (db.execute stmt).2.catalog head body' ps' ∧
      Kept stmt.names db.store (db.execute stmt).2.store db.catalog
        (db.execute stmt).2.catalog := by
  have hsame : ∀ names, ∃ body' ps', Intact db.store db.catalog head body' ps' ∧
      Kept names db.store db.store db.catalog db.catalog := fun names =>
    ⟨body, ps, h, Kept.refl _ _ _⟩
  cases stmt with
  | createTable stmt =>
    rw [Database.execute_createTable]
    simp only [execCreateTable]
    cases resolveColumns stmt.columns with
    | error e => exact hsame _
    | ok columns => exact createTable_intact h stmt.name columns rfl
  | dropTable stmt =>
    rw [Database.execute_dropTable]
    exact dropTables_intact h stmt.names rfl
  | insert stmt =>
    cases hg : db.catalog.getTable stmt.table with
    | error e =>
      simp only [Database.execute, Database.dispatch, Database.dispatchInsert, hg]
      exact hsame _
    | ok entry =>
      rw [Database.execute_insert stmt hg]
      exact ⟨body, ps, (writesOnly_execInsert h.sound.toReadable entry stmt.columns stmt.values
        (db.tableConstraints stmt.table)).kept h (getTable_eq_ok.mp hg)⟩
  | update stmt =>
    cases hg : db.catalog.getTable stmt.table with
    | error e =>
      simp only [Database.execute, Database.dispatch, Database.dispatchUpdate, hg]
      exact hsame _
    | ok entry =>
      rw [Database.execute_update stmt hg]
      exact ⟨body, ps, (writesOnly_execUpdate h.sound.toReadable entry stmt.assignments
        stmt.where').kept h (getTable_eq_ok.mp hg)⟩
  | delete stmt =>
    cases hg : db.catalog.getTable stmt.table with
    | error e =>
      simp only [Database.execute, Database.dispatch, Database.dispatchDelete, hg]
      exact hsame _
    | ok entry =>
      rw [Database.execute_delete stmt hg]
      exact ⟨body, ps, (writesOnly_execDelete h.sound.toReadable entry stmt.where').kept h
        (getTable_eq_ok.mp hg)⟩
  | select stmt => exact hsame _
  | explain stmt => exact hsame _
  | begin =>
    simp only [Database.execute, Database.dispatch, Database.dispatchBegin]
    cases db.tx.begin <;> exact hsame _
  | commit => exact hsame _
  | rollback => exact hsame _
  | checkpoint => exact hsame _

end TinyDB
