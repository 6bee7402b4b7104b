import TinyDB.SamePages
import TinyDB.SqlTransactions

/-!
# Two databases in the same state

`Twin`: the tables, the pages behind the header page, the free head and the page
count agree, and whether a transaction is open. `execute_twin`: a statement gives
the same result on both and leaves them twins. An INSERT also needs constraints
that judge its tuples alike, since they are not part of the state on disk.
-/

namespace TinyDB

open Lib FileStore

section

variable {s t : FileStore} {c c' : Catalog}

/-! ## Allocation -/

theorem Alike.withHead (h : Alike s t) (head : Nat) :
    Alike { s with freeHead := head } { t with freeHead := head } :=
  ⟨⟨h.pageSize, h.length, h.rawRead⟩, rfl, h.pageCount⟩

/-- A page that is written on both sides. -/
theorem alike_writePage (h : Alike s t) (page : Page) (hle : page.pageId ≤ s.file.length) :
    Lockstep Alike (s.writePage page) (t.writePage page) := by
  refine (samePages_writePage h.toSamePages page hle).with fun a b ha hb hab => ?_
  obtain ⟨head, -, rfl⟩ := writePage_eq_ok.mp ha
  obtain ⟨head', -, rfl⟩ := writePage_eq_ok.mp hb
  exact ⟨hab, h.freeHead, h.pageCount⟩

/-- The result of a step that returns a store beside it. -/
def AlikeOutcome {α : Type} (x y : α × FileStore) : Prop := y.1 = x.1 ∧ Alike x.2 y.2

/-- Writing a page that was taken: what was taken in memory stays taken when it fails. -/
private theorem alike_take (h : Alike s t) (page : Page) (hle : page.pageId ≤ s.file.length) :
    AlikeOutcome
      (match s.writePage page with
        | .error e => (.error e, s)
        | .ok s => (.ok page.pageId, s) : Except PyErr Nat × FileStore)
      (match t.writePage page with
        | .error e => (.error e, t)
        | .ok t => (.ok page.pageId, t)) := by
  have hw := alike_writePage h page hle
  generalize s.writePage page = x at hw ⊢
  generalize t.writePage page = y at hw ⊢
  cases hw with
  | ok hab => exact ⟨rfl, hab⟩
  | error e => exact ⟨rfl, h⟩

theorem writePage_large (store : FileStore) (page : Page) (h : 256 ^ 4 ≤ page.pageId) :
    store.writePage page = .error .structError := by
  have hfail : packUint 4 page.pageId = .error .structError := if_neg (by omega)
  simp only [writePage, packHeader, hfail, error_bind]

theorem alike_allocPage (h : Alike s t) (hs : InFile s c) (type : PageType) :
    AlikeOutcome (allocPage s type) (allocPage t type) := by
  unfold allocPage
  by_cases hne : s.freeHead ≠ 0
  · rw [if_pos hne, if_pos (by rw [h.freeHead]; exact hne)]
    simp only [h.freeHead, h.rawRead _ hne]
    split
    · exact ⟨rfl, h⟩
    · rename_i next hnext
      have hlt : s.freeHead < s.file.length := by
        by_contra hge
        have hraw : s.rawRead s.freeHead = [] := by
          rw [rawRead, List.getD_eq_getElem?_getD, List.getElem?_eq_none (by omega)]
          rfl
        rw [hraw] at hnext
        cases hnext
      exact alike_take (h.withHead next) ⟨s.freeHead, type, 0, []⟩ (Nat.le_of_lt hlt)
  · rw [if_neg hne, if_neg (by rw [h.freeHead]; exact hne)]
    rcases h.pageCount with he | ⟨hbig, hbig'⟩
    · have halike : Alike { s with pageCount := s.pageCount + 1 }
          { t with pageCount := t.pageCount + 1 } :=
        ⟨⟨h.pageSize, h.length, h.rawRead⟩, h.freeHead, Or.inl (by simp only [he])⟩
      rcases Nat.lt_or_ge s.pageCount (256 ^ 4) with hlt | hge
      · have hcount := hs.counted.2
        have hle : s.pageCount ≤ s.file.length := by omega
        have htake := alike_take halike ⟨s.pageCount, type, 0, []⟩ hle
        rw [he] at htake ⊢
        exact htake
      · have h1 := writePage_large { s with pageCount := s.pageCount + 1 }
          ⟨s.pageCount, type, 0, []⟩ hge
        have h2 := writePage_large { t with pageCount := t.pageCount + 1 }
          ⟨t.pageCount, type, 0, []⟩ (by rw [he]; exact hge)
        simp only [h1, h2]
        exact ⟨rfl, halike⟩
    · have h1 := writePage_large { s with pageCount := s.pageCount + 1 }
        ⟨s.pageCount, type, 0, []⟩ hbig
      have h2 := writePage_large { t with pageCount := t.pageCount + 1 }
        ⟨t.pageCount, type, 0, []⟩ hbig'
      simp only [h1, h2]
      exact ⟨rfl, ⟨h.pageSize, h.length, h.rawRead⟩, h.freeHead,
        Or.inr ⟨Nat.le_succ_of_le hbig, Nat.le_succ_of_le hbig'⟩⟩

theorem alike_freePage (h : Alike s t) {pid : Nat} (hlt : pid < s.file.length) :
    Lockstep Alike (freePage s pid) (freePage t pid) := by
  unfold freePage
  split
  · exact Lockstep.error _
  · rw [h.freeHead, h.pageSize]
    refine Lockstep.bind_same _ fun nextHead _ => Lockstep.bind_same _ fun head _ => Lockstep.ok ?_
    have hsame := samePages_pwrite h.toSamePages (head ++ padBody nextHead s.pageSize)
      (Nat.le_of_lt hlt)
    exact ⟨⟨hsame.pageSize, hsame.length, hsame.rawRead⟩, rfl, h.pageCount⟩

/-! ## The catalog -/

/-- A flush writes a header page and nothing else. -/
theorem flush_sameExcept (h : InFile s c) {catalog : Catalog} {raw : Bytes}
    (he : encodeCatalog catalog.entries.values = .ok raw)
    (hsmall : catalogOffset + 4 + raw.length < 256 ^ 2) :
    ∃ s', catalog.flush s = .ok s' ∧ SameExcept 0 s s' := by
  obtain ⟨head, body, hh, -⟩ := h.toHeader
  have hh1 : Header { s with pageCount := s.file.length } head body := hh.congr rfl rfl
  obtain ⟨s1, tail, hf, -, -, hsame⟩ := flush_spec catalog hh1 (sound_counted h) h.file_pos he hsmall
  have hcount := flush_pageCount catalog s s.file.length
  rw [hf] at hcount
  cases hs : catalog.flush s with
  | error e =>
    rw [hs] at hcount
    cases hcount
  | ok s' =>
    rw [hs] at hcount
    have hs1 : s1 = { s' with pageCount := s.file.length } := Except.ok.inj hcount
    subst hs1
    have hpc : s'.pageCount = s.pageCount := by
      simp only [Catalog.flush, bind_eq_ok] at hs
      obtain ⟨raw', -, page, -, body', -, hw⟩ := hs
      obtain ⟨headRaw, -, rfl⟩ := writePage_eq_ok.mp hw
      rfl
    exact ⟨s', rfl, hsame.pageSize, hpc, hsame.freeHead, hsame.length, hsame.rawRead⟩

theorem Alike.sameExcept (h : Alike s t) {s' t' : FileStore} (hs : SameExcept 0 s s')
    (ht : SameExcept 0 t t') : Alike s' t' where
  pageSize := by rw [hs.pageSize, ht.pageSize, h.pageSize]
  length := by rw [hs.length, ht.length, h.length]
  rawRead i hi := by rw [hs.rawRead i hi, ht.rawRead i hi, h.rawRead i hi]
  freeHead := by rw [hs.freeHead, ht.freeHead, h.freeHead]
  pageCount := by rw [hs.pageCount, ht.pageCount]; exact h.pageCount

theorem alike_flush (h : Alike s t) (hs : InFile s c) (ht : InFile t c') (catalog : Catalog) :
    Lockstep Alike (catalog.flush s) (catalog.flush t) := by
  cases he : encodeCatalog catalog.entries.values with
  | error e =>
    simp only [Catalog.flush, he, error_bind]
    exact Lockstep.error e
  | ok raw =>
    rcases Nat.lt_or_ge (catalogOffset + 4 + raw.length) (256 ^ 2) with hlt | hge
    · obtain ⟨s', hfs, hss⟩ := flush_sameExcept hs he hlt
      obtain ⟨t', hft, htt⟩ := flush_sameExcept ht he hlt
      rw [hfs, hft]
      exact Lockstep.ok (h.sameExcept hss htt)
    · obtain ⟨head, body, hh, -⟩ := hs.toHeader
      obtain ⟨head', body', hh', -⟩ := ht.toHeader
      rw [flush_large catalog hh he hge, flush_large catalog hh' he hge]
      exact Lockstep.error _

/-- The same result and catalog, and stores that are alike. -/
def AlikeTables (x y : Except PyErr Unit × Catalog × FileStore) : Prop :=
  y.1 = x.1 ∧ y.2.1 = x.2.1 ∧ Alike x.2.2 y.2.2

private theorem alike_flushed (h : Alike s t) (hs : InFile s c) (ht : InFile t c')
    (catalog : Catalog) :
    AlikeTables
      (match catalog.flush s with
        | .error e => (.error e, catalog, s)
        | .ok s => (.ok (), catalog, s))
      (match catalog.flush t with
        | .error e => (.error e, catalog, t)
        | .ok t => (.ok (), catalog, t)) := by
  have hf := alike_flush h hs ht catalog
  generalize catalog.flush s = x at hf ⊢
  generalize catalog.flush t = y at hf ⊢
  cases hf with
  | ok hab => exact ⟨rfl, rfl, hab⟩
  | error e => exact ⟨rfl, rfl, h⟩

theorem alike_createTable (h : Alike s t) (hs : InFile s c) (ht : InFile t c) (name : String)
    (columns : Schema) : AlikeTables (c.createTable s name columns) (c.createTable t name columns) := by
  unfold Catalog.createTable
  split
  · exact ⟨rfl, rfl, h⟩
  · have ha := alike_allocPage h hs .table
    cases hrs : allocPage s .table with
    | mk result s1 =>
      cases hrt : allocPage t .table with
      | mk result' t1 =>
        obtain ⟨hin, -, -⟩ := allocPage_inFile hs hrs
        obtain ⟨hin', -, -⟩ := allocPage_inFile ht hrt
        rw [hrs, hrt] at ha
        obtain ⟨he, hab⟩ := ha
        simp only at he hab
        subst he
        cases result' with
        | error e => exact ⟨rfl, rfl, hab⟩
        | ok pid => exact alike_flushed hab hin hin' _

theorem alike_dropTable (h : Alike s t) (hs : InFile s c) (ht : InFile t c) (name : String) :
    AlikeTables (c.dropTable s name) (c.dropTable t name) := by
  unfold Catalog.dropTable
  cases hg : c.entries.get? name with
  | none => exact ⟨rfl, rfl, h⟩
  | some entry =>
    have hm := (OrdDict.get?_eq_some_iff _ _ _).mp hg
    have hlt := (hs.roots entry (OrdDict.mem_values.mpr ⟨name, hm⟩)).2
    have hlt' : entry.rootPageId < t.file.length := by rw [h.length]; exact hlt
    have hf := alike_freePage h hlt
    simp only
    cases hrs : freePage s entry.rootPageId with
    | error e =>
      rw [hrs] at hf
      generalize freePage t entry.rootPageId = y at hf ⊢
      cases hf
      exact ⟨rfl, rfl, h⟩
    | ok s1 =>
      cases hrt : freePage t entry.rootPageId with
      | error e =>
        rw [hrs, hrt] at hf
        cases hf
      | ok t1 =>
        rw [hrs, hrt] at hf
        cases hf with
        | ok hab =>
          exact alike_flushed hab (freePage_inFile hs hlt hrs).1 (freePage_inFile ht hlt' hrt).1 _

theorem alike_dropTables (h : Alike s t) (hs : InFile s c) (ht : InFile t c) (names : List String) :
    AlikeTables (dropTables c s names) (dropTables c t names) := by
  induction names generalizing s t c with
  | nil => exact ⟨rfl, rfl, h⟩
  | cons name names ih =>
    have hone := alike_dropTable h hs ht name
    unfold dropTables
    cases hrs : c.dropTable s name with
    | mk result rest =>
      obtain ⟨c1, s1⟩ := rest
      cases hrt : c.dropTable t name with
      | mk result' rest' =>
        obtain ⟨c2, t1⟩ := rest'
        obtain ⟨hin, -⟩ := dropTable_inFile hs hrs
        obtain ⟨hin', -⟩ := dropTable_inFile ht hrt
        rw [hrs, hrt] at hone
        obtain ⟨he, hc, hab⟩ := hone
        simp only at he hc hab
        subst he hc
        cases result' with
        | error e => exact ⟨rfl, rfl, hab⟩
        | ok u => exact ih hab hin hin'

end

/-! ## Whole databases -/

structure Twin (db db' : Database) : Prop where
  inFile : InFile db.store db.catalog
  inFile' : InFile db'.store db'.catalog
  store : Alike db.store db'.store
  catalog : db'.catalog = db.catalog
  active : db'.tx.anyActive = db.tx.anyActive

/-- The tables whose constraints agree keep them, and a CREATE TABLE adds its own. -/
theorem constraints_execute (db : Database) (stmt : Statement) (table : String) :
    (db.execute stmt).2.constraints.get? table =
      match stmt with
      | .createTable create =>
        if (db.execute stmt).1.isOk = true ∧ create.name = table then
          some (Database.columnConstraints create.columns)
        else db.constraints.get? table
      | _ => db.constraints.get? table := by
  cases stmt with
  | createTable create =>
    have hres : ∀ x : Except PyErr Unit, (x.map fun _ => Database.statusOk).isOk = x.isOk :=
      fun x => by cases x <;> rfl
    rw [Database.execute_createTable]
    simp only [hres]
    cases hok : (execCreateTable db.catalog db.store create).1.isOk with
    | true => simp only [↓reduceIte, OrdDict.get?_set, true_and]
    | false => simp only [Bool.false_eq_true, ↓reduceIte, false_and]
  | dropTable stmt => rw [Database.execute_dropTable]
  | checkpoint => rfl
  | _ =>
    rcases db.execute_cases _ with ⟨store, he⟩ | ⟨create, hc⟩ | ⟨drop, hd⟩ | ⟨-, tx, he⟩ | hk
    · rw [he]
    · cases hc
    · cases hd
    · rw [he]
    · cases hk

variable {db db' : Database}

/-- The constraints on both sides make the same of an INSERT. -/
def SameInsert (db db' : Database) (stmt : Insert) : Prop :=
  ∀ entry, db.catalog.getTable stmt.table = .ok entry →
    execInsert db.store entry stmt.columns stmt.values (db'.tableConstraints stmt.table) =
      execInsert db.store entry stmt.columns stmt.values (db.tableConstraints stmt.table)

/-- Twins after a step that keeps the catalog and the transactions. -/
private theorem twin_store (h : Twin db db') {s t : FileStore} (hs : InFile s db.catalog)
    (ht : InFile t db'.catalog) (hab : Alike s t) :
    Twin { db with store := s } { db' with store := t } := ⟨hs, ht, hab, h.catalog, h.active⟩

/-- What a DML statement does to the two stores. -/
private theorem alike_outcome {s t : FileStore} {pid : Nat} {s' t' : FileStore} (h : Alike s t)
    (hw : WritesOnly pid s s') (hw' : WritesOnly pid t t') (hsame : SamePages s' t') :
    Alike s' t' where
  toSamePages := hsame
  freeHead := by rw [hw.same.freeHead, hw'.same.freeHead, h.freeHead]
  pageCount := by rw [hw.same.pageCount, hw'.same.pageCount]; exact h.pageCount

/-- **Twins stay twins.** -/
theorem execute_twin (h : Twin db db') (stmt : Statement)
    (hinsert : ∀ insert, stmt = .insert insert → SameInsert db db' insert) :
    (db'.execute stmt).1 = (db.execute stmt).1 ∧ Twin (db.execute stmt).2 (db'.execute stmt).2 := by
  have hin := (execute_inFile h.inFile stmt).1
  have hin' := (execute_inFile h.inFile' stmt).1
  have hcat := h.catalog
  have hpages := h.store.toSamePages
  have hread := h.inFile.readable
  have hread' := h.inFile'.readable
  cases stmt with
  | createTable stmt =>
    have ht : InFile db'.store db.catalog := by rw [← hcat]; exact h.inFile'
    rw [Database.execute_createTable] at hin ⊢
    rw [Database.execute_createTable] at hin' ⊢
    rw [hcat] at hin' ⊢
    have hc : AlikeTables (execCreateTable db.catalog db.store stmt)
        (execCreateTable db.catalog db'.store stmt) := by
      unfold execCreateTable
      cases resolveColumns stmt.columns with
      | error e => exact ⟨rfl, rfl, h.store⟩
      | ok columns => exact alike_createTable h.store h.inFile ht stmt.name columns
    obtain ⟨h1, h2, h3⟩ := hc
    exact ⟨by simp only [h1], hin, hin', h3, h2, h.active⟩
  | dropTable stmt =>
    have ht : InFile db'.store db.catalog := by rw [← hcat]; exact h.inFile'
    rw [Database.execute_dropTable] at hin ⊢
    rw [Database.execute_dropTable] at hin' ⊢
    rw [hcat] at hin' ⊢
    obtain ⟨h1, h2, h3⟩ := alike_dropTables h.store h.inFile ht stmt.names
    exact ⟨by simp only [h1], hin, hin', h3, h2, h.active⟩
  | insert stmt =>
    cases hg : db.catalog.getTable stmt.table with
    | error e =>
      have hg' : db'.catalog.getTable stmt.table = .error e := by rw [hcat, hg]
      simp only [Database.execute, Database.dispatch, Database.dispatchInsert, hg, hg']
      exact ⟨trivial, h⟩
    | ok entry =>
      have hg' : db'.catalog.getTable stmt.table = .ok entry := by rw [hcat, hg]
      have h0 := (h.inFile.root_ne_zero hg).1
      obtain ⟨h1, h2⟩ := samePages_execInsert hpages hread entry h0 stmt.columns stmt.values
        (db'.tableConstraints stmt.table)
      have hw' := writesOnly_execInsert hread' entry stmt.columns stmt.values
        (db'.tableConstraints stmt.table)
      have hw := writesOnly_execInsert hread entry stmt.columns stmt.values
        (db.tableConstraints stmt.table)
      rw [hinsert stmt rfl entry hg] at h1 h2
      rw [Database.execute_insert stmt hg] at hin ⊢
      rw [Database.execute_insert stmt hg'] at hin' ⊢
      exact ⟨by simp only [h1], twin_store h hin hin' (alike_outcome h.store hw hw' h2)⟩
  | update stmt =>
    cases hg : db.catalog.getTable stmt.table with
    | error e =>
      have hg' : db'.catalog.getTable stmt.table = .error e := by rw [hcat, hg]
      simp only [Database.execute, Database.dispatch, Database.dispatchUpdate, hg, hg']
      exact ⟨trivial, h⟩
    | ok entry =>
      have hg' : db'.catalog.getTable stmt.table = .ok entry := by rw [hcat, hg]
      have h0 := (h.inFile.root_ne_zero hg).1
      obtain ⟨h1, h2⟩ := samePages_execUpdate hpages hread entry h0 stmt.assignments stmt.where'
      have hw := writesOnly_execUpdate hread entry stmt.assignments stmt.where'
      have hw' := writesOnly_execUpdate hread' entry stmt.assignments stmt.where'
      rw [Database.execute_update stmt hg] at hin ⊢
      rw [Database.execute_update stmt hg'] at hin' ⊢
      exact ⟨by simp only [h1], twin_store h hin hin' (alike_outcome h.store hw hw' h2)⟩
  | delete stmt =>
    cases hg : db.catalog.getTable stmt.table with
    | error e =>
      have hg' : db'.catalog.getTable stmt.table = .error e := by rw [hcat, hg]
      simp only [Database.execute, Database.dispatch, Database.dispatchDelete, hg, hg']
      exact ⟨trivial, h⟩
    | ok entry =>
      have hg' : db'.catalog.getTable stmt.table = .ok entry := by rw [hcat, hg]
      have h0 := (h.inFile.root_ne_zero hg).1
      obtain ⟨h1, h2⟩ := samePages_execDelete hpages hread entry h0 stmt.where'
      have hw := writesOnly_execDelete hread entry stmt.where'
      have hw' := writesOnly_execDelete hread' entry stmt.where'
      rw [Database.execute_delete stmt hg] at hin ⊢
      rw [Database.execute_delete stmt hg'] at hin' ⊢
      exact ⟨by simp only [h1], twin_store h hin hin' (alike_outcome h.store hw hw' h2)⟩
  | select stmt =>
    refine ⟨?_, h⟩
    have hsel : db'.dispatchSelect stmt = db.dispatchSelect stmt := by
      simp only [Database.dispatchSelect, hcat]
      cases hg : db.catalog.getTable stmt.table with
      | error e => rfl
      | ok entry =>
        have h0 := (h.inFile.root_ne_zero hg).1
        simp only [ok_bind, hpages.execSelect h.inFile.roots h0]
    simp only [Database.execute, Database.dispatch, hsel]
  | explain stmt =>
    refine ⟨?_, h⟩
    simp only [Database.execute, Database.dispatch, hcat]
  | begin =>
    simp only [Database.execute, Database.dispatch, Database.dispatchBegin, TxManager.begin,
      h.active]
    cases hact : db.tx.anyActive with
    | true => exact ⟨rfl, h⟩
    | false =>
      refine ⟨rfl, h.inFile, h.inFile', h.store, h.catalog, ?_⟩
      have hopen : ∀ d : Database, d.tx.anyActive = false →
          (d.execute .begin).2.tx.anyActive = true := fun d hd => d.execute_begin hd
      have h1 := hopen db hact
      have h2 := hopen db' (by rw [h.active, hact])
      simp only [Database.execute, Database.dispatch, Database.dispatchBegin, TxManager.begin,
        h.active, hact, Bool.false_eq_true, ↓reduceIte] at h1 h2 ⊢
      rw [h1, h2]
  | commit => exact ⟨rfl, h⟩
  | rollback => exact ⟨rfl, h⟩
  | checkpoint => exact ⟨rfl, ⟨h.inFile, h.inFile', h.store, h.catalog, h.active⟩⟩

end TinyDB
