import TinyDB.EndLog
import TinyDB.Reopen

/-!
# What holds on a file that others write too

`Intact` says which page belongs to whom, which a second connection on the file
does not respect. `InFile` is what is left of it: pages read under their own
numbers, page 0 is a header page, and the tables that a connection knows, or
would load, are on pages of the file. Statements, rollbacks and opening keep it,
and the file never gets shorter.
-/

namespace TinyDB

open Lib FileStore

/-- The tables are on pages of the file behind the header page. -/
def RootsIn (entries : List TableMeta) (pages : Nat) : Prop :=
  ∀ e ∈ entries, e.rootPageId ≠ 0 ∧ e.rootPageId < pages

/-- A body that the header page of a file of so many pages can have. -/
structure HeaderBody (pageSize pages : Nat) (body : Bytes) : Prop where
  fields : ∃ head rest, head < 256 ^ 4 ∧ body = metaBytes pageSize head ++ rest
  roots : ∀ entries, Catalog.loadBody body = .ok (some entries) → RootsIn entries pages

structure InFile (store : FileStore) (catalog : Catalog) : Prop where
  readable : store.Readable
  header : ∃ lsn body, store.readPage 0 = .ok ⟨0, .header, lsn, body⟩ ∧
    HeaderBody store.pageSize store.file.length body
  counted : 0 < store.pageCount ∧ min store.pageCount (256 ^ 4) ≤ store.file.length
  roots : RootsIn catalog.entries.values store.file.length

/-- The file only grows. -/
structure Grows (store store' : FileStore) : Prop where
  pageSize : store'.pageSize = store.pageSize
  length : store.file.length ≤ store'.file.length

theorem Grows.refl (store : FileStore) : Grows store store := ⟨rfl, Nat.le_refl _⟩

theorem Grows.trans {s t u : FileStore} (h : Grows s t) (h' : Grows t u) : Grows s u :=
  ⟨h'.pageSize.trans h.pageSize, Nat.le_trans h.length h'.length⟩

theorem RootsIn.mono {entries : List TableMeta} {m n : Nat} (h : RootsIn entries m) (hmn : m ≤ n) :
    RootsIn entries n := fun e he => ⟨(h e he).1, Nat.lt_of_lt_of_le (h e he).2 hmn⟩

theorem HeaderBody.mono {pageSize m n : Nat} {body : Bytes} (h : HeaderBody pageSize m body)
    (hmn : m ≤ n) : HeaderBody pageSize n body :=
  ⟨h.fields, fun entries hl => (h.roots entries hl).mono hmn⟩

theorem WritesOnly.grows {pid : Nat} {store store' : FileStore} (h : WritesOnly pid store store') :
    Grows store store' := ⟨h.same.pageSize, Nat.le_of_eq h.same.length.symm⟩

section

variable {store store' : FileStore} {catalog catalog' : Catalog}

theorem InFile.file_pos (h : InFile store catalog) : 0 < store.file.length := by
  obtain ⟨lsn, body, hr, -⟩ := h.header
  exact readPage_lt hr

theorem InFile.toHeader (h : InFile store catalog) :
    ∃ head body, Header store head body ∧ HeaderBody store.pageSize store.file.length body := by
  obtain ⟨lsn, body, hr, hb⟩ := h.header
  obtain ⟨head, rest, hlt, hbody⟩ := hb.fields
  exact ⟨head, body, ⟨⟨lsn, hr⟩, ⟨rest, hbody⟩, hlt⟩, hb⟩

/-- What one connection left is what every other finds. -/
theorem InFile.other (h : InFile store catalog) {other : FileStore}
    (hown : InFile other catalog') (hs : other.pageSize = store.pageSize)
    (hlen : other.file.length ≤ store.file.length) :
    InFile { other with file := store.file } catalog' where
  readable := h.readable.congr rfl hs
  header := by
    obtain ⟨lsn, body, hr, hb⟩ := h.header
    refine ⟨lsn, body, by rw [← hr]; exact readPage_congr rfl, ?_⟩
    rw [hs]
    exact hb
  counted := ⟨hown.counted.1, Nat.le_trans hown.counted.2 hlen⟩
  roots := hown.roots.mono hlen

/-! ## Writes -/

/-- The header page stays when another page is written. -/
theorem InFile.writesOnly (h : InFile store catalog) {pid : Nat} (hw : WritesOnly pid store store')
    (h0 : pid ≠ 0) : InFile store' catalog where
  readable := hw.readable
  header := by
    obtain ⟨lsn, body, hr, hb⟩ := h.header
    rw [hw.same.pageSize, hw.same.length, hw.same.readPage fun e => h0 e.symm]
    exact ⟨lsn, body, hr, hb⟩
  counted := by
    rw [hw.same.pageCount, hw.same.length]
    exact h.counted
  roots := by
    rw [hw.same.length]
    exact h.roots

/-- The fields in memory do not matter, as long as no page is counted that is not there. -/
theorem InFile.inMemory (h : InFile store catalog) (head : Nat) {count : Nat} (hpos : 0 < count)
    (hle : min count (256 ^ 4) ≤ store.file.length) :
    InFile { store with freeHead := head, pageCount := count } catalog where
  readable := h.readable.congr rfl rfl
  header := by
    obtain ⟨lsn, body, hr, hb⟩ := h.header
    exact ⟨lsn, body, by rw [← hr]; exact readPage_congr rfl, hb⟩
  counted := ⟨hpos, hle⟩
  roots := h.roots

theorem writesOnly_fresh (h : store.Readable) (page : Page) (hid : page.pageId < store.file.length)
    (hw : store.writePage page = .ok store') : WritesOnly page.pageId store store' :=
  ⟨sameExcept_writePage hw hid, h.write page (Nat.le_of_lt hid) hw⟩

/-- A page behind the end of the file. -/
private theorem inFile_newPage (h : InFile store catalog) {page : Page}
    (hid : page.pageId = store.file.length)
    (hw : store.writePage page = .ok store') : InFile store' catalog ∧
      store'.file.length = store.file.length + 1 ∧ store'.pageSize = store.pageSize := by
  have hread := readPage_writePage hw (Nat.le_of_eq hid)
  have hr := h.readable.write page (Nat.le_of_eq hid) hw
  obtain ⟨head, -, rfl⟩ := writePage_eq_ok.mp hw
  have hlen := length_pwritePage store.pageSize store.file page.pageId
    (head ++ padBody page.body store.pageSize) (Nat.le_of_eq hid)
  have hlen' : (store.pwrite page.pageId (head ++ padBody page.body store.pageSize)).file.length =
      store.file.length + 1 := by
    simp only [pwrite, hlen]
    omega
  have hpos := h.file_pos
  refine ⟨⟨hr, ?_, ?_, ?_⟩, hlen', rfl⟩
  · obtain ⟨lsn, body, hr0, hb⟩ := h.header
    rw [hread 0, if_neg (by omega), hlen']
    exact ⟨lsn, body, hr0, hb.mono (Nat.le_succ _)⟩
  · rw [hlen']
    exact ⟨h.counted.1, Nat.le_trans h.counted.2 (Nat.le_succ _)⟩
  · rw [hlen']
    exact h.roots.mono (Nat.le_succ _)

/-! ## Allocation -/

private theorem writePage_error {page : Page} {e : PyErr} (hlsn : page.lsn < 256 ^ 4)
    (hbody : page.body.length < 256 ^ 2) (h : store.writePage page = .error e) :
    256 ^ 4 ≤ page.pageId := by
  by_contra hlt
  obtain ⟨store', hw⟩ := writePage_ok store page (Nat.lt_of_not_le hlt) hlsn hbody
  rw [hw] at h
  cases h

theorem allocPage_inFile (h : InFile store catalog) {t : PageType} {result : Except PyErr Nat}
    (ha : allocPage store t = (result, store')) :
    InFile store' catalog ∧ Grows store store' ∧
      ∀ pid, result = .ok pid → pid ≠ 0 ∧ pid < store'.file.length := by
  unfold allocPage at ha
  split at ha
  · rename_i hne
    simp only at ha
    split at ha
    · cases ha
      exact ⟨h, Grows.refl _, fun pid hp => by cases hp⟩
    · rename_i next hnext
      have hin : InFile { store with freeHead := next } catalog :=
        h.inMemory next h.counted.1 h.counted.2
      -- four bytes were read from the page, so it is in the file
      have hlt : store.freeHead < store.file.length := by
        by_contra hge
        have hraw : store.rawRead store.freeHead = [] := by
          rw [rawRead, List.getD_eq_getElem?_getD, List.getElem?_eq_none (by omega)]
          rfl
        rw [hraw] at hnext
        cases hnext
      split at ha
      · cases ha
        exact ⟨hin, ⟨rfl, Nat.le_refl _⟩, fun pid hp => by cases hp⟩
      · rename_i store1 hw
        cases ha
        have hwo := writesOnly_fresh hin.readable ⟨store.freeHead, t, 0, []⟩ hlt hw
        refine ⟨hin.writesOnly hwo hne, ⟨hwo.same.pageSize, Nat.le_of_eq hwo.same.length.symm⟩, ?_⟩
        intro pid hp
        cases hp
        exact ⟨hne, by rw [hwo.same.length]; exact hlt⟩
  · simp only at ha
    have hpos := h.counted.1
    have hcount := h.counted.2
    split at ha
    · rename_i e hw
      cases ha
      have hbig := writePage_error (by simp) (by simp) hw
      simp only at hbig
      exact ⟨h.inMemory store.freeHead (Nat.succ_pos _) (by omega), ⟨rfl, Nat.le_refl _⟩,
        fun pid hp => by cases hp⟩
    · rename_i store1 hw
      cases ha
      have hid : store.pageCount < 256 ^ 4 := by
        obtain ⟨head, hh, -⟩ := writePage_eq_ok.mp hw
        exact (packHeader_eq_ok.mp hh).1
      have hle : store.pageCount ≤ store.file.length := by omega
      rcases Nat.lt_or_ge store.pageCount store.file.length with hlt | hge
      · have hin : InFile { store with pageCount := store.pageCount + 1 } catalog :=
          h.inMemory store.freeHead (Nat.succ_pos _) (by omega)
        have hwo := writesOnly_fresh hin.readable ⟨store.pageCount, t, 0, []⟩ hlt hw
        refine ⟨hin.writesOnly hwo (by simp only; omega),
          ⟨hwo.same.pageSize, Nat.le_of_eq hwo.same.length.symm⟩, ?_⟩
        intro pid hp
        cases hp
        exact ⟨by omega, by rw [hwo.same.length]; exact hlt⟩
      · have he : store.pageCount = store.file.length := by omega
        obtain ⟨store2, hw2⟩ := writePage_ok store ⟨store.pageCount, t, 0, []⟩ hid (by simp)
          (by simp)
        obtain ⟨hin2, hlen2, hps2⟩ := inFile_newPage h he hw2
        have hst : store' = { store2 with pageCount := store.pageCount + 1 } := by
          obtain ⟨h1, e1, rfl⟩ := writePage_eq_ok.mp hw
          obtain ⟨h2, e2, rfl⟩ := writePage_eq_ok.mp hw2
          rw [e1, Except.ok.injEq] at e2
          rw [e2]
          rfl
        subst hst
        refine ⟨hin2.inMemory store2.freeHead (Nat.succ_pos _) (by omega),
          ⟨hps2, by simp only; omega⟩, ?_⟩
        intro pid hp
        cases hp
        exact ⟨by omega, by simp only; omega⟩

theorem freePage_inFile (h : InFile store catalog) {pid : Nat} (hlt : pid < store.file.length)
    (hf : freePage store pid = .ok store') : InFile store' catalog ∧ Grows store store' := by
  unfold freePage at hf
  split at hf
  · cases hf
  · rename_i h0
    simp only [bind_eq_ok, Except.ok.injEq] at hf
    obtain ⟨nextHead, hnext, head, hhead, rfl⟩ := hf
    have hw : store.writePage ⟨pid, .free, 0, nextHead⟩ =
        .ok (store.pwrite pid (head ++ padBody nextHead store.pageSize)) :=
      writePage_eq_ok.mpr ⟨head, hhead, rfl⟩
    have hwo := writesOnly_fresh h.readable ⟨pid, .free, 0, nextHead⟩ hlt hw
    have hin := h.writesOnly hwo h0
    exact ⟨hin.inMemory pid hin.counted.1 hin.counted.2,
      ⟨hwo.same.pageSize, Nat.le_of_eq hwo.same.length.symm⟩⟩

/-! ## The header page -/

/-- The store as one that counted its pages just now. -/
theorem sound_counted (h : InFile store catalog) :
    ({ store with pageCount := store.file.length } : FileStore).Sound := by
  have hpos := h.file_pos
  have hlast := h.readable.id_lt (i := store.file.length - 1) (by omega)
  exact ⟨h.readable.congr rfl rfl, by simp only; omega⟩

theorem flush_pageCount (catalog : Catalog) (store : FileStore) (n : Nat) :
    catalog.flush { store with pageCount := n } =
      (catalog.flush store).map fun s => { s with pageCount := n } := by
  have hread : ({ store with pageCount := n } : FileStore).readPage 0 = store.readPage 0 := rfl
  unfold Catalog.flush
  rw [hread]
  cases encodeCatalog catalog.entries.values with
  | error e => rfl
  | ok raw =>
    cases store.readPage 0 with
    | error e => rfl
    | ok page =>
      simp only [ok_bind]
      cases Catalog.flushBody page.body raw with
      | error e => rfl
      | ok body =>
        simp only [ok_bind, writePage]
        cases packHeader page.pageId page.pageType page.lsn body.length <;> rfl

theorem flush_inFile (h : InFile store catalog) (hroots : RootsIn catalog'.entries.values
    store.file.length) (hf : catalog'.flush store = .ok store') :
    InFile store' catalog' ∧ Grows store store' := by
  obtain ⟨head, body, hh, -⟩ := h.toHeader
  have hs := sound_counted h
  have hh1 : Header { store with pageCount := store.file.length } head body := hh.congr rfl rfl
  have hf1 := flush_pageCount catalog' store store.file.length
  rw [hf] at hf1
  cases he : encodeCatalog catalog'.entries.values with
  | error e =>
    rw [Catalog.flush, he] at hf
    cases hf
  | ok raw =>
    rcases Nat.lt_or_ge (catalogOffset + 4 + raw.length) (256 ^ 2) with hlt | hge
    · obtain ⟨store1, tail, hflush, hh2, hs2, hsame⟩ := flush_spec catalog' hh1 hs h.file_pos he hlt
      rw [hflush] at hf1
      have hst : store1 = { store' with pageCount := store.file.length } := Except.ok.inj hf1
      subst hst
      have hlen : store'.file.length = store.file.length := hsame.length
      have hps : store'.pageSize = store.pageSize := hsame.pageSize
      -- what loads from the page is this catalog or nothing
      have hbody : HeaderBody store'.pageSize store'.file.length
          (flushedBody { store with pageCount := store.file.length } head raw tail) := by
        refine ⟨⟨head, _, hh2.head_lt, by rw [hps]; rfl⟩, fun entries hl => ?_⟩
        rcases Nat.lt_or_ge (FileStore.bodySize { store with pageCount := store.file.length })
          (catalogOffset + 4 + raw.length) with hcut | hfit
        · simp only [catalogOffset] at hlt
          obtain ⟨e, he'⟩ := loadBody_cut hs he hcut (by omega) head tail
          rw [he'] at hl
          cases hl
        · rw [loadBody_fits hs he hfit tail, Except.ok.injEq, Option.some.injEq] at hl
          subst hl
          intro e hm
          obtain ⟨e', hm', rfl⟩ := List.mem_map.mp hm
          rw [hlen]
          exact hroots e' hm'
      obtain ⟨lsn, hread⟩ := hh2.read
      refine ⟨⟨hs2.toReadable.congr rfl rfl, ⟨lsn, _, hread, hbody⟩, ?_, ?_⟩, hps, ?_⟩
      · have hcount : store'.pageCount = store.pageCount := by
          simp only [Catalog.flush, bind_eq_ok] at hf
          obtain ⟨raw', -, page, -, body', -, hw⟩ := hf
          obtain ⟨headRaw, -, rfl⟩ := writePage_eq_ok.mp hw
          rfl
        rw [hcount, hlen]
        exact h.counted
      · rw [hlen]
        exact hroots
      · exact Nat.le_of_eq hlen.symm
    · rw [flush_large catalog' hh he hge] at hf
      cases hf

/-! ## Statements -/

theorem InFile.withCatalog (h : InFile store catalog) (hroots : RootsIn catalog'.entries.values
    store.file.length) : InFile store catalog' := ⟨h.readable, h.header, h.counted, hroots⟩

/-- After an exception from the flush the map in memory has the change, the page does not. -/
private theorem flush_cases_inFile (h : InFile store catalog)
    (hroots : RootsIn catalog'.entries.values store.file.length) {result : Except PyErr Unit}
    {catalog'' : Catalog}
    (hf : (match catalog'.flush store with
      | .error e => (.error e, catalog', store)
      | .ok store => (.ok (), catalog', store) : Except PyErr Unit × Catalog × FileStore) =
        (result, catalog'', store')) : InFile store' catalog'' ∧ Grows store store' := by
  split at hf
  · cases hf
    exact ⟨h.withCatalog hroots, Grows.refl _⟩
  · rename_i store1 hflush
    cases hf
    exact flush_inFile h hroots hflush

theorem createTable_inFile (h : InFile store catalog) {name : String} {columns : Schema}
    {result : Except PyErr Unit}
    (hc : catalog.createTable store name columns = (result, catalog', store')) :
    InFile store' catalog' ∧ Grows store store' := by
  unfold Catalog.createTable at hc
  split at hc
  · cases hc
    exact ⟨h, Grows.refl _⟩
  · rename_i hnew
    have hnone : catalog.entries.get? name = none := by
      simpa [OrdDict.contains] using hnew
    split at hc
    · rename_i e store1 ha
      cases hc
      obtain ⟨hin, hg, -⟩ := allocPage_inFile h ha
      exact ⟨hin, hg⟩
    · rename_i pid store1 ha
      obtain ⟨hin, hg, hpid⟩ := allocPage_inFile h ha
      obtain ⟨h0, hlt⟩ := hpid pid rfl
      have hroots : RootsIn (catalog.entries.set name
          { name, rootPageId := pid, schema := columns }).values store1.file.length := by
        intro e he
        rw [OrdDict.set_new_values _ _ _ hnone, List.mem_append, List.mem_singleton] at he
        rcases he with he | rfl
        · exact hin.roots e he
        · exact ⟨h0, hlt⟩
      obtain ⟨hin2, hg2⟩ := flush_cases_inFile hin hroots hc
      exact ⟨hin2, hg.trans hg2⟩

theorem dropTable_inFile (h : InFile store catalog) {name : String} {result : Except PyErr Unit}
    (hd : catalog.dropTable store name = (result, catalog', store')) :
    InFile store' catalog' ∧ Grows store store' := by
  unfold Catalog.dropTable at hd
  split at hd
  · cases hd
    exact ⟨h, Grows.refl _⟩
  · rename_i entry hg
    have hm := (OrdDict.get?_eq_some_iff _ _ _).mp hg
    have hlt := (h.roots entry (OrdDict.mem_values.mpr ⟨name, hm⟩)).2
    have hsub : (catalog.entries.erase name).values.Sublist catalog.entries.values :=
      (OrdDict.remove_sublist name catalog.entries.entries).map Prod.snd
    have hroots : RootsIn (catalog.entries.erase name).values store.file.length :=
      fun e he => h.roots e (hsub.subset he)
    split at hd
    · cases hd
      exact ⟨h.withCatalog hroots, Grows.refl _⟩
    · rename_i store1 hfree
      obtain ⟨hin, hgrow⟩ := freePage_inFile h hlt hfree
      obtain ⟨hin2, hg2⟩ := flush_cases_inFile hin (hroots.mono hgrow.length) hd
      exact ⟨hin2, hgrow.trans hg2⟩

theorem dropTables_inFile (h : InFile store catalog) (names : List String)
    {result : Except PyErr Unit} (hd : dropTables catalog store names = (result, catalog', store')) :
    InFile store' catalog' ∧ Grows store store' := by
  induction names generalizing store catalog with
  | nil =>
    cases hd
    exact ⟨h, Grows.refl _⟩
  | cons name names ih =>
    unfold dropTables at hd
    split at hd
    · rename_i e catalog1 store1 hone
      cases hd
      exact dropTable_inFile h hone
    · rename_i catalog1 store1 hone
      obtain ⟨hin, hg⟩ := dropTable_inFile h hone
      obtain ⟨hin2, hg2⟩ := ih hin hd
      exact ⟨hin2, hg.trans hg2⟩

theorem InFile.root_ne_zero (h : InFile store catalog) {name : String} {entry : TableMeta}
    (hg : catalog.getTable name = .ok entry) :
    entry.rootPageId ≠ 0 ∧ entry.rootPageId < store.file.length := by
  have hm := (OrdDict.get?_eq_some_iff _ _ _).mp (getTable_eq_ok.mp hg)
  exact h.roots entry (OrdDict.mem_values.mpr ⟨name, hm⟩)

end

/-- **Every statement keeps** what holds on a shared file. -/
theorem execute_inFile {db : Database} (h : InFile db.store db.catalog) (stmt : Statement) :
    InFile (db.execute stmt).2.store (db.execute stmt).2.catalog ∧
      Grows db.store (db.execute stmt).2.store := by
  have hsame : InFile db.store db.catalog ∧ Grows db.store db.store := ⟨h, Grows.refl _⟩
  have hone : ∀ {name entry} {store' : FileStore}, db.catalog.getTable name = .ok entry →
      WritesOnly entry.rootPageId db.store store' → InFile store' db.catalog ∧
        Grows db.store store' := fun hg hw =>
    ⟨h.writesOnly hw (h.root_ne_zero hg).1, hw.grows⟩
  cases stmt with
  | createTable stmt =>
    rw [Database.execute_createTable]
    simp only [execCreateTable]
    cases resolveColumns stmt.columns with
    | error e => exact hsame
    | ok columns => exact createTable_inFile h rfl
  | dropTable stmt =>
    rw [Database.execute_dropTable]
    exact dropTables_inFile h stmt.names rfl
  | insert stmt =>
    cases hg : db.catalog.getTable stmt.table with
    | error e =>
      simp only [Database.execute, Database.dispatch, Database.dispatchInsert, hg]
      exact hsame
    | ok entry =>
      rw [Database.execute_insert stmt hg]
      exact hone hg (writesOnly_execInsert h.readable entry stmt.columns stmt.values
        (db.tableConstraints stmt.table))
  | update stmt =>
    cases hg : db.catalog.getTable stmt.table with
    | error e =>
      simp only [Database.execute, Database.dispatch, Database.dispatchUpdate, hg]
      exact hsame
    | ok entry =>
      rw [Database.execute_update stmt hg]
      exact hone hg (writesOnly_execUpdate h.readable entry stmt.assignments stmt.where')
  | delete stmt =>
    cases hg : db.catalog.getTable stmt.table with
    | error e =>
      simp only [Database.execute, Database.dispatch, Database.dispatchDelete, hg]
      exact hsame
    | ok entry =>
      rw [Database.execute_delete stmt hg]
      exact hone hg (writesOnly_execDelete h.readable entry stmt.where')
  | select stmt => exact hsame
  | explain stmt => exact hsame
  | begin =>
    simp only [Database.execute, Database.dispatch, Database.dispatchBegin]
    cases db.tx.begin <;> exact hsame
  | commit => exact hsame
  | rollback => exact hsame
  | checkpoint => exact hsame

end TinyDB
