import TinyDB.OpenBlock
import TinyDB.Placement

/-!
# A block that fails

A rollback writes back the bodies of the pages and loads the catalog again. It leaves the
page types, the page count, the free head in memory and the constraints as the block left
them. `rollback_shows`: no later statement notices, unless a page of an older table is on
the free list when the block ends or its constraints were replaced. From this
`blocks_are_transactions`, for runs of statements and blocks.
-/

namespace TinyDB

open Lib FileStore

/-! ## The pages of a block -/

/-- The pages of tables and free pages. -/
def InUse (catalog : Catalog) (ps : List Nat) (p : Nat) : Prop :=
  p ∈ ps ∨ ∃ e ∈ catalog.entries.values, e.rootPageId = p

/-- What statements do to the pages: those in use were in use before or are new. -/
structure Extends (s : FileStore) (c : Catalog) (ps : List Nat) (t : FileStore) (d : Catalog)
    (qs : List Nat) : Prop where
  lodged : Lodged t d qs
  pageSize : t.pageSize = s.pageSize
  grows : s.file.length ≤ t.file.length
  pages : ∀ p, InUse d qs p → InUse c ps p ∨ s.file.length ≤ p

section

variable {s t : FileStore} {c d : Catalog} {ps qs : List Nat}

theorem Lodged.extends (h : Lodged s c ps) : Extends s c ps s c ps :=
  ⟨h, rfl, Nat.le_refl _, fun _ hp => Or.inl hp⟩

theorem Extends.trans {u : FileStore} {e : Catalog} {rs : List Nat} (h : Extends s c ps t d qs)
    (h' : Extends t d qs u e rs) : Extends s c ps u e rs := by
  refine ⟨h'.lodged, h'.pageSize.trans h.pageSize, Nat.le_trans h.grows h'.grows, fun p hp => ?_⟩
  rcases h'.pages p hp with hold | hnew
  · exact h.pages p hold
  · exact Or.inr (Nat.le_trans h.grows hnew)

theorem Extends.flush {u : FileStore} (h : Extends s c ps t d qs) (hf : d.flush t = .ok u) :
    Extends s c ps u d qs := by
  obtain ⟨hl, hsame⟩ := h.lodged.flush hf
  exact ⟨hl, hsame.pageSize.trans h.pageSize, by rw [hsame.length]; exact h.grows, h.pages⟩

/-- The page count may run past the largest page number. -/
theorem Lodged.full (h : Lodged s c ps) (hmax : 256 ^ 4 ≤ s.pageCount) :
    Lodged { s with pageCount := s.pageCount + 1 } c ps where
  sound := ⟨h.sound.toReadable.congr rfl rfl, by
    have hcount := h.sound.count
    simp only
    omega⟩
  header := by
    obtain ⟨head, body, hh⟩ := h.header
    exact ⟨head, body, hh.congr rfl rfl⟩
  free := h.free.congr (Nat.le_refl _) rfl fun _ _ => rfl
  roots := h.roots
  root := h.root

theorem Lodged.createTable (h : Lodged s c ps) (name : String) (columns : Schema) :
    ∃ qs, Extends s c ps (c.createTable s name columns).2.2 (c.createTable s name columns).2.1
      qs ∧ qs ⊆ ps := by
  cases hg : c.entries.get? name with
  | some e =>
    have hhas : c.entries.contains name = true := by rw [OrdDict.contains, hg]; rfl
    simp only [Catalog.createTable, hhas, ↓reduceIte]
    exact ⟨ps, h.extends, fun _ hp => hp⟩
  | none =>
    have hhas : c.entries.contains name = false := by rw [OrdDict.contains, hg]; rfl
    simp only [Catalog.createTable, hhas, Bool.false_eq_true, ↓reduceIte]
    by_cases hroom : ps ≠ [] ∨ s.pageCount < 256 ^ 4
    · obtain ⟨pid, s', halloc, hal, -, hfresh, hl⟩ := h.alloc hroom hg columns
      have hext : Extends s c ps s'
          ⟨c.entries.set name { name, rootPageId := pid, schema := columns }⟩ (ps.drop 1) := by
        refine ⟨hl, hal.pageSize, hal.grows, ?_⟩
        rintro p (hp | ⟨e, he, rfl⟩)
        · exact Or.inl (Or.inl (List.mem_of_mem_drop hp))
        · rw [OrdDict.set_new_values _ _ _ hg, List.mem_append, List.mem_singleton] at he
          rcases he with he | rfl
          · exact Or.inl (Or.inr ⟨e, he, rfl⟩)
          · exact hfresh.imp_left Or.inl
      rw [halloc]
      simp only
      split
      · exact ⟨_, hext, List.drop_subset 1 ps⟩
      · rename_i hf
        exact ⟨_, hext.flush hf, List.drop_subset 1 ps⟩
    · rw [not_or, not_not] at hroom
      obtain ⟨rfl, hmax⟩ := hroom
      obtain ⟨head, body, hh⟩ := h.header
      rcases allocPage_spec h.sound .table h.free hh.file_pos with
        ⟨pid, s', -, hal, -, hplace⟩ | ⟨-, hge, e, halloc⟩
      · rcases hplace with ⟨rest, hrest, -⟩ | ⟨-, hpid, -⟩
        · cases hrest
        · have hlt := hal.sound.id_lt hal.lt
          omega
      · rw [halloc]
        exact ⟨[], ⟨h.full hge, rfl, Nat.le_refl _, fun _ hp => Or.inl hp⟩, fun _ hp => hp⟩

theorem Lodged.dropTable (h : Lodged s c ps) (name : String) :
    ∃ qs, Extends s c ps (c.dropTable s name).2.2 (c.dropTable s name).2.1 qs := by
  cases hg : c.entries.get? name with
  | none =>
    simp only [Catalog.dropTable, hg]
    exact ⟨ps, h.extends⟩
  | some entry =>
    obtain ⟨s', hfree, hsize, hcount, -, -, hl⟩ := h.release hg
    have hext : Extends s c ps s' ⟨c.entries.erase name⟩ (entry.rootPageId :: ps) := by
      refine ⟨hl, hsize, ?_, ?_⟩
      · have hold := h.sound.count
        have hnew := hl.sound.count
        omega
      · rintro p (hp | ⟨e, he, rfl⟩)
        · rcases List.mem_cons.mp hp with rfl | hp
          · exact Or.inl (Or.inr ⟨entry, Lodged.mem hg, rfl⟩)
          · exact Or.inl (Or.inl hp)
        · have hsub := (OrdDict.remove_sublist name c.entries.entries).map Prod.snd
          exact Or.inl (Or.inr ⟨e, hsub.subset he, rfl⟩)
    simp only [Catalog.dropTable, hg, hfree]
    split
    · exact ⟨_, hext⟩
    · rename_i hf
      exact ⟨_, hext.flush hf⟩

theorem Lodged.dropTables (h : Lodged s c ps) (names : List String) :
    ∃ qs, Extends s c ps (dropTables c s names).2.2 (dropTables c s names).2.1 qs := by
  induction names generalizing s c ps with
  | nil => exact ⟨ps, h.extends⟩
  | cons name names ih =>
    obtain ⟨qs, hone⟩ := h.dropTable name
    simp only [TinyDB.dropTables]
    generalize c.dropTable s name = x at hone ⊢
    rcases x with ⟨e | u, d, t⟩
    · exact ⟨qs, hone⟩
    · obtain ⟨rs, hrest⟩ := ih hone.lodged
      exact ⟨rs, hone.trans hrest⟩

/-- One table was written. -/
theorem Lodged.written (h : Lodged s c ps) {name : String} {entry : TableMeta}
    (hg : c.entries.get? name = some entry) (hw : WritesOnly entry.rootPageId s t) :
    Extends s c ps t c ps := by
  obtain ⟨h0, -, hp⟩ := h.root entry (Lodged.mem hg)
  exact ⟨h.writesOnly hw h0 hp, hw.same.pageSize, Nat.le_of_eq hw.same.length.symm,
    fun _ hp => Or.inl hp⟩

end

def Statement.drops : Statement → Bool
  | .dropTable _ => true
  | _ => false

theorem Lodged.execute {db : Database} {ps : List Nat} (h : Lodged db.store db.catalog ps)
    (stmt : Statement) :
    ∃ qs, Extends db.store db.catalog ps (db.execute stmt).2.store (db.execute stmt).2.catalog
      qs ∧ (stmt.drops = false → qs ⊆ ps) := by
  have hread := h.sound.toReadable
  cases stmt with
  | createTable stmt =>
    rw [Database.execute_createTable]
    simp only [execCreateTable]
    cases resolveColumns stmt.columns with
    | error e => exact ⟨ps, h.extends, fun _ _ hp => hp⟩
    | ok columns =>
      obtain ⟨qs, hext, hsub⟩ := h.createTable stmt.name columns
      exact ⟨qs, hext, fun _ => hsub⟩
  | dropTable stmt =>
    rw [Database.execute_dropTable]
    obtain ⟨qs, hext⟩ := h.dropTables stmt.names
    exact ⟨qs, hext, fun hno => by cases hno⟩
  | insert stmt =>
    cases hg : db.catalog.getTable stmt.table with
    | error e =>
      simp only [Database.execute, Database.dispatch, Database.dispatchInsert, hg]
      exact ⟨ps, h.extends, fun _ _ hp => hp⟩
    | ok entry =>
      rw [Database.execute_insert stmt hg]
      exact ⟨ps, h.written (getTable_eq_ok.mp hg) (writesOnly_execInsert hread entry _ _ _),
        fun _ _ hp => hp⟩
  | update stmt =>
    cases hg : db.catalog.getTable stmt.table with
    | error e =>
      simp only [Database.execute, Database.dispatch, Database.dispatchUpdate, hg]
      exact ⟨ps, h.extends, fun _ _ hp => hp⟩
    | ok entry =>
      rw [Database.execute_update stmt hg]
      exact ⟨ps, h.written (getTable_eq_ok.mp hg) (writesOnly_execUpdate hread entry _ _),
        fun _ _ hp => hp⟩
  | delete stmt =>
    cases hg : db.catalog.getTable stmt.table with
    | error e =>
      simp only [Database.execute, Database.dispatch, Database.dispatchDelete, hg]
      exact ⟨ps, h.extends, fun _ _ hp => hp⟩
    | ok entry =>
      rw [Database.execute_delete stmt hg]
      exact ⟨ps, h.written (getTable_eq_ok.mp hg) (writesOnly_execDelete hread entry _),
        fun _ _ hp => hp⟩
  | begin =>
    simp only [Database.execute, Database.dispatch, Database.dispatchBegin]
    cases db.tx.begin <;> exact ⟨ps, h.extends, fun _ _ hp => hp⟩
  | _ => exact ⟨ps, h.extends, fun _ _ hp => hp⟩

theorem Lodged.executeAll {db : Database} {ps : List Nat} (h : Lodged db.store db.catalog ps)
    (stmts : List Statement) :
    ∃ qs, Extends db.store db.catalog ps (db.executeAll stmts).store
      (db.executeAll stmts).catalog qs ∧
      ((∀ stmt ∈ stmts, stmt.drops = false) → qs ⊆ ps) := by
  induction stmts generalizing db ps with
  | nil => exact ⟨ps, h.extends, fun _ _ hp => hp⟩
  | cons stmt stmts ih =>
    obtain ⟨qs, hone, hsub⟩ := h.execute stmt
    obtain ⟨rs, hrest, hsub'⟩ := ih hone.lodged
    refine ⟨rs, hone.trans hrest, fun hno p hp => ?_⟩
    exact hsub (hno stmt (List.mem_cons_self ..))
      (hsub' (fun s hs => hno s (List.mem_cons_of_mem _ hs)) hp)

/-! ## The free list after a rollback -/

section

variable {old s t : FileStore} {saved : List (Nat × Bytes)} {ps qs : List Nat} {p : Nat}

theorem nextFree_eq {page : Page} (hr : s.readPage p = .ok page) (hlen : 4 ≤ page.body.length) :
    s.nextFree p = leNat (page.body.take 4) := by
  simp only [readPage, bind_eq_ok, Except.ok.injEq] at hr
  obtain ⟨⟨pid, type, lsn, bodyLen⟩, -, rfl⟩ := hr
  simp only [slice, List.length_take, List.length_drop] at hlen
  simp only [nextFree, slice, List.take_take]
  congr 2
  omega

/-- A page that the snapshot holds has its old body. -/
theorem Restored.counted (hr : Restored s t saved)
    (hsnap : Database.snapshotPages old old.pageCount 0 = .ok saved) (hp : p < old.pageCount)
    {page now : Page} (hold : old.readPage p = .ok page) (hnow : s.readPage p = .ok now) :
    t.readPage p = .ok { now with body := page.body } := by
  have hread := hr.read_snapshot hsnap hold hnow
  rwa [if_pos hp] at hread

/-- A page that came later keeps its body. -/
theorem Restored.later (hr : Restored s t saved)
    (hsnap : Database.snapshotPages old old.pageCount 0 = .ok saved) (hp : old.pageCount ≤ p)
    {now : Page} (hnow : s.readPage p = .ok now) : t.readPage p = .ok now := by
  obtain ⟨-, -, hout⟩ := snapshotPages_spec hsnap
  rw [hr.page p now hnow, hout p (Or.inr (by omega))]

variable (hr : Restored s t saved)
  (hsnap : Database.snapshotPages old old.pageCount 0 = .ok saved) (hs : s.Readable)
  (hgrows : old.pageCount ≤ s.file.length) (hfree : FreeList old qs)
  (hlt : ∀ q ∈ qs, q < old.pageCount)

include hr hsnap hs hgrows hfree hlt

/-- An old free page is linked as it was. -/
theorem nextFree_old (hp : p ∈ qs) : t.nextFree p = old.nextFree p ∧
    ∃ page, t.readPage p = .ok page ∧ 4 ≤ page.body.length := by
  obtain ⟨page, hold, hlen⟩ := hfree.linked p hp
  obtain ⟨now, hnow, -⟩ := hs.page p (Nat.lt_of_lt_of_le (hlt p hp) hgrows)
  have hread := hr.counted hsnap (hlt p hp) hold hnow
  exact ⟨by rw [nextFree_eq hread hlen, nextFree_eq hold hlen], _, hread, hlen⟩

/-- The old free list from one of its pages on. -/
theorem freeChain_old {head : Nat} {b : List Nat} (hb : ∀ q ∈ b, q ∈ qs)
    (hchain : FreeChain old head b) : FreeChain t head b := by
  induction b generalizing head with
  | nil => exact hchain
  | cons q b ih =>
    obtain ⟨hq, h0, -, hrest⟩ := hchain
    have hmem := hb q (List.mem_cons_self ..)
    refine ⟨hq, h0, ?_, ?_⟩
    · rw [hr.length]
      exact Nat.lt_of_lt_of_le (hlt q hmem) hgrows
    · rw [(nextFree_old hr hsnap hs hgrows hfree hlt hmem).1]
      exact ih (fun r hm => hb r (List.mem_cons_of_mem _ hm)) hrest

/-- New pages up to the first old one, and the old list from there on. -/
theorem freeChain_restored {head : Nat} (hchain : FreeChain s head ps) (hnodup : ps.Nodup)
    (hlinked : ∀ p ∈ ps, ∃ page, s.readPage p = .ok page ∧ 4 ≤ page.body.length)
    (hpages : ∀ p ∈ ps, p ∈ qs ∨ old.pageCount ≤ p) :
    ∃ rs, FreeChain t head rs ∧ rs.Nodup ∧
      ∀ r ∈ rs, r ∈ qs ∨ (r ∈ ps ∧ old.pageCount ≤ r) := by
  induction ps generalizing head with
  | nil => exact ⟨[], hchain, List.nodup_nil, fun r hm => absurd hm List.not_mem_nil⟩
  | cons p ps ih =>
    obtain ⟨hhead, h0, hplt, hrest⟩ := hchain
    rcases hpages p (List.mem_cons_self ..) with hp | hp
    · obtain ⟨a, b, rfl⟩ := List.append_of_mem hp
      have hsub : ∀ q ∈ p :: b, q ∈ a ++ p :: b := fun q hq => List.mem_append_right _ hq
      refine ⟨p :: b, ?_, ?_, fun r hm => Or.inl (hsub r hm)⟩
      · rw [hhead]
        exact freeChain_old hr hsnap hs hgrows hfree hlt hsub hfree.chain.suffix
      · exact hfree.nodup.sublist (List.sublist_append_right _ _)
    · obtain ⟨page, hread, hlen⟩ := hlinked p (List.mem_cons_self ..)
      have hnext : t.nextFree p = s.nextFree p := by
        rw [nextFree_eq (hr.later hsnap hp hread) hlen, nextFree_eq hread hlen]
      obtain ⟨hnot, hnodup'⟩ := List.nodup_cons.mp hnodup
      obtain ⟨rs, hchain', hrs, hmem⟩ := ih hrest hnodup'
        (fun q hq => hlinked q (List.mem_cons_of_mem _ hq))
        (fun q hq => hpages q (List.mem_cons_of_mem _ hq))
      refine ⟨p :: rs, ⟨hhead, h0, by rw [hr.length]; exact hplt, by rw [hnext]; exact hchain'⟩,
        List.nodup_cons.mpr ⟨fun hm => ?_, hrs⟩, fun r hm => ?_⟩
      · rcases hmem p hm with hq | ⟨hq, -⟩
        · exact absurd (hlt p hq) (Nat.not_lt.mpr hp)
        · exact hnot hq
      · rcases List.mem_cons.mp hm with rfl | hm
        · exact Or.inr ⟨List.mem_cons_self .., hp⟩
        · exact (hmem r hm).imp_right fun hq => ⟨List.mem_cons_of_mem _ hq.1, hq.2⟩

/-- **The free list after a rollback** has no page that was in use before the block. -/
theorem freeList_restored (hend : FreeList s ps)
    (hpages : ∀ p ∈ ps, p ∈ qs ∨ old.pageCount ≤ p) :
    ∃ rs, FreeList t rs ∧ ∀ r ∈ rs, r ∈ qs ∨ old.pageCount ≤ r := by
  obtain ⟨rs, hchain, hnodup, hmem⟩ :=
    freeChain_restored hr hsnap hs hgrows hfree hlt hend.chain hend.nodup hend.linked hpages
  refine ⟨rs, ⟨by rw [hr.freeHead]; exact hchain, hnodup, fun r hm => ?_⟩,
    fun r hm => (hmem r hm).imp_right And.right⟩
  rcases hmem r hm with hq | ⟨hp, hge⟩
  · exact (nextFree_old hr hsnap hs hgrows hfree hlt hq).2
  · obtain ⟨page, hread, hlen⟩ := hend.linked r hp
    exact ⟨page, hr.later hsnap hge hread, hlen⟩

end

/-! ## Leaving the block -/

theorem executeAll_constraints (db : Database) (stmts : List Statement) {table : String}
    (h : ∀ stmt ∈ stmts, ∀ create ∈ createOf stmt, create.name ≠ table) :
    (db.executeAll stmts).constraints.get? table = db.constraints.get? table := by
  induction stmts generalizing db with
  | nil => rfl
  | cons stmt stmts ih =>
    rw [Database.executeAll, ih _ fun s hs => h s (List.mem_cons_of_mem _ hs),
      constraints_execute]
    cases stmt with
    | createTable create =>
      have hne := h _ (List.mem_cons_self ..) create rfl
      simp only [hne, and_false, ↓reduceIte]
    | _ => rfl

theorem begin_active {tx mid : TxManager} {txId : Nat} (hb : tx.begin = .ok (txId, mid)) :
    mid.anyActive = true := by
  unfold TxManager.begin at hb
  split at hb
  · cases hb
  · cases hb
    refine List.any_eq_true.mpr ⟨⟨tx.nextTxId, true⟩, OrdDict.mem_values.mpr ⟨tx.nextTxId, ?_⟩, rfl⟩
    rw [← OrdDict.get?_eq_some_iff, OrdDict.get?_set, if_pos rfl]

/-- The transaction of the block is forgotten. -/
theorem finish_idle {tx mid tx' : TxManager} {wal wal' : Wal} {bytes bytes' : Bytes}
    {kind : RecordKind} {txId : Nat} (hb : tx.begin = .ok (txId, mid))
    (hf : mid.finish wal bytes kind txId = .ok (tx', wal', bytes')) :
    tx'.anyActive = tx.anyActive := by
  unfold TxManager.begin at hb
  split at hb
  · cases hb
  rename_i hidle
  rw [Bool.not_eq_true] at hidle
  cases hb
  simp only [TxManager.finish, bind_eq_ok, Except.ok.injEq, Prod.mk.injEq] at hf
  obtain ⟨-, -, -, -, rfl, -⟩ := hf
  rw [hidle]
  rw [TxManager.anyActive, List.any_eq_false] at hidle ⊢
  intro st hst
  obtain ⟨k, hk⟩ := OrdDict.mem_values.mp hst
  obtain ⟨hne, hk⟩ := (OrdDict.mem_erase _ _ _).mp hk
  refine hidle st (OrdDict.mem_values.mpr ⟨k, ?_⟩)
  rw [← OrdDict.get?_eq_some_iff, OrdDict.get?_set, if_neg fun e => hne e.symm] at hk
  rwa [← OrdDict.get?_eq_some_iff]

/-- What the catalog loads depends on the body of the header page alone. -/
theorem load_congr {s t : FileStore} (catalog : Catalog) {a b : Page} (hs : 0 < s.pageCount)
    (ht : 0 < t.pageCount) (ha : s.readPage 0 = .ok a) (hb : t.readPage 0 = .ok b)
    (hbody : b.body = a.body) : catalog.load t = catalog.load s := by
  have hs' : ¬ s.pageCount < 1 := by omega
  have ht' : ¬ t.pageCount < 1 := by omega
  simp only [Catalog.load, hs', ht', ↓reduceIte, ha, hb, ok_bind, hbody]

/-- What the rollback needs of the block: the end of the transaction can be logged, the header
page of before holds the catalog of before, no page of an older table is free, and the
constraints of the older tables are what they were. -/
structure LeavesWhole (db after : Database) (txId : Nat) : Prop where
  logged : (after.tx.finish after.wal after.walFile .txRollback txId).isOk = true
  catalog : after.catalog.load db.store = .ok db.catalog
  free : ∀ entry ∈ db.catalog.entries.values, ∀ ps, FreeList after.store ps →
    entry.rootPageId ∉ ps
  constraints : ∀ table, db.catalog.entries.contains table = true →
    after.constraints.get? table = db.constraints.get? table

def createdNames (stmts : List Statement) : List String :=
  stmts.filterMap fun stmt => (createOf stmt).map CreateTable.name

section

variable {db mid : Database} {saved : List (Nat × Bytes)} {txId : Nat} {ps : List Nat}

/-- The snapshot holds every page of the file. -/
theorem pageCount_of_snapshot (h : Lodged db.store db.catalog ps)
    (hs : Database.snapshotPages db.store db.store.pageCount 0 = .ok saved) :
    db.store.pageCount = db.store.file.length ∧ 0 < db.store.pageCount := by
  obtain ⟨head, body, hh⟩ := h.header
  have hpos := hh.file_pos
  have hcount := h.sound.count
  have hlt := snapshotPages_lt hs
  omega

/-- **A rollback shows the tables of before the block.** -/
theorem rollback_shows (h : Lodged db.store db.catalog ps)
    (he : db.enterBlock = .ok (saved, txId, mid)) (stmts : List Statement)
    (hw : LeavesWhole db (mid.executeAll stmts) txId) :
    Shows (createdNames stmts) db ((mid.executeAll stmts).rollbackBlock saved txId).2 ∧
      ((mid.executeAll stmts).rollbackBlock saved txId).2.tx.anyActive = db.tx.anyActive ∧
      ((mid.executeAll stmts).rollbackBlock saved txId).2.store.pageCount =
        (mid.executeAll stmts).store.pageCount := by
  obtain ⟨hsnap, tx, hbegin, rfl⟩ := Connections.enterBlock_eq_ok.mp he
  obtain ⟨hcount, hpos⟩ := pageCount_of_snapshot h hsnap
  have hmid : Lodged ({ db with tx } : Database).store ({ db with tx } : Database).catalog ps := h
  obtain ⟨qs, hext, -⟩ := hmid.executeAll stmts
  have hconstraints : ∀ table ∉ createdNames stmts,
      (({ db with tx } : Database).executeAll stmts).constraints.get? table =
        db.constraints.get? table := by
    intro table htable
    refine executeAll_constraints ({ db with tx } : Database) stmts
      fun stmt hstmt create hc hn => ?_
    refine htable (List.mem_filterMap.mpr ⟨stmt, hstmt, ?_⟩)
    rw [Option.mem_def.mp hc, Option.map_some, hn]
  have htx : (({ db with tx } : Database).executeAll stmts).tx = tx :=
    Database.executeAll_active _ stmts (begin_active hbegin)
  generalize ({ db with tx } : Database).executeAll stmts = after at hw hext htx hconstraints ⊢
  simp only at hext
  have hread := hext.lodged.sound.toReadable
  have hgrows : db.store.pageCount ≤ after.store.file.length := by
    rw [hcount]
    exact hext.grows
  -- the log takes the record
  obtain ⟨tx', wal', walFile', hfinish⟩ : ∃ tx' wal' walFile',
      after.tx.finish after.wal after.walFile .txRollback txId = .ok (tx', wal', walFile') := by
    have hlogged := hw.logged
    cases hf : after.tx.finish after.wal after.walFile .txRollback txId with
    | error e => rw [hf] at hlogged; cases hlogged
    | ok r => exact ⟨_, _, _, rfl⟩
  have hidle : tx'.anyActive = db.tx.anyActive := finish_idle hbegin (htx ▸ hfinish)
  -- every saved body fits its page
  obtain ⟨hmem, -, -⟩ := snapshotPages_spec hsnap
  have hfits : ∀ p ∈ saved, p.1 < after.store.file.length ∧ p.2.length ≤ after.store.bodySize := by
    intro p hp
    obtain ⟨page, hpage, hbody⟩ := hmem p hp
    have hlt := readPage_lt hpage
    refine ⟨Nat.lt_of_lt_of_le hlt hext.grows, ?_⟩
    have hsize : after.store.bodySize = db.store.bodySize := by simp only [bodySize, hext.pageSize]
    rw [hbody, hsize]
    exact h.sound.body_le hlt hpage
  obtain ⟨store', hrestore, hr⟩ := restoreBodies_spec hread hfits
  have hold : ∀ {p page}, db.store.readPage p = .ok page → ∃ now, after.store.readPage p = .ok now ∧
      store'.readPage p = .ok { now with body := page.body } := by
    intro p page hpage
    have hlt := readPage_lt hpage
    obtain ⟨now, hnow, -⟩ := hread.page p (Nat.lt_of_lt_of_le hlt hext.grows)
    exact ⟨now, hnow, hr.counted hsnap (by rw [hcount]; exact hlt) hpage hnow⟩
  -- the catalog of before comes back
  obtain ⟨head, body, hh⟩ := h.header
  obtain ⟨lsn, hread0⟩ := hh.read
  obtain ⟨now0, hnow0, hread0'⟩ := hold hread0
  have hload : after.catalog.load store' = .ok db.catalog := by
    rw [← hw.catalog]
    refine load_congr after.catalog hpos ?_ hread0 hread0' rfl
    have hends := hext.lodged.sound.count
    rw [hr.pageCount]
    omega
  -- the free list
  obtain ⟨rs, hfree, hrs⟩ := freeList_restored hr hsnap hread hgrows h.free
    (fun q hq => by rw [hcount]; exact (h.free.mem hq).2) hext.lodged.free fun p hp => by
      rcases hext.pages p (Or.inl hp) with (hq | ⟨e, hm, rfl⟩) | hnew
      · exact Or.inl hq
      · exact absurd hp (hw.free e hm qs hext.lodged.free)
      · exact Or.inr (by rw [hcount]; exact hnew)
  have hlodged : Lodged store' db.catalog rs := by
    refine ⟨⟨hr.readable, ?_⟩, ⟨head, body, ?_, ?_, hh.head_lt⟩, hfree, h.roots, fun e hm => ?_⟩
    · rw [hr.length, hr.pageCount]
      exact hext.lodged.sound.count
    · obtain ⟨head', body', hh'⟩ := hext.lodged.header
      obtain ⟨lsn', hlsn⟩ := hh'.read
      obtain rfl := Except.ok.inj (hnow0.symm.trans hlsn)
      exact ⟨lsn', hread0'⟩
    · rw [hr.pageSize, hext.pageSize]
      exact hh.fields
    · obtain ⟨h0, hlt, hfr⟩ := h.root e hm
      refine ⟨h0, ?_, fun hin => ?_⟩
      · rw [hr.length]
        exact Nat.lt_of_lt_of_le hlt hext.grows
      · rcases hrs _ hin with hq | hge
        · exact hfr hq
        · omega
  simp only [Database.rollbackBlock, hfinish, Database.restorePages, hrestore, hload]
  refine ⟨⟨⟨?_, OrdDict.Rel.refl fun k e hm => ?_, ⟨ps, h⟩, rs, hlodged⟩, fun table htable => ?_⟩,
    hidle, hr.pageCount⟩
  · rw [hr.pageSize, hext.pageSize]
  · have hin := OrdDict.mem_values.mpr ⟨k, hm⟩
    obtain ⟨page, hpage, -⟩ := h.sound.page _ (h.root e hin).2.1
    obtain ⟨now, -, hback⟩ := hold hpage
    exact ⟨rfl, page, _, hpage, hback, rfl⟩
  · rcases htable with hhas | hnot
    · exact hw.constraints table hhas
    · exact hconstraints table hnot

end

/-! ## Blocks without DROP TABLE -/

/-- A CREATE TABLE that goes through has a new name. -/
theorem execCreateTable_known {c : Catalog} {table : String}
    (hhas : c.entries.contains table = true) (s : FileStore) (stmt : CreateTable) :
    (execCreateTable c s stmt).2.1.entries.contains table = true ∧
      ((execCreateTable c s stmt).1.isOk = true → stmt.name ≠ table) := by
  unfold execCreateTable
  cases resolveColumns stmt.columns with
  | error e => exact ⟨hhas, fun hok => by cases hok⟩
  | ok columns =>
    simp only
    by_cases hname : stmt.name = table
    · subst hname
      simp only [Catalog.createTable, hhas, ↓reduceIte]
      exact ⟨trivial, fun hok => by cases hok⟩
    · rw [(createTable_adds s c stmt.name columns).2 table fun e => hname e.symm]
      exact ⟨hhas, fun _ => hname⟩

/-- A table that is there keeps its constraints unless it is dropped. -/
theorem keeps_table {db : Database} {stmt : Statement} {table : String}
    (hno : stmt.drops = false)
    (hhas : db.catalog.entries.contains table = true) :
    (db.execute stmt).2.catalog.entries.contains table = true ∧
      (db.execute stmt).2.constraints.get? table = db.constraints.get? table := by
  rcases db.execute_cases stmt with ⟨store, he⟩ | ⟨create, rfl⟩ | ⟨drop, rfl⟩ | ⟨-, tx, he⟩ | rfl
  · rw [he]
    exact ⟨hhas, rfl⟩
  · rw [Database.execute_createTable]
    obtain ⟨hafter, hnew⟩ := execCreateTable_known hhas db.store create
    refine ⟨hafter, ?_⟩
    simp only
    split
    · rename_i hok
      rw [OrdDict.get?_set, if_neg (hnew hok)]
    · rfl
  · cases hno
  · rw [he]
    exact ⟨hhas, rfl⟩
  · exact ⟨hhas, rfl⟩

theorem executeAll_keeps_constraints {db : Database} {stmts : List Statement} {table : String}
    (hno : ∀ stmt ∈ stmts, stmt.drops = false)
    (hhas : db.catalog.entries.contains table = true) :
    (db.executeAll stmts).constraints.get? table = db.constraints.get? table := by
  induction stmts generalizing db with
  | nil => rfl
  | cons stmt stmts ih =>
    obtain ⟨hhas', hsame⟩ := keeps_table (hno stmt (List.mem_cons_self ..)) hhas
    rw [Database.executeAll, ih (fun s hs => hno s (List.mem_cons_of_mem _ hs)) hhas', hsame]

/-- **A block without DROP TABLE** leaves the older tables whole. -/
theorem leavesWhole_of_no_drop {db mid : Database} {saved : List (Nat × Bytes)} {txId : Nat}
    {ps : List Nat} (h : Lodged db.store db.catalog ps)
    (he : db.enterBlock = .ok (saved, txId, mid)) {stmts : List Statement}
    (hno : ∀ stmt ∈ stmts, stmt.drops = false)
    (hlogged : ((mid.executeAll stmts).tx.finish (mid.executeAll stmts).wal
      (mid.executeAll stmts).walFile .txRollback txId).isOk = true)
    (hcatalog : (mid.executeAll stmts).catalog.load db.store = .ok db.catalog) :
    LeavesWhole db (mid.executeAll stmts) txId := by
  obtain ⟨-, tx, -, rfl⟩ := Connections.enterBlock_eq_ok.mp he
  have hmid : Lodged ({ db with tx } : Database).store ({ db with tx } : Database).catalog ps := h
  obtain ⟨qs, hext, hsub⟩ := hmid.executeAll stmts
  refine ⟨hlogged, hcatalog, fun entry hm rs hrs hin => ?_, fun table hhas => ?_⟩
  · obtain rfl := hrs.chain.unique hext.lodged.free.chain
    exact (h.root entry hm).2.2 (hsub hno hin)
  · have hkept : (({ db with tx } : Database).executeAll stmts).constraints.get? table =
        db.constraints.get? table := executeAll_keeps_constraints hno hhas
    exact hkept

/-! ## Statements and blocks -/

/-- What a program does with a connection. -/
inductive Action where
  | statement (stmt : Statement)
  | block (stmts : List Statement) (fails : Bool)

namespace Action

/-- The statements that are not undone. -/
def kept : Action → List Statement
  | .statement stmt => [stmt]
  | .block stmts fails => if fails then [] else stmts

/-- The tables that are created and undone. -/
def undoneNames : Action → List String
  | .statement _ => []
  | .block stmts fails => if fails then createdNames stmts else []

def size : Action → Nat
  | .statement _ => 1
  | .block stmts _ => stmts.length

end Action

namespace Database

def runActions (db : Database) : List Action → Database
  | [] => db
  | .statement stmt :: actions => (db.execute stmt).2.runActions actions
  | .block stmts fails :: actions => (db.transaction stmts fails).runActions actions

/-- What the statements of a block return or raise. -/
def blockResults (db : Database) (stmts : List Statement) : List (Except PyErr Result) :=
  match db.enterBlock with
  | .error _ => []
  | .ok (_, _, mid) => mid.results stmts

/-- What the statements that are not undone return or raise. -/
def actionResults (db : Database) : List Action → List (Except PyErr Result)
  | [] => []
  | .statement stmt :: actions => (db.execute stmt).1 :: (db.execute stmt).2.actionResults actions
  | .block stmts fails :: actions =>
    (if fails then [] else db.blockResults stmts) ++
      (db.transaction stmts fails).actionResults actions

/-- No transaction is opened by a BEGIN, every block that ends well is logged, and every
block that fails leaves the older tables whole. -/
def Orderly : Database → List Action → Prop
  | _, [] => True
  | db, .statement stmt :: actions => stmt ≠ .begin ∧ Orderly (db.execute stmt).2 actions
  | db, .block stmts fails :: actions =>
    (∀ saved txId mid, db.enterBlock = .ok (saved, txId, mid) →
      let after := mid.executeAll stmts
      if fails then LeavesWhole db after txId
      else .begin ∉ stmts ∧ (after.tx.finish after.wal after.walFile .txCommit txId).isOk = true) ∧
    Orderly (db.transaction stmts fails) actions

theorem results_append (db : Database) (stmts others : List Statement) :
    db.results (stmts ++ others) = db.results stmts ++ (db.executeAll stmts).results others := by
  induction stmts generalizing db with
  | nil => rfl
  | cons stmt stmts ih => rw [List.cons_append, results, results, ih, List.cons_append, executeAll]

end Database

theorem cleanRun_append (stale : List String) (db : Database) (stmts others : List Statement) :
    CleanRun stale db (stmts ++ others) ↔
      CleanRun stale db stmts ∧ CleanRun stale (db.executeAll stmts) others := by
  induction stmts generalizing db with
  | nil => exact ⟨fun h => ⟨True.intro, h⟩, And.right⟩
  | cons stmt stmts ih =>
    rw [List.cons_append, CleanRun, CleanRun, ih, Database.executeAll, and_assoc]

theorem executeAll_pageCount {db : Database} {ps : List Nat} (h : Lodged db.store db.catalog ps)
    (stmts : List Statement) :
    (db.executeAll stmts).store.pageCount ≤ db.store.pageCount + stmts.length := by
  induction stmts generalizing db ps with
  | nil => exact Nat.le_refl _
  | cons stmt stmts ih =>
    obtain ⟨qs, hone, -⟩ := h.execute stmt
    have hfirst := execute_pageCount h.sound.toReadable stmt
    have hrest := ih hone.lodged
    rw [Database.executeAll, List.length_cons]
    omega

theorem snapshotPages_readable {store : FileStore} (h : store.Readable) (n pid : Nat)
    (hle : pid + n ≤ store.file.length) : (Database.snapshotPages store n pid).isOk = true := by
  induction n generalizing pid with
  | zero => rfl
  | succ n ih =>
    obtain ⟨page, hpage, -⟩ := h.page pid (by omega)
    have hrest := ih (pid + 1) (by omega)
    simp only [Database.snapshotPages, hpage, ok_bind]
    cases hs : Database.snapshotPages store n (pid + 1) with
    | error e => rw [hs] at hrest; cases hrest
    | ok rest => rfl

/-- A connection without an open transaction can enter a block. -/
theorem enterBlock_idle {db : Database} {ps : List Nat} (h : Lodged db.store db.catalog ps)
    (hidle : db.tx.anyActive = false) (hroom : db.store.pageCount ≤ 256 ^ 4) :
    ∃ saved txId tx, db.enterBlock = .ok (saved, txId, { db with tx }) ∧
      db.tx.begin = .ok (txId, tx) := by
  have hcount := h.sound.count
  have hsnap := snapshotPages_readable h.sound.toReadable db.store.pageCount 0 (by omega)
  cases hs : Database.snapshotPages db.store db.store.pageCount 0 with
  | error e => rw [hs] at hsnap; cases hsnap
  | ok saved =>
    have hbegin : db.tx.begin = .ok (db.tx.nextTxId,
        ⟨db.tx.txs.set db.tx.nextTxId ⟨db.tx.nextTxId, true⟩, db.tx.nextTxId + 1⟩) := by
      simp only [TxManager.begin, hidle, Bool.false_eq_true, ↓reduceIte]
    exact ⟨saved, _, _, Connections.enterBlock_eq_ok.mpr ⟨hs, _, hbegin, rfl⟩, hbegin⟩

/-! ## Runs -/

section

variable {stale names : List String} {a b c : Database}

theorem Shows.trans (h : Shows stale a b) (h' : Shows names b c) (hn : ∀ n ∈ names, n ∈ stale) :
    Shows stale a c := by
  refine ⟨⟨h'.placed.pageSize.trans h.placed.pageSize, ?_, h.placed.left, h'.placed.right⟩, ?_⟩
  · exact h.placed.tables.trans h'.placed.tables fun _ _ _ hm hm' => hm.trans hm'
  · intro table htable
    refine (h'.constraints table ?_).trans (h.constraints table htable)
    refine htable.imp (fun hhas => ?_) fun hnot hm => hnot (hn table hm)
    rw [OrdDict.contains_iff] at hhas ⊢
    rwa [h.placed.tables.keys]

/-- A block that ends well. -/
theorem commitBlock_ok (saved : List (Nat × Bytes)) {txId : Nat}
    (hlog : (b.tx.finish b.wal b.walFile .txCommit txId).isOk = true) :
    ∃ tx wal walFile, b.tx.finish b.wal b.walFile .txCommit txId = .ok (tx, wal, walFile) ∧
      b.commitBlock saved txId = { b with tx, wal, walFile } := by
  unfold Database.commitBlock
  cases hf : b.tx.finish b.wal b.walFile .txCommit txId with
  | error e => rw [hf] at hlog; cases hlog
  | ok r => exact ⟨_, _, _, rfl, rfl⟩

theorem executeAll_tx (db : Database) {stmts : List Statement} (h : .begin ∉ stmts) :
    (db.executeAll stmts).tx = db.tx := by
  induction stmts generalizing db with
  | nil => rfl
  | cons stmt stmts ih =>
    rw [List.mem_cons, not_or] at h
    rw [Database.executeAll, ih _ h.2, db.execute_tx stmt fun he => h.1 he.symm]

end

/-- Beside a run without blocks. -/
theorem actions_shows {stale : List String} {db db' : Database}
    (h : Shows stale db db') (hidle : db.tx.anyActive = false) (hidle' : db'.tx.anyActive = false)
    (actions : List Action) (horderly : Database.Orderly db' actions)
    (hroom : db.store.pageCount + (actions.map Action.size).sum ≤ 256 ^ 4)
    (hroom' : db'.store.pageCount + (actions.map Action.size).sum ≤ 256 ^ 4)
    (hnames : ∀ n ∈ actions.flatMap Action.undoneNames, n ∈ stale)
    (hclean : CleanRun stale db (actions.flatMap Action.kept)) :
    db'.actionResults actions = db.results (actions.flatMap Action.kept) ∧
      Shows stale (db.executeAll (actions.flatMap Action.kept)) (db'.runActions actions) := by
  induction actions generalizing db db' with
  | nil => exact ⟨rfl, h⟩
  | cons action actions ih =>
    rw [List.flatMap_cons] at hnames hclean ⊢
    rw [List.map_cons, List.sum_cons] at hroom hroom'
    obtain ⟨ps, hl⟩ := h.placed.left
    obtain ⟨qs, hr⟩ := h.placed.right
    cases action with
    | statement stmt =>
      obtain ⟨hbegin, horderly⟩ := horderly
      obtain ⟨hone, hrest⟩ := hclean
      simp only [Action.size] at hroom hroom'
      obtain ⟨hres, hshows⟩ := execute_shows h (by omega) (by omega)
        (fun hb => absurd hb hbegin) hone
      have hcount := execute_pageCount hl.sound.toReadable stmt
      have hcount' := execute_pageCount hr.sound.toReadable stmt
      obtain ⟨hresults, hend⟩ := ih hshows (by rw [db.execute_tx stmt hbegin, hidle])
        (by rw [db'.execute_tx stmt hbegin, hidle']) horderly (by omega) (by omega) hnames hrest
      exact ⟨by rw [Database.actionResults, hresults, hres]; rfl, hend⟩
    | block stmts fails =>
      obtain ⟨hblock, horderly⟩ := horderly
      simp only [Action.size] at hroom hroom'
      obtain ⟨saved, txId, tx, henter, hbegin⟩ := enterBlock_idle hr hidle' (by omega)
      have hblock := hblock _ _ _ henter
      have hopened : Lodged ({ db' with tx } : Database).store
        ({ db' with tx } : Database).catalog qs := hr
      cases fails with
      | true =>
        have hsize : (({ db' with tx } : Database).executeAll stmts).store.pageCount ≤
            db'.store.pageCount + stmts.length := executeAll_pageCount hopened stmts
        obtain ⟨hundone, hactive, hcount⟩ := rollback_shows hr henter stmts hblock
        have hstep : db'.transaction stmts true =
            ((({ db' with tx } : Database).executeAll stmts).rollbackBlock saved txId).2 := by
          simp only [Database.transaction, henter, ↓reduceIte]
        rw [← hstep] at hundone hactive hcount
        have hshows := h.trans hundone fun n hn => hnames n (List.mem_append_left _ hn)
        obtain ⟨hresults, hend⟩ := ih hshows hidle (hactive.trans hidle') horderly (by omega)
          (by omega) (fun n hn => hnames n (List.mem_append_right _ hn)) hclean
        exact ⟨hresults, hend⟩
      | false =>
        obtain ⟨hnobegin, hlog⟩ := hblock
        obtain ⟨hclean, hrest⟩ := (cleanRun_append stale db stmts _).mp hclean
        have hmid : Shows stale db ({ db' with tx } : Database) := ⟨h.placed, h.constraints⟩
        obtain ⟨hres, hshows⟩ := results_shows hmid (fun hb => absurd hb hnobegin) (by omega)
          (by simp only; omega) hclean
        have hsize := executeAll_pageCount hl stmts
        have hsize' : (({ db' with tx } : Database).executeAll stmts).store.pageCount ≤
            db'.store.pageCount + stmts.length := executeAll_pageCount hopened stmts
        have htx : (({ db' with tx } : Database).executeAll stmts).tx = tx :=
          Database.executeAll_active _ stmts (begin_active hbegin)
        obtain ⟨tx', wal', walFile', hfinish, hcommit⟩ := commitBlock_ok saved hlog
        have hstep : db'.transaction stmts false =
            { ({ db' with tx } : Database).executeAll stmts with
              tx := tx', wal := wal', walFile := walFile' } := by
          simp only [Database.transaction, henter, Bool.false_eq_true, ↓reduceIte, hcommit]
        have hends : Shows stale (db.executeAll stmts) (db'.transaction stmts false) := by
          rw [hstep]
          exact ⟨hshows.placed, hshows.constraints⟩
        have hidles : (db'.transaction stmts false).tx.anyActive = false := by
          rw [hstep]
          exact (finish_idle hbegin (htx ▸ hfinish)).trans hidle'
        obtain ⟨hresults, hend⟩ := ih hends (by rw [executeAll_tx db hnobegin, hidle]) hidles
          horderly (by omega) (by rw [hstep]; simp only; omega)
          (fun n hn => hnames n (List.mem_append_right _ hn)) hrest
        refine ⟨?_, by rw [Database.executeAll_append]; exact hend⟩
        have hkept : (Action.block stmts false).kept = stmts := rfl
        rw [hkept, Database.results_append, ← hres, ← hresults, Database.actionResults]
        simp only [Bool.false_eq_true, ↓reduceIte, Database.blockResults, henter]

theorem Lodged.shows {db : Database} {ps : List Nat} (h : Lodged db.store db.catalog ps)
    (stale : List String) : Shows stale db db := by
  refine ⟨⟨rfl, OrdDict.Rel.refl fun k e hm => ?_, ⟨ps, h⟩, ps, h⟩, fun _ _ => rfl⟩
  obtain ⟨page, hpage, -⟩ := h.sound.page _ (h.root e (OrdDict.mem_values.mpr ⟨k, hm⟩)).2.1
  exact ⟨rfl, page, page, hpage, hpage, rfl⟩

/-- **Blocks are transactions.** A program that runs statements and blocks on a new database gets
the same results and has the same tables as one that leaves out the blocks that fail and runs the
statements of the others without a block. -/
theorem blocks_are_transactions (pageSize : Nat) (db : Database) (actions : List Action)
    (hopen : Database.openDatabase ⟨[], none⟩ pageSize = .ok db) (horderly : db.Orderly actions)
    (hroom : (actions.map Action.size).sum < 256 ^ 4)
    (hclean : CleanRun (actions.flatMap Action.undoneNames) db (actions.flatMap Action.kept)) :
    db.actionResults actions = db.results (actions.flatMap Action.kept) ∧
      (db.runActions actions).listTables =
        (db.executeAll (actions.flatMap Action.kept)).listTables ∧
      ∀ table, (db.runActions actions).tableRows table =
        (db.executeAll (actions.flatMap Action.kept)).tableRows table := by
  obtain ⟨head, body, ps, hintact⟩ := (alone_new hopen).intact
  obtain ⟨-, -, -, -, -, -, htx, -⟩ := openDatabase_new hopen
  obtain ⟨hcount, -, -⟩ := openDatabase_new_count hopen
  have hidle : db.tx.anyActive = false := by
    rw [htx]
    rfl
  obtain ⟨hresults, hend⟩ := actions_shows (hintact.lodged.shows _) hidle hidle actions horderly
    (by omega) (by omega) (fun _ hn => hn) hclean
  exact ⟨hresults, hend.tables, hend.tableRows⟩

/-- A block that fails after rows and a table, one that ends well, and the table again. -/
def blockActions : List Action :=
  [.statement (.createTable ⟨"t", [⟨"a", "INT", [.primaryKey]⟩], false⟩),
    .statement (.insert ⟨"t", none, [[.int 1]]⟩),
    .block [.insert ⟨"t", none, [[.int 2]]⟩, .createTable ⟨"u", [⟨"b", "INT", []⟩], false⟩,
      .insert ⟨"u", none, [[.int 5]]⟩, .delete ⟨"t", none⟩] true,
    .block [.insert ⟨"t", none, [[.int 3]]⟩] false,
    .statement (.createTable ⟨"u", [⟨"b", "TEXT", [.notNull]⟩], false⟩),
    .statement (.insert ⟨"u", none, [[.text "x"]]⟩)]

theorem blocks_are_transactions_twice :
    (Database.newDatabase []).actionResults blockActions =
      (Database.newDatabase []).results (blockActions.flatMap Action.kept) := by
  have hopen : Database.openDatabase ⟨[], none⟩ 512 = .ok (Database.newDatabase []) := by
    decide +kernel
  refine (blocks_are_transactions 512 _ blockActions hopen
    ⟨by decide, by decide, fun saved txId mid he => ?_, fun saved txId mid he => ?_, by decide,
      by decide, True.intro⟩ (by decide) (by decide +kernel)).1
  · obtain ⟨head, body, ps, hintact⟩ := (alone_executeAll (alone_new hopen)
      [.createTable ⟨"t", [⟨"a", "INT", [.primaryKey]⟩], false⟩,
        .insert ⟨"t", none, [[.int 1]]⟩]).intact
    obtain ⟨-, tx, hb, hmid⟩ := Connections.enterBlock_eq_ok.mp he
    have hfirst : (.ok (1, ⟨OrdDict.empty.set 1 ⟨1, true⟩, 2⟩) : Except PyErr (Nat × TxManager)) =
        .ok (txId, tx) := Eq.trans (by decide +kernel) hb
    cases hfirst
    refine leavesWhole_of_no_drop hintact.lodged he (by decide) ?_ ?_
    · rw [hmid]
      decide +kernel
    · rw [hmid]
      decide +kernel
  · obtain ⟨-, tx, hb, rfl⟩ := Connections.enterBlock_eq_ok.mp he
    have hsecond : (.ok (2, ⟨OrdDict.empty.set 2 ⟨2, true⟩, 3⟩) : Except PyErr (Nat × TxManager)) =
        .ok (txId, tx) := Eq.trans (by decide +kernel) hb
    cases hsecond
    exact ⟨by decide, by decide +kernel⟩

end TinyDB
