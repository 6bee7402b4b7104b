import TinyDB.Statements

/-!
# Closing, killing and opening

What a new connection finds. `openDatabase_new`: a new file owns nothing.
`flushFreeHead_intact` and `openDatabase_intact`: closing writes the head of the free
list into the header page, and opening a file whose header holds the catalog
gives the same catalog over the same pages. After a kill the stored head may be
an old one; pages in front of it are then lost to the list.
-/

namespace TinyDB

open Lib FileStore

/-- The log has no record that replay would write back. -/
def Harmless (wal : Option Bytes) : Prop := ∀ store, replayWal wal store = (.ok (), store)

theorem harmless_none : Harmless none := fun _ => rfl

theorem harmless_nil : Harmless (some []) := fun _ => rfl

/-! ## A new file -/

/-- The file of one header page. -/
theorem openFile_nil {pageSize : Nat} {store : FileStore}
    (h : openFile [] pageSize = .ok store) : ∃ body, Header store 0 body ∧ store.Sound ∧
      Catalog.loadBody body = .ok none ∧ store.freeHead = 0 ∧ store.pageSize = pageSize := by
  simp only [openFile] at h
  split at h
  · cases h
  rename_i hsize
  rw [not_not] at hsize
  simp only [List.isEmpty_nil, ↓reduceIte, packMeta, bind_eq_ok, packUint_eq_ok,
    Except.ok.injEq] at h
  obtain ⟨_, ⟨_, ⟨hps, rfl⟩, _, ⟨h0, rfl⟩, rfl⟩, headRaw, hhead, rfl⟩ := h
  have hbody : fileHeaderMagic ++ (leBytes 4 pageSize ++ leBytes 4 0) = metaBytes pageSize 0 := rfl
  rw [hbody] at hhead ⊢
  let empty : FileStore := ⟨[], pageSize, 1, 0⟩
  have hread : empty.Readable := ⟨hsize, by simp [empty], by simp [empty]⟩
  have hw : empty.writePage ⟨0, .header, 0, metaBytes pageSize 0⟩ =
      .ok ⟨[headRaw ++ padBody (metaBytes pageSize 0) pageSize], pageSize, 1, 0⟩ :=
    writePage_eq_ok.mpr ⟨headRaw, hhead, rfl⟩
  have hr := hread.write ⟨0, .header, 0, metaBytes pageSize 0⟩ (Nat.le_refl _) hw
  have hback := readPage_writePage hw (Nat.zero_le _) 0
  have hbig := hread.bodySize_lt.1
  rw [if_pos rfl] at hback
  simp only [List.take_of_length_le (show (metaBytes pageSize 0).length ≤ empty.bodySize by
    rw [metaBytes_length]; omega)] at hback
  refine ⟨metaBytes pageSize 0, ⟨⟨0, hback⟩, ⟨[], (List.append_nil _).symm⟩, h0⟩, ⟨hr, by simp⟩, ?_,
    rfl, rfl⟩
  have hnone : slice (metaBytes pageSize 0) 16 20 = [] := by
    rw [slice, List.drop_of_length_le (by rw [metaBytes_length])]
    rfl
  simp only [Catalog.loadBody, catalogOffset, metaBytes_length, Nat.lt_irrefl, ↓reduceIte, hnone]
  rfl

/-- **A database on a new file.** -/
theorem openDatabase_new {pageSize : Nat} {db : Database}
    (h : Database.openDatabase ⟨[], none⟩ pageSize = .ok db) :
    ∃ body, Intact db.store db.catalog 0 body [] ∧ db.store.pageSize = pageSize ∧
      db.catalog = Catalog.empty ∧ db.walFile = [] ∧ db.wal = Wal.openLog [] ∧
      db.tx = TxManager.new ∧ db.constraints = OrdDict.empty := by
  simp only [Database.openDatabase, openStore, replayWal, bind_eq_ok, Except.ok.injEq] at h
  obtain ⟨_, ⟨store, hopen, rfl⟩, catalog, hload, rfl⟩ := h
  obtain ⟨body, hh, hs, hnone, hfree, hps⟩ := openFile_nil hopen
  have hpos := hh.file_pos
  have hcount : 0 < store.pageCount := by have := hs.count; omega
  rw [load_spec Catalog.empty hh hcount hnone, Except.ok.injEq] at hload
  subst hload
  refine ⟨body, ⟨hs, hh, ⟨hfree, List.nodup_nil, by simp⟩, ⟨?_, ?_, ?_, Or.inl rfl⟩,
    fun _ => Or.inr ⟨hnone, rfl⟩⟩, hps, rfl, rfl, rfl, rfl, rfl⟩
  · intro e he
    cases he
  · exact List.nodup_nil
  · intro e he
    cases he

/-! ## An old file -/

section

variable {store : FileStore} {catalog : Catalog} {head : Nat} {body : Bytes} {ps : List Nat}

theorem Intact.freeHead (h : Intact store catalog head body ps) :
    store.freeHead = 0 ∨ store.freeHead ∈ ps := by
  have hc := h.free.chain
  cases ps with
  | nil => exact Or.inl hc
  | cons p ps => exact Or.inr (by rw [hc.1]; exact List.mem_cons_self ..)

theorem Intact.freeHead_lt (h : Intact store catalog head body ps) : store.freeHead < 256 ^ 4 := by
  rcases h.freeHead with h0 | hm
  · rw [h0]; decide
  · exact h.sound.id_lt (h.free.mem hm).2

theorem Intact.pageCount_pos (h : Intact store catalog head body ps) : 0 < store.pageCount := by
  have hpos := h.header.file_pos
  have := h.sound.count
  omega

/-- The fields of the store that a process keeps in memory. -/
theorem intact_inMemory (h : Intact store catalog head body ps) {ps' : List Nat} {n : Nat}
    (hfree : FreeList { store with freeHead := n } ps') (hsub : ∀ p ∈ ps', p ∈ ps)
    (hanchor : head = 0 ∨ head ∈ ps') :
    Intact { store with freeHead := n, pageCount := store.file.length } catalog head body ps' where
  sound := ⟨h.sound.toReadable.congr rfl rfl, by
    have := h.sound.count
    simp only
    omega⟩
  header := h.header.congr rfl rfl
  free := hfree.congr (Nat.le_refl _) rfl fun _ _ => rfl
  owns := ⟨h.owns.named, h.owns.roots, fun e he =>
    ⟨(h.owns.root e he).1, (h.owns.root e he).2.1, fun hm => (h.owns.root e he).2.2 (hsub _ hm)⟩,
    hanchor.imp_right Or.inl⟩
  held := h.held

/-- The list from the stored head on. -/
theorem Intact.freeList_from (h : Intact store catalog head body ps)
    (hhead : head = 0 ∨ head ∈ ps) : ∃ ps', FreeList { store with freeHead := head } ps' ∧
      (∀ p ∈ ps', p ∈ ps) ∧ (head = 0 ∨ head ∈ ps') ∧ (head = store.freeHead → ps' = ps) := by
  by_cases he : head = store.freeHead
  · subst he
    exact ⟨ps, h.free, fun p hp => hp, h.freeHead, fun _ => rfl⟩
  · rcases hhead with h0 | hm
    · exact ⟨[], ⟨h0, List.nodup_nil, by simp⟩, by simp, Or.inl h0, fun e => absurd e he⟩
    · obtain ⟨a, b, rfl⟩ := List.append_of_mem hm
      refine ⟨head :: b, ⟨FreeChain.congr h.free.chain.suffix (Nat.le_refl _) fun _ _ => rfl, ?_, ?_⟩,
        fun p hp => List.mem_append_right _ hp, Or.inr (List.mem_cons_self ..),
        fun e => absurd e he⟩
      · exact h.free.nodup.sublist (List.sublist_append_right a (head :: b))
      · exact fun p hp => h.free.linked p (List.mem_append_right _ hp)

/-- The store after opening its file. -/
def opened (store : FileStore) (head : Nat) : FileStore :=
  { store with freeHead := head, pageCount := store.file.length }

theorem openStore_spec (h : Intact store catalog head body ps) {wal : Option Bytes}
    (hwal : Harmless wal) : openStore store.file wal store.pageSize = .ok (opened store head) := by
  simp only [openStore, openFile_spec h.header h.sound h.header.file_pos, ok_bind, hwal _]
  rfl

/-- Loading from a file whose header page holds the catalog. -/
theorem load_stored (h : Intact store catalog head body ps) (hpos : 0 < store.pageCount)
    (hstored : catalog.StoredIn body) : Catalog.empty.load store = .ok catalog := by
  rcases hstored with hl | ⟨hl, he⟩
  · rw [load_spec Catalog.empty h.header hpos hl]
    exact congrArg Except.ok (congrArg Catalog.mk h.owns.entries_eq)
  · rw [load_spec Catalog.empty h.header hpos hl]
    exact congrArg Except.ok (congrArg Catalog.mk (OrdDict.ext he.symm))

/-- **Opening** a file whose header page holds the catalog. -/
theorem openDatabase_intact (h : Intact store catalog head body ps)
    (hstored : catalog.StoredIn body) (hhead : head = 0 ∨ head ∈ ps) {wal : Option Bytes}
    (hwal : Harmless wal) :
    ∃ db ps', Database.openDatabase ⟨store.file, wal⟩ store.pageSize = .ok db ∧
      db.store = opened store head ∧
      db.catalog = catalog ∧ db.walFile = wal.getD [] ∧ db.wal = Wal.openLog (wal.getD []) ∧
      db.tx = TxManager.new ∧ db.constraints = OrdDict.empty ∧
      Intact db.store db.catalog head body ps' ∧ (∀ p ∈ ps', p ∈ ps) ∧
      (head = store.freeHead → ps' = ps) := by
  obtain ⟨ps', hfree, hsub, hanchor, hsame⟩ := h.freeList_from hhead
  have hin : Intact (opened store head) catalog head body ps' :=
    intact_inMemory h hfree hsub hanchor
  have hload := load_stored hin hin.pageCount_pos hstored
  refine ⟨⟨opened store head, wal.getD [], Wal.openLog (wal.getD []), TxManager.new, catalog,
    OrdDict.empty⟩, ps', ?_, rfl, rfl, rfl, rfl, rfl, rfl, hin, hsub, hsame⟩
  simp only [Database.openDatabase, openStore_spec h hwal, ok_bind, hload]

/-- **Closing** writes the head of the free list into the header page. -/
theorem flushFreeHead_intact (h : Intact store catalog head body ps) :
    ∃ store' body', store.flushFreeHead = .ok store' ∧
      Intact store' catalog store.freeHead body' ps ∧ SameExcept 0 store store' ∧
      Catalog.loadBody body' = Catalog.loadBody body := by
  obtain ⟨store', body', hf, hh, hs, hsame, hload⟩ :=
    flushFreeHead_spec h.header h.sound h.header.file_pos h.freeHead_lt
  have hb : store'.bodySize = store.bodySize := by simp only [bodySize, hsame.pageSize]
  refine ⟨store', body', hf, ⟨hs, hh, ?_, ?_, ?_⟩, hsame, hload⟩
  · exact h.free.congr (Nat.le_of_eq hsame.length.symm) hsame.freeHead fun p hp =>
      hsame.rawRead p (h.free.mem hp).1
  · rw [hsame.length]
    exact ⟨h.owns.named, h.owns.roots, h.owns.root, h.freeHead.imp_right Or.inl⟩
  · simp only [Catalog.Fits, hb, Catalog.StoredIn, hload]
    exact h.held

theorem close_eq {db : Database} {store' : FileStore} (hf : db.store.flushFreeHead = .ok store') :
    db.close = ⟨store'.file, some db.walFile⟩ := by
  simp only [Database.close, hf]

/-- Closing and opening again. -/
theorem reopen_intact {db : Database} (h : Intact db.store db.catalog head body ps)
    (hstored : db.catalog.StoredIn body) (hwal : Harmless (some db.walFile)) :
    ∃ db' body', Database.openDatabase db.close db.store.pageSize = .ok db' ∧
      Intact db'.store db'.catalog db.store.freeHead body' ps ∧
      SameExcept 0 { db.store with pageCount := db.store.file.length } db'.store ∧
      db'.catalog = db.catalog ∧ db'.walFile = db.walFile ∧ db'.wal = Wal.openLog db.walFile ∧
      db'.tx = TxManager.new ∧ db'.constraints = OrdDict.empty ∧
      Catalog.loadBody body' = Catalog.loadBody body := by
  obtain ⟨store', body', hf, hin, hsame, hload⟩ := flushFreeHead_intact h
  obtain ⟨db', ps', hopen, hst, hcat, hfile, hlog, htx, hcon, hin', -, hps⟩ :=
    openDatabase_intact hin (by rw [Catalog.StoredIn, hload]; exact hstored) h.freeHead hwal
  have hps' : ps' = ps := hps hsame.freeHead.symm
  subst hps'
  refine ⟨db', body', by rw [close_eq hf, ← hsame.pageSize]; exact hopen, hin', ?_, hcat, hfile, hlog, htx,
    hcon, hload⟩
  rw [hst]
  exact ⟨hsame.pageSize, hsame.length, rfl, hsame.length, hsame.rawRead⟩

end

end TinyDB
