import TinyDB.InFile

/-!
# Blocks and what their rollback writes

`transaction()` saves the bodies of the pages that the connection counts, and a
rollback writes them back (`restoreBodies_spec`): whoever changed such a page in
between, the page has its old body again, and all other pages stay as they are.
-/

namespace TinyDB

open Lib FileStore

/-! ## Snapshots -/

/-- The body of page `i` when the saved bodies are written over it in order. -/
def restoredBody (saved : List (Nat × Bytes)) (i : Nat) (body : Bytes) : Bytes :=
  saved.foldl (fun body p => if p.1 = i then p.2 else body) body

theorem restoredBody_cases (saved : List (Nat × Bytes)) (i : Nat) (body : Bytes) :
    restoredBody saved i body = body ∨ ∃ p ∈ saved, p.1 = i ∧ restoredBody saved i body = p.2 := by
  induction saved generalizing body with
  | nil => exact Or.inl rfl
  | cons p saved ih =>
    have hcons : restoredBody (p :: saved) i body =
        restoredBody saved i (if p.1 = i then p.2 else body) := rfl
    rw [hcons]
    rcases ih (if p.1 = i then p.2 else body) with h | ⟨q, hq, hi, h⟩
    · rw [h]
      split
      · rename_i hp
        exact Or.inr ⟨p, List.mem_cons_self .., hp, rfl⟩
      · exact Or.inl rfl
    · exact Or.inr ⟨q, List.mem_cons_of_mem _ hq, hi, h⟩

variable {store store' : FileStore} {catalog : Catalog} {saved : List (Nat × Bytes)}

/-- The snapshot holds the body of each page it counts, once. -/
theorem snapshotPages_spec {n pid : Nat} (h : Database.snapshotPages store n pid = .ok saved) :
    (∀ p ∈ saved, ∃ page, store.readPage p.1 = .ok page ∧ p.2 = page.body) ∧
      (∀ i page, store.readPage i = .ok page → pid ≤ i → i < pid + n →
        ∀ body, restoredBody saved i body = page.body) ∧
      ∀ i, (i < pid ∨ pid + n ≤ i) → ∀ body, restoredBody saved i body = body := by
  induction n generalizing pid saved with
  | zero =>
    cases h
    exact ⟨by simp, fun i page _ h1 h2 => by omega, fun i _ body => rfl⟩
  | succ n ih =>
    simp only [Database.snapshotPages, bind_eq_ok, Except.ok.injEq] at h
    obtain ⟨page, hread, rest, hrest, rfl⟩ := h
    obtain ⟨hmem, hin, hout⟩ := ih hrest
    refine ⟨?_, ?_, ?_⟩
    · intro p hp
      rcases List.mem_cons.mp hp with rfl | hp
      · exact ⟨page, hread, rfl⟩
      · exact hmem p hp
    · intro i page' hr h1 h2 body
      change restoredBody rest i (if pid = i then page.body else body) = page'.body
      rcases Nat.eq_or_lt_of_le h1 with rfl | hlt
      · rw [hread, Except.ok.injEq] at hr
        rw [if_pos rfl, hout pid (Or.inl (by omega)), hr]
      · exact hin i page' hr (by omega) (by omega) _
    · intro i hi body
      change restoredBody rest i (if pid = i then page.body else body) = body
      rw [if_neg (by omega), hout i (by omega)]

/-- The snapshot can be taken when every page that is counted is there. -/
theorem snapshotPages_lt {n pid : Nat} (h : Database.snapshotPages store n pid = .ok saved) :
    n = 0 ∨ pid + n ≤ store.file.length := by
  induction n generalizing pid saved with
  | zero => exact Or.inl rfl
  | succ n ih =>
    simp only [Database.snapshotPages, bind_eq_ok, Except.ok.injEq] at h
    obtain ⟨page, hread, rest, hrest, rfl⟩ := h
    have := readPage_lt hread
    rcases ih hrest with rfl | hle
    · exact Or.inr (by omega)
    · exact Or.inr (by omega)

/-! ## Restoring -/

/-- What was saved goes on pages of the file. -/
structure Restorable (store : FileStore) (saved : List (Nat × Bytes)) : Prop where
  page : ∀ p ∈ saved, p.1 < store.file.length ∧ p.2.length ≤ store.bodySize
  header : ∀ p ∈ saved, p.1 = 0 → HeaderBody store.pageSize store.file.length p.2

theorem Restorable.grows (h : Restorable store saved) (hg : Grows store store') :
    Restorable store' saved := by
  have hb : store'.bodySize = store.bodySize := by simp only [bodySize, hg.pageSize]
  refine ⟨fun p hp => ⟨Nat.lt_of_lt_of_le (h.page p hp).1 hg.length, ?_⟩, fun p hp h0 => ?_⟩
  · rw [hb]
    exact (h.page p hp).2
  · rw [hg.pageSize]
    exact (h.header p hp h0).mono hg.length

theorem restorable_snapshot (h : InFile store catalog) {n : Nat}
    (hs : Database.snapshotPages store n 0 = .ok saved) : Restorable store saved := by
  obtain ⟨hmem, -, -⟩ := snapshotPages_spec hs
  refine ⟨fun p hp => ?_, fun p hp h0 => ?_⟩
  · obtain ⟨page, hr, hb⟩ := hmem p hp
    have hlt := readPage_lt hr
    exact ⟨hlt, by rw [hb]; exact h.readable.body_le hlt hr⟩
  · obtain ⟨page, hr, hb⟩ := hmem p hp
    obtain ⟨lsn, body, hr0, hbody⟩ := h.header
    rw [h0, hr0, Except.ok.injEq] at hr
    rw [hb, ← hr]
    exact hbody

/-- The pages after the saved bodies were written to them. -/
structure Restored (store store' : FileStore) (saved : List (Nat × Bytes)) : Prop where
  readable : store'.Readable
  pageSize : store'.pageSize = store.pageSize
  pageCount : store'.pageCount = store.pageCount
  freeHead : store'.freeHead = store.freeHead
  length : store'.file.length = store.file.length
  page : ∀ i page, store.readPage i = .ok page →
    store'.readPage i = .ok { page with body := restoredBody saved i page.body }

/-- **Restoring.** -/
theorem restoreBodies_spec (h : store.Readable) (hs : ∀ p ∈ saved, p.1 < store.file.length ∧
    p.2.length ≤ store.bodySize) :
    ∃ store', Database.restoreBodies store saved = (.ok (), store') ∧ Restored store store' saved := by
  induction saved generalizing store with
  | nil => exact ⟨store, rfl, h, rfl, rfl, rfl, rfl, fun i page hr => hr⟩
  | cons p saved ih =>
    obtain ⟨pid, body⟩ := p
    obtain ⟨hlt, hlen⟩ := hs (pid, body) (List.mem_cons_self ..)
    simp only at hlt hlen
    obtain ⟨page, hread, hid⟩ := h.page pid hlt
    have hbig := h.bodySize_lt.2
    obtain ⟨store1, hw⟩ := writePage_ok store { page with body := body }
      (readPage_bounds hread).1 (readPage_bounds hread).2 (by simp only; omega)
    have hone := writesOnly_writePage h hread hw
    have hback := readPage_writePage hw (by simp only [hid]; omega)
    have hb : store1.bodySize = store.bodySize := by simp only [bodySize, hone.same.pageSize]
    obtain ⟨store2, hrest, hr⟩ := ih hone.readable (fun p hp => by
      rw [hone.same.length, hb]
      exact hs p (List.mem_cons_of_mem _ hp))
    refine ⟨store2, by simp only [Database.restoreBodies, hread, hw, hrest], hr.readable,
      hr.pageSize.trans hone.same.pageSize, hr.pageCount.trans hone.same.pageCount,
      hr.freeHead.trans hone.same.freeHead, hr.length.trans hone.same.length, ?_⟩
    intro i page' hr'
    change store2.readPage i = .ok { page' with
      body := restoredBody saved i (if pid = i then body else page'.body) }
    by_cases hi : pid = i
    · subst hi
      rw [hread, Except.ok.injEq] at hr'
      subst hr'
      rw [hid] at hback
      have hpage := hback pid
      rw [if_pos rfl, List.take_of_length_le hlen] at hpage
      rw [hr.page pid _ hpage, if_pos rfl, ← hid]
    · have hpage : store1.readPage i = .ok page' := by
        rw [hone.same.readPage fun e => hi e.symm, hr']
      rw [hr.page i page' hpage, if_neg hi]

theorem Restored.inFile (hr : Restored store store' saved) (h : InFile store catalog)
    (hs : Restorable store saved) : InFile store' catalog ∧ Grows store store' := by
  refine ⟨⟨hr.readable, ?_, ?_, ?_⟩, hr.pageSize, Nat.le_of_eq hr.length.symm⟩
  · obtain ⟨lsn, body, hr0, hb⟩ := h.header
    refine ⟨lsn, _, hr.page 0 _ hr0, ?_⟩
    rw [hr.pageSize, hr.length]
    rcases restoredBody_cases saved 0 body with he | ⟨p, hp, h0, he⟩
    · rw [he]
      exact hb
    · rw [he]
      exact hs.header p hp h0
  · rw [hr.pageCount, hr.length]
    exact h.counted
  · rw [hr.length]
    exact h.roots

/-- A page that the snapshot counts has its old body again, any other page its present one. -/
theorem Restored.read_snapshot (hr : Restored store store' saved) {old : FileStore} {n i : Nat}
    (hs : Database.snapshotPages old n 0 = .ok saved) {page now : Page}
    (hold : old.readPage i = .ok page) (hnow : store.readPage i = .ok now) :
    store'.readPage i = .ok { now with body := if i < n then page.body else now.body } := by
  obtain ⟨-, hin, hout⟩ := snapshotPages_spec hs
  rw [hr.page i now hnow]
  split
  · rename_i hlt
    rw [hin i page hold (Nat.zero_le _) (by omega)]
  · rename_i hge
    rw [hout i (Or.inr (by omega))]

/-! ## Loading and opening -/

theorem load_inFile (h : InFile store catalog) {catalog' : Catalog}
    (hl : catalog.load store = .ok catalog') : InFile store catalog' := by
  obtain ⟨lsn, body, hr0, hb⟩ := h.header
  have hnot : ¬ store.pageCount < 1 := by have := h.counted.1; omega
  simp only [Catalog.load, hnot, ↓reduceIte, hr0, ok_bind, bind_eq_ok] at hl
  obtain ⟨loaded, hload, hl⟩ := hl
  cases loaded with
  | none =>
    cases hl
    exact h
  | some entries =>
    cases hl
    refine h.withCatalog fun e he => ?_
    obtain ⟨name, hm⟩ := OrdDict.mem_values.mp he
    have hmem := OrdDict.mem_of_get?_ofList ((OrdDict.get?_eq_some_iff _ _ _).mpr hm)
    obtain ⟨e', he', hpair⟩ := List.mem_map.mp hmem
    cases hpair
    exact hb.roots entries hload e he'

/-- A store on a file that is there counts its pages. -/
theorem openFile_eq {file : List Bytes} {pageSize : Nat} (hne : file ≠ [])
    (ho : openFile file pageSize = .ok store) :
    store.file = file ∧ store.pageSize = pageSize ∧ store.pageCount = file.length := by
  have hemp : file.isEmpty = false := List.isEmpty_eq_false_iff.mpr hne
  simp only [openFile, hemp] at ho
  split at ho
  · cases ho
  · simp only [Bool.false_eq_true, ↓reduceIte, bind_eq_ok] at ho
    obtain ⟨⟨pid, t, lsn, len⟩, -, ho⟩ := ho
    split at ho
    · cases ho
    · simp only [bind_eq_ok] at ho
      obtain ⟨size, -, head, -, ho⟩ := ho
      split at ho
      · cases ho
      · split at ho
        · cases ho
        · cases ho
          exact ⟨rfl, rfl, rfl⟩

/-- **Opening** a file that a connection left. -/
theorem openDatabase_inFile (h : InFile store catalog) {gaps : Prop} {bytes : Bytes}
    (hlog : EndLog gaps bytes) {db : Database}
    (ho : Database.openDatabase ⟨store.file, some bytes⟩ store.pageSize = .ok db) :
    InFile db.store db.catalog ∧ Grows store db.store ∧ db.walFile = bytes ∧
      db.wal = Wal.openLog bytes ∧ db.store.file = store.file := by
  simp only [Database.openDatabase, bind_eq_ok, Except.ok.injEq] at ho
  obtain ⟨store1, hopen, catalog1, hload, rfl⟩ := ho
  have hne : store.file ≠ [] := List.ne_nil_of_length_pos h.file_pos
  obtain ⟨hf, hps, hc⟩ := openFile_eq hne (openStore_endLog hlog hopen)
  have hin : InFile store1 Catalog.empty := by
    have hbase : InFile store Catalog.empty := h.withCatalog fun e he => by cases he
    have hmem := hbase.inMemory store1.freeHead h.file_pos (Nat.min_le_left _ _)
    have he : store1 = { store with freeHead := store1.freeHead, pageCount := store.file.length } := by
      cases store1
      simp only at hf hps hc
      subst hf hps hc
      rfl
    rw [he]
    exact hmem
  refine ⟨load_inFile hin hload, ⟨hps, ?_⟩, rfl, rfl, hf⟩
  rw [hf]

/-- **Closing.** An exception leaves the file as it is. -/
theorem close_inFile {db : Database} (h : InFile db.store db.catalog) :
    ∃ store', db.close = ⟨store'.file, some db.walFile⟩ ∧ InFile store' db.catalog ∧
      Grows db.store store' := by
  unfold Database.close
  cases hf : db.store.flushFreeHead with
  | error e => exact ⟨db.store, rfl, h, Grows.refl _⟩
  | ok store' =>
    refine ⟨store', rfl, ?_⟩
    obtain ⟨head, body, hh, hb⟩ := h.toHeader
    have hs := sound_counted h
    let counted : FileStore := { db.store with pageCount := db.store.file.length }
    have hlt : db.store.freeHead < 256 ^ 4 := by
      simp only [FileStore.flushFreeHead, packMeta, bind_eq_ok, packUint_eq_ok] at hf
      obtain ⟨-, -, -, ⟨-, -, -, ⟨hlt, -⟩, -⟩, -⟩ := hf
      exact hlt
    have hh1 : Header counted head body := hh.congr rfl rfl
    obtain ⟨store1, body1, hf1, hh2, hs2, hsame, hload⟩ :=
      flushFreeHead_spec hh1 hs h.file_pos hlt
    have hst : store1 = { store' with pageCount := db.store.file.length } := by
      have hread : counted.readPage 0 = db.store.readPage 0 := rfl
      simp only [FileStore.flushFreeHead, bind_eq_ok, Except.ok.injEq] at hf hf1
      obtain ⟨page, hp, bytes, hm, headRaw, hhead, rfl⟩ := hf
      obtain ⟨page', hp', bytes', hm', headRaw', hhead', rfl⟩ := hf1
      rw [hread, hp, Except.ok.injEq] at hp'
      subst hp'
      simp only [counted] at hm'
      rw [hm, Except.ok.injEq] at hm'
      subst hm'
      rw [hhead, Except.ok.injEq] at hhead'
      subst hhead'
      rfl
    subst hst
    have hps : store'.pageSize = db.store.pageSize := hsame.pageSize
    have hlen : store'.file.length = db.store.file.length := hsame.length
    obtain ⟨lsn, hread⟩ := hh2.read
    obtain ⟨rest, hfields⟩ := hh2.fields
    refine ⟨⟨hs2.toReadable.congr rfl rfl, ⟨lsn, body1, hread, ⟨⟨_, rest, hh2.head_lt, hfields⟩, ?_⟩⟩,
      ?_, ?_⟩, hps, Nat.le_of_eq hlen.symm⟩
    · rw [hload, hlen]
      exact hb.roots
    · have hcount : store'.pageCount = db.store.pageCount := by
        simp only [FileStore.flushFreeHead, bind_eq_ok, Except.ok.injEq] at hf
        obtain ⟨page, -, bytes, -, headRaw, -, rfl⟩ := hf
        rfl
      rw [hcount, hlen]
      exact h.counted
    · rw [hlen]
      exact h.roots

/-- The header page is all that a new file has. -/
theorem openDatabase_new_count {pageSize : Nat} {db : Database}
    (h : Database.openDatabase ⟨[], none⟩ pageSize = .ok db) :
    db.store.pageCount = 1 ∧ db.store.file.length = 1 ∧ db.store.freeHead = 0 := by
  simp only [Database.openDatabase, openStore, replayWal, bind_eq_ok, Except.ok.injEq] at h
  obtain ⟨_, ⟨store, hopen, rfl⟩, catalog, -, rfl⟩ := h
  simp only [openFile] at hopen
  split at hopen
  · cases hopen
  · simp only [List.isEmpty_nil, ↓reduceIte, bind_eq_ok, Except.ok.injEq] at hopen
    obtain ⟨headerBody, -, head, -, rfl⟩ := hopen
    exact ⟨rfl, rfl, rfl⟩

theorem fits_empty (h : store.Readable) : Catalog.empty.Fits store := by
  have hsize := h.size.1
  refine ⟨22, by decide, ?_⟩
  simp only [pageSizeMin] at hsize
  simp only [bodySize, fileHeaderSize]
  omega

theorem openDatabase_new_inFile {pageSize : Nat} {db : Database}
    (h : Database.openDatabase ⟨[], none⟩ pageSize = .ok db) :
    InFile db.store db.catalog ∧ db.walFile = [] ∧ db.wal = Wal.openLog [] ∧
      db.store.pageSize = pageSize := by
  obtain ⟨body, hin, hps, hcat, hwal, hlog, -, -⟩ := openDatabase_new h
  obtain ⟨lsn, hread⟩ := hin.header.read
  obtain ⟨rest, hfields⟩ := hin.header.fields
  have hcount := hin.sound.count
  have hfits : db.catalog.Fits db.store := by
    rw [hcat]
    exact fits_empty hin.sound.toReadable
  refine ⟨⟨hin.sound.toReadable, ⟨lsn, body, hread, ⟨⟨0, rest, hin.header.head_lt, hfields⟩, ?_⟩⟩,
    ⟨hin.pageCount_pos, by omega⟩, ?_⟩, hwal, hlog, hps⟩
  · intro entries hl
    rcases hin.held hfits with hs | ⟨hs, -⟩
    · rw [hs, hcat, Except.ok.injEq, Option.some.injEq] at hl
      rw [← hl]
      intro e he
      cases he
    · rw [hs] at hl
      cases hl
  · rw [hcat]
    intro e he
    cases he

end TinyDB
