import TinyDB.CatalogCut
import TinyDB.Database

/-!
# Which page belongs to whom

`Intact`: page 0 is the header page, every table of the catalog in memory has a
root page of its own, and no root is on the free list. Every statement keeps
this on one connection, also one that raises in the middle (`execute_intact`),
and leaves the page of every table it does not name as it is (`execute_frame`).
The header page holds the catalog as long as the catalog fits it.
-/

namespace TinyDB

open Lib FileStore

/-! ## The invariant -/

/-- The catalog fits the header page. -/
def Catalog.Fits (catalog : Catalog) (store : FileStore) : Prop :=
  ∃ n, catalog.size = .ok n ∧ n ≤ store.bodySize

instance (catalog : Catalog) (store : FileStore) : Decidable (catalog.Fits store) :=
  match h : catalog.size with
  | .ok n => decidable_of_iff (n ≤ store.bodySize) (by simp [Catalog.Fits, h])
  | .error _ => isFalse (by simp [Catalog.Fits, h])

/-- Loading the header body gives the catalog; an empty one need not be there. -/
def Catalog.StoredIn (catalog : Catalog) (body : Bytes) : Prop :=
  Catalog.loadBody body = .ok (some catalog.entries.values) ∨
    (Catalog.loadBody body = .ok none ∧ catalog.entries.entries = [])

/-- The tables of the catalog have pages of their own, below `pages` and not free. -/
structure Owns (catalog : Catalog) (pages head : Nat) (ps : List Nat) : Prop where
  named : ∀ e ∈ catalog.entries.entries, e.2.name = e.1 ∧ e.2.stored = e.2
  roots : (catalog.entries.values.map TableMeta.rootPageId).Nodup
  root : ∀ e ∈ catalog.entries.values,
    e.rootPageId ≠ 0 ∧ e.rootPageId < pages ∧ e.rootPageId ∉ ps
  /-- The stored head of the free list is still a page of the list, unless a table took it. -/
  anchor : head = 0 ∨ head ∈ ps ∨ ∃ e ∈ catalog.entries.values, e.rootPageId = head

structure Intact (store : FileStore) (catalog : Catalog) (head : Nat) (body : Bytes)
    (ps : List Nat) : Prop where
  sound : store.Sound
  header : Header store head body
  free : FreeList store ps
  owns : Owns catalog store.file.length head ps
  held : catalog.Fits store → catalog.StoredIn body

/-! ## Entries and their pages -/

section

variable {catalog : Catalog} {pages head : Nat} {ps : List Nat}

theorem getTable_eq_ok {name : String} {entry : TableMeta} :
    catalog.getTable name = .ok entry ↔ catalog.entries.get? name = some entry := by
  unfold Catalog.getTable
  cases catalog.entries.get? name <;> simp

theorem Owns.mem_values (h : Owns catalog pages head ps) {name : String} {entry : TableMeta}
    (hg : catalog.entries.get? name = some entry) :
    entry ∈ catalog.entries.values ∧ entry.name = name ∧ entry.stored = entry := by
  have hm := (OrdDict.get?_eq_some_iff _ _ _).mp hg
  exact ⟨OrdDict.mem_values.mpr ⟨name, hm⟩, h.named _ hm⟩

/-- No two tables share a root page. -/
theorem Owns.root_inj (h : Owns catalog pages head ps) {name name' : String}
    {entry entry' : TableMeta} (hg : catalog.entries.get? name = some entry)
    (hg' : catalog.entries.get? name' = some entry') (hr : entry.rootPageId = entry'.rootPageId) :
    name = name' := by
  obtain ⟨hm, hn, -⟩ := h.mem_values hg
  obtain ⟨hm', hn', -⟩ := h.mem_values hg'
  have he : entry = entry' := List.inj_on_of_nodup_map h.roots hm hm' hr
  rw [← hn, ← hn', he]

/-- The entries are what a reload builds from the values. -/
theorem Owns.entries_eq (h : Owns catalog pages head ps) :
    OrdDict.ofList (catalog.entries.values.map fun e => (e.name, e)) = catalog.entries := by
  have hmap : catalog.entries.values.map (fun e => (e.name, e)) = catalog.entries.entries := by
    rw [OrdDict.values, List.map_map]
    refine (List.map_congr_left fun e he => ?_).trans (List.map_id _)
    simp [(h.named e he).1]
  refine OrdDict.ext ?_
  rw [hmap, OrdDict.ofList_entries _ catalog.entries.nodup]

/-- The values are as the codec stores them. -/
theorem Owns.map_stored (h : Owns catalog pages head ps) :
    catalog.entries.values.map TableMeta.stored = catalog.entries.values := by
  rw [OrdDict.values, List.map_map]
  exact List.map_congr_left fun e he => (h.named e he).2

/-- A table on a page that no table has. -/
theorem Owns.add (h : Owns catalog pages head ps) {name : String} (columns : Schema)
    {pid pages' : Nat} (hnew : catalog.entries.get? name = none) (hpos : pid ≠ 0)
    (hlt : pid < pages') (hgrow : pages ≤ pages') (hn : ps.Nodup)
    (hplace : (∃ rest, ps = pid :: rest) ∨ (ps = [] ∧ pid = pages)) :
    Owns ⟨catalog.entries.set name { name, rootPageId := pid, schema := columns }⟩ pages' head
      (ps.drop 1) := by
  have hnotroot : ∀ e ∈ catalog.entries.values, e.rootPageId ≠ pid := by
    intro e he hr
    obtain ⟨-, hb, hfr⟩ := h.root e he
    rcases hplace with ⟨rest, rfl⟩ | ⟨-, hp⟩
    · exact hfr (by rw [hr]; exact List.mem_cons_self ..)
    · omega
  have hvals := OrdDict.set_new_values catalog.entries name
    { name, rootPageId := pid, schema := columns } hnew
  refine ⟨?_, ?_, ?_, ?_⟩
  · intro e he
    rw [OrdDict.mem_set_new _ _ _ hnew] at he
    rcases he with he | rfl
    · exact h.named e he
    · exact ⟨rfl, rfl⟩
  · rw [hvals, List.map_append, List.nodup_append]
    refine ⟨h.roots, List.nodup_singleton _, ?_⟩
    intro a ha b hb
    obtain ⟨e, he, rfl⟩ := List.mem_map.mp ha
    rw [List.map_singleton, List.mem_singleton] at hb
    rw [hb]
    exact hnotroot e he
  · intro e he
    rw [hvals, List.mem_append, List.mem_singleton] at he
    rcases he with he | rfl
    · obtain ⟨h0, hb, hfr⟩ := h.root e he
      exact ⟨h0, Nat.lt_of_lt_of_le hb hgrow, fun hm => hfr (List.mem_of_mem_drop hm)⟩
    · refine ⟨hpos, hlt, ?_⟩
      rcases hplace with ⟨rest, rfl⟩ | ⟨rfl, -⟩
      · exact (List.nodup_cons.mp hn).1
      · exact List.not_mem_nil
  · rw [hvals]
    rcases h.anchor with h0 | hm | ⟨e, he, hr⟩
    · exact Or.inl h0
    · rcases hplace with ⟨rest, rfl⟩ | ⟨rfl, -⟩
      · rcases List.mem_cons.mp hm with rfl | hm
        · exact Or.inr (Or.inr ⟨_, List.mem_append_right _ (List.mem_singleton_self _), rfl⟩)
        · exact Or.inr (Or.inl hm)
      · cases hm
    · exact Or.inr (Or.inr ⟨e, List.mem_append_left _ he, hr⟩)

/-- A table gone, its page free. -/
theorem Owns.drop (h : Owns catalog pages head ps) {name : String} {entry : TableMeta}
    (hg : catalog.entries.get? name = some entry) :
    Owns ⟨catalog.entries.erase name⟩ pages head (entry.rootPageId :: ps) := by
  have hsub : (catalog.entries.erase name).values.Sublist catalog.entries.values :=
    (OrdDict.remove_sublist name catalog.entries.entries).map Prod.snd
  have hother : ∀ e ∈ (catalog.entries.erase name).values, e.rootPageId ≠ entry.rootPageId := by
    intro e he hr
    obtain ⟨k, hk⟩ := OrdDict.mem_values.mp he
    rw [OrdDict.mem_erase] at hk
    exact hk.1 (h.root_inj ((OrdDict.get?_eq_some_iff _ _ _).mpr hk.2) hg hr)
  refine ⟨?_, h.roots.sublist (hsub.map _), ?_, ?_⟩
  · intro e he
    rw [OrdDict.mem_erase] at he
    exact h.named e he.2
  · intro e he
    obtain ⟨h0, hb, hfr⟩ := h.root e (hsub.subset he)
    refine ⟨h0, hb, ?_⟩
    rw [List.mem_cons, not_or]
    exact ⟨hother e he, hfr⟩
  · rcases h.anchor with h0 | hm | ⟨e, he, hr⟩
    · exact Or.inl h0
    · exact Or.inr (Or.inl (List.mem_cons_of_mem _ hm))
    · obtain ⟨k, hk⟩ := OrdDict.mem_values.mp he
      by_cases hkn : k = name
      · refine Or.inr (Or.inl ?_)
        rw [hkn, ← OrdDict.get?_eq_some_iff, hg, Option.some.injEq] at hk
        rw [← hr, hk]
        exact List.mem_cons_self ..
      · exact Or.inr (Or.inr ⟨e, OrdDict.mem_values.mpr ⟨k,
          (OrdDict.mem_erase _ _ _).mpr ⟨hkn, hk⟩⟩, hr⟩)

end

/-! ## Writes -/

section

variable {store store' : FileStore} {catalog : Catalog} {head : Nat} {body : Bytes} {ps : List Nat}

theorem Header.file_pos (h : Header store head body) : 0 < store.file.length := by
  obtain ⟨lsn, hread⟩ := h.read
  exact readPage_lt hread

theorem sameExcept_sound {pid : Nat} (h : store.Sound) (hs : SameExcept pid store store')
    (hr : store'.Readable) : store'.Sound :=
  ⟨hr, by rw [hs.length, hs.pageCount, h.count]⟩

/-- A write to a page that is neither the header nor free. -/
theorem Intact.sameExcept (h : Intact store catalog head body ps) {pid : Nat}
    (hs : SameExcept pid store store') (hr : store'.Readable) (h0 : pid ≠ 0) (hp : pid ∉ ps) :
    Intact store' catalog head body ps where
  sound := sameExcept_sound h.sound hs hr
  header := h.header.congr hs.pageSize (hs.rawRead 0 fun e => h0 e.symm)
  free := h.free.congr (Nat.le_of_eq hs.length.symm) hs.freeHead fun p hm =>
    hs.rawRead p fun e => hp (e ▸ hm)
  owns := by
    rw [hs.length]
    exact h.owns
  held := by
    have hb : store'.bodySize = store.bodySize := by simp only [bodySize, hs.pageSize]
    simp only [Catalog.Fits, hb]
    exact h.held

/-! ## CREATE TABLE -/

/-- The catalog can be written to a page, though what does not fit is cut off. -/
def Catalog.Writable (catalog : Catalog) : Prop := ∃ n, catalog.size = .ok n ∧ n < 256 ^ 2

/-- What a flush that went through left: a catalog that fits loads again, any other raises. -/
structure Flushed (store : FileStore) (catalog : Catalog) (body : Bytes) : Prop where
  writable : catalog.Writable
  fits : catalog.Fits store → catalog.StoredIn body
  cut : ¬ catalog.Fits store → ∃ e, Catalog.loadBody body = .error e

theorem Flushed.congr (h : Flushed store catalog body) (hs : store'.pageSize = store.pageSize) :
    Flushed store' catalog body := by
  have hb : store'.bodySize = store.bodySize := by simp only [bodySize, hs]
  refine ⟨h.writable, ?_, ?_⟩
  · simp only [Catalog.Fits, hb]
    exact h.fits
  · simp only [Catalog.Fits, hb]
    exact h.cut

theorem Catalog.Fits.writable (h : catalog.Fits store) (hs : store.Readable) :
    catalog.Writable := by
  obtain ⟨n, hn, hle⟩ := h
  exact ⟨n, hn, Nat.lt_of_le_of_lt hle hs.bodySize_lt.2⟩

/-- The catalog is written if it is writable, else the header page stays as it was. -/
theorem flush_cases (hh : Header store head body) (hs : store.Sound)
    (hstored : catalog.entries.values.map TableMeta.stored = catalog.entries.values) :
    (∃ store' body', catalog.flush store = .ok store' ∧ Header store' head body' ∧ store'.Sound ∧
      SameExcept 0 store store' ∧ Flushed store catalog body') ∨
    ((∃ e, catalog.flush store = .error e) ∧ ¬ catalog.Writable) := by
  cases he : encodeCatalog catalog.entries.values with
  | error e =>
    refine Or.inr ⟨⟨e, by simp only [Catalog.flush, he, error_bind]⟩, ?_⟩
    rintro ⟨n, hok, -⟩
    simp only [Catalog.size, he, error_bind, reduceCtorEq] at hok
  | ok raw =>
    have hsize : catalog.size = .ok (catalogOffset + 4 + raw.length) := by
      simp only [Catalog.size, he, ok_bind]
    have hbig := hs.bodySize_lt.2
    rcases Nat.lt_or_ge (catalogOffset + 4 + raw.length) (256 ^ 2) with hlt | hge
    · obtain ⟨store', tail, hf, hh', hs', hsame⟩ := flush_spec catalog hh hs hh.file_pos he hlt
      refine Or.inl ⟨store', _, hf, hh', hs', hsame, ⟨_, hsize, hlt⟩, ?_, ?_⟩
      · rintro ⟨n, hok, hle⟩
        rw [hsize, Except.ok.injEq] at hok
        subst hok
        exact Or.inl (by rw [loadBody_fits hs he hle, hstored])
      · intro hfit
        refine loadBody_cut hs he ?_ (by omega) head tail
        by_contra hle
        exact hfit ⟨_, hsize, Nat.le_of_not_lt hle⟩
    · refine Or.inr ⟨⟨_, flush_large catalog hh he hge⟩, ?_⟩
      rintro ⟨n, hok, hle⟩
      rw [hsize, Except.ok.injEq] at hok
      omega

/-- What CREATE TABLE leaves when it gets a page: it is on no page of another table. -/
structure Created (store store' : FileStore) (catalog : Catalog) (name : String)
    (columns : Schema) (ps : List Nat) (pid : Nat) (body body' : Bytes)
    (result : Except PyErr Unit) : Prop where
  read : store'.readPage pid = .ok ⟨pid, .table, 0, []⟩
  pos : pid ≠ 0
  place : (∃ rest, ps = pid :: rest ∧ store'.pageCount = store.pageCount) ∨
    (ps = [] ∧ pid = store.pageCount ∧ pid = store.file.length ∧
      store'.pageCount = store.pageCount + 1)
  pageSize : store'.pageSize = store.pageSize
  grows : store.file.length ≤ store'.file.length
  frame : ∀ i, i ≠ 0 → i ≠ pid → store'.rawRead i = store.rawRead i
  new : catalog.entries.get? name = none
  written : result.isOk = true →
    Flushed store ⟨catalog.entries.set name { name, rootPageId := pid, schema := columns }⟩ body'
  refused : result.isOk = false → body' = body ∧
    ¬ Catalog.Writable ⟨catalog.entries.set name { name, rootPageId := pid, schema := columns }⟩

theorem createTable_cases (h : Intact store catalog head body ps) (name : String)
    (columns : Schema) :
    (catalog.entries.contains name = true ∧
      ∃ e, catalog.createTable store name columns = (.error e, catalog, store)) ∨
    (ps = [] ∧ 256 ^ 4 ≤ store.pageCount ∧ ∃ e, catalog.createTable store name columns =
      (.error e, catalog, { store with pageCount := store.pageCount + 1 })) ∨
    (∃ pid store' body' result, catalog.createTable store name columns =
        (result, ⟨catalog.entries.set name { name, rootPageId := pid, schema := columns }⟩, store') ∧
      Created store store' catalog name columns ps pid body body' result ∧
      Intact store' ⟨catalog.entries.set name { name, rootPageId := pid, schema := columns }⟩ head
        body' (ps.drop 1)) := by
  cases hc : catalog.entries.contains name with
  | true =>
    refine Or.inl ⟨rfl, ?_⟩
    simp only [Catalog.createTable, hc, ↓reduceIte]
    exact ⟨_, rfl⟩
  | false =>
    refine Or.inr ?_
    have hnew : catalog.entries.get? name = none := by
      simpa [OrdDict.contains] using hc
    rcases allocPage_spec h.sound .table h.free h.header.file_pos with
      ⟨pid, store1, halloc, hal, hfree, hplace⟩ | ⟨hps, hmax, e, halloc⟩
    · refine Or.inr ?_
      have hplace' : (∃ rest, ps = pid :: rest ∧ store1.pageCount = store.pageCount) ∨
          (ps = [] ∧ pid = store.pageCount ∧ pid = store.file.length ∧
            store1.pageCount = store.pageCount + 1) := by
        rcases hplace with hp | ⟨hp, hpid, hcount⟩
        · exact Or.inl hp
        · refine Or.inr ⟨hp, hpid, ?_, hcount⟩
          have hlt := hal.sound.id_lt hal.lt
          rw [h.sound.count, ← hpid]
          omega
      have howns := h.owns.add columns hnew hal.pos hal.lt hal.grows h.free.nodup
        (hplace'.imp (fun hp => hp.imp fun _ hrest => hrest.1) fun hp => ⟨hp.1, hp.2.2.1⟩)
      have hh1 : Header store1 head body :=
        h.header.congr hal.pageSize (hal.frame 0 fun e => hal.pos e.symm)
      rcases flush_cases hh1 hal.sound howns.map_stored with
        ⟨store2, body2, hf, hh2, hs2, hsame, hfit⟩ | ⟨⟨e, hf⟩, hfit⟩
      · refine ⟨pid, store2, body2, .ok (), ?_, ⟨?_, hal.pos, ?_, ?_, ?_, ?_, hnew, fun _ =>
          hfit.congr hal.pageSize.symm, ?_⟩, ⟨hs2, hh2, ?_, ?_, (hfit.congr hsame.pageSize).fits⟩⟩
        · simp only [Catalog.createTable, hc, Bool.false_eq_true, ↓reduceIte, halloc, hf]
        · rw [hsame.readPage hal.pos]; exact hal.read
        · rw [hsame.pageCount]; exact hplace'
        · rw [hsame.pageSize, hal.pageSize]
        · rw [hsame.length]; exact hal.grows
        · intro i h0 hi
          rw [hsame.rawRead i h0, hal.frame i hi]
        · intro hr
          cases hr
        · exact hfree.congr (Nat.le_of_eq hsame.length.symm) hsame.freeHead fun p hp =>
            hsame.rawRead p (hfree.mem hp).1
        · rw [hsame.length]; exact howns
      · refine ⟨pid, store1, body, .error e, ?_, ⟨hal.read, hal.pos, hplace', hal.pageSize,
          hal.grows, fun i _ hi => hal.frame i hi, hnew, fun hr => ?_, fun _ => ⟨rfl, hfit⟩⟩,
          ⟨hal.sound, hh1, hfree, howns, fun hx => absurd (hx.writable hal.sound.toReadable) hfit⟩⟩
        · simp only [Catalog.createTable, hc, Bool.false_eq_true, ↓reduceIte, halloc, hf]
        · cases hr
    · refine Or.inl ⟨hps, hmax, e, ?_⟩
      simp only [Catalog.createTable, hc, Bool.false_eq_true, ↓reduceIte, halloc]

/-! ## DROP TABLE -/

/-- What DROP TABLE leaves of a table that is there. -/
structure Dropped (store store' : FileStore) (catalog : Catalog) (name : String)
    (entry : TableMeta) (body body' : Bytes) (result : Except PyErr Unit) : Prop where
  found : catalog.entries.get? name = some entry
  pageSize : store'.pageSize = store.pageSize
  pageCount : store'.pageCount = store.pageCount
  length : store'.file.length = store.file.length
  frame : ∀ i, i ≠ 0 → i ≠ entry.rootPageId → store'.rawRead i = store.rawRead i
  written : result.isOk = true → Flushed store ⟨catalog.entries.erase name⟩ body'
  refused : result.isOk = false → body' = body ∧ ¬ Catalog.Writable ⟨catalog.entries.erase name⟩

theorem dropTable_cases (h : Intact store catalog head body ps) (name : String) :
    (catalog.entries.get? name = none ∧
      ∃ e, catalog.dropTable store name = (.error e, catalog, store)) ∨
    (∃ entry store' body' result, catalog.dropTable store name =
        (result, ⟨catalog.entries.erase name⟩, store') ∧
      Dropped store store' catalog name entry body body' result ∧
      Intact store' ⟨catalog.entries.erase name⟩ head body' (entry.rootPageId :: ps)) := by
  cases hg : catalog.entries.get? name with
  | none => exact Or.inl ⟨rfl, .tableNotFound name, by simp only [Catalog.dropTable, hg]⟩
  | some entry =>
    refine Or.inr ?_
    obtain ⟨hm, -, -⟩ := h.owns.mem_values hg
    obtain ⟨h0, hlt, hfr⟩ := h.owns.root entry hm
    obtain ⟨store1, hfreed, hs1, hsize, hcount, hlen, hfree, hframe⟩ :=
      freePage_spec h.sound h.free h0 hlt hfr
    have howns := h.owns.drop hg
    have hh1 : Header store1 head body := h.header.congr hsize (hframe 0 fun e => h0 e.symm)
    rcases flush_cases hh1 hs1 howns.map_stored with
      ⟨store2, body2, hf, hh2, hs2, hsame, hfit⟩ | ⟨⟨e, hf⟩, hfit⟩
    · refine ⟨entry, store2, body2, .ok (), ?_, ⟨hg, ?_, ?_, ?_, ?_, fun _ => hfit.congr hsize.symm,
        ?_⟩, ⟨hs2, hh2, ?_, ?_, (hfit.congr hsame.pageSize).fits⟩⟩
      · simp only [Catalog.dropTable, hg, hfreed, hf]
      · rw [hsame.pageSize, hsize]
      · rw [hsame.pageCount, hcount]
      · rw [hsame.length, hlen]
      · intro i hi0 hi
        rw [hsame.rawRead i hi0, hframe i hi]
      · intro hr
        cases hr
      · exact hfree.congr (Nat.le_of_eq hsame.length.symm) hsame.freeHead fun p hp =>
          hsame.rawRead p (hfree.mem hp).1
      · rw [hsame.length, hlen]; exact howns
    · refine ⟨entry, store1, body, .error e, ?_, ⟨hg, hsize, hcount, hlen,
        fun i _ hi => hframe i hi, fun hr => ?_, fun _ => ⟨rfl, hfit⟩⟩, ⟨hs1, hh1, hfree, ?_,
        fun hx => absurd (hx.writable hs1.toReadable) hfit⟩⟩
      · simp only [Catalog.dropTable, hg, hfreed, hf]
      · cases hr
      · rw [hlen]; exact howns

end

end TinyDB
