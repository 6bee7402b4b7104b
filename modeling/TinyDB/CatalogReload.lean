import TinyDB.Reopen
import TinyDB.Lib.Run

/-!
# Does the catalog come back?

Calls of `create_table` and `drop_table` on a catalog over a store.
`catalog_reloads_iff`: a call is refused and leaves the stored catalog, or the
catalog loads again from the file, exactly when the catalog it makes is not one
that can be written but not whole (`Cut`).
-/

namespace TinyDB

open Lib FileStore Database

inductive CatalogCall where
  | createTable (name : String) (columns : Schema)
  | dropTable (name : String)
  deriving DecidableEq, Repr

/-- A catalog and its store. -/
abbrev CatalogState := Catalog × FileStore

def CatalogCall.run (st : CatalogState) : CatalogCall → Except PyErr Unit × CatalogState
  | .createTable name columns => st.1.createTable st.2 name columns
  | .dropTable name => st.1.dropTable st.2 name

def catalogStep (st : CatalogState) (call : CatalogCall) : CatalogState := (call.run st).2

/-- The entries that the header page holds. -/
def storedCatalog (store : FileStore) : Except PyErr (Option (List TableMeta)) := do
  let page ← store.readPage 0
  Catalog.loadBody page.body

/-- A new catalog on the file, after the store was closed and opened again. -/
def reloadCatalog (store : FileStore) : Except PyErr Catalog := do
  let closed ← store.flushFreeHead
  let store ← openStore closed.file none closed.pageSize
  Catalog.empty.load store

/-- A call that raises leaves the stored catalog; after any other the catalog loads again. -/
def RefusedOrReloads (st : CatalogState) (call : CatalogCall) : Prop :=
  match call.run st with
  | (.error _, st') => storedCatalog st'.2 = storedCatalog st.2
  | (.ok (), st') => reloadCatalog st'.2 = .ok st'.1

instance (st : CatalogState) (call : CatalogCall) : Decidable (RefusedOrReloads st call) := by
  unfold RefusedOrReloads
  split <;> infer_instance

/-- The catalog that the call makes if it finds its table and a page for it; the number of
the page does not matter. -/
def CatalogCall.made (st : CatalogState) : CatalogCall → Option Catalog
  | .createTable name columns =>
    if st.1.entries.contains name = true ∨ (st.2.freeHead = 0 ∧ 256 ^ 4 ≤ st.2.pageCount) then none
    else some ⟨st.1.entries.set name { name, rootPageId := 0, schema := columns }⟩
  | .dropTable name =>
    if st.1.entries.contains name = true then some ⟨st.1.entries.erase name⟩ else none

/-- The catalog can be written, but the header page does not hold it whole. -/
def Catalog.Cut (catalog : Catalog) (store : FileStore) : Prop :=
  ∃ n, catalog.size = .ok n ∧ store.bodySize < n ∧ n < 256 ^ 2

instance (catalog : Catalog) (store : FileStore) : Decidable (catalog.Cut store) :=
  match h : catalog.size with
  | .ok n => decidable_of_iff (store.bodySize < n ∧ n < 256 ^ 2) (by simp [Catalog.Cut, h])
  | .error _ => isFalse (by simp [Catalog.Cut, h])

/-- The call makes no catalog that is cut off. -/
def KeepsWhole (st : CatalogState) (call : CatalogCall) : Prop :=
  ∀ catalog ∈ call.made st, ¬ catalog.Cut st.2

instance (st : CatalogState) (call : CatalogCall) : Decidable (KeepsWhole st call) := by
  unfold KeepsWhole
  infer_instance

section

variable {store store' : FileStore} {catalog : Catalog} {head : Nat} {body : Bytes} {ps : List Nat}

theorem storedCatalog_spec (h : Header store head body) :
    storedCatalog store = Catalog.loadBody body := by
  obtain ⟨lsn, hread⟩ := h.read
  simp only [storedCatalog, hread, ok_bind]

/-- The catalog loads again exactly when it fits the header page. -/
theorem reloadCatalog_iff (h : Intact store catalog head body ps)
    (hf : Flushed store' catalog body) : reloadCatalog store = .ok catalog ↔ catalog.Fits store' := by
  obtain ⟨closed, body', hclose, hin, hsame, hload⟩ := flushFreeHead_intact h
  obtain ⟨ps', hfree, hsub, hanchor, -⟩ := hin.freeList_from h.freeHead
  have hin' : Intact (opened closed store.freeHead) catalog store.freeHead body' ps' :=
    intact_inMemory hin hfree hsub hanchor
  have hreload : reloadCatalog store = Catalog.empty.load (opened closed store.freeHead) := by
    simp only [reloadCatalog, hclose, ok_bind, openStore_spec hin harmless_none]
  rw [hreload]
  by_cases hfit : catalog.Fits store'
  · refine iff_of_true (load_stored hin' hin'.pageCount_pos ?_) hfit
    rw [Catalog.StoredIn, hload]
    exact hf.fits hfit
  · obtain ⟨e, he⟩ := hf.cut hfit
    obtain ⟨lsn, hread⟩ := hin'.header.read
    have hnot : ¬ (opened closed store.freeHead).pageCount < 1 := by
      have := hin'.pageCount_pos
      omega
    refine iff_of_false ?_ hfit
    simp [Catalog.load, hnot, hread, hload, he]

/-- A written catalog fits or is cut. -/
theorem not_cut_iff (h : catalog.Writable) : ¬ catalog.Cut store ↔ catalog.Fits store := by
  obtain ⟨n, hn, hlt⟩ := h
  simp only [Catalog.Cut, Catalog.Fits, hn, Except.ok.injEq]
  constructor
  · intro hcut
    refine ⟨n, rfl, ?_⟩
    by_contra hle
    exact hcut ⟨n, rfl, by omega, hlt⟩
  · rintro ⟨m, rfl, hle⟩ ⟨k, rfl, hgt, -⟩
    omega

theorem not_cut_of_not_writable (h : ¬ catalog.Writable) : ¬ catalog.Cut store :=
  fun ⟨n, hn, _, hlt⟩ => h ⟨n, hn, hlt⟩

/-- The catalog with the new table, whatever its page. -/
theorem size_made (h : Intact store catalog head body ps) {name : String} (columns : Schema)
    (hnew : catalog.entries.get? name = none) {pid : Nat} (hpid : pid < 256 ^ 4) :
    Catalog.size ⟨catalog.entries.set name { name, rootPageId := 0, schema := columns }⟩ =
      Catalog.size ⟨catalog.entries.set name { name, rootPageId := pid, schema := columns }⟩ := by
  refine size_congr ?_
  rw [OrdDict.set_new_values _ _ _ hnew, OrdDict.set_new_values _ _ _ hnew]
  refine List.rel_append ?_ (List.Forall₂.cons ⟨rfl, rfl, by simp, hpid⟩ List.Forall₂.nil)
  refine List.forall₂_same.mpr fun e he => ?_
  have hlt := h.sound.id_lt (h.owns.root e he).2.1
  exact ⟨rfl, rfl, hlt, hlt⟩

theorem createTable_reloads_iff (h : Intact store catalog head body ps) (name : String)
    (columns : Schema) : RefusedOrReloads (catalog, store) (.createTable name columns) ↔
      KeepsWhole (catalog, store) (.createTable name columns) := by
  rcases createTable_cases h name columns with ⟨hc, e, he⟩ | ⟨hps, hmax, e, he⟩ |
    ⟨pid, store1, body1, result, he, hcr, hin⟩
  · simp [RefusedOrReloads, KeepsWhole, CatalogCall.run, CatalogCall.made, he, hc]
  · have hfree : store.freeHead = 0 := by
      have hch := h.free.chain
      rw [hps] at hch
      exact hch
    refine iff_of_true ?_ ?_
    · simp only [RefusedOrReloads, CatalogCall.run, he]
      rfl
    · simp only [KeepsWhole, CatalogCall.made, hfree, hmax, and_self, or_true, ↓reduceIte,
        Option.mem_def, reduceCtorEq, false_implies, implies_true]
  · have hlt : pid < 256 ^ 4 := by
      rcases hcr.place with ⟨rest, rfl, -⟩ | ⟨-, -, -, -⟩
      · exact h.sound.id_lt (h.free.mem (List.mem_cons_self ..)).2
      · exact hin.sound.id_lt (readPage_lt hcr.read)
    have hpage : ¬ (catalog.entries.contains name = true ∨
        (store.freeHead = 0 ∧ 256 ^ 4 ≤ store.pageCount)) := by
      rintro (hc | ⟨h0, hmax⟩)
      · rw [OrdDict.contains, hcr.new] at hc
        cases hc
      · rcases hcr.place with ⟨rest, hps, -⟩ | ⟨-, hp, -⟩
        · have hch := h.free.chain
          rw [hps] at hch
          exact hcr.pos (by rw [← hch.1, h0])
        · omega
    have hsize := size_made h columns hcr.new hlt
    have hwhole : KeepsWhole (catalog, store) (.createTable name columns) ↔ ¬ Catalog.Cut
        ⟨catalog.entries.set name { name, rootPageId := pid, schema := columns }⟩ store := by
      simp only [KeepsWhole, CatalogCall.made, hpage, ↓reduceIte, Option.mem_def, Option.some.injEq,
        forall_eq', Catalog.Cut, hsize]
    rw [hwhole]
    cases result with
    | error e =>
      obtain ⟨hb, hw⟩ := hcr.refused rfl
      refine iff_of_true ?_ (not_cut_of_not_writable hw)
      simp only [RefusedOrReloads, CatalogCall.run, he]
      rw [storedCatalog_spec hin.header, storedCatalog_spec h.header, hb]
    | ok u =>
      have hf := hcr.written rfl
      rw [not_cut_iff hf.writable, ← reloadCatalog_iff hin hf]
      simp only [RefusedOrReloads, CatalogCall.run, he]

theorem dropTable_reloads_iff (h : Intact store catalog head body ps) (name : String) :
    RefusedOrReloads (catalog, store) (.dropTable name) ↔
      KeepsWhole (catalog, store) (.dropTable name) := by
  rcases dropTable_cases h name with ⟨hg, e, he⟩ | ⟨entry, store1, body1, result, he, hdr, hin⟩
  · simp [RefusedOrReloads, KeepsWhole, CatalogCall.run, CatalogCall.made, he, OrdDict.contains, hg]
  · have hwhole : KeepsWhole (catalog, store) (.dropTable name) ↔
        ¬ Catalog.Cut ⟨catalog.entries.erase name⟩ store := by
      simp [KeepsWhole, CatalogCall.made, OrdDict.contains, hdr.found]
    rw [hwhole]
    cases result with
    | error e =>
      obtain ⟨hb, hw⟩ := hdr.refused rfl
      refine iff_of_true ?_ (not_cut_of_not_writable hw)
      simp only [RefusedOrReloads, CatalogCall.run, he]
      rw [storedCatalog_spec hin.header, storedCatalog_spec h.header, hb]
    | ok u =>
      have hf := hdr.written rfl
      rw [not_cut_iff hf.writable, ← reloadCatalog_iff hin hf]
      simp only [RefusedOrReloads, CatalogCall.run, he]

end

/-- A catalog over a file on which only catalogs worked. -/
def CatalogInv (st : CatalogState) : Prop :=
  ∃ head body ps, Intact st.2 st.1 head body ps

theorem catalogInv_step {st : CatalogState} (h : CatalogInv st) (call : CatalogCall) :
    CatalogInv (catalogStep st call) := by
  obtain ⟨head, body, ps, hin⟩ := h
  cases call with
  | createTable name columns =>
    obtain ⟨body', ps', hin', -⟩ := createTable_intact hin name columns rfl
    exact ⟨head, body', ps', hin'⟩
  | dropTable name =>
    rcases dropTable_cases hin name with ⟨-, e, he⟩ | ⟨entry, store1, body1, result, he, -, hin'⟩
    · simp only [catalogStep, CatalogCall.run, he]
      exact ⟨head, body, ps, hin⟩
    · simp only [catalogStep, CatalogCall.run, he]
      exact ⟨head, body1, _, hin'⟩

theorem catalogInv_open {pageSize : Nat} {store : FileStore} {catalog : Catalog}
    (hopen : openStore [] none pageSize = .ok store)
    (hload : Catalog.empty.load store = .ok catalog) : CatalogInv (catalog, store) := by
  have hdb : Database.openDatabase ⟨[], none⟩ pageSize =
      .ok ⟨store, [], Wal.openLog [], TxManager.new, catalog, OrdDict.empty⟩ := by
    simp only [Database.openDatabase, hopen, ok_bind, hload]
    rfl
  obtain ⟨body, hin, -⟩ := openDatabase_new hdb
  exact ⟨0, body, [], hin⟩

theorem call_reloads_iff {st : CatalogState} (h : CatalogInv st) (call : CatalogCall) :
    RefusedOrReloads st call ↔ KeepsWhole st call := by
  obtain ⟨head, body, ps, hin⟩ := h
  cases call with
  | createTable name columns => exact createTable_reloads_iff hin name columns
  | dropTable name => exact dropTable_reloads_iff hin name

/-- **The catalog comes back exactly when it was not cut off.** For every page size and every
run of calls, whatever happened before the call. -/
theorem catalog_reloads_iff (pageSize : Nat) (store : FileStore) (catalog : Catalog)
    (calls : List CatalogCall) (hopen : openStore [] none pageSize = .ok store)
    (hload : Catalog.empty.load store = .ok catalog) :
    Along catalogStep (fun st call => RefusedOrReloads st call ↔ KeepsWhole st call)
      (catalog, store) calls :=
  along_of_along CatalogInv (fun _ call h _ => ⟨catalogInv_step h call, call_reloads_iff h call⟩)
    (catalogInv_open hopen hload) (Along.trivial _ _)

/-- Two short names fit, also on the smallest pages. -/
theorem catalog_reloads_short : Along catalogStep
    (fun st call => RefusedOrReloads st call ↔ KeepsWhole st call)
    (Catalog.empty, (newDatabase []).store)
    [.createTable "t" [("a", .int)], .createTable "t" [], .dropTable "t"] :=
  catalog_reloads_iff 512 (newDatabase []).store Catalog.empty _ (by decide +kernel)
    (by decide +kernel)

/-- Sixty columns. -/
def wideColumns : Schema := List.replicate 60 ("c", .int)

/-- On a file of 512-byte pages `create_table` returns for sixty columns, and the catalog
cannot be loaded again. -/
theorem catalog_cut_by_create :
    ¬ ∀ (pageSize : Nat) (store : FileStore) (catalog : Catalog) (calls : List CatalogCall),
      openStore [] none pageSize = .ok store → Catalog.empty.load store = .ok catalog →
      Along catalogStep RefusedOrReloads (catalog, store) calls := by
  intro hall
  have hnot : ¬ KeepsWhole (Catalog.empty, (newDatabase []).store)
      (.createTable "t" wideColumns) := by decide +kernel
  have hopen : openStore [] none 512 = .ok (newDatabase []).store := by decide +kernel
  have hload : Catalog.empty.load (newDatabase []).store = .ok Catalog.empty := by decide +kernel
  generalize (newDatabase []).store = store at hnot hopen hload
  have hrun := hall 512 store Catalog.empty [.createTable "t" wideColumns] hopen hload
  exact hnot ((call_reloads_iff (catalogInv_open hopen hload) _).mp hrun.head)

end TinyDB
