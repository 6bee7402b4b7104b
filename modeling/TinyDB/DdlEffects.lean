import TinyDB.Atomicity
import TinyDB.CatalogReload

/-!
# What DDL leaves behind

DROP TABLE drops its tables one at a time and never looks at IF EXISTS; a table leaves the
map in memory before the page is freed and the header is written, and CREATE TABLE enters
it there before the header is written. `ddl_promise_iff`: a DDL statement is all or nothing
exactly when it gets through, or what it meets first is a name that is missing or taken.
-/

namespace TinyDB

open Lib FileStore

/-! ## The statements -/

/-- The catalog and every page, on disk and in memory, are the same. -/
def SchemaKept (db db' : Database) : Prop := db'.catalog = db.catalog ∧ db'.store = db.store

instance (db db' : Database) : Decidable (SchemaKept db db') := by
  unfold SchemaKept
  infer_instance

/-- The root pages of the tables of these names. -/
def Catalog.roots (catalog : Catalog) (names : List String) : List Nat :=
  names.filterMap fun name => (catalog.entries.get? name).map TableMeta.rootPageId

/-- The named tables are gone, their pages are in front of the free list, and nothing else
but the header page has changed. -/
structure DropsExactly (catalog catalog' : Catalog) (store store' : FileStore)
    (names : List String) : Prop where
  entries : catalog'.entries.entries = catalog.entries.entries.filter fun e => e.1 ∉ names
  free : ∀ ps, FreeList store ps → FreeList store' ((catalog.roots names).reverse ++ ps)
  pageCount : store'.pageCount = store.pageCount
  frame : ∀ i, i ≠ 0 → i ∉ catalog.roots names → store'.rawRead i = store.rawRead i

/-- What a DDL statement is to do: all or nothing, no complaint about a missing table with
IF EXISTS, and no change for an existing one with IF NOT EXISTS. -/
def DdlPromise (db : Database) : Statement → Prop
  | .createTable stmt =>
    ((db.execute (.createTable stmt)).1.isOk = false →
      SchemaKept db (db.execute (.createTable stmt)).2) ∧
    (stmt.ifNotExists = true → db.catalog.entries.contains stmt.name = true →
      SchemaKept db (db.execute (.createTable stmt)).2)
  | .dropTable stmt =>
    ((db.execute (.dropTable stmt)).1.isOk = false →
      SchemaKept db (db.execute (.dropTable stmt)).2) ∧
    ((db.execute (.dropTable stmt)).1.isOk = true →
      DropsExactly db.catalog (db.execute (.dropTable stmt)).2.catalog db.store
        (db.execute (.dropTable stmt)).2.store stmt.names) ∧
    (stmt.ifExists = true → ∀ name,
      (db.execute (.dropTable stmt)).1 ≠ .error (.tableNotFound name))
  | _ => True

/-! ## When they do it -/

def Catalog.without (catalog : Catalog) (names : List String) : Catalog :=
  ⟨names.foldl (fun entries name => entries.erase name) catalog.entries⟩

/-- The names are tables, each named once, and after each drop the catalog can be written. -/
structure CanDrop (catalog : Catalog) (names : List String) : Prop where
  tables : ∀ name ∈ names, catalog.entries.contains name = true
  once : names.Nodup
  writable : ∀ dropped, dropped <+: names → dropped ≠ [] → (catalog.without dropped).Writable

/-- The page that a new table gets. -/
def FileStore.nextPage (store : FileStore) : Nat :=
  if store.freeHead = 0 then store.pageCount else store.freeHead

/-- There is a page for the table, and the catalog with it can be written. -/
def CanCreate (db : Database) (name : String) (columns : Schema) : Prop :=
  db.store.nextPage < 256 ^ 4 ∧
    Catalog.Writable ⟨db.catalog.entries.set name
      { name, rootPageId := db.store.nextPage, schema := columns }⟩

/-- The statement gets through, or the first thing it meets is why it raises: a type that
is not known, a name that is taken, or, without IF EXISTS, a first name that is missing. -/
def AllOrFirst (db : Database) : Statement → Prop
  | .createTable stmt =>
    match resolveColumns stmt.columns with
    | .error _ => True
    | .ok columns =>
      db.catalog.entries.contains stmt.name = true ∨ CanCreate db stmt.name columns
  | .dropTable stmt =>
    CanDrop db.catalog stmt.names ∨ stmt.ifExists = false ∧
      ∃ name ∈ stmt.names.head?, db.catalog.entries.contains name = false
  | _ => True

/-! ## DROP TABLE -/

section

variable {store store' : FileStore} {catalog catalog' : Catalog} {head : Nat} {body : Bytes}
  {ps : List Nat}

theorem contains_erase {name other : String} (hne : name ≠ other) :
    (catalog.entries.erase other).contains name = catalog.entries.contains name := by
  rw [OrdDict.contains, OrdDict.contains, OrdDict.get?_erase, if_neg fun e => hne e.symm]

theorem canDrop_cons {name : String} {names : List String} :
    CanDrop catalog (name :: names) ↔ catalog.entries.contains name = true ∧
      Catalog.Writable ⟨catalog.entries.erase name⟩ ∧
      CanDrop ⟨catalog.entries.erase name⟩ names := by
  constructor
  · intro h
    have hn := List.nodup_cons.mp h.once
    refine ⟨h.tables name (List.mem_cons_self ..),
      h.writable [name] (List.prefix_append [name] names) (by simp), ⟨?_, hn.2, ?_⟩⟩
    · intro other ho
      have hne : other ≠ name := fun e => hn.1 (e ▸ ho)
      rw [contains_erase hne]
      exact h.tables other (List.mem_cons_of_mem _ ho)
    · intro dropped hd _
      exact h.writable (name :: dropped) (List.cons_prefix_cons.mpr ⟨rfl, hd⟩) (by simp)
  · rintro ⟨hc, hw, h⟩
    have hnot : name ∉ names := fun hm => by
      have := h.tables name hm
      rw [OrdDict.contains, OrdDict.get?_erase, if_pos rfl] at this
      cases this
    refine ⟨?_, List.nodup_cons.mpr ⟨hnot, h.once⟩, ?_⟩
    · intro other ho
      rcases List.mem_cons.mp ho with rfl | ho
      · exact hc
      · have hne : other ≠ name := fun e => hnot (e ▸ ho)
        rw [← contains_erase hne]
        exact h.tables other ho
    · intro dropped hd hne
      cases dropped with
      | nil => exact absurd rfl hne
      | cons other dropped =>
        obtain ⟨rfl, htail⟩ := List.cons_prefix_cons.mp hd
        cases dropped with
        | nil => exact hw
        | cons next dropped => exact h.writable (next :: dropped) htail (by simp)

theorem FreeList.unique {store : FileStore} {ps qs : List Nat} (h : FreeList store ps)
    (h' : FreeList store qs) : ps = qs := h.chain.unique h'.chain

theorem roots_erase {name : String} {names : List String} (h : name ∉ names) :
    Catalog.roots ⟨catalog.entries.erase name⟩ names = catalog.roots names := by
  apply List.filterMap_congr
  intro other ho
  have hne : name ≠ other := fun e => h (e ▸ ho)
  rw [OrdDict.get?_erase, if_neg hne]

theorem DropsExactly.refl (catalog : Catalog) (store : FileStore) :
    DropsExactly catalog catalog store store [] where
  entries := by simp
  free := fun _ h => h
  pageCount := rfl
  frame := fun _ _ _ => rfl

theorem entries_erase (d : OrdDict String TableMeta) (name : String) :
    (d.erase name).entries = d.entries.filter fun e => decide (e.1 ≠ name) := by
  obtain ⟨entries, hn⟩ := d
  show OrdDict.remove name entries = _
  induction entries with
  | nil => rfl
  | cons e entries ih =>
    rw [List.map_cons, List.nodup_cons] at hn
    rw [OrdDict.remove, List.filter_cons]
    by_cases he : e.1 = name
    · have hrest : entries.filter (fun e => decide (e.1 ≠ name)) = entries := by
        rw [List.filter_eq_self]
        intro t ht
        have hne : t.1 ≠ name := fun h => hn.1 (he.trans h.symm ▸ List.mem_map_of_mem ht)
        simpa using hne
      simp only [he, ↓reduceIte, ne_eq, not_true_eq_false, decide_false, Bool.false_eq_true]
      exact hrest.symm
    · simp only [he, ↓reduceIte, ne_eq, not_false_eq_true, decide_true]
      rw [ih hn.2]

theorem DropsExactly.cons {store1 : FileStore} {name : String} {names : List String}
    {entry : TableMeta} {body1 : Bytes} {result : Except PyErr Unit}
    (hdr : Dropped store store1 catalog name entry body body1 result)
    (hfree : FreeList store1 (entry.rootPageId :: ps)) (hps : FreeList store ps)
    (hn : name ∉ names)
    (h : DropsExactly ⟨catalog.entries.erase name⟩ catalog' store1 store' names) :
    DropsExactly catalog catalog' store store' (name :: names) := by
  have hroots : catalog.roots (name :: names) = entry.rootPageId :: catalog.roots names := by
    simp only [Catalog.roots, List.filterMap_cons, hdr.found, Option.map_some]
  refine ⟨?_, ?_, ?_, ?_⟩
  · rw [h.entries, entries_erase, List.filter_filter]
    apply List.filter_congr
    intro e _
    rw [Bool.and_comm, ← Bool.decide_and]
    exact decide_eq_decide.mpr (by rw [List.mem_cons, not_or])
  · intro qs hqs
    rw [← FreeList.unique hps hqs, hroots, List.reverse_cons, List.append_assoc]
    have hall := h.free _ hfree
    rw [roots_erase hn] at hall
    exact hall
  · rw [h.pageCount, hdr.pageCount]
  · intro i h0 hi
    rw [hroots, List.mem_cons, not_or] at hi
    rw [h.frame i h0 (by rw [roots_erase hn]; exact hi.2), hdr.frame i h0 hi.1]

/-- **DROP TABLE** drops all its tables, or raises; in that case the first table, if there
is one of this name, is gone. -/
theorem dropTables_cases (h : Intact store catalog head body ps) (names : List String)
    {result : Except PyErr Unit}
    (hd : dropTables catalog store names = (result, catalog', store')) :
    (CanDrop catalog names ∧ result = .ok () ∧
      DropsExactly catalog catalog' store store' names) ∨
    (¬ CanDrop catalog names ∧ result.isOk = false ∧
      (∀ name, catalog.entries.get? name = none → catalog'.entries.get? name = none) ∧
      ∀ name ∈ names.head?, (catalog.entries.contains name = false ∧
          result = .error (.tableNotFound name) ∧ catalog' = catalog ∧ store' = store) ∨
        (catalog.entries.contains name = true ∧ catalog'.entries.get? name = none)) := by
  induction names generalizing store catalog body ps with
  | nil =>
    cases hd
    exact Or.inl ⟨⟨by simp, List.nodup_nil, fun d hp hne => absurd (List.prefix_nil.mp hp) hne⟩,
      rfl, DropsExactly.refl _ _⟩
  | cons name names ih =>
    rw [canDrop_cons]
    rcases dropTable_cases h name with ⟨hg, -, -⟩ | ⟨entry, store1, body1, result1, he, hdr, hin⟩
    · have hc : catalog.entries.contains name = false := by
        rw [OrdDict.contains, hg]
        rfl
      simp only [dropTables, Catalog.dropTable, hg] at hd
      cases hd
      refine Or.inr ⟨fun hall => ?_, rfl, fun _ hn => hn, fun other ho => Or.inl ?_⟩
      · rw [hc] at hall
        cases hall.1
      · cases ho
        exact ⟨hc, rfl, rfl, rfl⟩
    · have hc : catalog.entries.contains name = true := by
        rw [OrdDict.contains, hdr.found]
        rfl
      have hgone : (catalog.entries.erase name).get? name = none := by
        rw [OrdDict.get?_erase, if_pos rfl]
      have hless : ∀ other, catalog.entries.get? other = none →
          (catalog.entries.erase name).get? other = none := by
        intro other ho
        rw [OrdDict.get?_erase, ho, ite_self]
      cases result1 with
      | error e =>
        simp only [dropTables, he] at hd
        cases hd
        refine Or.inr ⟨fun hall => (hdr.refused rfl).2 hall.2.1, rfl, hless, fun other ho => ?_⟩
        cases ho
        exact Or.inr ⟨hc, hgone⟩
      | ok u =>
        simp only [dropTables, he] at hd
        have hw := (hdr.written rfl).writable
        rcases ih hin hd with ⟨hcan, hok, hdrops⟩ | ⟨hcan, herr, hrest, -⟩
        · have hn : name ∉ names := fun hm => by
            have := hcan.tables name hm
            rw [OrdDict.contains, hgone] at this
            cases this
          exact Or.inl ⟨⟨hc, hw, hcan⟩, hok, hdrops.cons hdr hin.free h.free hn⟩
        · refine Or.inr ⟨fun hall => hcan hall.2.2, herr, fun other ho => hrest other (hless other ho),
            fun other ho => ?_⟩
          cases ho
          exact Or.inr ⟨hc, hrest name hgone⟩

/-! ## CREATE TABLE -/

/-- **CREATE TABLE** finds its name taken, goes through, or leaves a table that is not
stored or a page number that is lost. -/
theorem createTable_outcome (h : Intact store catalog head body ps) (name : String)
    (columns : Schema) {result : Except PyErr Unit}
    (hc : catalog.createTable store name columns = (result, catalog', store')) :
    (catalog.entries.contains name = true ∧ result.isOk = false ∧ catalog' = catalog ∧
      store' = store) ∨
    (catalog.entries.contains name = false ∧
      (result.isOk = true ↔ store.nextPage < 256 ^ 4 ∧
        Catalog.Writable ⟨catalog.entries.set name
          { name, rootPageId := store.nextPage, schema := columns }⟩) ∧
      (catalog' = catalog → store' ≠ store)) := by
  rcases createTable_cases h name columns with
    ⟨htaken, e, he⟩ | ⟨hps, hmax, e, he⟩ | ⟨pid, store1, body1, result1, he, hcr, hin⟩
  · rw [he] at hc
    cases hc
    exact Or.inl ⟨htaken, rfl, rfl, rfl⟩
  · rw [he] at hc
    cases hc
    have hfree : catalog.entries.contains name = false := by
      by_contra htaken
      rw [Bool.not_eq_false] at htaken
      rw [Catalog.createTable, if_pos htaken] at he
      have := congrArg (fun r => r.2.2.pageCount) he
      simp at this
    have hhead : store.freeHead = 0 := by
      have := h.free.chain
      rw [hps] at this
      exact this
    have hnext : store.nextPage = store.pageCount := if_pos hhead
    refine Or.inr ⟨hfree, ?_, ?_⟩
    · rw [hnext]
      exact iff_of_false Bool.false_ne_true fun hall => absurd hall.1 (by omega)
    · intro _ hsame
      have := congrArg FileStore.pageCount hsame
      simp at this
  · rw [he] at hc
    cases hc
    have hfree : catalog.entries.contains name = false := by
      rw [OrdDict.contains, hcr.new]
      rfl
    have hnext : store.nextPage = pid := by
      have hchain := h.free.chain
      rcases hcr.place with ⟨rest, hps, -⟩ | ⟨hps, hpid, -⟩
      · rw [hps] at hchain
        rw [FileStore.nextPage, hchain.1, if_neg hcr.pos]
      · rw [hps] at hchain
        have hhead : store.freeHead = 0 := hchain
        rw [FileStore.nextPage, if_pos hhead, hpid]
    have hlt : pid < 256 ^ 4 := by
      have hbounds := (readPage_bounds hcr.read).1
      exact hbounds
    refine Or.inr ⟨hfree, ?_, ?_⟩
    · rw [hnext, and_iff_right hlt]
      cases hres : result.isOk with
      | true => exact iff_of_true rfl (hcr.written hres).writable
      | false => exact iff_of_false Bool.false_ne_true (hcr.refused hres).2
    · intro hsame
      have hget := congrArg (fun c => c.entries.get? name) hsame
      simp only [OrdDict.get?_set, ↓reduceIte, hcr.new] at hget
      cases hget

end

/-! ## Both -/

/-- **Exactly when DDL is all or nothing.** -/
theorem ddl_promise_iff (db : Database) (stmt : Statement) {head : Nat} {body : Bytes}
    {ps : List Nat} (h : Intact db.store db.catalog head body ps) :
    DdlPromise db stmt ↔ AllOrFirst db stmt := by
  cases stmt with
  | createTable stmt =>
    rw [DdlPromise, AllOrFirst, Database.execute_createTable]
    simp only [execCreateTable, SchemaKept]
    cases hcols : resolveColumns stmt.columns with
    | error e => exact iff_of_true ⟨fun _ => ⟨rfl, rfl⟩, fun _ _ => ⟨rfl, rfl⟩⟩ trivial
    | ok columns =>
      simp only
      obtain ⟨result, catalog', store', hc⟩ : ∃ result catalog' store',
          db.catalog.createTable db.store stmt.name columns = (result, catalog', store') :=
        ⟨_, _, _, rfl⟩
      rw [hc]
      rcases createTable_outcome h stmt.name columns hc with
        ⟨htaken, -, rfl, rfl⟩ | ⟨hfree, hok, hchanged⟩
      · exact iff_of_true ⟨fun _ => ⟨rfl, rfl⟩, fun _ _ => ⟨rfl, rfl⟩⟩ (Or.inl htaken)
      · rw [hfree]
        simp only [Bool.false_eq_true, false_or, IsEmpty.forall_iff, implies_true, and_true]
        rw [CanCreate, ← hok]
        cases result with
        | ok u => exact iff_of_true (fun hf => by cases hf) rfl
        | error e =>
          refine iff_of_false (fun hall => ?_) Bool.false_ne_true
          obtain ⟨hcat, hstore⟩ := hall rfl
          exact hchanged hcat hstore
  | dropTable stmt =>
    rw [DdlPromise, AllOrFirst, Database.execute_dropTable]
    simp only [SchemaKept]
    obtain ⟨result, catalog', store', hd⟩ : ∃ result catalog' store',
        dropTables db.catalog db.store stmt.names = (result, catalog', store') := ⟨_, _, _, rfl⟩
    rw [hd]
    rcases dropTables_cases h stmt.names hd with
      ⟨hcan, rfl, hdrops⟩ | ⟨hcan, herr, -, hfirst⟩
    · refine iff_of_true ⟨fun hf => ?_, fun _ => hdrops, fun _ name hn => ?_⟩ (Or.inl hcan)
      · cases hf
      · cases hn
    · cases result with
      | ok u => cases herr
      | error e =>
        cases hhead : stmt.names.head? with
        | none =>
          rw [List.head?_eq_none_iff] at hhead
          rw [hhead] at hcan
          exact absurd ⟨by simp, List.nodup_nil,
            fun d hp hne => absurd (List.prefix_nil.mp hp) hne⟩ hcan
        | some name =>
          simp only [Option.mem_some, exists_eq_left', hcan, false_or]
          rcases hfirst name hhead with ⟨hmissing, herr, rfl, rfl⟩ | ⟨hfound, hgone⟩
          · rw [hmissing]
            constructor
            · intro hall
              refine ⟨?_, rfl⟩
              cases hex : stmt.ifExists with
              | false => rfl
              | true =>
                refine absurd ?_ (hall.2.2 hex name)
                rw [herr]
                rfl
            · rintro ⟨hex, -⟩
              refine ⟨fun _ => ⟨rfl, rfl⟩, fun hf => ?_, fun hx => ?_⟩
              · cases hf
              · rw [hex] at hx
                cases hx
          · rw [hfound]
            refine iff_of_false (fun hall => ?_) fun hf => absurd hf.2.symm Bool.false_ne_true
            obtain ⟨hcat, -⟩ := hall.1 rfl
            rw [hcat] at hgone
            rw [OrdDict.contains, hgone] at hfound
            cases hfound
  | insert stmt => exact iff_of_true trivial trivial
  | update stmt => exact iff_of_true trivial trivial
  | delete stmt => exact iff_of_true trivial trivial
  | select stmt => exact iff_of_true trivial trivial
  | explain stmt => exact iff_of_true trivial trivial
  | begin => exact iff_of_true trivial trivial
  | commit => exact iff_of_true trivial trivial
  | rollback => exact iff_of_true trivial trivial
  | checkpoint => exact iff_of_true trivial trivial

/-! ## Two drops -/

theorem executeAll_intact {db : Database} {head : Nat} {body : Bytes} {ps : List Nat}
    (h : Intact db.store db.catalog head body ps) (stmts : List Statement) :
    ∃ body' ps', Intact (db.executeAll stmts).store (db.executeAll stmts).catalog head body' ps' := by
  induction stmts generalizing db body ps with
  | nil => exact ⟨body, ps, h⟩
  | cons stmt stmts ih =>
    obtain ⟨body1, ps1, hin, -⟩ := execute_intact h stmt
    exact ih hin

theorem intTable_intact : ∃ body ps,
    Intact Database.intTable.store Database.intTable.catalog 0 body ps := by
  obtain ⟨db, hopen⟩ : ∃ db, Database.openDatabase ⟨[], none⟩ 512 = .ok db :=
    (Heap.isOk_iff _).mp (by decide +kernel)
  obtain ⟨body, hin, -⟩ := openDatabase_new hopen
  rw [Database.intTable, Database.newDatabase, hopen]
  exact executeAll_intact hin _

/-- `DROP TABLE t`. -/
theorem ddl_promise_drop : DdlPromise Database.intTable (.dropTable ⟨["t"], false⟩) := by
  obtain ⟨body, ps, h⟩ := intTable_intact
  apply (ddl_promise_iff Database.intTable (.dropTable ⟨["t"], false⟩) h).mpr
  refine Or.inl (canDrop_cons.mpr ⟨by decide +kernel, ⟨22, by decide +kernel, by decide⟩, ?_⟩)
  exact ⟨by simp, List.nodup_nil, fun d hp hne => absurd (List.prefix_nil.mp hp) hne⟩

/-- `DROP TABLE t, u` drops `t` and raises. -/
theorem drop_stops_midway :
    (∃ body ps, Intact Database.intTable.store Database.intTable.catalog 0 body ps) ∧
      ¬ DdlPromise Database.intTable (.dropTable ⟨["t", "u"], false⟩) := by
  refine ⟨intTable_intact, fun h => ?_⟩
  have hkept := h.1 (by decide +kernel)
  exact absurd hkept (by decide +kernel)

end TinyDB
