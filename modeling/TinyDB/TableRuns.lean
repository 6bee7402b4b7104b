import TinyDB.Atomicity
import TinyDB.CatalogReload
import TinyDB.Twins

/-!
# Runs of CREATE TABLE, INSERT, UPDATE and DELETE

What such a run does to the rows of each table, as long as rows fit their page and
no UPDATE hits a row that was moved (`InPlace`). `tables_step` is the rule for a
property of every table: it has to hold of a table without rows, and to survive
`RowsStep`, which says what a statement makes of the rows of the table it writes.
-/

namespace TinyDB

open Lib FileStore

/-- The statements of these runs. -/
def Statement.Edits : Statement → Prop
  | .createTable _ => True
  | .insert _ => True
  | .update _ => True
  | .delete _ => True
  | _ => False

instance (stmt : Statement) : Decidable stmt.Edits :=
  match stmt with
  | .createTable _ | .dropTable _ | .insert _ | .select _ | .update _ | .delete _ | .begin
  | .commit | .rollback | .checkpoint | .explain _ => by unfold Statement.Edits; infer_instance

instance (catalog : Catalog) : Decidable catalog.Writable :=
  match h : catalog.size with
  | .ok n => decidable_of_iff (n < 256 ^ 2) (by simp [Catalog.Writable, h])
  | .error _ => isFalse (by simp [Catalog.Writable, h])

/-- The rowid of the next row of a table. -/
def FileStore.nextRowid (store : FileStore) (entry : TableMeta) : Nat :=
  (Heap.readCount (store.bodyOf entry)).1 + 1

/-! ## The page of a table -/

/-- The page holds slots; no two live rows have one rowid, and none is larger than the
number of slots. -/
structure TableAt (store : FileStore) (entry : TableMeta) (page : Page)
    (slots : List (Slot entry.heap.schema)) : Prop where
  heapAt : Heap.HeapAt store entry.heap page slots
  nodup : ((Heap.liveRows slots).map Prod.fst).Nodup
  rowids : ∀ s ∈ slots, s.rowid ≤ slots.length

section

variable {store store' : FileStore} {entry : TableMeta} {page : Page}
  {slots : List (Slot entry.heap.schema)}

theorem TableAt.congr (h : TableAt store entry page slots)
    (hr : store'.rawRead entry.rootPageId = store.rawRead entry.rootPageId)
    (hs : store'.pageSize = store.pageSize) (hlen : store.file.length ≤ store'.file.length) :
    TableAt store' entry page slots := by
  have hb : store'.bodySize = store.bodySize := by simp only [bodySize, hs]
  have hat := h.heapAt
  exact ⟨⟨(readPage_congr hr).trans hat.read, hat.pageId, Nat.lt_of_lt_of_le hat.inFile hlen,
    by rw [hb]; exact hat.small, hat.represents, by rw [hb]; exact hat.fits⟩, h.nodup, h.rowids⟩

theorem TableAt.rowsOf (h : TableAt store entry page slots) :
    store.rowsOf entry = Heap.liveRows slots := rowsOf_eq h.heapAt

theorem TableAt.nextRowid (h : TableAt store entry page slots) :
    store.nextRowid entry = slots.length + 1 := by
  rw [FileStore.nextRowid, bodyOf_eq h.heapAt,
    Heap.readCount_represents h.heapAt.represents h.heapAt.slotsFit]

theorem TableAt.live_lt (h : TableAt store entry page slots) :
    ∀ row ∈ Heap.liveRows slots, row.1 < slots.length + 1 := by
  intro row hrow
  obtain ⟨s, hs, he⟩ := List.mem_map.mp (Heap.mem_rowids_of_live hrow)
  rw [← he]
  exact Nat.lt_succ_of_le (h.rowids s hs)

/-- The rows are what was read back from full rows. -/
def ReadsBack (entry : TableMeta) (rows : List (Nat × Row)) : Prop :=
  ∀ row ∈ rows, ∃ values : Row, values.length = entry.schema.length ∧ row.2 = readBackRow values

theorem readsBack_live (slots : List (Slot entry.heap.schema)) :
    ReadsBack entry (Heap.liveRows slots) := by
  intro row hrow
  obtain ⟨s, -, hs⟩ := List.mem_filterMap.mp hrow
  unfold Slot.live? at hs
  split at hs
  · cases hs
  · cases hs
    exact ⟨s.values, s.arity, rfl⟩

/-- A page that was just allocated. -/
theorem tableAt_fresh (hs : store.Readable) {pid : Nat} {type : PageType} {lsn : Nat}
    (hr : store.readPage entry.rootPageId = .ok ⟨pid, type, lsn, []⟩) (hp : pid = entry.rootPageId) :
    TableAt store entry ⟨pid, type, lsn, []⟩ [] := by
  have hbig := hs.bodySize_lt
  refine ⟨⟨hr, hp, readPage_lt hr, hbig.2, Or.inr ⟨rfl, rfl⟩, ?_⟩, List.nodup_nil, by simp⟩
  simp only [Heap.slotsBody_length, Heap.slotsBytes_nil, List.length_nil]
  omega

end

namespace Database

variable {db : Database} {entry : TableMeta} {page : Page} {slots : List (Slot entry.heap.schema)}

/-! ## What a statement makes of the rows -/

/-- How the rows of the table that a statement writes change. -/
def RowsStep (db : Database) (entry : TableMeta) (rows rows' : List (Nat × Row)) :
    Statement → Prop
  | .insert stmt =>
    (∀ row ∈ rows, row.1 < db.store.nextRowid entry) ∧
      rows' = rows ++ (List.range' (db.store.nextRowid entry)
        (db.insertedRows entry stmt).length).zip ((db.insertedRows entry stmt).map readBackRow)
  | .update stmt => ∀ rowid values, (rowid, values) ∈ rows' ↔
      (∃ old new, (rowid, old) ∈ db.updatedRows entry stmt ∧
        newValues entry.schema (OrdDict.ofList stmt.assignments) (rowid, old) = .ok new ∧
        values = readBackRow new) ∨
      (rowid ∉ (db.updatedRows entry stmt).map Prod.fst ∧ (rowid, values) ∈ rows)
  | .delete _ => rows'.Sublist rows
  | _ => rows' = rows

theorem rowsStep_insert (h : TableAt db.store entry page slots) (stmt : Insert)
    (hg : db.catalog.getTable stmt.table = .ok entry) (hp : db.OnPage entry (.insert stmt)) :
    ∃ page' slots', TableAt (db.execute (.insert stmt)).2.store entry page' slots' ∧
      db.RowsStep entry (Heap.liveRows slots) (Heap.liveRows slots') (.insert stmt) := by
  obtain ⟨store', page', news, result, hexec, -, hvals, hids, hlive, hat, -⟩ :=
    execInsert_spec stmt.columns stmt.values (db.tableConstraints stmt.table) h.heapAt hp
  rw [execute_insert stmt hg]
  simp only [hexec]
  have hvals' : news.map Slot.values = db.insertedRows entry stmt := hvals
  have hnews : Heap.liveRows news =
      (List.range' (slots.length + 1) (db.insertedRows entry stmt).length).zip
        ((db.insertedRows entry stmt).map readBackRow) := by
    have hall : Heap.liveRows news = news.map fun s => (s.rowid, readBackRow s.values) := by
      unfold Heap.liveRows
      rw [← List.filterMap_eq_map]
      refine List.filterMap_congr fun s hs => ?_
      simp only [Slot.live?, hlive s hs, Bool.false_eq_true, ↓reduceIte, Function.comp_apply]
    have hlen : (db.insertedRows entry stmt).length = news.length := by
      rw [← hvals', List.length_map]
    rw [hall, hlen, ← hids, ← hvals', List.map_map, List.zip_map']
    rfl
  have hrows : Heap.liveRows (slots ++ news) = Heap.liveRows slots ++
      (List.range' (slots.length + 1) (db.insertedRows entry stmt).length).zip
        ((db.insertedRows entry stmt).map readBackRow) := by
    rw [Heap.liveRows_append, hnews]
  have hfst : ((List.range' (slots.length + 1) (db.insertedRows entry stmt).length).zip
      ((db.insertedRows entry stmt).map readBackRow)).map Prod.fst =
      List.range' (slots.length + 1) (db.insertedRows entry stmt).length := by
    rw [List.map_fst_zip]
    simp
  refine ⟨page', slots ++ news, ⟨hat, ?_, ?_⟩, ?_⟩
  · rw [hrows, List.map_append, hfst, List.nodup_append]
    refine ⟨h.nodup, List.nodup_range', ?_⟩
    intro a ha b hb hab
    obtain ⟨row, hrow, rfl⟩ := List.mem_map.mp ha
    have hlt := h.live_lt row hrow
    have := (List.mem_range'_1.mp hb).1
    omega
  · intro s hs
    rw [List.length_append]
    rcases List.mem_append.mp hs with hs | hs
    · exact Nat.le_trans (h.rowids s hs) (Nat.le_add_right ..)
    · have hm : s.rowid ∈ List.range' (slots.length + 1) news.length := by
        rw [← hids]
        exact List.mem_map_of_mem hs
      have := (List.mem_range'_1.mp hm).2
      omega
  · rw [RowsStep, h.nextRowid]
    exact ⟨h.live_lt, hrows⟩

theorem rowsStep_delete (h : TableAt db.store entry page slots) (stmt : Delete)
    (hg : db.catalog.getTable stmt.table = .ok entry) :
    ∃ page' slots', TableAt (db.execute (.delete stmt)).2.store entry page' slots' ∧
      db.RowsStep entry (Heap.liveRows slots) (Heap.liveRows slots') (.delete stmt) := by
  rw [execute_delete stmt hg]
  cases hw : stmt.where' with
  | none =>
    simp only [execDelete, ↓reduceIte]
    exact ⟨page, slots, h, List.Sublist.refl _⟩
  | some cond =>
    obtain ⟨store', page', result, hexec, -, hat, -⟩ := execDelete_spec cond h.heapAt
    simp only [hexec]
    rw [h.rowsOf] at hat
    have hids := Heap.deleteAll_rowids (hits entry.schema (some cond) (Heap.liveRows slots)) slots
    have hsub := Heap.deleteAll_sublist (hits entry.schema (some cond) (Heap.liveRows slots)) slots
    refine ⟨page', _, ⟨hat, h.nodup.sublist (hsub.map Prod.fst), fun s hs => ?_⟩, hsub⟩
    have hlen := congrArg List.length hids
    simp only [List.length_map] at hlen
    have hm : s.rowid ∈ slots.map Slot.rowid := by
      have := List.mem_map_of_mem (f := Slot.rowid) hs
      rwa [hids] at this
    obtain ⟨t, ht, he⟩ := List.mem_map.mp hm
    rw [← he]
    have := h.rowids t ht
    omega

theorem rowsStep_update (h : TableAt db.store entry page slots) (stmt : Update)
    (hg : db.catalog.getTable stmt.table = .ok entry)
    (hf : max 2 (db.store.bodyOf entry).length + updateSize entry.schema
      (OrdDict.ofList stmt.assignments) (db.store.bodyOf entry)
      (hits entry.schema stmt.where' (db.store.rowsOf entry)) ≤ db.store.bodySize)
    (hu : ∀ hit ∈ db.updatedRows entry stmt, entry.heap.unmoved db.store hit.1 = true) :
    ∃ page' slots', TableAt (db.execute (.update stmt)).2.store entry page' slots' ∧
      db.RowsStep entry (Heap.liveRows slots) (Heap.liveRows slots') (.update stmt) := by
  obtain ⟨store', page', news, result, hexec, -, hgives, hat, -⟩ :=
    execUpdate_spec stmt.assignments stmt.where' h.heapAt hf
  change List.Forall₂ _ (db.updatedRows entry stmt) news at hgives
  have hids := Heap.gives_rowids hgives
  have hsub : (db.updatedRows entry stmt).Sublist (Heap.liveRows slots) := by
    rw [← h.rowsOf]
    exact (List.takeWhile_sublist _).trans (hits_sublist ..)
  have hnodup : (news.map Slot.rowid).Nodup := by
    rw [hids]
    exact h.nodup.sublist (hsub.map Prod.fst)
  have hdead : ∀ new ∈ news, new.dead = false := fun new hn => by
    obtain ⟨hit, -, hgive⟩ := exists_of_mem_right hgives hn
    exact hgive.dead
  have hmem : ∀ new ∈ news, new.rowid ∈ slots.map Slot.rowid := fun new hn => by
    obtain ⟨hit, hh, hgive⟩ := exists_of_mem_right hgives hn
    rw [hgive.rowid]
    exact Heap.mem_rowids_of_live (hsub.subset hh)
  have halive : ∀ new ∈ news, Heap.firstAlive new.rowid slots = true := fun new hn => by
    obtain ⟨hit, hh, hgive⟩ := exists_of_mem_right hgives hn
    rw [← Heap.unmoved_eq h.heapAt (hmem new hn), hgive.rowid]
    exact hu hit hh
  have hbound : ∀ new ∈ news, new.rowid ≤ slots.length := fun new hn => by
    obtain ⟨s, hs, he⟩ := List.mem_map.mp (hmem new hn)
    rw [← he]
    exact h.rowids s hs
  obtain ⟨m, hm⟩ := Lists.exists_of_nodup h.nodup
  have hlists := Heap.updateAll_lists hdead halive hmem hnodup hm
  obtain ⟨hwithin, hlen⟩ := Heap.updateAll_within hbound h.rowids
  rw [execute_update stmt hg]
  simp only [hexec]
  refine ⟨page', _, ⟨hat, hlists.nodup, fun s hs => Nat.le_trans (hwithin s hs) hlen⟩, ?_⟩
  intro rowid values
  rw [hlists.mem_iff, ← hids]
  by_cases hr : rowid ∈ news.map Slot.rowid
  · obtain ⟨new, hn, rfl⟩ := List.mem_map.mp hr
    obtain ⟨hit, hh, hgive⟩ := exists_of_mem_right hgives hn
    obtain ⟨rowid, old⟩ := hit
    have hrow : new.rowid = rowid := hgive.rowid
    rw [Heap.updateMap_of_mem hnodup hn]
    constructor
    · intro he
      refine Or.inl ⟨old, new.values, ?_, ?_, (Option.some.inj he).symm⟩
      · rw [hrow]
        exact hh
      · rw [hrow]
        exact hgive.values
    · rintro (⟨old', new', hh', hv, rfl⟩ | ⟨hnot, -⟩)
      · obtain ⟨t, ht, hgive'⟩ := exists_of_mem_left hgives hh'
        have htn : t = new := List.inj_on_of_nodup_map hnodup ht hn hgive'.rowid
        subst htn
        have hval : newValues entry.schema (OrdDict.ofList stmt.assignments) (t.rowid, old') =
            .ok t.values := hgive'.values
        rw [hv, Except.ok.injEq] at hval
        rw [hval]
      · exact absurd hr hnot
  · rw [Heap.updateMap_of_not_mem hr, ← hm.mem_iff]
    constructor
    · exact fun hv => Or.inr ⟨hr, hv⟩
    · rintro (⟨old, new, hh, -, -⟩ | ⟨-, hv⟩)
      · refine absurd ?_ hr
        rw [hids]
        exact List.mem_map_of_mem (f := Prod.fst) hh
      · exact hv

/-! ## Columns -/

/-- What the dictionary of a row gives for a column. -/
theorem find_rowToDict {schema : Schema} {values : Row} (hnames : (schema.map Prod.fst).Nodup)
    (hlen : values.length = schema.length) (rowid : Nat) {i : Nat} (hi : i < schema.length) :
    (rowToDict schema values rowid).find schema[i].1 =
      if schema[i].1 = "rowid" then .int rowid else values.getD i .null := by
  have hzip : ((schema.map Prod.fst).zip values).map Prod.fst = schema.map Prod.fst :=
    List.map_fst_zip (by simp [hlen])
  rw [RowDict.find, rowToDict, OrdDict.get?_set]
  by_cases hr : schema[i].1 = "rowid"
  · rw [if_pos hr.symm, if_pos hr]
    rfl
  · rw [if_neg fun e => hr e.symm, if_neg hr]
    have hv : i < values.length := by omega
    have hget : (OrdDict.ofList ((schema.map Prod.fst).zip values)).get? schema[i].1 =
        some values[i] := by
      rw [OrdDict.get?_eq_some_iff, OrdDict.ofList_entries _ (by rw [hzip]; exact hnames)]
      refine List.mem_iff_getElem.mpr ⟨i, by simp [hlen, hi], ?_⟩
      rw [List.getElem_zip, List.getElem_map]
    rw [hget, List.getD_eq_getElem?_getD, List.getElem?_eq_getElem hv]

theorem updatedValues_getD {assignments rowDict : RowDict} {schema : Schema} {new : Row}
    (h : updatedValues assignments rowDict schema = .ok new) {i : Nat} (hi : i < schema.length) :
    updatedValue assignments rowDict schema[i].1 schema[i].2 = .ok (new.getD i .null) := by
  induction schema generalizing new i with
  | nil => exact absurd hi (Nat.not_lt_zero i)
  | cons col schema ih =>
    obtain ⟨name, t⟩ := col
    simp only [updatedValues, bind_eq_ok, Except.ok.injEq] at h
    obtain ⟨v, hv, rest, hrest, rfl⟩ := h
    cases i with
    | zero => exact hv
    | succ i => exact ih hrest (Nat.lt_of_succ_lt_succ hi)

/-- A column that an UPDATE does not assign keeps its value, unless it is named `rowid`. -/
theorem newValues_unassigned {schema : Schema} {assignments : RowDict} {rowid : Nat}
    {values new : Row} (hnames : (schema.map Prod.fst).Nodup)
    (hlen : values.length = schema.length)
    (h : newValues schema assignments (rowid, values) = .ok new) {i : Nat} (hi : i < schema.length)
    (hnot : assignments.get? schema[i].1 = none) :
    new.getD i .null = if schema[i].1 = "rowid" then .int rowid else values.getD i .null := by
  have hv := updatedValues_getD h hi
  rw [updatedValue, hnot] at hv
  rw [← find_rowToDict hnames hlen rowid hi]
  exact (Except.ok.inj hv).symm

/-- A column that it assigns has the assigned value. -/
theorem newValues_assigned {schema : Schema} {assignments : RowDict} {hit : Nat × Row} {new : Row}
    (h : newValues schema assignments hit = .ok new) {i : Nat} (hi : i < schema.length) {v : Value}
    (hv : assignments.get? schema[i].1 = some v) :
    coerce v schema[i].2 = .ok (new.getD i .null) := by
  have hval := updatedValues_getD h hi
  rwa [updatedValue, hv] at hval

/-! ## Runs -/

/-- A CREATE TABLE repeats no column name and its catalog can be written, rows fit their page
and an UPDATE writes no row that was moved. -/
def InPlace (db : Database) : Statement → Prop
  | .createTable create =>
    (create.columns.map ColumnDef.name).Nodup ∧
      ∀ schema ∈ (resolveColumns create.columns).toOption, Catalog.Writable
        ⟨db.catalog.entries.set create.name { name := create.name, rootPageId := 0, schema }⟩
  | .insert stmt => ∀ entry ∈ db.catalog.entries.get? stmt.table,
      max 2 (db.store.bodyOf entry).length +
        rowsSize entry.schema (db.insertedRows entry stmt) ≤ db.store.bodySize
  | .update stmt => ∀ entry ∈ db.catalog.entries.get? stmt.table,
      max 2 (db.store.bodyOf entry).length + updateSize entry.schema
        (OrdDict.ofList stmt.assignments) (db.store.bodyOf entry)
        (hits entry.schema stmt.where' (db.store.rowsOf entry)) ≤ db.store.bodySize ∧
      ∀ hit ∈ db.updatedRows entry stmt, entry.heap.unmoved db.store hit.1 = true
  | _ => True

instance (db : Database) (stmt : Statement) : Decidable (db.InPlace stmt) :=
  match stmt with
  | .createTable _ | .dropTable _ | .insert _ | .select _ | .update _ | .delete _ | .begin
  | .commit | .rollback | .checkpoint | .explain _ => by unfold InPlace; infer_instance

end Database

/-- A connection and the columns that the CREATE TABLE of each table declared. -/
structure Watched where
  db : Database
  declared : OrdDict String (List ColumnDef)

namespace Watched

def step (w : Watched) (stmt : Statement) : Watched where
  db := (w.db.execute stmt).2
  declared :=
    match stmt with
    | .createTable create =>
      if w.db.catalog.entries.contains create.name = false ∧
          (w.db.execute stmt).2.catalog.entries.contains create.name = true then
        w.declared.set create.name create.columns
      else w.declared
    | _ => w.declared

/-- The connection knows what was declared. -/
structure Declared (w : Watched) (table : String) (columns : List ColumnDef) (entry : TableMeta) :
    Prop where
  declared : w.declared.get? table = some columns
  names : (columns.map ColumnDef.name).Nodup
  schema : resolveColumns columns = .ok entry.schema
  constraints : w.db.tableConstraints table = Database.columnConstraints columns

/-- `P` holds of the rows of every table. -/
structure Holds (P : String → List ColumnDef → TableMeta → List (Nat × Row) → Prop)
    (w : Watched) : Prop where
  intact : ∃ head body ps, Intact w.db.store w.db.catalog head body ps
  tables : ∀ table entry, w.db.catalog.entries.get? table = some entry →
    ∃ columns page slots, w.Declared table columns entry ∧ TableAt w.db.store entry page slots ∧
      P table columns entry (Heap.liveRows slots)

theorem resolveColumns_names {columns : List ColumnDef} {schema : Schema}
    (h : resolveColumns columns = .ok schema) :
    schema.map Prod.fst = columns.map ColumnDef.name := by
  induction columns generalizing schema with
  | nil =>
    cases h
    rfl
  | cons col columns ih =>
    simp only [resolveColumns] at h
    split at h
    · cases h
    · simp only [bind_eq_ok, Except.ok.injEq] at h
      obtain ⟨rest, hrest, rfl⟩ := h
      rw [List.map_cons, List.map_cons, ih hrest]

/-- The names of the columns are distinct in the schema as well. -/
theorem Declared.schema_names {w : Watched} {table : String} {columns : List ColumnDef}
    {entry : TableMeta} (h : w.Declared table columns entry) :
    (entry.schema.map Prod.fst).Nodup := by
  rw [resolveColumns_names h.schema]
  exact h.names

variable {P Q : String → List ColumnDef → TableMeta → List (Nat × Row) → Prop} {w : Watched}

/-- What is left to show of the tables that a statement names. -/
theorem tables_other (h : Holds P w) (stmt : Statement)
    (hkeep : ∀ table columns entry rows, table ∉ stmt.names → P table columns entry rows →
      Q table columns entry rows)
    (hnamed : ∀ table entry, table ∈ stmt.names →
      (w.step stmt).db.catalog.entries.get? table = some entry →
      ∃ columns page slots, (w.step stmt).Declared table columns entry ∧
        TableAt (w.step stmt).db.store entry page slots ∧
        Q table columns entry (Heap.liveRows slots)) : Holds Q (w.step stmt) := by
  obtain ⟨head, body, ps, hin⟩ := h.intact
  obtain ⟨body', ps', hin', hkept⟩ := execute_intact hin stmt
  refine ⟨⟨head, body', ps', hin'⟩, fun table entry hg => ?_⟩
  by_cases hn : table ∈ stmt.names
  · exact hnamed table entry hn hg
  · have hg0 : w.db.catalog.entries.get? table = some entry := by
      rw [← hkept.entry table hn]
      exact hg
    obtain ⟨columns, page, slots, hdecl, hat, hp⟩ := h.tables table entry hg0
    have hdeclared : (w.step stmt).declared.get? table = w.declared.get? table := by
      cases stmt with
      | createTable create =>
        have hne : create.name ≠ table := fun e => hn (by rw [← e]; exact List.mem_singleton_self _)
        simp only [step]
        split
        · rw [OrdDict.get?_set, if_neg hne]
        · rfl
      | _ => rfl
    have hconstraints : (w.step stmt).db.constraints.get? table =
        w.db.constraints.get? table := by
      change (w.db.execute stmt).2.constraints.get? table = _
      rw [constraints_execute]
      cases stmt with
      | createTable create =>
        exact if_neg fun hx => hn (by rw [← hx.2]; exact List.mem_singleton_self _)
      | _ => rfl
    refine ⟨columns, page, slots, ⟨?_, hdecl.names, hdecl.schema, ?_⟩, ?_,
      hkeep table columns entry _ hn hp⟩
    · rw [hdeclared]
      exact hdecl.declared
    · rw [← hdecl.constraints, Database.tableConstraints, Database.tableConstraints, hconstraints]
    · exact hat.congr (hkept.page table entry hn hg0) hkept.pageSize hkept.grows

/-- A CREATE TABLE that adds no table. -/
private theorem tables_unmade (h : Holds P w) {create : CreateTable} {e : PyErr}
    (hexec : ∃ store', execCreateTable w.db.catalog w.db.store create =
      (.error e, w.db.catalog, store') ∧ store'.file = w.db.store.file ∧
        store'.pageSize = w.db.store.pageSize)
    (hkeep : ∀ table columns entry rows, P table columns entry rows → Q table columns entry rows)
    {table : String} {entry : TableMeta}
    (hg : (w.step (.createTable create)).db.catalog.entries.get? table = some entry) :
    ∃ columns page slots, (w.step (.createTable create)).Declared table columns entry ∧
      TableAt (w.step (.createTable create)).db.store entry page slots ∧
      Q table columns entry (Heap.liveRows slots) := by
  obtain ⟨store', hexec, hfile, hsize⟩ := hexec
  have hstep : w.step (.createTable create) = ⟨{ w.db with store := store' }, w.declared⟩ := by
    have hrun : (w.db.execute (.createTable create)).2 = { w.db with store := store' } := by
      rw [Database.execute_createTable, hexec]
      rfl
    rw [step, hrun]
    simp only
    rw [if_neg fun hx => by rw [hx.1] at hx; cases hx.2]
  rw [hstep] at hg ⊢
  obtain ⟨columns, page, slots, hdecl, hat, hp⟩ := h.tables table entry hg
  refine ⟨columns, page, slots, ⟨hdecl.declared, hdecl.names, hdecl.schema, hdecl.constraints⟩,
    hat.congr ?_ hsize (Nat.le_of_eq (by rw [hfile])), hkeep _ _ _ _ hp⟩
  simp only [rawRead, hfile]

/-- A CREATE TABLE. -/
private theorem tables_create (h : Holds P w) {create : CreateTable}
    (hplace : w.db.InPlace (.createTable create))
    (hkeep : ∀ table columns entry rows, P table columns entry rows → Q table columns entry rows)
    (hnew : ∀ entry, Q create.name create.columns entry []) : Holds Q (w.step (.createTable create)) := by
  refine tables_other h _ (fun table columns entry rows _ => hkeep table columns entry rows) ?_
  intro table entry hn hg
  obtain rfl : table = create.name := List.mem_singleton.mp hn
  obtain ⟨head, body, ps, hin⟩ := h.intact
  cases hres : resolveColumns create.columns with
  | error e =>
    refine tables_unmade h (e := e) ⟨w.db.store, ?_, rfl, rfl⟩ hkeep hg
    rw [execCreateTable, hres]
  | ok schema =>
    have hexec : execCreateTable w.db.catalog w.db.store create =
        w.db.catalog.createTable w.db.store create.name schema := by rw [execCreateTable, hres]
    rcases createTable_cases hin create.name schema with ⟨-, e, he⟩ | ⟨-, -, e, he⟩ |
      ⟨pid, store', body', result, he, hcr, hin'⟩
    · exact tables_unmade h ⟨w.db.store, hexec.trans he, rfl, rfl⟩ hkeep hg
    · exact tables_unmade h ⟨_, hexec.trans he, rfl, rfl⟩ hkeep hg
    · have hlt : pid < 256 ^ 4 := hin'.sound.id_lt (readPage_lt hcr.read)
      have hsize := size_made hin schema hcr.new hlt
      have hwrite := hplace.2 schema (by rw [hres]; rfl)
      simp only [Catalog.Writable, hsize] at hwrite
      cases result with
      | error e => exact absurd hwrite (hcr.refused rfl).2
      | ok u =>
        have hrun : (w.db.execute (.createTable create)).2 = { w.db with
            catalog := ⟨w.db.catalog.entries.set create.name
              { name := create.name, rootPageId := pid, schema := schema }⟩
            store := store'
            constraints := w.db.constraints.set create.name
              (Database.columnConstraints create.columns) } := by
          rw [Database.execute_createTable, hexec, he]
          rfl
        have hcontains : w.db.catalog.entries.contains create.name = false := by
          rw [OrdDict.contains, hcr.new]
          rfl
        have hstep : w.step (.createTable create) = ⟨(w.db.execute (.createTable create)).2,
            w.declared.set create.name create.columns⟩ := by
          rw [step, hrun]
          simp only
          rw [if_pos ⟨hcontains, by rw [OrdDict.contains, OrdDict.get?_set, if_pos rfl]; rfl⟩]
        rw [hstep, hrun] at hg ⊢
        simp only [OrdDict.get?_set, ↓reduceIte, Option.some.injEq] at hg
        subst hg
        refine ⟨create.columns, _, [], ⟨?_, hplace.1, hres, ?_⟩,
          tableAt_fresh hin'.sound.toReadable hcr.read rfl, hnew _⟩
        · simp only [OrdDict.get?_set, ↓reduceIte]
        · simp only [Database.tableConstraints, OrdDict.get?_set, ↓reduceIte, Option.getD_some]

/-- An INSERT, UPDATE or DELETE writes pages and nothing else. -/
private theorem step_target {stmt : Statement} {table : String} (ht : stmt.target = some table) :
    ∃ store, w.step stmt = ⟨{ w.db with store := store }, w.declared⟩ := by
  have hdeclared : (w.step stmt).declared = w.declared := by
    cases stmt with
    | createTable create => cases ht
    | _ => rfl
  rcases w.db.execute_cases stmt with ⟨store, he⟩ | ⟨create, rfl⟩ | ⟨drop, rfl⟩ | ⟨rfl, -⟩ | rfl
  · refine ⟨store, ?_⟩
    rw [← he, ← hdeclared]
    rfl
  all_goals cases ht

/-- What a statement makes of the rows of the table it writes. -/
private theorem rowsStep_target {stmt : Statement} {table : String} {entry : TableMeta}
    {page : Page} {slots : List (Slot entry.heap.schema)} (ht : stmt.target = some table)
    (hg : w.db.catalog.entries.get? table = some entry) (hat : TableAt w.db.store entry page slots)
    (hplace : w.db.InPlace stmt) :
    ∃ page' slots', TableAt (w.db.execute stmt).2.store entry page' slots' ∧
      w.db.RowsStep entry (Heap.liveRows slots) (Heap.liveRows slots') stmt := by
  have hget := getTable_eq_ok.mpr hg
  cases stmt with
  | insert stmt =>
    cases ht
    exact Database.rowsStep_insert hat stmt hget (hplace entry hg)
  | update stmt =>
    cases ht
    exact Database.rowsStep_update hat stmt hget (hplace entry hg).1 (hplace entry hg).2
  | delete stmt =>
    cases ht
    exact Database.rowsStep_delete hat stmt hget
  | _ => cases ht

/-- **One statement** of a run, for a property of the rows of every table. -/
theorem tables_step (h : Holds P w) {stmt : Statement} (hedit : stmt.Edits)
    (hplace : w.db.InPlace stmt)
    (hkeep : ∀ table columns entry rows, stmt.target ≠ some table → P table columns entry rows →
      Q table columns entry rows)
    (hnew : ∀ create, stmt = .createTable create → ∀ entry, Q create.name create.columns entry [])
    (hrows : ∀ table columns entry rows rows', stmt.target = some table →
      w.db.catalog.entries.get? table = some entry → w.Declared table columns entry →
      w.db.store.rowsOf entry = rows → (rows.map Prod.fst).Nodup → ReadsBack entry rows →
      P table columns entry rows →
      w.db.RowsStep entry rows rows' stmt → (rows'.map Prod.fst).Nodup →
      Q table columns entry rows') : Holds Q (w.step stmt) := by
  have hdml : ∀ target, stmt.target = some target → stmt.names = [target] →
      Holds Q (w.step stmt) := by
    intro target ht hnames
    refine tables_other h stmt (fun table columns entry rows hn => hkeep table columns entry rows
      fun e => hn (by rw [ht, Option.some.injEq] at e; rw [hnames, e]; exact List.mem_singleton_self _)) ?_
    intro table entry hn hg
    obtain rfl : table = target := by rwa [hnames, List.mem_singleton] at hn
    obtain ⟨store, hstep⟩ := step_target (w := w) ht
    have hg0 : w.db.catalog.entries.get? table = some entry := by
      rw [hstep] at hg
      exact hg
    obtain ⟨columns, page, slots, hdecl, hat, hp⟩ := h.tables table entry hg0
    obtain ⟨page', slots', hat', hrs⟩ := rowsStep_target ht hg0 hat hplace
    have hstore : (w.db.execute stmt).2.store = store :=
      congrArg (fun w : Watched => w.db.store) hstep
    rw [hstore] at hat'
    rw [hstep]
    exact ⟨columns, page', slots', ⟨hdecl.declared, hdecl.names, hdecl.schema, hdecl.constraints⟩,
      hat', hrows table columns entry _ _ ht hg0 hdecl hat.rowsOf hat.nodup
        (readsBack_live slots) hp hrs hat'.nodup⟩
  cases stmt with
  | createTable create =>
    exact tables_create h hplace (fun table columns entry rows =>
      hkeep table columns entry rows (by simp [Statement.target])) (hnew create rfl)
  | insert stmt => exact hdml stmt.table rfl rfl
  | update stmt => exact hdml stmt.table rfl rfl
  | delete stmt => exact hdml stmt.table rfl rfl
  | _ => exact hedit.elim

/-- A new database has no tables. -/
theorem holds_new {pageSize : Nat} {db : Database}
    (h : Database.openDatabase ⟨[], none⟩ pageSize = .ok db) :
    Holds P ⟨db, OrdDict.empty⟩ := by
  obtain ⟨body, hin, -, hcat, -⟩ := openDatabase_new h
  refine ⟨⟨0, body, [], hin⟩, fun table entry hg => ?_⟩
  simp only [hcat] at hg
  cases hg

end Watched
end TinyDB
