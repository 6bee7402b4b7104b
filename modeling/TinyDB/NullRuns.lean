import TinyDB.KeyRuns

/-!
# NOT NULL over whole runs

INSERT checks the values that are listed, not the columns, and UPDATE checks nothing.
`nulls_hold`: in every state of a run in which INSERT lists each NOT NULL column and
UPDATE gives it no NULL, such a column reads back as NULL only where INT 0 was
stored.
-/

namespace TinyDB

open Lib

/-- The FLOAT that reads back as NULL. -/
def Value.isZeroFloat : Value → Bool
  | .float f => f.bits == 0
  | _ => false

theorem readBack_eq_null {v : Value} (h : readBack v = .null) (hn : v ≠ .null)
    (hf : v.isZeroFloat = false) : v = .int 0 := by
  cases v with
  | null => exact absurd rfl hn
  | int i =>
    by_cases hi : i = 0
    · rw [hi]
    · simp only [readBack, hi, ↓reduceIte, reduceCtorEq] at h
  | float f =>
    have hb : f.bits ≠ 0 := by simpa [Value.isZeroFloat] using hf
    simp only [readBack, hb, ↓reduceIte, reduceCtorEq] at h
  | text s => cases h
  | bool b => cases h

/-- Coercing makes no NULL and no zero FLOAT of another value. -/
theorem coerce_spec {v w : Value} {t : ColumnType} (h : coerce v t = .ok w) :
    (w = .null → v = .null) ∧ w.isZeroFloat = v.isZeroFloat := by
  cases t <;> cases v <;> simp only [coerce, coerceIn, Except.ok.injEq, reduceCtorEq] at h <;>
    subst h <;> simp [Value.isZeroFloat]

/-! ## What was stored -/

/-- A connection and the values that its statements stored in each row. -/
structure Recorded where
  watched : Watched
  stored : String → Nat → Row

/-- The values stored in a row that an UPDATE writes: a column that is not assigned keeps
what was stored there, and one named `rowid` takes the rowid. -/
def storedUpdate (assignments : RowDict) (rowid : Nat) (old : Row) (schema : Schema) : Row :=
  (List.range schema.length).map fun i =>
    let col := schema.getD i ("", .int)
    match assignments.get? col.1 with
    | some v =>
      match coerce v col.2 with
      | .ok v => v
      | .error _ => .null
    | none => if col.1 = "rowid" then .int rowid else old.getD i .null

namespace Recorded

/-- What is stored after a statement. -/
def record (db : Database) (stored : String → Nat → Row) (stmt : Statement) : String → Nat → Row :=
  match stmt with
  | .insert stmt =>
    match db.catalog.entries.get? stmt.table with
    | none => stored
    | some entry =>
      let rows := db.insertedRows entry stmt
      let next := db.store.nextRowid entry
      fun table rowid =>
        if table = stmt.table ∧ next ≤ rowid ∧ rowid < next + rows.length then
          rows.getD (rowid - next) []
        else stored table rowid
  | .update stmt =>
    match db.catalog.entries.get? stmt.table with
    | none => stored
    | some entry =>
      let rowids := (db.updatedRows entry stmt).map Prod.fst
      fun table rowid =>
        if table = stmt.table ∧ rowid ∈ rowids then
          storedUpdate (OrdDict.ofList stmt.assignments) rowid (stored table rowid) entry.schema
        else stored table rowid
  | _ => stored

def step (r : Recorded) (stmt : Statement) : Recorded :=
  ⟨r.watched.step stmt, record r.watched.db r.stored stmt⟩

/-- The rows read NULL in a NOT NULL column only where INT 0 was stored. -/
def NullLaw (stored : String → Nat → Row) (table : String) (columns : List ColumnDef)
    (schema : Schema) (rows : List (Nat × Row)) : Prop :=
  ∀ row ∈ rows, ∀ i ∈ pkIndices schema (columnsWith .notNull columns),
    row.2.getD i .null = .null → (stored table row.1).getD i .null = .int 0

def NullsHold (r : Recorded) : Prop :=
  ∀ table entry, r.watched.db.catalog.entries.get? table = some entry →
    ∃ columns rows, r.watched.declared.get? table = some columns ∧
      entry.heap.scan r.watched.db.store = .ok rows ∧
      NullLaw r.stored table columns entry.schema rows

/-- The columns that the connection knows to be NOT NULL. -/
def notNullColumns (constraints : ColumnConstraints) (schema : Schema) : List String :=
  (schema.map Prod.fst).filter fun name => constraints.has name .notNull

/-- Each accepted tuple of an INSERT has a value for each NOT NULL column, which is not FLOAT
0.0, and an UPDATE that writes a row gives such a column neither NULL nor FLOAT 0.0. -/
def KeepsNulls (r : Recorded) : Statement → Prop
  | .insert stmt => ∀ entry ∈ r.watched.db.catalog.entries.get? stmt.table,
      ∀ values ∈ stmt.values.take (r.watched.db.insertedRows entry stmt).length,
        ∀ name ∈ notNullColumns (r.watched.db.tableConstraints stmt.table) entry.schema,
          ∃ v ∈ (OrdDict.ofList ((insertColumns entry stmt.columns).zip values)).get? name,
            v.isZeroFloat = false
  | .update stmt => ∀ entry ∈ r.watched.db.catalog.entries.get? stmt.table,
      r.watched.db.updatedRows entry stmt = [] ∨
        ∀ name ∈ notNullColumns (r.watched.db.tableConstraints stmt.table) entry.schema,
          ∀ v ∈ (OrdDict.ofList stmt.assignments).get? name, v ≠ .null ∧ v.isZeroFloat = false
  | _ => True

instance (r : Recorded) (stmt : Statement) : Decidable (r.KeepsNulls stmt) :=
  match stmt with
  | .createTable _ | .dropTable _ | .insert _ | .select _ | .update _ | .delete _ | .begin
  | .commit | .rollback | .checkpoint | .explain _ => by unfold KeepsNulls; infer_instance

/-! ## The columns that the connection knows -/

theorem notNull_known {w : Watched} {table : String} {columns : List ColumnDef} {entry : TableMeta}
    (h : w.Declared table columns entry) {i : Nat}
    (hi : i ∈ pkIndices entry.schema (columnsWith .notNull columns)) :
    ∃ hlt : i < entry.schema.length,
      entry.schema[i].1 ∈ notNullColumns (w.db.tableConstraints table) entry.schema := by
  obtain ⟨hlt, hname⟩ := List.mem_filter.mp hi
  rw [List.mem_range] at hlt
  rw [decide_eq_true_eq, List.getD_eq_getElem?_getD, List.getElem?_eq_getElem hlt,
    Option.getD_some] at hname
  obtain ⟨col, hcol, hn⟩ := List.mem_map.mp hname
  obtain ⟨hmem, hc⟩ := List.mem_filter.mp hcol
  have hnames : ((columns.map fun col => (col.name, col.constraints)).map Prod.fst).Nodup := by
    rw [List.map_map]
    exact h.names
  have hget : (Database.columnConstraints columns).get? entry.schema[i].1 =
      some col.constraints := by
    rw [OrdDict.get?_eq_some_iff, Database.columnConstraints, OrdDict.ofList_entries _ hnames]
    exact List.mem_map.mpr ⟨col, hmem, by rw [hn]⟩
  refine ⟨hlt, List.mem_filter.mpr ⟨List.mem_map_of_mem (List.getElem_mem hlt), ?_⟩⟩
  rw [h.constraints, ColumnConstraints.has, hget]
  exact hc

/-! ## INSERT -/

theorem validateRow_notNull {entry : TableMeta} {constraints : ColumnConstraints}
    {pairs : List (String × Value)} (h : validateRow entry constraints pairs = .ok ())
    {pair : String × Value} (hm : pair ∈ pairs) (hc : constraints.has pair.1 .notNull = true) :
    pair.2 ≠ .null := by
  induction pairs with
  | nil => cases hm
  | cons first pairs ih =>
    obtain ⟨col, value⟩ := first
    simp only [validateRow, bind_eq_ok] at h
    obtain ⟨colType, -, h⟩ := h
    rcases List.mem_cons.mp hm with rfl | hm
    · rintro rfl
      simp only [↓reduceIte, hc] at h
      cases h
    · split at h
      · split at h
        · cases h
        · exact ih h hm
      · split at h
        · cases h
        · exact ih h hm

theorem coerceColumns_getD {find : String → Value} {schema : Schema} {row : Row}
    (h : coerceColumns find schema = .ok row) {i : Nat} (hi : i < schema.length) :
    coerce (find schema[i].1) schema[i].2 = .ok (row.getD i .null) := by
  induction schema generalizing row i with
  | nil => exact absurd hi (Nat.not_lt_zero i)
  | cons col schema ih =>
    obtain ⟨name, t⟩ := col
    simp only [coerceColumns, bind_eq_ok, Except.ok.injEq] at h
    obtain ⟨v, hv, rest, hrest, rfl⟩ := h
    cases i with
    | zero => exact hv
    | succ i => exact ih hrest (Nat.lt_of_succ_lt_succ hi)

/-- Each row that an INSERT adds comes from one of the tuples before the first that is
refused. -/
theorem insertWrites_prepared {entry : TableMeta} {constraints : ColumnConstraints}
    {colNames : List String} {rows : List Row} {valuesList : List (List Value)} {row : Row}
    (h : row ∈ insertWrites entry constraints colNames rows valuesList) :
    ∃ values ∈ valuesList.take (insertWrites entry constraints colNames rows valuesList).length,
      prepareRow entry constraints colNames values = .ok row := by
  induction valuesList generalizing rows with
  | nil => cases h
  | cons values rest ih =>
    cases ha : acceptTuple entry constraints colNames rows values with
    | error e =>
      rw [insertWrites, ha] at h
      cases h
    | ok ordered =>
      rw [insertWrites, ha] at h ⊢
      simp only [List.length_cons, List.take_succ_cons] at h ⊢
      rcases List.mem_cons.mp h with rfl | h
      · exact ⟨values, List.mem_cons_self .., (acceptTuple_eq_ok.mp ha).1⟩
      · obtain ⟨values', hm, hp⟩ := ih h
        exact ⟨values', List.mem_cons_of_mem _ hm, hp⟩

/-- A row of an INSERT that has a value for the column. -/
theorem prepared_notNull {entry : TableMeta} {constraints : ColumnConstraints}
    {colNames : List String} {values : List Value} {row : Row}
    (h : prepareRow entry constraints colNames values = .ok row) {i : Nat}
    (hi : i < entry.schema.length) (hc : constraints.has entry.schema[i].1 .notNull = true)
    (hv : ∃ v ∈ (OrdDict.ofList (colNames.zip values)).get? entry.schema[i].1,
      v.isZeroFloat = false) (hback : readBack (row.getD i .null) = .null) :
    row.getD i .null = .int 0 := by
  obtain ⟨v, hget, hzero⟩ := hv
  simp only [prepareRow, bind_eq_ok] at h
  obtain ⟨_, hvalid, hcoerce⟩ := h
  have hne : v ≠ .null := validateRow_notNull hvalid (OrdDict.mem_of_get?_ofList hget) hc
  have hval := coerceColumns_getD hcoerce hi
  rw [RowDict.find, hget, Option.getD_some] at hval
  obtain ⟨hnull, hfloat⟩ := coerce_spec hval
  exact readBack_eq_null hback (fun e => hne (hnull e)) (hfloat.trans hzero)

/-! ## The invariant -/

/-- What is kept of each table. -/
def NullSafe (stored : String → Nat → Row) (table : String) (columns : List ColumnDef)
    (entry : TableMeta) (rows : List (Nat × Row)) : Prop :=
  (∀ row ∈ rows, 0 < row.1) ∧ NullLaw stored table columns entry.schema rows

theorem NullSafe.congr {stored stored' : String → Nat → Row} {table : String}
    {columns : List ColumnDef} {entry : TableMeta} {rows : List (Nat × Row)}
    (h : NullSafe stored table columns entry rows)
    (hsame : ∀ row ∈ rows, stored' table row.1 = stored table row.1) :
    NullSafe stored' table columns entry rows := by
  refine ⟨h.1, fun row hrow i hi hnull => ?_⟩
  rw [hsame row hrow]
  exact h.2 row hrow i hi hnull

theorem record_other {db : Database} {stored : String → Nat → Row} {stmt : Statement}
    {table : String} (h : stmt.target ≠ some table) :
    record db stored stmt table = stored table := by
  cases stmt with
  | insert stmt =>
    have hne : table ≠ stmt.table := fun e => h (by rw [e]; rfl)
    cases hg : db.catalog.entries.get? stmt.table with
    | none => simp only [record, hg]
    | some entry =>
      funext rowid
      simp only [record, hg]
      exact if_neg fun hx => hne hx.1
  | update stmt =>
    have hne : table ≠ stmt.table := fun e => h (by rw [e]; rfl)
    cases hg : db.catalog.entries.get? stmt.table with
    | none => simp only [record, hg]
    | some entry =>
      funext rowid
      simp only [record, hg]
      exact if_neg fun hx => hne hx.1
  | _ => rfl

variable {r : Recorded} {columns : List ColumnDef} {entry : TableMeta}
  {rows rows' : List (Nat × Row)}

private theorem nullSafe_insert {stmt : Insert}
    (hg : r.watched.db.catalog.entries.get? stmt.table = some entry)
    (hdecl : r.watched.Declared stmt.table columns entry)
    (h : NullSafe r.stored stmt.table columns entry rows)
    (hkeep : ∀ values ∈ stmt.values.take (r.watched.db.insertedRows entry stmt).length,
      ∀ name ∈ notNullColumns (r.watched.db.tableConstraints stmt.table) entry.schema,
        ∃ v ∈ (OrdDict.ofList ((insertColumns entry stmt.columns).zip values)).get? name,
          v.isZeroFloat = false)
    (hstep : r.watched.db.RowsStep entry rows rows' (.insert stmt)) :
    NullSafe (record r.watched.db r.stored (.insert stmt)) stmt.table columns entry rows' := by
  obtain ⟨hlt, rfl⟩ := hstep
  have hrecord : ∀ rowid, record r.watched.db r.stored (.insert stmt) stmt.table rowid =
      if r.watched.db.store.nextRowid entry ≤ rowid ∧ rowid < r.watched.db.store.nextRowid entry +
        (r.watched.db.insertedRows entry stmt).length then
        (r.watched.db.insertedRows entry stmt).getD
          (rowid - r.watched.db.store.nextRowid entry) []
      else r.stored stmt.table rowid := fun rowid => by simp only [record, hg, true_and]
  have hnext : 0 < r.watched.db.store.nextRowid entry := Nat.succ_pos _
  have hold : NullSafe (record r.watched.db r.stored (.insert stmt)) stmt.table columns entry
      rows := h.congr fun row hrow => by
    have := hlt row hrow
    rw [hrecord, if_neg (by omega)]
  -- a new row reads back what its tuple was made into
  have hnew : ∀ row ∈ (List.range' (r.watched.db.store.nextRowid entry)
      (r.watched.db.insertedRows entry stmt).length).zip
        ((r.watched.db.insertedRows entry stmt).map readBackRow),
      0 < row.1 ∧ record r.watched.db r.stored (.insert stmt) stmt.table row.1 ∈
        r.watched.db.insertedRows entry stmt ∧
      row.2 = readBackRow (record r.watched.db r.stored (.insert stmt) stmt.table row.1) := by
    intro row hrow
    obtain ⟨j, hj, rfl⟩ := List.mem_iff_getElem.mp hrow
    have hj' : j < (r.watched.db.insertedRows entry stmt).length := by
      simpa [List.length_zip, List.length_range'] using hj
    rw [List.getElem_zip, List.getElem_range', List.getElem_map, hrecord,
      if_pos (by omega), Nat.one_mul, Nat.add_sub_cancel_left, List.getD_eq_getElem?_getD,
      List.getElem?_eq_getElem hj', Option.getD_some]
    exact ⟨by omega, List.getElem_mem hj', rfl⟩
  constructor
  · intro row hrow
    rcases List.mem_append.mp hrow with hrow | hrow
    · exact hold.1 row hrow
    · exact (hnew row hrow).1
  · intro row hrow i hi hnull
    rcases List.mem_append.mp hrow with hrow | hrow
    · exact hold.2 row hrow i hi hnull
    · obtain ⟨-, hmem, hback⟩ := hnew row hrow
      obtain ⟨values, hvalues, hprep⟩ := insertWrites_prepared hmem
      obtain ⟨hlen, hname⟩ := notNull_known hdecl hi
      rw [hback, Watched.getD_readBackRow] at hnull
      exact prepared_notNull hprep hlen (List.mem_filter.mp hname).2
        (hkeep values hvalues _ hname) hnull

private theorem nullSafe_update {stmt : Update}
    (hg : r.watched.db.catalog.entries.get? stmt.table = some entry)
    (hdecl : r.watched.Declared stmt.table columns entry)
    (hrows : r.watched.db.store.rowsOf entry = rows) (hback : ReadsBack entry rows)
    (h : NullSafe r.stored stmt.table columns entry rows)
    (hkeep : r.watched.db.updatedRows entry stmt = [] ∨
      ∀ name ∈ notNullColumns (r.watched.db.tableConstraints stmt.table) entry.schema,
        ∀ v ∈ (OrdDict.ofList stmt.assignments).get? name, v ≠ .null ∧ v.isZeroFloat = false)
    (hstep : r.watched.db.RowsStep entry rows rows' (.update stmt)) :
    NullSafe (record r.watched.db r.stored (.update stmt)) stmt.table columns entry rows' := by
  have hrecord : ∀ rowid, record r.watched.db r.stored (.update stmt) stmt.table rowid =
      if rowid ∈ (r.watched.db.updatedRows entry stmt).map Prod.fst then
        storedUpdate (OrdDict.ofList stmt.assignments) rowid (r.stored stmt.table rowid)
          entry.schema
      else r.stored stmt.table rowid := fun rowid => by simp only [record, hg, true_and]
  have hrow : ∀ rowid old, (rowid, old) ∈ r.watched.db.updatedRows entry stmt →
      (rowid, old) ∈ rows := fun rowid old hh => by
    rw [← hrows]
    exact mem_of_mem_hits ((List.takeWhile_sublist _).subset hh)
  constructor
  · rintro ⟨rowid, values⟩ hm
    rcases (hstep rowid values).mp hm with ⟨old, new, hh, -, -⟩ | ⟨-, hm⟩
    · exact h.1 (rowid, old) (hrow rowid old hh)
    · exact h.1 (rowid, values) hm
  · rintro ⟨rowid, values⟩ hm i hi hnull
    obtain ⟨hlen, hname⟩ := notNull_known hdecl hi
    rcases (hstep rowid values).mp hm with ⟨old, new, hh, hnew, rfl⟩ | ⟨hnot, hm⟩
    · have hmem := hrow rowid old hh
      rw [hrecord, if_pos (List.mem_map_of_mem (f := Prod.fst) hh), storedUpdate,
        List.getD_eq_getElem?_getD,
        List.getElem?_eq_getElem (by simpa using hlen), Option.getD_some, List.getElem_map,
        List.getElem_range, List.getD_eq_getElem?_getD, List.getElem?_eq_getElem hlen,
        Option.getD_some]
      rw [Watched.getD_readBackRow] at hnull
      cases hassign : (OrdDict.ofList stmt.assignments).get? entry.schema[i].1 with
      | some v =>
        have hval := Database.newValues_assigned hnew hlen hassign
        simp only [hassign, hval]
        obtain ⟨hne, hzero⟩ := hkeep.resolve_left (List.ne_nil_of_mem hh) _ hname v hassign
        obtain ⟨hcn, hcf⟩ := coerce_spec hval
        exact readBack_eq_null hnull (fun e => hne (hcn e)) (hcf.trans hzero)
      | none =>
        obtain ⟨stored, hslen, rfl⟩ := hback _ hmem
        have hblen : (readBackRow stored).length = entry.schema.length := by
          rw [readBackRow, List.length_map, hslen]
        have hval := Database.newValues_unassigned hdecl.schema_names hblen hnew hlen hassign
        simp only [hassign]
        by_cases hrid : entry.schema[i].1 = "rowid"
        · rw [if_pos hrid] at hval ⊢
          rw [hval] at hnull
          have hpos : (rowid : Int) ≠ 0 := by
            have := h.1 _ hmem
            simp only at this
            omega
          simp only [readBack, hpos, ↓reduceIte, reduceCtorEq] at hnull
        · rw [if_neg hrid] at hval ⊢
          rw [hval, Watched.getD_readBackRow, readBack_readBack, ← Watched.getD_readBackRow] at hnull
          exact h.2 _ hmem i hi hnull
    · rw [hrecord, if_neg hnot]
      exact h.2 _ hm i hi hnull

/-- **One statement** keeps NULL out of the NOT NULL columns of every table. -/
theorem nullSafe_step (h : Watched.Holds (NullSafe r.stored) r.watched) {stmt : Statement}
    (hedit : stmt.Edits) (hplace : r.watched.db.InPlace stmt) (hkeep : r.KeepsNulls stmt) :
    Watched.Holds (NullSafe (r.step stmt).stored) (r.step stmt).watched := by
  refine Watched.tables_step h hedit hplace ?_ ?_ ?_
  · intro table columns entry rows hother hp
    exact hp.congr fun row _ => congrFun (record_other hother) row.1
  · rintro create rfl entry
    exact ⟨fun _ hrow => absurd hrow List.not_mem_nil, fun _ hrow => absurd hrow List.not_mem_nil⟩
  · intro table columns entry rows rows' ht hg hdecl hrows hnodup hback hp hstep hn
    cases stmt with
    | insert stmt =>
      cases ht
      exact nullSafe_insert hg hdecl hp (hkeep entry hg) hstep
    | update stmt =>
      cases ht
      exact nullSafe_update hg hdecl hrows hback hp (hkeep entry hg) hstep
    | delete stmt =>
      exact ⟨fun row hrow => hp.1 row (hstep.subset hrow),
        fun row hrow => hp.2 row (hstep.subset hrow)⟩
    | _ => cases ht

theorem nullsHold_of_holds (h : Watched.Holds (NullSafe r.stored) r.watched) : r.NullsHold := by
  intro table entry hg
  obtain ⟨columns, page, slots, hdecl, hat, hp⟩ := h.tables table entry hg
  exact ⟨columns, _, hdecl.declared, Heap.scan_spec hat.heapAt, hp.2⟩

def opened (db : Database) : Recorded := ⟨⟨db, OrdDict.empty⟩, fun _ _ => []⟩

/-- **NOT NULL holds.** In every state of every run of CREATE TABLE, INSERT, UPDATE and DELETE
whose steps keep to the conditions, a NOT NULL column reads back as NULL only where INT 0 was
stored. -/
theorem nulls_hold (pageSize : Nat) (db : Database) (stmts : List Statement)
    (hopen : Database.openDatabase ⟨[], none⟩ pageSize = .ok db) (hedit : ∀ s ∈ stmts, s.Edits)
    (hsteps : Along step (fun r stmt => r.watched.db.InPlace stmt ∧ r.KeepsNulls stmt) (opened db)
      stmts) : Reached step NullsHold (opened db) stmts := by
  have hstart : Watched.Holds (NullSafe (opened db).stored) (opened db).watched :=
    Watched.holds_new hopen
  generalize opened db = r at hstart hsteps
  clear hopen
  induction stmts generalizing r with
  | nil => exact nullsHold_of_holds hstart
  | cons stmt stmts ih =>
    refine ⟨nullsHold_of_holds hstart, ih (fun s hs => hedit s (List.mem_cons_of_mem _ hs)) _ ?_
      hsteps.2⟩
    exact nullSafe_step hstart (hedit stmt (List.mem_cons_self ..)) hsteps.1.1 hsteps.1.2

def strictRun : List Statement :=
  [.createTable ⟨"t", [⟨"a", "INT", [.notNull]⟩, ⟨"b", "TEXT", []⟩], false⟩,
    .insert ⟨"t", some ["b", "a"], [[.text "x", .int 0], [.null, .int 2], [.null, .null]]⟩,
    .update ⟨"t", [("b", .null)], none⟩,
    .update ⟨"t", [("a", .int 5)], some (.binaryOp .eq (.column "a") (.sqlLiteral (.int 2) "2"))⟩,
    .delete ⟨"t", some (.binaryOp .eq (.column "a") (.sqlLiteral (.int 5) "5"))⟩]

/-- A column list out of order, INT 0, a refused NULL, two UPDATEs and a DELETE. -/
theorem nulls_hold_run : Reached step NullsHold (opened (Database.newDatabase [])) strictRun :=
  nulls_hold 512 (Database.newDatabase []) strictRun (by decide +kernel) (by decide)
    (by decide +kernel)

/-- An INSERT leaves a NOT NULL column out. -/
theorem insert_leaves_out : ¬ ∀ (pageSize : Nat) (db : Database) (stmts : List Statement),
    Database.openDatabase ⟨[], none⟩ pageSize = .ok db → (∀ s ∈ stmts, s.Edits) →
      Reached step NullsHold (opened db) stmts := by
  intro h
  let stmts : List Statement :=
    [.createTable ⟨"t", [⟨"a", "INT", [.notNull]⟩, ⟨"b", "INT", []⟩], false⟩,
      .insert ⟨"t", some ["b"], [[.int 1]]⟩]
  have hlast := (h 512 (Database.newDatabase []) stmts (by decide +kernel) (by decide)).last
  let entry : TableMeta := { name := "t", rootPageId := 1, schema := [("a", .int), ("b", .int)] }
  obtain ⟨columns, rows, hdecl, hscan, hlaw⟩ := hlast "t" entry (by decide +kernel)
  have hd : (run step (opened (Database.newDatabase [])) stmts).watched.declared.get? "t" =
      some [⟨"a", "INT", [.notNull]⟩, ⟨"b", "INT", []⟩] := by decide +kernel
  have hs : entry.heap.scan (run step (opened (Database.newDatabase [])) stmts).watched.db.store =
      .ok [(1, [.null, .int 1])] := by decide +kernel
  rw [hd, Option.some.injEq] at hdecl
  rw [hs, Except.ok.injEq] at hscan
  subst hdecl hscan
  have hzero := hlaw (1, [.null, .int 1]) (List.mem_singleton_self _) 0 (by decide) rfl
  have hnull : ((run step (opened (Database.newDatabase [])) stmts).stored "t" 1).getD 0 .null =
      .null := by decide +kernel
  rw [hnull] at hzero
  cases hzero

end Recorded
end TinyDB
