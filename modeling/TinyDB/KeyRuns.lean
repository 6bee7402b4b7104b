import TinyDB.TableRuns

/-!
# Keys over whole runs

INSERT compares the PRIMARY KEY columns of a tuple with those of the rows a scan
returns. A 0 is not found in what it reads back as, UPDATE compares nothing, and
UNIQUE is not looked at. `keys_hold`: in every state of a run in which none of
these comes into play, no two rows of a table agree on its key or on a column that
is declared UNIQUE.
-/

namespace TinyDB

open Lib

/-! ## Agreeing rows -/

/-- The values of the named columns. -/
def valuesOf (schema : Schema) (names : List String) (row : Row) : List Value :=
  keyOf (pkIndices schema names) row

/-- The rows agree on all the named columns. -/
def Agree (schema : Schema) (names : List String) (a b : Row) : Prop :=
  Value.pyEqAll (valuesOf schema names a) (valuesOf schema names b) = true

instance (schema : Schema) (names : List String) (a b : Row) : Decidable (Agree schema names a b) :=
  inferInstanceAs (Decidable (_ = true))

theorem Agree.symm {schema : Schema} {names : List String} {a b : Row} (h : Agree schema names a b) :
    Agree schema names b a := by
  rwa [Agree, Value.pyEqAll_comm]

instance (schema : Schema) (names : List String) :
    Std.Symm fun a b : Nat × Row => ¬ Agree schema names a.2 b.2 :=
  ⟨fun _ _ hab hba => hab hba.symm⟩

/-- The columns that are declared with the constraint. -/
def columnsWith (c : Constraint) (columns : List ColumnDef) : List String :=
  (columns.filter fun col => col.constraints.contains c).map ColumnDef.name

/-- No two rows agree on the PRIMARY KEY columns, or on a value of a UNIQUE column that is
not NULL. -/
def KeyLaw (columns : List ColumnDef) (schema : Schema) (rows : List (Nat × Row)) : Prop :=
  (columnsWith .primaryKey columns ≠ [] →
    rows.Pairwise fun a b => ¬ Agree schema (columnsWith .primaryKey columns) a.2 b.2) ∧
  ∀ col ∈ columnsWith .unique columns, rows.Pairwise fun a b =>
    ¬ (Agree schema [col] a.2 b.2 ∧ ∀ v ∈ valuesOf schema [col] a.2, v ≠ .null)

namespace Watched

/-- Every table can be read and its rows obey the law. -/
def KeysHold (w : Watched) : Prop :=
  ∀ table entry, w.db.catalog.entries.get? table = some entry →
    ∃ columns rows, w.declared.get? table = some columns ∧
      entry.heap.scan w.db.store = .ok rows ∧ KeyLaw columns entry.schema rows

/-- A UNIQUE column is the whole PRIMARY KEY, an INSERT puts no 0 that reads back as NULL into
a PRIMARY KEY column, and an UPDATE that writes a row gives no value to one. -/
def KeepsKeys (w : Watched) : Statement → Prop
  | .createTable create => ∀ col ∈ columnsWith .unique create.columns,
      columnsWith .primaryKey create.columns = [col]
  | .insert stmt => ∀ entry ∈ w.db.catalog.entries.get? stmt.table,
      ∀ row ∈ w.db.insertedRows entry stmt,
        ∀ v ∈ valuesOf entry.schema (pkCols (w.db.tableConstraints stmt.table)) row, readBack v = v
  | .update stmt => ∀ entry ∈ w.db.catalog.entries.get? stmt.table,
      w.db.updatedRows entry stmt = [] ∨
        ∀ name ∈ pkCols (w.db.tableConstraints stmt.table),
          name ≠ "rowid" ∧ name ∉ stmt.assignments.map Prod.fst
  | _ => True

instance (w : Watched) (stmt : Statement) : Decidable (w.KeepsKeys stmt) :=
  match stmt with
  | .createTable _ | .dropTable _ | .insert _ | .select _ | .update _ | .delete _ | .begin
  | .commit | .rollback | .checkpoint | .explain _ => by unfold KeepsKeys; infer_instance

/-! ## The columns that the connection knows -/

theorem Declared.pkCols {w : Watched} {table : String} {columns : List ColumnDef}
    {entry : TableMeta} (h : w.Declared table columns entry) :
    pkCols (w.db.tableConstraints table) = columnsWith .primaryKey columns := by
  have hnames : ((columns.map fun col => (col.name, col.constraints)).map Prod.fst).Nodup := by
    rw [List.map_map]
    exact h.names
  rw [h.constraints, TinyDB.pkCols, Database.columnConstraints, OrdDict.ofList_entries _ hnames,
    columnsWith, List.filter_map, List.map_map]
  rfl

/-! ## INSERT -/

/-- The rows that are accepted one after the other differ from all before them. -/
theorem insertWrites_differ {entry : TableMeta} {constraints : ColumnConstraints}
    {colNames : List String} (hpk : pkCols constraints ≠ []) {rows : List Row}
    {valuesList : List (List Value)}
    (hzero : ∀ row ∈ insertWrites entry constraints colNames rows valuesList,
      ∀ v ∈ valuesOf entry.schema (pkCols constraints) row, readBack v = v)
    (h : rows.Pairwise fun a b => ¬ Agree entry.schema (pkCols constraints) a b) :
    (rows ++ (insertWrites entry constraints colNames rows valuesList).map readBackRow).Pairwise
      fun a b => ¬ Agree entry.schema (pkCols constraints) a b := by
  induction valuesList generalizing rows with
  | nil =>
    rw [insertWrites, List.map_nil, List.append_nil]
    exact h
  | cons values rest ih =>
    cases ha : acceptTuple entry constraints colNames rows values with
    | error e =>
      rw [insertWrites, ha]
      simpa only [List.map_nil, List.append_nil] using h
    | ok ordered =>
      rw [insertWrites, ha] at hzero ⊢
      simp only at hzero ⊢
      have hback : valuesOf entry.schema (pkCols constraints) (readBackRow ordered) =
          valuesOf entry.schema (pkCols constraints) ordered := by
        have hz := hzero ordered (List.mem_cons_self ..)
        unfold valuesOf keyOf at hz ⊢
        refine List.map_congr_left fun i hi => ?_
        have hv := hz _ (List.mem_map_of_mem hi)
        rw [← hv]
        simp only [readBackRow, List.getD_eq_getElem?_getD, List.getElem?_map]
        cases ordered[i]? <;> simp [readBack]
      have hnew : (rows ++ [readBackRow ordered]).Pairwise
          fun a b => ¬ Agree entry.schema (pkCols constraints) a b := by
        rw [List.pairwise_append]
        refine ⟨h, List.pairwise_singleton _ _, fun row hrow b hb => ?_⟩
        rw [List.mem_singleton.mp hb]
        obtain ⟨-, hdiff, -⟩ := acceptTuple_eq_ok.mp ha
        have hd : Value.pyEqAll (valuesOf entry.schema (pkCols constraints) row)
            (valuesOf entry.schema (pkCols constraints) ordered) = false :=
          (hdiff.resolve_left hpk) row hrow
        rw [Agree, hback, hd]
        decide
      have hrest := ih (fun row hr => hzero row (List.mem_cons_of_mem _ hr)) hnew
      rw [List.append_assoc] at hrest
      exact hrest

/-! ## UPDATE -/

theorem getD_readBackRow (values : Row) (i : Nat) :
    (readBackRow values).getD i .null = readBack (values.getD i .null) := by
  simp only [readBackRow, List.getD_eq_getElem?_getD, List.getElem?_map]
  cases values[i]? <;> rfl

/-- An UPDATE that assigns none of the columns keeps their values. -/
theorem valuesOf_updated {schema : Schema} {names : List String} {assignments : RowDict}
    {rowid : Nat} {values new : Row} (hschema : (schema.map Prod.fst).Nodup)
    (hback : ∃ old : Row, old.length = schema.length ∧ values = readBackRow old)
    (h : newValues schema assignments (rowid, values) = .ok new)
    (hnot : ∀ name ∈ names, name ≠ "rowid" ∧ assignments.get? name = none) :
    valuesOf schema names (readBackRow new) = valuesOf schema names values := by
  obtain ⟨old, hlen, rfl⟩ := hback
  refine List.map_congr_left fun i hi => ?_
  obtain ⟨hi, hname⟩ := List.mem_filter.mp hi
  rw [List.mem_range] at hi
  rw [decide_eq_true_eq, List.getD_eq_getElem?_getD, List.getElem?_eq_getElem hi,
    Option.getD_some] at hname
  obtain ⟨hrowid, hnone⟩ := hnot _ hname
  have hlen' : (readBackRow old).length = schema.length := by rw [readBackRow, List.length_map, hlen]
  rw [getD_readBackRow, Database.newValues_unassigned hschema hlen' h hi hnone, if_neg hrowid,
    getD_readBackRow, readBack_readBack]

/-! ## The invariant -/

/-- What is kept of each table. -/
def Keyed (_table : String) (columns : List ColumnDef) (entry : TableMeta)
    (rows : List (Nat × Row)) : Prop :=
  (columnsWith .primaryKey columns ≠ [] → rows.Pairwise fun a b =>
    ¬ Agree entry.schema (columnsWith .primaryKey columns) a.2 b.2) ∧
  ∀ col ∈ columnsWith .unique columns, columnsWith .primaryKey columns = [col]

theorem Keyed.law {table : String} {columns : List ColumnDef} {entry : TableMeta}
    {rows : List (Nat × Row)} (h : Keyed table columns entry rows) :
    KeyLaw columns entry.schema rows := by
  refine ⟨h.1, fun col hcol => ?_⟩
  have hkey := h.2 col hcol
  have hpair := h.1 (by rw [hkey]; exact List.cons_ne_nil _ _)
  rw [hkey] at hpair
  exact hpair.imp fun hab hx => hab hx.1

variable {w : Watched}

/-- Rows with rowids of their own are pairwise different if any two are. -/
private theorem pairwise_rows {R : Row → Row → Prop} {rows : List (Nat × Row)}
    (hn : (rows.map Prod.fst).Nodup) (h : ∀ a ∈ rows, ∀ b ∈ rows, a.1 ≠ b.1 → R a.2 b.2) :
    rows.Pairwise fun a b => R a.2 b.2 :=
  hn.of_map.pairwise_of_forall_ne fun a ha b hb hab =>
    h a ha b hb fun e => hab (List.inj_on_of_nodup_map hn ha hb e)

private theorem keyed_insert {table : String} {columns : List ColumnDef} {entry : TableMeta}
    {rows rows' : List (Nat × Row)} {stmt : Insert} (hdecl : w.Declared table columns entry)
    (htable : stmt.table = table) (hrows : w.db.store.rowsOf entry = rows)
    (h : Keyed table columns entry rows)
    (hzero : ∀ row ∈ w.db.insertedRows entry stmt,
      ∀ v ∈ valuesOf entry.schema (pkCols (w.db.tableConstraints stmt.table)) row, readBack v = v)
    (hstep : w.db.RowsStep entry rows rows' (.insert stmt)) : Keyed table columns entry rows' := by
  subst htable
  obtain ⟨-, rfl⟩ := hstep
  refine ⟨fun hpk => ?_, h.2⟩
  have hkey := h.1 hpk
  rw [← hdecl.pkCols] at hpk hkey ⊢
  have hmap : (List.Pairwise (fun a b => ¬ Agree entry.schema
      (pkCols (w.db.tableConstraints stmt.table)) a b) (rows.map Prod.snd)) :=
    List.pairwise_map.mpr hkey
  have hins : w.db.insertedRows entry stmt = insertWrites entry
      (w.db.tableConstraints stmt.table) (insertColumns entry stmt.columns) (rows.map Prod.snd)
      stmt.values := by rw [Database.insertedRows, hrows]
  rw [hins] at hzero ⊢
  have hall := insertWrites_differ hpk hzero hmap
  generalize insertWrites entry (w.db.tableConstraints stmt.table)
    (insertColumns entry stmt.columns) (rows.map Prod.snd) stmt.values = inserted at hall ⊢
  have hsnd : ((List.range' (w.db.store.nextRowid entry) inserted.length).zip
      (inserted.map readBackRow)).map Prod.snd = inserted.map readBackRow :=
    List.map_snd_zip (by simp)
  rw [← hsnd, ← List.map_append] at hall
  exact List.pairwise_map.mp hall

private theorem keyed_update {table : String} {columns : List ColumnDef} {entry : TableMeta}
    {rows rows' : List (Nat × Row)} {stmt : Update} (hdecl : w.Declared table columns entry)
    (htable : stmt.table = table) (hrows : w.db.store.rowsOf entry = rows)
    (hback : ReadsBack entry rows) (h : Keyed table columns entry rows)
    (hnot : w.db.updatedRows entry stmt = [] ∨
      ∀ name ∈ pkCols (w.db.tableConstraints stmt.table),
        name ≠ "rowid" ∧ name ∉ stmt.assignments.map Prod.fst)
    (hstep : w.db.RowsStep entry rows rows' (.update stmt)) (hn : (rows'.map Prod.fst).Nodup) :
    Keyed table columns entry rows' := by
  subst htable
  refine ⟨fun hpk => ?_, h.2⟩
  have hkey := h.1 hpk
  rw [← hdecl.pkCols] at hkey ⊢
  -- every row after the statement has the key of the row with its rowid before it
  have hold : ∀ row ∈ rows', ∃ old, (row.1, old) ∈ rows ∧
      valuesOf entry.schema (pkCols (w.db.tableConstraints stmt.table)) row.2 =
        valuesOf entry.schema (pkCols (w.db.tableConstraints stmt.table)) old := by
    rintro ⟨rowid, values⟩ hrow
    rcases (hstep rowid values).mp hrow with ⟨old, new, hh, hnew, rfl⟩ | ⟨-, hm⟩
    · have hm : (rowid, old) ∈ rows := by
        rw [← hrows]
        exact mem_of_mem_hits ((List.takeWhile_sublist _).subset hh)
      refine ⟨old, hm, ?_⟩
      have hne : w.db.updatedRows entry stmt ≠ [] := List.ne_nil_of_mem hh
      refine valuesOf_updated hdecl.schema_names (hback _ hm) hnew fun name hname => ?_
      obtain ⟨hrowid, hassign⟩ := hnot.resolve_left hne name hname
      exact ⟨hrowid, (OrdDict.get?_ofList_eq_none_iff _ _).mpr hassign⟩
    · exact ⟨values, hm, rfl⟩
  refine pairwise_rows (R := fun a b => ¬ Agree entry.schema _ a b) hn fun a ha b hb hab => ?_
  obtain ⟨a0, ha0, hva⟩ := hold a ha
  obtain ⟨b0, hb0, hvb⟩ := hold b hb
  have hne : (a.1, a0) ≠ (b.1, b0) := fun e => hab (Prod.mk.inj e).1
  have hdiff := hkey.forall ha0 hb0 hne
  rw [Agree, hva, hvb]
  exact hdiff

/-- **One statement** keeps the keys of every table. -/
theorem keyed_step (h : Holds Keyed w) {stmt : Statement} (hedit : stmt.Edits)
    (hplace : w.db.InPlace stmt) (hkeep : w.KeepsKeys stmt) : Holds Keyed (w.step stmt) := by
  refine tables_step h hedit hplace (fun _ _ _ _ _ hp => hp) ?_ ?_
  · rintro create rfl entry
    exact ⟨fun _ => List.Pairwise.nil, hkeep⟩
  · intro table columns entry rows rows' ht hg hdecl hrows hnodup hback hp hstep hn
    cases stmt with
    | insert stmt =>
      cases ht
      exact keyed_insert hdecl rfl hrows hp (hkeep entry hg) hstep
    | update stmt =>
      cases ht
      exact keyed_update hdecl rfl hrows hback hp (hkeep entry hg) hstep hn
    | delete stmt => exact ⟨fun hpk => (hp.1 hpk).sublist hstep, hp.2⟩
    | _ => cases ht

theorem keysHold_of_holds (h : Holds Keyed w) : w.KeysHold := by
  intro table entry hg
  obtain ⟨columns, page, slots, hdecl, hat, hp⟩ := h.tables table entry hg
  exact ⟨columns, _, hdecl.declared, Heap.scan_spec hat.heapAt, hp.law⟩

/-- **Keys hold.** In every state of every run of CREATE TABLE, INSERT, UPDATE and DELETE
whose steps keep to the conditions, no two rows of a table agree on its PRIMARY KEY, or on a
value of a UNIQUE column. -/
theorem keys_hold (pageSize : Nat) (db : Database) (stmts : List Statement)
    (hopen : Database.openDatabase ⟨[], none⟩ pageSize = .ok db) (hedit : ∀ s ∈ stmts, s.Edits)
    (hsteps : Along step (fun w stmt => w.db.InPlace stmt ∧ w.KeepsKeys stmt) ⟨db, OrdDict.empty⟩
      stmts) : Reached step KeysHold ⟨db, OrdDict.empty⟩ stmts := by
  have hstart : Holds Keyed ⟨db, OrdDict.empty⟩ := holds_new hopen
  generalize (⟨db, OrdDict.empty⟩ : Watched) = w at hstart hsteps
  clear hopen
  induction stmts generalizing w with
  | nil => exact keysHold_of_holds hstart
  | cons stmt stmts ih =>
    refine ⟨keysHold_of_holds hstart, ih (fun s hs => hedit s (List.mem_cons_of_mem _ hs)) _ ?_
      hsteps.2⟩
    exact keyed_step hstart (hedit stmt (List.mem_cons_self ..)) hsteps.1.1 hsteps.1.2

def keyedRun : List Statement :=
  [.createTable ⟨"t", [⟨"a", "INT", [.primaryKey, .unique]⟩, ⟨"b", "TEXT", []⟩], false⟩,
    .insert ⟨"t", none, [[.int 1, .text "x"], [.int 2, .text "x"]]⟩,
    .insert ⟨"t", none, [[.int 3, .null], [.int 1, .null]]⟩,
    .update ⟨"t", [("b", .text "y")], none⟩,
    .delete ⟨"t", some (.binaryOp .eq (.column "a") (.sqlLiteral (.int 2) "2"))⟩]

/-- A clash inside an INSERT, an UPDATE beside the key and a DELETE. -/
theorem keys_hold_run : Reached step KeysHold ⟨Database.newDatabase [], OrdDict.empty⟩ keyedRun :=
  keys_hold 512 (Database.newDatabase []) keyedRun (by decide +kernel) (by decide)
    (by decide +kernel)

/-- An UPDATE gives two rows one key. -/
theorem update_repeats_key : ¬ ∀ (pageSize : Nat) (db : Database) (stmts : List Statement),
    Database.openDatabase ⟨[], none⟩ pageSize = .ok db → (∀ s ∈ stmts, s.Edits) →
      Reached step KeysHold ⟨db, OrdDict.empty⟩ stmts := by
  intro h
  let stmts : List Statement :=
    [.createTable ⟨"t", [⟨"a", "INT", [.primaryKey]⟩], false⟩,
      .insert ⟨"t", none, [[.int 1], [.int 2]]⟩, .update ⟨"t", [("a", .int 3)], none⟩]
  have hlast := (h 512 (Database.newDatabase []) stmts (by decide +kernel) (by decide)).last
  let entry : TableMeta := { name := "t", rootPageId := 1, schema := [("a", .int)] }
  obtain ⟨columns, rows, hdecl, hscan, hpk, -⟩ := hlast "t" entry (by decide +kernel)
  have hd : (run step ⟨Database.newDatabase [], OrdDict.empty⟩ stmts).declared.get? "t" =
      some [⟨"a", "INT", [.primaryKey]⟩] := by decide +kernel
  have hs : entry.heap.scan (run step ⟨Database.newDatabase [], OrdDict.empty⟩ stmts).db.store =
      .ok [(1, [.int 3]), (2, [.int 3])] := by decide +kernel
  rw [hd, Option.some.injEq] at hdecl
  rw [hs, Except.ok.injEq] at hscan
  subst hdecl hscan
  have hpair := hpk (by decide)
  rw [List.pairwise_cons] at hpair
  exact hpair.1 (2, [.int 3]) (List.mem_singleton_self _) (by decide +kernel)

end Watched
end TinyDB
