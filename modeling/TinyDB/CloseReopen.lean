import TinyDB.Blocks
import TinyDB.DmlStore
import TinyDB.Twins

/-!
# Closing and opening between two statements

`close()` and `Database(path)` give a twin of the database that was closed: the
tables, the rows and the free list come back, the constraints that CREATE TABLE
declared do not. `reopen_unobserved`: later statements notice nothing as long as
the catalog fits the header page and no INSERT into a table from before has a
tuple that its constraints judge differently than no constraints would.
-/

namespace TinyDB

open Lib FileStore

namespace Database

/-- What each of the statements returns or raises. -/
def results (db : Database) : List Statement → List (Except PyErr Result)
  | [] => []
  | stmt :: stmts => (db.execute stmt).1 :: (db.execute stmt).2.results stmts

end Database

/-- The constraints `a` and `b` judge every tuple of an INSERT alike, each on the page
that the tuples before it left. -/
def JudgedAlike (entry : TableMeta) (a b : ColumnConstraints) (colNames : List String) :
    FileStore → List (List Value) → Prop
  | _, [] => True
  | store, values :: valuesList =>
    checkTuple entry b colNames store values = checkTuple entry a colNames store values ∧
      match insertRow entry.heap entry a colNames store values with
      | .error _ => True
      | .ok store => JudgedAlike entry a b colNames store valuesList

instance JudgedAlike.instDecidable (entry : TableMeta) (a b : ColumnConstraints)
    (colNames : List String) :
    ∀ store valuesList, Decidable (JudgedAlike entry a b colNames store valuesList)
  | _, [] => isTrue True.intro
  | store, values :: valuesList =>
    @instDecidableAnd _ _ _ <|
      match insertRow entry.heap entry a colNames store values with
      | .error _ => isTrue True.intro
      | .ok store => JudgedAlike.instDecidable entry a b colNames store valuesList

/-- The table that a CREATE TABLE made. -/
def createdBy (db : Database) (stmt : Statement) : List String :=
  match stmt with
  | .createTable create => if (db.execute stmt).1.isOk = true then [create.name] else []
  | _ => []

def insertOf : Statement → Option Insert
  | .insert insert => some insert
  | _ => none

/-- An INSERT into a table that is not among those created since is judged as without
constraints. -/
def InsertUnaffected (created : List String) (db : Database) (stmt : Statement) : Prop :=
  ∀ insert ∈ insertOf stmt, insert.table ∈ created ∨
    ∀ entry ∈ db.catalog.entries.get? insert.table,
      JudgedAlike entry (db.tableConstraints insert.table) OrdDict.empty
        (insertColumns entry insert.columns) db.store insert.values

instance (created : List String) (db : Database) (stmt : Statement) :
    Decidable (InsertUnaffected created db stmt) := by
  unfold InsertUnaffected
  infer_instance

/-- Every INSERT of the statements is unaffected. -/
def Unaffected : List String → Database → List Statement → Prop
  | _, _, [] => True
  | created, db, stmt :: stmts =>
    InsertUnaffected created db stmt ∧
      Unaffected (createdBy db stmt ++ created) (db.execute stmt).2 stmts

instance Unaffected.instDecidable :
    ∀ created db stmts, Decidable (Unaffected created db stmts)
  | _, _, [] => isTrue True.intro
  | created, db, stmt :: stmts =>
    @instDecidableAnd _ _ _
      (Unaffected.instDecidable (createdBy db stmt ++ created) (db.execute stmt).2 stmts)

/-! ## The same results -/

theorem insertRows_judgedAlike {entry : TableMeta} {a b : ColumnConstraints}
    {colNames : List String} {store : FileStore} {valuesList : List (List Value)}
    (h : JudgedAlike entry a b colNames store valuesList) :
    insertRows entry.heap entry b colNames store valuesList =
      insertRows entry.heap entry a colNames store valuesList := by
  induction valuesList generalizing store with
  | nil => rfl
  | cons values valuesList ih =>
    obtain ⟨hcheck, hrest⟩ := h
    have hrow : insertRow entry.heap entry b colNames store values =
        insertRow entry.heap entry a colNames store values := by
      rw [insertRow_eq, insertRow_eq, hcheck]
    simp only [insertRows, hrow]
    cases hs : insertRow entry.heap entry a colNames store values with
    | error e => rfl
    | ok store1 =>
      rw [hs] at hrest
      exact ih hrest

/-- The second database has the constraints of the tables created since, and no others. -/
def Forgot (created : List String) (db db' : Database) : Prop :=
  ∀ table, (table ∈ created → db'.constraints.get? table = db.constraints.get? table) ∧
    (table ∉ created → db'.constraints.get? table = none)

theorem forgot_execute {created : List String} {db db' : Database} (h : Forgot created db db')
    {stmt : Statement} (hres : (db'.execute stmt).1 = (db.execute stmt).1) :
    Forgot (createdBy db stmt ++ created) (db.execute stmt).2 (db'.execute stmt).2 := by
  intro table
  have hold := h table
  rw [constraints_execute db stmt table, constraints_execute db' stmt table]
  cases stmt with
  | createTable create =>
    rw [hres]
    simp only [createdBy]
    by_cases hok : (db.execute (.createTable create)).1.isOk = true
    · by_cases he : create.name = table
      · simp [hok, he]
      · have hne : ¬ table = create.name := fun e => he e.symm
        simpa [hok, he, hne] using hold
    · simpa [hok] using hold
  | _ => simpa [createdBy] using hold

theorem sameInsert_of_unaffected {created : List String} {db db' : Database}
    (h : Forgot created db db') {insert : Insert}
    (hu : InsertUnaffected created db (.insert insert)) : SameInsert db db' insert := by
  intro entry hg
  obtain ⟨hkept, hlost⟩ := h insert.table
  by_cases hm : insert.table ∈ created
  · simp only [Database.tableConstraints, hkept hm]
  · have hjudged := (hu insert rfl).resolve_left hm entry (getTable_eq_ok.mp hg)
    have hnone : db'.tableConstraints insert.table = OrdDict.empty := by
      simp only [Database.tableConstraints, hlost hm, Option.getD_none]
    rw [hnone]
    exact insertRows_judgedAlike hjudged

/-- **Twins return the same,** one statement after the other. -/
theorem results_twin {created : List String} {db db' : Database} (h : Twin db db')
    (hf : Forgot created db db') {stmts : List Statement} (hu : Unaffected created db stmts) :
    db'.results stmts = db.results stmts := by
  induction stmts generalizing created db db' with
  | nil => rfl
  | cons stmt stmts ih =>
    obtain ⟨hone, hrest⟩ := hu
    obtain ⟨hres, htwin⟩ := execute_twin h stmt (by
      rintro insert rfl
      exact sameInsert_of_unaffected hf hone)
    simp only [Database.results, hres, ih htwin (forgot_execute hf hres) hrest]

/-! ## The twin that opening makes -/

/-- What holds of a connection that runs statements on a file of its own. -/
structure Alone (pageSize : Nat) (db : Database) : Prop where
  inFile : InFile db.store db.catalog
  intact : ∃ head body ps, Intact db.store db.catalog head body ps
  walFile : db.walFile = []
  pageSize : db.store.pageSize = pageSize

theorem alone_new {pageSize : Nat} {db : Database}
    (h : Database.openDatabase ⟨[], none⟩ pageSize = .ok db) : Alone pageSize db := by
  obtain ⟨hin, hwal, -, hps⟩ := openDatabase_new_inFile h
  obtain ⟨body, hintact, -⟩ := openDatabase_new h
  exact ⟨hin, ⟨0, body, [], hintact⟩, hwal, hps⟩

theorem alone_executeAll {pageSize : Nat} {db : Database} (h : Alone pageSize db)
    (stmts : List Statement) : Alone pageSize (db.executeAll stmts) := by
  induction stmts generalizing db with
  | nil => exact h
  | cons stmt stmts ih =>
    refine ih ⟨(execute_inFile h.inFile stmt).1, ?_, ?_, ?_⟩
    · obtain ⟨head, body, ps, hin⟩ := h.intact
      obtain ⟨body', ps', hin', -⟩ := execute_intact hin stmt
      exact ⟨head, body', ps', hin'⟩
    · rw [Database.execute_walFile, h.walFile, ite_self]
    · rw [(execute_inFile h.inFile stmt).2.pageSize, h.pageSize]

/-- A database that was closed and opened is a twin without constraints. -/
theorem reopen_twin {pageSize : Nat} {db : Database} (h : Alone pageSize db)
    (hidle : db.tx.anyActive = false) (hfits : db.catalog.Fits db.store) :
    ∃ db', Database.openDatabase db.close pageSize = .ok db' ∧ Twin db db' ∧
      db'.constraints = OrdDict.empty := by
  obtain ⟨head, body, ps, hin⟩ := h.intact
  obtain ⟨db', body', hopen, hin', hsame, hcat, -, -, htx, hcon, -⟩ :=
    reopen_intact hin (hin.held hfits) (by rw [h.walFile]; exact harmless_nil)
  rw [h.pageSize] at hopen
  refine ⟨db', hopen, ⟨h.inFile, ?_, ?_, hcat, ?_⟩, hcon⟩
  · obtain ⟨store', hclose, hinc, hg⟩ := close_inFile h.inFile
    rw [hclose, ← h.pageSize, ← hg.pageSize, h.walFile] at hopen
    exact (openDatabase_inFile hinc (endLog_nil False) hopen).1
  · have hcount := hin.sound.count
    have hpc : db'.store.pageCount = db.store.file.length := hsame.pageCount
    refine ⟨⟨hsame.pageSize, hsame.length, hsame.rawRead⟩, hsame.freeHead, ?_⟩
    omega
  · rw [htx, hidle]
    rfl

/-- **Closing and opening is not observed** by any statement that comes later, wherever
in a sequence of statements it is done while no transaction is open. -/
theorem reopen_unobserved (pageSize : Nat) (db : Database) (stmts later : List Statement)
    (hopen : Database.openDatabase ⟨[], none⟩ pageSize = .ok db)
    (hidle : (db.executeAll stmts).tx.anyActive = false)
    (hfits : (db.executeAll stmts).catalog.Fits (db.executeAll stmts).store)
    (hlater : Unaffected [] (db.executeAll stmts) later) :
    ∃ db', Database.openDatabase (db.executeAll stmts).close pageSize = .ok db' ∧
      db'.results later = (db.executeAll stmts).results later := by
  obtain ⟨db', hre, htwin, hcon⟩ := reopen_twin (alone_executeAll (alone_new hopen) stmts) hidle hfits
  refine ⟨db', hre, results_twin htwin (fun table => ⟨fun hm => ?_, fun _ => ?_⟩) hlater⟩
  · cases hm
  · rw [hcon]
    rfl

def keyedTable : List Statement :=
  [.createTable ⟨"t", [⟨"a", "INT", [.primaryKey]⟩], false⟩, .insert ⟨"t", none, [[.int 1]]⟩]

/-- A row with another key, a new table with a key, and a duplicate that both refuse. -/
theorem reopen_unobserved_keys :
    ∃ db', Database.openDatabase ((Database.newDatabase []).executeAll keyedTable).close 512 =
        .ok db' ∧
      db'.results [.insert ⟨"t", none, [[.int 2]]⟩,
          .createTable ⟨"u", [⟨"b", "INT", [.primaryKey]⟩], false⟩,
          .insert ⟨"u", none, [[.int 5], [.int 5]]⟩] =
        ((Database.newDatabase []).executeAll keyedTable).results
          [.insert ⟨"t", none, [[.int 2]]⟩,
            .createTable ⟨"u", [⟨"b", "INT", [.primaryKey]⟩], false⟩,
            .insert ⟨"u", none, [[.int 5], [.int 5]]⟩] :=
  reopen_unobserved 512 (Database.newDatabase []) keyedTable _ (by decide +kernel)
    (by decide +kernel) (by decide +kernel) (by decide +kernel)

/-- A duplicate key is refused, but not after closing and opening. -/
theorem reopen_forgets_key : ¬ ∀ (pageSize : Nat) (db : Database) (stmts later : List Statement),
    Database.openDatabase ⟨[], none⟩ pageSize = .ok db →
      (db.executeAll stmts).tx.anyActive = false →
      ∃ db', Database.openDatabase (db.executeAll stmts).close pageSize = .ok db' ∧
        db'.results later = (db.executeAll stmts).results later := by
  intro h
  obtain ⟨db', hopen, hres⟩ := h 512 (Database.newDatabase []) keyedTable
    [.insert ⟨"t", none, [[.int 1]]⟩] (by decide +kernel) (by decide +kernel)
  have hbefore : ((((Database.newDatabase []).executeAll keyedTable).results
      [.insert ⟨"t", none, [[.int 1]]⟩]).map fun r => r.isOk) = [false] := by decide +kernel
  have hafter : ((Database.openDatabase ((Database.newDatabase []).executeAll keyedTable).close 512
      ).map fun db => (db.results [.insert ⟨"t", none, [[.int 1]]⟩]).map fun r => r.isOk) =
      .ok [true] := by decide +kernel
  rw [hopen] at hafter
  simp only [Except.map, Except.ok.injEq] at hafter
  rw [hres, hbefore] at hafter
  cases hafter

end TinyDB
