import TinyDB.CloseReopen
import TinyDB.Connections

/-!
# Whole statements of two connections

Each connection looks tables up in the catalog it has in memory and allocates
pages from the page count and the free head it has in memory. `interleaving_as_one`:
CREATE TABLE, DROP TABLE, INSERT and SELECT behave as on one connection as long as
one of the two, the owner, does all that changes the catalog, and the other uses
only tables that it knows as the owner does.
-/

namespace TinyDB

open Lib FileStore

/-! ## What a statement looks up -/

/-- The table of a qualified column. -/
def tableOfColumn : Expr → List String
  | .qualifiedColumn (some table) _ => [table]
  | _ => []

/-- The tables that the type check of a join looks up. -/
def onTables (join : JoinClause) : List String :=
  match join.on' with
  | some (.binaryOp _ left right) => tableOfColumn left ++ tableOfColumn right
  | _ => []

def Select.lookups (stmt : Select) : List String :=
  stmt.table :: (stmt.joins.flatMap fun join => resolveTableName join :: onTables join)

/-- The catalogs have the same entries under the names. -/
def AgreeOn (names : List String) (c d : Catalog) : Prop :=
  ∀ name ∈ names, d.getTable name = c.getTable name

instance (names : List String) (c d : Catalog) : Decidable (AgreeOn names c d) := by
  unfold AgreeOn
  infer_instance

section

variable {c d : Catalog}

theorem findColumnType_agree {name table : String}
    (h : d.getTable table = c.getTable table) :
    findColumnType d name (some table) = findColumnType c name (some table) := by
  simp only [findColumnType, h]

theorem columnTypeOf_agree {expr : Expr} (h : AgreeOn (tableOfColumn expr) c d) :
    columnTypeOf d expr = columnTypeOf c expr := by
  cases expr with
  | qualifiedColumn table name =>
    cases table with
    | none => rfl
    | some table => exact findColumnType_agree (h table (List.mem_singleton_self _))
  | _ => rfl

theorem checkJoin_agree {join : JoinClause} (h : AgreeOn (onTables join) c d) :
    checkJoinTypeCompatibility join d = checkJoinTypeCompatibility join c := by
  unfold checkJoinTypeCompatibility
  unfold onTables at h
  split
  · rename_i op left right heq
    rw [heq] at h
    have hl : columnTypeOf d left = columnTypeOf c left :=
      columnTypeOf_agree fun name hn => h name (List.mem_append_left _ hn)
    have hr : columnTypeOf d right = columnTypeOf c right :=
      columnTypeOf_agree fun name hn => h name (List.mem_append_right _ hn)
    rw [hl, hr]
  · rfl

theorem joinAll_agree (store : FileStore) {joins : List JoinClause}
    (h : AgreeOn (joins.flatMap fun join => resolveTableName join :: onTables join) c d)
    (rows : List RowDict) : joinAll store d rows joins = joinAll store c rows joins := by
  induction joins generalizing rows with
  | nil => rfl
  | cons join joins ih =>
    have hcheck : checkJoinTypeCompatibility join d = checkJoinTypeCompatibility join c :=
      checkJoin_agree fun name hn => h name (by rw [List.flatMap_cons]; simp [hn])
    have htable : d.getTable (resolveTableName join) = c.getTable (resolveTableName join) :=
      h _ (by rw [List.flatMap_cons]; simp)
    have hrest := ih fun name hn => h name (by
      rw [List.flatMap_cons]
      exact List.mem_append_right _ hn)
    simp only [joinAll, hcheck, execNestedLoopJoin, htable, hrest]

theorem ambiguousColumns_agree {tables : List String} (h : AgreeOn tables c d) :
    ambiguousColumns d tables = ambiguousColumns c tables := by
  unfold ambiguousColumns
  generalize (([], []) : List String × List String) = seen
  induction tables generalizing seen with
  | nil => rfl
  | cons table tables ih =>
    rw [List.foldl_cons, List.foldl_cons, h table (List.mem_cons_self ..)]
    exact ih (fun name hn => h name (List.mem_cons_of_mem _ hn)) _

end

theorem execSelect_agree (store : FileStore) {c d : Catalog} {entry : TableMeta} {stmt : Select}
    (h : AgreeOn stmt.lookups c d) (hname : entry.name = stmt.table) (project : Bool) :
    execSelect store d entry stmt project = execSelect store c entry stmt project := by
  have hjoins : AgreeOn (stmt.joins.flatMap fun join => resolveTableName join :: onTables join) c d :=
    fun name hn => h name (List.mem_cons_of_mem _ hn)
  have htables : AgreeOn (entry.name :: stmt.joins.map resolveTableName) c d := by
    intro name hn
    rcases List.mem_cons.mp hn with rfl | hn
    · rw [hname]
      exact h _ (List.mem_cons_self ..)
    · obtain ⟨join, hj, rfl⟩ := List.mem_map.mp hn
      exact hjoins _ (List.mem_flatMap.mpr ⟨join, hj, List.mem_cons_self ..⟩)
  simp only [execSelect, execJoinPath, ambiguousColumns_agree htables, joinAll_agree store hjoins]

/-- A SELECT finds the same tables with the same rows. -/
theorem dispatchSelect_agree {db one : Database} (hpages : SamePages one.store db.store)
    (hin : InFile one.store one.catalog) {stmt : Select}
    (h : AgreeOn stmt.lookups one.catalog db.catalog)
    (hnamed : ∀ entry, one.catalog.getTable stmt.table = .ok entry → entry.name = stmt.table) :
    db.dispatchSelect stmt = one.dispatchSelect stmt := by
  unfold Database.dispatchSelect
  rw [h stmt.table (List.mem_cons_self ..)]
  cases hg : one.catalog.getTable stmt.table with
  | error e => rfl
  | ok entry =>
    have h0 := (hin.root_ne_zero hg).1
    simp only [ok_bind, execSelect_agree db.store h (hnamed entry hg),
      hpages.execSelect hin.roots h0]

/-! ## Entries under their names -/

/-- Every entry is stored under its own name. -/
def Catalog.Named (catalog : Catalog) : Prop :=
  ∀ name entry, catalog.entries.get? name = some entry → entry.name = name

theorem Catalog.Named.name {catalog : Catalog} (h : catalog.Named) {name : String}
    {entry : TableMeta} (hg : catalog.getTable name = .ok entry) : entry.name = name :=
  h name entry (getTable_eq_ok.mp hg)

theorem named_empty : Catalog.empty.Named := by
  intro name entry he
  cases he

theorem named_load {catalog catalog' : Catalog} (h : catalog.Named) {store : FileStore}
    (hl : catalog.load store = .ok catalog') : catalog'.Named := by
  unfold Catalog.load at hl
  split at hl
  · cases hl
    exact h
  · simp only [bind_eq_ok] at hl
    obtain ⟨page, -, loaded, -, hl⟩ := hl
    cases loaded with
    | none =>
      cases hl
      exact h
    | some entries =>
      cases hl
      intro name entry he
      obtain ⟨e, -, hpair⟩ := List.mem_map.mp (OrdDict.mem_of_get?_ofList he)
      cases hpair
      rfl

theorem named_set {catalog : Catalog} (h : catalog.Named) (entry : TableMeta) :
    Catalog.Named ⟨catalog.entries.set entry.name entry⟩ := by
  intro name e he
  rw [OrdDict.get?_set] at he
  split at he
  · rename_i hn
    cases he
    exact hn
  · exact h name e he

theorem named_erase {catalog : Catalog} (h : catalog.Named) (dropped : String) :
    Catalog.Named ⟨catalog.entries.erase dropped⟩ := by
  intro name e he
  rw [OrdDict.get?_erase] at he
  split at he
  · cases he
  · exact h name e he

theorem named_createTable {catalog : Catalog} (h : catalog.Named) (store : FileStore)
    (name : String) (columns : Schema) : (catalog.createTable store name columns).2.1.Named := by
  unfold Catalog.createTable
  split
  · exact h
  · split
    · exact h
    · rename_i root store' _
      have hset := named_set h { name, rootPageId := root, schema := columns }
      dsimp only
      split <;> exact hset

theorem named_dropTable {catalog : Catalog} (h : catalog.Named) (store : FileStore)
    (name : String) : (catalog.dropTable store name).2.1.Named := by
  unfold Catalog.dropTable
  split
  · exact h
  · have herase := named_erase h name
    dsimp only
    split
    · exact herase
    · split <;> exact herase

theorem named_dropTables {catalog : Catalog} (h : catalog.Named) (store : FileStore)
    (names : List String) : (dropTables catalog store names).2.1.Named := by
  induction names generalizing catalog store with
  | nil => exact h
  | cons name names ih =>
    have hone := named_dropTable h store name
    rw [dropTables]
    split
    · rename_i e catalog' store' heq
      rw [heq] at hone
      exact hone
    · rename_i catalog' store' heq
      rw [heq] at hone
      exact ih hone store'

theorem named_execute {db : Database} (h : db.catalog.Named) (stmt : Statement) :
    (db.execute stmt).2.catalog.Named := by
  rcases db.execute_cases stmt with ⟨store, he⟩ | ⟨create, rfl⟩ | ⟨drop, rfl⟩ | ⟨-, tx, he⟩ | rfl
  · rwa [he]
  · rw [Database.execute_createTable]
    simp only [execCreateTable]
    cases resolveColumns create.columns with
    | error e => exact h
    | ok columns => exact named_createTable h db.store create.name columns
  · rw [Database.execute_dropTable]
    exact named_dropTables h db.store drop.names
  · rwa [he]
  · exact h

/-! ## The two connections and the one -/

/-- The statements that the comparison is about. -/
def Statement.Plain : Statement → Prop
  | .createTable _ => True
  | .dropTable _ => True
  | .insert _ => True
  | .select _ => True
  | _ => False

instance (stmt : Statement) : Decidable stmt.Plain :=
  match stmt with
  | .createTable _ | .dropTable _ | .insert _ | .select _ | .update _ | .delete _ | .begin
  | .commit | .rollback | .checkpoint | .explain _ => by unfold Statement.Plain; infer_instance

namespace Connections

/-- A statement of one connection. -/
abbrev Call := Side × Statement

def call (c : Connections) (e : Call) : Connections := c.step (.execute e.1 e.2)

/-- What each of the statements returns or raises. -/
def results (c : Connections) : List Call → List (Except PyErr Database.Result)
  | [] => []
  | e :: calls => ((c.seen e.1).execute e.2).1 :: (c.call e).results calls

/-- The DDL statement is refused before anything changes, by both catalogs. -/
def Refused (c d : Catalog) : Statement → Prop
  | .createTable stmt => (resolveColumns stmt.columns).isOk = false ∨
      c.entries.contains stmt.name = true ∧ d.entries.contains stmt.name = true
  | .dropTable stmt =>
    ∀ name ∈ stmt.names.head?, c.entries.get? name = none ∧ d.entries.get? name = none
  | _ => False

/-- The connection beside the owner changes no catalog, and knows the tables that it uses
as the owner does. -/
def Coherent (owner : Side) (c : Connections) (e : Call) : Prop :=
  e.1 ≠ owner →
    match e.2 with
    | .insert stmt =>
      AgreeOn [stmt.table] (c.seen owner).catalog (c.seen e.1).catalog ∧
        ∀ entry ∈ (c.seen owner).catalog.entries.get? stmt.table,
          JudgedAlike entry ((c.seen owner).tableConstraints stmt.table)
            ((c.seen e.1).tableConstraints stmt.table) (insertColumns entry stmt.columns)
            (c.seen e.1).store stmt.values
    | .select stmt => AgreeOn stmt.lookups (c.seen owner).catalog (c.seen e.1).catalog
    | stmt => Refused (c.seen owner).catalog (c.seen e.1).catalog stmt

instance (c d : Catalog) (stmt : Statement) : Decidable (Refused c d stmt) :=
  match stmt with
  | .createTable _ | .dropTable _ | .insert _ | .select _ | .update _ | .delete _ | .begin
  | .commit | .rollback | .checkpoint | .explain _ => by unfold Refused; infer_instance

instance (owner : Side) (c : Connections) (e : Call) : Decidable (Coherent owner c e) :=
  match e with
  | ⟨side, stmt⟩ =>
    match stmt with
    | .createTable _ | .dropTable _ | .insert _ | .select _ | .update _ | .delete _ | .begin
    | .commit | .rollback | .checkpoint | .explain _ => by unfold Coherent; infer_instance

/-- The owner and the shared file make up the one connection. -/
structure AsOne (owner : Side) (c : Connections) (one : Database) : Prop where
  store : (c.seen owner).store = one.store
  catalog : (c.seen owner).catalog = one.catalog
  constraints : (c.seen owner).constraints = one.constraints
  inFile : InFile one.store one.catalog
  named : one.catalog.Named
  other : (c.seen owner.other).store.pageSize = one.store.pageSize

variable {owner : Side} {c : Connections} {one : Database}

theorem AsOne.pages (h : AsOne owner c one) :
    SamePages one.store (c.seen owner.other).store := by
  have hfile : (c.seen owner.other).store.file = one.store.file := by
    rw [← h.store]
    rfl
  refine ⟨h.other, by rw [hfile], fun i _ => ?_⟩
  simp only [rawRead, hfile]

theorem AsOne.step_one (h : AsOne owner c one) (stmt : Statement) :
    InFile (one.execute stmt).2.store (one.execute stmt).2.catalog ∧
      (one.execute stmt).2.catalog.Named :=
  ⟨(execute_inFile h.inFile stmt).1, named_execute h.named stmt⟩

/-- What a plain statement does depends on the store, the catalog and the constraints. -/
theorem execute_plain {db one : Database} (hs : db.store = one.store)
    (hc : db.catalog = one.catalog) (hk : db.constraints = one.constraints) {stmt : Statement}
    (hplain : stmt.Plain) :
    (db.execute stmt).1 = (one.execute stmt).1 ∧
      (db.execute stmt).2.store = (one.execute stmt).2.store ∧
      (db.execute stmt).2.catalog = (one.execute stmt).2.catalog ∧
      (db.execute stmt).2.constraints = (one.execute stmt).2.constraints := by
  cases stmt with
  | createTable stmt =>
    rw [Database.execute_createTable, Database.execute_createTable]
    simp only [hs, hc, hk, and_self]
  | dropTable stmt =>
    rw [Database.execute_dropTable, Database.execute_dropTable]
    simp only [hs, hc, hk, and_self]
  | insert stmt =>
    have ht : db.tableConstraints stmt.table = one.tableConstraints stmt.table := by
      simp only [Database.tableConstraints, hk]
    cases hg : one.catalog.getTable stmt.table with
    | error e =>
      have hg' : db.catalog.getTable stmt.table = .error e := by rw [hc, hg]
      simp only [Database.execute, Database.dispatch, Database.dispatchInsert, hg, hs, hc, hk,
        and_self]
    | ok entry =>
      have hg' : db.catalog.getTable stmt.table = .ok entry := by rw [hc, hg]
      rw [Database.execute_insert stmt hg, Database.execute_insert stmt hg']
      simp only [hs, hc, hk, ht, and_self]
  | select stmt =>
    simp only [Database.execute, Database.dispatch, Database.dispatchSelect, hs, hc, hk, and_self]
  | _ => exact hplain.elim

theorem seen_step_self (c : Connections) (side : Side) (stmt : Statement) :
    (c.step (.execute side stmt)).seen side = ((c.seen side).execute stmt).2 := by
  simp only [step, seen_put_self]

/-- The owner executes a statement. -/
theorem asOne_owner (h : AsOne owner c one) {stmt : Statement} (hplain : stmt.Plain) :
    ((c.seen owner).execute stmt).1 = (one.execute stmt).1 ∧
      AsOne owner (c.call (owner, stmt)) (one.execute stmt).2 := by
  obtain ⟨h1, h2, h3, h4⟩ := execute_plain h.store h.catalog h.constraints hplain
  obtain ⟨hin, hnamed⟩ := h.step_one stmt
  refine ⟨h1, ⟨?_, ?_, ?_, hin, hnamed, ?_⟩⟩
  · rw [call, seen_step_self]; exact h2
  · rw [call, seen_step_self]; exact h3
  · rw [call, seen_step_self]; exact h4
  · rw [(execute_inFile h.inFile stmt).2.pageSize, call, step, seen_put_ne _ owner.other_ne]
    exact h.other

/-- The connection beside the owner wrote to the file what the one connection wrote. -/
theorem AsOne.beside (h : AsOne owner c one) {db : Database} {store : FileStore}
    (block : Option (List (Nat × Bytes) × Nat)) (hfile : db.store.file = store.file)
    (hps : db.store.pageSize = (c.seen owner.other).store.pageSize)
    (hmem : store.pageSize = one.store.pageSize ∧ store.pageCount = one.store.pageCount ∧
      store.freeHead = one.store.freeHead)
    (hin : InFile store one.catalog) (hnamed : one.catalog.Named) :
    AsOne owner (c.put owner.other db block) { one with store := store } := by
  have hne : owner ≠ owner.other := fun e => owner.other_ne e.symm
  have hseen := seen_put_ne c hne db block
  refine ⟨?_, by rw [hseen, ← h.catalog]; rfl, by rw [hseen, ← h.constraints]; rfl, hin, hnamed, ?_⟩
  · have hown := h.store
    obtain ⟨h1, h2, h3⟩ := hmem
    rw [← hown] at h1 h2 h3
    rw [hseen]
    cases store
    simp only at hfile h1 h2 h3
    subst h1 h2 h3
    simp only [Database.onDisk, Database.kill, hfile]
    rfl
  · rw [seen_put_self, hps, hmem.1]
    exact h.other

/-- It changed nothing. -/
theorem AsOne.unchanged (h : AsOne owner c one) (block : Option (List (Nat × Bytes) × Nat)) :
    AsOne owner (c.put owner.other (c.seen owner.other) block) one := by
  have hfile : (c.seen owner.other).store.file = one.store.file := by
    rw [← h.store]
    rfl
  exact h.beside block hfile rfl ⟨rfl, rfl, rfl⟩ h.inFile h.named

theorem file_ext {s t : FileStore} (hlen : s.file.length = t.file.length)
    (h : ∀ i, s.rawRead i = t.rawRead i) : s.file = t.file := by
  refine List.ext_getElem hlen fun i h1 h2 => ?_
  have hi := h i
  simp only [rawRead, List.getD_eq_getElem?_getD, List.getElem?_eq_getElem h1,
    List.getElem?_eq_getElem h2, Option.getD_some] at hi
  exact hi

private theorem asOne_insert (h : AsOne owner c one) {stmt : Insert}
    (hcoh : Coherent owner c (owner.other, .insert stmt)) :
    ((c.seen owner.other).execute (.insert stmt)).1 = (one.execute (.insert stmt)).1 ∧
      AsOne owner (c.call (owner.other, .insert stmt)) (one.execute (.insert stmt)).2 := by
  obtain ⟨hagree, hjudged⟩ := hcoh owner.other_ne
  have htable := hagree stmt.table (List.mem_singleton_self _)
  have hone := h.step_one (.insert stmt)
  rw [h.catalog] at htable hjudged
  simp only [call, step]
  cases hg : one.catalog.getTable stmt.table with
  | error e =>
    have hg' := htable.trans hg
    have h1 : (c.seen owner.other).execute (.insert stmt) = (.error e, c.seen owner.other) := by
      simp only [Database.execute, Database.dispatch, Database.dispatchInsert, hg']
      rfl
    have h2 : one.execute (.insert stmt) = (.error e, one) := by
      simp only [Database.execute, Database.dispatch, Database.dispatchInsert, hg]
      rfl
    rw [h1, h2]
    exact ⟨rfl, h.unchanged _⟩
  | ok entry =>
    have hg' := htable.trans hg
    have hread := h.inFile.readable
    have h0 := (h.inFile.root_ne_zero hg).1
    have hk : (c.seen owner).tableConstraints stmt.table = one.tableConstraints stmt.table := by
      simp only [Database.tableConstraints, h.constraints]
    have hj := hjudged entry (getTable_eq_ok.mp hg)
    rw [hk] at hj
    have hsame := samePages_execInsert h.pages hread entry h0 stmt.columns stmt.values
      (one.tableConstraints stmt.table)
    have hread' : (c.seen owner.other).store.Readable := by
      refine hread.congr ?_ h.other
      rw [← h.store]
      rfl
    have hw := writesOnly_execInsert hread entry stmt.columns stmt.values
      (one.tableConstraints stmt.table)
    have hw' := writesOnly_execInsert hread' entry stmt.columns stmt.values
      (one.tableConstraints stmt.table)
    have hconstraints : execInsert (c.seen owner.other).store entry stmt.columns stmt.values
        ((c.seen owner.other).tableConstraints stmt.table) =
        execInsert (c.seen owner.other).store entry stmt.columns stmt.values
          (one.tableConstraints stmt.table) := insertRows_judgedAlike hj
    rw [Database.execute_insert stmt hg] at hone ⊢
    rw [Database.execute_insert stmt hg', hconstraints]
    obtain ⟨h1, h2⟩ := hsame
    refine ⟨by simp only [h1], h.beside _ ?_ hw'.same.pageSize
      ⟨hw.same.pageSize, hw.same.pageCount, hw.same.freeHead⟩ hone.1 hone.2⟩
    refine file_ext h2.length fun i => ?_
    by_cases hi : i = 0
    · have hzero : (c.seen owner.other).store.rawRead 0 = one.store.rawRead 0 := by
        rw [← h.store]
        rfl
      rw [hi, hw'.same.rawRead 0 fun e => h0 e.symm, hw.same.rawRead 0 fun e => h0 e.symm, hzero]
    · exact h2.rawRead i hi

/-- A DDL statement that both refuse. -/
private theorem asOne_refused (h : AsOne owner c one) {stmt : Statement}
    (hr : Refused (c.seen owner).catalog (c.seen owner.other).catalog stmt) :
    ((c.seen owner.other).execute stmt).1 = (one.execute stmt).1 ∧
      AsOne owner (c.call (owner.other, stmt)) (one.execute stmt).2 := by
  have hkeep : ∀ result, (c.seen owner.other).execute stmt = (result, c.seen owner.other) →
      one.execute stmt = (result, one) →
      ((c.seen owner.other).execute stmt).1 = (one.execute stmt).1 ∧
        AsOne owner (c.call (owner.other, stmt)) (one.execute stmt).2 := by
    intro result h1 h2
    rw [call, step, h1, h2]
    exact ⟨rfl, h.unchanged _⟩
  rw [h.catalog] at hr
  cases stmt with
  | createTable stmt =>
    rcases hr with hcols | ⟨hin, hin'⟩
    · cases hres : resolveColumns stmt.columns with
      | ok columns =>
        rw [hres] at hcols
        cases hcols
      | error e =>
        refine hkeep (.error e) ?_ ?_ <;>
          (rw [Database.execute_createTable]; simp only [execCreateTable, hres]; rfl)
    · cases hres : resolveColumns stmt.columns with
      | error e =>
        refine hkeep (.error e) ?_ ?_ <;>
          (rw [Database.execute_createTable]; simp only [execCreateTable, hres]; rfl)
      | ok columns =>
        refine hkeep (.error (.uniqueViolation "TABLE_NAME" stmt.name (.one (.text stmt.name)))) ?_ ?_
        · rw [Database.execute_createTable]
          simp only [execCreateTable, hres, Catalog.createTable, hin', ↓reduceIte]
          rfl
        · rw [Database.execute_createTable]
          simp only [execCreateTable, hres, Catalog.createTable, hin, ↓reduceIte]
          rfl
  | dropTable stmt =>
    cases hnames : stmt.names with
    | nil =>
      refine hkeep (.ok Database.statusOk) ?_ ?_ <;>
        (rw [Database.execute_dropTable]; simp only [hnames, dropTables]; rfl)
    | cons name names =>
      obtain ⟨hn, hn'⟩ := hr name (by rw [hnames]; rfl)
      refine hkeep (.error (.tableNotFound name)) ?_ ?_
      · rw [Database.execute_dropTable]
        simp only [hnames, dropTables, Catalog.dropTable, hn']
        rfl
      · rw [Database.execute_dropTable]
        simp only [hnames, dropTables, Catalog.dropTable, hn]
        rfl
  | _ => exact hr.elim

/-- **One statement** of either connection. -/
theorem asOne_step (h : AsOne owner c one) {e : Call} (hplain : e.2.Plain)
    (hcoh : Coherent owner c e) :
    ((c.seen e.1).execute e.2).1 = (one.execute e.2).1 ∧
      AsOne owner (c.call e) (one.execute e.2).2 := by
  obtain ⟨side, stmt⟩ := e
  by_cases hside : side = owner
  · subst hside
    exact asOne_owner h hplain
  · obtain rfl : side = owner.other := by
      cases side <;> cases owner <;> first | rfl | exact absurd rfl hside
    cases stmt with
    | insert stmt => exact asOne_insert h hcoh
    | createTable stmt => exact asOne_refused h (hcoh hside)
    | dropTable stmt => exact asOne_refused h (hcoh hside)
    | select stmt =>
      have hagree : AgreeOn stmt.lookups one.catalog (c.seen owner.other).catalog := by
        rw [← h.catalog]
        exact hcoh hside
      have hsel := dispatchSelect_agree h.pages h.inFile hagree fun entry hg => h.named.name hg
      refine ⟨?_, h.unchanged _⟩
      simp only [Database.execute, Database.dispatch, hsel]
    | _ => exact hplain.elim

/-- The shared file and every result are those of the one connection. -/
theorem results_asOne (h : AsOne owner c one) {calls : List Call}
    (hplain : ∀ e ∈ calls, e.2.Plain) (hcoh : Along call (Coherent owner) c calls) :
    c.results calls = one.results (calls.map Prod.snd) ∧
      AsOne owner (run call c calls) (one.executeAll (calls.map Prod.snd)) := by
  induction calls generalizing c one with
  | nil => exact ⟨rfl, h⟩
  | cons e calls ih =>
    obtain ⟨hres, hnext⟩ := asOne_step h (hplain e (List.mem_cons_self ..)) hcoh.1
    obtain ⟨hrest, hend⟩ := ih hnext (fun e he => hplain e (List.mem_cons_of_mem _ he)) hcoh.2
    exact ⟨by simp only [results, List.map_cons, Database.results, hres, hrest], hend⟩

end Connections

/-! ## Files that a connection left -/

/-- The file after any number of sessions, each of them closed or killed. -/
inductive Left (pageSize : Nat) : Disk → Prop where
  | blank : Left pageSize ⟨[], none⟩
  | closed {disk : Disk} {db : Database} (stmts : List Statement) : Left pageSize disk →
      Database.openDatabase disk pageSize = .ok db → Left pageSize (db.executeAll stmts).close
  | killed {disk : Disk} {db : Database} (stmts : List Statement) : Left pageSize disk →
      Database.openDatabase disk pageSize = .ok db → Left pageSize (db.executeAll stmts).kill

/-- What holds of a connection on such a file. -/
structure Usable (pageSize : Nat) (db : Database) : Prop where
  inFile : InFile db.store db.catalog
  named : db.catalog.Named
  walFile : db.walFile = []
  pageSize : db.store.pageSize = pageSize

theorem usable_executeAll {pageSize : Nat} {db : Database} (h : Usable pageSize db)
    (stmts : List Statement) : Usable pageSize (db.executeAll stmts) := by
  induction stmts generalizing db with
  | nil => exact h
  | cons stmt stmts ih =>
    obtain ⟨hin, hg⟩ := execute_inFile h.inFile stmt
    refine ih ⟨hin, named_execute h.named stmt, ?_, hg.pageSize.trans h.pageSize⟩
    rw [Database.execute_walFile, h.walFile, ite_self]

/-- A new file, or one with the pages of a store that `InFile` holds of. -/
def Found (pageSize : Nat) (disk : Disk) : Prop :=
  disk = ⟨[], none⟩ ∨ ∃ store catalog, InFile store catalog ∧ store.pageSize = pageSize ∧
    disk = ⟨store.file, some []⟩

theorem usable_opened {pageSize : Nat} {disk : Disk} {db : Database} (h : Found pageSize disk)
    (ho : Database.openDatabase disk pageSize = .ok db) : Usable pageSize db := by
  have hnamed : db.catalog.Named := by
    simp only [Database.openDatabase, bind_eq_ok, Except.ok.injEq] at ho
    obtain ⟨store, -, catalog, hload, rfl⟩ := ho
    exact named_load named_empty hload
  rcases h with rfl | ⟨store, catalog, hin, rfl, rfl⟩
  · obtain ⟨hin, hwal, -, hps⟩ := openDatabase_new_inFile ho
    exact ⟨hin, hnamed, hwal, hps⟩
  · obtain ⟨hin', hg, hwal, -⟩ := openDatabase_inFile hin (endLog_nil False) ho
    exact ⟨hin', hnamed, hwal, hg.pageSize⟩

theorem Usable.found_kill {pageSize : Nat} {db : Database} (h : Usable pageSize db) :
    Found pageSize db.kill :=
  Or.inr ⟨db.store, db.catalog, h.inFile, h.pageSize, by rw [Database.kill, h.walFile]⟩

theorem left_found {pageSize : Nat} {disk : Disk} (h : Left pageSize disk) :
    Found pageSize disk := by
  induction h with
  | blank => exact Or.inl rfl
  | closed stmts _ ho ih =>
    have hu := usable_executeAll (usable_opened ih ho) stmts
    obtain ⟨store', hclose, hin, hg⟩ := close_inFile hu.inFile
    exact Or.inr ⟨store', _, hin, hg.pageSize.trans hu.pageSize, by rw [hclose, hu.walFile]⟩
  | killed stmts _ ho ih => exact (usable_executeAll (usable_opened ih ho) stmts).found_kill

/-- A second connection opens the file as the first one did. -/
theorem openDatabase_again {pageSize : Nat} {disk : Disk} {db : Database}
    (h : Found pageSize disk) (ho : Database.openDatabase disk pageSize = .ok db) :
    Database.openDatabase db.kill pageSize = .ok db := by
  rcases h with rfl | ⟨store, catalog, hin, rfl, rfl⟩
  · obtain ⟨body, hintact, hps, hcat, hwal, hlog, htx, hcon⟩ := openDatabase_new ho
    obtain ⟨hcount, hlen, hfree⟩ := openDatabase_new_count ho
    have hfits : db.catalog.Fits db.store := by
      rw [hcat]
      exact fits_empty hintact.sound.toReadable
    obtain ⟨db', -, ho', hst, hcat', hwal', hlog', htx', hcon', -⟩ :=
      openDatabase_intact hintact (hintact.held hfits) (Or.inl rfl) harmless_nil
    rw [Database.kill, hwal, ← hps, ho']
    have hstore : db'.store = db.store := by
      rw [hst, opened, hlen, ← hcount, ← hfree]
    cases db
    cases db'
    simp only at hstore hcat' hwal' hlog' htx' hcon' hwal hlog htx hcon
    subst hstore hcat' hwal' hlog' htx' hcon' hwal hlog htx hcon
    rfl
  · obtain ⟨-, -, hwal, -, hfile⟩ := openDatabase_inFile hin (endLog_nil False) ho
    rwa [Database.kill, hwal, hfile]

namespace Connections

/-- Two connections that have just opened the file. -/
theorem openBoth_found {pageSize : Nat} {disk : Disk} (h : Found pageSize disk) {c : Connections}
    (ho : openBoth disk pageSize = .ok c) :
    ∃ one, Database.openDatabase disk pageSize = .ok one ∧ ∀ side, c.seen side = one := by
  simp only [openBoth, bind_eq_ok, Except.ok.injEq] at ho
  obtain ⟨a, ha, b, hb, rfl⟩ := ho
  rw [openDatabase_again h ha, Except.ok.injEq] at hb
  subst hb
  refine ⟨a, ha, fun side => ?_⟩
  cases side <;> rfl

theorem asOne_open {pageSize : Nat} {disk : Disk} (h : Found pageSize disk) {c : Connections}
    (ho : openBoth disk pageSize = .ok c) (owner : Side) :
    ∃ one, Database.openDatabase disk pageSize = .ok one ∧ AsOne owner c one := by
  obtain ⟨one, hone, hseen⟩ := openBoth_found h ho
  have hu := usable_opened h hone
  exact ⟨one, hone, ⟨by rw [hseen], by rw [hseen], by rw [hseen], hu.inFile, hu.named,
    by rw [hseen]⟩⟩

/-- **Two connections behave as one.** From any file that sessions left, CREATE TABLE, DROP
TABLE, INSERT and SELECT of both return what one connection returns for the same statements,
and leave the same file, when at each step the one that is not the owner changes no catalog
and knows the tables it uses as the owner does. -/
theorem interleaving_as_one (pageSize : Nat) (disk : Disk) (c : Connections) (owner : Side)
    (calls : List Call) (hleft : Left pageSize disk) (hopen : openBoth disk pageSize = .ok c)
    (hplain : ∀ e ∈ calls, e.2.Plain) (hcoh : Along call (Coherent owner) c calls) :
    ∃ one, Database.openDatabase disk pageSize = .ok one ∧
      c.results calls = one.results (calls.map Prod.snd) ∧
      (run call c calls).disk.file = (one.executeAll (calls.map Prod.snd)).store.file := by
  obtain ⟨one, ho, has⟩ := asOne_open (left_found hleft) hopen owner
  obtain ⟨hres, hend⟩ := results_asOne has hplain hcoh
  exact ⟨one, ho, hres, congrArg FileStore.file hend.store⟩

/-- The file of a session that made a table. -/
def oneTable : Disk :=
  ((Database.newDatabase []).executeAll [.createTable ⟨"t", [⟨"a", "INT", []⟩], false⟩]).close

theorem oneTable_left : Left 512 oneTable := by
  refine .closed _ .blank (?_ : Database.openDatabase ⟨[], none⟩ 512 = .ok (Database.newDatabase []))
  decide +kernel

def openedBoth (disk : Disk) : Connections :=
  match openBoth disk 512 with
  | .ok c => c
  | .error _ => newConnections []

theorem openBoth_openedBoth {disk : Disk} (h : (openBoth disk 512).isOk = true) :
    openBoth disk 512 = .ok (openedBoth disk) := by
  unfold openedBoth
  cases ho : openBoth disk 512 with
  | ok c => rfl
  | error e =>
    rw [ho] at h
    cases h

def allOf (table : String) : Statement := .select { projections := [.star], table }

/-- The second connection inserts into the old table and reads it while the first makes
and drops another. -/
def besideOwner : List Call :=
  [(.a, .createTable ⟨"u", [⟨"b", "INT", []⟩], false⟩), (.b, .insert ⟨"t", none, [[.int 1]]⟩),
    (.a, .insert ⟨"u", none, [[.int 2]]⟩), (.b, allOf "t"),
    (.b, .createTable ⟨"t", [⟨"a", "INT", []⟩], false⟩), (.a, .dropTable ⟨["u"], false⟩),
    (.a, allOf "t")]

theorem interleaving_as_one_beside :
    ∃ one, Database.openDatabase oneTable 512 = .ok one ∧
      (openedBoth oneTable).results besideOwner = one.results (besideOwner.map Prod.snd) ∧
      (run call (openedBoth oneTable) besideOwner).disk.file =
        (one.executeAll (besideOwner.map Prod.snd)).store.file :=
  interleaving_as_one 512 oneTable (openedBoth oneTable) .a besideOwner oneTable_left
    (openBoth_openedBoth (by decide +kernel)) (by decide) (by decide +kernel)

/-- How many rows a statement returned. -/
def rowCount : Except PyErr Database.Result → Option Nat
  | .ok (.rows rows) => some rows.length
  | _ => none

/-- Both connections create a table on page 1, and the rows of one are read from the
other. -/
theorem tables_share_page : ¬ ∀ (pageSize : Nat) (disk : Disk) (c : Connections)
    (calls : List Call), Left pageSize disk → openBoth disk pageSize = .ok c →
      (∀ e ∈ calls, e.2.Plain) →
      ∃ one, Database.openDatabase disk pageSize = .ok one ∧
        c.results calls = one.results (calls.map Prod.snd) := by
  intro h
  let calls : List Call :=
    [(.a, .createTable ⟨"t", [⟨"a", "INT", []⟩], false⟩),
      (.b, .createTable ⟨"u", [⟨"b", "INT", []⟩], false⟩),
      (.a, .insert ⟨"t", none, [[.int 1]]⟩), (.b, allOf "u")]
  obtain ⟨one, hone, hres⟩ := h 512 ⟨[], none⟩ (openedBoth ⟨[], none⟩) calls .blank
    (openBoth_openedBoth (by decide +kernel)) (by decide)
  have htwo : ((openedBoth ⟨[], none⟩).results calls).map rowCount =
      [some 1, some 1, some 1, some 1] := by decide +kernel
  have hsingle : ((Database.openDatabase ⟨[], none⟩ 512).map fun one =>
      (one.results (calls.map Prod.snd)).map rowCount) =
      .ok [some 1, some 1, some 1, some 0] := by decide +kernel
  rw [hone] at hsingle
  simp only [Except.map, Except.ok.injEq] at hsingle
  rw [← hres, htwo] at hsingle
  cases hsingle

end Connections

end TinyDB
