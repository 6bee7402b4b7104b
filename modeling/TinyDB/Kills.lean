import TinyDB.Session

/-!
# Killing the process between statements

A kill leaves the pages and the log as they are; what was only in memory is gone.
The free head goes back to what the header page says, which is what it was when
the file was closed or opened last. `kills_keep_tables`: over every run of
statements, reopens and kills the tables keep their rows and their pages, as long as
at each kill no table sits on the page that the header page calls free, and the
catalog fits.
-/

namespace TinyDB

open Lib FileStore

/-- The free head that the header page holds. -/
def FileStore.storedHead (store : FileStore) : Except PyErr Nat := do
  let page ← store.readPage 0
  unpackUint 4 (slice page.body 12 16)

theorem storedHead_spec {store : FileStore} {head : Nat} {body : Bytes}
    (h : Header store head body) : store.storedHead = .ok head := by
  obtain ⟨lsn, hread⟩ := h.read
  obtain ⟨rest, hfields⟩ := h.fields
  have hbody : body = (fileHeaderMagic ++ leBytes 4 store.pageSize) ++ (leBytes 4 head ++ rest) := by
    rw [hfields, metaBytes]
    simp only [List.append_assoc]
  have hlen : (fileHeaderMagic ++ leBytes 4 store.pageSize).length = 12 := by
    rw [List.length_append, leBytes_length]
    rfl
  have hslice : slice body 12 16 = leBytes 4 head := by
    rw [hbody]
    exact slice_field _ (leBytes 4 head) _ 12 4 hlen.symm (leBytes_length ..).symm
  simp only [storedHead, hread, ok_bind, hslice, unpackUint_leBytes h.head_lt]

namespace Database

inductive LifeAction where
  | execute (stmt : Statement)
  | reopen
  | kill
  deriving DecidableEq, Repr

/-- One action. There is no database left once opening raises. -/
def lifetime : Option Database → LifeAction → Option Database
  | none, _ => none
  | some db, .execute stmt => some (db.execute stmt).2
  | some db, .reopen => (openDatabase db.close db.store.pageSize).toOption
  | some db, .kill => (openDatabase db.kill db.store.pageSize).toOption

/-! ## What a run has to keep -/

/-- The same tables, with the same schemas and rows. -/
def SameTables (db other : Database) : Prop :=
  other.listTables = db.listTables ∧
    ∀ table, other.catalog.getTable table = db.catalog.getTable table ∧
      other.tableRows table = db.tableRows table

/-- A table that the statement does not name keeps its entry and its rows. -/
def KeepsOthers (db : Database) (stmt : Statement) : Prop :=
  ∀ table, table ∉ stmt.names →
    (db.execute stmt).2.catalog.getTable table = db.catalog.getTable table ∧
      (db.execute stmt).2.tableRows table = db.tableRows table

/-- A statement leaves the other tables alone; a process that starts again finds all of
them as they were. -/
def Lasting (s : Option Database) (a : LifeAction) : Prop :=
  ∀ db, s = some db →
    match a with
    | .execute stmt => db.KeepsOthers stmt
    | _ => ∃ other, lifetime s a = some other ∧ db.SameTables other

/-- No table is on the page that the header page calls free. -/
def HeadIsFree (db : Database) : Prop :=
  ∀ entry ∈ db.catalog.entries.values, db.store.storedHead ≠ .ok entry.rootPageId

/-- When the process ends the catalog fits its page, and at a kill the stored head is free. -/
def Recovers (s : Option Database) (a : LifeAction) : Prop :=
  ∀ db ∈ s,
    match a with
    | .execute _ => True
    | .reopen => db.catalog.Fits db.store
    | .kill => db.catalog.Fits db.store ∧ db.HeadIsFree

instance (db : Database) : Decidable db.HeadIsFree := by
  unfold HeadIsFree
  infer_instance

instance (s : Option Database) (a : LifeAction) : Decidable (Recovers s a) := by
  unfold Recovers
  cases a <;> infer_instance

/-! ## Starting again -/

variable {db other : Database} {head : Nat} {body : Bytes} {ps : List Nat}

/-- Rows are on the pages behind the header page. -/
theorem tableRows_congr {table : String}
    (hentry : other.catalog.getTable table = db.catalog.getTable table)
    (hpage : ∀ entry, db.catalog.getTable table = .ok entry →
      other.store.rawRead entry.rootPageId = db.store.rawRead entry.rootPageId) :
    other.tableRows table = db.tableRows table := by
  unfold tableRows
  rw [hentry]
  cases hg : db.catalog.getTable table with
  | error e => rfl
  | ok entry => simp only [ok_bind, Heap.scan, TableMeta.heap, readPage_congr (hpage entry hg)]

theorem sameTables_of_pages (h : Intact db.store db.catalog head body ps)
    (hcat : other.catalog = db.catalog)
    (hpages : ∀ i, i ≠ 0 → other.store.rawRead i = db.store.rawRead i) : db.SameTables other := by
  refine ⟨by rw [listTables, hcat]; rfl, fun table => ⟨by rw [hcat], ?_⟩⟩
  refine tableRows_congr (by rw [hcat]) fun entry hg => hpages _ ?_
  exact (h.owns.root entry (h.owns.mem_values (getTable_eq_ok.mp hg)).1).1

/-- A kill while the stored head is free. -/
theorem kill_spec (h : Intact db.store db.catalog head body ps) (hwal : db.walFile = [])
    (hfits : db.catalog.Fits db.store) (hfree : db.HeadIsFree) :
    ∃ other body' ps', openDatabase db.kill db.store.pageSize = .ok other ∧
      other.walFile = [] ∧ Intact other.store other.catalog head body' ps' ∧
      db.SameTables other := by
  have hhead : head = 0 ∨ head ∈ ps := by
    rcases h.owns.anchor with h0 | hm | ⟨e, he, hr⟩
    · exact Or.inl h0
    · exact Or.inr hm
    · exact absurd (by rw [hr]; exact storedHead_spec h.header) (hfree e he)
  obtain ⟨other, ps', ho, hstore, hcat, hfile, -, -, -, hin, -, -⟩ :=
    openDatabase_intact h (h.held hfits) hhead harmless_nil
  refine ⟨other, body, ps', by rw [kill, hwal]; exact ho, hfile, hin, ?_⟩
  exact sameTables_of_pages h hcat fun i _ => by rw [hstore]; rfl

theorem reopen_spec (h : Intact db.store db.catalog head body ps) (hwal : db.walFile = [])
    (hfits : db.catalog.Fits db.store) :
    ∃ other head' body', openDatabase db.close db.store.pageSize = .ok other ∧
      other.walFile = [] ∧ Intact other.store other.catalog head' body' ps ∧
      db.SameTables other := by
  obtain ⟨other, body', ho, hin, hsame, hcat, hfile, -⟩ :=
    reopen_intact h (h.held hfits) (by rw [hwal]; exact harmless_nil)
  exact ⟨other, _, body', ho, by rw [hfile, hwal], hin,
    sameTables_of_pages h hcat fun i hi => hsame.rawRead i hi⟩

/-! ## One action -/

theorem sessionInv_execute {s : Option Database} (h : SessionInv s) (stmt : Statement) :
    SessionInv (lifetime s (.execute stmt)) := by
  obtain ⟨db, rfl, hwal, head, body, ps, hin⟩ := h
  obtain ⟨body', ps', hin', -⟩ := execute_intact hin stmt
  exact ⟨(db.execute stmt).2, rfl, by rw [execute_walFile, hwal, ite_self], head, body', ps', hin'⟩

theorem keepsOthers_of_inv {db : Database} (h : SessionInv (some db)) (stmt : Statement) :
    db.KeepsOthers stmt := by
  obtain ⟨_, he, -, head, body, ps, hin⟩ := h
  cases he
  obtain ⟨-, -, -, hk⟩ := execute_intact hin stmt
  intro table hn
  have hentry : (db.execute stmt).2.catalog.getTable table = db.catalog.getTable table := by
    simp only [Catalog.getTable, hk.entry table hn]
  exact ⟨hentry, tableRows_congr hentry fun entry hg => hk.page table entry hn (getTable_eq_ok.mp hg)⟩

/-- **One action** keeps the invariant and what it has to keep. -/
theorem lifetime_step {s : Option Database} {a : LifeAction} (h : SessionInv s)
    (hr : Recovers s a) : SessionInv (lifetime s a) ∧ Lasting s a := by
  cases a with
  | execute stmt =>
    refine ⟨sessionInv_execute h stmt, ?_⟩
    rintro db rfl
    exact keepsOthers_of_inv h stmt
  | reopen =>
    obtain ⟨db, rfl, hwal, head, body, ps, hin⟩ := h
    obtain ⟨other, head', body', ho, hwal', hin', hsame⟩ := reopen_spec hin hwal (hr db rfl)
    have hnext : lifetime (some db) .reopen = some other := by simp only [lifetime, ho]; rfl
    refine ⟨⟨other, hnext, hwal', head', body', ps, hin'⟩, ?_⟩
    rintro _ ⟨⟩
    exact ⟨other, hnext, hsame⟩
  | kill =>
    obtain ⟨db, rfl, hwal, head, body, ps, hin⟩ := h
    obtain ⟨hfits, hfree⟩ := hr db rfl
    obtain ⟨other, body', ps', ho, hwal', hin', hsame⟩ := kill_spec hin hwal hfits hfree
    have hnext : lifetime (some db) .kill = some other := by simp only [lifetime, ho]; rfl
    refine ⟨⟨other, hnext, hwal', head, body', ps', hin'⟩, ?_⟩
    rintro _ ⟨⟩
    exact ⟨other, hnext, hsame⟩

/-- **Kills between statements.** Along every run in which at each kill the stored head is
free, and the catalog fits whenever the process ends: tables have pages of their own, none
of them free, every process that starts finds the tables and rows that the last one left,
and no statement changes a table that it does not name. -/
theorem kills_keep_tables (pageSize : Nat) (db : Database) (actions : List LifeAction)
    (hopen : openDatabase ⟨[], none⟩ pageSize = .ok db)
    (hrec : Along lifetime Recovers (some db) actions) :
    Reached lifetime (fun s => ∃ db, s = some db ∧ db.OwnPages) (some db) actions ∧
      Along lifetime Lasting (some db) actions := by
  have hstart := sessionInv_new hopen
  constructor
  · refine Reached.mono ?_
      (reached_of_along SessionInv (fun _ _ h hr => (lifetime_step h hr).1) hstart hrec)
    rintro s ⟨db, rfl, -, head, body, ps, hin⟩
    exact ⟨db, rfl, ownPages_of_intact hin⟩
  · exact along_of_along SessionInv (fun _ _ h hr => lifetime_step h hr) hstart hrec

/-- A table is dropped and another one made in the next session, and the process is killed
while the page of a third one is free. -/
def killedOnce : List LifeAction :=
  [.execute (.createTable ⟨"t", [⟨"a", "INT", []⟩], false⟩),
    .execute (.createTable ⟨"u", [⟨"b", "INT", []⟩], false⟩),
    .execute (.insert ⟨"u", none, [[.int 1]]⟩), .reopen, .execute (.dropTable ⟨["t"], false⟩), .kill,
    .execute (.createTable ⟨"v", [⟨"c", "INT", []⟩], false⟩)]

theorem kills_keep_tables_once :
    Reached lifetime (fun s => ∃ db, s = some db ∧ db.OwnPages) (some (newDatabase []))
        killedOnce ∧
      Along lifetime Lasting (some (newDatabase [])) killedOnce :=
  kills_keep_tables 512 (newDatabase []) killedOnce (by decide +kernel) (by decide +kernel)

/-- A table takes the page that the header page still calls free, and after a kill the
next table gets the same page. -/
theorem kill_frees_page : ¬ ∀ (pageSize : Nat) (db : Database) (actions : List LifeAction),
    openDatabase ⟨[], none⟩ pageSize = .ok db →
      Reached lifetime (fun s => ∃ db, s = some db ∧ db.OwnPages) (some db) actions ∧
        Along lifetime Lasting (some db) actions := by
  intro h
  let actions : List LifeAction :=
    [.execute (.createTable ⟨"t", [⟨"a", "INT", []⟩], false⟩), .execute (.dropTable ⟨["t"], false⟩),
      .reopen, .execute (.createTable ⟨"u", [⟨"b", "INT", []⟩], false⟩), .kill,
      .execute (.createTable ⟨"v", [⟨"c", "INT", []⟩], false⟩)]
  obtain ⟨last, hlast, hnodup, -⟩ :=
    (h 512 (newDatabase []) actions (by decide +kernel)).1.last
  have hroots : (run lifetime (some (newDatabase [])) actions).map (fun db =>
      db.catalog.entries.values.map TableMeta.rootPageId) = some [1, 1] := by decide +kernel
  rw [hlast, Option.map_some, Option.some.injEq] at hroots
  rw [hroots] at hnodup
  revert hnodup
  decide

end Database
end TinyDB
