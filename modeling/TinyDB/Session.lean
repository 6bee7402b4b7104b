import TinyDB.Reopen
import TinyDB.Lib.Run

/-!
# Sessions

Runs of one connection: statements, and closing and opening the file again.
`session_owns_pages`: in every state of such a run the tables have pages of
their own, none of them free, and no statement touches the page of a table it
does not name.
-/

namespace TinyDB

open Lib FileStore

namespace Database

inductive SessionAction where
  | execute (stmt : Statement)
  | reopen
  deriving DecidableEq, Repr

/-- One action. There is no database left once opening raises. -/
def session : Option Database → SessionAction → Option Database
  | none, _ => none
  | some db, .execute stmt => some (db.execute stmt).2
  | some db, .reopen =>
    match openDatabase db.close db.store.pageSize with
    | .error _ => none
    | .ok db => some db

/-- The log file after a statement: only a checkpoint changes it. -/
theorem execute_walFile (db : Database) (stmt : Statement) :
    (db.execute stmt).2.walFile = if stmt = .checkpoint then [] else db.walFile := by
  by_cases hc : stmt = .checkpoint
  · rw [if_pos hc, hc]
    rfl
  rw [if_neg hc]
  rcases db.execute_cases stmt with ⟨store, he⟩ | ⟨create, rfl⟩ | ⟨drop, rfl⟩ | ⟨-, tx, he⟩ | hk
  · rw [he]
  · rw [execute_createTable]
  · rw [execute_dropTable]
  · rw [he]
  · exact absurd hk hc

/-! ## Pages of their own -/

end Database

/-- The pages that the links from the free head lead to. -/
inductive OnFreeList (store : FileStore) : Nat → Prop where
  | head : store.freeHead ≠ 0 → OnFreeList store store.freeHead
  | next (p : Nat) : OnFreeList store p → store.nextFree p ≠ 0 → OnFreeList store (store.nextFree p)

theorem FreeChain.next_mem {store : FileStore} {head p : Nat} {ps : List Nat}
    (h : FreeChain store head ps) (hp : p ∈ ps) (h0 : store.nextFree p ≠ 0) :
    store.nextFree p ∈ ps := by
  induction ps generalizing head with
  | nil => cases hp
  | cons q ps ih =>
    obtain ⟨-, -, -, hrest⟩ := h
    rcases List.mem_cons.mp hp with rfl | hp
    · cases ps with
      | nil => exact absurd hrest h0
      | cons r ps =>
        rw [hrest.1]
        exact List.mem_cons_of_mem _ (List.mem_cons_self ..)
    · exact List.mem_cons_of_mem _ (ih hrest hp)

theorem OnFreeList.mem {store : FileStore} {ps : List Nat} (h : FreeList store ps) {p : Nat}
    (hp : OnFreeList store p) : p ∈ ps := by
  induction hp with
  | head h0 =>
    have hc := h.chain
    cases ps with
    | nil => exact absurd hc h0
    | cons q ps =>
      rw [hc.1]
      exact List.mem_cons_self ..
  | next p _ h0 ih => exact FreeChain.next_mem h.chain ih h0

namespace Database

/-- The root pages of the tables are distinct pages of the file behind the header page,
and none of them is free. -/
def OwnPages (db : Database) : Prop :=
  (db.catalog.entries.values.map TableMeta.rootPageId).Nodup ∧
    ∀ entry ∈ db.catalog.entries.values, entry.rootPageId ≠ 0 ∧
      entry.rootPageId < db.store.pageCount ∧ ¬ OnFreeList db.store entry.rootPageId

/-- A statement leaves the page of every table it does not name as it is. -/
def LeavesOthers (db : Database) (stmt : Statement) : Prop :=
  ∀ name entry, db.catalog.getTable name = .ok entry → name ∉ stmt.names →
    (db.execute stmt).2.store.rawRead entry.rootPageId = db.store.rawRead entry.rootPageId

/-- What holds in between: the file is well formed and the log is empty. -/
def SessionInv (s : Option Database) : Prop :=
  ∃ db, s = some db ∧ db.walFile = [] ∧
    ∃ head body ps, Intact db.store db.catalog head body ps

/-- Closing is only asked for while the catalog fits its page. -/
def ReopensFitting (s : Option Database) (a : SessionAction) : Prop :=
  a = .reopen → ∀ db ∈ s, db.catalog.Fits db.store

instance (s : Option Database) (a : SessionAction) : Decidable (ReopensFitting s a) := by
  unfold ReopensFitting
  infer_instance

theorem ownPages_of_intact {db : Database} {head : Nat} {body : Bytes} {ps : List Nat}
    (h : Intact db.store db.catalog head body ps) : db.OwnPages := by
  refine ⟨h.owns.roots, fun entry he => ?_⟩
  obtain ⟨h0, hlt, hfr⟩ := h.owns.root entry he
  have := h.sound.count
  exact ⟨h0, by omega, fun hf => hfr (hf.mem h.free)⟩

theorem sessionInv_new {pageSize : Nat} {db : Database}
    (h : openDatabase ⟨[], none⟩ pageSize = .ok db) : SessionInv (some db) := by
  obtain ⟨body, hin, -, -, hwal, -⟩ := openDatabase_new h
  exact ⟨db, rfl, hwal, 0, body, [], hin⟩

/-- One action keeps the invariant. -/
theorem sessionInv_step {s : Option Database} {a : SessionAction} (h : SessionInv s)
    (hfit : ReopensFitting s a) : SessionInv (session s a) := by
  obtain ⟨db, rfl, hwal, head, body, ps, hin⟩ := h
  cases a with
  | execute stmt =>
    obtain ⟨body', ps', hin', -⟩ := execute_intact hin stmt
    refine ⟨(db.execute stmt).2, rfl, ?_, head, body', ps', hin'⟩
    rw [execute_walFile, hwal, ite_self]
  | reopen =>
    obtain ⟨db', body', hopen, hin', -, -, hwal', -⟩ :=
      reopen_intact hin (hin.held (hfit rfl db rfl)) (by rw [hwal]; exact harmless_nil)
    exact ⟨db', by simp only [session, hopen], by rw [hwal', hwal], _, body', ps, hin'⟩

/-- **Tables own their pages.** Along every run of statements and of closing and opening
the file, as long as the catalog fits the header page when the file is closed. -/
theorem session_owns_pages (pageSize : Nat) (db : Database) (actions : List SessionAction)
    (hopen : openDatabase ⟨[], none⟩ pageSize = .ok db)
    (hfit : Along session ReopensFitting (some db) actions) :
    Reached session (fun s => ∃ db, s = some db ∧ db.OwnPages) (some db) actions ∧
      Along session (fun s a => ∀ db stmt, s = some db → a = .execute stmt → db.LeavesOthers stmt)
        (some db) actions := by
  have hstart := sessionInv_new hopen
  constructor
  · refine Reached.mono ?_ (reached_of_along SessionInv (fun _ _ => sessionInv_step) hstart hfit)
    rintro s ⟨db, rfl, -, head, body, ps, hin⟩
    exact ⟨db, rfl, ownPages_of_intact hin⟩
  · refine along_of_along SessionInv ?_ hstart hfit
    intro s a hs hp
    refine ⟨sessionInv_step hs hp, ?_⟩
    rintro db stmt rfl rfl name entry hg hn
    obtain ⟨_, he, -, head, body, ps, hin⟩ := hs
    cases he
    obtain ⟨-, -, -, hk⟩ := execute_intact hin stmt
    exact hk.page name entry hn (getTable_eq_ok.mp hg)

/-- Two tables, one of them dropped, across a reopen. -/
theorem session_owns_pages_drop :
    Reached session (fun s => ∃ db, s = some db ∧ db.OwnPages) (some (newDatabase []))
      [.execute (.createTable ⟨"t", [⟨"a", "INT", []⟩], false⟩),
        .execute (.createTable ⟨"u", [⟨"b", "TEXT", []⟩], false⟩),
        .execute (.insert ⟨"u", none, [[.text "x"]]⟩), .execute (.dropTable ⟨["t"], false⟩), .reopen,
        .execute (.createTable ⟨"v", [⟨"c", "INT", []⟩], false⟩)] :=
  (session_owns_pages 512 (newDatabase []) _ (by decide +kernel) (by decide +kernel)).1

end Database
end TinyDB
