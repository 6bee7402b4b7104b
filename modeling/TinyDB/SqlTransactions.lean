import TinyDB.Session

/-!
# BEGIN and COMMIT as statements

`_exec_tx_control` begins a transaction but does nothing on COMMIT, END and
ROLLBACK. `sql_transaction_stays_open`: whatever runs after a BEGIN, its
transaction stays open, so no sequence of statements ends as a `transaction()`
block does.
-/

namespace TinyDB

open Lib

namespace Database

/-- The same tables, rows and transactions. -/
def SameState (db other : Database) : Prop :=
  db.listTables = other.listTables ∧ (∀ table, db.tableRows table = other.tableRows table) ∧
    db.tx = other.tx

/-- `BEGIN`, the statements and the ending, each through `execute`. -/
def sqlTransaction (db : Database) (stmts : List Statement) (ending : Statement) : Database :=
  db.executeAll (.begin :: stmts ++ [ending])

/-- The statements end as the block that runs them does, and no transaction is open. -/
def EndsAsBlock (db : Database) (stmts : List Statement) (ending : Statement) (fails : Bool) :
    Prop :=
  SameState (db.sqlTransaction stmts ending) (db.transaction stmts fails) ∧
    (db.sqlTransaction stmts ending).tx.anyActive = false

/-- COMMIT ends as a block that comes to its end, ROLLBACK as one that raises. -/
def MatchesBlocks (db : Database) (stmts : List Statement) : Prop :=
  db.EndsAsBlock stmts .commit false ∧ db.EndsAsBlock stmts .rollback true

/-! ## Open transactions -/

theorem executeAll_append (db : Database) (stmts others : List Statement) :
    db.executeAll (stmts ++ others) = (db.executeAll stmts).executeAll others := by
  induction stmts generalizing db with
  | nil => rfl
  | cons stmt stmts ih => exact ih _

/-- Only BEGIN touches the transactions. -/
theorem execute_tx (db : Database) (stmt : Statement) (h : stmt ≠ .begin) :
    (db.execute stmt).2.tx = db.tx := by
  rcases db.execute_cases stmt with ⟨store, he⟩ | ⟨create, rfl⟩ | ⟨drop, rfl⟩ | ⟨hb, -⟩ | rfl
  · rw [he]
  · rw [execute_createTable]
  · rw [execute_dropTable]
  · exact absurd hb h
  · rfl

/-- BEGIN raises while a transaction is open. -/
theorem execute_begin_active (db : Database) (h : db.tx.anyActive = true) :
    (db.execute .begin).2.tx = db.tx := by
  simp only [execute, dispatch, dispatchBegin, TxManager.begin, h, ↓reduceIte]

theorem execute_active (db : Database) (stmt : Statement) (h : db.tx.anyActive = true) :
    (db.execute stmt).2.tx = db.tx := by
  by_cases hb : stmt = .begin
  · rw [hb]
    exact db.execute_begin_active h
  · exact db.execute_tx stmt hb

/-- No statement ends a transaction. -/
theorem executeAll_active (db : Database) (stmts : List Statement) (h : db.tx.anyActive = true) :
    (db.executeAll stmts).tx = db.tx := by
  induction stmts generalizing db with
  | nil => rfl
  | cons stmt stmts ih =>
    have hone := db.execute_active stmt h
    rw [executeAll, ih _ (by rw [hone]; exact h), hone]

/-- BEGIN opens a transaction. -/
theorem execute_begin (db : Database) (h : db.tx.anyActive = false) :
    (db.execute .begin).2.tx.anyActive = true := by
  have htx : (db.execute .begin).2.tx =
      ⟨db.tx.txs.set db.tx.nextTxId ⟨db.tx.nextTxId, true⟩, db.tx.nextTxId + 1⟩ := by
    simp only [execute, dispatch, dispatchBegin, TxManager.begin, h, Bool.false_eq_true, ↓reduceIte]
  rw [htx, TxManager.anyActive, List.any_eq_true]
  refine ⟨⟨db.tx.nextTxId, true⟩, OrdDict.mem_values.mpr ⟨db.tx.nextTxId, ?_⟩, rfl⟩
  rw [← OrdDict.get?_eq_some_iff, OrdDict.get?_set, if_pos rfl]

/-- The transaction of BEGIN is open after any statements. -/
theorem sqlTransaction_active (db : Database) (stmts : List Statement) (ending : Statement)
    (h : db.tx.anyActive = false) : (db.sqlTransaction stmts ending).tx.anyActive = true := by
  have hbegin := db.execute_begin h
  rw [sqlTransaction, List.cons_append, executeAll, executeAll_active _ _ hbegin]
  exact hbegin

/-- **No BEGIN is ever ended.** For every state without an open transaction and all
statements, neither COMMIT nor ROLLBACK ends as the block does: the transaction is still
open, and the next BEGIN raises. -/
theorem sql_transaction_stays_open (db : Database) (stmts : List Statement)
    (hidle : db.tx.anyActive = false) :
    ¬ db.EndsAsBlock stmts .commit false ∧ ¬ db.EndsAsBlock stmts .rollback true ∧
      ∀ ending, ((db.sqlTransaction stmts ending).execute .begin).1.isOk = false := by
  refine ⟨?_, ?_, fun ending => ?_⟩
  · rintro ⟨-, hnone⟩
    rw [sqlTransaction_active db stmts _ hidle] at hnone
    cases hnone
  · rintro ⟨-, hnone⟩
    rw [sqlTransaction_active db stmts _ hidle] at hnone
    cases hnone
  · simp only [execute, dispatch, dispatchBegin, TxManager.begin,
      sqlTransaction_active db stmts ending hidle, ↓reduceIte]
    rfl

theorem sql_transaction_stays_open_insert :
    let db := newDatabase [.createTable ⟨"t", [⟨"a", "INT", []⟩], false⟩]
    let stmts : List Statement := [.insert ⟨"t", none, [[.int 1]]⟩]
    ¬ db.EndsAsBlock stmts .commit false ∧ ¬ db.EndsAsBlock stmts .rollback true ∧
      ∀ ending, ((db.sqlTransaction stmts ending).execute .begin).1.isOk = false :=
  sql_transaction_stays_open _ _ (by decide +kernel)

/-- Not even BEGIN and COMMIT alone match an empty block. -/
theorem begin_commit_stays_open :
    ¬ ∀ (db : Database) (stmts : List Statement), db.tx.anyActive = false →
      db.MatchesBlocks stmts := by
  intro h
  have hidle : (newDatabase []).tx.anyActive = false := by decide +kernel
  generalize newDatabase [] = db at hidle
  have hnone := (h db [] hidle).1.2
  rw [sqlTransaction_active db [] _ hidle] at hnone
  cases hnone

end Database
end TinyDB
