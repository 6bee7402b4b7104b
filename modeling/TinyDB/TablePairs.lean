import TinyDB.Statements

/-!
# One table on two stores

INSERT, UPDATE and DELETE reach the pages through four heap operations. `Paired`: on
any two stores that are related, these give the same for the table and for its
counterpart on another page, and leave the stores related. Then so do the statements.
-/

namespace TinyDB

open Lib FileStore

/-- The table with its rows on another page. -/
def TableMeta.onPage (entry : TableMeta) (root : Nat) : TableMeta := { entry with rootPageId := root }

/-- The same result, and related stores. -/
def OutcomeBy {α : Type} (R : FileStore → FileStore → Prop) (x y : α × FileStore) : Prop :=
  y.1 = x.1 ∧ R x.2 y.2

structure Paired (R : FileStore → FileStore → Prop) (entry : TableMeta) (root : Nat) : Prop where
  scan : ∀ s t, R s t → (entry.onPage root).heap.scan t = entry.heap.scan s
  append : ∀ s t values, R s t → Lockstep (fun a b : Nat × FileStore => R a.2 b.2)
    (entry.heap.append s values) ((entry.onPage root).heap.append t values)
  update : ∀ s t rowid values, R s t →
    Lockstep R (entry.heap.update s rowid values) ((entry.onPage root).heap.update t rowid values)
  delete : ∀ s t rowid, R s t →
    Lockstep R (entry.heap.delete s rowid) ((entry.onPage root).heap.delete t rowid)

theorem validateRow_onPage (entry : TableMeta) (root : Nat) (constraints : ColumnConstraints)
    (pairs : List (String × Value)) :
    validateRow (entry.onPage root) constraints pairs = validateRow entry constraints pairs := by
  induction pairs with
  | nil => rfl
  | cons pair pairs ih =>
    obtain ⟨col, value⟩ := pair
    simp only [validateRow, ih]
    rfl

theorem prepareRow_onPage (entry : TableMeta) (root : Nat) (constraints : ColumnConstraints)
    (colNames : List String) (values : List Value) :
    prepareRow (entry.onPage root) constraints colNames values =
      prepareRow entry constraints colNames values := by
  simp only [prepareRow, validateRow_onPage]
  rfl

variable {R : FileStore → FileStore → Prop} {entry : TableMeta} {root : Nat} {s t : FileStore}

theorem Paired.insertRow (h : Paired R entry root) (hst : R s t) (constraints : ColumnConstraints)
    (colNames : List String) (values : List Value) :
    Lockstep R (insertRow entry.heap entry constraints colNames s values)
      (insertRow (entry.onPage root).heap (entry.onPage root) constraints colNames t values) := by
  have hcheck : ∀ ordered pk, checkUnique (entry.onPage root).heap t (entry.onPage root) ordered pk =
      checkUnique entry.heap s entry ordered pk := fun ordered pk => by
    simp only [checkUnique, h.scan s t hst]
    rfl
  have happ : ∀ ordered, Lockstep R (entry.heap.append s ordered >>= fun p => .ok p.2)
      ((entry.onPage root).heap.append t ordered >>= fun p => .ok p.2) := fun ordered =>
    (h.append s t ordered hst).bind fun a b hab => Lockstep.ok hab
  simp only [TinyDB.insertRow, hcheck, prepareRow_onPage]
  refine Lockstep.bind_same _ fun ordered _ => ?_
  split
  · exact Lockstep.bind_same _ fun _ _ => happ ordered
  · exact happ ordered

theorem Paired.insertRows (h : Paired R entry root) (hst : R s t) (constraints : ColumnConstraints)
    (colNames : List String) (valuesList : List (List Value)) :
    OutcomeBy R (insertRows entry.heap entry constraints colNames s valuesList)
      (insertRows (entry.onPage root).heap (entry.onPage root) constraints colNames t
        valuesList) := by
  induction valuesList generalizing s t with
  | nil => exact ⟨rfl, hst⟩
  | cons values rest ih =>
    have hrow := h.insertRow hst constraints colNames values
    simp only [TinyDB.insertRows]
    generalize TinyDB.insertRow entry.heap entry constraints colNames s values = x at hrow ⊢
    generalize TinyDB.insertRow (entry.onPage root).heap (entry.onPage root) constraints colNames t
      values = y at hrow ⊢
    cases hrow with
    | ok hab => exact ih hab
    | error e => exact ⟨rfl, hst⟩

/-- The loop of UPDATE and DELETE. -/
theorem outcomeBy_writeRows (schema : Schema) (cond : Option Expr)
    {write write' : FileStore → Nat → RowDict → Except PyErr FileStore}
    (hwrite : ∀ s t rowid dict, R s t → Lockstep R (write s rowid dict) (write' t rowid dict))
    (hst : R s t) (n : Nat) (rows : List (Nat × Row)) :
    OutcomeBy R (writeRows schema cond write s n rows) (writeRows schema cond write' t n rows) := by
  induction rows generalizing s t n with
  | nil => exact ⟨rfl, hst⟩
  | cons row rows ih =>
    obtain ⟨rowid, values⟩ := row
    simp only [writeRows]
    cases evalWhere (rowToDict schema values rowid) cond with
    | error e => exact ⟨rfl, hst⟩
    | ok hit =>
      cases hit with
      | false => exact ih hst n
      | true =>
        have hrow := hwrite s t rowid (rowToDict schema values rowid) hst
        simp only
        generalize write s rowid (rowToDict schema values rowid) = x at hrow ⊢
        generalize write' t rowid (rowToDict schema values rowid) = y at hrow ⊢
        cases hrow with
        | ok hab => exact ih hab (n + 1)
        | error e => exact ⟨rfl, hst⟩

theorem Paired.execInsert (h : Paired R entry root) (hst : R s t) (columns : Option (List String))
    (valuesList : List (List Value)) (constraints : ColumnConstraints) :
    OutcomeBy R (execInsert s entry columns valuesList constraints)
      (execInsert t (entry.onPage root) columns valuesList constraints) := by
  have hcols : insertColumns (entry.onPage root) columns = insertColumns entry columns := by
    unfold insertColumns
    split <;> rfl
  rw [TinyDB.execInsert, TinyDB.execInsert, hcols]
  exact h.insertRows hst constraints _ valuesList

theorem Paired.execUpdate (h : Paired R entry root) (hst : R s t)
    (assignments : List (String × Value)) (cond : Option Expr) :
    OutcomeBy R (execUpdate s entry assignments cond)
      (execUpdate t (entry.onPage root) assignments cond) := by
  simp only [TinyDB.execUpdate, h.scan s t hst]
  cases entry.heap.scan s with
  | error e => exact ⟨rfl, hst⟩
  | ok rows =>
    have hrow : ∀ s t rowid dict, R s t →
        Lockstep R (updateRow entry.heap (OrdDict.ofList assignments) s rowid dict)
          (updateRow (entry.onPage root).heap (OrdDict.ofList assignments) t rowid dict) :=
      fun s t rowid dict hst =>
        Lockstep.bind_same (updatedValues (OrdDict.ofList assignments) dict entry.schema)
          fun values _ => h.update s t rowid values hst
    exact outcomeBy_writeRows entry.schema cond hrow hst 0 rows

theorem Paired.execDelete (h : Paired R entry root) (hst : R s t) (cond : Option Expr) :
    OutcomeBy R (execDelete s entry cond) (execDelete t (entry.onPage root) cond) := by
  simp only [TinyDB.execDelete, h.scan s t hst]
  split
  · exact ⟨rfl, hst⟩
  · cases entry.heap.scan s with
    | error e => exact ⟨rfl, hst⟩
    | ok rows =>
      exact outcomeBy_writeRows entry.schema cond (fun s t rowid _ hst => h.delete s t rowid hst)
        hst 0 rows

end TinyDB
