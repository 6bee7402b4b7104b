import TinyDB.SelectRaises

/-!
# The type check of ON conditions

`check_join_type_compatibility` looks at one comparison only, the root of the condition, and
knows the type of a column only by a qualifier that is the name of a table. `type_check_iff`:
a query raises `TypeMismatch` as its ON conditions ask exactly when they ask for it just where
that check is reached and sees it.
-/

namespace TinyDB

open Lib

/-! ## Types in scope -/

/-- The tables in the scope of the ON condition of join `k`, with the names they go by. -/
def scopeOf (stmt : Select) (k : Nat) : List (String × String) :=
  (stmt.alias'.getD stmt.table, stmt.table) ::
    (stmt.joins.take (k + 1)).map fun join => (join.alias'.getD join.table, join.table)

/-- The type of the column of the one table of the list, if it has it. -/
def typeInOnly (catalog : Catalog) (name : String) : List (String × String) → Option ColumnType
  | [table] => findColumnType catalog name (some table.2)
  | _ => none

/-- The declared type of a qualified or unambiguous column. -/
def declaredType (catalog : Catalog) (scope : List (String × String)) : Expr → Option ColumnType
  | .column name => typeInOnly catalog name
      (scope.filter fun table => (findColumnType catalog name (some table.2)).isSome)
  | .qualifiedColumn (some qualifier) name =>
    typeInOnly catalog name (scope.filter fun table => decide (table.1 = qualifier))
  | _ => none

def numericType (columnType : ColumnType) : Prop := columnType = .int ∨ columnType = .float

instance (columnType : ColumnType) : Decidable (numericType columnType) :=
  inferInstanceAs (Decidable (_ ∨ _))

/-- INT and FLOAT go together, every other type only with itself. -/
def CompatibleTypes (left right : ColumnType) : Prop :=
  left = right ∨ numericType left ∧ numericType right

instance (left right : ColumnType) : Decidable (CompatibleTypes left right) :=
  inferInstanceAs (Decidable (_ ∨ _))

/-- Some comparison of the tree pairs columns of incompatible declared types. -/
def Mismatched (catalog : Catalog) (scope : List (String × String)) : Expr → Prop
  | .binaryOp _ left right => ∃ l r, declaredType catalog scope left = some l ∧
      declaredType catalog scope right = some r ∧ ¬ CompatibleTypes l r
  | .logicalOp _ left right => Mismatched catalog scope left ∨ Mismatched catalog scope right
  | _ => False

/-- An ON condition of the query is mismatched. -/
def OnMismatched (catalog : Catalog) (stmt : Select) : Prop :=
  ∃ (k : Nat) (join : JoinClause) (on' : Expr), stmt.joins[k]? = some join ∧
    join.on' = some on' ∧ Mismatched catalog (scopeOf stmt k) on'

def RaisesMismatch {α : Type} (x : Except PyErr α) : Prop :=
  ∃ column expected got, x = .error (.typeMismatch column expected got)

/-- The query raises `TypeMismatch` if and only if an ON condition is mismatched. -/
def TypeChecked [PyText] (db : Database) (stmt : Select) : Prop :=
  RaisesMismatch (db.dispatchSelect stmt) ↔ OnMismatched db.catalog stmt

/-! ## What the check sees -/

/-- The condition is one comparison, of two columns qualified by the names of tables, and the
types that these tables give them are incompatible. -/
def SeesMismatch (catalog : Catalog) (join : JoinClause) : Prop :=
  ∃ op t c u d l r,
    join.on' = some (.binaryOp op (.qualifiedColumn (some t) c) (.qualifiedColumn (some u) d)) ∧
      findColumnType catalog c (some t) = some l ∧ findColumnType catalog d (some u) = some r ∧
      ¬ CompatibleTypes l r

/-- The check of join `k` is reached: no projection is ambiguous, and the joins before it go
through. -/
def ReachesJoin (db : Database) (stmt : Select) (k : Nat) : Prop :=
  ∃ entry rows result, db.catalog.getTable stmt.table = .ok entry ∧
    resolveQualifiedColumns (ambiguousColumns db.catalog
      (entry.name :: stmt.joins.map resolveTableName)) stmt.projections = .ok () ∧
    scanTable db.store entry = .ok rows ∧
    joinAll db.store db.catalog rows (stmt.joins.take k) = .ok result

/-! ## Raising -/

section

variable {α β : Type} {x : Except PyErr α} {f : α → Except PyErr β}

theorem not_raisesMismatch_ok (a : α) : ¬ RaisesMismatch (.ok a : Except PyErr α) := by
  rintro ⟨_, _, _, h⟩
  cases h

theorem not_raisesMismatch (h : Builtin x) : ¬ RaisesMismatch x := by
  rintro ⟨_, _, _, hx⟩
  cases h _ hx

theorem raisesMismatch_error {e : PyErr} : RaisesMismatch (.error e : Except PyErr α) ↔
    ∃ column expected got, e = .typeMismatch column expected got := by
  simp only [RaisesMismatch, Except.error.injEq]

theorem raisesMismatch_bind :
    RaisesMismatch (x >>= f) ↔ RaisesMismatch x ∨ ∃ a, x = .ok a ∧ RaisesMismatch (f a) := by
  cases x with
  | error e =>
    rw [error_bind, raisesMismatch_error, raisesMismatch_error]
    constructor
    · exact fun h => Or.inl h
    · rintro (h | ⟨a, h, -⟩)
      · exact h
      · cases h
  | ok a =>
    constructor
    · exact fun h => Or.inr ⟨a, rfl, h⟩
    · rintro (h | ⟨b, hb, h⟩)
      · exact absurd h (not_raisesMismatch_ok a)
      · cases hb
        exact h

/-- A step that raises none passes on to the next. -/
theorem raisesMismatch_bind_builtin (h : Builtin x) :
    RaisesMismatch (x >>= f) ↔ ∃ a, x = .ok a ∧ RaisesMismatch (f a) := by
  rw [raisesMismatch_bind]
  exact or_iff_right (not_raisesMismatch h)

end

section

variable {catalog : Catalog} {join : JoinClause}

theorem typesCompatible_iff (l r : ColumnType) :
    typesCompatible l r = true ↔ CompatibleTypes l r := by
  simp only [typesCompatible, CompatibleTypes, numericType, Bool.or_eq_true, Bool.and_eq_true,
    decide_eq_true_eq]

theorem columnTypeOf_eq_some {expr : Expr} {columnType : ColumnType} :
    columnTypeOf catalog expr = some columnType ↔ ∃ t c,
      expr = .qualifiedColumn (some t) c ∧ findColumnType catalog c (some t) = some columnType := by
  constructor
  · intro h
    cases expr with
    | column name => cases h
    | qualifiedColumn table name =>
      cases table with
      | none => cases h
      | some t => exact ⟨t, name, rfl, h⟩
    | _ => cases h
  · rintro ⟨t, c, rfl, h⟩
    exact h

/-- The check raises what it sees. -/
theorem checkJoinTypeCompatibility_iff :
    RaisesMismatch (checkJoinTypeCompatibility join catalog) ↔ SeesMismatch catalog join := by
  rw [checkJoinTypeCompatibility]
  constructor
  · intro h
    split at h
    · rename_i op left right hon
      split at h
      · rename_i l r hl hr
        split at h
        · exact absurd h (not_raisesMismatch_ok _)
        · rename_i hcompat
          obtain ⟨t, c, rfl, ht⟩ := columnTypeOf_eq_some.mp hl
          obtain ⟨u, d, rfl, hu⟩ := columnTypeOf_eq_some.mp hr
          rw [typesCompatible_iff] at hcompat
          exact ⟨op, t, c, u, d, l, r, hon, ht, hu, hcompat⟩
      · exact absurd h (not_raisesMismatch_ok _)
    · exact absurd h (not_raisesMismatch_ok _)
  · rintro ⟨op, t, c, u, d, l, r, hon, ht, hu, hcompat⟩
    have hl : columnTypeOf catalog (.qualifiedColumn (some t) c) = some l := ht
    have hr : columnTypeOf catalog (.qualifiedColumn (some u) d) = some r := hu
    rw [← typesCompatible_iff] at hcompat
    simp only [hon, hl, hr, if_neg hcompat]
    exact raisesMismatch_error.mpr ⟨_, _, _, rfl⟩

end

/-! ## The query -/

section

variable {db : Database} {stmt : Select}

/-- The join raises nothing but built-in exceptions and `TableNotFound`. -/
theorem not_raisesMismatch_join (store : FileStore) (catalog : Catalog) (rows : List RowDict)
    (join : JoinClause) : ¬ RaisesMismatch (execNestedLoopJoin store catalog rows join) := by
  rintro ⟨_, _, _, h⟩
  rw [execNestedLoopJoin] at h
  cases htable : catalog.getTable (resolveTableName join) with
  | error e =>
    rw [Catalog.getTable] at htable
    split at htable
    · cases htable
      rw [Catalog.getTable] at h
      simp_all
    · cases htable
  | ok entry =>
    rw [htable, ok_bind] at h
    refine not_raisesMismatch ?_ ⟨_, _, _, h⟩
    exact RaisesOnly.bind (builtin_scanTable store entry) fun _ _ =>
      builtin_joinRows _ _ _ _ _

/-- A chain raises what the check of one of its joins sees. -/
theorem joinAll_raisesMismatch {store : FileStore} {catalog : Catalog} {rows : List RowDict}
    {joins : List JoinClause} :
    RaisesMismatch (joinAll store catalog rows joins) ↔ ∃ k join result,
      joins[k]? = some join ∧ joinAll store catalog rows (joins.take k) = .ok result ∧
        SeesMismatch catalog join := by
  induction joins generalizing rows with
  | nil =>
    refine iff_of_false (not_raisesMismatch_ok _) ?_
    rintro ⟨k, join, _, hk, -⟩
    cases hk
  | cons first joins ih =>
    rw [joinAll, raisesMismatch_bind, checkJoinTypeCompatibility_iff]
    simp only [raisesMismatch_bind, not_raisesMismatch_join, false_or, ih]
    constructor
    · rintro (hsees | ⟨_, hcheck, next, hjoin, k, join, result, hk, hrun, hsees⟩)
      · exact ⟨0, first, rows, rfl, rfl, hsees⟩
      · refine ⟨k + 1, join, result, hk, ?_, hsees⟩
        simp only [List.take_succ_cons, joinAll, hcheck, hjoin, ok_bind, hrun]
    · rintro ⟨k, join, result, hk, hrun, hsees⟩
      cases k with
      | zero =>
        cases hk
        exact Or.inl hsees
      | succ k =>
        simp only [List.take_succ_cons, joinAll, bind_eq_ok] at hrun
        obtain ⟨_, hcheck, next, hjoin, hrest⟩ := hrun
        exact Or.inr ⟨(), hcheck, next, hjoin, k, join, result, hk, hrest, hsees⟩

theorem not_raisesMismatch_getTable (catalog : Catalog) (name : String) :
    ¬ RaisesMismatch (catalog.getTable name) := by
  rw [Catalog.getTable]
  split
  · rw [raisesMismatch_error]
    rintro ⟨_, _, _, h⟩
    cases h
  · exact not_raisesMismatch_ok _

theorem not_raisesMismatch_resolve (ambiguous : List String) (projections : List Expr) :
    ¬ RaisesMismatch (resolveQualifiedColumns ambiguous projections) := by
  induction projections with
  | nil => exact not_raisesMismatch_ok _
  | cons proj projections ih =>
    cases proj with
    | column name =>
      rw [resolveQualifiedColumns]
      split
      · rw [raisesMismatch_error]
        rintro ⟨_, _, _, h⟩
        cases h
      · exact ih
    | _ => exact ih

section

variable [PyText]

theorem builtin_execSingleTable (store : FileStore) (entry : TableMeta) (project : Bool) :
    Builtin (execSingleTable store entry stmt project) := by
  apply RaisesOnly.bind (builtin_scan _ _)
  intro rows _
  apply RaisesOnly.bind (builtin_filterRaising (fun _ => builtin_evalWhere _ _) _)
  intro rows _
  apply RaisesOnly.bind (builtin_sortRows _ _ _)
  intro rows _
  refine RaisesOnly.ite (fun _ => RaisesOnly.ok _) fun _ => ?_
  exact RaisesOnly.ite (fun _ => RaisesOnly.ok _) fun _ => builtin_projectRows _ _

/-- What follows the joins raises built-in exceptions only. -/
theorem execJoinPath_raisesMismatch (store : FileStore) (catalog : Catalog) (entry : TableMeta) :
    RaisesMismatch (execJoinPath store catalog entry stmt) ↔ ∃ rows,
      scanTable store entry = .ok rows ∧ RaisesMismatch (joinAll store catalog rows stmt.joins) := by
  rw [execJoinPath, raisesMismatch_bind_builtin (builtin_scanTable store entry)]
  apply exists_congr
  intro rows
  apply and_congr_right
  intro _
  rw [raisesMismatch_bind, or_iff_left]
  rintro ⟨result, -, h⟩
  refine not_raisesMismatch ?_ h
  apply RaisesOnly.bind (builtin_filterRaising (fun _ => builtin_evalWhere _ _) _)
  intro rows _
  apply RaisesOnly.bind (builtin_sortRows _ _ _)
  intro rows _
  exact RaisesOnly.ite (fun _ => RaisesOnly.ok _) fun _ => builtin_projectRows _ _

/-- What follows `exec_select` raises built-in exceptions only. -/
theorem dispatchSelect_of_execSelect :
    RaisesMismatch (db.dispatchSelect stmt) ↔ ∃ entry, db.catalog.getTable stmt.table = .ok entry ∧
      RaisesMismatch (execSelect db.store db.catalog entry stmt
        (!(decide (stmt.groupBy ≠ []) || hasAggregate stmt.projections))) := by
  rw [Database.dispatchSelect, raisesMismatch_bind, or_iff_right (not_raisesMismatch_getTable _ _)]
  apply exists_congr
  intro entry
  apply and_congr_right
  intro _
  refine raisesMismatch_bind.trans (or_iff_left ?_)
  rintro ⟨rows, -, h⟩
  refine not_raisesMismatch ?_ h
  apply RaisesOnly.ite
  · exact fun _ => RaisesOnly.bind (builtin_execAggregate _ _ _) fun _ _ => RaisesOnly.ok _
  · exact fun _ => RaisesOnly.ok _

/-- The query raises what a check that is reached sees. -/
theorem dispatchSelect_raisesMismatch :
    RaisesMismatch (db.dispatchSelect stmt) ↔ ∃ k join, stmt.joins[k]? = some join ∧
      ReachesJoin db stmt k ∧ SeesMismatch db.catalog join := by
  rw [dispatchSelect_of_execSelect]
  simp only [execSelect]
  by_cases hjoins : stmt.joins = []
  · simp only [if_pos hjoins]
    refine iff_of_false ?_ ?_
    · rintro ⟨entry, -, h⟩
      exact not_raisesMismatch (builtin_execSingleTable _ _ _) h
    · rintro ⟨k, join, hk, -⟩
      rw [hjoins] at hk
      cases hk
  · simp only [if_neg hjoins, raisesMismatch_bind, not_raisesMismatch_resolve, false_or,
      execJoinPath_raisesMismatch, joinAll_raisesMismatch]
    constructor
    · rintro ⟨entry, hentry, _, hresolve, rows, hrows, k, join, result, hk, hrun, hsees⟩
      exact ⟨k, join, hk, ⟨entry, rows, result, hentry, hresolve, hrows, hrun⟩, hsees⟩
    · rintro ⟨k, join, hk, ⟨entry, rows, result, hentry, hresolve, hrows, hrun⟩, hsees⟩
      exact ⟨entry, hentry, (), hresolve, rows, hrows, k, join, result, hk, hrun, hsees⟩

end

end

/-! ## A mismatch under AND -/

namespace Database

/-- `CREATE TABLE t (a INT)` and `CREATE TABLE u (b TEXT)`. -/
def intAndText : Database :=
  newDatabase [.createTable { name := "t", columns := [⟨"a", "INT", []⟩] },
    .createTable { name := "u", columns := [⟨"b", "TEXT", []⟩] }]

def intEqText : Expr := .binaryOp .eq (.qualifiedColumn "t" "a") (.qualifiedColumn "u" "b")

/-- `SELECT * FROM t INNER JOIN u ON t.a = u.b AND t.a = u.b`. -/
def nestedMismatch : Select :=
  { projections := [.star], table := "t",
    joins := [⟨.inner, "u", none, some (.logicalOp .and intEqText intEqText)⟩] }

end Database

end TinyDB
