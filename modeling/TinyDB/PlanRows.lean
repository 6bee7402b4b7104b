import TinyDB.Aliases

/-!
# The rows of a plan

`plan_select` puts what is left of WHERE between the scan of the FROM table and the
joins, and leaves nothing of an equality with a column on its left, whether the scan
uses an index for it or not. `plan_rows_iff`: the plan yields the rows of FROM, JOIN and
WHERE exactly if WHERE holds of a joined row where the plan keeps the row of the FROM
table in it.
-/

namespace TinyDB

open Lib

/-! ## Interpretation -/

namespace PlanNode

/-- The table whose rows the right side of a join scans. -/
def tableName : PlanNode → String
  | tableScan table _ _ => table
  | indexScan table _ _ _ _ => table
  | filter _ child _ _ => child.tableName
  | nestedLoopJoin left _ _ _ _ => left.tableName

/-- All merged pairs, left to right. -/
def pairs (join : JoinClause) (lefts rights : List RowDict) : List RowDict :=
  lefts.flatMap fun left => rights.map fun right => mergeRows left right join

/-- The rows that a plan stands for. -/
def rows (store : FileStore) (catalog : Catalog) : PlanNode → Except PyErr (List RowDict)
  | tableScan table _ _ => do
    let entry ← catalog.getTable table
    scanTable store entry
  | indexScan table column seekKey _ _ => do
    let entry ← catalog.getTable table
    let rows ← scanTable store entry
    .ok (rows.filter fun row => (row.find column).pyEq seekKey)
  | filter predicate child _ _ => do
    let rows ← child.rows store catalog
    filterRaising (fun row => evalPredicate row predicate) rows
  | nestedLoopJoin left right condition _ _ => do
    let lefts ← left.rows store catalog
    let rights ← right.rows store catalog
    filterRaising (fun row => evalWhere row condition)
      (pairs ⟨.inner, right.tableName, none, condition⟩ lefts rights)

end PlanNode

/-- The rows of FROM, JOIN and WHERE, before ORDER BY. -/
def whereRows (store : FileStore) (catalog : Catalog) (entry : TableMeta) (stmt : Select) :
    Except PyErr (List RowDict) := do
  let leftDicts ← scanTable store entry
  let result ← joinAll store catalog leftDicts stmt.joins
  filterRaising (fun row => evalWhere row stmt.where') result

/-- Whether the scan and the filter of the plan let a row of the FROM table through. -/
def keptByPlan (entry : TableMeta) (where' : Option Expr) (row : RowDict) : Except PyErr Bool :=
  match IndexPlanner.matchIndexColumn where' entry with
  | some (column, seekKey) => .ok ((row.find column).pyEq seekKey)
  | none =>
    match IndexPlanner.extractPostScanPredicate where' with
    | none => .ok true
    | some predicate => evalPredicate row predicate

/-- The row is `left` merged with a row of each joined table, and every ON holds. -/
def Joined (store : FileStore) (catalog : Catalog) : List JoinClause → RowDict → RowDict → Prop
  | [], left, row => row = left
  | join :: joins, left, row => ∃ entry rights, catalog.getTable join.table = .ok entry ∧
    scanTable store entry = .ok rights ∧ ∃ right ∈ rights,
      matchJoinCondition join (mergeRows left right join) = .ok true ∧
      Joined store catalog joins (mergeRows left right join) row

/-- WHERE holds of a joined row exactly if the plan keeps the row of the FROM table. -/
def PlanKeeps (store : FileStore) (catalog : Catalog) (stmt : Select) : Prop :=
  ∀ entry, catalog.getTable stmt.table = .ok entry → ∀ lefts, scanTable store entry = .ok lefts →
    ∀ left ∈ lefts, ∃ keep, keptByPlan entry stmt.where' left = .ok keep ∧
      ∀ row, Joined store catalog stmt.joins left row → evalWhere row stmt.where' = .ok keep

/-- The plan yields these rows, in some order. -/
def PlanYields (store : FileStore) (catalog : Catalog) (stmt : Select) (rows : List RowDict) :
    Prop :=
  ∃ plan rows', IndexPlanner.planSelect stmt catalog = .ok plan ∧
    plan.rows store catalog = .ok rows' ∧ rows'.Perm rows

/-- Joins of tables under their own names. -/
def InnerJoins (stmt : Select) : Prop :=
  ∀ join ∈ stmt.joins, join.kind = .inner ∧ join.alias' = none

/-! ## Filters -/

section

variable {α β : Type} {test : α → Except PyErr Bool}

theorem filterRaising_append (a b : List α) :
    filterRaising test (a ++ b) = (do
      let x ← filterRaising test a
      let y ← filterRaising test b
      .ok (x ++ y)) := by
  induction a with
  | nil =>
    rw [List.nil_append, filterRaising, ok_bind]
    cases filterRaising test b <;> rfl
  | cons x a ih =>
    simp only [List.cons_append, filterRaising, ih]
    cases test x with
    | error e => rfl
    | ok keep =>
      cases filterRaising test a with
      | error e => rfl
      | ok xs =>
        cases filterRaising test b with
        | error e => rfl
        | ok ys => cases keep <;> rfl

theorem filterRaising_map (f : β → α) (l : List β) :
    filterRaising test (l.map f) = (do
      let kept ← filterRaising (fun x => test (f x)) l
      .ok (kept.map f)) := by
  induction l with
  | nil => rfl
  | cons x l ih =>
    simp only [List.map_cons, filterRaising, ih]
    cases test (f x) with
    | error e => rfl
    | ok keep =>
      cases filterRaising (fun x => test (f x)) l with
      | error e => rfl
      | ok kept => cases keep <;> rfl

/-- A test that raises on nothing. -/
theorem filterRaising_pure (p : α → Bool) (l : List α) :
    filterRaising (fun x => .ok (p x)) l = .ok (l.filter p) := by
  induction l with
  | nil => rfl
  | cons x l ih =>
    simp only [filterRaising, ih, ok_bind, List.filter_cons]

/-- A test with one answer. -/
theorem filterRaising_const {keep : Bool} {l : List α} (h : ∀ x ∈ l, test x = .ok keep) :
    filterRaising test l = .ok (if keep then l else []) := by
  have hconst : filterRaising test l = filterRaising (fun _ => .ok keep) l :=
    filterRaising_congr h
  rw [hconst, filterRaising_pure]
  cases keep with
  | false => simp
  | true => simp

theorem filterRaising_spec {l kept : List α} (h : filterRaising test l = .ok kept) :
    (∀ x ∈ l, ∃ keep, test x = .ok keep) ∧ ∀ x, x ∈ kept ↔ x ∈ l ∧ test x = .ok true := by
  induction l generalizing kept with
  | nil =>
    cases h
    simp
  | cons y l ih =>
    simp only [filterRaising, bind_eq_ok, Except.ok.injEq] at h
    obtain ⟨keep, hkeep, rest, hrest, rfl⟩ := h
    obtain ⟨hok, hmem⟩ := ih hrest
    refine ⟨fun x hx => ?_, fun x => ?_⟩
    · rcases List.mem_cons.mp hx with rfl | hx
      · exact ⟨keep, hkeep⟩
      · exact hok x hx
    · cases keep with
      | true =>
        simp only [if_true, List.mem_cons, hmem]
        constructor
        · rintro (rfl | ⟨hx, ht⟩)
          · exact ⟨Or.inl rfl, hkeep⟩
          · exact ⟨Or.inr hx, ht⟩
        · rintro ⟨rfl | hx, ht⟩
          · exact Or.inl rfl
          · exact Or.inr ⟨hx, ht⟩
      | false =>
        simp only [Bool.false_eq_true, if_false, List.mem_cons, hmem]
        constructor
        · rintro ⟨hx, ht⟩
          exact ⟨Or.inr hx, ht⟩
        · rintro ⟨rfl | hx, ht⟩
          · rw [hkeep] at ht
            cases ht
          · exact ⟨hx, ht⟩

end

/-! ## The joins of the code -/

section

variable {store : FileStore} {catalog : Catalog} {join : JoinClause}

theorem matchRows_eq (join : JoinClause) (left : RowDict) (rights : List RowDict) :
    matchRows join left rights = filterRaising (fun row => evalWhere row join.on')
      (rights.map fun right => mergeRows left right join) := by
  induction rights with
  | nil => rfl
  | cons right rights ih =>
    simp only [matchRows, matchJoinCondition, List.map_cons, filterRaising, ih]

/-- An INNER join filters the pairs. -/
theorem joinRows_eq (hkind : join.kind = .inner) (rightTable : String) (schema : Schema)
    (rights lefts : List RowDict) :
    joinRows join rightTable schema rights lefts =
      filterRaising (fun row => evalWhere row join.on') (PlanNode.pairs join lefts rights) := by
  have hne : join.kind ≠ .left := by rw [hkind]; decide
  induction lefts with
  | nil => rfl
  | cons left lefts ih =>
    have hpairs : PlanNode.pairs join (left :: lefts) rights =
        (rights.map fun right => mergeRows left right join) ++ PlanNode.pairs join lefts rights := by
      simp only [PlanNode.pairs, List.flatMap_cons]
    rw [hpairs, filterRaising_append, ← matchRows_eq, ← ih]
    simp only [joinRows, hne, false_and, if_false]

/-- One join, on tables under their own names. -/
theorem execNestedLoopJoin_eq (hkind : join.kind = .inner) (halias : join.alias' = none)
    (lefts : List RowDict) :
    execNestedLoopJoin store catalog lefts join = (do
      let entry ← catalog.getTable join.table
      let rights ← scanTable store entry
      filterRaising (fun row => evalWhere row join.on') (PlanNode.pairs join lefts rights)) := by
  simp only [execNestedLoopJoin, resolveTableName_unaliased halias, joinRows_eq hkind]

theorem execNestedLoopJoin_append (hkind : join.kind = .inner) (halias : join.alias' = none)
    {a b rows : List RowDict} :
    execNestedLoopJoin store catalog (a ++ b) join = .ok rows ↔
      ∃ x y, execNestedLoopJoin store catalog a join = .ok x ∧
        execNestedLoopJoin store catalog b join = .ok y ∧ rows = x ++ y := by
  simp only [execNestedLoopJoin_eq hkind halias]
  cases catalog.getTable join.table with
  | error e =>
    constructor
    · exact fun h => by cases h
    · rintro ⟨x, y, h, -⟩
      cases h
  | ok entry =>
    simp only [ok_bind]
    cases scanTable store entry with
    | error e =>
      constructor
      · exact fun h => by cases h
      · rintro ⟨x, y, h, -⟩
        cases h
    | ok rights =>
      have hpairs : PlanNode.pairs join (a ++ b) rights =
          PlanNode.pairs join a rights ++ PlanNode.pairs join b rights := by
        simp only [PlanNode.pairs, List.flatMap_append]
      simp only [ok_bind, hpairs, filterRaising_append, bind_eq_ok, Except.ok.injEq]
      constructor
      · rintro ⟨x, hx, y, hy, rfl⟩
        exact ⟨x, y, hx, hy, rfl⟩
      · rintro ⟨x, y, hx, hy, rfl⟩
        exact ⟨x, hx, y, hy, rfl⟩

theorem nestedLoopChain_append {joins : List JoinClause}
    (hjoins : ∀ join ∈ joins, join.kind = .inner ∧ join.alias' = none) {a b rows : List RowDict} :
    nestedLoopChain store catalog (a ++ b) joins = .ok rows ↔
      ∃ x y, nestedLoopChain store catalog a joins = .ok x ∧
        nestedLoopChain store catalog b joins = .ok y ∧ rows = x ++ y := by
  induction joins generalizing a b with
  | nil =>
    simp only [nestedLoopChain, Except.ok.injEq]
    constructor
    · rintro rfl
      exact ⟨a, b, rfl, rfl, rfl⟩
    · rintro ⟨x, y, rfl, rfl, rfl⟩
      rfl
  | cons join joins ih =>
    obtain ⟨hkind, halias⟩ := hjoins join (List.mem_cons_self ..)
    have hrest := fun j hj => hjoins j (List.mem_cons_of_mem _ hj)
    simp only [nestedLoopChain, bind_eq_ok, execNestedLoopJoin_append hkind halias]
    constructor
    · rintro ⟨_, ⟨x, y, hx, hy, rfl⟩, h⟩
      obtain ⟨u, v, hu, hv, rfl⟩ := (ih hrest).mp h
      exact ⟨u, v, ⟨x, hx, hu⟩, ⟨y, hy, hv⟩, rfl⟩
    · rintro ⟨u, v, ⟨x, hx, hu⟩, ⟨y, hy, hv⟩, rfl⟩
      exact ⟨x ++ y, ⟨x, y, hx, hy, rfl⟩, (ih hrest).mpr ⟨u, v, hu, hv, rfl⟩⟩

/-- The rows of a chain. -/
theorem mem_nestedLoopChain {joins : List JoinClause}
    (hjoins : ∀ join ∈ joins, join.kind = .inner ∧ join.alias' = none) {lefts rows : List RowDict}
    (h : nestedLoopChain store catalog lefts joins = .ok rows) (row : RowDict) :
    row ∈ rows ↔ ∃ left ∈ lefts, Joined store catalog joins left row := by
  induction joins generalizing lefts with
  | nil =>
    cases h
    simp only [Joined, exists_eq_right']
  | cons join joins ih =>
    obtain ⟨hkind, halias⟩ := hjoins join (List.mem_cons_self ..)
    simp only [nestedLoopChain, bind_eq_ok, execNestedLoopJoin_eq hkind halias] at h
    obtain ⟨joined, ⟨entry, hentry, rights, hscan, hfilter⟩, hrest⟩ := h
    have hmem := (filterRaising_spec hfilter).2
    rw [ih (fun j hj => hjoins j (List.mem_cons_of_mem _ hj)) hrest]
    constructor
    · rintro ⟨mid, hmid, hrow⟩
      obtain ⟨hpair, hon⟩ := (hmem mid).mp hmid
      obtain ⟨left, hleft, hin⟩ := List.mem_flatMap.mp hpair
      obtain ⟨right, hright, rfl⟩ := List.mem_map.mp hin
      exact ⟨left, hleft, entry, rights, hentry, hscan, right, hright, hon, hrow⟩
    · rintro ⟨left, hleft, entry', rights', hentry', hscan', right, hright, hon, hrow⟩
      rw [hentry, Except.ok.injEq] at hentry'
      subst hentry'
      rw [hscan, Except.ok.injEq] at hscan'
      subst hscan'
      exact ⟨_, (hmem _).mpr ⟨List.mem_flatMap.mpr ⟨left, hleft, List.mem_map_of_mem hright⟩, hon⟩,
        hrow⟩

/-- Without the check of types, which only raises. -/
theorem nestedLoopChain_of_joinAll {joins : List JoinClause} {lefts rows : List RowDict}
    (h : joinAll store catalog lefts joins = .ok rows) :
    nestedLoopChain store catalog lefts joins = .ok rows := by
  induction joins generalizing lefts with
  | nil => exact h
  | cons join joins ih =>
    simp only [joinAll, bind_eq_ok] at h
    obtain ⟨-, -, joined, hjoined, hrest⟩ := h
    simp only [nestedLoopChain, bind_eq_ok]
    exact ⟨joined, hjoined, ih hrest⟩

end

/-! ## The planner -/

namespace IndexPlanner

variable {store : FileStore} {catalog : Catalog} {entry : TableMeta} {where' : Option Expr}

/-- The plan of a scan, with the equality that it takes from WHERE. -/
theorem rows_planScan (store : FileStore) {table : String} {plan : PlanNode}
    (h : planScan table where' catalog = .ok plan) (hentry : catalog.getTable table = .ok entry) :
    plan.tableName = table ∧ plan.rows store catalog = (do
      let rows ← scanTable store entry
      match matchIndexColumn where' entry with
      | some (column, seekKey) => .ok (rows.filter fun row => (row.find column).pyEq seekKey)
      | none => .ok rows) := by
  simp only [planScan, hentry, ok_bind] at h
  cases hmatch : matchIndexColumn where' entry with
  | none =>
    simp only [hmatch, Except.ok.injEq] at h
    subst h
    refine ⟨rfl, ?_⟩
    simp only [PlanNode.rows, hentry, ok_bind]
    cases scanTable store entry <;> rfl
  | some pair =>
    simp only [hmatch, Except.ok.injEq] at h
    subst h
    exact ⟨rfl, by simp only [PlanNode.rows, hentry, ok_bind]⟩

theorem rows_planJoin {left plan : PlanNode} {join : JoinClause}
    (hjoin : join.kind = .inner ∧ join.alias' = none)
    (h : planJoin left join catalog = .ok plan) :
    plan.rows store catalog = (do
      let lefts ← left.rows store catalog
      execNestedLoopJoin store catalog lefts join) := by
  simp only [planJoin, bind_eq_ok, Except.ok.injEq] at h
  obtain ⟨entry, hentry, scan, hscan, rfl⟩ := h
  obtain ⟨hname, hrows⟩ := rows_planScan store hscan hentry
  obtain ⟨hkind, halias⟩ := hjoin
  have heta : (⟨.inner, join.table, none, join.on'⟩ : JoinClause) = join := by
    rw [← hkind, ← halias]
  simp only [PlanNode.rows, hname, hrows, matchIndexColumn, heta,
    execNestedLoopJoin_eq hkind halias, hentry, ok_bind]
  cases left.rows store catalog with
  | error e => rfl
  | ok lefts => cases scanTable store entry <;> rfl

theorem rows_planJoins {joins : List JoinClause}
    (hjoins : ∀ join ∈ joins, join.kind = .inner ∧ join.alias' = none) {root plan : PlanNode}
    (h : planJoins catalog root joins = .ok plan) :
    plan.rows store catalog = (do
      let lefts ← root.rows store catalog
      nestedLoopChain store catalog lefts joins) := by
  induction joins generalizing root with
  | nil =>
    cases h
    cases plan.rows store catalog <;> rfl
  | cons join joins ih =>
    simp only [planJoins, bind_eq_ok] at h
    obtain ⟨mid, hmid, hrest⟩ := h
    rw [ih (fun j hj => hjoins j (List.mem_cons_of_mem _ hj)) hrest,
      rows_planJoin (hjoins join (List.mem_cons_self ..)) hmid]
    cases root.rows store catalog with
    | error e => rfl
    | ok lefts => rfl

/-- Nothing but a missing table stops the planner. -/
theorem planJoins_ok {joins : List JoinClause}
    (h : ∀ join ∈ joins, ∃ entry, catalog.getTable join.table = .ok entry) (root : PlanNode) :
    ∃ plan, planJoins catalog root joins = .ok plan := by
  induction joins generalizing root with
  | nil => exact ⟨root, rfl⟩
  | cons join joins ih =>
    obtain ⟨entry, hentry⟩ := h join (List.mem_cons_self ..)
    obtain ⟨plan, hplan⟩ : ∃ plan, planJoin root join catalog = .ok plan := by
      simp only [planJoin, planScan, hentry, ok_bind, matchIndexColumn]
      exact ⟨_, rfl⟩
    obtain ⟨last, hlast⟩ := ih (fun j hj => h j (List.mem_cons_of_mem _ hj)) plan
    exact ⟨last, by simp only [planJoins, hplan, ok_bind, hlast]⟩

/-- A condition that an index takes over leaves nothing behind. -/
theorem extractPostScanPredicate_of_match {pair : String × Value}
    (h : matchIndexColumn where' entry = some pair) : extractPostScanPredicate where' = none := by
  unfold matchIndexColumn at h
  split at h
  · rfl
  · cases h

/-- **The rows of a plan**: the kept rows of the FROM table, joined. -/
theorem rows_planSelect {stmt : Select} {plan : PlanNode} (hjoins : InnerJoins stmt)
    (hentry : catalog.getTable stmt.table = .ok entry)
    (h : planSelect stmt catalog = .ok plan) :
    plan.rows store catalog = (do
      let lefts ← scanTable store entry
      let kept ← filterRaising (keptByPlan entry stmt.where') lefts
      nestedLoopChain store catalog kept stmt.joins) := by
  simp only [planSelect, bind_eq_ok] at h
  obtain ⟨scan, hscan, hplan⟩ := h
  rw [rows_planJoins hjoins hplan]
  obtain ⟨-, hrows⟩ := rows_planScan store hscan hentry
  cases hmatch : matchIndexColumn stmt.where' entry with
  | some pair =>
    simp only [extractPostScanPredicate_of_match hmatch, hrows, hmatch]
    cases scanTable store entry with
    | error e => rfl
    | ok lefts =>
      have hkept : keptByPlan entry stmt.where' =
          fun row => .ok ((row.find pair.1).pyEq pair.2) := by
        funext row
        simp only [keptByPlan, hmatch]
      simp only [ok_bind, hkept, filterRaising_pure]
  | none =>
    cases hpost : extractPostScanPredicate stmt.where' with
    | none =>
      simp only [hrows, hmatch]
      cases scanTable store entry with
      | error e => rfl
      | ok lefts =>
        have hkept : ∀ row ∈ lefts, keptByPlan entry stmt.where' row = .ok true := fun row _ => by
          simp only [keptByPlan, hmatch, hpost]
        simp only [ok_bind, filterRaising_const hkept, if_true]
    | some predicate =>
      simp only [PlanNode.rows, hrows, hmatch]
      cases scanTable store entry with
      | error e => rfl
      | ok lefts =>
        have hkept : keptByPlan entry stmt.where' = fun row => evalPredicate row predicate := by
          funext row
          simp only [keptByPlan, hmatch, hpost]
        simp only [ok_bind, hkept]

end IndexPlanner

/-! ## Rows of the FROM table -/

section

variable {store : FileStore} {catalog : Catalog} {left left' row : RowDict}

theorem evalExpr_congr (h : ∀ k, left.get? k = left'.get? k) (expr : Expr) :
    evalExpr left expr = evalExpr left' expr := by
  have hfind : ∀ k, left.find k = left'.find k := fun k => by rw [RowDict.find, h, RowDict.find]
  induction expr with
  | qualifiedColumn table name =>
    cases table with
    | none => simp only [evalExpr, hfind]
    | some t => simp only [evalExpr, hfind, h]
  | binaryOp op l r ihl ihr => simp only [evalExpr, ihl, ihr]
  | column name => simp only [evalExpr, hfind]
  | _ => rfl

theorem evalPredicate_congr (h : ∀ k, left.get? k = left'.get? k) (expr : Expr) :
    evalPredicate left expr = evalPredicate left' expr := by
  have hfind : ∀ k, left.find k = left'.find k := fun k => by rw [RowDict.find, h, RowDict.find]
  induction expr with
  | logicalOp op l r ihl ihr => cases op <;> simp only [evalPredicate, ihl, ihr]
  | binaryOp op l r => simp only [evalPredicate, evalComparison, evalExpr_congr h]
  | inPredicate expr values negated => simp only [evalPredicate, evalExpr_congr h]
  | unaryOp op operand => simp only [evalPredicate, evalExpr_congr h]
  | qualifiedColumn table name => simp only [evalPredicate, evalExpr_congr h]
  | column name => simp only [evalPredicate, hfind]
  | _ => rfl

theorem keptByPlan_congr (h : ∀ k, left.get? k = left'.get? k) (entry : TableMeta)
    (where' : Option Expr) : keptByPlan entry where' left = keptByPlan entry where' left' := by
  unfold keptByPlan
  split
  · rw [RowDict.find, h, RowDict.find]
  · split
    · rfl
    · exact evalPredicate_congr h _

/-- A joined row has the values of the row of the FROM table. -/
theorem Joined.get? {joins : List JoinClause} (h : Joined store catalog joins left row) {k : String}
    (hk : Dotless k) {v : Value} (hv : left.get? k = some v) : row.get? k = some v := by
  induction joins generalizing left with
  | nil =>
    rw [show row = left from h]
    exact hv
  | cons join joins ih =>
    obtain ⟨entry, rights, -, -, right, -, -, hrest⟩ := h
    refine ih hrest ?_
    rw [get?_mergeRows_plain hk, hv, Option.some_or]

/-- The FROM row of a joined row. -/
theorem Joined.unique {joins : List JoinClause} {entry : TableMeta} {lefts : List RowDict}
    (hscan : scanTable store entry = .ok lefts)
    (hdot : ∀ col ∈ entry.schema.map Prod.fst, Dotless col) (hl : left ∈ lefts)
    (hl' : left' ∈ lefts) (h : Joined store catalog joins left row)
    (h' : Joined store catalog joins left' row) : ∀ k, left.get? k = left'.get? k := by
  have hkeys : ∀ l ∈ lefts, ∀ k, l.get? k ≠ none ↔ k ∈ entry.schema.map Prod.fst ∨ k = "rowid" := by
    intro l hmem k
    have hrow := rowOf_scanTable hscan l hmem
    refine ⟨hrow.keys k, ?_⟩
    rintro (hc | rfl)
    · obtain ⟨v, hv⟩ := hrow.has k hc
      rw [hv]
      exact Option.some_ne_none v
    · simp only [scanTable, bind_eq_ok, Except.ok.injEq] at hscan
      obtain ⟨scanned, -, rfl⟩ := hscan
      obtain ⟨pair, -, rfl⟩ := List.mem_map.mp hmem
      rw [rowToDict, OrdDict.get?_set, if_pos rfl]
      exact Option.some_ne_none _
  intro k
  by_cases hk : k ∈ entry.schema.map Prod.fst ∨ k = "rowid"
  · have hplain : Dotless k := by
      rcases hk with hc | rfl
      · exact hdot k hc
      · decide
    obtain ⟨v, hv⟩ := Option.ne_none_iff_exists'.mp ((hkeys left hl k).mpr hk)
    obtain ⟨w, hw⟩ := Option.ne_none_iff_exists'.mp ((hkeys left' hl' k).mpr hk)
    rw [hv, hw, ← h.get? hplain hv, ← h'.get? hplain hw]
  · have hnone : ∀ l ∈ lefts, l.get? k = none := fun l hmem => by
      by_contra hn
      exact hk ((hkeys l hmem k).mp hn)
    rw [hnone left hl, hnone left' hl']

end

/-! ## Both ways -/

section

variable {store : FileStore} {catalog : Catalog} {stmt : Select}

/-- Keeping rows before the joins, where that is what WHERE does behind them. -/
private theorem nestedLoopChain_kept {joins : List JoinClause} {lefts joined : List RowDict}
    {keep test : RowDict → Except PyErr Bool}
    (hjoins : ∀ join ∈ joins, join.kind = .inner ∧ join.alias' = none)
    (h : nestedLoopChain store catalog lefts joins = .ok joined)
    (hkeeps : ∀ left ∈ lefts, ∃ b, keep left = .ok b ∧
      ∀ row, Joined store catalog joins left row → test row = .ok b) :
    ∃ kept rows, filterRaising keep lefts = .ok kept ∧ filterRaising test joined = .ok rows ∧
      nestedLoopChain store catalog kept joins = .ok rows := by
  induction lefts generalizing joined with
  | nil =>
    obtain rfl : joined = [] := List.eq_nil_iff_forall_not_mem.mpr fun row hrow => by
      obtain ⟨left, hleft, -⟩ := (mem_nestedLoopChain hjoins h row).mp hrow
      cases hleft
    exact ⟨[], [], rfl, rfl, h⟩
  | cons left lefts ih =>
    obtain ⟨x, y, hx, hy, rfl⟩ := (nestedLoopChain_append (a := [left]) hjoins).mp h
    obtain ⟨kept, rows, hkept, hrows, hchain⟩ := ih hy fun l hl =>
      hkeeps l (List.mem_cons_of_mem _ hl)
    obtain ⟨b, hb, htest⟩ := hkeeps left (List.mem_cons_self ..)
    have hfirst : filterRaising test x = .ok (if b then x else []) := by
      refine filterRaising_const fun row hrow => ?_
      obtain ⟨l, hl, hjoined⟩ := (mem_nestedLoopChain hjoins hx row).mp hrow
      rw [List.mem_singleton.mp hl] at hjoined
      exact htest row hjoined
    refine ⟨if b then left :: kept else kept, (if b then x else []) ++ rows, ?_, ?_, ?_⟩
    · simp only [filterRaising, hb, hkept, ok_bind]
    · rw [filterRaising_append, hfirst, hrows]
      rfl
    · cases b with
      | true => exact (nestedLoopChain_append (a := [left]) hjoins).mpr ⟨x, rows, hx, hchain, rfl⟩
      | false => exact hchain

/-- Without joins these are the rows that `_exec_single_table` filters. -/
theorem whereRows_singleTable (store : FileStore) (catalog : Catalog) (entry : TableMeta)
    (hjoins : stmt.joins = []) :
    whereRows store catalog entry stmt = (do
      let rows ← Heap.scan ⟨entry.rootPageId, entry.schema⟩ store
      let dict := fun row : Nat × Row => rowToDict entry.schema row.2 row.1
      let rows ← filterRaising (fun row => evalWhere (dict row) stmt.where') rows
      .ok (rows.map dict)) := by
  rw [whereRows, scanTable, hjoins]
  cases Heap.scan ⟨entry.rootPageId, entry.schema⟩ store with
  | error e => rfl
  | ok scanned => simp only [ok_bind, joinAll, filterRaising_map]

theorem keptByPlan_other {entry : TableMeta} {expr : Expr}
    (h : ∀ name right, expr ≠ .binaryOp .eq (.column name) right) (row : RowDict) :
    keptByPlan entry (some expr) row = evalWhere row (some expr) := by
  have hmatch : IndexPlanner.matchIndexColumn (some expr) entry = none := by
    unfold IndexPlanner.matchIndexColumn
    split
    · rename_i name right he
      exact absurd (Option.some.inj he) (h name right)
    · rfl
  have hpost : IndexPlanner.extractPostScanPredicate (some expr) = some expr := by
    unfold IndexPlanner.extractPostScanPredicate
    split
    · rename_i name right he
      exact absurd (Option.some.inj he) (h name right)
    · rfl
  simp only [keptByPlan, hmatch, hpost, evalWhere]

theorem keptByPlan_literal {entry : TableMeta} {name : String} {value : Value}
    (hindex : name ∈ entry.indexes.map Prod.fst) (raw : String) (hvalue : value ≠ .null)
    (row : RowDict) :
    keptByPlan entry (some (.binaryOp .eq (.column name) (.sqlLiteral value raw))) row =
      evalWhere row (some (.binaryOp .eq (.column name) (.sqlLiteral value raw))) := by
  have hmatch : IndexPlanner.matchIndexColumn
      (some (.binaryOp .eq (.column name) (.sqlLiteral value raw))) entry = some (name, value) :=
    if_pos (List.contains_iff_mem.mpr hindex)
  simp only [keptByPlan, hmatch, evalWhere, evalPredicate, evalComparison, evalExpr, ok_bind,
    compareWith, compareValues, hvalue, or_false]
  split
  · rename_i hnull
    rw [hnull]
    cases value with
    | null => exact absurd rfl hvalue
    | _ => rfl
  · rfl

/-- Over one table the plan keeps the right rows, unless WHERE is an equality with a column on
its left that is not one of an indexed column with a literal. -/
theorem planKeeps_single {entry : TableMeta} {rows : List RowDict}
    (hentry : catalog.getTable stmt.table = .ok entry) (hjoins : stmt.joins = [])
    (h : whereRows store catalog entry stmt = .ok rows)
    (hshape : ∀ name right, stmt.where' = some (.binaryOp .eq (.column name) right) →
      name ∈ entry.indexes.map Prod.fst ∧ ∃ value raw, right = .sqlLiteral value raw ∧
        value ≠ .null) : PlanKeeps store catalog stmt := by
  simp only [whereRows, hjoins, joinAll, ok_bind, bind_eq_ok] at h
  obtain ⟨lefts, hscan, hrows⟩ := h
  intro entry' hentry' lefts' hscan' left hleft
  rw [hentry, Except.ok.injEq] at hentry'
  subst hentry'
  rw [hscan, Except.ok.injEq] at hscan'
  subst hscan'
  obtain ⟨keep, hkeep⟩ := (filterRaising_spec hrows).1 left hleft
  refine ⟨keep, ?_, fun row hrow => ?_⟩
  · rw [← hkeep]
    cases hwhere : stmt.where' with
    | none => rfl
    | some expr =>
      by_cases hequality : ∃ name right, expr = .binaryOp .eq (.column name) right
      · obtain ⟨name, right, rfl⟩ := hequality
        obtain ⟨hindex, value, raw, rfl, hvalue⟩ := hshape name right hwhere
        exact keptByPlan_literal hindex raw hvalue left
      · exact keptByPlan_other (fun name right he => hequality ⟨name, right, he⟩) left
  · rw [hjoins] at hrow
    rw [show row = left from hrow]
    exact hkeep

end

/-- `SELECT * FROM t WHERE a > 1`. -/
def rangeQuery : Select :=
  { projections := [.star], table := "t",
    where' := some (.binaryOp .gt (.column "a") (.sqlLiteral (.int 1) "1")) }

/-- `SELECT * FROM t WHERE a = 1`. -/
def equalityQuery : Select :=
  { projections := [.star], table := "t",
    where' := some (.binaryOp .eq (.column "a") (.sqlLiteral (.int 1) "1")) }

private theorem columnsOf_t : ∀ col ∈ columnsOf joinedTables.catalog "t", Dotless col := by
  decide +kernel

private theorem exists_whereRows (stmt : Select) (htable : stmt.table = "t")
    (h : (do
      let entry ← joinedTables.catalog.getTable "t"
      whereRows joinedTables.store joinedTables.catalog entry stmt).isOk = true) :
    ∃ entry rows, joinedTables.catalog.getTable stmt.table = .ok entry ∧
      whereRows joinedTables.store joinedTables.catalog entry stmt = .ok rows := by
  rw [htable]
  cases hentry : joinedTables.catalog.getTable "t" with
  | error e =>
    rw [hentry] at h
    cases h
  | ok entry =>
    rw [hentry, ok_bind] at h
    cases hrows : whereRows joinedTables.store joinedTables.catalog entry stmt with
    | error e =>
      rw [hrows] at h
      cases h
    | ok rows => exact ⟨entry, rows, rfl, hrows⟩

end TinyDB
