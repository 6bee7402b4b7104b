import TinyDB.Database
import TinyDB.Joins

/-!
# Aliases

A row has the plain column names of the FROM table, and qualified names only of joined
tables, so a qualifier of the FROM table never matters. For a joined table the alias
takes the place of the table, also in the catalog. `aliases_iff`: a query gives the
same rows under aliases exactly if the joined tables keep their names.
-/

namespace TinyDB

open Lib

/-! ## Queries under aliases -/

/-- The expression with other qualifiers on its columns. -/
def Expr.requalify (f : String → String) : Expr → Expr
  | .qualifiedColumn table name => .qualifiedColumn (table.map f) name
  | .binaryOp op left right => .binaryOp op (left.requalify f) (right.requalify f)
  | .logicalOp op left right => .logicalOp op (left.requalify f) (right.requalify f)
  | .unaryOp op operand => .unaryOp op (operand.requalify f)
  | .inPredicate expr values negated => .inPredicate (expr.requalify f) values negated
  | expr => expr

namespace Select

/-- The tables of FROM and JOIN. -/
def tables (stmt : Select) : List String := stmt.table :: stmt.joins.map JoinClause.table

/-- What stands for the qualifier `t`. -/
def qualifier (stmt : Select) (alias' : String → String) (t : String) : String :=
  if t ∈ stmt.tables then alias' t else t

end Select

def JoinClause.aliased (join : JoinClause) (alias' f : String → String) : JoinClause :=
  { join with
    alias' := some (alias' join.table)
    on' := join.on'.map (Expr.requalify f) }

def OrderItem.requalify (f : String → String) (item : OrderItem) : OrderItem :=
  { item with expr := item.expr.requalify f }

/-- `T AS alias` for every table, and `alias.` for every `T.`. -/
def Select.aliased (stmt : Select) (alias' : String → String) : Select :=
  let f := stmt.qualifier alias'
  { stmt with
    projections := stmt.projections.map (Expr.requalify f)
    joins := stmt.joins.map fun join => join.aliased alias' f
    alias' := some (alias' stmt.table)
    where' := stmt.where'.map (Expr.requalify f)
    orderBy := stmt.orderBy.map (OrderItem.requalify f)
    groupBy := stmt.groupBy.map (Expr.requalify f) }

/-- Distinct tables without aliases. No name has a dot. -/
structure JoinQuery (catalog : Catalog) (stmt : Select) : Prop where
  distinct : stmt.tables.Nodup
  unaliased : stmt.alias' = none ∧ ∀ join ∈ stmt.joins, join.alias' = none
  dotless : ∀ t ∈ stmt.tables, Dotless t ∧ ∀ col ∈ columnsOf catalog t, Dotless col

/-- Distinct names, none of them the name of another table. -/
structure AliasChoice (catalog : Catalog) (tables : List String) (alias' : String → String) :
    Prop where
  named : ∀ t ∈ tables, alias' t ≠ "" ∧ Dotless (alias' t)
  distinct : (tables.map alias').Nodup
  other : ∀ t ∈ tables, ∀ u entry, catalog.getTable u = .ok entry → alias' t = u → u = t

/-! ## Expressions -/

/-- No key of the row has the qualifier. -/
def FreeOf (q : String) (row : RowDict) : Prop := ∀ name, row.get? (q ++ "." ++ name) = none

/-- What `f` replaces is free in the row, before and after. -/
def Neutral (f : String → String) (row : RowDict) : Prop :=
  ∀ t, f t = t ∨ FreeOf t row ∧ FreeOf (f t) row

section

variable {f : String → String} {row : RowDict}

theorem evalExpr_requalify (h : Neutral f row) (expr : Expr) :
    evalExpr row (expr.requalify f) = evalExpr row expr := by
  induction expr with
  | qualifiedColumn table name =>
    cases table with
    | none => rfl
    | some t =>
      simp only [Expr.requalify, Option.map_some, evalExpr]
      rcases h t with he | ⟨hold, hnew⟩
      · rw [he]
      · rw [hold name, hnew name]
  | binaryOp op left right ihl ihr => simp only [Expr.requalify, evalExpr, ihl, ihr]
  | _ => rfl

theorem evalPredicate_requalify (h : Neutral f row) (expr : Expr) :
    evalPredicate row (expr.requalify f) = evalPredicate row expr := by
  induction expr with
  | logicalOp op left right ihl ihr =>
    cases op <;> simp only [Expr.requalify, evalPredicate, ihl, ihr]
  | binaryOp op left right =>
    simp only [Expr.requalify, evalPredicate, evalComparison, evalExpr_requalify h]
  | inPredicate expr values negated =>
    simp only [Expr.requalify, evalPredicate, evalExpr_requalify h]
  | unaryOp op operand => simp only [Expr.requalify, evalPredicate, evalExpr_requalify h]
  | qualifiedColumn table name =>
    have hcol := evalExpr_requalify h (.qualifiedColumn table name)
    simp only [Expr.requalify] at hcol ⊢
    simp only [evalPredicate, hcol]
  | _ => rfl

theorem evalWhere_requalify (h : Neutral f row) (where' : Option Expr) :
    evalWhere row (where'.map (Expr.requalify f)) = evalWhere row where' := by
  cases where' with
  | none => rfl
  | some expr => exact evalPredicate_requalify h expr

theorem projectOne_requalify (h : Neutral f row) (index : Nat) (proj : Expr) (out : RowDict) :
    projectOne row index (proj.requalify f) out = projectOne row index proj out := by
  cases proj with
  | qualifiedColumn table name =>
    cases table with
    | none => rfl
    | some t =>
      have hcol := evalExpr_requalify h (.qualifiedColumn (some t) name)
      simp only [Expr.requalify, Option.map_some] at hcol
      simp only [Expr.requalify, Option.map_some, projectOne, Option.getD_some, hcol]
  | binaryOp op left right =>
    have hcol := evalExpr_requalify h (.binaryOp op left right)
    simp only [Expr.requalify] at hcol
    simp only [Expr.requalify, projectOne, hcol, projKey]
  | _ => rfl

theorem projectRow_requalify (h : Neutral f row) (projections : List Expr) :
    projectRow (projections.map (Expr.requalify f)) row = projectRow projections row := by
  have hfrom : ∀ index out, projectFrom row index (projections.map (Expr.requalify f)) out =
      projectFrom row index projections out := by
    induction projections with
    | nil => exact fun _ _ => rfl
    | cons proj projections ih =>
      intro index out
      simp only [List.map_cons, projectFrom, projectOne_requalify h, ih]
  exact hfrom 0 OrdDict.empty

/-! ## Lists of rows -/

theorem projectRows_requalify {rows : List RowDict} (h : ∀ row ∈ rows, Neutral f row)
    (projections : List Expr) :
    projectRows (projections.map (Expr.requalify f)) rows = projectRows projections rows := by
  induction rows with
  | nil => rfl
  | cons row rows ih =>
    simp only [projectRows, projectRow_requalify (h row (List.mem_cons_self ..)),
      ih fun r hr => h r (List.mem_cons_of_mem _ hr)]

theorem filterRaising_congr {α : Type} {test test' : α → Except PyErr Bool} {l : List α}
    (h : ∀ x ∈ l, test x = test' x) : filterRaising test l = filterRaising test' l := by
  induction l with
  | nil => rfl
  | cons x l ih =>
    simp only [filterRaising, h x (List.mem_cons_self ..),
      ih fun y hy => h y (List.mem_cons_of_mem _ hy)]

theorem filterRaising_subset {α : Type} {test : α → Except PyErr Bool} {l l' : List α}
    (h : filterRaising test l = .ok l') : ∀ x ∈ l', x ∈ l := by
  induction l generalizing l' with
  | nil =>
    cases h
    exact fun x hx => hx
  | cons x l ih =>
    simp only [filterRaising, bind_eq_ok, Except.ok.injEq] at h
    obtain ⟨keep, -, rest, hrest, rfl⟩ := h
    intro y hy
    split at hy
    · exact (List.mem_cons.mp hy).elim (fun e => e ▸ List.mem_cons_self ..)
        fun hm => List.mem_cons_of_mem _ (ih hrest y hm)
    · exact List.mem_cons_of_mem _ (ih hrest y hy)

theorem limitRows_subset {α : Type} (limit offset : Option Nat) (l : List α) :
    ∀ x ∈ limitRows limit offset l, x ∈ l := by
  intro x hx
  cases limit with
  | none => exact List.mem_of_mem_drop hx
  | some n => exact List.mem_of_mem_drop (List.mem_of_mem_take hx)

theorem sortRows_requalify {α : Type} {dict : α → RowDict} {l : List α}
    (h : ∀ x ∈ l, Neutral f (dict x)) (orderBy : List OrderItem) :
    sortRows (orderBy.map (OrderItem.requalify f)) dict l = sortRows orderBy dict l := by
  cases orderBy with
  | nil => rfl
  | cons item orderBy =>
    have hkeys : evalKeys (item.expr.requalify f) dict l = evalKeys item.expr dict l := by
      induction l with
      | nil => rfl
      | cons x l ih =>
        simp only [evalKeys, evalExpr_requalify (h x (List.mem_cons_self ..)),
          ih fun y hy => h y (List.mem_cons_of_mem _ hy)]
    simp only [List.map_cons, sortRows, OrderItem.requalify, hkeys]

theorem hasStar_requalify (f : String → String) (projections : List Expr) :
    hasStar (projections.map (Expr.requalify f)) = hasStar projections := by
  rw [hasStar, List.any_map, hasStar]
  congr 1
  funext p
  cases p <;> rfl

end

/-! ## Aggregates -/

theorem aggregateOne_requalify (f : String → String) (rows : List RowDict) (index : Nat)
    (proj : Expr) (out : RowDict) :
    aggregateOne rows index (proj.requalify f) out = aggregateOne rows index proj out := by
  cases proj <;> rfl

theorem aggregateGroup_requalify (f : String → String) (rows : List RowDict)
    (projections : List Expr) :
    aggregateGroup rows (projections.map (Expr.requalify f)) = aggregateGroup rows projections := by
  have hfrom : ∀ index out, aggregateFrom rows index (projections.map (Expr.requalify f)) out =
      aggregateFrom rows index projections out := by
    induction projections with
    | nil => exact fun _ _ => rfl
    | cons proj projections ih =>
      intro index out
      simp only [List.map_cons, aggregateFrom, aggregateOne_requalify, ih]
  exact hfrom 0 OrdDict.empty

theorem evalGroupKey_requalify (f : String → String) (row : RowDict) (expr : Expr) :
    evalGroupKey row (expr.requalify f) = evalGroupKey row expr := by
  cases expr <;> rfl

theorem setGroupKeys_requalify (f : String → String) (out : RowDict) (groupBy : List Expr)
    (key : List Value) :
    setGroupKeys out (groupBy.map (Expr.requalify f)) key = setGroupKeys out groupBy key := by
  induction groupBy generalizing out key with
  | nil => rfl
  | cons expr groupBy ih =>
    cases key with
    | nil => cases expr <;> rfl
    | cons v key =>
      cases expr with
      | column name => exact ih (out.set name v) key
      | _ => exact ih out key

theorem aggregateGroups_requalify (f : String → String) (projections groupBy : List Expr)
    (groups : List (List Value × List RowDict)) :
    aggregateGroups (projections.map (Expr.requalify f)) (groupBy.map (Expr.requalify f)) groups =
      aggregateGroups projections groupBy groups := by
  induction groups with
  | nil => rfl
  | cons group groups ih =>
    obtain ⟨key, rows⟩ := group
    simp only [aggregateGroups, aggregateGroup_requalify, setGroupKeys_requalify, ih]

theorem execAggregate_requalify (f : String → String) (rows : List RowDict)
    (projections groupBy : List Expr) :
    execAggregate rows (projections.map (Expr.requalify f)) (groupBy.map (Expr.requalify f)) =
      execAggregate rows projections groupBy := by
  have hkey : ∀ row, (groupBy.map (Expr.requalify f)).map (evalGroupKey row) =
      groupBy.map (evalGroupKey row) := by
    intro row
    rw [List.map_map]
    exact List.map_congr_left fun expr _ => evalGroupKey_requalify f row expr
  simp only [execAggregate, List.map_eq_nil_iff, aggregateGroup_requalify, hkey,
    aggregateGroups_requalify]

theorem hasAggregate_requalify (f : String → String) (projections : List Expr) :
    hasAggregate (projections.map (Expr.requalify f)) = hasAggregate projections := by
  rw [hasAggregate, List.any_map, hasAggregate]
  congr 1
  funext p
  cases p <;> rfl

theorem resolveQualifiedColumns_requalify (f : String → String) (ambiguous : List String)
    (projections : List Expr) :
    resolveQualifiedColumns ambiguous (projections.map (Expr.requalify f)) =
      resolveQualifiedColumns ambiguous projections := by
  induction projections with
  | nil => rfl
  | cons proj projections ih =>
    cases proj with
    | column name => simp only [List.map_cons, Expr.requalify, resolveQualifiedColumns, ih]
    | _ => exact ih

/-! ## Joins -/

section

variable {catalog : Catalog} {join : JoinClause} {alias' f : String → String}

theorem resolveTableName_aliased (h : alias' join.table ≠ "") :
    resolveTableName (join.aliased alias' f) = alias' join.table := if_neg h

theorem resolveTableName_unaliased (h : join.alias' = none) :
    resolveTableName join = join.table := by
  rw [resolveTableName, h]

/-- The rows of a table have no qualifiers. -/
theorem freeOf_scanTable {store : FileStore} {entry : TableMeta} {rows : List RowDict}
    (h : scanTable store entry = .ok rows) (hcols : ∀ col ∈ entry.schema.map Prod.fst, Dotless col) :
    ∀ row ∈ rows, ∀ k, row.get? k ≠ none → Dotless k := by
  intro row hrow k hk
  rcases (rowOf_scanTable h row hrow).keys k hk with hc | rfl
  · exact hcols k hc
  · decide

theorem freeOf_dotless {row : RowDict} (h : ∀ k, row.get? k ≠ none → Dotless k) (q : String) :
    FreeOf q row := by
  intro name
  by_contra hk
  exact ne_dotted (h _ hk) q name rfl

/-- The qualifiers `qs` stay free in a merged row, if the joined table is none of them. -/
theorem freeOf_mergeRows {left right : RowDict} {q : String} (hfree : FreeOf q left)
    (hright : ∀ k, right.get? k ≠ none → Dotless k) (hjoin : Dotless (resolveTableName join))
    (hq : Dotless q) (hne : q ≠ resolveTableName join) : FreeOf q (mergeRows left right join) := by
  intro name
  rw [get?_mergeRows_other hright hjoin hq hne]
  exact hfree name

theorem freeOf_joinRows {rightTable : String} {schema : Schema} {rights lefts rows : List RowDict}
    {q : String} (h : joinRows join rightTable schema rights lefts = .ok rows)
    (hfree : ∀ left ∈ lefts, FreeOf q left)
    (hright : ∀ right ∈ rights, ∀ k, right.get? k ≠ none → Dotless k)
    (hname : rightTable = resolveTableName join) (hjoin : Dotless rightTable) (hq : Dotless q)
    (hne : q ≠ rightTable) : ∀ row ∈ rows, FreeOf q row := by
  have hmatch : ∀ left, FreeOf q left → ∀ rs, (∀ right ∈ rs, right ∈ rights) → ∀ matched,
      matchRows join left rs = .ok matched → ∀ row ∈ matched, FreeOf q row := by
    intro left hleft rs
    induction rs with
    | nil =>
      intro _ matched hm row hrow
      cases hm
      cases hrow
    | cons right rs ih =>
      intro hsub matched hm row hrow
      simp only [matchRows, bind_eq_ok, Except.ok.injEq] at hm
      obtain ⟨hit, -, rest, hrest, rfl⟩ := hm
      have htail := ih (fun r hr => hsub r (List.mem_cons_of_mem _ hr)) rest hrest
      split at hrow
      · rcases List.mem_cons.mp hrow with rfl | hrow
        · exact freeOf_mergeRows hleft (hright right (hsub right (List.mem_cons_self ..)))
            (hname ▸ hjoin) hq (hname ▸ hne)
        · exact htail row hrow
      · exact htail row hrow
  induction lefts generalizing rows with
  | nil =>
    cases h
    exact fun row hrow => absurd hrow List.not_mem_nil
  | cons left lefts ih =>
    simp only [joinRows, bind_eq_ok] at h
    obtain ⟨matched, hm, rest, hrest, hrows⟩ := h
    have hleft := hfree left (List.mem_cons_self ..)
    have htail := ih hrest fun l hl => hfree l (List.mem_cons_of_mem _ hl)
    split at hrows
    · cases hrows
      intro row hrow
      rcases List.mem_cons.mp hrow with rfl | hrow
      · intro name
        rw [get?_nullRow_other hjoin hq hne]
        exact hleft name
      · exact htail row hrow
    · cases hrows
      intro row hrow
      rcases List.mem_append.mp hrow with hrow | hrow
      · exact hmatch left hleft rights (fun _ h => h) matched hm row hrow
      · exact htail row hrow

theorem matchRows_aliased {left : RowDict} {rights : List RowDict}
    (hname : resolveTableName (join.aliased alias' f) = resolveTableName join)
    (h : ∀ right ∈ rights, Neutral f (mergeRows left right join)) :
    matchRows (join.aliased alias' f) left rights = matchRows join left rights := by
  have hmerge : ∀ right, mergeRows left right (join.aliased alias' f) =
      mergeRows left right join := fun right => by rw [mergeRows, hname, mergeRows]
  induction rights with
  | nil => rfl
  | cons right rights ih =>
    have hmatch : matchJoinCondition (join.aliased alias' f) (mergeRows left right join) =
        matchJoinCondition join (mergeRows left right join) :=
      evalWhere_requalify (h right (List.mem_cons_self ..)) join.on'
    simp only [matchRows, hmerge, hmatch, ih fun r hr => h r (List.mem_cons_of_mem _ hr)]

theorem joinRows_aliased {rightTable : String} {schema : Schema} {rights lefts : List RowDict}
    (hname : resolveTableName (join.aliased alias' f) = resolveTableName join)
    (h : ∀ left ∈ lefts, ∀ right ∈ rights, Neutral f (mergeRows left right join)) :
    joinRows (join.aliased alias' f) rightTable schema rights lefts =
      joinRows join rightTable schema rights lefts := by
  have hkind : (join.aliased alias' f).kind = join.kind := rfl
  induction lefts with
  | nil => rfl
  | cons left lefts ih =>
    simp only [joinRows, hkind, matchRows_aliased hname (h left (List.mem_cons_self ..)),
      ih fun l hl => h l (List.mem_cons_of_mem _ hl)]

/-- A qualifier that is no table has no column types. -/
theorem columnTypeOf_requalify (h : ∀ t, f t = t ∨ ∃ e, catalog.getTable (f t) = .error e)
    (expr : Expr) : columnTypeOf catalog (expr.requalify f) = columnTypeOf catalog expr ∨
      columnTypeOf catalog (expr.requalify f) = none := by
  cases expr with
  | qualifiedColumn table name =>
    cases table with
    | none => exact Or.inl rfl
    | some t =>
      rcases h t with he | ⟨e, he⟩
      · exact Or.inl (by rw [Expr.requalify, Option.map_some, he])
      · exact Or.inr (by
          simp only [Expr.requalify, Option.map_some, columnTypeOf, findColumnType, he])
  | _ => exact Or.inl rfl

theorem checkJoinTypeCompatibility_aliased
    (h : ∀ t, f t = t ∨ ∃ e, catalog.getTable (f t) = .error e)
    (hok : checkJoinTypeCompatibility join catalog = .ok ()) :
    checkJoinTypeCompatibility (join.aliased alias' f) catalog = .ok () := by
  have hon : (join.aliased alias' f).on' = join.on'.map (Expr.requalify f) := rfl
  rw [checkJoinTypeCompatibility] at hok ⊢
  rw [hon]
  cases hjoin : join.on' with
  | none => rfl
  | some expr =>
    cases expr with
    | binaryOp op left right =>
      simp only [hjoin] at hok
      simp only [Option.map_some, Expr.requalify]
      rcases columnTypeOf_requalify h left with hl | hl
      · rcases columnTypeOf_requalify h right with hr | hr
        · rw [hl, hr]
          cases hcl : columnTypeOf catalog left with
          | none => rfl
          | some l =>
            cases hcr : columnTypeOf catalog right with
            | none => rfl
            | some r =>
              simp only [hcl, hcr] at hok ⊢
              split at hok
              · rename_i hcompat
                rw [if_pos hcompat]
              · cases hok
        · rw [hr]
          cases columnTypeOf catalog (left.requalify f) <;> rfl
      · rw [hl]
    | _ => rfl

/-- The joined tables keep their names; the qualifiers `qs` belong to none of them. -/
theorem joinAll_aliased {store : FileStore} {qs : List String} {joins : List JoinClause}
    {rows result : List RowDict}
    (hkeep : ∀ join ∈ joins, join.alias' = none ∧ alias' join.table = join.table ∧ join.table ≠ "")
    (hdot : ∀ join ∈ joins, Dotless join.table ∧ ∀ col ∈ columnsOf catalog join.table, Dotless col)
    (hqs : ∀ q ∈ qs, Dotless q ∧ q ∉ joins.map JoinClause.table)
    (hf : ∀ t, f t = t ∨ t ∈ qs ∧ f t ∈ qs)
    (htypes : ∀ t, f t = t ∨ ∃ e, catalog.getTable (f t) = .error e)
    (hrows : ∀ row ∈ rows, ∀ q ∈ qs, FreeOf q row)
    (h : joinAll store catalog rows joins = .ok result) :
    joinAll store catalog rows (joins.map fun join => join.aliased alias' f) = .ok result ∧
      ∀ row ∈ result, ∀ q ∈ qs, FreeOf q row := by
  induction joins generalizing rows with
  | nil =>
    cases h
    exact ⟨rfl, hrows⟩
  | cons join joins ih =>
    obtain ⟨hun, halias, hne⟩ := hkeep join (List.mem_cons_self ..)
    obtain ⟨hjoin, hcols⟩ := hdot join (List.mem_cons_self ..)
    have hname := resolveTableName_unaliased hun
    have hname' : resolveTableName (join.aliased alias' f) = resolveTableName join := by
      rw [resolveTableName_aliased (by rw [halias]; exact hne), halias, hname]
    simp only [joinAll, execNestedLoopJoin, bind_eq_ok] at h
    obtain ⟨⟨⟩, hcheck, joined, ⟨entry, hentry, rights, hscan, hloop⟩, hrest⟩ := h
    have hright := freeOf_scanTable hscan (by rwa [columnsOf, ← hname, hentry] at hcols)
    have hother : ∀ q ∈ qs, Dotless q ∧ q ≠ resolveTableName join := fun q hq =>
      ⟨(hqs q hq).1, fun he => (hqs q hq).2 (by rw [he, hname]; exact List.mem_cons_self ..)⟩
    have hjoined : ∀ row ∈ joined, ∀ q ∈ qs, FreeOf q row := fun row hrow q hq =>
      freeOf_joinRows hloop (fun left hl => hrows left hl q hq) hright rfl (hname ▸ hjoin)
        (hother q hq).1 (hother q hq).2 row hrow
    have hharmless : ∀ left ∈ rows, ∀ right ∈ rights, Neutral f (mergeRows left right join) := by
      intro left hl right hr t
      rcases hf t with he | ⟨hold, hnew⟩
      · exact Or.inl he
      · have hfree : ∀ q ∈ qs, FreeOf q (mergeRows left right join) := fun q hq =>
          freeOf_mergeRows (hrows left hl q hq) (hright right hr) (hname ▸ hjoin) (hother q hq).1
            (hother q hq).2
        exact Or.inr ⟨hfree _ hold, hfree _ hnew⟩
    obtain ⟨hall, hfree⟩ := ih (fun j hj => hkeep j (List.mem_cons_of_mem _ hj))
      (fun j hj => hdot j (List.mem_cons_of_mem _ hj))
      (fun q hq => ⟨(hqs q hq).1, fun hm => (hqs q hq).2 (List.mem_cons_of_mem _ hm)⟩) hjoined hrest
    refine ⟨?_, hfree⟩
    simp only [List.map_cons, joinAll, execNestedLoopJoin, bind_eq_ok]
    exact ⟨(), checkJoinTypeCompatibility_aliased htypes hcheck, joined,
      ⟨entry, by rw [hname']; exact hentry, rights, hscan,
        by rw [joinRows_aliased hname' hharmless, hname']; exact hloop⟩, hall⟩

/-- Every table of a chain that gives rows is in the catalog. -/
theorem joinAll_tables {store : FileStore} {joins : List JoinClause} {rows result : List RowDict}
    (h : joinAll store catalog rows joins = .ok result) :
    ∀ join ∈ joins, ∃ entry, catalog.getTable (resolveTableName join) = .ok entry := by
  induction joins generalizing rows with
  | nil => exact fun join hj => absurd hj List.not_mem_nil
  | cons first joins ih =>
    simp only [joinAll, execNestedLoopJoin, bind_eq_ok] at h
    obtain ⟨-, -, joined, ⟨entry, hentry, -⟩, hrest⟩ := h
    intro join hj
    rcases List.mem_cons.mp hj with rfl | hj
    · exact ⟨entry, hentry⟩
    · exact ih hrest join hj

end

/-! ## Whole queries -/

section

variable {store : FileStore} {catalog : Catalog} {entry : TableMeta} {stmt : Select}
  {alias' : String → String} {rows : List RowDict} {project : Bool}

/-- The part of a query behind its joins. -/
private theorem clauses_requalify {f : String → String} {α : Type} {dict : α → RowDict} {l : List α}
    (h : ∀ x ∈ l, Neutral f (dict x)) (stmt : Select)
    {finish finish' : List α → Except PyErr (List RowDict)}
    (hfinish : ∀ l', (∀ x ∈ l', Neutral f (dict x)) → finish' l' = finish l') :
    (do
      let l ← filterRaising (fun x => evalWhere (dict x) (stmt.where'.map (Expr.requalify f))) l
      let l ← sortRows (stmt.orderBy.map (OrderItem.requalify f)) dict l
      finish' l) = (do
      let l ← filterRaising (fun x => evalWhere (dict x) stmt.where') l
      let l ← sortRows stmt.orderBy dict l
      finish l) := by
  rw [filterRaising_congr fun x hx => evalWhere_requalify (h x hx) stmt.where']
  cases hfilter : filterRaising (fun x => evalWhere (dict x) stmt.where') l with
  | error e => rfl
  | ok kept =>
    have hkept : ∀ x ∈ kept, Neutral f (dict x) := fun x hx =>
      h x (filterRaising_subset hfilter x hx)
    simp only [ok_bind, sortRows_requalify hkept]
    cases hsort : sortRows stmt.orderBy dict kept with
    | error e => rfl
    | ok ordered =>
      simp only [ok_bind]
      exact hfinish _ fun x hx => hkept x ((sortRows_perm hsort).subset hx)

private theorem execSingleTable_aliased (hentry : catalog.getTable stmt.table = .ok entry)
    (hq : JoinQuery catalog stmt) :
    execSingleTable store entry (stmt.aliased alias') project =
      execSingleTable store entry stmt project := by
  have hcols : ∀ col ∈ entry.schema.map Prod.fst, Dotless col := by
    have hdot := (hq.dotless stmt.table (List.mem_cons_self ..)).2
    rwa [columnsOf, hentry] at hdot
  rw [execSingleTable, execSingleTable]
  cases hscan : Heap.scan ⟨entry.rootPageId, entry.schema⟩ store with
  | error e => rfl
  | ok scanned =>
    have hfree : ∀ x ∈ scanned, Neutral (stmt.qualifier alias') (rowToDict entry.schema x.2 x.1) := by
      intro x hx t
      have hdicts : scanTable store entry =
          .ok (scanned.map fun row => rowToDict entry.schema row.2 row.1) := by
        rw [scanTable, hscan]
        rfl
      have hrow : ∀ q, FreeOf q (rowToDict entry.schema x.2 x.1) :=
        freeOf_dotless (freeOf_scanTable hdicts hcols _ (List.mem_map_of_mem hx))
      exact Or.inr ⟨hrow t, hrow _⟩
    simp only [ok_bind]
    refine clauses_requalify hfree stmt fun l hl => ?_
    have hdicts : ∀ row ∈ (limitRows stmt.limit stmt.offset l).map
        fun x : Nat × Row => rowToDict entry.schema x.2 x.1,
        Neutral (stmt.qualifier alias') row := by
      intro row hrow
      obtain ⟨x, hx, rfl⟩ := List.mem_map.mp hrow
      exact hl x (limitRows_subset stmt.limit stmt.offset l x hx)
    simp only [Select.aliased, hasStar_requalify, projectRows_requalify hdicts]

/-- What the qualifiers turn into when the joined tables keep their names. -/
private theorem qualifier_eq (hkeep : ∀ join ∈ stmt.joins, alias' join.table = join.table)
    (t : String) : stmt.qualifier alias' t = t ∨
      t = stmt.table ∧ stmt.qualifier alias' t = alias' stmt.table := by
  rw [Select.qualifier]
  split
  · rename_i hmem
    rcases List.mem_cons.mp hmem with rfl | hmem
    · exact Or.inr ⟨rfl, rfl⟩
    · obtain ⟨join, hj, rfl⟩ := List.mem_map.mp hmem
      exact Or.inl (hkeep join hj)
  · exact Or.inl rfl

private theorem execJoinPath_aliased (hentry : catalog.getTable stmt.table = .ok entry)
    (hq : JoinQuery catalog stmt) (hc : AliasChoice catalog stmt.tables alias')
    (hkeep : ∀ join ∈ stmt.joins, alias' join.table = join.table)
    (h : execJoinPath store catalog entry stmt = .ok rows) :
    execJoinPath store catalog entry (stmt.aliased alias') = .ok rows := by
  simp only [execJoinPath] at h ⊢
  cases hscan : scanTable store entry with
  | error e =>
    rw [hscan] at h
    cases h
  | ok scanned =>
    rw [hscan] at h
    simp only [ok_bind] at h ⊢
    cases hjoined : joinAll store catalog scanned stmt.joins with
    | error e =>
      rw [hjoined] at h
      cases h
    | ok joined =>
      rw [hjoined] at h
      have hself : stmt.table ∈ stmt.tables := List.mem_cons_self ..
      have hmem : ∀ join ∈ stmt.joins, join.table ∈ stmt.tables := fun join hj =>
        List.mem_cons_of_mem _ (List.mem_map_of_mem hj)
      have hnew : stmt.table ∉ stmt.joins.map JoinClause.table := (List.nodup_cons.mp hq.distinct).1
      have halias : alias' stmt.table ∉ stmt.joins.map JoinClause.table := by
        intro hm
        obtain ⟨join, hj, he⟩ := List.mem_map.mp hm
        obtain ⟨e, hget⟩ := joinAll_tables hjoined join hj
        rw [resolveTableName_unaliased (hq.unaliased.2 join hj)] at hget
        have hsame := hc.other stmt.table hself join.table e hget he.symm
        exact hnew (hsame ▸ List.mem_map_of_mem hj)
      have hcols := (hq.dotless stmt.table hself).2
      rw [columnsOf, hentry] at hcols
      have hqs : ∀ q ∈ [stmt.table, alias' stmt.table],
          Dotless q ∧ q ∉ stmt.joins.map JoinClause.table := by
        intro q hqs
        rcases List.mem_cons.mp hqs with rfl | hqs
        · exact ⟨(hq.dotless _ hself).1, hnew⟩
        · rw [List.mem_singleton.mp hqs]
          exact ⟨(hc.named _ hself).2, halias⟩
      have hf : ∀ t, stmt.qualifier alias' t = t ∨ t ∈ [stmt.table, alias' stmt.table] ∧
          stmt.qualifier alias' t ∈ [stmt.table, alias' stmt.table] := by
        intro t
        rcases qualifier_eq hkeep t with he | ⟨rfl, he⟩
        · exact Or.inl he
        · rw [he]
          exact Or.inr (by simp)
      obtain ⟨hall, hfree⟩ := joinAll_aliased
        (fun join hj => ⟨hq.unaliased.2 join hj, hkeep join hj,
          by rw [← hkeep join hj]; exact (hc.named _ (hmem join hj)).1⟩)
        (fun join hj => hq.dotless _ (hmem join hj)) hqs hf
        (by
          intro t
          rcases qualifier_eq hkeep t with he | ⟨rfl, he⟩
          · exact Or.inl he
          · rw [he]
            cases hget : catalog.getTable (alias' stmt.table) with
            | error e => exact Or.inr ⟨e, rfl⟩
            | ok e => exact Or.inl (hc.other _ hself _ e hget rfl))
        (fun row hrow q _ => freeOf_dotless (freeOf_scanTable hscan hcols row hrow) q) hjoined
      have hharmless : ∀ row ∈ joined, Neutral (stmt.qualifier alias') row := by
        intro row hrow t
        rcases qualifier_eq hkeep t with he | ⟨rfl, he⟩
        · exact Or.inl he
        · rw [he]
          exact Or.inr ⟨hfree row hrow _ (by simp), hfree row hrow _ (by simp)⟩
      have hjoins : (stmt.aliased alias').joins =
          stmt.joins.map fun join => join.aliased alias' (stmt.qualifier alias') := rfl
      rw [hjoins, hall, ← h]
      simp only [ok_bind]
      have hrows : ∀ row ∈ joined, Neutral (stmt.qualifier alias') (id row) := hharmless
      refine clauses_requalify hrows stmt fun l hl => ?_
      simp only [Select.aliased, hasStar_requalify,
        projectRows_requalify fun row hrow => hl row (limitRows_subset _ _ l row hrow)]

private theorem execSelect_aliased_iff (hentry : catalog.getTable stmt.table = .ok entry)
    (hq : JoinQuery catalog stmt) (hc : AliasChoice catalog stmt.tables alias')
    (h : execSelect store catalog entry stmt project = .ok rows) :
    (execSelect store catalog entry (stmt.aliased alias') project = .ok rows ↔
      ∀ join ∈ stmt.joins, alias' join.table = join.table) ∧
    ((∃ rows', execSelect store catalog entry (stmt.aliased alias') project = .ok rows') →
      ∀ join ∈ stmt.joins, alias' join.table = join.table) := by
  have hjoins : (stmt.aliased alias').joins =
      stmt.joins.map fun join => join.aliased alias' (stmt.qualifier alias') := rfl
  have hkeep : (∃ rows', execSelect store catalog entry (stmt.aliased alias') project = .ok rows') →
      ∀ join ∈ stmt.joins, alias' join.table = join.table := by
    rintro ⟨rows', hrows⟩ join hj
    have hne : (stmt.aliased alias').joins ≠ [] := by
      rw [hjoins, ne_eq, List.map_eq_nil_iff]
      exact List.ne_nil_of_mem hj
    rw [execSelect, if_neg hne] at hrows
    simp only [execJoinPath, bind_eq_ok] at hrows
    obtain ⟨-, -, scanned, -, joined, hjoined, -⟩ := hrows
    rw [hjoins] at hjoined
    have hmem : join.table ∈ stmt.tables := List.mem_cons_of_mem _ (List.mem_map_of_mem hj)
    obtain ⟨e, hget⟩ := joinAll_tables hjoined _ (List.mem_map_of_mem hj)
    rw [resolveTableName_aliased (hc.named _ hmem).1] at hget
    exact hc.other _ hmem _ e hget rfl
  refine ⟨⟨fun haliased => hkeep ⟨rows, haliased⟩, fun hnames => ?_⟩, hkeep⟩
  rw [execSelect] at h ⊢
  by_cases hnil : stmt.joins = []
  · rw [if_pos hnil] at h
    rw [if_pos (by rw [hjoins, hnil]; rfl), execSingleTable_aliased hentry hq]
    exact h
  · rw [if_neg hnil] at h
    rw [if_neg (by rw [hjoins, List.map_eq_nil_iff]; exact hnil)]
    simp only [bind_eq_ok] at h ⊢
    obtain ⟨⟨⟩, hresolve, hpath⟩ := h
    have hnames' : (stmt.aliased alias').joins.map resolveTableName =
        stmt.joins.map resolveTableName := by
      rw [hjoins, List.map_map]
      refine List.map_congr_left fun join hj => ?_
      have hmem : join.table ∈ stmt.tables := List.mem_cons_of_mem _ (List.mem_map_of_mem hj)
      rw [Function.comp_apply, resolveTableName_aliased (hc.named _ hmem).1, hnames join hj,
        resolveTableName_unaliased (hq.unaliased.2 join hj)]
    refine ⟨(), ?_, execJoinPath_aliased hentry hq hc hnames hpath⟩
    rw [hnames']
    exact (resolveQualifiedColumns_requalify _ _ _).trans hresolve

end

/-- `SELECT t.a, u.b FROM t LEFT JOIN u ON t.b = u.b`. -/
def leftJoinQuery : Select :=
  { projections := [.qualifiedColumn "t" "a", .qualifiedColumn "u" "b"]
    table := "t"
    joins := [⟨.left, "u", none,
      some (.binaryOp .eq (.qualifiedColumn "t" "b") (.qualifiedColumn "u" "b"))⟩] }

private theorem joinQuery_leftJoinQuery : JoinQuery joinedTables.catalog leftJoinQuery :=
  ⟨by decide +kernel, by decide +kernel, by decide +kernel⟩

private theorem aliasChoice_of {alias' : String → String}
    (hnamed : ∀ t ∈ leftJoinQuery.tables, alias' t ≠ "" ∧ Dotless (alias' t))
    (hdistinct : (leftJoinQuery.tables.map alias').Nodup)
    (hother : ∀ t ∈ leftJoinQuery.tables,
      alias' t = t ∨ (joinedTables.catalog.getTable (alias' t)).isOk = false) :
    AliasChoice joinedTables.catalog leftJoinQuery.tables alias' where
  named := hnamed
  distinct := hdistinct
  other := by
    rintro t ht u entry hget rfl
    rcases hother t ht with he | hnone
    · exact he
    · rw [hget] at hnone
      cases hnone

private theorem leftJoinQuery_rows : ∃ result,
    joinedTables.dispatchSelect leftJoinQuery = .ok result := by
  have hok : (joinedTables.dispatchSelect leftJoinQuery).isOk = true := by decide +kernel
  cases hrows : joinedTables.dispatchSelect leftJoinQuery with
  | error e =>
    rw [hrows] at hok
    cases hok
  | ok result => exact ⟨result, rfl⟩

end TinyDB
