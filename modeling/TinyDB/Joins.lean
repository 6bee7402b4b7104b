import TinyDB.Database

/-!
# Chains of joins

`exec_nested_loop_join` merges flat dictionaries: a column of the right table
gets its table's name in front only where the left row has the key already, or
where the row has no match. The reference keeps the tables apart: a
`Combination` has one row for each table of the chain. `Simulates` says which
keys a merged row has, and `nested_loop_join_reference` that the chain gives the
rows of the reference, in order.
-/

namespace TinyDB

open Lib

/-! ## Names -/

/-- The name has no dot, as every identifier of the lexer. -/
def Dotless (name : String) : Prop := '.' ∉ name.toList

instance (name : String) : Decidable (Dotless name) := inferInstanceAs (Decidable (¬ _))

theorem toList_dotted (t c : String) : (t ++ "." ++ c).toList = t.toList ++ '.' :: c.toList := by
  rw [String.toList_append, String.toList_append, List.append_assoc]
  rfl

theorem ne_dotted {name : String} (h : Dotless name) (t c : String) : name ≠ t ++ "." ++ c := by
  rintro rfl
  refine h ?_
  rw [toList_dotted]
  exact List.mem_append_right _ (List.mem_cons_self ..)

theorem dotted_inj {t u c d : String} (ht : Dotless t) (hu : Dotless u) :
    t ++ "." ++ c = u ++ "." ++ d ↔ t = u ∧ c = d := by
  constructor
  · intro h
    have hl := congrArg String.toList h
    rw [toList_dotted, toList_dotted, List.append_eq_append_iff] at hl
    rcases hl with ⟨l, hu', hc⟩ | ⟨l, ht', hd⟩
    · cases l with
      | nil =>
        rw [List.append_nil] at hu'
        rw [List.nil_append, List.cons.injEq] at hc
        exact ⟨(String.toList_inj.mp hu').symm, String.toList_inj.mp hc.2⟩
      | cons x l =>
        rw [List.cons_append, List.cons.injEq] at hc
        exact absurd (by rw [hu', ← hc.1]; simp) hu
    · cases l with
      | nil =>
        rw [List.append_nil] at ht'
        rw [List.nil_append, List.cons.injEq] at hd
        exact ⟨String.toList_inj.mp ht', (String.toList_inj.mp hd.2).symm⟩
      | cons x l =>
        rw [List.cons_append, List.cons.injEq] at hd
        exact absurd (by rw [ht', ← hd.1]; simp) ht
  · rintro ⟨rfl, rfl⟩
    rfl

/-! ## The reference -/

/-- The row that one table gives to a joined row; `none` is a row of NULLs. -/
structure Component where
  table : String
  row : Option RowDict
  deriving DecidableEq

abbrev Combination := List Component

/-- The value of a column of one table. -/
def Combination.value (combo : Combination) (table col : String) : Value :=
  match combo.find? fun part => part.table = table with
  | some ⟨_, some row⟩ => row.find col
  | some ⟨_, none⟩ => .null
  | none => .null

/-- The expression with the values of its qualified columns put in. -/
def Expr.resolve (value : String → String → Value) : Expr → Expr
  | .qualifiedColumn (some table) name => .sqlLiteral (value table name) name
  | .binaryOp op left right => .binaryOp op (left.resolve value) (right.resolve value)
  | .logicalOp op left right => .logicalOp op (left.resolve value) (right.resolve value)
  | .unaryOp op operand => .unaryOp op (operand.resolve value)
  | .inPredicate expr values negated => .inPredicate (expr.resolve value) values negated
  | expr => expr

/-- The ON condition of a combination. -/
def onHolds (on' : Option Expr) (combo : Combination) : Except PyErr Bool :=
  evalWhere OrdDict.empty (on'.map (Expr.resolve combo.value))

def referenceMatches (join : JoinClause) (rightRows : List RowDict) (left : Combination) :
    Except PyErr (List Combination) :=
  filterRaising (onHolds join.on') (rightRows.map fun row => left ++ [⟨join.table, some row⟩])

/-- The combinations that match; LEFT keeps one without a match beside NULLs. -/
def referenceJoin (join : JoinClause) (rightRows : List RowDict) :
    List Combination → Except PyErr (List Combination)
  | [] => .ok []
  | left :: lefts => do
    let matched ← referenceMatches join rightRows left
    let rest ← referenceJoin join rightRows lefts
    if join.kind = .left ∧ matched = [] then .ok ((left ++ [⟨join.table, none⟩]) :: rest)
    else .ok (matched ++ rest)

def referenceChain (store : FileStore) (catalog : Catalog) :
    List Combination → List JoinClause → Except PyErr (List Combination)
  | lefts, [] => .ok lefts
  | lefts, join :: joins => do
    let rightMeta ← catalog.getTable join.table
    let rightRows ← scanTable store rightMeta
    let lefts ← referenceJoin join rightRows lefts
    referenceChain store catalog lefts joins

/-- The left-deep nested loops over `table` and the joined tables. -/
def referenceJoins (store : FileStore) (catalog : Catalog) (table : String)
    (joins : List JoinClause) : Except PyErr (List Combination) := do
  let entry ← catalog.getTable table
  let rows ← scanTable store entry
  referenceChain store catalog (rows.map fun row => [⟨table, some row⟩]) joins

/-! ## The code -/

/-- `exec_nested_loop_join`, left to right. -/
def nestedLoopChain (store : FileStore) (catalog : Catalog) :
    List RowDict → List JoinClause → Except PyErr (List RowDict)
  | rows, [] => .ok rows
  | rows, join :: joins => do
    let rows ← execNestedLoopJoin store catalog rows join
    nestedLoopChain store catalog rows joins

def nestedLoopJoins (store : FileStore) (catalog : Catalog) (table : String)
    (joins : List JoinClause) : Except PyErr (List RowDict) := do
  let entry ← catalog.getTable table
  let rows ← scanTable store entry
  nestedLoopChain store catalog rows joins

/-! ## What the chain is about -/

/-- The columns of a table. -/
def columnsOf (catalog : Catalog) (table : String) : List String :=
  match catalog.getTable table with
  | .ok entry => entry.schema.map Prod.fst
  | .error _ => []

/-- Every column of the expression is a qualified one, of a table in `tables` that has it. -/
def Expr.Over (catalog : Catalog) (tables : List String) : Expr → Prop
  | .column _ => False
  | .qualifiedColumn none _ => False
  | .qualifiedColumn (some table) name => table ∈ tables ∧ name ∈ columnsOf catalog table
  | .star => True
  | .sqlLiteral _ _ => True
  | .binaryOp _ left right => left.Over catalog tables ∧ right.Over catalog tables
  | .logicalOp _ left right => left.Over catalog tables ∧ right.Over catalog tables
  | .unaryOp _ operand => operand.Over catalog tables
  | .inPredicate expr _ _ => expr.Over catalog tables

instance Expr.decidableOver (catalog : Catalog) (tables : List String) :
    (expr : Expr) → Decidable (expr.Over catalog tables)
  | .column _ => inferInstanceAs (Decidable False)
  | .qualifiedColumn none _ => inferInstanceAs (Decidable False)
  | .qualifiedColumn (some _) _ => inferInstanceAs (Decidable (_ ∧ _))
  | .star => inferInstanceAs (Decidable True)
  | .sqlLiteral _ _ => inferInstanceAs (Decidable True)
  | .binaryOp _ left right =>
    have := decidableOver catalog tables left
    have := decidableOver catalog tables right
    inferInstanceAs (Decidable (_ ∧ _))
  | .logicalOp _ left right =>
    have := decidableOver catalog tables left
    have := decidableOver catalog tables right
    inferInstanceAs (Decidable (_ ∧ _))
  | .unaryOp _ operand => decidableOver catalog tables operand
  | .inPredicate expr _ _ => decidableOver catalog tables expr

/-- Every ON condition is about the tables up to its own. -/
def OnInScope (catalog : Catalog) : List String → List JoinClause → Prop
  | _, [] => True
  | tables, join :: joins =>
    (∀ on' ∈ join.on', on'.Over catalog (tables ++ [join.table])) ∧
      OnInScope catalog (tables ++ [join.table]) joins

instance OnInScope.decidable (catalog : Catalog) :
    (tables : List String) → (joins : List JoinClause) → Decidable (OnInScope catalog tables joins)
  | _, [] => inferInstanceAs (Decidable True)
  | tables, join :: joins =>
    have := OnInScope.decidable catalog (tables ++ [join.table]) joins
    inferInstanceAs (Decidable (_ ∧ _))

/-- Tables one after the other without aliases. No name has a dot, no column is called
`rowid`. -/
structure JoinChain (catalog : Catalog) (table : String) (joins : List JoinClause) : Prop where
  distinct : (table :: joins.map JoinClause.table).Nodup
  unaliased : ∀ join ∈ joins, join.alias' = none
  dotless : ∀ t ∈ table :: joins.map JoinClause.table, Dotless t
  columns : ∀ t ∈ table :: joins.map JoinClause.table, ∀ col ∈ columnsOf catalog t,
    Dotless col ∧ col ≠ "rowid"
  inScope : OnInScope catalog [table] joins

/-- Every qualified column of the row has the value that the combination has there. -/
def Represents (catalog : Catalog) (tables : List String) (row : RowDict) (combo : Combination) :
    Prop :=
  combo.map Component.table = tables ∧ ∀ t ∈ tables, ∀ col ∈ columnsOf catalog t,
    evalExpr row (.qualifiedColumn (some t) col) = .ok (combo.value t col)

/-! ## Rows of one table -/

/-- The keys of a scanned row. -/
structure RowOf (columns : List String) (row : RowDict) : Prop where
  has : ∀ col ∈ columns, ∃ v, row.get? col = some v
  keys : ∀ k, row.get? k ≠ none → k ∈ columns ∨ k = "rowid"

theorem decodeCells_row_length {raw : Bytes} {offset : Nat} {schema : Schema} {values : Row}
    (h : decodeCells raw offset schema = .ok values) : values.length = schema.length := by
  induction schema generalizing offset values with
  | nil =>
    cases h
    rfl
  | cons col schema ih =>
    simp only [decodeCells, bind_eq_ok] at h
    obtain ⟨length, -, h⟩ := h
    split at h
    · simp only [bind_eq_ok, Except.ok.injEq] at h
      obtain ⟨rest, hrest, rfl⟩ := h
      rw [List.length_cons, List.length_cons, ih hrest]
    · simp only [bind_eq_ok, Except.ok.injEq] at h
      obtain ⟨value, -, rest, hrest, rfl⟩ := h
      rw [List.length_cons, List.length_cons, ih hrest]

theorem scanSlots_row_length {schema : Schema} {body : Bytes} {n offset : Nat}
    {rows : List (Nat × Row)} (h : Heap.scanSlots schema body n offset = .ok rows) :
    ∀ row ∈ rows, row.2.length = schema.length := by
  induction n generalizing offset rows with
  | zero =>
    cases h
    simp
  | succ n ih =>
    simp only [Heap.scanSlots, bind_eq_ok] at h
    obtain ⟨rowLen, -, h⟩ := h
    split at h
    · simp only [bind_eq_ok, Except.ok.injEq] at h
      obtain ⟨rowid, -, values, hvalues, rest, hrest, rfl⟩ := h
      intro row hrow
      rcases List.mem_cons.mp hrow with rfl | hrow
      · exact decodeCells_row_length hvalues
      · exact ih hrest row hrow
    · exact ih h

theorem rowOf_rowToDict {schema : Schema} {values : Row} (h : values.length = schema.length)
    (rowid : Nat) : RowOf (schema.map Prod.fst) (rowToDict schema values rowid) := by
  have hkeys : ((schema.map Prod.fst).zip values).map Prod.fst = schema.map Prod.fst :=
    List.map_fst_zip (by rw [List.length_map, h])
  constructor
  · intro col hcol
    rw [← Option.ne_none_iff_exists', rowToDict, OrdDict.get?_set]
    split
    · simp
    · rw [ne_eq, OrdDict.get?_ofList_eq_none_iff, hkeys, not_not]
      exact hcol
  · intro k hk
    rw [rowToDict, OrdDict.get?_set] at hk
    split at hk
    · rename_i he
      exact Or.inr he.symm
    · rw [ne_eq, OrdDict.get?_ofList_eq_none_iff, hkeys, not_not] at hk
      exact Or.inl hk

theorem rowOf_scanTable {store : FileStore} {entry : TableMeta} {rows : List RowDict}
    (h : scanTable store entry = .ok rows) :
    ∀ row ∈ rows, RowOf (entry.schema.map Prod.fst) row := by
  simp only [scanTable, Heap.scan, Heap.scanBody, bind_eq_ok, Except.ok.injEq] at h
  obtain ⟨scanned, ⟨page, -, hscan⟩, rfl⟩ := h
  intro row hrow
  obtain ⟨pair, hpair, rfl⟩ := List.mem_map.mp hrow
  exact rowOf_rowToDict (scanSlots_row_length hscan pair hpair) pair.1

/-! ## Merging -/

section

variable {table : String}

/-- The loop of `_merge_rows`. -/
private def mergeEntries (table : String) (left : RowDict) (entries : List (String × Value)) :
    RowDict :=
  entries.foldl (fun merged e =>
    if merged.contains e.1 then merged.set (table ++ "." ++ e.1) e.2 else merged.set e.1 e.2) left

private theorem mergeEntries_plain (entries : List (String × Value)) (left : RowDict)
    {col : String} (hc : Dotless col) :
    (mergeEntries table left entries).get? col =
      (left.get? col).or (OrdDict.lookup col entries) := by
  induction entries generalizing left with
  | nil => simp [mergeEntries, OrdDict.lookup]
  | cons e entries ih =>
    obtain ⟨k, v⟩ := e
    rw [mergeEntries, List.foldl_cons, ← mergeEntries, ih]
    have hne : ¬ table ++ "." ++ k = col := fun he => ne_dotted hc table k he.symm
    by_cases hk : left.contains k = true
    · rw [if_pos hk, OrdDict.get?_set, if_neg hne]
      by_cases he : k = col
      · subst he
        rw [OrdDict.contains, Option.isSome_iff_exists] at hk
        obtain ⟨w, hw⟩ := hk
        rw [hw]
        rfl
      · simp only [OrdDict.lookup, he, ↓reduceIte]
    · rw [if_neg hk, OrdDict.get?_set]
      rw [OrdDict.contains, Bool.not_eq_true, Option.isSome_eq_false_iff, Option.isNone_iff_eq_none]
        at hk
      by_cases he : k = col
      · subst he
        simp [hk, OrdDict.lookup]
      · simp [he, OrdDict.lookup]

private theorem mergeEntries_other (entries : List (String × Value)) (left : RowDict)
    (hd : ∀ e ∈ entries, Dotless e.1) {t : String} (ht : Dotless t) (htable : Dotless table)
    (hne : t ≠ table) (col : String) :
    (mergeEntries table left entries).get? (t ++ "." ++ col) = left.get? (t ++ "." ++ col) := by
  induction entries generalizing left with
  | nil => rfl
  | cons e entries ih =>
    have hplain := hd e (List.mem_cons_self ..)
    rw [mergeEntries, List.foldl_cons, ← mergeEntries,
      ih _ fun e he => hd e (List.mem_cons_of_mem _ he)]
    split
    · rw [OrdDict.get?_set, if_neg]
      rw [dotted_inj htable ht]
      exact fun h => hne h.1.symm
    · rw [OrdDict.get?_set, if_neg (ne_dotted hplain t col)]

private theorem mergeEntries_own (entries : List (String × Value)) (left : RowDict)
    (hd : ∀ e ∈ entries, Dotless e.1) (hn : (entries.map Prod.fst).Nodup)
    (htable : Dotless table) {col : String} (hc : Dotless col) :
    (mergeEntries table left entries).get? (table ++ "." ++ col) =
      if left.contains col then (OrdDict.lookup col entries).or (left.get? (table ++ "." ++ col))
      else left.get? (table ++ "." ++ col) := by
  induction entries generalizing left with
  | nil => simp [mergeEntries, OrdDict.lookup]
  | cons e entries ih =>
    obtain ⟨k, v⟩ := e
    rw [List.map_cons, List.nodup_cons] at hn
    have hk := hd (k, v) (List.mem_cons_self ..)
    rw [mergeEntries, List.foldl_cons, ← mergeEntries,
      ih _ (fun e he => hd e (List.mem_cons_of_mem _ he)) hn.2]
    have hnone : k = col → OrdDict.lookup col entries = none := by
      rintro rfl
      exact (OrdDict.lookup_eq_none_iff k entries).mpr hn.1
    have hown : (k = col) ↔ table ++ "." ++ k = table ++ "." ++ col := by
      rw [dotted_inj htable htable]
      exact ⟨fun h => ⟨rfl, h⟩, fun h => h.2⟩
    have hplain : ¬ table ++ "." ++ k = col := fun he => ne_dotted hc table k he.symm
    have hother : ¬ k = table ++ "." ++ col := ne_dotted hk table col
    by_cases hin : left.contains k = true
    · rw [if_pos hin]
      simp only [OrdDict.contains, OrdDict.get?_set, hplain, ↓reduceIte, ← hown, OrdDict.lookup]
      by_cases he : k = col
      · subst he
        simp only [OrdDict.contains] at hin
        simp [hnone rfl, hin]
      · simp [he]
    · rw [if_neg hin]
      simp only [OrdDict.contains, OrdDict.get?_set, hother, ↓reduceIte, OrdDict.lookup]
      by_cases he : k = col
      · subst he
        simp only [OrdDict.contains] at hin
        simp [hnone rfl, hin]
      · simp [he]

end

/-! ## The keys of merged rows -/

/-- What is in a merged row: the columns of each table under the dotted or the plain name,
and nothing under the names of other tables. -/
structure Simulates (catalog : Catalog) (tables : List String) (row : RowDict)
    (combo : Combination) : Prop where
  parts : combo.map Component.table = tables
  value : ∀ t ∈ tables, ∀ col ∈ columnsOf catalog t,
    row.get? (t ++ "." ++ col) = some (combo.value t col) ∨
      (row.get? (t ++ "." ++ col) = none ∧ row.get? col = some (combo.value t col))
  free : ∀ t, Dotless t → t ∉ tables → ∀ col, row.get? (t ++ "." ++ col) = none

section

variable {catalog : Catalog} {tables : List String} {row : RowDict} {combo : Combination}

theorem Simulates.find (h : Simulates catalog tables row combo) {t col : String}
    (ht : t ∈ tables) (hc : col ∈ columnsOf catalog t) :
    (row.get? (t ++ "." ++ col)).getD (row.find col) = combo.value t col := by
  rcases h.value t ht col hc with hv | ⟨hn, hv⟩
  · rw [hv, Option.getD_some]
  · rw [hn, Option.getD_none, RowDict.find, hv, Option.getD_some]

theorem Simulates.represents (h : Simulates catalog tables row combo) :
    Represents catalog tables row combo := by
  refine ⟨h.parts, fun t ht col hc => ?_⟩
  rw [evalExpr, h.find ht hc]

/-! ## ON conditions -/

theorem evalExpr_resolve (h : Simulates catalog tables row combo) {expr : Expr}
    (he : expr.Over catalog tables) :
    evalExpr row expr = evalExpr OrdDict.empty (expr.resolve combo.value) := by
  induction expr with
  | column name => cases he
  | qualifiedColumn table name =>
    cases table with
    | none => cases he
    | some table =>
      rw [evalExpr, h.find he.1 he.2]
      rfl
  | binaryOp op left right ihl ihr =>
    simp only [Expr.resolve, evalExpr, ihl he.1, ihr he.2]
  | star => rfl
  | sqlLiteral value raw => rfl
  | logicalOp op left right => rfl
  | unaryOp op operand => rfl
  | inPredicate expr values negated => rfl

theorem evalPredicate_resolve (h : Simulates catalog tables row combo) {expr : Expr}
    (he : expr.Over catalog tables) :
    evalPredicate row expr = evalPredicate OrdDict.empty (expr.resolve combo.value) := by
  induction expr with
  | column name => cases he
  | qualifiedColumn table name =>
    cases table with
    | none => cases he
    | some table =>
      simp only [evalPredicate, Expr.resolve, evalExpr, ok_bind, h.find he.1 he.2]
  | binaryOp op left right =>
    simp only [Expr.resolve, evalPredicate, evalComparison, evalExpr_resolve h he.1,
      evalExpr_resolve h he.2]
  | logicalOp op left right ihl ihr =>
    cases op <;> simp only [Expr.resolve, evalPredicate, ihl he.1, ihr he.2]
  | unaryOp op operand =>
    have ho : operand.Over catalog tables := he
    simp only [Expr.resolve, evalPredicate, evalExpr_resolve h ho]
  | inPredicate expr values negated =>
    have ho : expr.Over catalog tables := he
    simp only [Expr.resolve, evalPredicate, evalExpr_resolve h ho]
  | star => rfl
  | sqlLiteral value raw => rfl

theorem matchJoinCondition_resolve (h : Simulates catalog tables row combo) {join : JoinClause}
    (hon : ∀ on' ∈ join.on', on'.Over catalog tables) :
    matchJoinCondition join row = onHolds join.on' combo := by
  cases hj : join.on' with
  | none =>
    rw [matchJoinCondition, onHolds, hj]
    rfl
  | some on' =>
    rw [matchJoinCondition, onHolds, hj]
    exact evalPredicate_resolve h (hon on' hj)

end

/-! ## One more table -/

theorem Combination.value_append {combo : Combination} {table : String}
    (h : table ∈ combo.map Component.table) (rest : Combination) (col : String) :
    Combination.value (combo ++ rest) table col = combo.value table col := by
  obtain ⟨part, hpart, rfl⟩ := List.mem_map.mp h
  have hfound : (combo.find? fun p => p.table = part.table).isSome = true := by
    rw [List.find?_isSome]
    exact ⟨part, hpart, decide_eq_true rfl⟩
  obtain ⟨found, hf⟩ := Option.isSome_iff_exists.mp hfound
  simp only [Combination.value, List.find?_append, hf, Option.some_or]

theorem Combination.value_last {combo : Combination} {table : String}
    (h : table ∉ combo.map Component.table) (row : Option RowDict) (col : String) :
    Combination.value (combo ++ [⟨table, row⟩]) table col =
      ((row.map fun row => row.find col).getD .null) := by
  have hnone : (combo.find? fun p => p.table = table) = none := by
    rw [List.find?_eq_none]
    intro part hpart he
    exact h (List.mem_map.mpr ⟨part, hpart, of_decide_eq_true he⟩)
  cases row <;> simp [Combination.value, List.find?_append, hnone]

section

variable {catalog : Catalog} {tables : List String} {left right : RowDict} {combo : Combination}
  {join : JoinClause}

/-- Neither the table nor its columns have a dot, and none is called `rowid`. -/
def PlainTable (catalog : Catalog) (table : String) : Prop :=
  Dotless table ∧ ∀ col ∈ columnsOf catalog table, Dotless col ∧ col ≠ "rowid"

theorem RowOf.dotless {table : String} (hp : PlainTable catalog table)
    (hr : RowOf (columnsOf catalog table) right) {k : String} (hk : right.get? k ≠ none) :
    Dotless k := by
  rcases hr.keys k hk with hc | rfl
  · exact (hp.2 k hc).1
  · decide

theorem RowOf.find {columns : List String} (hr : RowOf columns right) {col : String}
    (hc : col ∈ columns) : right.get? col = some (right.find col) := by
  obtain ⟨v, hv⟩ := hr.has col hc
  rw [RowDict.find, hv, Option.getD_some]

theorem dotless_entries (h : ∀ k, right.get? k ≠ none → Dotless k) :
    ∀ e ∈ right.entries, Dotless e.1 := by
  intro e he
  refine h e.1 ?_
  rw [(OrdDict.get?_eq_some_iff right e.1 e.2).mpr he]
  exact Option.some_ne_none _

/-- A merge keeps what the left row has under plain names. -/
theorem get?_mergeRows_plain {col : String} (hc : Dotless col) :
    (mergeRows left right join).get? col = (left.get? col).or (right.get? col) := by
  have hmerge : mergeRows left right join =
      mergeEntries (resolveTableName join) left right.entries := rfl
  rw [hmerge, mergeEntries_plain right.entries left hc]
  rfl

/-- A merge leaves the keys of other tables alone. -/
theorem get?_mergeRows_other (h : ∀ k, right.get? k ≠ none → Dotless k)
    (hjoin : Dotless (resolveTableName join)) {t : String} (ht : Dotless t)
    (hne : t ≠ resolveTableName join) (col : String) :
    (mergeRows left right join).get? (t ++ "." ++ col) = left.get? (t ++ "." ++ col) := by
  have hmerge : mergeRows left right join =
      mergeEntries (resolveTableName join) left right.entries := rfl
  rw [hmerge, mergeEntries_other right.entries left (dotless_entries h) ht hjoin hne]

theorem simulates_scan {table : String} (hp : PlainTable catalog table)
    (hr : RowOf (columnsOf catalog table) right) :
    Simulates catalog [table] right [⟨table, some right⟩] where
  parts := rfl
  value := by
    intro t ht col hc
    rw [List.mem_singleton] at ht
    subst ht
    refine Or.inr ⟨?_, ?_⟩
    · by_contra hk
      exact ne_dotted (hr.dotless hp hk) t col rfl
    · rw [hr.find hc]
      simp [Combination.value]
  free := by
    intro t _ _ col
    by_contra hk
    exact ne_dotted (hr.dotless hp hk) t col rfl

theorem Simulates.merge (h : Simulates catalog tables left combo) (halias : join.alias' = none)
    (hplain : ∀ t ∈ tables, PlainTable catalog t) (hp : PlainTable catalog join.table)
    (hr : RowOf (columnsOf catalog join.table) right) (hnew : join.table ∉ tables) :
    Simulates catalog (tables ++ [join.table]) (mergeRows left right join)
      (combo ++ [⟨join.table, some right⟩]) := by
  have hname : resolveTableName join = join.table := by rw [resolveTableName, halias]
  have hmerge : mergeRows left right join = mergeEntries join.table left right.entries := by
    rw [mergeRows, hname, mergeEntries]
  have hdot := dotless_entries fun k hk => hr.dotless hp hk
  have hother : ∀ t, Dotless t → t ≠ join.table → ∀ col,
      (mergeRows left right join).get? (t ++ "." ++ col) = left.get? (t ++ "." ++ col) :=
    fun t ht hne col => get?_mergeRows_other (fun k hk => hr.dotless hp hk) (hname ▸ hp.1) ht
      (by rwa [hname]) col
  have hnewcombo : join.table ∉ combo.map Component.table := by rw [h.parts]; exact hnew
  refine ⟨by rw [List.map_append, h.parts]; rfl, ?_, ?_⟩
  · intro t ht col hc
    rcases List.mem_append.mp ht with ht | ht
    · rw [hother t (hplain t ht).1 (fun he => hnew (he ▸ ht)),
        Combination.value_append (by rw [h.parts]; exact ht)]
      rcases h.value t ht col hc with hv | ⟨hn, hv⟩
      · exact Or.inl hv
      · refine Or.inr ⟨hn, ?_⟩
        rw [hmerge, mergeEntries_plain right.entries left ((hplain t ht).2 col hc).1, hv,
          Option.some_or]
    · rw [List.mem_singleton] at ht
      subst ht
      have hdotc := (hp.2 col hc).1
      have hfree := h.free join.table hp.1 hnew col
      have hright : OrdDict.lookup col right.entries = some (right.find col) := hr.find hc
      rw [Combination.value_last hnewcombo, hmerge,
        mergeEntries_own right.entries left hdot right.nodup hp.1 hdotc,
        mergeEntries_plain right.entries left hdotc, hright, hfree]
      by_cases hin : left.contains col = true
      · rw [if_pos hin]
        exact Or.inl rfl
      · rw [if_neg hin]
        rw [OrdDict.contains, Bool.not_eq_true, Option.isSome_eq_false_iff,
          Option.isNone_iff_eq_none] at hin
        rw [hin]
        exact Or.inr ⟨rfl, rfl⟩
  · intro t ht hn col
    rw [List.mem_append, not_or, List.mem_singleton] at hn
    rw [hother t ht hn.2, h.free t ht hn.1]

/-- The keys of the NULL row. -/
private theorem get?_nullRight (table : String) (schema : Schema) (k : String) :
    (nullRight table schema).get? k = if k = "rowid" ∨ ∃ col ∈ schema.map Prod.fst,
      table ++ "." ++ col = k then some .null else none := by
  rw [nullRight, OrdDict.get?_set]
  by_cases hk : "rowid" = k
  · rw [if_pos hk, if_pos (Or.inl hk.symm)]
  · rw [if_neg hk]
    have hk' : k ≠ "rowid" := fun he => hk he.symm
    cases hg : (OrdDict.ofList (schema.map fun col => (table ++ "." ++ col.1, Value.null))).get? k with
    | none =>
      rw [OrdDict.get?_ofList_eq_none_iff] at hg
      rw [if_neg]
      rintro (he | ⟨col, hcol, rfl⟩)
      · exact hk' he
      · obtain ⟨c, hc, rfl⟩ := List.mem_map.mp hcol
        refine hg ?_
        rw [List.map_map]
        exact List.mem_map.mpr ⟨c, hc, rfl⟩
    | some v =>
      obtain ⟨c, hc, he⟩ := List.mem_map.mp (OrdDict.mem_of_get?_ofList hg)
      rw [Prod.mk.injEq] at he
      rw [if_pos (Or.inr ⟨c.1, List.mem_map.mpr ⟨c, hc, rfl⟩, he.1⟩), he.2]

/-- So do the NULLs of a table. -/
theorem get?_nullRow_other {table : String} {schema : Schema} (htable : Dotless table) {t : String}
    (ht : Dotless t) (hne : t ≠ table) (col : String) :
    (left.update (nullRight table schema)).get? (t ++ "." ++ col) =
      left.get? (t ++ "." ++ col) := by
  rw [OrdDict.get?_update, get?_nullRight, if_neg, Option.none_or]
  rintro (he | ⟨c, -, he⟩)
  · exact ne_dotted (by decide) t col he.symm
  · rw [dotted_inj htable ht] at he
    exact hne he.1.symm

theorem Simulates.nullRow (h : Simulates catalog tables left combo) {table : String}
    {schema : Schema} (hcols : schema.map Prod.fst = columnsOf catalog table)
    (hplain : ∀ t ∈ tables, PlainTable catalog t) (hp : PlainTable catalog table)
    (hnew : table ∉ tables) :
    Simulates catalog (tables ++ [table]) (left.update (nullRight table schema))
      (combo ++ [⟨table, none⟩]) := by
  have hother : ∀ t, Dotless t → t ≠ table → ∀ col,
      (left.update (nullRight table schema)).get? (t ++ "." ++ col) =
        left.get? (t ++ "." ++ col) :=
    fun t ht hne col => get?_nullRow_other hp.1 ht hne col
  have hnewcombo : table ∉ combo.map Component.table := by rw [h.parts]; exact hnew
  refine ⟨by rw [List.map_append, h.parts]; rfl, ?_, ?_⟩
  · intro t ht col hc
    rcases List.mem_append.mp ht with ht | ht
    · rw [hother t (hplain t ht).1 (fun he => hnew (he ▸ ht)),
        Combination.value_append (by rw [h.parts]; exact ht)]
      rcases h.value t ht col hc with hv | ⟨hn, hv⟩
      · exact Or.inl hv
      · refine Or.inr ⟨hn, ?_⟩
        obtain ⟨hdotc, hrowid⟩ := (hplain t ht).2 col hc
        rw [OrdDict.get?_update, get?_nullRight, if_neg, Option.none_or, hv]
        rintro (he | ⟨c, -, he⟩)
        · exact hrowid he
        · exact ne_dotted hdotc table c he.symm
    · rw [List.mem_singleton] at ht
      subst ht
      refine Or.inl ?_
      rw [Combination.value_last hnewcombo, OrdDict.get?_update, get?_nullRight, if_pos]
      · rfl
      · exact Or.inr ⟨col, by rw [hcols]; exact hc, rfl⟩
  · intro t ht hn col
    rw [List.mem_append, not_or, List.mem_singleton] at hn
    rw [hother t ht hn.2, h.free t ht hn.1]

end

/-! ## The loops -/

section

variable {catalog : Catalog} {tables : List String} {join : JoinClause}

theorem matchRows_agree {left : RowDict} {combo : Combination} {rightRows : List RowDict}
    (h : ∀ right ∈ rightRows, Simulates catalog (tables ++ [join.table])
      (mergeRows left right join) (combo ++ [⟨join.table, some right⟩]))
    (hon : ∀ on' ∈ join.on', on'.Over catalog (tables ++ [join.table])) :
    Agree (Simulates catalog (tables ++ [join.table])) (matchRows join left rightRows)
      (referenceMatches join rightRows combo) := by
  induction rightRows with
  | nil => exact Agree.ok List.Forall₂.nil
  | cons right rightRows ih =>
    have hfirst := h right (List.mem_cons_self ..)
    have hrest := ih fun r hr => h r (List.mem_cons_of_mem _ hr)
    simp only [matchRows, referenceMatches, List.map_cons, filterRaising,
      matchJoinCondition_resolve hfirst hon]
    cases onHolds join.on' (combo ++ [⟨join.table, some right⟩]) with
    | error e => exact Agree.error e
    | ok hit =>
      simp only [ok_bind]
      refine Agree.bind hrest fun xs ys hxy => Agree.ok ?_
      cases hit with
      | false => exact hxy
      | true => exact List.Forall₂.cons hfirst hxy

theorem joinRows_agree {schema : Schema} {rightRows : List RowDict} {lefts : List RowDict}
    {combos : List Combination} (halias : join.alias' = none)
    (hcols : schema.map Prod.fst = columnsOf catalog join.table)
    (hplain : ∀ t ∈ tables, PlainTable catalog t) (hp : PlainTable catalog join.table)
    (hr : ∀ right ∈ rightRows, RowOf (columnsOf catalog join.table) right)
    (hnew : join.table ∉ tables)
    (hon : ∀ on' ∈ join.on', on'.Over catalog (tables ++ [join.table]))
    (h : List.Forall₂ (Simulates catalog tables) lefts combos) :
    Agree (Simulates catalog (tables ++ [join.table]))
      (joinRows join (resolveTableName join) schema rightRows lefts)
      (referenceJoin join rightRows combos) := by
  have hname : resolveTableName join = join.table := by rw [resolveTableName, halias]
  rw [hname]
  induction h with
  | nil => exact Agree.ok List.Forall₂.nil
  | @cons left combo lefts combos hleft _ ih =>
    have hmatch := matchRows_agree
      (fun right hright => hleft.merge halias hplain hp (hr right hright) hnew) hon
    simp only [joinRows, referenceJoin]
    refine Agree.bind hmatch fun matched combosMatched hm => ?_
    refine Agree.bind ih fun rest combosRest hrest => ?_
    have hempty : matched = [] ↔ combosMatched = [] := by
      cases hm <;> simp
    simp only [hempty]
    split
    · exact Agree.ok (List.Forall₂.cons (hleft.nullRow hcols hplain hp hnew) hrest)
    · exact Agree.ok (List.rel_append hm hrest)

theorem nestedLoopChain_agree {store : FileStore} {rows : List RowDict}
    {combos : List Combination} {joins : List JoinClause}
    (hd : (tables ++ joins.map JoinClause.table).Nodup)
    (hu : ∀ join ∈ joins, join.alias' = none)
    (hp : ∀ t ∈ tables ++ joins.map JoinClause.table, PlainTable catalog t)
    (hs : OnInScope catalog tables joins)
    (h : List.Forall₂ (Simulates catalog tables) rows combos) :
    Agree (Simulates catalog (tables ++ joins.map JoinClause.table))
      (nestedLoopChain store catalog rows joins) (referenceChain store catalog combos joins) := by
  induction joins generalizing tables rows combos with
  | nil =>
    rw [List.map_nil, List.append_nil]
    exact Agree.ok h
  | cons join joins ih =>
    have happend : tables ++ (join :: joins).map JoinClause.table =
        (tables ++ [join.table]) ++ joins.map JoinClause.table := by simp
    rw [happend] at hd hp ⊢
    have halias := hu join (List.mem_cons_self ..)
    have hname : resolveTableName join = join.table := by rw [resolveTableName, halias]
    simp only [nestedLoopChain, referenceChain, execNestedLoopJoin, hname]
    cases hg : catalog.getTable join.table with
    | error e => exact Agree.error e
    | ok entry =>
      simp only [ok_bind]
      cases hscan : scanTable store entry with
      | error e => exact Agree.error e
      | ok rightRows =>
        have hcols : entry.schema.map Prod.fst = columnsOf catalog join.table := by
          rw [columnsOf, hg]
        have hnew : join.table ∉ tables := by
          have hn := (List.nodup_append.mp (List.nodup_append.mp hd).1).2.2
          exact fun hm => hn _ hm _ (List.mem_singleton_self _) rfl
        have hplain : ∀ t ∈ tables, PlainTable catalog t := fun t ht =>
          hp t (List.mem_append_left _ (List.mem_append_left _ ht))
        have hjoin : PlainTable catalog join.table :=
          hp _ (List.mem_append_left _ (List.mem_append_right _ (List.mem_singleton_self _)))
        have hright : ∀ right ∈ rightRows, RowOf (columnsOf catalog join.table) right := by
          rw [← hcols]
          exact rowOf_scanTable hscan
        have hloop := joinRows_agree halias hcols hplain hjoin hright hnew hs.1 h
        rw [hname] at hloop
        simp only [ok_bind]
        refine Agree.bind hloop fun rows' combos' h' => ?_
        exact ih hd (fun j hj => hu j (List.mem_cons_of_mem _ hj)) hp hs.2 h'

end

/-- **A chain of joins gives the rows of the nested loops, in order,** and every qualified
column of a row has the value that its table has there. -/
theorem nested_loop_join_reference (store : FileStore) (catalog : Catalog) (table : String)
    (joins : List JoinClause) (h : JoinChain catalog table joins) :
    Agree (Represents catalog (table :: joins.map JoinClause.table))
      (nestedLoopJoins store catalog table joins) (referenceJoins store catalog table joins) := by
  have hp : ∀ t ∈ [table] ++ joins.map JoinClause.table, PlainTable catalog t :=
    fun t ht => ⟨h.dotless t ht, h.columns t ht⟩
  rw [nestedLoopJoins, referenceJoins]
  cases hg : catalog.getTable table with
  | error e => exact Agree.error e
  | ok entry =>
    simp only [ok_bind]
    cases hscan : scanTable store entry with
    | error e => exact Agree.error e
    | ok rows =>
      simp only [ok_bind]
      have hcols : entry.schema.map Prod.fst = columnsOf catalog table := by
        rw [columnsOf, hg]
      have hstart : List.Forall₂ (Simulates catalog [table]) rows
          (rows.map fun row => [⟨table, some row⟩]) := by
        rw [List.forall₂_map_right_iff, List.forall₂_same]
        intro row hrow
        exact simulates_scan (hp table (List.mem_cons_self ..)) (hcols ▸ rowOf_scanTable hscan row hrow)
      exact (nestedLoopChain_agree h.distinct h.unaliased hp h.inScope hstart).mono
        fun _ _ hsim => hsim.represents

/-- Two columns called `b`, and a row of `t` without a match in `u`. -/
def joinedTables : Database := Database.newDatabase
  [.createTable ⟨"t", [⟨"a", "INT", []⟩, ⟨"b", "INT", []⟩], false⟩,
    .createTable ⟨"u", [⟨"b", "INT", []⟩], false⟩, .createTable ⟨"v", [⟨"b", "INT", []⟩], false⟩,
    .insert ⟨"t", none, [[.int 1, .int 2], [.int 3, .int 4]]⟩, .insert ⟨"u", none, [[.int 2]]⟩,
    .insert ⟨"v", none, [[.int 3]]⟩]

/-- `t LEFT JOIN u ON t.b = u.b JOIN v ON t.a = v.b`. -/
def joinedClauses : List JoinClause :=
  [⟨.left, "u", none, some (.binaryOp .eq (.qualifiedColumn "t" "b") (.qualifiedColumn "u" "b"))⟩,
    ⟨.inner, "v", none, some (.binaryOp .eq (.qualifiedColumn "t" "a") (.qualifiedColumn "v" "b"))⟩]

theorem nested_loop_join_reference_left :
    Agree (Represents joinedTables.catalog ("t" :: joinedClauses.map JoinClause.table))
      (nestedLoopJoins joinedTables.store joinedTables.catalog "t" joinedClauses)
      (referenceJoins joinedTables.store joinedTables.catalog "t" joinedClauses) :=
  nested_loop_join_reference joinedTables.store joinedTables.catalog "t" joinedClauses
    ⟨by decide +kernel, by decide +kernel, by decide +kernel, by decide +kernel, by decide +kernel⟩

end TinyDB
