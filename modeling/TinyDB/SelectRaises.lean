import TinyDB.Database

/-!
# What a query raises

Scanning a table, evaluating expressions over its rows, sorting and projecting raise built-in
exceptions only. A query raises a subclass of `TinyDBError` for three reasons: a table that is
not in the catalog, an ambiguous column of a join query, and the type check of an ON condition.
-/

namespace TinyDB

open Lib

/-- The exception is no subclass of `TinyDBError`. -/
def PyErr.isBuiltin : PyErr → Bool
  | .keyError _ => true
  | .typeError => true
  | .valueError => true
  | .indexError => true
  | .overflowError => true
  | .structError => true
  | .unicodeDecodeError => true
  | .runtimeError _ => true
  | _ => false

/-- The step raises no `TinyDBError`. -/
abbrev Builtin {α : Type} (x : Except PyErr α) : Prop := RaisesOnly (fun e => e.isBuiltin = true) x

/-! ## Pages -/

theorem builtin_unpackUint (k : Nat) (raw : Bytes) : Builtin (unpackUint k raw) :=
  RaisesOnly.ite (fun _ => RaisesOnly.ok _) fun _ => RaisesOnly.error rfl

theorem builtin_ofByte (b : UInt8) : Builtin (PageType.ofByte b) := by
  unfold PageType.ofByte
  refine RaisesOnly.ite (fun _ => RaisesOnly.ok _) fun _ => ?_
  refine RaisesOnly.ite (fun _ => RaisesOnly.ok _) fun _ => ?_
  refine RaisesOnly.ite (fun _ => RaisesOnly.ok _) fun _ => ?_
  refine RaisesOnly.ite (fun _ => RaisesOnly.ok _) fun _ => ?_
  exact RaisesOnly.ite (fun _ => RaisesOnly.ok _) fun _ => RaisesOnly.error rfl

theorem builtin_readPage (store : FileStore) (pageId : Nat) : Builtin (store.readPage pageId) := by
  apply RaisesOnly.bind
  · apply RaisesOnly.bind (builtin_unpackUint _ _)
    intro _ _
    apply RaisesOnly.bind (builtin_unpackUint _ _)
    intro _ _
    apply RaisesOnly.bind (builtin_unpackUint _ _)
    intro _ _
    apply RaisesOnly.bind (builtin_unpackUint _ _)
    intro _ _
    apply RaisesOnly.bind (builtin_ofByte _)
    exact fun _ _ => RaisesOnly.ok _
  · exact fun _ _ => RaisesOnly.ok _

theorem builtin_decodeUtf8 (raw : Bytes) : Builtin (decodeUtf8 raw) := by
  rw [decodeUtf8]
  split
  · exact RaisesOnly.ok _
  · exact RaisesOnly.error rfl

theorem builtin_decode (raw : Bytes) (columnType : ColumnType) : Builtin (decode raw columnType) := by
  refine RaisesOnly.ite (fun _ => RaisesOnly.ok _) fun _ => ?_
  cases columnType with
  | int => exact RaisesOnly.ok _
  | float =>
    apply RaisesOnly.bind
    · exact RaisesOnly.bind (builtin_unpackUint _ _) fun _ _ => RaisesOnly.ok _
    · exact fun _ _ => RaisesOnly.ok _
  | text => exact RaisesOnly.bind (builtin_decodeUtf8 _) fun _ _ => RaisesOnly.ok _
  | bool =>
    apply RaisesOnly.bind
    · cases raw with
      | nil => exact RaisesOnly.error rfl
      | cons b rest => exact RaisesOnly.ok _
    · exact fun _ _ => RaisesOnly.ok _

theorem builtin_decodeCells (raw : Bytes) (offset : Nat) (schema : Schema) :
    Builtin (decodeCells raw offset schema) := by
  induction schema generalizing offset with
  | nil => exact RaisesOnly.ok _
  | cons col schema ih =>
    apply RaisesOnly.bind (builtin_unpackUint _ _)
    intro length _
    apply RaisesOnly.ite
    · exact fun _ => RaisesOnly.bind (ih _) fun _ _ => RaisesOnly.ok _
    · intro _
      apply RaisesOnly.bind (builtin_decode _ _)
      exact fun _ _ => RaisesOnly.bind (ih _) fun _ _ => RaisesOnly.ok _

theorem builtin_scanSlots (schema : Schema) (body : Bytes) (n offset : Nat) :
    Builtin (Heap.scanSlots schema body n offset) := by
  induction n generalizing offset with
  | zero => exact RaisesOnly.ok _
  | succ n ih =>
    apply RaisesOnly.bind (builtin_unpackUint _ _)
    intro rowLen _
    apply RaisesOnly.ite
    · intro _
      apply RaisesOnly.bind (builtin_unpackUint _ _)
      intro rowid _
      apply RaisesOnly.bind (builtin_decodeCells _ _ _)
      exact fun _ _ => RaisesOnly.bind (ih _) fun _ _ => RaisesOnly.ok _
    · exact fun _ => ih _

theorem builtin_scan (heap : Heap) (store : FileStore) : Builtin (heap.scan store) :=
  RaisesOnly.bind (builtin_readPage _ _) fun _ _ => builtin_scanSlots _ _ _ _

theorem builtin_scanTable (store : FileStore) (entry : TableMeta) :
    Builtin (scanTable store entry) :=
  RaisesOnly.bind (builtin_scan _ _) fun _ _ => RaisesOnly.ok _

/-! ## Rows -/

theorem builtin_pyOrd (num : Datum → Datum → Bool) (str : String → String → Bool)
    (left right : Value) : Builtin (Value.pyOrd num str left right) := by
  intro e h
  unfold Value.pyOrd at h
  split at h
  · cases h
  · split at h <;> cases h
    rfl

theorem builtin_compareWith {op : CompareOp} {left : Value} {right : Except PyErr Value}
    (h : Builtin right) : Builtin (compareWith op left right) := by
  have hcompare : ∀ r : Value, Builtin (compareValues op left r) := by
    intro r
    cases op with
    | lt => exact builtin_pyOrd _ _ _ _
    | le => exact builtin_pyOrd _ _ _ _
    | gt => exact builtin_pyOrd _ _ _ _
    | ge => exact builtin_pyOrd _ _ _ _
    | _ => exact RaisesOnly.ok _
  cases op with
  | isNull => exact RaisesOnly.ok _
  | isNotNull => exact RaisesOnly.ok _
  | _ =>
    apply RaisesOnly.bind h
    intro r _
    exact RaisesOnly.ite (fun _ => RaisesOnly.ok _) fun _ => hcompare r

theorem builtin_evalExpr (row : RowDict) (expr : Expr) : Builtin (evalExpr row expr) := by
  induction expr with
  | qualifiedColumn table name => cases table <;> exact RaisesOnly.ok _
  | binaryOp op left right ihl ihr =>
    apply RaisesOnly.bind ihl
    intro l _
    exact RaisesOnly.bind (builtin_compareWith ihr) fun _ _ => RaisesOnly.ok _
  | _ => exact RaisesOnly.ok _

theorem builtin_evalPredicate (row : RowDict) (node : Expr) : Builtin (evalPredicate row node) := by
  induction node with
  | logicalOp op left right ihl ihr =>
    cases op with
    | and =>
      apply RaisesOnly.bind ihl
      intro l _
      exact RaisesOnly.ite (fun _ => ihr) fun _ => RaisesOnly.ok _
    | or =>
      apply RaisesOnly.bind ihl
      intro l _
      exact RaisesOnly.ite (fun _ => RaisesOnly.ok _) fun _ => ihr
  | binaryOp op left right _ _ =>
    apply RaisesOnly.bind (builtin_evalExpr row left)
    intro l _
    exact builtin_compareWith (builtin_evalExpr row right)
  | inPredicate expr values negated _ =>
    exact RaisesOnly.bind (builtin_evalExpr row expr) fun _ _ => RaisesOnly.ok _
  | unaryOp op operand _ =>
    exact RaisesOnly.bind (builtin_evalExpr row operand) fun _ _ => RaisesOnly.ok _
  | qualifiedColumn table name =>
    exact RaisesOnly.bind (builtin_evalExpr row _) fun _ _ => RaisesOnly.ok _
  | _ => exact RaisesOnly.ok _

theorem builtin_evalWhere (row : RowDict) (where' : Option Expr) :
    Builtin (evalWhere row where') := by
  cases where' with
  | none => exact RaisesOnly.ok _
  | some node => exact builtin_evalPredicate row node

theorem builtin_filterRaising {α : Type} {test : α → Except PyErr Bool}
    (h : ∀ x, Builtin (test x)) (l : List α) : Builtin (filterRaising test l) := by
  induction l with
  | nil => exact RaisesOnly.ok _
  | cons x l ih =>
    apply RaisesOnly.bind (h x)
    exact fun _ _ => RaisesOnly.bind ih fun _ _ => RaisesOnly.ok _

theorem builtin_sorted {α : Type} {lt : α → α → Except PyErr Bool}
    (h : ∀ a b, Builtin (lt a b)) (reverse : Bool) (l : List α) :
    Builtin (sorted lt reverse l) := by
  have hagainst : ∀ (x : α) (l : List α), Builtin (checkAgainst lt x l) := by
    intro x l
    induction l with
    | nil => exact RaisesOnly.ok _
    | cons y l ih => exact RaisesOnly.bind (h _ _) fun _ _ => ih
  have hcheck : ∀ l : List α, Builtin (checkComparable lt l) := by
    intro l
    induction l with
    | nil => exact RaisesOnly.ok _
    | cons x l ih => exact RaisesOnly.bind (hagainst x l) fun _ _ => ih
  exact RaisesOnly.bind (hcheck l) fun _ _ => RaisesOnly.ok _

theorem builtin_sortRows {α : Type} (orderBy : List OrderItem) (dict : α → RowDict)
    (rows : List α) : Builtin (sortRows orderBy dict rows) := by
  have hkeys : ∀ (expr : Expr) (rows : List α), Builtin (evalKeys expr dict rows) := by
    intro expr rows
    induction rows with
    | nil => exact RaisesOnly.ok _
    | cons x rows ih =>
      apply RaisesOnly.bind (builtin_evalExpr _ _)
      exact fun _ _ => RaisesOnly.bind ih fun _ _ => RaisesOnly.ok _
  cases orderBy with
  | nil => exact RaisesOnly.ok _
  | cons item items =>
    apply RaisesOnly.bind (hkeys item.expr rows)
    intro keyed _
    apply RaisesOnly.bind (builtin_sorted (fun a b => builtin_pyOrd _ _ _ _) _ _)
    exact fun _ _ => RaisesOnly.ok _

section

variable [PyText]

theorem builtin_projectOne (row : RowDict) (index : Nat) (proj : Expr) (out : RowDict) :
    Builtin (projectOne row index proj out) := by
  have heval : ∀ proj : Expr, Builtin (do
      let value ← evalExpr row proj
      .ok (out.set (projKey index proj) value)) := fun proj =>
    RaisesOnly.bind (builtin_evalExpr row proj) fun _ _ => RaisesOnly.ok _
  cases proj with
  | column name => exact RaisesOnly.ok _
  | qualifiedColumn table name =>
    exact RaisesOnly.bind (builtin_evalExpr row _) fun _ _ => RaisesOnly.ok _
  | sqlLiteral value raw =>
    cases value with
    | text s =>
      rw [projectOne]
      split
      · exact RaisesOnly.error rfl
      · exact RaisesOnly.ok _
    | _ => exact RaisesOnly.ok _
  | star => exact heval .star
  | binaryOp op left right => exact heval (.binaryOp op left right)
  | logicalOp op left right => exact heval (.logicalOp op left right)
  | unaryOp op operand => exact heval (.unaryOp op operand)
  | inPredicate expr values negated => exact heval (.inPredicate expr values negated)

theorem builtin_projectRows (projections : List Expr) (rows : List RowDict) :
    Builtin (projectRows projections rows) := by
  have hfrom : ∀ (row : RowDict) (projections : List Expr) (index : Nat) (out : RowDict),
      Builtin (projectFrom row index projections out) := by
    intro row projections
    induction projections with
    | nil => exact fun _ _ => RaisesOnly.ok _
    | cons proj projections ih =>
      exact fun _ _ => RaisesOnly.bind (builtin_projectOne row _ proj _) fun _ _ => ih _ _
  induction rows with
  | nil => exact RaisesOnly.ok _
  | cons row rows ih =>
    apply RaisesOnly.bind (hfrom row projections 0 _)
    exact fun _ _ => RaisesOnly.bind ih fun _ _ => RaisesOnly.ok _

end

/-! ## Joins and aggregates -/

theorem builtin_matchRows (join : JoinClause) (left : RowDict) (rights : List RowDict) :
    Builtin (matchRows join left rights) := by
  induction rights with
  | nil => exact RaisesOnly.ok _
  | cons right rights ih =>
    apply RaisesOnly.bind (builtin_evalWhere _ _)
    exact fun _ _ => RaisesOnly.bind ih fun _ _ => RaisesOnly.ok _

theorem builtin_joinRows (join : JoinClause) (rightTable : String) (schema : Schema)
    (rights lefts : List RowDict) : Builtin (joinRows join rightTable schema rights lefts) := by
  induction lefts with
  | nil => exact RaisesOnly.ok _
  | cons left lefts ih =>
    apply RaisesOnly.bind (builtin_matchRows join left rights)
    intro matched _
    apply RaisesOnly.bind ih
    exact fun _ _ => RaisesOnly.ite (fun _ => RaisesOnly.ok _) fun _ => RaisesOnly.ok _

theorem builtin_numsOf (col : String) (rows : List RowDict) : Builtin (numsOf col rows) := by
  have hnum : ∀ v : Value, Builtin (num v) := by
    intro v
    cases v with
    | text s =>
      rw [num]
      split
      · exact RaisesOnly.error rfl
      · exact RaisesOnly.ok _
    | _ => exact RaisesOnly.ok _
  induction rows with
  | nil => exact RaisesOnly.ok _
  | cons row rows ih =>
    apply RaisesOnly.bind (hnum _)
    exact fun _ _ => RaisesOnly.bind ih fun _ _ => RaisesOnly.ok _

theorem builtin_aggregateGroup (rows : List RowDict) (projections : List Expr) :
    Builtin (aggregateGroup rows projections) := by
  have hone : ∀ (index : Nat) (proj : Expr) (out : RowDict),
      Builtin (aggregateOne rows index proj out) := by
    intro index proj out
    cases proj with
    | sqlLiteral value raw =>
      cases value with
      | text s =>
        refine RaisesOnly.ite (fun _ => RaisesOnly.ok _) fun _ => ?_
        apply RaisesOnly.ite
        · exact fun _ => RaisesOnly.bind (builtin_numsOf _ rows) fun _ _ => RaisesOnly.ok _
        · intro _
          apply RaisesOnly.ite
          · exact fun _ => RaisesOnly.bind (builtin_numsOf _ rows) fun _ _ => RaisesOnly.ok _
          · exact fun _ => RaisesOnly.ok _
      | _ => exact RaisesOnly.ok _
    | _ => exact RaisesOnly.ok _
  have hfrom : ∀ (projections : List Expr) (index : Nat) (out : RowDict),
      Builtin (aggregateFrom rows index projections out) := by
    intro projections
    induction projections with
    | nil => exact fun _ _ => RaisesOnly.ok _
    | cons proj projections ih =>
      exact fun _ _ => RaisesOnly.bind (hone _ proj _) fun _ _ => ih _ _
  exact hfrom projections 0 _

theorem builtin_execAggregate (rows : List RowDict) (projections groupBy : List Expr) :
    Builtin (execAggregate rows projections groupBy) := by
  have hkey : ∀ a b : List Value, Builtin (keyLt a b) := by
    intro a
    induction a with
    | nil => intro b; cases b <;> exact RaisesOnly.ok _
    | cons x a ih =>
      intro b
      cases b with
      | nil => exact RaisesOnly.ok _
      | cons y b => exact RaisesOnly.ite (fun _ => ih b) fun _ => builtin_pyOrd _ _ _ _
  have hgroups : ∀ groups, Builtin (aggregateGroups projections groupBy groups) := by
    intro groups
    induction groups with
    | nil => exact RaisesOnly.ok _
    | cons group groups ih =>
      apply RaisesOnly.bind (builtin_aggregateGroup group.2 projections)
      exact fun _ _ => RaisesOnly.bind ih fun _ _ => RaisesOnly.ok _
  apply RaisesOnly.ite
  · exact fun _ =>
      RaisesOnly.bind (builtin_aggregateGroup rows projections) fun _ _ => RaisesOnly.ok _
  · intro _
    exact RaisesOnly.bind (builtin_sorted (fun _ _ => hkey _ _) _ _) fun _ _ => hgroups _

end TinyDB
