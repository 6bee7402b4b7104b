import TinyDB.GroupBy
import TinyDB.ParseErrors
import TinyDB.Projections

/-!
# A column for every aggregate

`_aggregate_group` writes each COUNT to `count`, each SUM to `sum` and each AVG to `avg`,
takes the text of an argument for the name of a column, and GROUP BY writes its columns over
all of them. `ownColumns_iff`: every item has a column of its own with its value, whatever
the rows are, exactly when the names differ and the arguments are plain columns. COUNT
counts rows and NULL adds nothing, as in the code.
-/

namespace TinyDB

open Lib Lexeme Grammar

/-! ## Items -/

inductive AggregateFn where
  | count
  | sum
  | avg
  deriving DecidableEq

def AggregateFn.name : AggregateFn → String
  | .count => "COUNT"
  | .sum => "SUM"
  | .avg => "AVG"

/-- Where `_aggregate_group` writes the result. -/
def AggregateFn.key : AggregateFn → String
  | .count => "count"
  | .sum => "sum"
  | .avg => "avg"

/-- An item of a list with aggregates; the argument of `COUNT(*)` is a star. -/
inductive AggregateItem where
  | call (f : AggregateFn) (arg : Expr)
  | column (table : Option String) (name : String)
  deriving DecidableEq

namespace AggregateItem

/-- How the item is written. -/
inductive Spelled (py : Python) : List Lexeme → AggregateItem → Prop where
  | star (f : AggregateFn) {l : Lexeme} : CodeStar l →
      Spelled py [keyword f.name, punct "(", l, punct ")"] (.call f .star)
  | call (f : AggregateFn) {s : List Lexeme} {arg : Expr} : (∀ l ∈ s.head?, ¬ CodeStar l) →
      Derives py .primary s arg →
      Spelled py (keyword f.name :: punct "(" :: s ++ [punct ")"]) (.call f arg)
  | column {s : List Lexeme} {table : Option String} {name : String} :
      ColumnRef s (columnRef table name) → Spelled py s (.column table name)

/-- The text of an argument. -/
def argText (py : Python) : Expr → String
  | .star => "*"
  | arg => argName py arg

/-- What the parser makes of the item. -/
def parsed (py : Python) : AggregateItem → Expr
  | .call f arg => aggregateLiteral f.name (argText py arg)
  | .column table name => columnRef table name

theorem derives_ne_star {py : Python} {level : Level} {s : List Lexeme} {e : Expr}
    (h : Derives py level s e) : e ≠ .star := by
  induction h with
  | column hc => cases hc <;> nofun
  | group _ ih | primary _ ih | comparison _ ih | conjunction _ ih => exact ih
  | _ => nofun

theorem projection_parsed {py : Python} {s : List Lexeme} {item : AggregateItem}
    (h : Spelled py s item) : Projection py CodeStar s (item.parsed py) := by
  cases h with
  | star f hl => exact .count (by cases f <;> rfl) hl
  | @call f s arg hhead harg =>
    have htext : argText py arg = argName py arg := by
      cases arg with
      | star => exact absurd rfl (derives_ne_star harg)
      | _ => rfl
    rw [parsed, htext]
    exact .aggregate (by cases f <;> rfl) hhead harg
  | column hc => exact .column hc

/-- The values of an argument in the rows of a group. -/
def argNums (arg : Expr) : List RowDict → Except PyErr (List Value)
  | [] => .ok []
  | row :: rows => do
    let v ← evalExpr row arg
    let v ← num v
    let rest ← argNums arg rows
    .ok (v :: rest)

/-- The aggregate of the argument over the rows of a group; a column is that of the first. -/
def value (rows : List RowDict) : AggregateItem → Except PyErr Value
  | .call .count _ => .ok (.int rows.length)
  | .call .sum arg => do .ok (sumNums (← argNums arg rows))
  | .call .avg arg => do
    let vals ← argNums arg rows
    .ok (if vals = [] then .int 0 else divNum (sumNums vals) vals.length)
  | .column table name =>
    .ok (match rows with | [] => .null | row :: _ => refValue row (columnRef table name))

/-- The name of the item in an output row. -/
def key : AggregateItem → String
  | .call f _ => f.key
  | .column _ name => name

/-- The item reads no more than plain columns. -/
def Plain : AggregateItem → Prop
  | .call .count _ => True
  | .call _ arg => ∃ name, arg = .column name
  | .column table _ => table = none

/-- The output row of a group has the value of the item under the name. -/
def Carries (out : RowDict) (rows : List RowDict) (item : AggregateItem) (name : String) : Prop :=
  ∃ v, item.value rows = .ok v ∧ out.get? name = some v

end AggregateItem

/-- The groups of `exec_aggregate`, in the order of its rows. -/
def groupsIn (groupBy : List Expr) (rows : List RowDict) :
    Except PyErr (List (List Value × List RowDict)) :=
  if groupBy = [] then .ok [([], rows)] else sorted groupLt false (groupsOf groupBy rows)

/-- Every item has a column of its own, in the row of each group and whatever the rows are. -/
def OwnColumns (py : Python) (items : List AggregateItem) (groupBy : List Expr) : Prop :=
  ∃ names : List String, names.Nodup ∧ ∀ rows out,
    execAggregate rows (items.map (AggregateItem.parsed py)) groupBy = .ok out →
      ∃ groups, groupsIn groupBy rows = .ok groups ∧
        List.Forall₂ (fun group row =>
          List.Forall₂ (AggregateItem.Carries row group.2) items names) groups out

/-- The names differ, also from those of GROUP BY, and nothing but plain columns is read. -/
structure NamesApart (items : List AggregateItem) (groupBy : List Expr) : Prop where
  keys : (items.map AggregateItem.key).Nodup
  plain : ∀ item ∈ items, item.Plain
  groups : ∀ f arg, AggregateItem.call f arg ∈ items → Expr.column f.key ∉ groupBy

/-! ## The groups -/

section

variable {rows : List RowDict} {projections groupBy : List Expr}

theorem execAggregate_groupsIn : execAggregate rows projections groupBy = (do
    let groups ← groupsIn groupBy rows
    aggregateGroups projections groupBy groups) := by
  by_cases hne : groupBy = []
  · rw [execAggregate, groupsIn, if_pos hne, if_pos hne, hne, ok_bind, aggregateGroups]
    rfl
  · rw [execAggregate_groups hne, groupsIn, if_neg hne]

theorem execAggregate_eq_ok {out : List RowDict} : execAggregate rows projections groupBy = .ok out ↔
    ∃ groups, groupsIn groupBy rows = .ok groups ∧
      List.Forall₂ (fun group row => ∃ agg, aggregateGroup group.2 projections = .ok agg ∧
        row = setGroupKeys agg groupBy group.1) groups out := by
  rw [execAggregate_groupsIn, bind_eq_ok]
  simp only [aggregateGroups_eq_ok]

/-- The first row of a group gives its key, and the others have the same. -/
theorem groupsIn_named {groups : List (List Value × List RowDict)}
    (h : groupsIn groupBy rows = .ok groups) : ∀ group ∈ groups, ∃ first,
      group.1 = plainKey groupBy first ∧ (groupBy ≠ [] → ∃ rest, group.2 = first :: rest ∧
        ∀ row ∈ rest, Value.pyEqAll group.1 (plainKey groupBy row) = true) := by
  intro group hg
  rw [groupsIn] at h
  split at h
  · rename_i hne
    cases h
    rw [List.mem_singleton.mp hg, hne]
    exact ⟨OrdDict.empty, rfl, fun h => absurd rfl h⟩
  · obtain ⟨first, rest, hrows, hkey, hsame⟩ :=
      Buckets.named_foldl Value.pyEqAll (plainKey groupBy) rows group ((sorted_perm h).subset hg)
    exact ⟨first, hkey, fun _ => ⟨rest, hrows, hsame⟩⟩

theorem groupsIn_perm {groups : List (List Value × List RowDict)}
    (h : groupsIn groupBy rows = .ok groups) : (groups.flatMap Prod.snd).Perm rows := by
  rw [groupsIn] at h
  split at h
  · cases h
    rw [List.flatMap_singleton]
  · exact ((sorted_perm h).flatMap_right _).trans
      (Buckets.flatten_foldl Value.pyEqAll (plainKey groupBy) rows)

theorem groupsIn_single (groupBy : List Expr) (row : RowDict) :
    groupsIn groupBy [row] = .ok [(plainKey groupBy row, [row])] := by
  rw [groupsIn]
  split
  · rename_i hne
    rw [hne]
    rfl
  · rfl

end

/-! ## What an item writes -/

section

variable {py : Python} {rows : List RowDict} {items : List AggregateItem} {groupBy : List Expr}
  {item : AggregateItem} {out agg : RowDict}

/-- The entry that an item writes. -/
def AggregateItem.entryOf (py : Python) (rows : List RowDict) (index : Nat) :
    AggregateItem → Except PyErr (String × Value)
  | .call .count _ => .ok ("count", .int rows.length)
  | .call .sum arg => do
    let vals ← numsOf (argText py arg) rows
    .ok ("sum", sumNums vals)
  | .call .avg arg => do
    let vals ← numsOf (argText py arg) rows
    .ok ("avg", if vals = [] then .int 0 else divNum (sumNums vals) vals.length)
  | .column none name =>
    .ok (name, match rows with | [] => .null | row :: _ => row.find name)
  | .column (some _) _ => .ok ("col_" ++ toString index, .null)

theorem toList_literal (f arg : String) :
    (f ++ "(" ++ arg ++ ")").toList = f.toList ++ ['('] ++ arg.toList ++ [')'] := by
  simp only [String.toList_append]
  rfl

theorem aggregateColumn_literal (f arg : String) (hf : f.toList.length = 3) :
    aggregateColumn (f ++ "(" ++ arg ++ ")").toList = arg := by
  rw [toList_literal, aggregateColumn, List.take_left' (by simp),
    List.drop_left' (by simp [hf]), String.ofList_toList]

theorem startsWith_literal (f g : AggregateFn) (arg : String) :
    startsWith f.name.toList (g.name ++ "(" ++ arg ++ ")").toList = decide (f = g) := by
  rw [toList_literal]
  cases f <;> cases g <;> rfl

theorem aggregateOne_parsed (index : Nat) :
    aggregateOne rows index (item.parsed py) out = (do
      let e ← item.entryOf py rows index
      .ok (out.set e.1 e.2)) := by
  cases item with
  | column table name => cases table <;> rfl
  | call f arg =>
    have hcount := startsWith_literal .count f (AggregateItem.argText py arg)
    have hsum := startsWith_literal .sum f (AggregateItem.argText py arg)
    have havg := startsWith_literal .avg f (AggregateItem.argText py arg)
    simp only [AggregateFn.name] at hcount hsum havg
    cases f with
    | count =>
      simp only [AggregateItem.parsed, aggregateLiteral, aggregateOne, AggregateFn.name, hcount]
      rfl
    | sum =>
      simp only [AggregateItem.parsed, aggregateLiteral, aggregateOne, AggregateFn.name, hcount,
        hsum, aggregateColumn_literal "SUM" _ rfl, AggregateItem.entryOf]
      cases numsOf (AggregateItem.argText py arg) rows <;> rfl
    | avg =>
      simp only [AggregateItem.parsed, aggregateLiteral, aggregateOne, AggregateFn.name, hcount,
        hsum, havg, aggregateColumn_literal "AVG" _ rfl, AggregateItem.entryOf]
      cases numsOf (AggregateItem.argText py arg) rows <;> rfl

/-- The items of a list write their entries one after the other. -/
theorem aggregateFrom_parsed {index : Nat}
    (h : aggregateFrom rows index (items.map (AggregateItem.parsed py)) out = .ok agg) :
    ∃ entries, List.Forall₂ (fun item e => ∃ i, AggregateItem.entryOf py rows i item = .ok e)
      items entries ∧ agg = entries.foldl (fun d e => d.set e.1 e.2) out := by
  induction items generalizing index out with
  | nil =>
    cases h
    exact ⟨[], .nil, rfl⟩
  | cons item items ih =>
    simp only [List.map_cons, aggregateFrom, aggregateOne_parsed, bind_eq_ok, Except.ok.injEq] at h
    obtain ⟨_, ⟨e, he, rfl⟩, hrest⟩ := h
    obtain ⟨entries, hentries, rfl⟩ := ih hrest
    exact ⟨e :: entries, .cons ⟨index, he⟩ hentries, rfl⟩

theorem argNums_column (name : String) : AggregateItem.argNums (.column name) rows =
    numsOf name rows := by
  induction rows with
  | nil => rfl
  | cons row rows ih =>
    rw [AggregateItem.argNums, numsOf, ih]
    rfl

/-- The entry of an item that reads plain columns is its value. -/
theorem AggregateItem.Plain.entryOf (h : item.Plain) {index : Nat} {e : String × Value}
    (he : item.entryOf py rows index = .ok e) : e.1 = item.key ∧ item.value rows = .ok e.2 := by
  cases item with
  | column table name =>
    obtain rfl : table = none := h
    cases he
    cases rows <;> exact ⟨rfl, rfl⟩
  | call f arg =>
    cases f with
    | count =>
      cases he
      exact ⟨rfl, rfl⟩
    | sum =>
      obtain ⟨name, rfl⟩ : ∃ name, arg = .column name := h
      simp only [AggregateItem.entryOf, bind_eq_ok, Except.ok.injEq] at he
      obtain ⟨vals, hvals, rfl⟩ := he
      refine ⟨rfl, ?_⟩
      rw [AggregateItem.value, argNums_column]
      exact congrArg (· >>= _) hvals
    | avg =>
      obtain ⟨name, rfl⟩ : ∃ name, arg = .column name := h
      simp only [AggregateItem.entryOf, bind_eq_ok, Except.ok.injEq] at he
      obtain ⟨vals, hvals, rfl⟩ := he
      refine ⟨rfl, ?_⟩
      rw [AggregateItem.value, argNums_column]
      exact congrArg (· >>= _) hvals

theorem ownColumns_of_apart (h : NamesApart items groupBy) : OwnColumns py items groupBy := by
  refine ⟨items.map AggregateItem.key, h.keys, fun rows out hrun => ?_⟩
  obtain ⟨groups, hgroups, hrows⟩ := execAggregate_eq_ok.mp hrun
  refine ⟨groups, hgroups, ?_⟩
  have hboth := (List.forall₂_and_left groups out).mpr ⟨groupsIn_named hgroups, hrows⟩
  apply hboth.imp
  rintro group row ⟨⟨first, hkey, hfirst⟩, agg, hagg, rfl⟩
  obtain ⟨entries, hentries, rfl⟩ := aggregateFrom_parsed hagg
  have hwritten : List.Forall₂ (fun item e => e.1 = item.key ∧ item.value group.2 = .ok e.2)
      items entries := by
    have hplain := (List.forall₂_and_left items entries).mpr ⟨h.plain, hentries⟩
    apply hplain.imp
    rintro item e ⟨hitem, i, he⟩
    exact hitem.entryOf he
  have hnames : entries.map Prod.fst = items.map AggregateItem.key := by
    rw [← List.forall₂_eq_eq_eq, List.forall₂_map_left_iff, List.forall₂_map_right_iff]
    exact List.Forall₂.flip (hwritten.imp fun item e he => he.1)
  rw [List.forall₂_map_right_iff, List.forall₂_same]
  intro item hitem
  obtain ⟨e, he, hname, hvalue⟩ := exists_of_mem_left hwritten hitem
  refine ⟨e.2, hvalue, ?_⟩
  rw [hkey, get?_setGroupKeys]
  split
  · -- a column of GROUP BY is written again, with the value it had
    rename_i hin
    cases item with
    | call f arg => exact absurd hin (h.groups f arg hitem)
    | column table name =>
      obtain rfl : table = none := h.plain _ hitem
      obtain ⟨rest, hrest, -⟩ := hfirst (List.ne_nil_of_mem hin)
      rw [hrest] at hvalue
      exact congrArg some (Except.ok.inj hvalue)
  · rw [OrdDict.get?_foldl_set _ _ _ (hnames ▸ h.keys), ← hname,
      (OrdDict.lookup_eq_some_iff _ _ _ (hnames ▸ h.keys)).mpr he]
    rfl

end

/-! ## Arguments -/

theorem length_repr (py : Python) (s : String) : s.length ≤ (py.repr s).length := by
  have hchar : ∀ quote c, 1 ≤ (py.reprChar quote c).length := by
    intro quote c
    unfold Python.reprChar
    repeat' split
    all_goals simp
  have hflat : ∀ quote (cs : List Char), cs.length ≤ (cs.flatMap (py.reprChar quote)).length := by
    intro quote cs
    induction cs with
    | nil => exact Nat.le_refl _
    | cons c cs ih =>
      rw [List.flatMap_cons, List.length_append, List.length_cons, Nat.add_comm]
      exact Nat.add_le_add (hchar quote c) ih
  obtain ⟨quote, hrepr⟩ : ∃ quote, py.repr s =
      String.ofList (quote :: s.toList.flatMap (py.reprChar quote) ++ [quote]) := ⟨_, rfl⟩
  have hle := hflat quote s.toList
  rw [hrepr, String.length_ofList, ← String.length_toList, List.length_append, List.length_cons]
  omega

/-- The texts of a `repr` are shorter than the whole. -/
theorem length_between {s t : String} (h : s.length ≤ t.length) (a : String) {b : String}
    (hb : 0 < b.length) : s.length < (a ++ t ++ b).length := by
  simp only [String.length_append]
  omega

theorem length_dotted {s s' t t' : String} (hs : s.length ≤ s'.length) (ht : t.length ≤ t'.length)
    (a : String) {dot mid : String} (hmid : dot.length ≤ mid.length) {b : String}
    (hb : 0 < b.length) : (s ++ dot ++ t).length < (a ++ s' ++ mid ++ t' ++ b).length := by
  simp only [String.length_append]
  omega

theorem length_operands (a b c d e : String) (s t : String) :
    s.length ≤ (a ++ b ++ c ++ s ++ d ++ t ++ e).length ∧
      t.length ≤ (a ++ b ++ c ++ s ++ d ++ t ++ e).length := by
  simp only [String.length_append]
  omega

/-- An expression reads only names shorter than its `repr`. -/
theorem evalExpr_congr_shorter (py : Python) {e : Expr} {row row' : RowDict}
    (h : ∀ name : String, name.length < (e.repr py).length → row.get? name = row'.get? name) :
    evalExpr row e = evalExpr row' e := by
  induction e with
  | column name =>
    have hname := h name (length_between (length_repr py name) _ (by decide))
    simp only [evalExpr, RowDict.find, hname]
  | qualifiedColumn table name =>
    have hname := h name (length_between (length_repr py name) _ (by decide))
    cases table with
    | none => simp only [evalExpr, RowDict.find, hname]
    | some table =>
      have hdotted := h (table ++ "." ++ name)
        (length_dotted (length_repr py table) (length_repr py name) _ (by decide) (by decide))
      simp only [evalExpr, RowDict.find, hname, hdotted]
  | star => rfl
  | sqlLiteral value raw => rfl
  | binaryOp op left right ihl ihr =>
    have hlen := length_operands "BinaryOp(op=" (py.repr op.str) ", left=" ", right=" ")"
      (left.repr py) (right.repr py)
    have hleft := ihl fun name hn => h name (hn.trans_le hlen.1)
    have hright := ihr fun name hn => h name (hn.trans_le hlen.2)
    simp only [evalExpr, hleft, hright]
  | logicalOp op left right => rfl
  | unaryOp op operand => rfl
  | inPredicate expr values negated => rfl

/-! ## Groups of one row -/

/-- An aggregate of one number. -/
def AggregateFn.ofOne : AggregateFn → Value → Value
  | .count, _ => .int 1
  | .sum, x => sumNums [x]
  | .avg, x => divNum (sumNums [x]) 1

/-- The numbers that `_num` gives. -/
def IsNum (x : Value) : Prop := x = .int 0 ∨ ∃ f, x = .float f

theorem isNum_num {v x : Value} (h : num v = .ok x) : IsNum x := by
  cases v with
  | null =>
    cases h
    exact Or.inl rfl
  | text s =>
    rw [num] at h
    split at h <;> cases h
    exact Or.inr ⟨_, rfl⟩
  | int _ | float _ | bool _ =>
    cases h
    exact Or.inr ⟨_, rfl⟩

namespace AggregateFn

variable {f g : AggregateFn} {x y : Value}

theorem ofOne_ne_null (h : IsNum x) : f.ofOne x ≠ .null := by
  rcases h with rfl | ⟨_, rfl⟩ <;> cases f <;> nofun

theorem ofOne_ne_bool (h : IsNum x) (b : Bool) : f.ofOne x ≠ .bool b := by
  rcases h with rfl | ⟨_, rfl⟩ <;> cases f <;> nofun

theorem key_inj (h : f.key = g.key) : f = g := by
  cases f <;> cases g <;> first | rfl | exact absurd h (by decide)

/-- COUNT and AVG are told apart from the others by the type of the result. -/
theorem ofOne_eq (hf : f ≠ .sum) (hx : IsNum x) (h : f.ofOne x = g.ofOne (.int 0)) : f = g := by
  rcases hx with rfl | ⟨_, rfl⟩ <;> cases f <;> cases g <;>
    first | rfl | exact absurd rfl hf | cases h

end AggregateFn

section

variable {py : Python} {items : List AggregateItem} {groupBy : List Expr} {item : AggregateItem}
  {row : RowDict} {f : AggregateFn} {arg : Expr} {name : String} {v : Value}

/-- A row without text. -/
def Numbers (row : RowDict) : Prop := ∀ name, (num (row.find name)).isOk = true

theorem value_single (h : (AggregateItem.call f arg).value [row] = .ok v) :
    ∃ x, IsNum x ∧ v = f.ofOne x ∧
      (f ≠ .count → ∃ w, evalExpr row arg = .ok w ∧ num w = .ok x) := by
  cases f with
  | count =>
    cases h
    exact ⟨.int 0, Or.inl rfl, rfl, fun hne => absurd rfl hne⟩
  | sum | avg =>
    simp only [AggregateItem.value, AggregateItem.argNums, bind_eq_ok, Except.ok.injEq] at h
    obtain ⟨vals, ⟨w, hw, x, hx, rest, rfl, rfl⟩, rfl⟩ := h
    exact ⟨x, isNum_num hx, rfl, fun _ => ⟨w, hw, hx⟩⟩

/-- The entries for one row: aggregates, plain columns, and NULL for the other columns. -/
theorem entryOf_single (hnum : Numbers row) {i : Nat}
    (h : item.entryOf py [row] i = .ok (name, v)) :
    (∃ f arg x, item = .call f arg ∧ name = f.key ∧ v = f.ofOne x ∧
      num (row.find (AggregateItem.argText py arg)) = .ok x) ∨
    item = .column none name ∧ v = row.find name ∨ v = .null := by
  cases item with
  | column table col =>
    cases table with
    | none =>
      cases h
      exact Or.inr (Or.inl ⟨rfl, rfl⟩)
    | some table =>
      cases h
      exact Or.inr (Or.inr rfl)
  | call f arg =>
    refine Or.inl ⟨f, arg, ?_⟩
    cases hx : num (row.find (AggregateItem.argText py arg)) with
    | error e =>
      have hok := hnum (AggregateItem.argText py arg)
      rw [hx] at hok
      cases hok
    | ok x =>
      refine ⟨x, rfl, ?_⟩
      cases f with
      | count =>
        cases h
        exact ⟨rfl, rfl, rfl⟩
      | sum | avg =>
        simp only [AggregateItem.entryOf, numsOf, hx, ok_bind, Except.ok.injEq, Prod.mk.injEq] at h
        exact ⟨h.1.symm, h.2.symm, rfl⟩

/-- What the row of a one-row group shows under a name. -/
def Shown (py : Python) (items : List AggregateItem) (groupBy : List Expr) (row : RowDict)
    (name : String) (v : Value) : Prop :=
  Expr.column name ∈ groupBy ∧ v = row.find name ∨
    Expr.column name ∉ groupBy ∧ ∃ item ∈ items, ∃ i, item.entryOf py [row] i = .ok (name, v)

/-- A name for each item, under which every one-row group shows its value. -/
structure Naming (py : Python) (items : List AggregateItem) (groupBy : List Expr)
    (pairs : List (AggregateItem × String)) : Prop where
  covers : pairs.map Prod.fst = items
  apart : (pairs.map Prod.snd).Nodup
  shown : ∀ row, Numbers row → ∀ p ∈ pairs,
    ∃ v, p.1.value [row] = .ok v ∧ Shown py items groupBy row p.2 v

theorem run_single (hnum : Numbers row) : ∃ agg,
    aggregateGroup [row] (items.map (AggregateItem.parsed py)) = .ok agg ∧
      execAggregate [row] (items.map (AggregateItem.parsed py)) groupBy =
        .ok [setGroupKeys agg groupBy (plainKey groupBy row)] := by
  obtain ⟨agg, hagg⟩ : ∃ agg, aggregateGroup [row] (items.map (AggregateItem.parsed py)) = .ok agg := by
    refine (aggregateFrom_ok 0).mpr fun proj _ name _ r hr => ?_
    rw [List.mem_singleton.mp hr]
    exact hnum name
  refine ⟨agg, hagg, execAggregate_eq_ok.mpr ⟨_, groupsIn_single groupBy row, ?_⟩⟩
  exact .cons ⟨agg, hagg, rfl⟩ .nil

theorem naming_of_own (h : OwnColumns py items groupBy) :
    ∃ pairs, Naming py items groupBy pairs := by
  obtain ⟨names, hnodup, hall⟩ := h
  have hsingle : ∀ row, Numbers row → List.Forall₂ (fun item name =>
      ∃ v, item.value [row] = .ok v ∧ Shown py items groupBy row name v) items names := by
    intro row hnum
    obtain ⟨agg, hagg, hrun⟩ := @run_single py items groupBy row hnum
    obtain ⟨groups, hgroups, hrows⟩ := hall _ _ hrun
    rw [groupsIn_single, Except.ok.injEq] at hgroups
    subst hgroups
    obtain ⟨hrow, -⟩ := List.forall₂_cons.mp hrows
    apply hrow.imp
    rintro item name ⟨v, hv, hget⟩
    refine ⟨v, hv, ?_⟩
    rw [get?_setGroupKeys] at hget
    split at hget
    · rename_i hin
      exact Or.inl ⟨hin, (Option.some.inj hget).symm⟩
    · rename_i hout
      obtain ⟨entries, hentries, rfl⟩ := aggregateFrom_parsed hagg
      have hmem := OrdDict.mem_of_get?_ofList hget
      obtain ⟨item', hitem', i, hi⟩ := exists_of_mem_right hentries hmem
      exact Or.inr ⟨hout, item', hitem', i, hi⟩
  have hlen : items.length = names.length :=
    (hsingle OrdDict.empty fun _ => rfl).length_eq
  refine ⟨items.zip names, List.map_fst_zip hlen.le, ?_, fun row hnum p hp => ?_⟩
  · rw [List.map_snd_zip hlen.ge]
    exact hnodup
  · exact List.forall₂_zip (hsingle row hnum) hp

theorem numbers_empty : Numbers OrdDict.empty := fun _ => rfl

/-- A row with one entry. -/
def oneEntry (name : String) (v : Value) : RowDict := OrdDict.empty.set name v

theorem find_oneEntry (name k : String) (v : Value) :
    (oneEntry name v).find k = if name = k then v else .null := by
  rw [RowDict.find, oneEntry, OrdDict.get?_set]
  split <;> rfl

theorem numbers_oneEntry (h : (num v).isOk = true) : Numbers (oneEntry name v) := by
  intro k
  rw [find_oneEntry]
  split
  · exact h
  · rfl

namespace Naming

variable {pairs : List (AggregateItem × String)} (h : Naming py items groupBy pairs)
include h

theorem unique {p q : AggregateItem × String} (hp : p ∈ pairs) (hq : q ∈ pairs)
    (heq : p.2 = q.2) : p = q := List.inj_on_of_nodup_map h.apart hp hq heq

theorem exists_name (hitem : item ∈ items) : ∃ name, (item, name) ∈ pairs := by
  rw [← h.covers] at hitem
  obtain ⟨p, hp, rfl⟩ := List.mem_map.mp hitem
  exact ⟨p.2, hp⟩

theorem mem_items {p : AggregateItem × String} (hp : p ∈ pairs) : p.1 ∈ items :=
  h.covers ▸ List.mem_map_of_mem hp

/-- Where no column is set, only aggregates show more than NULL. -/
theorem shown_empty (hp : (.call f arg, name) ∈ pairs) : ∃ x g arg', IsNum x ∧
    AggregateItem.call g arg' ∈ items ∧ name = g.key ∧ Expr.column name ∉ groupBy ∧
      f.ofOne x = g.ofOne (.int 0) := by
  obtain ⟨v, hv, hshown⟩ := h.shown _ numbers_empty _ hp
  obtain ⟨x, hx, rfl, -⟩ := value_single hv
  have hne := AggregateFn.ofOne_ne_null (f := f) hx
  rcases hshown with ⟨-, hnull⟩ | ⟨hout, item, hitem, i, hi⟩
  · exact absurd hnull hne
  · rcases entryOf_single numbers_empty hi with ⟨g, arg', y, rfl, hname, hy, hnum⟩ | ⟨-, hnull⟩ | hnull
    · cases hnum
      exact ⟨x, g, arg', hx, hitem, hname, hout, hy⟩
    · exact absurd hnull hne
    · exact absurd hnull hne

theorem call_other (hf : f ≠ .sum) (hp : (.call f arg, name) ∈ pairs) : name = f.key := by
  obtain ⟨x, g, arg', hx, -, hname, -, hv⟩ := h.shown_empty hp
  rw [hname, AggregateFn.ofOne_eq hf hx hv]

/-- An aggregate is found where the code writes it. -/
theorem call (hp : (.call f arg, name) ∈ pairs) :
    name = f.key ∧ Expr.column f.key ∉ groupBy := by
  obtain ⟨x, g, arg', hx, hg, hname, hout, hv⟩ := h.shown_empty hp
  have hfg : f = g := by
    by_cases hf : f = .sum
    · by_cases hgsum : g = .sum
      · rw [hf, hgsum]
      · obtain ⟨other, hother⟩ := h.exists_name hg
        have hq := h.unique hp hother (hname.trans (h.call_other hgsum hother).symm)
        cases hq
        rfl
    · exact AggregateFn.ofOne_eq hf hx hv
  subst hfg
  exact ⟨hname, hname ▸ hout⟩

/-- A row with one truth value shows it where the column is. -/
theorem shown_true {k : String} {p : AggregateItem × String} (hp : p ∈ pairs)
    (hvalue : p.1.value [oneEntry k (.bool true)] = .ok (.bool true)) : p.2 = k := by
  obtain ⟨v, hv, hshown⟩ := h.shown _ (numbers_oneEntry (v := .bool true) rfl) p hp
  rw [hvalue, Except.ok.injEq] at hv
  subst hv
  have hfind : Value.bool true = (oneEntry k (.bool true)).find p.2 → p.2 = k := by
    intro he
    rw [find_oneEntry] at he
    split at he
    · rename_i hk
      exact hk.symm
    · cases he
  rcases hshown with ⟨-, he⟩ | ⟨-, item, -, i, hi⟩
  · exact hfind he
  · rcases entryOf_single (numbers_oneEntry (v := .bool true) rfl) hi with ⟨f, arg, x, -, -, hx, hnum⟩ | ⟨-, he⟩ | he
    · exact absurd hx.symm (AggregateFn.ofOne_ne_bool (isNum_num hnum) true)
    · exact hfind he
    · cases he

theorem column {table : Option String} {col : String}
    (hp : (.column table col, name) ∈ pairs) : table = none ∧ name = col := by
  have hplain : (oneEntry col (.bool true)).find col = .bool true := by
    rw [find_oneEntry, if_pos rfl]
  cases table with
  | none => exact ⟨rfl, h.shown_true hp (congrArg Except.ok hplain)⟩
  | some table =>
    have hlong : table ++ "." ++ col ≠ col := by
      intro he
      have hlen := congrArg String.length he
      rw [String.length_append, String.length_append] at hlen
      have hdot : 0 < ".".length := by decide
      omega
    have hdotted : name = table ++ "." ++ col := by
      refine h.shown_true hp (congrArg Except.ok ?_)
      show ((oneEntry (table ++ "." ++ col) (.bool true)).get? (table ++ "." ++ col)).getD _ = _
      rw [oneEntry, OrdDict.get?_set, if_pos rfl]
      rfl
    have hname : name = col := by
      refine h.shown_true hp (congrArg Except.ok ?_)
      show ((oneEntry col (.bool true)).get? (table ++ "." ++ col)).getD _ = _
      rw [hplain, oneEntry, OrdDict.get?_set, if_neg hlong.symm]
      rfl
    exact absurd (hdotted.symm.trans hname) hlong

/-- Under the name of an aggregate stands what its item writes. -/
theorem shown_call (hp : (.call f arg, f.key) ∈ pairs) (hnum : Numbers row)
    (hshown : Shown py items groupBy row f.key v) (hv : v ≠ .null) :
    ∃ y, num (row.find (AggregateItem.argText py arg)) = .ok y ∧ v = f.ofOne y := by
  rcases hshown with ⟨hin, -⟩ | ⟨-, item, hitem, i, hi⟩
  · exact absurd hin (h.call hp).2
  · rcases entryOf_single hnum hi with ⟨g, arg', y, rfl, hname, hy, hnum⟩ | ⟨rfl, -⟩ | hnull
    · obtain rfl := AggregateFn.key_inj hname
      obtain ⟨other, hother⟩ := h.exists_name hitem
      have hq := h.unique hp hother (h.call hother).1.symm
      cases hq
      exact ⟨y, hnum, hy⟩
    · obtain ⟨other, hother⟩ := h.exists_name hitem
      have hq := h.unique hp hother (h.column hother).2.symm
      cases hq
    · exact absurd hnull hv

/-- Only a plain column is looked up under the text of the argument. -/
theorem arg_column (hp : (.call f arg, name) ∈ pairs) (hf : f ≠ .count) :
    ∃ col, arg = .column col := by
  by_contra hno
  obtain ⟨rfl, -⟩ := h.call hp
  let row := oneEntry (AggregateItem.argText py arg) (.int 1)
  have hnum : Numbers row := numbers_oneEntry (v := .int 1) rfl
  have hsame : evalExpr row arg = evalExpr OrdDict.empty arg := by
    cases arg with
    | column col => exact absurd ⟨col, rfl⟩ hno
    | star => rfl
    | _ =>
      refine evalExpr_congr_shorter py fun name hname => ?_
      rw [show row = oneEntry _ _ from rfl, oneEntry, OrdDict.get?_set, if_neg]
      rintro rfl
      exact absurd hname (lt_irrefl _)
  obtain ⟨u, hu, hempty⟩ := h.shown _ numbers_empty _ hp
  obtain ⟨v, hv, hrow⟩ := h.shown _ hnum _ hp
  obtain ⟨x, hx, rfl, hxs⟩ := value_single hu
  obtain ⟨y, hy, rfl, hys⟩ := value_single hv
  obtain ⟨w, hw, hwx⟩ := hxs hf
  obtain ⟨w', hw', hwy⟩ := hys hf
  rw [hsame, hw, Except.ok.injEq] at hw'
  subst hw'
  obtain rfl : x = y := Except.ok.inj (hwx.symm.trans hwy)
  obtain ⟨a, ha, hxa⟩ := h.shown_call hp numbers_empty hempty (AggregateFn.ofOne_ne_null hx)
  obtain ⟨b, hb, hxb⟩ := h.shown_call hp hnum hrow (AggregateFn.ofOne_ne_null hx)
  cases ha
  rw [find_oneEntry, if_pos rfl] at hb
  cases hb
  rw [hxa] at hxb
  cases f with
  | count => exact hf rfl
  | sum => cases hxb
  | avg => exact absurd hxb (by decide +kernel)

theorem namesApart : NamesApart items groupBy := by
  have hkey : ∀ p ∈ pairs, p.2 = p.1.key := by
    rintro ⟨item, name⟩ hp
    cases item with
    | call f arg => exact (h.call hp).1
    | column table col => exact (h.column hp).2
  refine ⟨?_, fun item hitem => ?_, fun f arg hitem => ?_⟩
  · have hnames : pairs.map Prod.snd = items.map AggregateItem.key := by
      rw [← h.covers, List.map_map]
      exact List.map_congr_left hkey
    exact hnames ▸ h.apart
  · obtain ⟨name, hp⟩ := h.exists_name hitem
    cases item with
    | call f arg =>
      cases f with
      | count => exact trivial
      | sum | avg => exact h.arg_column hp nofun
    | column table col => exact (h.column hp).1
  · obtain ⟨name, hp⟩ := h.exists_name hitem
    exact (h.call hp).2

end Naming

/-- **A column for every item.** Every item has a column of its own with its value, whatever
the rows are, exactly when the names differ and nothing but plain columns is read. -/
theorem ownColumns_iff (py : Python) (items : List AggregateItem) (groupBy : List Expr) :
    OwnColumns py items groupBy ↔ NamesApart items groupBy := by
  refine ⟨fun h => ?_, ownColumns_of_apart⟩
  obtain ⟨pairs, hpairs⟩ := naming_of_own h
  exact hpairs.namesApart

end

/-- `SELECT SUM(a), SUM(b)`: the second sum takes the place of the first. -/
theorem sum_overwritten : ¬ OwnColumns Python.asciiTables
    [.call .sum (.column "a"), .call .sum (.column "b")] [] := by
  rintro ⟨names, hnodup, hall⟩
  have hrun : execAggregate [OrdDict.ofList [("a", .int 1), ("b", .int 2)]]
      [aggregateLiteral "SUM" "a", aggregateLiteral "SUM" "b"] [] =
        .ok [OrdDict.ofList [("sum", .float (Binary64.ofInt 2))]] := by decide +kernel
  obtain ⟨groups, -, hrows⟩ := hall _ _ hrun
  obtain ⟨group, -, hitems, -⟩ := List.forall₂_cons_right_iff.mp hrows
  obtain ⟨first, rest, ⟨u, -, hu⟩, hrest, rfl⟩ := List.forall₂_cons_left_iff.mp hitems
  obtain ⟨second, rest, ⟨v, -, hv⟩, -, rfl⟩ := List.forall₂_cons_left_iff.mp hrest
  have hsum : ∀ {name : String} {v : Value},
      (OrdDict.ofList [("sum", Value.float (Binary64.ofInt 2))]).get? name = some v →
        name = "sum" := by
    intro name v hget
    have hmem := OrdDict.mem_of_get?_ofList hget
    exact congrArg Prod.fst (List.mem_singleton.mp hmem)
  rw [hsum hu, hsum hv] at hnodup
  exact absurd hnodup (by simp)

end TinyDB
