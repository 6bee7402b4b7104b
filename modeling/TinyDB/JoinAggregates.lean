import TinyDB.AggregateClauses
import TinyDB.ThreeValued

/-!
# Aggregates of a join

The join path projects its rows even for an aggregate, so `exec_aggregate` finds in them only
what the SELECT list has written. `aggregatesJoined_iff`: it aggregates the joined rows
themselves if under each name that it looks up the list has left the value of the row, and
for a plain list of columns, COUNT and SUM only then.
-/

namespace TinyDB

open Lib Lexeme Grammar Database

/-! ## What the list leaves -/

namespace AggregateItem

/-- The item as `_project_row` takes it. -/
def asSelect (py : Python) : AggregateItem → SelectItem
  | .call f arg =>
    let text := f.name ++ "(" ++ argText py arg ++ ")"
    .literal (.text text) text
  | .column table name => .column table name

/-- The names that the aggregation looks up for the item. -/
def lookups (py : Python) : AggregateItem → List String
  | .call .count _ => []
  | .call _ arg => [argText py arg]
  | .column none name => [name]
  | .column (some _) _ => []

end AggregateItem

/-- The aggregation looks the name up in its rows. -/
def LooksUp (py : Python) (items : List AggregateItem) (groupBy : List Expr) (name : String) :
    Prop :=
  .column name ∈ groupBy ∨ ∃ item ∈ items, name ∈ item.lookups py

section

variable [PyText]

/-- The items of the list that write the name into a projected row. -/
def writersOf (py : Python) (items : List AggregateItem) (name : String) : List SelectItem :=
  (items.map (AggregateItem.asSelect py)).filter fun item => decide (item.key = name)

/-- What a projected row has under the name. -/
def leftUnder (py : Python) (items : List AggregateItem) (row : RowDict) (name : String) : Value :=
  ((writersOf py items name).getLast?.map (SelectItem.written row)).getD .null

/-- Under each name that the aggregation looks up the list leaves the value of the row. -/
def LookupsKept (py : Python) (items : List AggregateItem) (groupBy : List Expr)
    (rows : List RowDict) : Prop :=
  ∀ row ∈ rows, ∀ name, LooksUp py items groupBy name → leftUnder py items row name = row.find name

/-- The columns of the result are apart, there is no AVG, and what the list writes under a name
that is looked up is the column itself. -/
structure PlainList (py : Python) (items : List AggregateItem) (groupBy : List Expr) : Prop where
  apart : NamesApart items groupBy
  noAvg : ∀ arg, .call .avg arg ∉ items
  writers : ∀ name, LooksUp py items groupBy name →
    ∀ item ∈ (writersOf py items name).getLast?, item = .column none name

/-- A join with aggregates. -/
structure AggregatesJoin (py : Python) (items : List AggregateItem) (stmt : Select) : Prop where
  joins : stmt.joins ≠ []
  parsed : stmt.projections = items.map (AggregateItem.parsed py)
  aggregates : (decide (stmt.groupBy ≠ []) || hasAggregate stmt.projections) = true

/-- ORDER BY, LIMIT and OFFSET leave the rows as they are. -/
structure ClausesIdle (stmt : Select) (rows : List RowDict) : Prop where
  order : sortRows stmt.orderBy id rows = .ok rows
  limit : limitRows stmt.limit stmt.offset rows = rows

/-- The result is that of `exec_aggregate` for the rows. -/
def AggregatesRows (db : Database) (stmt : Select) (rows : List RowDict) : Prop :=
  db.dispatchSelect stmt = (do
    let out ← execAggregate rows stmt.projections stmt.groupBy
    .ok (.rows out))

end

/-! ## Rows that agree -/

section

variable {rows : List RowDict} {projections groupBy : List Expr} {f : RowDict → RowDict}

theorem numsOf_map {name : String} (h : ∀ row ∈ rows, (f row).find name = row.find name) :
    numsOf name (rows.map f) = numsOf name rows := by
  induction rows with
  | nil => rfl
  | cons row rows ih =>
    rw [List.map_cons, numsOf, numsOf, h row (List.mem_cons_self ..),
      ih fun r hr => h r (List.mem_cons_of_mem _ hr)]

end

section

variable {py : Python} {rows : List RowDict} {items : List AggregateItem} {groupBy : List Expr}
  {item : AggregateItem} {f : RowDict → RowDict}

theorem entryOf_map (h : ∀ row ∈ rows, ∀ name ∈ item.lookups py, (f row).find name = row.find name)
    (index : Nat) : item.entryOf py (rows.map f) index = item.entryOf py rows index := by
  cases item with
  | column table name =>
    cases table with
    | some table => rfl
    | none =>
      cases rows with
      | nil => rfl
      | cons row rows =>
        have hrow := h row (List.mem_cons_self ..) name (List.mem_singleton_self _)
        simp only [AggregateItem.entryOf, List.map_cons, hrow]
  | call fn arg =>
    cases fn with
    | count => simp only [AggregateItem.entryOf, List.length_map]
    | _ =>
      have hnums := numsOf_map fun row hrow => h row hrow _ (List.mem_singleton_self _)
      simp only [AggregateItem.entryOf, hnums]

theorem aggregateGroup_map
    (h : ∀ row ∈ rows, ∀ item ∈ items, ∀ name ∈ item.lookups py, (f row).find name = row.find name) :
    aggregateGroup (rows.map f) (items.map (AggregateItem.parsed py)) =
      aggregateGroup rows (items.map (AggregateItem.parsed py)) := by
  have hfrom : ∀ index out, aggregateFrom (rows.map f) index (items.map (AggregateItem.parsed py)) out =
      aggregateFrom rows index (items.map (AggregateItem.parsed py)) out := by
    induction items with
    | nil => exact fun _ _ => rfl
    | cons item items ih =>
      intro index out
      have hitem := entryOf_map (fun row hrow => h row hrow item (List.mem_cons_self ..)) index
      simp only [List.map_cons, aggregateFrom, aggregateOne_parsed, hitem,
        ih fun row hrow i hi => h row hrow i (List.mem_cons_of_mem _ hi)]
  exact hfrom 0 OrdDict.empty

theorem plainKey_map {row : RowDict}
    (h : ∀ name, .column name ∈ groupBy → (f row).find name = row.find name) :
    plainKey groupBy (f row) = plainKey groupBy row := by
  refine List.map_congr_left fun e he => ?_
  cases e with
  | column name => exact h name he
  | _ => rfl

theorem groupsIn_map
    (h : ∀ row ∈ rows, ∀ name, .column name ∈ groupBy → (f row).find name = row.find name) :
    groupsIn groupBy (rows.map f) = (do
      let groups ← groupsIn groupBy rows
      .ok (groups.map fun group => (group.1, group.2.map f))) := by
  rw [groupsIn, groupsIn]
  split
  · rfl
  · have hgroups : groupsOf groupBy (rows.map f) =
        (groupsOf groupBy rows).map fun group => (group.1, group.2.map f) :=
      Buckets.foldl_map Value.pyEqAll fun row hrow => plainKey_map (h row hrow)
    rw [hgroups, sorted_map]

/-- Rows that agree on what is looked up have the same aggregates. -/
theorem execAggregate_map
    (h : ∀ row ∈ rows, ∀ name, LooksUp py items groupBy name → (f row).find name = row.find name) :
    execAggregate (rows.map f) (items.map (AggregateItem.parsed py)) groupBy =
      execAggregate rows (items.map (AggregateItem.parsed py)) groupBy := by
  have hgroups : ∀ groups : List (List Value × List RowDict),
      (∀ group ∈ groups, ∀ row ∈ group.2, row ∈ rows) →
      aggregateGroups (items.map (AggregateItem.parsed py)) groupBy
          (groups.map fun group => (group.1, group.2.map f)) =
        aggregateGroups (items.map (AggregateItem.parsed py)) groupBy groups := by
    intro groups hin
    induction groups with
    | nil => rfl
    | cons group groups ih =>
      have hgroup : aggregateGroup (group.2.map f) (items.map (AggregateItem.parsed py)) =
          aggregateGroup group.2 (items.map (AggregateItem.parsed py)) :=
        aggregateGroup_map fun row hrow item hitem name hname =>
          h row (hin group (List.mem_cons_self ..) row hrow) name (Or.inr ⟨item, hitem, hname⟩)
      simp only [List.map_cons, aggregateGroups, hgroup,
        ih fun g hg => hin g (List.mem_cons_of_mem _ hg)]
  rw [execAggregate_groupsIn, execAggregate_groupsIn,
    groupsIn_map fun row hrow name hname => h row hrow name (Or.inl hname)]
  cases hin : groupsIn groupBy rows with
  | error e => rfl
  | ok groups =>
    exact hgroups groups fun group hg row hrow =>
      (groupsIn_perm hin).subset (List.mem_flatMap.mpr ⟨group, hg, hrow⟩)

end

/-! ## The projected rows -/

section

variable [PyText] {py : Python} {items : List AggregateItem} {row : RowDict}

namespace AggregateItem

omit [PyText] in
theorem text_ne (py : Python) (f : AggregateFn) (arg : Expr) {s : String} (h : s.toList.length < 2) :
    f.name ++ "(" ++ argText py arg ++ ")" ≠ s := by
  rintro rfl
  rw [toList_literal] at h
  simp only [List.length_append, List.length_singleton] at h
  omega

omit [PyText] in
theorem parsed_asSelect (py : Python) (item : AggregateItem) :
    (item.asSelect py).parsed = item.parsed py := by
  cases item with
  | column table name => rfl
  | call f arg =>
    rw [asSelect, SelectItem.parsed, if_neg]
    · rfl
    · intro h
      exact text_ne py f arg (by decide) (Value.text.inj h)

omit [PyText] in
theorem parsed_ne_star (py : Python) (item : AggregateItem) : item.parsed py ≠ .star := by
  cases item with
  | column table name => cases table <;> nofun
  | call f arg => nofun

end AggregateItem

/-- The row that `_project_row` makes of a list of aggregates. -/
def projected (py : Python) (items : List AggregateItem) (row : RowDict) : RowDict :=
  (items.map (AggregateItem.asSelect py)).foldl
    (fun out item => out.set item.key (item.written row)) OrdDict.empty

theorem projectRow_aggregates (py : Python) (items : List AggregateItem) (row : RowDict) :
    projectRow (items.map (AggregateItem.parsed py)) row = .ok (projected py items row) := by
  have hparsed : items.map (AggregateItem.parsed py) =
      (items.map (AggregateItem.asSelect py)).map SelectItem.parsed := by
    rw [List.map_map]
    exact List.map_congr_left fun item _ => (AggregateItem.parsed_asSelect py item).symm
  rw [hparsed, projectRow, projectFrom_parsed]
  · rfl
  · intro i hi
    obtain ⟨item, -, rfl⟩ := List.mem_map.mp hi
    rw [AggregateItem.parsed_asSelect]
    exact item.parsed_ne_star py
  · intro i hi raw he
    obtain ⟨item, -, rfl⟩ := List.mem_map.mp hi
    cases item with
    | column table name => cases he
    | call f arg =>
      exact AggregateItem.text_ne py f arg (by decide) (Value.text.inj (SelectItem.literal.inj he).1)

theorem find_projected (name : String) :
    (projected py items row).find name = leftUnder py items row name := by
  rw [RowDict.find, projected, get?_foldl_items, OrdDict.get?_empty, Option.or_none]
  rfl

variable {db : Database} {entry : TableMeta} {stmt : Select} {rows : List RowDict}

theorem returned_aggregates (hparsed : stmt.projections = items.map (AggregateItem.parsed py)) :
    returned stmt true rows = .ok (rows.map (projected py items)) := by
  have hstar : hasStar stmt.projections = false := by
    rw [hparsed, hasStar, List.any_map, List.any_eq_false]
    exact fun item _ => by simpa using item.parsed_ne_star py
  simp only [returned, Bool.true_eq_false, Bool.false_eq_true, if_false, hstar]
  rw [projectRows_eq_ok, List.forall₂_map_right_iff, hparsed, List.forall₂_same]
  exact fun row _ => projectRow_aggregates py items row

theorem selectedRows_idle (hjoins : stmt.joins ≠ [])
    (hrows : selectedRows db.store db.catalog entry stmt.bare = .ok rows)
    (hidle : ClausesIdle stmt rows) : selectedRows db.store db.catalog entry stmt = .ok rows := by
  have hbare : stmt.bare.joins ≠ [] := hjoins
  rw [selectedRows, if_neg hbare] at hrows
  simp only [bind_eq_ok, sortRows, Except.ok.injEq, Select.bare] at hrows
  obtain ⟨u, hresolve, lefts, hscan, joined, hjoin, kept, hkept, _, rfl, hall⟩ := hrows
  obtain rfl : kept = rows := by simpa [limitRows] using hall
  simp only [selectedRows, if_neg hjoins, hresolve, hscan, hjoin, hkept, ok_bind, hidle.order,
    hidle.limit]

/-- The aggregation gets the projected rows. -/
theorem dispatchSelect_joined (h : AggregatesJoin py items stmt)
    (hentry : db.catalog.getTable stmt.table = .ok entry)
    (hrows : selectedRows db.store db.catalog entry stmt.bare = .ok rows)
    (hidle : ClausesIdle stmt rows) : db.dispatchSelect stmt = (do
      let out ← execAggregate (rows.map (projected py items)) stmt.projections stmt.groupBy
      .ok (.rows out)) := by
  simp only [dispatchSelect, hentry, ok_bind, h.aggregates, if_true,
    execSelect_joined h.joins, selectedRows_idle h.joins hrows hidle, returned_aggregates h.parsed]

end

/-! ## Dropped columns -/

section

variable {rows : List RowDict} {vals : List Value} {name : String}

theorem numsOf_eq_ok : numsOf name rows = .ok vals ↔
    List.Forall₂ (fun row v => num (row.find name) = .ok v) rows vals := by
  induction rows generalizing vals with
  | nil => rw [List.forall₂_nil_left_iff, numsOf, Except.ok.injEq, eq_comm]
  | cons row rows ih =>
    simp only [numsOf, bind_eq_ok, Except.ok.injEq, List.forall₂_cons_left_iff, ih]
    constructor
    · rintro ⟨v, hv, rest, hrest, rfl⟩
      exact ⟨v, rest, hv, hrest, rfl⟩
    · rintro ⟨v, rest, hv, hrest, rfl⟩
      exact ⟨v, hv, rest, hrest, rfl⟩

/-- A sum that is the integer 0 has added up nothing else. -/
theorem sumNums_eq_zero (hnum : ∀ v ∈ vals, IsNum v) :
    sumNums vals = .int 0 ↔ ∀ v ∈ vals, v = .int 0 := by
  have hfloat : ∀ (l : List Value) (f : Binary64), (∀ v ∈ l, IsNum v) →
      ∃ g, l.foldl addNum (.float f) = .float g := by
    intro l
    induction l with
    | nil => exact fun f _ => ⟨f, rfl⟩
    | cons v l ih =>
      intro f hl
      rcases hl v (List.mem_cons_self ..) with rfl | ⟨g, rfl⟩
      · exact ih _ fun w hw => hl w (List.mem_cons_of_mem _ hw)
      · exact ih _ fun w hw => hl w (List.mem_cons_of_mem _ hw)
  induction vals with
  | nil => exact iff_of_true rfl fun _ h => absurd h List.not_mem_nil
  | cons v vals ih =>
    have hrest : ∀ w ∈ vals, IsNum w := fun w hw => hnum w (List.mem_cons_of_mem _ hw)
    have hiff := ih hrest
    rw [List.forall_mem_cons]
    rcases hnum v (List.mem_cons_self ..) with rfl | ⟨f, rfl⟩
    · exact ⟨fun h => ⟨rfl, hiff.mp h⟩, fun h => hiff.mpr h.2⟩
    · obtain ⟨g, hg⟩ := hfloat vals ((Binary64.ofInt 0).add f) hrest
      have hsum : sumNums (.float f :: vals) = .float g := hg
      rw [hsum]
      exact iff_of_false nofun fun h => nomatch h.1

theorem num_eq_zero {v : Value} (h : num v = .ok (.int 0)) : v = .null := by
  cases v with
  | null => rfl
  | text s =>
    rw [num] at h
    split at h <;> cases h
  | int _ | float _ | bool _ => cases h

theorem pyEq_of_key {groupBy : List Expr} {first row : RowDict}
    (h : Value.pyEqAll (plainKey groupBy first) (plainKey groupBy row) = true)
    (hin : .column name ∈ groupBy) : (first.find name).pyEq (row.find name) = true := by
  induction groupBy with
  | nil => exact absurd hin List.not_mem_nil
  | cons e groupBy ih =>
    simp only [plainKey, List.map_cons, Value.pyEqAll, Bool.and_eq_true] at h
    rcases List.mem_cons.mp hin with rfl | hin
    · exact h.1
    · exact ih h.2 hin

end

section

variable {py : Python} {items : List AggregateItem} {groupBy : List Expr} {rows out : List RowDict}
  {f : RowDict → RowDict} {name : String}

/-- The group of a row, and the group of the mapped rows with the same output row. -/
theorem exists_groups {P Q : List Value × List RowDict → RowDict → Prop}
    {groups groups' : List (List Value × List RowDict)} (hgroups : groupsIn groupBy rows = .ok groups)
    (h : List.Forall₂ P groups out) (h' : List.Forall₂ Q groups' out) {row : RowDict}
    (hrow : row ∈ rows) : ∃ group ∈ groups, ∃ group' ∈ groups', ∃ outRow,
      row ∈ group.2 ∧ P group outRow ∧ Q group' outRow := by
  obtain ⟨group, hg, hin⟩ := List.mem_flatMap.mp ((groupsIn_perm hgroups).symm.subset hrow)
  obtain ⟨pairs, rfl, rfl, hboth⟩ := forall₂_pairs h h'
  obtain ⟨p, hp, rfl⟩ := List.mem_map.mp hg
  obtain ⟨outRow, hP, hQ⟩ := hboth p hp
  exact ⟨p.1, hg, p.2, List.mem_map_of_mem hp, outRow, hin, hP, hQ⟩

theorem null_of_group {projections : List Expr} (hnull : ∀ row ∈ rows, (f row).find name = .null)
    (hfull : execAggregate rows projections groupBy = .ok out)
    (hmap : execAggregate (rows.map f) projections groupBy = .ok out)
    (hin : .column name ∈ groupBy) : ∀ row ∈ rows, row.find name = .null := by
  intro row hrow
  obtain ⟨groups, hgroups, hout⟩ := execAggregate_eq_ok.mp hfull
  obtain ⟨groups', hgroups', hout'⟩ := execAggregate_eq_ok.mp hmap
  obtain ⟨group, hg, group', hg', outRow, hmem, ⟨agg, -, rfl⟩, agg', -, hsame⟩ :=
    exists_groups hgroups hout hout' hrow
  obtain ⟨first, hkey, hfirst⟩ := groupsIn_named hgroups group hg
  obtain ⟨first', hkey', hfirst'⟩ := groupsIn_named hgroups' group' hg'
  obtain ⟨rest, hrows, heq⟩ := hfirst (List.ne_nil_of_mem hin)
  obtain ⟨rest', hrows', -⟩ := hfirst' (List.ne_nil_of_mem hin)
  -- the output row shows the value of the first row of either group
  have hshown := congrArg (fun d : RowDict => d.get? name) hsame
  simp only [hkey, hkey', get?_setGroupKeys, if_pos hin, Option.some.injEq] at hshown
  have hmem' : first' ∈ rows.map f := (groupsIn_perm hgroups').subset
    (List.mem_flatMap.mpr ⟨group', hg', hrows' ▸ List.mem_cons_self ..⟩)
  obtain ⟨r, hr, rfl⟩ := List.mem_map.mp hmem'
  rw [hnull r hr] at hshown
  rw [hrows] at hmem
  rcases List.mem_cons.mp hmem with rfl | hrest
  · exact hshown
  · have hpy := pyEq_of_key (hkey ▸ heq row hrest) hin
    rw [hshown, pyEq_null] at hpy
    exact of_decide_eq_true hpy

theorem null_of_sum (hnull : ∀ row ∈ rows, (f row).find name = .null)
    (hfull : execAggregate rows (items.map (AggregateItem.parsed py)) groupBy = .ok out)
    (hmap : execAggregate (rows.map f) (items.map (AggregateItem.parsed py)) groupBy = .ok out)
    (hapart : NamesApart items groupBy) (hin : .call .sum (.column name) ∈ items) :
    ∀ row ∈ rows, row.find name = .null := by
  intro row hrow
  have hcolumns : OwnColumns py items groupBy := ownColumns_of_apart hapart
  obtain ⟨names, -, hown⟩ := hcolumns
  obtain ⟨groups, hgroups, hout⟩ := hown rows out hfull
  obtain ⟨groups', hgroups', hout'⟩ := hown _ out hmap
  obtain ⟨group, hg, group', hg', outRow, hmem, hitems, hitems'⟩ :=
    exists_groups hgroups hout hout' hrow
  obtain ⟨i, hi, hitem⟩ := List.getElem_of_mem hin
  have hcarries := hitems.get hi (hitems.length_eq ▸ hi)
  have hcarries' := hitems'.get hi (hitems'.length_eq ▸ hi)
  simp only [List.get_eq_getElem, hitem, AggregateItem.Carries, AggregateItem.value, argNums_column,
    bind_eq_ok, Except.ok.injEq] at hcarries hcarries'
  obtain ⟨_, ⟨vals, hvals, rfl⟩, hget⟩ := hcarries
  obtain ⟨_, ⟨vals', hvals', rfl⟩, hget'⟩ := hcarries'
  have hsum : sumNums vals = sumNums vals' := Option.some.inj (hget.symm.trans hget')
  have hnums := numsOf_eq_ok.mp hvals
  have hnums' := numsOf_eq_ok.mp hvals'
  have hisNum : ∀ v ∈ vals, IsNum v := by
    intro v hv
    obtain ⟨_, _, h⟩ := exists_of_mem_right hnums hv
    exact isNum_num h
  have hzero : ∀ v ∈ vals', v = .int 0 := by
    intro v hv
    obtain ⟨r', hr', hv'⟩ := exists_of_mem_right hnums' hv
    have hmem' : r' ∈ rows.map f :=
      (groupsIn_perm hgroups').subset (List.mem_flatMap.mpr ⟨group', hg', hr'⟩)
    obtain ⟨r, hr, rfl⟩ := List.mem_map.mp hmem'
    rw [hnull r hr] at hv'
    exact (Except.ok.inj hv').symm
  rw [(sumNums_eq_zero fun v hv => Or.inl (hzero v hv)).mpr hzero] at hsum
  obtain ⟨v, hv, hrowv⟩ := exists_of_mem_left hnums hmem
  rw [(sumNums_eq_zero hisNum).mp hsum v hv] at hrowv
  exact num_eq_zero hrowv

end

/-! ## The joined rows -/

section

variable [PyText] {py : Python} {items : List AggregateItem} {db : Database} {entry : TableMeta}
  {stmt : Select} {rows : List RowDict}

theorem aggregatesRows_of_kept (h : AggregatesJoin py items stmt)
    (hentry : db.catalog.getTable stmt.table = .ok entry)
    (hrows : selectedRows db.store db.catalog entry stmt.bare = .ok rows)
    (hidle : ClausesIdle stmt rows) (hkept : LookupsKept py items stmt.groupBy rows) :
    AggregatesRows db stmt rows := by
  rw [AggregatesRows, dispatchSelect_joined h hentry hrows hidle, h.parsed,
    execAggregate_map fun row hrow name hname => ?_]
  rw [find_projected]
  exact hkept row hrow name hname

theorem kept_of_aggregatesRows (h : AggregatesJoin py items stmt)
    (hentry : db.catalog.getTable stmt.table = .ok entry)
    (hrows : selectedRows db.store db.catalog entry stmt.bare = .ok rows)
    (hidle : ClausesIdle stmt rows) (hplain : PlainList py items stmt.groupBy) {out : List RowDict}
    (hout : execAggregate rows stmt.projections stmt.groupBy = .ok out)
    (hsame : AggregatesRows db stmt rows) : LookupsKept py items stmt.groupBy rows := by
  rw [AggregatesRows, dispatchSelect_joined h hentry hrows hidle, hout, ok_bind, bind_eq_ok] at hsame
  obtain ⟨_, hmap, hret⟩ := hsame
  obtain rfl := Returned.rows.inj (Except.ok.inj hret)
  rw [h.parsed] at hmap hout
  intro row hrow name hname
  cases hlast : (writersOf py items name).getLast? with
  | some item =>
    rw [leftUnder, hlast, hplain.writers name hname item hlast]
    rfl
  | none =>
    have hleft : ∀ r, leftUnder py items r name = .null := fun r => by rw [leftUnder, hlast]; rfl
    have hnull : ∀ r ∈ rows, (projected py items r).find name = .null := fun r _ =>
      (find_projected name).trans (hleft r)
    rw [hleft]
    symm
    rcases hname with hgroup | ⟨item, hitem, hlook⟩
    · exact null_of_group hnull hout hmap hgroup row hrow
    · cases item with
      | column table col =>
        cases table with
        | some table => exact absurd hlook List.not_mem_nil
        | none =>
          -- a column of the list writes its own name
          obtain rfl := List.mem_singleton.mp hlook
          have hwriter : SelectItem.column none name ∈ writersOf py items name :=
            List.mem_filter.mpr ⟨List.mem_map_of_mem hitem, decide_eq_true rfl⟩
          rw [List.getLast?_eq_none_iff] at hlast
          rw [hlast] at hwriter
          exact absurd hwriter List.not_mem_nil
      | call fn arg =>
        cases fn with
        | count => exact absurd hlook List.not_mem_nil
        | avg => exact absurd hitem (hplain.noAvg arg)
        | sum =>
          obtain ⟨col, rfl⟩ : ∃ col, arg = .column col := hplain.apart.plain _ hitem
          obtain rfl : name = col := List.mem_singleton.mp hlook
          exact null_of_sum hnull hout hmap hplain.apart hitem row hrow

/-- **Aggregates of a join.** The joined rows are aggregated themselves if the list leaves every
value that is looked up, and for a plain list whose aggregates exist exactly then. -/
theorem aggregatesJoined_iff (h : AggregatesJoin py items stmt)
    (hentry : db.catalog.getTable stmt.table = .ok entry)
    (hrows : selectedRows db.store db.catalog entry stmt.bare = .ok rows)
    (hidle : ClausesIdle stmt rows) :
    (LookupsKept py items stmt.groupBy rows → AggregatesRows db stmt rows) ∧
    (PlainList py items stmt.groupBy →
      (execAggregate rows stmt.projections stmt.groupBy).isOk = true →
      (AggregatesRows db stmt rows ↔ LookupsKept py items stmt.groupBy rows)) := by
  have hkept := aggregatesRows_of_kept h hentry hrows hidle
  refine ⟨hkept, fun hplain hok => ⟨fun hsame => ?_, hkept⟩⟩
  cases hout : execAggregate rows stmt.projections stmt.groupBy with
  | error e =>
    rw [hout] at hok
    cases hok
  | ok out => exact kept_of_aggregatesRows h hentry hrows hidle hplain hout hsame

end

/-! ## A join of one row -/

namespace Database

/-- `CREATE TABLE t (a INT)`, `CREATE TABLE u (b INT)` and a row 1 in each. -/
def onePair : Database :=
  newDatabase [.createTable { name := "t", columns := [⟨"a", "INT", []⟩] },
    .createTable { name := "u", columns := [⟨"b", "INT", []⟩] },
    .insert ⟨"t", none, [[.int 1]]⟩, .insert ⟨"u", none, [[.int 1]]⟩]

def pairEntry : TableMeta := { name := "t", rootPageId := 1, schema := [("a", .int)] }

def pairRow : RowDict :=
  OrdDict.ofList [("a", .int 1), ("rowid", .int 1), ("b", .int 1), ("u.rowid", .int 1)]

/-- The items FROM `t INNER JOIN u ON t.a = u.b`. -/
def overPair (items : List AggregateItem) : Select :=
  { projections := items.map (AggregateItem.parsed Python.asciiTables), table := "t",
    joins := [⟨.inner, "u", none,
      some (.binaryOp .eq (.qualifiedColumn "t" "a") (.qualifiedColumn "u" "b"))⟩] }

/-- `SELECT a, SUM(a)`. -/
def columnAndSum : List AggregateItem := [.column none "a", .call .sum (.column "a")]

/-- `SELECT SUM(a)`. -/
def sumAlone : List AggregateItem := [.call .sum (.column "a")]

theorem onePair_table : onePair.catalog.getTable "t" = .ok pairEntry := by decide +kernel

theorem columnAndSum_join : AggregatesJoin Python.asciiTables columnAndSum (overPair columnAndSum) :=
  ⟨by decide, rfl, by decide +kernel⟩

/-- `SELECT a, SUM(a) FROM t INNER JOIN u ON t.a = u.b`. -/
theorem columnAndSum_pair : AggregatesRows onePair (overPair columnAndSum) [pairRow] := by
  refine (aggregatesJoined_iff columnAndSum_join onePair_table (by decide +kernel)
    ⟨rfl, rfl⟩).1 ?_
  rintro row hrow name (hgroup | ⟨item, hitem, hname⟩)
  · cases hgroup
  · obtain rfl := List.mem_singleton.mp hrow
    fin_cases hitem
    all_goals
      obtain rfl := List.mem_singleton.mp hname
      decide +kernel

/-- `SELECT SUM(a)` of the same rows is 0. -/
theorem sumAlone_pair :
    selectedRows onePair.store onePair.catalog pairEntry (overPair sumAlone).bare = .ok [pairRow] ∧
      onePair.dispatchSelect (overPair sumAlone) =
        .ok (.rows [OrdDict.ofList [("sum", .int 0)]]) ∧
      execAggregate [pairRow] (overPair sumAlone).projections [] =
        .ok [OrdDict.ofList [("sum", .float (Binary64.ofInt 1))]] ∧
      ¬ AggregatesRows onePair (overPair sumAlone) [pairRow] := by
  have hrows : selectedRows onePair.store onePair.catalog pairEntry (overPair sumAlone).bare =
      .ok [pairRow] := by decide +kernel
  have hone : execAggregate [pairRow] (overPair sumAlone).projections [] =
      .ok [OrdDict.ofList [("sum", .float (Binary64.ofInt 1))]] := by decide +kernel
  have hleft : execAggregate ([pairRow].map (projected Python.asciiTables sumAlone))
      (overPair sumAlone).projections [] = .ok [OrdDict.ofList [("sum", .int 0)]] := by
    decide +kernel
  have hjoin : AggregatesJoin Python.asciiTables sumAlone (overPair sumAlone) :=
    ⟨by decide, rfl, by decide +kernel⟩
  have hgroup : (overPair sumAlone).groupBy = [] := rfl
  have hzero : onePair.dispatchSelect (overPair sumAlone) =
      .ok (.rows [OrdDict.ofList [("sum", .int 0)]]) := by
    rw [dispatchSelect_joined hjoin onePair_table hrows ⟨rfl, rfl⟩, hgroup, hleft]
    rfl
  refine ⟨hrows, hzero, hone, fun hsame => ?_⟩
  rw [AggregatesRows, hgroup, hone, hzero] at hsame
  cases hsame

end Database

end TinyDB
