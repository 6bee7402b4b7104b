import TinyDB.AggregateColumns

/-!
# ORDER BY, LIMIT and OFFSET of an aggregate

`_dispatch` aggregates what `exec_select` returns, and that has been sorted and cut already.
`appliedLast_iff`: if LIMIT and OFFSET cut off neither a row that satisfies WHERE nor the one
row of an aggregate without GROUP BY, and the sort does no harm, all rows are aggregated and
the result is ordered and cut; and LIMIT and OFFSET may cut off nothing else.
-/

namespace TinyDB

open Lib Database

/-! ## How many rows there are -/

theorem length_limitRows {α : Type} (limit offset : Option Nat) (l : List α) :
    (limitRows limit offset l).length =
      (match limit with
        | none => l.length - offset.getD 0
        | some n => min n (l.length - offset.getD 0)) := by
  cases limit with
  | none => exact List.length_drop
  | some n => simp only [limitRows, List.length_take, List.length_drop]

theorem limitRows_eq_self {α : Type} {limit offset : Option Nat} {l : List α}
    (hoffset : offset.getD 0 = 0 ∨ l = []) (hlimit : ∀ n, limit = some n → l.length ≤ n) :
    limitRows limit offset l = l := by
  have hdrop : l.drop (offset.getD 0) = l := by
    rcases hoffset with h | rfl
    · rw [h, List.drop_zero]
    · exact List.drop_nil
  cases limit with
  | none => exact hdrop
  | some n => rw [limitRows, hdrop, List.take_of_length_le (hlimit n rfl)]

theorem cutsNothing_of_length {α : Type} {limit offset : Option Nat} {l : List α}
    (h : (limitRows limit offset l).length = l.length) :
    (offset.getD 0 = 0 ∨ l.length = 0) ∧ ∀ n, limit = some n → l.length ≤ n := by
  rw [length_limitRows] at h
  cases limit with
  | none =>
    simp only at h
    exact ⟨by omega, nofun⟩
  | some m =>
    simp only at h
    refine ⟨by omega, fun n hn => ?_⟩
    obtain rfl := Option.some.inj hn
    omega

/-- There are no more groups than rows. -/
theorem length_groupsOf_le (groupBy : List Expr) (dicts : List RowDict) :
    (groupsOf groupBy dicts).length ≤ dicts.length := by
  induction dicts using List.reverseRecOn with
  | nil => exact Nat.le_refl _
  | append_singleton dicts row ih =>
    rw [groupsOf, List.foldl_concat, List.length_append, List.length_singleton, ← groupsOf]
    rcases Buckets.add_cases Value.pyEqAll (plainKey groupBy row) row (groupsOf groupBy dicts) with
      ⟨front, bucket, back, heq, -, hadd⟩ | ⟨-, hadd⟩
    · rw [heq] at ih
      rw [hadd]
      simp only [List.length_append, List.length_cons] at ih ⊢
      omega
    · rw [hadd, List.length_append, List.length_singleton]
      omega

theorem length_execAggregate {dicts out : List RowDict} {projections groupBy : List Expr}
    (h : execAggregate dicts projections groupBy = .ok out) :
    (groupBy = [] → out.length = 1) ∧ (groupBy ≠ [] → out.length ≤ dicts.length) := by
  obtain ⟨groups, hgroups, hout⟩ := execAggregate_eq_ok.mp h
  have hlen := hout.length_eq
  rw [groupsIn] at hgroups
  refine ⟨fun he => ?_, fun hne => ?_⟩
  · rw [if_pos he, Except.ok.injEq] at hgroups
    rw [← hlen, ← hgroups]
    rfl
  · rw [if_neg hne] at hgroups
    rw [← hlen, (sorted_perm hgroups).length_eq]
    exact length_groupsOf_le groupBy dicts

/-! ## Sorting before grouping -/

section

variable {groupBy : List Expr} {dicts dicts' : List RowDict} {name : String}

/-- Lists with the same rows for each key have the same groups. -/
theorem groupsOf_subset
    (hself : ∀ row ∈ dicts, Value.pyEqAll (plainKey groupBy row) (plainKey groupBy row) = true)
    (hself' : ∀ row ∈ dicts', Value.pyEqAll (plainKey groupBy row) (plainKey groupBy row) = true)
    (hmem : ∀ row ∈ dicts, row ∈ dicts')
    (hsame : ∀ f ∈ dicts,
      (dicts.filter fun row => Value.pyEqAll (plainKey groupBy f) (plainKey groupBy row)) =
        dicts'.filter fun row => Value.pyEqAll (plainKey groupBy f) (plainKey groupBy row)) :
    ∀ group ∈ groupsOf groupBy dicts, group ∈ groupsOf groupBy dicts' := by
  have hgroups := groups_of hself
  have hgroups' := groups_of hself'
  intro group hg
  obtain ⟨f, rest, hrows, hkey⟩ := hgroups.named group hg
  have hbucket := hgroups.bucket group hg
  have hf : f ∈ dicts := by
    have hin : f ∈ group.2 := hrows ▸ List.mem_cons_self ..
    rw [hbucket] at hin
    exact List.mem_of_mem_filter hin
  obtain ⟨group', hg', hkey'⟩ := hgroups'.covers f (hmem f hf)
  obtain ⟨f', rest', hrows', hfirst'⟩ := hgroups'.named group' hg'
  have hrest : group'.2 = group.2 := by
    rw [hgroups'.bucket group' hg', hbucket, hkey, hsame f hf]
    refine List.filter_congr fun row _ => Bool.eq_iff_iff.mpr ⟨fun h => ?_, fun h => ?_⟩
    · exact Value.pyEqAll_trans (partialEquiv_pyEqAll.symm _ _ hkey') h
    · exact Value.pyEqAll_trans hkey' h
  obtain rfl : f' = f := by
    rw [hrows, hrows'] at hrest
    exact (List.cons.inj hrest).1
  rwa [show group = group' from Prod.ext (hkey.trans hfirst'.symm) hrest.symm]

theorem nodup_groupsOf
    (hself : ∀ row ∈ dicts, Value.pyEqAll (plainKey groupBy row) (plainKey groupBy row) = true) :
    (groupsOf groupBy dicts).Nodup := by
  have hgroups := groups_of hself
  apply hgroups.apart.imp_of_mem
  rintro b c hb - hbc rfl
  obtain ⟨f, rest, hrows, hkey⟩ := hgroups.named b hb
  have hin : f ∈ b.2 := hrows ▸ List.mem_cons_self ..
  rw [hgroups.bucket b hb] at hin
  rw [hkey, hself f (List.mem_of_mem_filter hin)] at hbc
  cases hbc

/-- The sort of ORDER BY by a column. -/
abbrev byColumn (name : String) : RowDict → RowDict → Bool := firstLess ⟨.column name, .asc⟩ id

/-- A sort by the first column of the key leaves the rows of a group as they are. -/
theorem groupsIn_sorted
    (hself : ∀ row ∈ dicts, Value.pyEqAll (plainKey (.column name :: groupBy) row)
      (plainKey (.column name :: groupBy) row) = true)
    (hweak : WeakOrderOn (byColumn name) dicts) {groups : List (List Value × List RowDict)}
    (h : groupsIn (.column name :: groupBy) dicts = .ok groups) :
    groupsIn (.column name :: groupBy) (sortStable (byColumn name) dicts) = .ok groups := by
  have hperm := sortStable_perm (byColumn name) dicts
  have hself' : ∀ row ∈ sortStable (byColumn name) dicts,
      Value.pyEqAll (plainKey (.column name :: groupBy) row)
        (plainKey (.column name :: groupBy) row) = true := fun row hrow =>
    hself row (hperm.subset hrow)
  have hstay : ∀ f, ((sortStable (byColumn name) dicts).filter fun row =>
      Value.pyEqAll (plainKey (.column name :: groupBy) f) (plainKey (.column name :: groupBy) row)) =
        dicts.filter fun row => Value.pyEqAll (plainKey (.column name :: groupBy) f)
          (plainKey (.column name :: groupBy) row) := by
    intro f
    refine filter_sortStable hweak _ fun a _ b _ ha hb => firstLess_eq_false ?_
    have hab := Value.pyEqAll_trans (partialEquiv_pyEqAll.symm _ _ ha) hb
    exact (Bool.and_eq_true_iff.mp hab).1
  rw [groupsIn, if_neg (List.cons_ne_nil _ _)] at h ⊢
  obtain ⟨hgroups, hstrict⟩ := groups_strict hself h
  have hsame : (groupsOf (.column name :: groupBy) (sortStable (byColumn name) dicts)).Perm
      (groupsOf (.column name :: groupBy) dicts) := by
    refine (List.perm_ext_iff_of_nodup (nodup_groupsOf hself') (nodup_groupsOf hself)).mpr
      fun group => ⟨?_, ?_⟩
    · exact groupsOf_subset hself' hself (fun row => hperm.subset (a := row))
        (fun f _ => hstay f) group
    · exact groupsOf_subset hself hself' (fun row => hperm.symm.subset (a := row))
        (fun f _ => (hstay f).symm) group
  have hpair : (groupsOf (.column name :: groupBy) (sortStable (byColumn name) dicts)).Pairwise
      fun b c => groupLt b c = .ok true ∨ groupLt c b = .ok true :=
    ((hsame.trans hgroups.symm).pairwise_iff fun hbc => hbc.symm).mpr (hstrict.imp Or.inl)
  obtain ⟨groups', hsort', hperm', hstrict'⟩ := sorted_groups hpair
  rw [hsort', Except.ok.injEq]
  refine @List.Perm.eq_of_pairwise _ (fun b c => groupLt b c = .ok true) _ _ ?_ hstrict' hstrict
    (hperm'.trans (hsame.trans hgroups.symm))
  intro b c _ _ hbc hcb
  cases (keyLt_asymm hbc).symm.trans hcb

end

section

variable [PyText]

/-! ## The statement -/

/-- The same query without ORDER BY, LIMIT and OFFSET. -/
def Select.bare (stmt : Select) : Select :=
  { stmt with orderBy := [], limit := none, offset := none }

/-- The rows that satisfy WHERE. -/
def rowsWhere (store : FileStore) (entry : TableMeta) (stmt : Select) :
    Except PyErr (List (Nat × Row)) := do
  let rows ← Heap.scan ⟨entry.rootPageId, entry.schema⟩ store
  filterRaising (fun row => evalWhere (dictOf entry row) stmt.where') rows

/-- An aggregate SELECT on one table. -/
structure AggregatesTable (stmt : Select) : Prop where
  joins : stmt.joins = []
  aggregates : (decide (stmt.groupBy ≠ []) || hasAggregate stmt.projections) = true

/-- All rows that satisfy WHERE are handed to the aggregation, and the clauses are applied to
what the query without them returns. -/
structure AppliedLast (db : Database) (entry : TableMeta) (rows : List (Nat × Row))
    (stmt : Select) (bare : List RowDict) : Prop where
  handed : ∃ dicts, execSelect db.store db.catalog entry stmt false = .ok dicts ∧
    dicts.Perm (rows.map (dictOf entry))
  result : db.dispatchSelect stmt = (do
    let out ← sortRows stmt.orderBy id bare
    .ok (.rows (limitRows stmt.limit stmt.offset out)))

/-- LIMIT and OFFSET cut off no row that satisfies WHERE, and not the row that an aggregate
without GROUP BY has even for no rows. -/
structure CutsNothing (rows : List (Nat × Row)) (stmt : Select) : Prop where
  offset : stmt.offset.getD 0 = 0 ∨ rows = []
  limit : ∀ n, stmt.limit = some n → rows.length ≤ n
  single : stmt.groupBy = [] → stmt.offset.getD 0 = 0 ∧ stmt.limit ≠ some 0

/-- There is no ORDER BY, or the rows of an aggregate without GROUP BY are in its order, or it
is ascending by the first GROUP BY column and the sort does not raise. -/
def SortHarmless (entry : TableMeta) (rows : List (Nat × Row)) (stmt : Select) : Prop :=
  stmt.orderBy = [] ∨
    (stmt.groupBy = [] ∧ (∀ item ∈ stmt.orderBy.head?, item.expr.isColumnRef = true) ∧
      sortRows stmt.orderBy (dictOf entry) rows = .ok rows) ∨
    ∃ name groupBy orderBy, stmt.groupBy = .column name :: groupBy ∧
      stmt.orderBy = ⟨.column name, .asc⟩ :: orderBy ∧
      (∃ kept, sortRows stmt.orderBy (dictOf entry) rows = .ok kept) ∧
      ∀ row ∈ rows, Value.pyEqAll (plainKey stmt.groupBy (dictOf entry row))
        (plainKey stmt.groupBy (dictOf entry row)) = true

/-! ## The stages -/

variable {db : Database} {entry : TableMeta} {rows : List (Nat × Row)} {stmt : Select}
  {bare : List RowDict}

theorem execSelect_where (hjoins : stmt.joins = [])
    (hrows : rowsWhere db.store entry stmt = .ok rows) :
    execSelect db.store db.catalog entry stmt false = (do
      let kept ← sortRows stmt.orderBy (dictOf entry) rows
      .ok ((limitRows stmt.limit stmt.offset kept).map (dictOf entry))) := by
  rw [rowsWhere, bind_eq_ok] at hrows
  obtain ⟨scanned, hscan, hfilter⟩ := hrows
  rw [execSelect, if_pos hjoins, execSingleTable, hscan, ok_bind]
  have hfilter' : filterRaising (fun row => evalWhere (rowToDict entry.schema row.2 row.1)
      stmt.where') scanned = .ok rows := hfilter
  simp only [hfilter', ok_bind]
  rfl

theorem dispatchSelect_where (h : AggregatesTable stmt)
    (hentry : db.catalog.getTable stmt.table = .ok entry)
    (hrows : rowsWhere db.store entry stmt = .ok rows) : db.dispatchSelect stmt = (do
      let kept ← sortRows stmt.orderBy (dictOf entry) rows
      let out ← execAggregate ((limitRows stmt.limit stmt.offset kept).map (dictOf entry))
        stmt.projections stmt.groupBy
      .ok (.rows out)) := by
  simp only [dispatchSelect, hentry, ok_bind, h.aggregates, Bool.not_true,
    execSelect_where h.joins hrows, if_true]
  cases sortRows stmt.orderBy (dictOf entry) rows <;> rfl

theorem dispatchSelect_bare (h : AggregatesTable stmt)
    (hentry : db.catalog.getTable stmt.table = .ok entry)
    (hrows : rowsWhere db.store entry stmt = .ok rows) :
    db.dispatchSelect stmt.bare = .ok (.rows bare) ↔
      execAggregate (rows.map (dictOf entry)) stmt.projections stmt.groupBy = .ok bare := by
  have hbare : AggregatesTable stmt.bare := ⟨h.joins, h.aggregates⟩
  have hrows' : rowsWhere db.store entry stmt.bare = .ok rows := hrows
  rw [dispatchSelect_where hbare hentry hrows']
  simp only [Select.bare, sortRows, ok_bind, limitRows, Option.getD_none, List.drop_zero,
    bind_eq_ok, Except.ok.injEq, Returned.rows.injEq, exists_eq_right]

omit [PyText] in
/-- What cuts off no row that satisfies WHERE cuts off no output row. -/
theorem limitRows_bare (hcut : CutsNothing rows stmt)
    (hbare : execAggregate (rows.map (dictOf entry)) stmt.projections stmt.groupBy = .ok bare) :
    limitRows stmt.limit stmt.offset bare = bare := by
  obtain ⟨hone, hmany⟩ := length_execAggregate hbare
  by_cases hgroup : stmt.groupBy = []
  · obtain ⟨hoffset, hlimit⟩ := hcut.single hgroup
    refine limitRows_eq_self (Or.inl hoffset) fun n hn => ?_
    rw [hone hgroup]
    cases n with
    | zero => exact absurd hn hlimit
    | succ n => exact Nat.succ_le_succ (Nat.zero_le n)
  · have hle := hmany hgroup
    rw [List.length_map] at hle
    refine limitRows_eq_self (hcut.offset.imp_right fun h => ?_) fun n hn =>
      hle.trans (hcut.limit n hn)
    rw [h] at hle
    exact List.length_eq_zero_iff.mp (Nat.le_zero.mp hle)

/-! ## Ordering the output -/

omit [PyText] in
/-- Groups in the order of their keys are in the order of the first column. -/
theorem sortRows_bare {dicts : List RowDict} {projections groupBy : List Expr} {name : String}
    {orderBy : List OrderItem}
    (hcompare : dicts.Pairwise fun x y => ∃ b, (y.find name).pyLt (x.find name) = .ok b)
    (hself : ∀ row ∈ dicts, Value.pyEqAll (plainKey (.column name :: groupBy) row)
      (plainKey (.column name :: groupBy) row) = true)
    (hbare : execAggregate dicts projections (.column name :: groupBy) = .ok bare) :
    sortRows (⟨.column name, .asc⟩ :: orderBy) id bare = .ok bare := by
  obtain ⟨groups, hgroups, hout⟩ := execAggregate_eq_ok.mp hbare
  rw [groupsIn, if_neg (List.cons_ne_nil _ _)] at hgroups
  obtain ⟨hperm, hstrict⟩ := groups_strict hself hgroups
  have hbuckets := groups_of hself
  -- each output row with the first row of its group
  have hfirst : List.Forall₂ (fun group row => ∃ f ∈ dicts,
      group.1 = plainKey (.column name :: groupBy) f ∧ row.find name = f.find name) groups bare := by
    have hboth := (List.forall₂_and_left groups bare).mpr
      ⟨fun group hg => hperm.subset hg, hout⟩
    apply hboth.imp
    rintro group row ⟨hg, agg, -, rfl⟩
    obtain ⟨f, rest, hrows, hkey⟩ := hbuckets.named group hg
    have hf : f ∈ group.2 := hrows ▸ List.mem_cons_self ..
    rw [hbuckets.bucket group hg] at hf
    refine ⟨f, List.mem_of_mem_filter hf, hkey, ?_⟩
    rw [RowDict.find, hkey, get?_setGroupKeys, if_pos (List.mem_cons_self ..)]
    rfl
  have hvalues : bare.map (fun row => row.find name) = groups.map fun group => group.1.headD .null := by
    rw [← List.forall₂_eq_eq_eq, List.forall₂_map_left_iff, List.forall₂_map_right_iff]
    refine List.Forall₂.flip (hfirst.imp ?_)
    rintro group row ⟨f, -, hkey, hrow⟩
    show row.find name = _
    rw [hrow, hkey]
    rfl
  have hheads : groups.Pairwise fun b c =>
      (c.1.headD .null).pyLt (b.1.headD .null) = .ok false := by
    apply hstrict.imp_of_mem
    intro b c hb hc hbc
    obtain ⟨-, -, f, hf, hfk, -⟩ := exists_of_mem_left hfirst hb
    obtain ⟨-, -, g, hg, hgk, -⟩ := exists_of_mem_left hfirst hc
    rw [groupLt, hfk, hgk] at hbc
    rw [hfk, hgk]
    show (g.find name).pyLt (f.find name) = .ok false
    have hlt : (if (f.find name).pyEq (g.find name) = true
        then keyLt (plainKey groupBy f) (plainKey groupBy g)
        else (f.find name).pyLt (g.find name)) = .ok true := hbc
    split at hlt
    · rename_i heq
      have hkind := (Value.pyEq_iff.mp heq).1
      have hne : f ≠ g := by
        rintro rfl
        cases hbc.symm.trans (keyLt_pyEqAll (hself f hf))
      have hok : ∃ v, (g.find name).pyLt (f.find name) = .ok v := by
        rcases pairwise_or_flip hcompare hf hg hne with h | ⟨v, h⟩
        · exact h
        · exact ⟨v, (Value.pyLt_congr hkind hkind.symm).mp h⟩
      obtain ⟨v, hv⟩ := hok
      cases v with
      | false => exact hv
      | true => exact absurd hv (Value.pyLt_irrefl hkind.symm)
    · exact Value.pyLt_asymm hlt
  have hrows : bare.Pairwise fun x y => (y.find name).pyLt (x.find name) = .ok false := by
    rw [← List.pairwise_map (R := fun u v : Value => v.pyLt u = .ok false), hvalues,
      List.pairwise_map]
    exact hheads
  refine (sortRows_eq_ok rfl).mpr ⟨hrows.imp fun h => ⟨false, h⟩, (sortStable_eq_self ?_).symm⟩
  apply hrows.imp
  intro x y h
  show holds ((y.find name).pyLt (x.find name)) = false
  rw [h]
  rfl

theorem cutsNothing_of_applied (h : AggregatesTable stmt)
    (hentry : db.catalog.getTable stmt.table = .ok entry)
    (hrows : rowsWhere db.store entry stmt = .ok rows)
    (hbare : execAggregate (rows.map (dictOf entry)) stmt.projections stmt.groupBy = .ok bare)
    (happlied : AppliedLast db entry rows stmt bare) : CutsNothing rows stmt := by
  obtain ⟨⟨dicts, hhanded, hperm⟩, hresult⟩ := happlied
  rw [execSelect_where h.joins hrows, bind_eq_ok] at hhanded
  obtain ⟨kept, hsort, hdicts⟩ := hhanded
  rw [Except.ok.injEq] at hdicts
  have hkept := (sortRows_perm hsort).length_eq
  have hlen : (limitRows stmt.limit stmt.offset kept).length = kept.length := by
    rw [hkept, ← List.length_map (f := dictOf entry), hdicts, hperm.length_eq, List.length_map]
  obtain ⟨hoffset, hlimit⟩ := cutsNothing_of_length hlen
  rw [hkept] at hoffset hlimit
  refine ⟨hoffset.imp_right List.length_eq_zero_iff.mp, hlimit, fun hgroup => ?_⟩
  -- the rows handed over can be aggregated as well, to one row
  rw [dispatchSelect_where h hentry hrows, hsort, ok_bind, hdicts] at hresult
  rw [hgroup] at hbare hresult
  have hsum : ∀ proj ∈ stmt.projections, Summable (rows.map (dictOf entry)) proj := by
    rw [execAggregate, if_pos rfl, bind_eq_ok] at hbare
    obtain ⟨agg, hagg, -⟩ := hbare
    exact (aggregateFrom_ok 0).mp ⟨agg, hagg⟩
  obtain ⟨agg, hagg⟩ : ∃ agg, aggregateGroup dicts stmt.projections = .ok agg :=
    (aggregateFrom_ok 0).mpr fun proj hproj name hname row hrow =>
      hsum proj hproj name hname row (hperm.subset hrow)
  have hone := (length_execAggregate hbare).1 rfl
  simp only [execAggregate, if_true, hagg, ok_bind] at hresult
  obtain ⟨out, hout, hrest⟩ := (bind_eq_ok ..).mp hresult.symm
  rw [Except.ok.injEq, Returned.rows.injEq] at hrest
  have hcut := congrArg List.length hrest
  rw [length_limitRows, (sortRows_perm hout).length_eq, hone, List.length_singleton] at hcut
  cases hl : stmt.limit with
  | none =>
    rw [hl] at hcut
    simp only at hcut
    exact ⟨by omega, fun h => by cases h⟩
  | some n =>
    rw [hl] at hcut
    simp only at hcut
    refine ⟨by omega, ?_⟩
    rintro ⟨⟩
    omega

theorem applied_of_cutsNothing (h : AggregatesTable stmt)
    (hentry : db.catalog.getTable stmt.table = .ok entry)
    (hrows : rowsWhere db.store entry stmt = .ok rows)
    (hbare : execAggregate (rows.map (dictOf entry)) stmt.projections stmt.groupBy = .ok bare)
    (hsort : SortHarmless entry rows stmt) (hcut : CutsNothing rows stmt) :
    AppliedLast db entry rows stmt bare := by
  -- enough that the sorted rows give what the stored rows give, in order
  have hstages : ∀ kept, sortRows stmt.orderBy (dictOf entry) rows = .ok kept →
      execAggregate (kept.map (dictOf entry)) stmt.projections stmt.groupBy = .ok bare →
      sortRows stmt.orderBy id bare = .ok bare → AppliedLast db entry rows stmt bare := by
    intro kept hkept hagg hordered
    have hperm := sortRows_perm hkept
    have hall : limitRows stmt.limit stmt.offset kept = kept := by
      refine limitRows_eq_self (hcut.offset.imp_right fun he => ?_) fun n hn => ?_
      · rw [he] at hperm
        exact List.perm_nil.mp hperm
      · rw [hperm.length_eq]
        exact hcut.limit n hn
    constructor
    · refine ⟨kept.map (dictOf entry), ?_, hperm.map _⟩
      rw [execSelect_where h.joins hrows, hkept, ok_bind, hall]
    · rw [dispatchSelect_where h hentry hrows, hkept, ok_bind, hall, hagg, ok_bind, hordered,
        ok_bind, limitRows_bare hcut hbare]
  rcases hsort with hnone | ⟨hgroup, href, hstay⟩ | ⟨name, groupBy, orderBy, hgroup, horder, hok, hself⟩
  · rw [hnone] at hstages
    exact hstages rows rfl hbare rfl
  · refine hstages rows hstay hbare ?_
    have hone := (length_execAggregate hbare).1 hgroup
    obtain ⟨row, rfl⟩ := List.length_eq_one_iff.mp hone
    cases horder : stmt.orderBy with
    | nil => rfl
    | cons item items =>
      rw [horder] at href
      exact (sortRows_eq_ok (href item rfl)).mpr ⟨List.pairwise_singleton _ _, rfl⟩
  · obtain ⟨kept, hkept⟩ := hok
    rw [horder] at hkept
    obtain ⟨hcompare, rfl⟩ := (sortRows_eq_ok rfl).mp hkept
    rw [hgroup] at hbare hself
    have hself' : ∀ row ∈ rows.map (dictOf entry), Value.pyEqAll
        (plainKey (.column name :: groupBy) row) (plainKey (.column name :: groupBy) row) = true := by
      intro row hrow
      obtain ⟨stored, hstored, rfl⟩ := List.mem_map.mp hrow
      exact hself stored hstored
    have hcompare' : (rows.map (dictOf entry)).Pairwise fun x y =>
        ∃ b, (y.find name).pyLt (x.find name) = .ok b := by
      rw [List.pairwise_map]
      exact hcompare
    have hweak : WeakOrderOn (byColumn name) (rows.map (dictOf entry)) := by
      refine weakOrderOn_firstLess (hcompare'.imp_of_mem ?_)
      rintro x y hx hy ⟨b, hb⟩
      have hxx := (Bool.and_eq_true_iff.mp (hself' x hx)).1
      have hyy := (Bool.and_eq_true_iff.mp (hself' y hy)).1
      by_cases heq : (x.find name).pyEq (y.find name) = true
      · exact Or.inr (Or.inr heq)
      · rcases Value.pyLt_total hxx hyy (Bool.eq_false_iff.mpr heq) hb with hlt | hlt
        · exact Or.inl hlt
        · exact Or.inr (Or.inl hlt)
    refine hstages _ (horder ▸ hkept) ?_ (horder ▸ sortRows_bare hcompare' hself' hbare)
    obtain ⟨groups, hgroups, hout⟩ := execAggregate_eq_ok.mp hbare
    have hmap : (sortStable (firstLess ⟨.column name, .asc⟩ (dictOf entry)) rows).map (dictOf entry) =
        sortStable (byColumn name) (rows.map (dictOf entry)) :=
      (sortStable_map (dictOf entry) (byColumn name) rows).symm
    rw [hgroup, hmap]
    exact execAggregate_eq_ok.mpr ⟨groups, groupsIn_sorted hself' hweak hgroups, hout⟩

/-- **When the clauses come last.** If the sort does no harm, exactly when LIMIT and OFFSET cut
nothing off, and never if they do. -/
theorem appliedLast_iff (h : AggregatesTable stmt)
    (hentry : db.catalog.getTable stmt.table = .ok entry)
    (hrows : rowsWhere db.store entry stmt = .ok rows)
    (hbare : db.dispatchSelect stmt.bare = .ok (.rows bare)) :
    (SortHarmless entry rows stmt →
      (AppliedLast db entry rows stmt bare ↔ CutsNothing rows stmt)) ∧
    (AppliedLast db entry rows stmt bare → CutsNothing rows stmt) := by
  have hbare' := (dispatchSelect_bare h hentry hrows).mp hbare
  have hcut := cutsNothing_of_applied h hentry hrows hbare'
  exact ⟨fun hsort => ⟨hcut, applied_of_cutsNothing h hentry hrows hbare' hsort⟩, hcut⟩

end

/-! ## Counting two rows -/

/-- `SELECT COUNT(*) FROM t LIMIT` the number. -/
def counted (limit : Nat) : Select :=
  { projections := [aggregateLiteral "COUNT" "*"], table := "t", limit := some limit }

def bothRows : List (Nat × Row) := [(1, [.int 1, .int 2]), (2, [.int 1, .int 1])]

theorem counted_table (limit : Nat) : AggregatesTable (counted limit) :=
  ⟨rfl, (by decide : hasAggregate [aggregateLiteral "COUNT" "*"] = true)⟩

theorem twoRows_table : twoRows.catalog.getTable "t" = .ok twoEntry := by decide +kernel

theorem counted_rows (limit : Nat) :
    rowsWhere twoRows.store twoEntry (counted limit) = .ok bothRows := by
  show (do
    let rows ← Heap.scan ⟨twoEntry.rootPageId, twoEntry.schema⟩ twoRows.store
    filterRaising (fun row => evalWhere (dictOf twoEntry row) none) rows) = _
  decide +kernel

theorem counted_bare (limit : Nat) : twoRows.dispatchSelect (counted limit).bare =
    .ok (.rows [OrdDict.ofList [("count", .int 2)]]) :=
  (dispatchSelect_bare (counted_table limit) twoRows_table (counted_rows limit)).mpr rfl

/-- `SELECT COUNT(*) FROM t LIMIT 2`. -/
theorem counted_two : AppliedLast twoRows twoEntry bothRows (counted 2)
    [OrdDict.ofList [("count", .int 2)]] :=
  ((appliedLast_iff (counted_table 2) twoRows_table (counted_rows 2)
      (counted_bare 2)).1 (Or.inl rfl)).mpr
    ⟨Or.inl rfl, by rintro n ⟨⟩; decide, fun _ => ⟨rfl, by decide⟩⟩

/-- `SELECT COUNT(*) FROM t LIMIT 1` counts one row of two. -/
theorem counted_one :
    rowsWhere twoRows.store twoEntry (counted 1) = .ok bothRows ∧
      twoRows.dispatchSelect (counted 1).bare = .ok (.rows [OrdDict.ofList [("count", .int 2)]]) ∧
      twoRows.dispatchSelect (counted 1) = .ok (.rows [OrdDict.ofList [("count", .int 1)]]) ∧
      ¬ AppliedLast twoRows twoEntry bothRows (counted 1) [OrdDict.ofList [("count", .int 2)]] := by
  have hone : twoRows.dispatchSelect (counted 1) =
      .ok (.rows [OrdDict.ofList [("count", .int 1)]]) :=
    dispatchSelect_where (counted_table 1) twoRows_table (counted_rows 1)
  refine ⟨counted_rows 1, counted_bare 1, hone, fun happlied => ?_⟩
  have hresult := hone.symm.trans happlied.result
  cases hresult

end TinyDB
