import TinyDB.Aggregate
import TinyDB.OrderBy
import TinyDB.Lib.Buckets

/-!
# Which rows GROUP BY gives

`exec_aggregate` takes NULL for every qualified column of a key, and it sorts the keys as
Python tuples. `groups_iff`: there is one row for each key, in ascending order and with the
count of its group, exactly when any two rows that differ in the key are told apart by the
plain columns, in the order of the whole key, and no column is written over the count.
-/

namespace TinyDB

open Lib

/-! ## The statement -/

/-- The values of the GROUP BY list for a row. -/
def groupKey (groupBy : List Expr) (row : RowDict) : List Value := groupBy.map (refValue row)

/-- The key comes first; NULLs come where `nullsFirst` says. -/
def KeyBefore (nullsFirst : Bool) : List Value → List Value → Prop
  | a :: as, b :: bs =>
    comesBefore (fun _ => nullsFirst) .asc a b ∨ a.pyEq b = true ∧ KeyBefore nullsFirst as bs
  | _, _ => False

def groupSize (groupBy : List Expr) (rows : List RowDict) (key : List Value) : Nat :=
  rows.countP fun row => Value.pyEqAll key (groupKey groupBy row)

/-- The plain columns of the key stand in the row. -/
def ShowsKey (groupBy : List Expr) (key : List Value) (row : RowDict) : Prop :=
  ∀ name value, (Expr.column name, value) ∈ groupBy.zip key → (row.find name).pyEq value = true

/-- `COUNT(*)` is selected. -/
def Counts (projections : List Expr) : Prop :=
  ∃ raw, Expr.sqlLiteral (.text "COUNT(*)") raw ∈ projections

/-- `exec_aggregate` returns one row for each key, in order and with its count. -/
def GroupsRight (nullsFirst : Bool) (rows : List RowDict) (projections groupBy : List Expr) :
    Prop :=
  ∃ keys out, execAggregate rows projections groupBy = .ok out ∧
    keys.Pairwise (KeyBefore nullsFirst) ∧
    (∀ row ∈ rows, ∃ key ∈ keys, Value.pyEqAll key (groupKey groupBy row) = true) ∧
    (∀ key ∈ keys, ∃ row ∈ rows, Value.pyEqAll key (groupKey groupBy row) = true) ∧
    List.Forall₂ (fun key row => ShowsKey groupBy key row ∧
      (Counts projections → row.get? "count" = some (.int (groupSize groupBy rows key)))) keys out ∧
    (keys.map (groupSize groupBy rows)).sum = rows.length

/-- The column of a SUM or an AVG. -/
def summedColumn : Expr → Option String
  | .sqlLiteral (.text s) _ =>
    if startsWith "COUNT".toList s.toList then none
    else if startsWith "SUM".toList s.toList || startsWith "AVG".toList s.toList then
      some (aggregateColumn s.toList)
    else none
  | _ => none

/-- The values to add up are numbers. -/
def Summable (rows : List RowDict) (proj : Expr) : Prop :=
  ∀ name, summedColumn proj = some name → ∀ row ∈ rows, (num (row.find name)).isOk = true

/-- What writes the entry `count`. -/
def writesCount : Expr → Bool
  | .sqlLiteral (.text s) _ => startsWith "COUNT".toList s.toList
  | .column name => decide (name = "count")
  | _ => false

/-- A column is the last to write the entry `count`. -/
def overwritesCount (projections groupBy : List Expr) : Bool :=
  decide (.column "count" ∈ groupBy) ||
    decide ((projections.filter writesCount).getLast? = some (.column "count"))

/-- The key of a row as `exec_aggregate` takes it: NULL for a qualified column. -/
def plainKey (groupBy : List Expr) (row : RowDict) : List Value := groupBy.map (evalGroupKey row)

/-- Two rows have one key, or the plain columns put them in the order of their keys. -/
def KeysAgree (nullsFirst : Bool) (groupBy : List Expr) (r s : RowDict) : Prop :=
  Value.pyEqAll (groupKey groupBy r) (groupKey groupBy s) = true ∨
    (keyLt (plainKey groupBy r) (plainKey groupBy s) = .ok true ∧
      KeyBefore nullsFirst (groupKey groupBy r) (groupKey groupBy s)) ∨
    (keyLt (plainKey groupBy s) (plainKey groupBy r) = .ok true ∧
      KeyBefore nullsFirst (groupKey groupBy s) (groupKey groupBy r))

structure GroupsCompare (nullsFirst : Bool) (rows : List RowDict)
    (projections groupBy : List Expr) : Prop where
  summed : ∀ proj ∈ projections, Summable rows proj
  count : Counts projections → overwritesCount projections groupBy = true → ∀ row ∈ rows,
    ∀ first, (rows.find? fun r => Value.pyEqAll (groupKey groupBy row) (groupKey groupBy r)) =
      some first → first.find "count" = .int (groupSize groupBy rows (groupKey groupBy row))
  keys : ∀ r ∈ rows, ∀ s ∈ rows, KeysAgree nullsFirst groupBy r s

/-! ## Keys -/

theorem partialEquiv_pyEqAll : PartialEquiv Value.pyEqAll where
  symm := fun a b h => by rwa [Value.pyEqAll_comm]
  trans := fun _ _ _ => Value.pyEqAll_trans

section

variable {nullsFirst : Bool} {as bs cs as' bs' : List Value}

theorem keyLt_pyEqAll (h : Value.pyEqAll as bs = true) : keyLt as bs = .ok false := by
  induction as generalizing bs with
  | nil =>
    cases bs with
    | nil => rfl
    | cons b bs => cases h
  | cons a as ih =>
    cases bs with
    | nil => cases h
    | cons b bs =>
      simp only [Value.pyEqAll, Bool.and_eq_true] at h
      rw [keyLt, if_pos h.1]
      exact ih h.2

theorem keyLt_asymm (h : keyLt as bs = .ok true) : keyLt bs as = .ok false := by
  induction as generalizing bs with
  | nil =>
    cases bs with
    | nil => cases h
    | cons b bs => rfl
  | cons a as ih =>
    cases bs with
    | nil => cases h
    | cons b bs =>
      rw [keyLt] at h ⊢
      rw [Value.pyEq_comm b a]
      by_cases hab : a.pyEq b = true
      · rw [if_pos hab] at h ⊢
        exact ih h
      · rw [if_neg hab] at h ⊢
        exact Value.pyLt_asymm h

theorem pyEq_kind {a b c : Value} (h : a.pyEq b = true) : a.pyEq c = b.pyEq c := by
  rw [Bool.eq_iff_iff, Value.pyEq_iff, Value.pyEq_iff, (Value.pyEq_iff.mp h).1]

theorem keyLt_congr (ha : Value.pyEqAll as as' = true) (hb : Value.pyEqAll bs bs' = true)
    (h : keyLt as bs = .ok true) : keyLt as' bs' = .ok true := by
  induction as generalizing bs as' bs' with
  | nil =>
    cases as' with
    | cons a' as' => cases ha
    | nil =>
      cases bs with
      | nil => cases h
      | cons b bs =>
        cases bs' with
        | nil => cases hb
        | cons b' bs' => rfl
  | cons a as ih =>
    cases as' with
    | nil => cases ha
    | cons a' as' =>
      cases bs with
      | nil => cases h
      | cons b bs =>
        cases bs' with
        | nil => cases hb
        | cons b' bs' =>
          simp only [Value.pyEqAll, Bool.and_eq_true] at ha hb
          have heq : a.pyEq b = a'.pyEq b' := by
            rw [pyEq_kind ha.1, Value.pyEq_comm, pyEq_kind hb.1, Value.pyEq_comm]
          rw [keyLt] at h ⊢
          rw [← heq]
          by_cases hab : a.pyEq b = true
          · rw [if_pos hab] at h ⊢
            exact ih ha.2 hb.2 h
          · rw [if_neg hab] at h ⊢
            exact (Value.pyLt_congr (Value.pyEq_iff.mp ha.1).1 (Value.pyEq_iff.mp hb.1).1).mp h

theorem keyLt_trans (hab : keyLt as bs = .ok true) (hbc : keyLt bs cs = .ok true) :
    keyLt as cs = .ok true := by
  induction as generalizing bs cs with
  | nil =>
    cases bs with
    | nil => cases hab
    | cons b bs =>
      cases cs with
      | nil => cases hbc
      | cons c cs => rfl
  | cons a as ih =>
    cases bs with
    | nil => cases hab
    | cons b bs =>
      cases cs with
      | nil => cases hbc
      | cons c cs =>
        rw [keyLt] at hab hbc ⊢
        by_cases hx : a.pyEq b = true
        · rw [if_pos hx] at hab
          rw [pyEq_kind hx]
          by_cases hy : b.pyEq c = true
          · rw [if_pos hy] at hbc ⊢
            exact ih hab hbc
          · rw [if_neg hy] at hbc ⊢
            exact (Value.pyLt_congr (Value.pyEq_iff.mp hx).1 rfl).mpr hbc
        · rw [if_neg hx] at hab
          by_cases hy : b.pyEq c = true
          · rw [Value.pyEq_comm, ← pyEq_kind hy, Value.pyEq_comm, if_neg hx]
            exact (Value.pyLt_congr rfl (Value.pyEq_iff.mp hy).1).mp hab
          · rw [if_neg hy] at hbc
            have hac := Value.pyLt_trans hab hbc
            rw [if_neg fun he => Value.pyLt_irrefl (Value.pyEq_iff.mp he).1 hac]
            exact hac

/-- Keys that can be compared and differ are in one order or the other. -/
theorem keyLt_total (hlen : as.length = bs.length) (ha : Value.pyEqAll as as = true)
    (hb : Value.pyEqAll bs bs = true) (hne : Value.pyEqAll as bs = false) {v : Bool}
    (h : keyLt bs as = .ok v) : keyLt as bs = .ok true ∨ keyLt bs as = .ok true := by
  induction as generalizing bs with
  | nil =>
    cases bs with
    | nil => cases hne
    | cons b bs => cases hlen
  | cons a as ih =>
    cases bs with
    | nil => cases hlen
    | cons b bs =>
      simp only [Value.pyEqAll, Bool.and_eq_true, Bool.and_eq_false_iff] at ha hb hne
      rw [keyLt, Value.pyEq_comm] at h
      rw [keyLt, keyLt, Value.pyEq_comm b a]
      by_cases hab : a.pyEq b = true
      · rw [if_pos hab] at h
        rw [if_pos hab, if_pos hab]
        rw [hab] at hne
        exact ih (by simpa using hlen) ha.2 hb.2 (hne.resolve_left Bool.noConfusion) h
      · rw [if_neg hab] at h
        rw [if_neg hab, if_neg hab]
        exact Value.pyLt_total ha.1 hb.1 (Bool.eq_false_iff.mpr hab) h

theorem keyBefore_ne (h : KeyBefore nullsFirst as bs) : Value.pyEqAll as bs = false := by
  induction as generalizing bs with
  | nil => exact h.elim
  | cons a as ih =>
    cases bs with
    | nil => exact h.elim
    | cons b bs =>
      rw [Value.pyEqAll, Bool.and_eq_false_iff]
      rcases h with h | ⟨-, h⟩
      · exact Or.inl (comesBefore_ne h)
      · exact Or.inr (ih h)

theorem comesBefore_congr {a a' b b' : Value} {direction : Direction}
    (ha : a.pyEq a' = true) (hb : b.pyEq b' = true)
    (h : comesBefore (fun _ => nullsFirst) direction a b) :
    comesBefore (fun _ => nullsFirst) direction a' b' := by
  have hka := (Value.pyEq_iff.mp ha).1
  have hkb := (Value.pyEq_iff.mp hb).1
  have hnull : ∀ {x y : Value}, x.comparand = y.comparand → (x = .null ↔ y = .null) := fun {x y} hk => by
    rw [← Value.comparand_eq_null, ← Value.comparand_eq_null, hk]
  by_cases hna : a = .null
  · have hna' := (hnull hka).mp hna
    by_cases hnb : b = .null
    · subst hna hnb
      exact h.elim
    · have hnb' : b' ≠ .null := fun hn => hnb ((hnull hkb).mpr hn)
      subst hna hna'
      cases b <;> cases b' <;> simp_all [comesBefore]
  · have hna' : a' ≠ .null := fun hn => hna ((hnull hka).mpr hn)
    by_cases hnb : b = .null
    · have hnb' := (hnull hkb).mp hnb
      subst hnb hnb'
      cases a <;> cases a' <;> simp_all [comesBefore]
    · have hnb' : b' ≠ .null := fun hn => hnb ((hnull hkb).mpr hn)
      rw [comesBefore_iff hna hnb] at h
      rw [comesBefore_iff hna' hnb']
      cases direction with
      | asc => exact (Value.pyLt_congr hka hkb).mp h
      | desc => exact (Value.pyLt_congr hkb hka).mp h

theorem keyBefore_congr (ha : Value.pyEqAll as as' = true) (hb : Value.pyEqAll bs bs' = true)
    (h : KeyBefore nullsFirst as bs) : KeyBefore nullsFirst as' bs' := by
  induction as generalizing bs as' bs' with
  | nil => exact h.elim
  | cons a as ih =>
    cases as' with
    | nil => cases ha
    | cons a' as' =>
      cases bs with
      | nil => exact h.elim
      | cons b bs =>
        cases bs' with
        | nil => cases hb
        | cons b' bs' =>
          simp only [Value.pyEqAll, Bool.and_eq_true] at ha hb
          rcases h with h | ⟨hab, h⟩
          · exact Or.inl (comesBefore_congr ha.1 hb.1 h)
          · refine Or.inr ⟨?_, ih ha.2 hb.2 h⟩
            rw [← pyEq_kind ha.1, Value.pyEq_comm, ← pyEq_kind hb.1, Value.pyEq_comm]
            exact hab

end

/-! ## One group -/

section

variable {rows : List RowDict} {projections groupBy : List Expr} {out out' : RowDict}

theorem numsOf_ok {name : String} :
    (∃ vals, numsOf name rows = .ok vals) ↔ ∀ row ∈ rows, (num (row.find name)).isOk = true := by
  induction rows with
  | nil => simp [numsOf]
  | cons row rows ih =>
    rw [List.forall_mem_cons, ← ih, numsOf]
    cases num (row.find name) with
    | error e =>
      refine iff_of_false ?_ fun h => Bool.noConfusion h.1
      rintro ⟨vals, h⟩
      cases h
    | ok v =>
      cases numsOf name rows with
      | error e =>
        refine iff_of_false ?_ ?_
        · rintro ⟨vals, h⟩
          cases h
        · rintro ⟨-, vals, h⟩
          cases h
      | ok vals => exact ⟨fun _ => ⟨rfl, vals, rfl⟩, fun _ => ⟨_, rfl⟩⟩

/-- What an item writes under `count`. -/
def written (rows : List RowDict) : Expr → Value
  | .column name => match rows with | [] => .null | r :: _ => r.find name
  | _ => .int rows.length

theorem col_ne_count (index : Nat) : "count" ≠ "col_" ++ toString index := by
  intro h
  have hlist := congrArg String.toList h
  rw [String.toList_append] at hlist
  have hthird := congrArg (fun l : List Char => l.take 3) hlist
  exact absurd hthird (by simp [List.take])

theorem aggregateOne_ok (index : Nat) (proj : Expr) :
    (∃ out', aggregateOne rows index proj out = .ok out') ↔ Summable rows proj := by
  have hnone : summedColumn proj = none → Summable rows proj := fun h name hname => by
    rw [h] at hname
    cases hname
  cases proj with
  | sqlLiteral value raw =>
    cases value with
    | text s =>
      by_cases hc : startsWith "COUNT".toList s.toList = true
      · simp only [aggregateOne, hc, if_true]
        exact iff_of_true ⟨_, rfl⟩ (hnone (by simp only [summedColumn, hc, if_true]))
      · have hsum : ∀ (vals : Except PyErr (List Value)) (f : List Value → RowDict),
            (∃ out', (do let vals ← vals; .ok (f vals)) = (.ok out' : Except PyErr RowDict)) ↔
              ∃ v, vals = .ok v := fun vals f => by
          cases vals with
          | error e => exact iff_of_false (fun ⟨_, h⟩ => nomatch h) (fun ⟨_, h⟩ => nomatch h)
          | ok v => exact iff_of_true ⟨_, rfl⟩ ⟨_, rfl⟩
        have hcol : startsWith "SUM".toList s.toList = true ∨
            startsWith "AVG".toList s.toList = true →
            (Summable rows (.sqlLiteral (.text s) raw) ↔
              ∃ vals, numsOf (aggregateColumn s.toList) rows = .ok vals) := fun h => by
          have hname : summedColumn (.sqlLiteral (.text s) raw) =
              some (aggregateColumn s.toList) := by
            rw [summedColumn, if_neg hc, if_pos (by rwa [Bool.or_eq_true])]
          rw [numsOf_ok, Summable, hname]
          simp
        by_cases hs : startsWith "SUM".toList s.toList = true
        · rw [hcol (Or.inl hs)]
          simp only [aggregateOne, hc, hs, if_true]
          exact hsum _ _
        · by_cases ha : startsWith "AVG".toList s.toList = true
          · rw [hcol (Or.inr ha)]
            simp only [aggregateOne, hc, hs, ha, if_true]
            exact hsum _ _
          · simp only [aggregateOne, hc, hs, ha]
            refine iff_of_true ⟨_, rfl⟩ (hnone ?_)
            rw [summedColumn, if_neg hc, if_neg]
            rw [Bool.or_eq_true]
            exact not_or.mpr ⟨hs, ha⟩
    | null => exact iff_of_true ⟨_, rfl⟩ (hnone rfl)
    | int i => exact iff_of_true ⟨_, rfl⟩ (hnone rfl)
    | float f => exact iff_of_true ⟨_, rfl⟩ (hnone rfl)
    | bool b => exact iff_of_true ⟨_, rfl⟩ (hnone rfl)
  | column name => exact iff_of_true ⟨_, rfl⟩ (hnone rfl)
  | qualifiedColumn table name => exact iff_of_true ⟨_, rfl⟩ (hnone rfl)
  | star => exact iff_of_true ⟨_, rfl⟩ (hnone rfl)
  | binaryOp op left right => exact iff_of_true ⟨_, rfl⟩ (hnone rfl)
  | logicalOp op left right => exact iff_of_true ⟨_, rfl⟩ (hnone rfl)
  | unaryOp op operand => exact iff_of_true ⟨_, rfl⟩ (hnone rfl)
  | inPredicate expr values negated => exact iff_of_true ⟨_, rfl⟩ (hnone rfl)

/-- An item writes one entry. -/
theorem aggregateOne_cases {index : Nat} {proj : Expr}
    (h : aggregateOne rows index proj out = .ok out') :
    (writesCount proj = true ∧ out' = out.set "count" (written rows proj)) ∨
      (writesCount proj = false ∧ ∃ name value, name ≠ "count" ∧ out' = out.set name value) := by
  have hcol : ∀ value, aggregateOne rows index proj out =
      .ok (out.set ("col_" ++ toString index) value) → writesCount proj = false →
      (writesCount proj = true ∧ out' = out.set "count" (written rows proj)) ∨
        (writesCount proj = false ∧ ∃ name value, name ≠ "count" ∧ out' = out.set name value) := by
    intro value hset hno
    rw [h, Except.ok.injEq] at hset
    exact Or.inr ⟨hno, _, _, fun he => col_ne_count index he.symm, hset⟩
  cases proj with
  | sqlLiteral value raw =>
    cases value with
    | text s =>
      by_cases hc : startsWith "COUNT".toList s.toList = true
      · simp only [aggregateOne, hc, if_true, Except.ok.injEq] at h
        exact Or.inl ⟨hc, h.symm⟩
      · rw [Bool.not_eq_true] at hc
        refine Or.inr ⟨hc, ?_⟩
        by_cases hs : startsWith "SUM".toList s.toList = true
        · simp only [aggregateOne, hc, hs, if_true, Bool.false_eq_true, if_false, bind_eq_ok,
            Except.ok.injEq] at h
          obtain ⟨vals, -, rfl⟩ := h
          exact ⟨_, _, by decide, rfl⟩
        · by_cases ha : startsWith "AVG".toList s.toList = true
          · simp only [aggregateOne, hc, hs, ha, if_true, Bool.false_eq_true, if_false, bind_eq_ok,
              Except.ok.injEq] at h
            obtain ⟨vals, -, rfl⟩ := h
            exact ⟨_, _, by decide, rfl⟩
          · simp only [aggregateOne, hc, hs, ha, Bool.false_eq_true, if_false,
              Except.ok.injEq] at h
            exact ⟨_, _, fun he => col_ne_count index he.symm, h.symm⟩
    | null => exact hcol _ rfl rfl
    | int i => exact hcol _ rfl rfl
    | float f => exact hcol _ rfl rfl
    | bool b => exact hcol _ rfl rfl
  | column name =>
    simp only [aggregateOne, Except.ok.injEq] at h
    by_cases hn : name = "count"
    · subst hn
      exact Or.inl ⟨rfl, h.symm⟩
    · exact Or.inr ⟨decide_eq_false hn, _, _, hn, h.symm⟩
  | qualifiedColumn table name => exact hcol _ rfl rfl
  | star => exact hcol _ rfl rfl
  | binaryOp op left right => exact hcol _ rfl rfl
  | logicalOp op left right => exact hcol _ rfl rfl
  | unaryOp op operand => exact hcol _ rfl rfl
  | inPredicate expr values negated => exact hcol _ rfl rfl

theorem get?_aggregateOne {index : Nat} {proj : Expr}
    (h : aggregateOne rows index proj out = .ok out') :
    out'.get? "count" = if writesCount proj then some (written rows proj) else out.get? "count" := by
  rcases aggregateOne_cases h with ⟨hw, rfl⟩ | ⟨hw, name, value, hne, rfl⟩
  · rw [hw, OrdDict.get?_set, if_pos rfl, if_pos rfl]
  · rw [hw, OrdDict.get?_set, if_neg hne]
    rfl

theorem aggregateFrom_ok (index : Nat) :
    (∃ out', aggregateFrom rows index projections out = .ok out') ↔
      ∀ proj ∈ projections, Summable rows proj := by
  induction projections generalizing index out with
  | nil => simp [aggregateFrom]
  | cons proj projections ih =>
    rw [List.forall_mem_cons, ← @aggregateOne_ok rows out index proj, aggregateFrom]
    cases hone : aggregateOne rows index proj out with
    | error e => exact iff_of_false (fun ⟨_, h⟩ => nomatch h) fun ⟨⟨_, h⟩, _⟩ => nomatch h
    | ok next =>
      rw [ok_bind, ih]
      exact ⟨fun h => ⟨⟨_, rfl⟩, h⟩, fun h => h.2⟩

/-- The last item that writes the entry `count` gives it. -/
theorem get?_aggregateFrom {index : Nat} (h : aggregateFrom rows index projections out = .ok out') :
    out'.get? "count" = ((projections.filter writesCount).getLast?.map (written rows)).or
      (out.get? "count") := by
  induction projections generalizing index out with
  | nil =>
    cases h
    rfl
  | cons proj projections ih =>
    simp only [aggregateFrom, bind_eq_ok] at h
    obtain ⟨next, hone, hrest⟩ := h
    rw [ih hrest, get?_aggregateOne hone, List.filter_cons]
    cases writesCount proj with
    | false => rfl
    | true =>
      rw [if_pos rfl, if_pos rfl, List.getLast?_cons]
      cases (projections.filter writesCount).getLast? <;> rfl

theorem get?_setGroupKeys (f : RowDict) (name : String) :
    (setGroupKeys out groupBy (plainKey groupBy f)).get? name =
      if .column name ∈ groupBy then some (f.find name) else out.get? name := by
  induction groupBy generalizing out with
  | nil => rfl
  | cons e groupBy ih =>
    have hskip : ∀ {d : RowDict}, (∀ n, e ≠ .column n) →
        setGroupKeys d (e :: groupBy) (plainKey (e :: groupBy) f) =
          setGroupKeys d groupBy (plainKey groupBy f) := by
      intro d hne
      cases e with
      | column n => exact absurd rfl (hne n)
      | _ => rfl
    by_cases he : ∃ n, e = .column n
    · obtain ⟨n, rfl⟩ := he
      show (setGroupKeys (out.set n (f.find n)) groupBy (plainKey groupBy f)).get? name = _
      rw [ih, OrdDict.get?_set]
      by_cases hin : Expr.column name ∈ groupBy
      · rw [if_pos hin, if_pos (List.mem_cons_of_mem _ hin)]
      · rw [if_neg hin]
        by_cases hn : n = name
        · subst hn
          rw [if_pos rfl, if_pos (List.mem_cons_self ..)]
        · rw [if_neg hn, if_neg]
          intro hmem
          rcases List.mem_cons.mp hmem with h | h
          · exact hn (Expr.column.inj h).symm
          · exact hin h
    · have hne : ∀ n, e ≠ .column n := fun n h => he ⟨n, h⟩
      rw [hskip hne, ih]
      simp only [List.mem_cons, (hne name).symm, false_or]

/-- What the row of a group shows: the plain columns of its first row, and its count. -/
structure GroupRow (projections groupBy : List Expr) (f : RowDict) (rows : List RowDict)
    (row : RowDict) : Prop where
  shown : ∀ name, .column name ∈ groupBy → row.find name = f.find name
  count : Counts projections → row.get? "count" =
    some (if overwritesCount projections groupBy then f.find "count" else .int rows.length)

theorem groupRow_of_aggregate {f : RowDict} {rest : List RowDict}
    (h : aggregateGroup (f :: rest) projections = .ok out) :
    GroupRow projections groupBy f (f :: rest) (setGroupKeys out groupBy (plainKey groupBy f)) := by
  constructor
  · intro name hin
    rw [RowDict.find, get?_setGroupKeys, if_pos hin]
    rfl
  · rintro ⟨raw, hcount⟩
    rw [get?_setGroupKeys, overwritesCount]
    by_cases hin : Expr.column "count" ∈ groupBy
    · simp [hin]
    · have hlast := get?_aggregateFrom h
      have hmem : Expr.sqlLiteral (.text "COUNT(*)") raw ∈ projections.filter writesCount :=
        List.mem_filter.mpr ⟨hcount, rfl⟩
      obtain ⟨last, hl⟩ : ∃ last, (projections.filter writesCount).getLast? = some last :=
        ⟨_, List.getLast?_eq_some_getLast (List.ne_nil_of_mem hmem)⟩
      have hw : writesCount last = true :=
        (List.mem_filter.mp (List.mem_of_getLast? hl)).2
      rw [if_neg hin, hlast, hl]
      by_cases hcol : last = .column "count"
      · subst hcol
        simp [written]
      · have hlit : written (f :: rest) last = .int (f :: rest).length := by
          cases last with
          | column name =>
            refine absurd ?_ hcol
            rw [of_decide_eq_true hw]
          | _ => rfl
        simp [hin, hcol, hlit]

end

/-! ## The groups -/

section

variable {nullsFirst : Bool} {rows : List RowDict} {projections groupBy : List Expr}
  {r s : RowDict}

theorem addToGroup_eq_add (key : List Value) (row : RowDict)
    (groups : List (List Value × List RowDict)) :
    addToGroup key row groups = Buckets.add Value.pyEqAll key row groups := by
  induction groups with
  | nil => rfl
  | cons group groups ih =>
    obtain ⟨k, rows⟩ := group
    rw [addToGroup, Buckets.add, ih]

/-- `groups`, by insertion. -/
def groupsOf (groupBy : List Expr) (rows : List RowDict) : List (List Value × List RowDict) :=
  rows.foldl (fun groups row => Buckets.add Value.pyEqAll (plainKey groupBy row) row groups) []

/-- The comparison of the keys of two groups. -/
abbrev groupLt (b c : List Value × List RowDict) : Except PyErr Bool := keyLt b.1 c.1

theorem execAggregate_groups (hne : groupBy ≠ []) :
    execAggregate rows projections groupBy = (do
      let groups ← sorted groupLt false (groupsOf groupBy rows)
      aggregateGroups projections groupBy groups) := by
  rw [execAggregate, if_neg hne]
  simp only [addToGroup_eq_add]
  rfl

theorem pyEqAll_plainKey (h : Value.pyEqAll (groupKey groupBy r) (groupKey groupBy s) = true) :
    Value.pyEqAll (plainKey groupBy r) (plainKey groupBy s) = true := by
  induction groupBy with
  | nil => rfl
  | cons e groupBy ih =>
    simp only [groupKey, List.map_cons, Value.pyEqAll, Bool.and_eq_true] at h
    simp only [plainKey, List.map_cons, Value.pyEqAll, Bool.and_eq_true]
    refine ⟨?_, ih h.2⟩
    cases e with
    | column name => exact h.1
    | _ => rfl

/-- Groups any two of which are in one order or the other can be sorted. -/
theorem sorted_groups {groups : List (List Value × List RowDict)}
    (h : groups.Pairwise fun b c => groupLt b c = .ok true ∨ groupLt c b = .ok true) :
    ∃ sortedGroups, sorted groupLt false groups = .ok sortedGroups ∧
      sortedGroups.Perm groups ∧
      sortedGroups.Pairwise fun b c => groupLt b c = .ok true := by
  have hall : ∀ b ∈ groups, ∀ c ∈ groups, b ≠ c →
      groupLt b c = .ok true ∨ groupLt c b = .ok true := fun b hb c hc hne =>
    (pairwise_or_flip h hb hc hne).elim id Or.symm
  have hweak : WeakOrderOn (fun b c => holds (groupLt b c)) groups := by
    constructor
    · intro b _ c _ hbc
      rw [holds_eq_true] at hbc
      show holds (keyLt c.1 b.1) = false
      rw [keyLt_asymm hbc]
      rfl
    · intro b hb c hc d hd hbd
      simp only [holds_eq_true] at hbd ⊢
      by_cases hbc : b = c
      · exact Or.inr (hbc ▸ hbd)
      · rcases hall b hb c hc hbc with hlt | hlt
        · exact Or.inl hlt
        · exact Or.inr (keyLt_trans hlt hbd)
  refine ⟨_, sorted_eq_ok.mpr ⟨h.imp ?_, rfl⟩, sortStable_perm _ _, ?_⟩
  · rintro b c (hlt | hlt)
    · exact ⟨_, keyLt_asymm hlt⟩
    · exact ⟨_, hlt⟩
  · apply (sortStable_pairwise hweak h).imp
    rintro b c (hlt | ⟨hno, hlt | hlt⟩)
    · exact holds_eq_true.mp hlt
    · exact hlt
    · exact Bool.noConfusion ((holds_eq_true.mpr hlt).symm.trans hno)

/-- The rows of the groups, and when there are any. -/
theorem aggregateGroups_eq_ok {groups : List (List Value × List RowDict)} {out : List RowDict} :
    aggregateGroups projections groupBy groups = .ok out ↔
      List.Forall₂ (fun group row => ∃ agg, aggregateGroup group.2 projections = .ok agg ∧
        row = setGroupKeys agg groupBy group.1) groups out := by
  induction groups generalizing out with
  | nil =>
    rw [List.forall₂_nil_left_iff, aggregateGroups, Except.ok.injEq, eq_comm]
  | cons group groups ih =>
    obtain ⟨key, rows⟩ := group
    simp only [aggregateGroups, bind_eq_ok, Except.ok.injEq, List.forall₂_cons_left_iff]
    constructor
    · rintro ⟨agg, hagg, rest, hrest, rfl⟩
      exact ⟨_, rest, ⟨agg, hagg, rfl⟩, ih.mp hrest, rfl⟩
    · rintro ⟨row, rest, ⟨agg, hagg, rfl⟩, hrest, rfl⟩
      exact ⟨agg, hagg, rest, ih.mpr hrest, rfl⟩

/-- A group as a whole: its first row gives the key. -/
theorem groups_of (h : ∀ row ∈ rows, Value.pyEqAll (plainKey groupBy row) (plainKey groupBy row) =
    true) : Buckets.Of Value.pyEqAll (plainKey groupBy) rows (groupsOf groupBy rows) :=
  Buckets.of_foldl partialEquiv_pyEqAll h

/-- Keys that could be sorted and equal themselves are in strict order. -/
theorem groups_strict
    (hself : ∀ row ∈ rows, Value.pyEqAll (plainKey groupBy row) (plainKey groupBy row) = true)
    {groups : List (List Value × List RowDict)}
    (hsort : sorted groupLt false (groupsOf groupBy rows) = .ok groups) :
    groups.Perm (groupsOf groupBy rows) ∧
      groups.Pairwise fun b c => groupLt b c = .ok true := by
  have hgroups := groups_of hself
  have hpair : (groupsOf groupBy rows).Pairwise fun b c =>
      groupLt b c = .ok true ∨ groupLt c b = .ok true := by
    apply (hgroups.apart.and (sorted_eq_ok.mp hsort).1).imp_of_mem
    rintro b c hb hc ⟨hbc, v, hv⟩
    have hmem : ∀ group ∈ groupsOf groupBy rows, ∃ f ∈ rows, group.1 = plainKey groupBy f := by
      intro group hg
      obtain ⟨f, rest, hr, hk⟩ := hgroups.named group hg
      have hf : f ∈ group.2 := hr ▸ List.mem_cons_self ..
      rw [hgroups.bucket group hg] at hf
      exact ⟨f, List.mem_of_mem_filter hf, hk⟩
    obtain ⟨f, hf, hfk⟩ := hmem b hb
    obtain ⟨g, hg, hgk⟩ := hmem c hc
    rw [groupLt, hfk, hgk] at hv ⊢
    rw [hfk, hgk] at hbc
    rw [groupLt, hfk, hgk]
    exact keyLt_total (by rw [plainKey, plainKey, List.length_map, List.length_map])
      (hself f hf) (hself g hg) hbc hv
  obtain ⟨groups', hsort', hperm, hord⟩ := sorted_groups hpair
  obtain rfl : groups = groups' := Except.ok.inj (hsort.symm.trans hsort')
  exact ⟨hperm, hord⟩

theorem aggregateGroups_ok {groups : List (List Value × List RowDict)}
    (h : ∀ group ∈ groups, ∀ proj ∈ projections, Summable group.2 proj) :
    ∃ out, aggregateGroups projections groupBy groups = .ok out := by
  induction groups with
  | nil => exact ⟨[], rfl⟩
  | cons group groups ih =>
    obtain ⟨key, rows⟩ := group
    obtain ⟨agg, hagg⟩ : ∃ agg, aggregateGroup rows projections = .ok agg :=
      (aggregateFrom_ok 0).mpr (h _ (List.mem_cons_self ..))
    obtain ⟨rest, hrest⟩ := ih fun g hg => h g (List.mem_cons_of_mem _ hg)
    exact ⟨setGroupKeys agg groupBy key :: rest, by simp only [aggregateGroups, hagg, hrest, ok_bind]⟩

/-- Where the keys agree, the plain columns tell the same rows apart. -/
theorem KeysAgree.plain (h : KeysAgree nullsFirst groupBy r s) :
    Value.pyEqAll (plainKey groupBy r) (plainKey groupBy s) =
      Value.pyEqAll (groupKey groupBy r) (groupKey groupBy s) := by
  rw [Bool.eq_iff_iff]
  refine ⟨fun heq => ?_, pyEqAll_plainKey⟩
  rcases h with h | ⟨hlt, -⟩ | ⟨hlt, -⟩
  · exact h
  · rw [keyLt_pyEqAll heq] at hlt
    cases hlt
  · rw [Value.pyEqAll_comm] at heq
    rw [keyLt_pyEqAll heq] at hlt
    cases hlt

theorem KeysAgree.self (h : KeysAgree nullsFirst groupBy r r) :
    Value.pyEqAll (groupKey groupBy r) (groupKey groupBy r) = true := by
  rcases h with h | ⟨hlt, -⟩ | ⟨hlt, -⟩
  · exact h
  · cases hlt.symm.trans (keyLt_asymm hlt)
  · cases hlt.symm.trans (keyLt_asymm hlt)

/-- The group of a key holds the rows with that key. -/
theorem group_rows (hagree : ∀ r ∈ rows, ∀ s ∈ rows, KeysAgree nullsFirst groupBy r s)
    (hgroups : Buckets.Of Value.pyEqAll (plainKey groupBy) rows (groupsOf groupBy rows)) :
    ∀ group ∈ groupsOf groupBy rows, ∃ first rest, group.2 = first :: rest ∧
      group.1 = plainKey groupBy first ∧ first ∈ rows ∧
      group.2 = rows.filter fun row =>
        Value.pyEqAll (groupKey groupBy first) (groupKey groupBy row) := by
  intro group hg
  obtain ⟨first, rest, hrows, hkey⟩ := hgroups.named group hg
  have hbucket := hgroups.bucket group hg
  have hfirst : first ∈ rows := by
    have hin : first ∈ group.2 := hrows ▸ List.mem_cons_self ..
    rw [hbucket] at hin
    exact List.mem_of_mem_filter hin
  refine ⟨first, rest, hrows, hkey, hfirst, ?_⟩
  rw [hbucket, hkey]
  exact List.filter_congr fun row hrow => (hagree first hfirst row hrow).plain

theorem shows_groupKey {f row : RowDict}
    (hself : Value.pyEqAll (groupKey groupBy f) (groupKey groupBy f) = true)
    (hf : ∀ name, .column name ∈ groupBy → row.find name = f.find name) :
    ShowsKey groupBy (groupKey groupBy f) row := by
  induction groupBy with
  | nil => exact fun _ _ h => absurd h List.not_mem_nil
  | cons e groupBy ih =>
    simp only [groupKey, List.map_cons, Value.pyEqAll, Bool.and_eq_true] at hself
    intro name value hin
    rcases List.mem_cons.mp hin with heq | hin
    · rw [Prod.mk.injEq] at heq
      obtain ⟨rfl, rfl⟩ := heq
      rw [hf name (List.mem_cons_self ..)]
      exact hself.1
    · exact ih hself.2 (fun n hn => hf n (List.mem_cons_of_mem _ hn)) name value hin

/-- **One row for each key**, if any two rows agree in their keys. -/
theorem groupsRight_of_compare (hne : groupBy ≠ [])
    (h : GroupsCompare nullsFirst rows projections groupBy) :
    GroupsRight nullsFirst rows projections groupBy := by
  have hself : ∀ row ∈ rows, Value.pyEqAll (groupKey groupBy row) (groupKey groupBy row) = true :=
    fun row hrow => (h.keys row hrow row hrow).self
  have hgroups := groups_of fun row hrow => pyEqAll_plainKey (hself row hrow)
  have hrows := group_rows h.keys hgroups
  have hpair : (groupsOf groupBy rows).Pairwise fun b c =>
      groupLt b c = .ok true ∨ groupLt c b = .ok true := by
    apply hgroups.apart.imp_of_mem
    intro b c hb hc hbc
    obtain ⟨f, -, -, hfk, hf, -⟩ := hrows b hb
    obtain ⟨g, -, -, hgk, hg, -⟩ := hrows c hc
    rw [groupLt, groupLt, hfk, hgk]
    rw [hfk, hgk] at hbc
    rcases h.keys f hf g hg with heq | ⟨hlt, -⟩ | ⟨hlt, -⟩
    · rw [pyEqAll_plainKey heq] at hbc
      cases hbc
    · exact Or.inl hlt
    · exact Or.inr hlt
  obtain ⟨groups, hsort, hperm, hord⟩ := sorted_groups hpair
  have hin : ∀ group ∈ groups, group ∈ groupsOf groupBy rows := fun _ hg => hperm.subset hg
  obtain ⟨out, hout⟩ : ∃ out, aggregateGroups projections groupBy groups = .ok out := by
    apply aggregateGroups_ok
    intro group hg proj hproj name hname row hrow
    obtain ⟨first, rest, -, -, -, hfilter⟩ := hrows group (hin group hg)
    rw [hfilter] at hrow
    exact h.summed proj hproj name hname row (List.mem_of_mem_filter hrow)
  -- the key of a group is that of its first row
  let keyOf := fun group : List Value × List RowDict =>
    groupKey groupBy (group.2.headD OrdDict.empty)
  have hkeyOf : ∀ group ∈ groups, ∃ first rest, group.2 = first :: rest ∧
      group.1 = plainKey groupBy first ∧ first ∈ rows ∧ keyOf group = groupKey groupBy first ∧
      group.2 = rows.filter fun row =>
        Value.pyEqAll (groupKey groupBy first) (groupKey groupBy row) := by
    intro group hg
    obtain ⟨first, rest, hr, hk, hf, hfilter⟩ := hrows group (hin group hg)
    exact ⟨first, rest, hr, hk, hf, by simp only [keyOf, hr, List.headD_cons], hfilter⟩
  have hsize : ∀ group ∈ groups, groupSize groupBy rows (keyOf group) = group.2.length := by
    intro group hg
    obtain ⟨first, rest, -, -, -, hk, hfilter⟩ := hkeyOf group hg
    rw [hfilter, hk, groupSize, List.countP_eq_length_filter]
  refine ⟨groups.map keyOf, out, ?_, ?_, ?_, ?_, ?_, ?_⟩
  · rw [execAggregate_groups hne, hsort, ok_bind, hout]
  · rw [List.pairwise_map]
    apply hord.imp_of_mem
    intro b c hb hc hlt
    obtain ⟨f, -, -, hfk, hf, hbk, -⟩ := hkeyOf b hb
    obtain ⟨g, -, -, hgk, hg, hck, -⟩ := hkeyOf c hc
    rw [hbk, hck]
    rw [groupLt, hfk, hgk] at hlt
    rcases h.keys f hf g hg with heq | ⟨-, hbefore⟩ | ⟨hgt, -⟩
    · rw [keyLt_pyEqAll (pyEqAll_plainKey heq)] at hlt
      cases hlt
    · exact hbefore
    · cases hgt.symm.trans (keyLt_asymm hlt)
  · intro row hrow
    obtain ⟨group, hg, hkey⟩ := hgroups.covers row hrow
    have hg' := hperm.symm.subset hg
    obtain ⟨first, -, -, hk, hf, hkf, -⟩ := hkeyOf group hg'
    refine ⟨keyOf group, List.mem_map_of_mem hg', ?_⟩
    rw [hkf, ← (h.keys first hf row hrow).plain, ← hk]
    exact hkey
  · intro key hkey
    obtain ⟨group, hg, rfl⟩ := List.mem_map.mp hkey
    obtain ⟨first, -, -, -, hf, hkf, -⟩ := hkeyOf group hg
    exact ⟨first, hf, hkf ▸ hself first hf⟩
  · rw [List.forall₂_map_left_iff]
    have hboth := (List.forall₂_and_left groups out).mpr
      ⟨fun _ hg => hg, aggregateGroups_eq_ok.mp hout⟩
    apply hboth.imp
    rintro group row ⟨hg, agg, hagg, rfl⟩
    obtain ⟨first, rest, hr, hk, hf, hkf, hfilter⟩ := hkeyOf group hg
    rw [hr] at hagg
    have hshow : GroupRow projections groupBy first (first :: rest)
        (setGroupKeys agg groupBy group.1) := hk ▸ groupRow_of_aggregate hagg
    refine ⟨hkf ▸ shows_groupKey (hself first hf) hshow.shown, fun hcounts => ?_⟩
    rw [hshow.count hcounts, hsize group hg]
    by_cases hover : overwritesCount projections groupBy = true
    · have hfind : (rows.find? fun row =>
          Value.pyEqAll (groupKey groupBy first) (groupKey groupBy row)) = some first := by
        rw [← List.head?_filter, ← hfilter, hr]
        rfl
      rw [if_pos hover, h.count hcounts hover first hf first hfind, ← hkf, hsize group hg]
    · rw [if_neg hover, hr]
  · have hlens : (groups.map keyOf).map (groupSize groupBy rows) =
        groups.map fun group => group.2.length := by
      rw [List.map_map]
      exact List.map_congr_left hsize
    rw [hlens, (hperm.map _).sum_eq]
    exact Buckets.sum_length_foldl (plainKey groupBy) rows

/-! ## The converse -/

/-- Two lists that go with a third, in step. -/
theorem forall₂_pairs {α β γ : Type} {P : α → γ → Prop} {Q : β → γ → Prop} {as : List α}
    {bs : List β} {cs : List γ} (h : List.Forall₂ P as cs) (h' : List.Forall₂ Q bs cs) :
    ∃ pairs : List (α × β), pairs.map Prod.fst = as ∧ pairs.map Prod.snd = bs ∧
      ∀ p ∈ pairs, ∃ c, P p.1 c ∧ Q p.2 c := by
  induction h generalizing bs with
  | nil =>
    cases h'
    exact ⟨[], rfl, rfl, fun _ hp => absurd hp List.not_mem_nil⟩
  | cons hP hrest ih =>
    cases h' with
    | cons hQ hrest' =>
      obtain ⟨pairs, hfst, hsnd, hboth⟩ := ih hrest'
      refine ⟨(_, _) :: pairs, congrArg _ hfst, congrArg _ hsnd, fun p hp => ?_⟩
      rcases List.mem_cons.mp hp with rfl | hp
      · exact ⟨_, hP, hQ⟩
      · exact hboth p hp

/-- The values of the plain columns in a key. -/
def plainPart : List Expr → List Value → List Value
  | .column _ :: groupBy, value :: key => value :: plainPart groupBy key
  | _ :: groupBy, _ :: key => .null :: plainPart groupBy key
  | _, _ => []

theorem plainPart_groupKey (groupBy : List Expr) (row : RowDict) :
    plainPart groupBy (groupKey groupBy row) = plainKey groupBy row := by
  induction groupBy with
  | nil => rfl
  | cons e groupBy ih =>
    cases e with
    | column name => exact congrArg _ ih
    | _ => exact congrArg _ ih

theorem pyEqAll_plainPart {key key' : List Value} (h : Value.pyEqAll key key' = true) :
    Value.pyEqAll (plainPart groupBy key) (plainPart groupBy key') = true := by
  induction groupBy generalizing key key' with
  | nil => rfl
  | cons e groupBy ih =>
    cases key with
    | nil =>
      cases key' with
      | nil => cases e <;> rfl
      | cons v key' => cases h
    | cons u key =>
      cases key' with
      | nil => cases h
      | cons v key' =>
        simp only [Value.pyEqAll, Bool.and_eq_true] at h
        cases e with
        | column name => exact Bool.and_eq_true_iff.mpr ⟨h.1, ih h.2⟩
        | _ => exact ih h.2

theorem pyEqAll_length {as bs : List Value} (h : Value.pyEqAll as bs = true) :
    as.length = bs.length := by
  induction as generalizing bs with
  | nil =>
    cases bs with
    | nil => rfl
    | cons b bs => cases h
  | cons a as ih =>
    cases bs with
    | nil => cases h
    | cons b bs => exact congrArg Nat.succ (ih (Bool.and_eq_true_iff.mp h).2)

/-- The row of a group shows which group it is of. -/
theorem plainPart_shows {key : List Value} {f row : RowDict} (hlen : key.length = groupBy.length)
    (hshow : ShowsKey groupBy key row)
    (hf : ∀ name, .column name ∈ groupBy → row.find name = f.find name) :
    Value.pyEqAll (plainPart groupBy key) (plainKey groupBy f) = true := by
  induction groupBy generalizing key with
  | nil => rfl
  | cons e groupBy ih =>
    cases key with
    | nil => cases hlen
    | cons v key =>
      have hrest : Value.pyEqAll (plainPart groupBy key) (plainKey groupBy f) = true :=
        ih (Nat.succ.inj hlen)
        (fun name value hin => hshow name value (List.mem_cons_of_mem _ hin))
        (fun name hin => hf name (List.mem_cons_of_mem _ hin))
      cases e with
      | column name =>
        refine Bool.and_eq_true_iff.mpr ⟨?_, hrest⟩
        have hv := hshow name v (List.mem_cons_self ..)
        rw [hf name (List.mem_cons_self ..), Value.pyEq_comm] at hv
        exact hv
      | _ => exact hrest

/-- **And only then.** -/
theorem compare_of_groupsRight (hne : groupBy ≠ [])
    (h : GroupsRight nullsFirst rows projections groupBy) :
    GroupsCompare nullsFirst rows projections groupBy := by
  obtain ⟨keys, out, hrun, hord, hcovers, hused, hall, -⟩ := h
  have hself : ∀ row ∈ rows,
      Value.pyEqAll (groupKey groupBy row) (groupKey groupBy row) = true := fun row hrow => by
    obtain ⟨key, -, hkey⟩ := hcovers row hrow
    exact Value.pyEqAll_trans (partialEquiv_pyEqAll.symm _ _ hkey) hkey
  have hgroups := groups_of fun row hrow => pyEqAll_plainKey (hself row hrow)
  rw [execAggregate_groups hne, bind_eq_ok] at hrun
  obtain ⟨groups, hsort, hagg⟩ := hrun
  obtain ⟨hperm, hordGroups⟩ := groups_strict
    (fun row hrow => pyEqAll_plainKey (hself row hrow)) hsort
  obtain ⟨pairs, rfl, rfl, hpairs⟩ := forall₂_pairs hall (aggregateGroups_eq_ok.mp hagg)
  rw [List.pairwise_map] at hord hordGroups
  -- a key and its group name the same rows
  have hgroup : ∀ p ∈ pairs, ∃ f rest row, p.2.2 = f :: rest ∧
      GroupRow projections groupBy f p.2.2 row ∧
      (Counts projections → row.get? "count" = some (.int (groupSize groupBy rows p.1))) ∧
      Value.pyEqAll (plainPart groupBy p.1) p.2.1 = true ∧ p.2 ∈ groupsOf groupBy rows ∧
      ∀ proj ∈ projections, Summable p.2.2 proj := by
    intro p hp
    obtain ⟨row, ⟨hshow, hcount⟩, agg, hrow, rfl⟩ := hpairs p hp
    have hg : p.2 ∈ groupsOf groupBy rows := hperm.subset (List.mem_map_of_mem hp)
    obtain ⟨f, rest, hr, hk⟩ := hgroups.named p.2 hg
    have hlen : p.1.length = groupBy.length := by
      obtain ⟨r, -, hr⟩ := hused p.1 (List.mem_map_of_mem hp)
      rw [pyEqAll_length hr, groupKey, List.length_map]
    have hgr : GroupRow projections groupBy f p.2.2 (setGroupKeys agg groupBy p.2.1) := by
      rw [hr] at hrow ⊢
      exact hk ▸ groupRow_of_aggregate hrow
    refine ⟨f, rest, _, hr, hgr, hcount, ?_, hg, (aggregateFrom_ok 0).mp ⟨_, hrow⟩⟩
    rw [hk]
    exact plainPart_shows hlen hshow hgr.shown
  have hfind : ∀ row ∈ rows, ∃ p ∈ pairs,
      Value.pyEqAll p.1 (groupKey groupBy row) = true ∧
        Value.pyEqAll p.2.1 (plainKey groupBy row) = true := by
    intro row hrow
    obtain ⟨key, hkey, hrk⟩ := hcovers row hrow
    obtain ⟨p, hp, rfl⟩ := List.mem_map.mp hkey
    obtain ⟨-, -, -, -, -, -, hplain, -, -⟩ := hgroup p hp
    have hrow' := @pyEqAll_plainPart groupBy _ _ hrk
    rw [plainPart_groupKey] at hrow'
    exact ⟨p, hp, hrk, Value.pyEqAll_trans (partialEquiv_pyEqAll.symm _ _ hplain) hrow'⟩
  have hagree : ∀ r ∈ rows, ∀ s ∈ rows, KeysAgree nullsFirst groupBy r s := by
    intro r hr s hs
    obtain ⟨p, hp, hpr, hpr'⟩ := hfind r hr
    obtain ⟨q, hq, hqs, hqs'⟩ := hfind s hs
    by_cases hpq : p = q
    · subst hpq
      exact Or.inl (Value.pyEqAll_trans (partialEquiv_pyEqAll.symm _ _ hpr) hqs)
    · rcases pairwise_or_flip (hord.and hordGroups) hp hq hpq with ⟨hb, hlt⟩ | ⟨hb, hlt⟩
      · exact Or.inr (Or.inl ⟨keyLt_congr hpr' hqs' hlt, keyBefore_congr hpr hqs hb⟩)
      · exact Or.inr (Or.inr ⟨keyLt_congr hqs' hpr' hlt, keyBefore_congr hqs hpr hb⟩)
  refine ⟨?_, ?_, hagree⟩
  · intro proj hproj name hname row hrow
    obtain ⟨p, hp, -, hkey⟩ := hfind row hrow
    obtain ⟨f, rest, out, -, -, -, -, hg, hsum⟩ := hgroup p hp
    apply hsum proj hproj name hname row
    rw [hgroups.bucket p.2 hg]
    exact List.mem_filter.mpr ⟨hrow, hkey⟩
  · intro hcounts hover row hrow first hfirst
    obtain ⟨p, hp, hkey, hplain⟩ := hfind row hrow
    obtain ⟨f, rest, shown, hr, hgr, hcount, -, hg, -⟩ := hgroup p hp
    have hfilter : p.2.2 = rows.filter fun r =>
        Value.pyEqAll (groupKey groupBy row) (groupKey groupBy r) := by
      rw [hgroups.bucket p.2 hg]
      apply List.filter_congr
      intro r hrin
      rw [← (hagree row hrow r hrin).plain, Bool.eq_iff_iff]
      exact ⟨fun h => Value.pyEqAll_trans (partialEquiv_pyEqAll.symm _ _ hplain) h,
        fun h => Value.pyEqAll_trans hplain h⟩
    have hhead : f = first := by
      rw [← List.head?_filter, ← hfilter, hr] at hfirst
      exact Option.some.inj hfirst
    have hsize : groupSize groupBy rows p.1 = groupSize groupBy rows (groupKey groupBy row) := by
      apply List.countP_congr
      intro r _
      exact ⟨fun h => Value.pyEqAll_trans (partialEquiv_pyEqAll.symm _ _ hkey) h,
        fun h => Value.pyEqAll_trans hkey h⟩
    have hshown := hgr.count hcounts
    rw [hcount hcounts, if_pos hover, hhead, hsize] at hshown
    exact (Option.some.inj hshown).symm

end

/-- A row with one column. -/
def cellRow (value : Value) : RowDict := OrdDict.ofList [("a", value)]

def countAll : List Expr := [.sqlLiteral (.text "COUNT(*)") "COUNT(*)"]

end TinyDB
