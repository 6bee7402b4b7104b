import TinyDB.Database
import TinyDB.OrderBy
import TinyDB.ParserSound

/-!
# What the items of a SELECT list give

The parser keeps of `a AS b` the name `b` only, `_project_row` looks a text that begins with
a letter up as a column, and the items share one dictionary. `projections_iff`: every output
row holds the value of every item exactly when no item of the list meets one of these.
-/

namespace TinyDB

open Lib Lexeme Grammar

/-! ## Items -/

/-- An item of a list without aggregates. -/
inductive SelectItem where
  | star
  | column (table : Option String) (name : String)
  | literal (value : Value) (raw : String)
  | named (table : Option String) (name alias' : String)
  deriving DecidableEq

def columnRef (table : Option String) (name : String) : Expr :=
  match table with
  | none => .column name
  | some table => .qualifiedColumn (some table) name

namespace SelectItem

/-- How the item is written. -/
inductive Spelled (py : Python) : List Lexeme → SelectItem → Prop where
  | star : Spelled py [punct "*"] .star
  | column {s : List Lexeme} {table : Option String} {name : String} :
    ColumnRef s (columnRef table name) → Spelled py s (.column table name)
  | literal {l : Lexeme} {value : Value} {raw : String} : l.type = .number ∨ l.type = .string →
      Literal py l value raw → Spelled py [l] (.literal value raw)
  | named {s : List Lexeme} {table : Option String} {name : String} (alias' : String) :
    ColumnRef s (columnRef table name) →
      Spelled py (s ++ [keyword "AS", ident alias']) (.named table name alias')

/-- What the parser makes of the item. -/
def parsed : SelectItem → Expr
  | .star => .star
  | .column table name => columnRef table name
  | .literal value raw => if value = .text "*" then .star else .sqlLiteral value raw
  | .named _ _ alias' => .column alias'

theorem projection_parsed {py : Python} {s : List Lexeme} {item : SelectItem}
    (h : Spelled py s item) : Projection py CodeStar s item.parsed := by
  cases h with
  | star => exact .star (Or.inl rfl)
  | column hc => exact .column hc
  | @literal l value raw htype hl =>
    rw [parsed]
    split
    · rename_i htext
      subst htext
      cases hl with
      | string => exact .star (Or.inr rfl)
      | number hnum =>
        rw [Python.parseNumber] at hnum
        split at hnum
        · cases hf : py.float _ with
          | error e =>
            rw [hf] at hnum
            cases hnum
          | ok f =>
            rw [hf] at hnum
            cases hnum
        · cases hn : py.int _ with
          | error e =>
            rw [hn] at hnum
            cases hnum
          | ok n =>
            rw [hn] at hnum
            cases hnum
    · rename_i htext
      refine .literal ?_ htype hl
      rintro (rfl | rfl)
      · rcases htype with h | h <;> cases h
      · cases hl with
        | string => exact htext rfl
  | named alias' hc => exact .named alias' hc

variable [PyText]

/-- The name of the item in an output row. -/
def key : SelectItem → String
  | .star => "*"
  | .column _ name => name
  | .literal value raw => projKey 0 (.sqlLiteral value raw)
  | .named _ _ alias' => alias'

/-- The value of the item for a row. -/
def value (row : RowDict) : SelectItem → Value
  | .star => .null
  | .column table name => refValue row (columnRef table name)
  | .literal value _ => value
  | .named table name _ => refValue row (columnRef table name)

/-- The output row has the value of the item. -/
def HeldBy (row out : RowDict) : SelectItem → Prop
  | .star => ∀ name value, name ≠ "rowid" → row.get? name = some value → out.get? name = some value
  | item => out.get? item.key = some (item.value row)

/-- The value that `_project_row` writes is the one of the item: what stands under the alias is
the column, and a text that begins with a letter is found in the row. -/
def Faithful (row : RowDict) : SelectItem → Prop
  | .named table name alias' => row.find alias' = refValue row (columnRef table name)
  | .literal (.text s) _ => ∀ c ∈ s.toList.head?, PyText.isalpha c = true →
      row.find (aggregateName s.toList) = .text s
  | _ => True

end SelectItem

/-! ## The statement -/

section

variable [PyText]

/-- The rows that the query selects, before they are projected. -/
def selectedRows (store : FileStore) (catalog : Catalog) (entry : TableMeta) (stmt : Select) :
    Except PyErr (List RowDict) :=
  if stmt.joins = [] then execSingleTable store entry stmt false
  else do
    let tables := entry.name :: stmt.joins.map resolveTableName
    resolveQualifiedColumns (ambiguousColumns catalog tables) stmt.projections
    let leftDicts ← scanTable store entry
    let result ← joinAll store catalog leftDicts stmt.joins
    let result ← filterRaising (fun row => evalWhere row stmt.where') result
    let result ← sortRows stmt.orderBy id result
    .ok (limitRows stmt.limit stmt.offset result)

/-- There is an output row for each selected row, and it holds the value of every item. -/
def ProjectsRight (db : Database) (stmt : Select) (items : List SelectItem) : Prop :=
  ∀ entry rows, db.catalog.getTable stmt.table = .ok entry →
    selectedRows db.store db.catalog entry stmt = .ok rows →
    ∃ out, db.dispatchSelect stmt = .ok (.rows out) ∧
      List.Forall₂ (fun row outRow => ∀ item ∈ items, item.HeldBy row outRow) rows out

/-- With a `*` the row is returned as it is, and has the value of each other item under its
name. Without, there is no empty text, items of one name have one value, and the last item of
each name is faithful. -/
def Projectable (items : List SelectItem) (row : RowDict) : Prop :=
  if .star ∈ items.map SelectItem.parsed then
    ∀ item ∈ items, item ≠ .star →
      item.key ≠ "rowid" ∧ row.get? item.key = some (item.value row)
  else
    (∀ raw, .literal (.text "") raw ∉ items) ∧
      (∀ i ∈ items, ∀ j ∈ items, i.key = j.key → i.value row = j.value row) ∧
      ∀ name item, (items.filter fun i => decide (i.key = name)).getLast? = some item →
        item.Faithful row

end

/-! ## One row -/

section

variable [PyText] {items : List SelectItem} {row out : RowDict}

namespace SelectItem

/-- What `_project_row` writes for an item. -/
def written (row : RowDict) : SelectItem → Value
  | .named _ _ alias' => row.find alias'
  | .literal (.text s) _ =>
    match s.toList with
    | [] => .text s
    | c :: text => if PyText.isalpha c then row.find (aggregateName (c :: text)) else .text s
  | item => item.value row

theorem written_eq_value {item : SelectItem} :
    item.written row = item.value row ↔ item.Faithful row := by
  cases item with
  | star => exact iff_of_true rfl trivial
  | column table name => exact iff_of_true rfl trivial
  | named table name alias' => exact Iff.rfl
  | literal value raw =>
    cases value with
    | text s =>
      rw [written, Faithful]
      cases s.toList with
      | nil => exact iff_of_true rfl fun c hc => by cases hc
      | cons c text =>
        by_cases hc : PyText.isalpha c = true
        · simp only [hc, if_true]
          exact ⟨fun h d _ _ => h, fun h => h c rfl hc⟩
        · simp only [hc]
          refine iff_of_true rfl fun d hd halpha => ?_
          cases hd
          exact absurd halpha hc
    | _ => exact iff_of_true rfl trivial

theorem projectOne_parsed {item : SelectItem} (hstar : item.parsed ≠ .star)
    (hempty : ∀ raw, item ≠ .literal (.text "") raw) (index : Nat) :
    projectOne row index item.parsed out = .ok (out.set item.key (item.written row)) := by
  cases item with
  | star => exact absurd rfl hstar
  | column table name =>
    cases table with
    | none => rfl
    | some table => rfl
  | named table name alias' => rfl
  | literal value raw =>
    have hparsed : (SelectItem.literal value raw).parsed = .sqlLiteral value raw := by
      rw [parsed, if_neg]
      rintro rfl
      exact hstar (by rw [parsed, if_pos rfl])
    rw [hparsed]
    cases value with
    | text s =>
      rw [projectOne, written]
      cases hs : s.toList with
      | nil =>
        have hnil : s = "" := String.toList_inj.mp (by rw [hs]; rfl)
        subst hnil
        exact absurd rfl (hempty raw)
      | cons c text => rfl
    | _ => rfl

theorem projectOne_empty (raw : String) (index : Nat) :
    projectOne row index (SelectItem.literal (.text "") raw).parsed out = .error .indexError := rfl

end SelectItem

theorem projectFrom_parsed (hstar : ∀ item ∈ items, item.parsed ≠ .star)
    (hempty : ∀ item ∈ items, ∀ raw, item ≠ .literal (.text "") raw) (index : Nat) :
    projectFrom row index (items.map SelectItem.parsed) out =
      .ok (items.foldl (fun out item => out.set item.key (item.written row)) out) := by
  induction items generalizing index out with
  | nil => rfl
  | cons item items ih =>
    rw [List.map_cons, projectFrom, SelectItem.projectOne_parsed (hstar item (List.mem_cons_self ..))
      (hempty item (List.mem_cons_self ..)), ok_bind]
    exact ih (fun i hi => hstar i (List.mem_cons_of_mem _ hi))
      (fun i hi => hempty i (List.mem_cons_of_mem _ hi)) (index + 1)

theorem projectFrom_empty {raw : String} (hin : .literal (.text "") raw ∈ items) (index : Nat) :
    (projectFrom row index (items.map SelectItem.parsed) out).isOk = false := by
  induction items generalizing index out with
  | nil => cases hin
  | cons item items ih =>
    rw [List.map_cons, projectFrom]
    rcases List.mem_cons.mp hin with rfl | hin
    · rw [SelectItem.projectOne_empty]
      rfl
    · cases projectOne row index item.parsed out with
      | error e => rfl
      | ok next => exact ih hin (index + 1)

/-- The last item of a name gives its value. -/
theorem get?_foldl_items (name : String) :
    (items.foldl (fun out item => out.set item.key (item.written row)) out).get? name =
      ((items.filter fun i => decide (i.key = name)).getLast?.map
        (SelectItem.written row)).or (out.get? name) := by
  induction items generalizing out with
  | nil => rfl
  | cons item items ih =>
    rw [List.foldl_cons, ih, OrdDict.get?_set, List.filter_cons]
    by_cases hname : item.key = name
    · rw [if_pos hname, if_pos (decide_eq_true hname), List.getLast?_cons]
      cases (items.filter fun i => decide (i.key = name)).getLast? <;> rfl
    · rw [if_neg hname, if_neg (by simpa using hname)]

/-- A row is projected right exactly when it is projectable. -/
theorem projectRow_iff (hstar : .star ∉ items.map SelectItem.parsed) :
    (∃ out, projectRow (items.map SelectItem.parsed) row = .ok out ∧
      ∀ item ∈ items, item.HeldBy row out) ↔ Projectable items row := by
  have hnone : ∀ item ∈ items, item.parsed ≠ .star := fun item hi he =>
    hstar (he ▸ List.mem_map_of_mem hi)
  have hheld : ∀ item ∈ items, ∀ out, item.HeldBy row out ↔
      out.get? item.key = some (item.value row) := by
    intro item hi out
    cases item with
    | star => exact absurd rfl (hnone _ hi)
    | _ => exact Iff.rfl
  rw [Projectable, if_neg hstar]
  by_cases hempty : ∃ raw, SelectItem.literal (.text "") raw ∈ items
  · obtain ⟨raw, hin⟩ := hempty
    constructor
    · rintro ⟨out, hrow, -⟩
      have hfail := @projectFrom_empty _ items row OrdDict.empty raw hin 0
      rw [projectRow] at hrow
      rw [hrow] at hfail
      cases hfail
    · rintro ⟨hno, -⟩
      exact absurd hin (hno raw)
  · have hno : ∀ raw, SelectItem.literal (.text "") raw ∉ items := fun raw hin => hempty ⟨raw, hin⟩
    rw [projectRow, projectFrom_parsed hnone fun item hi raw he => hno raw (he ▸ hi)]
    -- the value under a name is what its last item writes
    have hlast : ∀ item ∈ items, ∃ last ∈ items, last.key = item.key ∧
        (items.filter fun i => decide (i.key = item.key)).getLast? = some last := by
      intro item hi
      have hne : (items.filter fun i => decide (i.key = item.key)) ≠ [] :=
        List.ne_nil_of_mem (List.mem_filter.mpr ⟨hi, decide_eq_true rfl⟩)
      obtain ⟨last, hl⟩ : ∃ last,
          (items.filter fun i => decide (i.key = item.key)).getLast? = some last :=
        ⟨_, List.getLast?_eq_some_getLast hne⟩
      have hmem := List.mem_filter.mp (List.mem_of_getLast? hl)
      exact ⟨last, hmem.1, of_decide_eq_true hmem.2, hl⟩
    have hget : ∀ name last,
        (items.filter fun i => decide (i.key = name)).getLast? = some last →
        (items.foldl (fun out item => out.set item.key (item.written row))
          OrdDict.empty).get? name = some (last.written row) := by
      intro name last hl
      rw [get?_foldl_items, hl]
      rfl
    simp only [Except.ok.injEq, exists_eq_left']
    constructor
    · intro hall
      have hvalue : ∀ item ∈ items, ∀ last,
          (items.filter fun i => decide (i.key = item.key)).getLast? = some last →
          last.written row = item.value row := by
        intro item hi last hl
        have hitem := (hheld item hi _).mp (hall item hi)
        rw [hget _ _ hl] at hitem
        exact Option.some.inj hitem
      refine ⟨hno, fun i hi j hj hkey => ?_, fun name last hl => ?_⟩
      · obtain ⟨last, -, -, hl⟩ := hlast i hi
        rw [← hvalue i hi last hl]
        rw [hkey] at hl
        exact hvalue j hj last hl
      · have hmem := List.mem_filter.mp (List.mem_of_getLast? hl)
        rw [← of_decide_eq_true hmem.2] at hl
        exact SelectItem.written_eq_value.mp (hvalue last hmem.1 last hl)
    · rintro ⟨-, hone, hfaithful⟩ item hi
      obtain ⟨last, hmem, hkey, hl⟩ := hlast item hi
      rw [hheld item hi, hget _ _ hl,
        SelectItem.written_eq_value.mpr (hfaithful item.key last hl),
        hone last hmem item hi hkey]

end

/-! ## The query -/

section

variable [PyText] {db : Database} {stmt : Select} {items : List SelectItem}

theorem execSingleTable_returned (store : FileStore) (entry : TableMeta) (project : Bool) :
    execSingleTable store entry stmt project = (do
      let rows ← execSingleTable store entry stmt false
      returned stmt project rows) := by
  simp only [execSingleTable]
  cases Heap.scan ⟨entry.rootPageId, entry.schema⟩ store with
  | error e => rfl
  | ok rows =>
    simp only [ok_bind]
    cases filterRaising _ rows with
    | error e => rfl
    | ok kept =>
      simp only [ok_bind]
      cases sortRows stmt.orderBy _ kept with
      | error e => rfl
      | ok sorted =>
        simp only [ok_bind, if_true]
        rfl

/-- With a join the selected rows are projected in any case. -/
theorem execSelect_joined (hjoins : stmt.joins ≠ []) (store : FileStore) (catalog : Catalog)
    (entry : TableMeta) (project : Bool) : execSelect store catalog entry stmt project = (do
      let rows ← selectedRows store catalog entry stmt
      returned stmt true rows) := by
  rw [execSelect, selectedRows, if_neg hjoins, if_neg hjoins]
  simp only [execJoinPath]
  cases resolveQualifiedColumns _ stmt.projections with
  | error e => rfl
  | ok u =>
    simp only [ok_bind]
    cases scanTable store entry with
    | error e => rfl
    | ok lefts =>
      simp only [ok_bind]
      cases joinAll store catalog lefts stmt.joins with
      | error e => rfl
      | ok joined =>
        simp only [ok_bind]
        cases filterRaising _ joined with
        | error e => rfl
        | ok kept =>
          simp only [ok_bind]
          cases sortRows stmt.orderBy id kept with
          | error e => rfl
          | ok sorted =>
            simp only [ok_bind, returned, Bool.true_eq_false, if_false]

/-- Without aggregates the query projects the selected rows. -/
theorem dispatchSelect_plain (hgroup : stmt.groupBy = [])
    (hagg : hasAggregate stmt.projections = false) :
    db.dispatchSelect stmt = (do
      let entry ← db.catalog.getTable stmt.table
      let rows ← selectedRows db.store db.catalog entry stmt
      let out ← returned stmt true rows
      .ok (.rows out)) := by
  have hselect : ∀ entry, execSelect db.store db.catalog entry stmt true = (do
      let rows ← selectedRows db.store db.catalog entry stmt
      returned stmt true rows) := by
    intro entry
    by_cases hjoins : stmt.joins = []
    · rw [execSelect, selectedRows, if_pos hjoins, if_pos hjoins]
      exact execSingleTable_returned db.store entry true
    · exact execSelect_joined hjoins db.store db.catalog entry true
  simp only [Database.dispatchSelect, hgroup, hagg, ne_eq, not_true, decide_false, Bool.or_false,
    Bool.not_false, hselect]
  cases db.catalog.getTable stmt.table with
  | error e => rfl
  | ok entry =>
    simp only [ok_bind]
    cases selectedRows db.store db.catalog entry stmt with
    | error e => rfl
    | ok rows => rfl

theorem dispatchSelect_eq_ok (hgroup : stmt.groupBy = [])
    (hagg : hasAggregate stmt.projections = false) {out : List RowDict} :
    db.dispatchSelect stmt = .ok (.rows out) ↔ (do
      let entry ← db.catalog.getTable stmt.table
      let rows ← selectedRows db.store db.catalog entry stmt
      returned stmt true rows) = .ok out := by
  simp only [dispatchSelect_plain hgroup hagg, bind_eq_ok, Except.ok.injEq,
    Database.Returned.rows.injEq, exists_eq_right]

/-- With them it returns one row. -/
theorem dispatchSelect_aggregate (hgroup : stmt.groupBy = [])
    (hagg : hasAggregate stmt.projections = true) {out : List RowDict}
    (h : db.dispatchSelect stmt = .ok (.rows out)) : out.length = 1 := by
  simp only [Database.dispatchSelect, hgroup, hagg, Bool.or_true, if_true, bind_eq_ok,
    execAggregate, Except.ok.injEq] at h
  obtain ⟨entry, -, rows, -, result, ⟨agg, -, rfl⟩, hout⟩ := h
  cases hout
  rfl

theorem projectRows_eq_ok {projections : List Expr} {rows out : List RowDict} :
    projectRows projections rows = .ok out ↔
      List.Forall₂ (fun row outRow => projectRow projections row = .ok outRow) rows out := by
  induction rows generalizing out with
  | nil => rw [List.forall₂_nil_left_iff, projectRows, Except.ok.injEq, eq_comm]
  | cons row rows ih =>
    simp only [projectRows, bind_eq_ok, Except.ok.injEq, List.forall₂_cons_left_iff, ih]
    constructor
    · rintro ⟨first, hfirst, rest, hrest, rfl⟩
      exact ⟨first, rest, hfirst, hrest, rfl⟩
    · rintro ⟨first, rest, hfirst, hrest, rfl⟩
      exact ⟨first, hfirst, rest, hrest, rfl⟩

omit [PyText] in
theorem mem_parsed_iff : hasStar (items.map SelectItem.parsed) = true ↔
    .star ∈ items.map SelectItem.parsed := by
  simp only [hasStar, List.any_eq_true, decide_eq_true_eq]
  constructor
  · rintro ⟨e, he, rfl⟩
    exact he
  · exact fun h => ⟨_, h, rfl⟩

/-- What is returned holds the items exactly when every row is projectable. -/
theorem returned_iff (hparsed : stmt.projections = items.map SelectItem.parsed)
    (rows : List RowDict) :
    (∃ out, returned stmt true rows = .ok out ∧
      List.Forall₂ (fun row outRow => ∀ item ∈ items, item.HeldBy row outRow) rows out) ↔
      ∀ row ∈ rows, Projectable items row := by
  simp only [returned, hparsed, Bool.true_eq_false, if_false]
  by_cases hstar : Expr.star ∈ items.map SelectItem.parsed
  · rw [if_pos (mem_parsed_iff.mpr hstar)]
    have hrow : ∀ row : RowDict, (∀ item ∈ items, item.HeldBy row (row.erase "rowid")) ↔
        Projectable items row := by
      intro row
      rw [Projectable, if_pos hstar]
      apply forall₂_congr
      intro item hi
      cases item with
      | star =>
        refine iff_of_true (fun name value hne hget => ?_) fun h => absurd rfl h
        rw [OrdDict.get?_erase, if_neg fun h => hne h.symm]
        exact hget
      | _ =>
        simp only [SelectItem.HeldBy, OrdDict.get?_erase, ne_eq, reduceCtorEq, not_false_eq_true,
          forall_const]
        split
        · rename_i hkey
          exact iff_of_false (fun h => by cases h) fun h => h.1 hkey.symm
        · rename_i hkey
          exact ⟨fun h => ⟨fun he => hkey he.symm, h⟩, fun h => h.2⟩
    simp only [Except.ok.injEq, exists_eq_left', List.forall₂_map_right_iff, List.forall₂_same, hrow]
  · rw [if_neg fun h => hstar (mem_parsed_iff.mp h)]
    simp only [projectRows_eq_ok, ← projectRow_iff hstar]
    constructor
    · rintro ⟨out, hrows, hheld⟩ row hrow
      obtain ⟨i, hi, rfl⟩ := List.getElem_of_mem hrow
      have hlen := hrows.length_eq
      exact ⟨out[i], List.Forall₂.get hrows hi (hlen ▸ hi), List.Forall₂.get hheld hi (hlen ▸ hi)⟩
    · intro hall
      induction rows with
      | nil => exact ⟨[], .nil, .nil⟩
      | cons row rows ih =>
        obtain ⟨first, hfirst, hheld⟩ := hall row (List.mem_cons_self ..)
        obtain ⟨rest, hrest, hheld'⟩ := ih fun r hr => hall r (List.mem_cons_of_mem _ hr)
        exact ⟨first :: rest, .cons hfirst hrest, .cons hheld hheld'⟩

/-- **What the items of a SELECT list give.** Every output row holds the value of every item if
nothing in the list is taken for an aggregate and the selected rows are projectable; and only
then, unless something is and just one row is selected. -/
theorem projections_iff (db : Database) (stmt : Select) (items : List SelectItem)
    (hparsed : stmt.projections = items.map SelectItem.parsed) (hgroup : stmt.groupBy = []) :
    (hasAggregate stmt.projections = false →
      (∀ entry rows, db.catalog.getTable stmt.table = .ok entry →
        selectedRows db.store db.catalog entry stmt = .ok rows →
        ∀ row ∈ rows, Projectable items row) → ProjectsRight db stmt items) ∧
    (ProjectsRight db stmt items →
      ∀ entry rows, db.catalog.getTable stmt.table = .ok entry →
        selectedRows db.store db.catalog entry stmt = .ok rows →
        (hasAggregate stmt.projections = false ∧ ∀ row ∈ rows, Projectable items row) ∨
          hasAggregate stmt.projections = true ∧ rows.length = 1) := by
  constructor
  · intro hagg hall entry rows hentry hrows
    obtain ⟨out, hout, hheld⟩ := (returned_iff hparsed rows).mpr (hall entry rows hentry hrows)
    refine ⟨out, ?_, hheld⟩
    simp only [dispatchSelect_plain hgroup hagg, hentry, hrows, hout, ok_bind]
  · intro h entry rows hentry hrows
    obtain ⟨out, hout, hheld⟩ := h entry rows hentry hrows
    cases hagg : hasAggregate stmt.projections with
    | true =>
      refine Or.inr ⟨rfl, ?_⟩
      rw [hheld.length_eq]
      exact dispatchSelect_aggregate hgroup hagg hout
    | false =>
      refine Or.inl ⟨rfl, (returned_iff hparsed rows).mp ⟨out, ?_, hheld⟩⟩
      simp only [dispatchSelect_plain hgroup hagg, hentry, hrows, ok_bind, bind_eq_ok,
        Except.ok.injEq] at hout
      obtain ⟨out', hret, hsame⟩ := hout
      cases hsame
      exact hret

end

/-! ## A row with one column -/

namespace Database

/-- `SELECT a, 7 FROM t`. -/
theorem projections_column_and_number :
    ProjectsRight fiveRow { projections := [.column "a", .sqlLiteral (.int 7) "7"], table := "t" }
      [.column none "a", .literal (.int 7) "7"] := by
  refine (projections_iff fiveRow _ [.column none "a", .literal (.int 7) "7"] rfl rfl).1
    (by decide) ?_
  intro entry rows hentry hrows row hrow
  have hfive : fiveRow.catalog.getTable "t" = .ok intEntry := by decide +kernel
  obtain rfl : intEntry = entry := Except.ok.inj (hfive.symm.trans hentry)
  have hsel : selectedRows fiveRow.store fiveRow.catalog intEntry
      { projections := [.column "a", .sqlLiteral (.int 7) "7"], table := "t" } =
      .ok [dictOf intEntry (1, [.int 5])] := by decide +kernel
  obtain rfl : [dictOf intEntry (1, [.int 5])] = rows := Except.ok.inj (hsel.symm.trans hrows)
  rw [List.mem_singleton.mp hrow, Projectable, if_neg (by decide)]
  refine ⟨fun raw hin => ?_, ?_, fun name item hl => ?_⟩
  · simp at hin
  · intro i hi j hj hkey
    simp only [List.mem_cons, List.not_mem_nil, or_false] at hi hj
    rcases hi with rfl | rfl
    · rcases hj with rfl | rfl
      · rfl
      · exact absurd hkey (by decide +kernel)
    · rcases hj with rfl | rfl
      · exact absurd hkey (by decide +kernel)
      · rfl
  · have hmem := (List.mem_filter.mp (List.mem_of_getLast? hl)).1
    simp only [List.mem_cons, List.not_mem_nil, or_false] at hmem
    rcases hmem with rfl | rfl
    · trivial
    · trivial

/-- `SELECT a AS b FROM t` gives NULL. -/
theorem alias_loses_column :
    ¬ ProjectsRight fiveRow { projections := [.column "b"], table := "t" }
      [.named none "a" "b"] := by
  intro h
  obtain ⟨out, hout, hheld⟩ := h intEntry [dictOf intEntry (1, [.int 5])] (by decide +kernel)
    (by decide +kernel)
  rw [dispatchSelect_eq_ok rfl (by decide)] at hout
  have hrun : (do
      let entry ← fiveRow.catalog.getTable "t"
      let rows ← selectedRows fiveRow.store fiveRow.catalog entry
        { projections := [.column "b"], table := "t" }
      returned { projections := [.column "b"], table := "t" } true rows) =
      .ok [OrdDict.ofList [("b", .null)]] := by decide +kernel
  obtain rfl := Except.ok.inj (hrun.symm.trans hout)
  rw [List.forall₂_cons] at hheld
  have hb : (OrdDict.ofList [("b", Value.null)]).get? "b" = some (.int 5) :=
    hheld.1 (.named none "a" "b") (List.mem_cons_self ..)
  exact absurd hb (by decide)

end Database

end TinyDB
