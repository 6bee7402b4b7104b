import TinyDB.Joins
import TinyDB.PlanRows
import TinyDB.Projections

/-!
# The column names of `SELECT *` over joins

A match puts the columns of the right table under their own names where these are free, and
its rowid under a dotted name; NULLs come under dotted names only. `star_names_iff`: all rows
have one name for each column exactly when the matches that the returned rows have found give
the columns the same names, and no rowid shows.
-/

namespace TinyDB

open Lib

/-! ## Names -/

/-- One name for each column of the tables: its own, or with the table's name in front. -/
def OneNameEach (catalog : Catalog) (tables names : List String) : Prop :=
  List.Forall₂ (fun column name => name = column.2 ∨ name = column.1 ++ "." ++ column.2)
    (tables.flatMap fun table => (columnsOf catalog table).map fun col => (table, col)) names ∧
    names.Nodup

/-- All rows have the same names, one for each column of the tables. -/
def SameNames (catalog : Catalog) (tables : List String) (rows : List RowDict) : Prop :=
  ∃ names, ∀ row ∈ rows, OneNameEach catalog tables names ∧ ∀ key, key ∈ row.keys ↔ key ∈ names

/-- The tables of the query, from left to right. -/
def joinedNames (stmt : Select) : List String := stmt.table :: stmt.joins.map resolveTableName

/-- The returned rows all have the same names, one for each column of every joined table. -/
def StarNames [PyText] (db : Database) (stmt : Select) : Prop :=
  ∀ rows, db.dispatchSelect stmt = .ok (.rows rows) →
    SameNames db.catalog (joinedNames stmt) rows

/-! ## Matches -/

/-- For each joined table, whether the row found a match there. -/
abbrev Matches := List (String × Bool)

/-- `exec_nested_loop_join`, with the matches of each row. -/
def joinRowsTraced (join : JoinClause) (rightTable : String) (rightSchema : Schema)
    (rightRows : List RowDict) :
    List (RowDict × Matches) → Except PyErr (List (RowDict × Matches))
  | [] => .ok []
  | left :: lefts => do
    let matched ← matchRows join left.1 rightRows
    let rest ← joinRowsTraced join rightTable rightSchema rightRows lefts
    if join.kind = .left ∧ matched = [] then
      .ok ((left.1.update (nullRight rightTable rightSchema),
        left.2 ++ [(rightTable, false)]) :: rest)
    else .ok (matched.map (fun row => (row, left.2 ++ [(rightTable, true)])) ++ rest)

def joinAllTraced (store : FileStore) (catalog : Catalog) :
    List (RowDict × Matches) → List JoinClause → Except PyErr (List (RowDict × Matches))
  | result, [] => .ok result
  | result, join :: joins => do
    checkJoinTypeCompatibility join catalog
    let rightMeta ← catalog.getTable (resolveTableName join)
    let rightRows ← scanTable store rightMeta
    let result ← joinRowsTraced join (resolveTableName join) rightMeta.schema rightRows result
    joinAllTraced store catalog result joins

/-- The selected rows with their matches. -/
def selectedTraced (store : FileStore) (catalog : Catalog) (entry : TableMeta) (stmt : Select) :
    Except PyErr (List (RowDict × Matches)) := do
  let tables := entry.name :: stmt.joins.map resolveTableName
  resolveQualifiedColumns (ambiguousColumns catalog tables) stmt.projections
  let leftDicts ← scanTable store entry
  let result ← joinAllTraced store catalog (leftDicts.map fun row => (row, [])) stmt.joins
  let result ← filterRaising (fun row => evalWhere row.1 stmt.where') result
  let result ← sortRows stmt.orderBy Prod.fst result
  .ok (limitRows stmt.limit stmt.offset result)

/-- The name of a column of a joined table, after tables whose columns stand under the names
in `bare`. -/
def columnName (bare : List String) (table : String) (found : Bool) (col : String) : String :=
  if found = true ∧ col ≠ "rowid" ∧ col ∉ bare then col else table ++ "." ++ col

def namesAfter (catalog : Catalog) (bare : List String) : Matches → List String
  | [] => []
  | (table, found) :: rest =>
    (columnsOf catalog table).map (columnName bare table found) ++
      namesAfter catalog (if found then bare ++ columnsOf catalog table else bare) rest

/-- The names of all columns in a row with the matches. -/
def columnNames (catalog : Catalog) (table : String) (found : Matches) : List String :=
  columnsOf catalog table ++ namesAfter catalog (columnsOf catalog table) found

/-- The row has one name for each column, and the other rows have the same: no table repeats a
column, the first has no column `rowid`, each table where the row found a match has one, and
the matches of every other row give the columns the same names. -/
structure NamesFit (catalog : Catalog) (stmt : Select) (traced : List (RowDict × Matches))
    (row : RowDict × Matches) : Prop where
  distinct : ∀ table ∈ joinedNames stmt, (columnsOf catalog table).Nodup
  rowid : "rowid" ∉ columnsOf catalog stmt.table
  found : ∀ part ∈ row.2, part.2 = true → "rowid" ∈ columnsOf catalog part.1
  agree : ∀ other ∈ traced,
    columnNames catalog stmt.table other.2 = columnNames catalog stmt.table row.2

/-! ## Keys -/

section

variable {left right : RowDict} {k key : String} {v : Value}

theorem mem_keys_set : key ∈ (left.set k v).keys ↔ key = k ∨ key ∈ left.keys := by
  rw [← not_iff_not, not_or, ← OrdDict.get?_eq_none_iff, ← OrdDict.get?_eq_none_iff,
    OrdDict.get?_set]
  by_cases h : k = key
  · rw [if_pos h]
    exact iff_of_false (fun h => by cases h) fun hn => hn.1 h.symm
  · rw [if_neg h]
    exact ⟨fun hn => ⟨fun he => h he.symm, hn⟩, fun hn => hn.2⟩

theorem mem_keys_erase : key ∈ (left.erase k).keys ↔ key ≠ k ∧ key ∈ left.keys := by
  rw [← not_iff_not, not_and, ← OrdDict.get?_eq_none_iff, ← OrdDict.get?_eq_none_iff,
    OrdDict.get?_erase]
  by_cases h : k = key
  · rw [if_pos h]
    exact iff_of_true rfl fun hne => absurd h.symm hne
  · rw [if_neg h]
    exact ⟨fun hn _ => hn, fun hn => hn fun he => h he.symm⟩

theorem mem_keys_update : key ∈ (left.update right).keys ↔ key ∈ left.keys ∨ key ∈ right.keys := by
  rw [← not_iff_not, not_or, ← OrdDict.get?_eq_none_iff, ← OrdDict.get?_eq_none_iff,
    ← OrdDict.get?_eq_none_iff, OrdDict.get?_update, Option.or_eq_none_iff]
  exact and_comm

theorem mem_keys_nullRight {table : String} {schema : Schema} :
    key ∈ (nullRight table schema).keys ↔
      key = "rowid" ∨ key ∈ (schema.map Prod.fst).map fun col => table ++ "." ++ col := by
  rw [nullRight, mem_keys_set]
  apply or_congr_right
  rw [← not_iff_not, ← OrdDict.get?_eq_none_iff, OrdDict.get?_ofList_eq_none_iff, List.map_map,
    List.map_map]
  rfl

/-- A merge adds each key of the right row, in front of it the table's name where the left row
has the key. -/
theorem mem_keys_mergeRows {join : JoinClause} (h : ∀ k ∈ right.keys, Dotless k) :
    key ∈ (mergeRows left right join).keys ↔ key ∈ left.keys ∨
      key ∈ right.keys.map fun k =>
        if k ∈ left.keys then resolveTableName join ++ "." ++ k else k := by
  have hloop : ∀ (entries : List (String × Value)) (left : RowDict),
      (∀ e ∈ entries, Dotless e.1) → (entries.map Prod.fst).Nodup →
      (key ∈ (entries.foldl (fun merged e =>
        if merged.contains e.1 then merged.set (resolveTableName join ++ "." ++ e.1) e.2
        else merged.set e.1 e.2) left).keys ↔ key ∈ left.keys ∨
        key ∈ (entries.map Prod.fst).map fun k =>
          if k ∈ left.keys then resolveTableName join ++ "." ++ k else k) := by
    intro entries
    induction entries with
    | nil => simp
    | cons e entries ih =>
      intro left hdot hnodup
      rw [List.map_cons, List.nodup_cons] at hnodup
      have hsame : ∀ name : String, name = e.1 ∨ name = resolveTableName join ++ "." ++ e.1 →
          ∀ k ∈ entries.map Prod.fst, (k ∈ (left.set name e.2).keys ↔ k ∈ left.keys) := by
        intro name hname k hk
        rw [mem_keys_set]
        apply or_iff_right
        rintro rfl
        rcases hname with rfl | rfl
        · exact hnodup.1 hk
        · obtain ⟨e', he', heq⟩ := List.mem_map.mp hk
          exact ne_dotted (hdot e' (List.mem_cons_of_mem _ he')) _ _ heq
      have hmap : ∀ name : String, name = e.1 ∨ name = resolveTableName join ++ "." ++ e.1 →
          (entries.map Prod.fst).map (fun k => if k ∈ (left.set name e.2).keys
            then resolveTableName join ++ "." ++ k else k) =
          (entries.map Prod.fst).map (fun k => if k ∈ left.keys
            then resolveTableName join ++ "." ++ k else k) := by
        intro name hname
        apply List.map_congr_left
        intro k hk
        simp only [hsame name hname k hk]
      rw [List.foldl_cons, List.map_cons, List.map_cons, List.mem_cons]
      have hrest := fun e' (he' : e' ∈ entries) => hdot e' (List.mem_cons_of_mem _ he')
      by_cases hc : e.1 ∈ left.keys
      · rw [if_pos ((OrdDict.contains_iff left e.1).mpr hc), ih _ hrest hnodup.2,
          hmap _ (Or.inr rfl), mem_keys_set, if_pos hc]
        exact or_assoc.trans or_left_comm
      · rw [if_neg fun h => hc ((OrdDict.contains_iff left e.1).mp h), ih _ hrest hnodup.2,
          hmap _ (Or.inl rfl), mem_keys_set, if_neg hc]
        exact or_assoc.trans or_left_comm
  refine hloop right.entries left (fun e he => h e.1 ?_) right.nodup
  exact List.mem_map_of_mem he

end

/-! ## Names and matches -/

section

variable {catalog : Catalog} {bare : List String} {table : String} {found : Matches}

/-- The names that stand without a table's name after the joins. -/
def bareAfter (catalog : Catalog) (bare : List String) : Matches → List String
  | [] => bare
  | (table, found) :: rest =>
    bareAfter catalog (if found then bare ++ columnsOf catalog table else bare) rest

/-- The rowids that show. -/
def rowidNames (found : Matches) : List String :=
  (found.filter Prod.snd).map fun part => part.1 ++ "." ++ "rowid"

theorem namesAfter_append (more : Matches) : namesAfter catalog bare (found ++ more) =
    namesAfter catalog bare found ++ namesAfter catalog (bareAfter catalog bare found) more := by
  induction found generalizing bare with
  | nil => rfl
  | cons part found ih =>
    obtain ⟨t, f⟩ := part
    rw [List.cons_append, namesAfter, ih, namesAfter, bareAfter, List.append_assoc]

theorem mem_columnName {f : Bool} {name : String} (hname : Dotless name) :
    name ∈ (columnsOf catalog table).map (columnName bare table f) ↔
      f = true ∧ name ≠ "rowid" ∧ name ∉ bare ∧ name ∈ columnsOf catalog table := by
  constructor
  · intro h
    obtain ⟨col, hcol, he⟩ := List.mem_map.mp h
    rw [columnName] at he
    split at he
    · rename_i hc
      subst he
      exact ⟨hc.1, hc.2.1, hc.2.2, hcol⟩
    · exact absurd he.symm (ne_dotted hname _ _)
  · rintro ⟨hf, hne, hbare, hcol⟩
    exact List.mem_map.mpr ⟨name, hcol, if_pos ⟨hf, hne, hbare⟩⟩

theorem mem_bareAfter {name : String} (hname : Dotless name) (hne : name ≠ "rowid") :
    name ∈ bareAfter catalog bare found ↔
      name ∈ bare ∨ name ∈ namesAfter catalog bare found := by
  induction found generalizing bare with
  | nil => simp [bareAfter, namesAfter]
  | cons part found ih =>
    obtain ⟨t, f⟩ := part
    rw [bareAfter, ih, namesAfter, List.mem_append, mem_columnName hname]
    cases f with
    | true =>
      by_cases hb : name ∈ bare
      · simp [hb]
      · simp [hb, hne]
    | false => simp

theorem dotless_not_mem_rowidNames {name : String} (hname : Dotless name) :
    name ∉ rowidNames found := by
  intro h
  obtain ⟨part, -, he⟩ := List.mem_map.mp h
  exact ne_dotted hname _ _ he.symm

/-- A name of a joined table is free and its own, or has the name of a table of the matches in
front. -/
theorem namesAfter_shape {key : String} (h : key ∈ namesAfter catalog bare found)
    (hcols : ∀ part ∈ found, ∀ col ∈ columnsOf catalog part.1, Dotless col) :
    (Dotless key ∧ key ≠ "rowid" ∧ key ∉ bare) ∨ ∃ part ∈ found,
      ∃ col ∈ columnsOf catalog part.1, key = part.1 ++ "." ++ col := by
  induction found generalizing bare with
  | nil => cases h
  | cons part found ih =>
    obtain ⟨t, f⟩ := part
    rw [namesAfter, List.mem_append] at h
    rcases h with h | h
    · obtain ⟨col, hcol, rfl⟩ := List.mem_map.mp h
      rw [columnName]
      split
      · rename_i hc
        exact Or.inl ⟨hcols _ (List.mem_cons_self ..) col hcol, hc.2⟩
      · exact Or.inr ⟨_, List.mem_cons_self .., col, hcol, rfl⟩
    · rcases ih h fun p hp => hcols p (List.mem_cons_of_mem _ hp) with
        ⟨hd, hne, hb⟩ | ⟨p, hp, hcol⟩
      · refine Or.inl ⟨hd, hne, fun hk => hb ?_⟩
        split
        · exact List.mem_append_left _ hk
        · exact hk
      · exact Or.inr ⟨p, List.mem_cons_of_mem _ hp, hcol⟩

end

/-! ## One name for each column -/

/-- The tables are distinct, and no name has a dot. -/
structure PlainTables (catalog : Catalog) (tables : List String) : Prop where
  distinct : tables.Nodup
  dotless : ∀ table ∈ tables, Dotless table ∧ ∀ col ∈ columnsOf catalog table, Dotless col

section

variable {catalog : Catalog} {bare : List String} {table : String} {found : Matches}

theorem PlainTables.tail (h : PlainTables catalog (table :: found.map Prod.fst)) :
    ∀ part ∈ found, ∀ col ∈ columnsOf catalog part.1, Dotless col := fun _ hpart =>
  (h.dotless _ (List.mem_cons_of_mem _ (List.mem_map_of_mem hpart))).2

theorem PlainTables.drop {tables : List String} (h : PlainTables catalog (table :: tables)) :
    PlainTables catalog tables :=
  ⟨(List.nodup_cons.mp h.distinct).2, fun t ht => h.dotless t (List.mem_cons_of_mem _ ht)⟩

theorem columnName_or (bare : List String) (table : String) (found : Bool) (col : String) :
    columnName bare table found col = col ∨
      columnName bare table found col = table ++ "." ++ col := by
  rw [columnName]
  split
  · exact Or.inl rfl
  · exact Or.inr rfl

theorem namesAfter_columns : List.Forall₂
    (fun column name => name = column.2 ∨ name = column.1 ++ "." ++ column.2)
    ((found.map Prod.fst).flatMap fun table =>
      (columnsOf catalog table).map fun col => (table, col))
    (namesAfter catalog bare found) := by
  induction found generalizing bare with
  | nil => exact .nil
  | cons part found ih =>
    obtain ⟨t, f⟩ := part
    rw [List.map_cons, List.flatMap_cons, namesAfter]
    apply List.rel_append
    · rw [List.forall₂_map_left_iff, List.forall₂_map_right_iff, List.forall₂_same]
      exact fun col _ => columnName_or _ t f col
    · exact ih

theorem columnNames_columns : List.Forall₂
    (fun column name => name = column.2 ∨ name = column.1 ++ "." ++ column.2)
    ((table :: found.map Prod.fst).flatMap fun table =>
      (columnsOf catalog table).map fun col => (table, col))
    (columnNames catalog table found) := by
  rw [List.flatMap_cons, columnNames]
  apply List.rel_append
  · rw [List.forall₂_map_left_iff, List.forall₂_same]
    exact fun col _ => Or.inl rfl
  · exact namesAfter_columns

/-- The dotted name of a column is among the names exactly when it is the column's. -/
theorem mem_namesAfter_dotted {f : Bool}
    (h : PlainTables catalog (table :: found.map Prod.fst)) {col : String}
    (hcol : col ∈ columnsOf catalog table) :
    table ++ "." ++ col ∈ namesAfter catalog bare ((table, f) :: found) ↔
      columnName bare table f col = table ++ "." ++ col := by
  have htable := h.dotless table (List.mem_cons_self ..)
  rw [namesAfter, List.mem_append]
  constructor
  · rintro (hin | hin)
    · obtain ⟨c, hc, he⟩ := List.mem_map.mp hin
      rcases columnName_or bare table f c with hn | hn
      · rw [hn] at he
        exact absurd he (ne_dotted (htable.2 c hc) _ _)
      · have hsame := he
        rw [hn, dotted_inj htable.1 htable.1] at hsame
        rw [← hsame.2, hn]
    · exfalso
      rcases namesAfter_shape hin h.tail with ⟨hd, -⟩ | ⟨part, hpart, c, -, he⟩
      · exact ne_dotted hd _ _ rfl
      · have hin' := List.mem_map_of_mem (f := Prod.fst) hpart
        rw [dotted_inj htable.1 (h.dotless _ (List.mem_cons_of_mem _ hin')).1] at he
        exact (List.nodup_cons.mp h.distinct).1 (he.1 ▸ hin')
  · intro he
    exact Or.inl (he ▸ List.mem_map_of_mem hcol)

/-- Matches that give the columns dotted names alike give them all names alike. -/
theorem namesAfter_inj {other : Matches} {bare' : List String}
    (htables : other.map Prod.fst = found.map Prod.fst)
    (h : PlainTables catalog (found.map Prod.fst))
    (hsame : ∀ t ∈ found.map Prod.fst, ∀ col ∈ columnsOf catalog t,
      (t ++ "." ++ col ∈ namesAfter catalog bare found ↔
        t ++ "." ++ col ∈ namesAfter catalog bare' other)) :
    namesAfter catalog bare found = namesAfter catalog bare' other := by
  induction found generalizing bare bare' other with
  | nil =>
    rw [List.map_eq_nil_iff.mp htables]
    rfl
  | cons part found ih =>
    obtain ⟨t, f⟩ := part
    cases other with
    | nil => cases htables
    | cons part' other =>
      obtain ⟨t', g⟩ := part'
      rw [List.map_cons, List.map_cons, List.cons.injEq] at htables
      obtain ⟨rfl, htables⟩ := htables
      have hplain : PlainTables catalog (t' :: found.map Prod.fst) := h
      have hhead : ∀ col ∈ columnsOf catalog t',
          columnName bare t' f col = columnName bare' t' g col := by
        intro col hcol
        have hiff := hsame t' (List.mem_cons_self ..) col hcol
        rw [mem_namesAfter_dotted hplain hcol, mem_namesAfter_dotted (htables ▸ hplain) hcol]
          at hiff
        rcases columnName_or bare t' f col with hn | hn
        · rcases columnName_or bare' t' g col with hn' | hn'
          · rw [hn, hn']
          · rw [hiff.mpr hn', hn']
        · rw [hiff.mp hn, hn]
      rw [namesAfter, namesAfter, List.map_congr_left hhead]
      congr 1
      apply ih htables hplain.drop
      intro t ht col hcol
      have hdot := hplain.dotless t (List.mem_cons_of_mem _ ht)
      have hne : t' ≠ t := by
        rintro rfl
        exact (List.nodup_cons.mp hplain.distinct).1 ht
      have hnot : ∀ (b : List String) (e : Bool),
          t ++ "." ++ col ∉ (columnsOf catalog t').map (columnName b t' e) := by
        intro b e hin
        obtain ⟨c, hc, he⟩ := List.mem_map.mp hin
        have hdot' := hplain.dotless t' (List.mem_cons_self ..)
        rcases columnName_or b t' e c with hn | hn
        · rw [hn] at he
          exact ne_dotted (hdot'.2 c hc) _ _ he
        · rw [hn, dotted_inj hdot'.1 hdot.1] at he
          exact hne he.1
      have hiff := hsame t (List.mem_cons_of_mem _ ht) col hcol
      rw [namesAfter, namesAfter, List.mem_append, List.mem_append, or_iff_right (hnot _ _),
        or_iff_right (hnot _ _)] at hiff
      exact hiff

theorem namesAfter_nodup (h : PlainTables catalog (found.map Prod.fst))
    (hnodup : ∀ t ∈ found.map Prod.fst, (columnsOf catalog t).Nodup) :
    (namesAfter catalog bare found).Nodup := by
  induction found generalizing bare with
  | nil => exact List.nodup_nil
  | cons part found ih =>
    obtain ⟨t, f⟩ := part
    have hplain : PlainTables catalog (t :: found.map Prod.fst) := h
    have htable := hplain.dotless t (List.mem_cons_self ..)
    rw [namesAfter, List.nodup_append]
    refine ⟨?_, ih hplain.drop fun t ht => hnodup t (List.mem_cons_of_mem _ ht), ?_⟩
    · apply List.Nodup.map_on _ (hnodup t (List.mem_cons_self ..))
      intro c hc d hd he
      rcases columnName_or bare t f c with hn | hn
      · rcases columnName_or bare t f d with hn' | hn'
        · rwa [hn, hn'] at he
        · rw [hn, hn'] at he
          exact absurd he (ne_dotted (htable.2 c hc) _ _)
      · rcases columnName_or bare t f d with hn' | hn'
        · rw [hn, hn'] at he
          exact absurd he.symm (ne_dotted (htable.2 d hd) _ _)
        · rw [hn, hn', dotted_inj htable.1 htable.1] at he
          exact he.2
    · rintro key hkey _ hrest rfl
      obtain ⟨col, hcol, rfl⟩ := List.mem_map.mp hkey
      rcases namesAfter_shape hrest hplain.tail with ⟨hd, hne, hbare⟩ | ⟨part, hpart, c, hc, he⟩
      · obtain ⟨hf, -, -, hin⟩ := (mem_columnName hd).mp hkey
        rw [if_pos hf] at hbare
        exact hbare (List.mem_append_right _ hin)
      · have hin := List.mem_map_of_mem (f := Prod.fst) hpart
        have hpdot := hplain.dotless _ (List.mem_cons_of_mem _ hin)
        rcases columnName_or bare t f col with hn | hn
        · rw [hn] at he
          exact ne_dotted (htable.2 col hcol) _ _ he
        · rw [hn, dotted_inj htable.1 hpdot.1] at he
          exact (List.nodup_cons.mp hplain.distinct).1 (he.1 ▸ hin)

theorem columnNames_nodup (h : PlainTables catalog (table :: found.map Prod.fst))
    (hnodup : ∀ t ∈ table :: found.map Prod.fst, (columnsOf catalog t).Nodup) :
    (columnNames catalog table found).Nodup := by
  rw [columnNames, List.nodup_append]
  refine ⟨hnodup table (List.mem_cons_self ..),
    namesAfter_nodup h.drop fun t ht => hnodup t (List.mem_cons_of_mem _ ht), ?_⟩
  rintro key hkey _ hrest rfl
  have hdot := (h.dotless table (List.mem_cons_self ..)).2 key hkey
  rcases namesAfter_shape hrest h.tail with ⟨-, -, hbare⟩ | ⟨part, -, c, -, he⟩
  · exact hbare hkey
  · exact ne_dotted hdot _ _ he

/-- Distinct names are names of distinct columns. -/
theorem columns_nodup_of_names (h : (columnNames catalog table found).Nodup) :
    ∀ t ∈ table :: found.map Prod.fst, (columnsOf catalog t).Nodup := by
  have hafter : ∀ (found : Matches) (bare : List String), (namesAfter catalog bare found).Nodup →
      ∀ t ∈ found.map Prod.fst, (columnsOf catalog t).Nodup := by
    intro found
    induction found with
    | nil =>
      intro _ _ t ht
      cases ht
    | cons part found ih =>
      intro bare h t ht
      rw [namesAfter, List.nodup_append] at h
      rcases List.mem_cons.mp ht with rfl | ht
      · exact h.1.of_map
      · exact ih _ h.2.1 t ht
  rw [columnNames, List.nodup_append] at h
  intro t ht
  rcases List.mem_cons.mp ht with rfl | ht
  · exact h.1
  · exact hafter found _ h.2.1 t ht

end

/-! ## The rows -/

section

variable {catalog : Catalog} {table : String} {join : JoinClause}

/-- The keys of a row with the matches. -/
def HasNames (catalog : Catalog) (table : String) (row : RowDict × Matches) : Prop :=
  ∀ key, key ∈ row.1.keys ↔
    key = "rowid" ∨ key ∈ columnNames catalog table row.2 ∨ key ∈ rowidNames row.2

theorem rowOf_keys {columns : List String} {row : RowDict} (h : RowOf columns row) (key : String)
    (hrowid : "rowid" ∈ row.keys) : key ∈ row.keys ↔ key = "rowid" ∨ key ∈ columns := by
  constructor
  · intro hk
    refine (h.keys key fun hn => ?_).symm
    exact (OrdDict.get?_eq_none_iff row key).mp hn hk
  · rintro (rfl | hc)
    · exact hrowid
    · by_contra hk
      obtain ⟨v, hv⟩ := h.has key hc
      rw [(OrdDict.get?_eq_none_iff row key).mpr hk] at hv
      cases hv

/-- A scanned row has its columns and a rowid. -/
theorem scanTable_keys {store : FileStore} {entry : TableMeta} {rows : List RowDict}
    (h : scanTable store entry = .ok rows) : ∀ row ∈ rows, ∀ key,
      key ∈ row.keys ↔ key = "rowid" ∨ key ∈ entry.schema.map Prod.fst := by
  intro row hrow key
  apply rowOf_keys (rowOf_scanTable h row hrow)
  simp only [scanTable, bind_eq_ok, Except.ok.injEq] at h
  obtain ⟨scanned, -, rfl⟩ := h
  obtain ⟨pair, -, rfl⟩ := List.mem_map.mp hrow
  exact mem_keys_set.mpr (Or.inl rfl)

theorem mem_columnNames_append {found : Matches} {part : String × Bool} {key : String} :
    key ∈ columnNames catalog table (found ++ [part]) ↔ key ∈ columnNames catalog table found ∨
      key ∈ (columnsOf catalog part.1).map
        (columnName (bareAfter catalog (columnsOf catalog table) found) part.1 part.2) := by
  rw [columnNames, namesAfter_append, columnNames, ← List.append_assoc, List.mem_append, namesAfter,
    namesAfter, List.append_nil]

theorem mem_rowidNames_append {found : Matches} {part : String × Bool} {key : String} :
    key ∈ rowidNames (found ++ [part]) ↔ key ∈ rowidNames found ∨
      part.2 = true ∧ key = part.1 ++ "." ++ "rowid" := by
  rw [rowidNames, List.filter_append, List.map_append, List.mem_append, rowidNames]
  apply or_congr_right
  cases hp : part.2 with
  | true => simp [hp]
  | false => simp [hp]

/-- Which plain names a row has. -/
theorem HasNames.plain {row : RowDict × Matches} (h : HasNames catalog table row) {name : String}
    (hname : Dotless name) : name ∈ row.1.keys ↔ name = "rowid" ∨
      name ∈ bareAfter catalog (columnsOf catalog table) row.2 := by
  rw [h name, or_iff_left (dotless_not_mem_rowidNames hname)]
  by_cases hne : name = "rowid"
  · exact iff_of_true (Or.inl hne) (Or.inl hne)
  · rw [or_iff_right hne, or_iff_right hne, mem_bareAfter hname hne, columnNames, List.mem_append]

theorem HasNames.merge {left right : RowDict} {found : Matches}
    (h : HasNames catalog table (left, found))
    (hdot : ∀ col ∈ columnsOf catalog (resolveTableName join), Dotless col)
    (hright : ∀ key, key ∈ right.keys ↔
      key = "rowid" ∨ key ∈ columnsOf catalog (resolveTableName join)) :
    HasNames catalog table
      (mergeRows left right join, found ++ [(resolveTableName join, true)]) := by
  have hrightDot : ∀ k ∈ right.keys, Dotless k := by
    intro k hk
    rcases (hright k).mp hk with rfl | hc
    · decide
    · exact hdot k hc
  have hrowid : "rowid" ∈ left.keys := (h "rowid").mpr (Or.inl rfl)
  -- the name that the merge gives a column
  have hname : ∀ col ∈ columnsOf catalog (resolveTableName join),
      (if col ∈ left.keys then resolveTableName join ++ "." ++ col else col) =
        columnName (bareAfter catalog (columnsOf catalog table) found) (resolveTableName join)
          true col := by
    intro col hcol
    rw [columnName, if_congr (h.plain (hdot col hcol)) rfl rfl]
    by_cases hc : col = "rowid" ∨ col ∈ bareAfter catalog (columnsOf catalog table) found
    · rw [if_pos hc, if_neg]
      rintro ⟨-, hne, hbare⟩
      exact hc.elim hne hbare
    · rw [if_neg hc, if_pos ⟨rfl, fun he => hc (Or.inl he), fun hb => hc (Or.inr hb)⟩]
  intro key
  rw [mem_keys_mergeRows hrightDot, h key, mem_columnNames_append, mem_rowidNames_append,
    ← List.map_congr_left hname]
  simp only [List.mem_map, hright, true_and]
  constructor
  · rintro ((hk | hk | hk) | ⟨k, rfl | hk, rfl⟩)
    · exact Or.inl hk
    · exact Or.inr (Or.inl (Or.inl hk))
    · exact Or.inr (Or.inr (Or.inl hk))
    · rw [if_pos hrowid]
      exact Or.inr (Or.inr (Or.inr rfl))
    · exact Or.inr (Or.inl (Or.inr ⟨k, hk, rfl⟩))
  · rintro (hk | (hk | ⟨k, hk, rfl⟩) | hk | rfl)
    · exact Or.inl (Or.inl hk)
    · exact Or.inl (Or.inr (Or.inl hk))
    · exact Or.inr ⟨k, Or.inr hk, rfl⟩
    · exact Or.inl (Or.inr (Or.inr hk))
    · exact Or.inr ⟨"rowid", Or.inl rfl, if_pos hrowid⟩

theorem HasNames.nullRow {left : RowDict} {found : Matches} {rightTable : String} {schema : Schema}
    (h : HasNames catalog table (left, found))
    (hschema : schema.map Prod.fst = columnsOf catalog rightTable) :
    HasNames catalog table
      (left.update (nullRight rightTable schema), found ++ [(rightTable, false)]) := by
  have hname : columnName (bareAfter catalog (columnsOf catalog table) found) rightTable false =
      fun col => rightTable ++ "." ++ col := by
    funext col
    exact if_neg fun hc => Bool.false_ne_true hc.1
  intro key
  rw [mem_keys_update, h key, mem_keys_nullRight, hschema, mem_columnNames_append,
    mem_rowidNames_append, hname]
  simp only [Bool.false_eq_true, false_and, or_false]
  constructor
  · rintro ((hk | hk | hk) | hk | hk)
    · exact Or.inl hk
    · exact Or.inr (Or.inl (Or.inl hk))
    · exact Or.inr (Or.inr hk)
    · exact Or.inl hk
    · exact Or.inr (Or.inl (Or.inr hk))
  · rintro (hk | (hk | hk) | hk)
    · exact Or.inl (Or.inl hk)
    · exact Or.inl (Or.inr (Or.inl hk))
    · exact Or.inr (Or.inr hk)
    · exact Or.inl (Or.inr (Or.inr hk))

/-- A row after the joins: its keys, and the tables where it looked for a match. -/
def Traced (catalog : Catalog) (table : String) (tables : List String)
    (row : RowDict × Matches) : Prop :=
  HasNames catalog table row ∧ row.2.map Prod.fst = tables

theorem mem_matchRows {left merged : RowDict} {rights rows : List RowDict}
    (h : matchRows join left rights = .ok rows) (hm : merged ∈ rows) :
    ∃ right ∈ rights, merged = mergeRows left right join := by
  induction rights generalizing rows with
  | nil =>
    cases h
    cases hm
  | cons right rights ih =>
    simp only [matchRows, bind_eq_ok, Except.ok.injEq] at h
    obtain ⟨hit, -, rest, hrest, rfl⟩ := h
    cases hit with
    | true =>
      rcases List.mem_cons.mp hm with rfl | hm
      · exact ⟨right, List.mem_cons_self .., rfl⟩
      · obtain ⟨r, hr, he⟩ := ih hrest hm
        exact ⟨r, List.mem_cons_of_mem _ hr, he⟩
    | false =>
      obtain ⟨r, hr, he⟩ := ih hrest hm
      exact ⟨r, List.mem_cons_of_mem _ hr, he⟩

theorem joinRowsTraced_names {tables : List String} {schema : Schema} {rights : List RowDict}
    {lefts result : List (RowDict × Matches)}
    (h : joinRowsTraced join (resolveTableName join) schema rights lefts = .ok result)
    (hschema : schema.map Prod.fst = columnsOf catalog (resolveTableName join))
    (hdot : ∀ col ∈ columnsOf catalog (resolveTableName join), Dotless col)
    (hrights : ∀ right ∈ rights, ∀ key, key ∈ right.keys ↔
      key = "rowid" ∨ key ∈ columnsOf catalog (resolveTableName join))
    (hlefts : ∀ left ∈ lefts, Traced catalog table tables left) :
    ∀ row ∈ result, Traced catalog table (tables ++ [resolveTableName join]) row := by
  induction lefts generalizing result with
  | nil =>
    cases h
    simp
  | cons left lefts ih =>
    simp only [joinRowsTraced, bind_eq_ok] at h
    obtain ⟨matched, hmatched, rest, hrest, h⟩ := h
    obtain ⟨hnames, htables⟩ := hlefts left (List.mem_cons_self ..)
    have hcons := ih hrest fun l hl => hlefts l (List.mem_cons_of_mem _ hl)
    split at h
    · cases h
      intro row hrow
      rcases List.mem_cons.mp hrow with rfl | hrow
      · exact ⟨hnames.nullRow hschema, by rw [List.map_append, htables]; rfl⟩
      · exact hcons row hrow
    · cases h
      intro row hrow
      rcases List.mem_append.mp hrow with hrow | hrow
      · obtain ⟨merged, hmerged, rfl⟩ := List.mem_map.mp hrow
        obtain ⟨right, hright, rfl⟩ := mem_matchRows hmatched hmerged
        exact ⟨hnames.merge hdot (hrights right hright), by rw [List.map_append, htables]; rfl⟩
      · exact hcons row hrow

theorem joinAllTraced_names {store : FileStore} {tables : List String} {joins : List JoinClause}
    {lefts result : List (RowDict × Matches)}
    (h : joinAllTraced store catalog lefts joins = .ok result)
    (hdot : ∀ join ∈ joins, ∀ col ∈ columnsOf catalog (resolveTableName join), Dotless col)
    (hlefts : ∀ left ∈ lefts, Traced catalog table tables left) :
    ∀ row ∈ result, Traced catalog table (tables ++ joins.map resolveTableName) row := by
  induction joins generalizing lefts tables with
  | nil =>
    cases h
    rw [List.map_nil, List.append_nil]
    exact hlefts
  | cons join joins ih =>
    simp only [joinAllTraced, bind_eq_ok] at h
    obtain ⟨_, -, entry, hentry, rights, hscan, next, hjoin, hrest⟩ := h
    have hcols : entry.schema.map Prod.fst = columnsOf catalog (resolveTableName join) := by
      rw [columnsOf, hentry]
    have hrights := scanTable_keys hscan
    rw [hcols] at hrights
    have hnext := joinRowsTraced_names hjoin hcols (hdot join (List.mem_cons_self ..)) hrights hlefts
    rw [List.map_cons, List.append_cons]
    exact ih hrest (fun j hj => hdot j (List.mem_cons_of_mem _ hj)) hnext

end

/-! ## The query -/

theorem sortRows_map {α β : Type} (f : β → α) (orderBy : List OrderItem) (dict : α → RowDict)
    (l : List β) : sortRows orderBy dict (l.map f) = (do
      let sorted ← sortRows orderBy (fun x => dict (f x)) l
      .ok (sorted.map f)) := by
  cases orderBy with
  | nil => rfl
  | cons item items =>
    have hkeys : ∀ l : List β, evalKeys item.expr dict (l.map f) = (do
        let keyed ← evalKeys item.expr (fun x => dict (f x)) l
        .ok (keyed.map fun e => (e.1, f e.2))) := by
      intro l
      induction l with
      | nil => rfl
      | cons x l ih =>
        simp only [List.map_cons, evalKeys, ih]
        cases evalExpr (dict (f x)) item.expr with
        | error e => rfl
        | ok key =>
          cases evalKeys item.expr (fun x => dict (f x)) l with
          | error e => rfl
          | ok keyed => rfl
    simp only [sortRows, hkeys]
    cases evalKeys item.expr (fun x => dict (f x)) l with
    | error e => rfl
    | ok keyed =>
      simp only [ok_bind, sorted_map]
      cases sorted _ _ keyed with
      | error e => rfl
      | ok result => simp only [ok_bind, List.map_map, Function.comp_def]

section

variable {store : FileStore} {catalog : Catalog} {stmt : Select} {entry : TableMeta}

theorem joinRowsTraced_fst (join : JoinClause) (rightTable : String) (schema : Schema)
    (rights : List RowDict) (lefts : List (RowDict × Matches)) :
    joinRows join rightTable schema rights (lefts.map Prod.fst) = (do
      let result ← joinRowsTraced join rightTable schema rights lefts
      .ok (result.map Prod.fst)) := by
  induction lefts with
  | nil => rfl
  | cons left lefts ih =>
    simp only [List.map_cons, joinRows, joinRowsTraced, ih]
    cases matchRows join left.1 rights with
    | error e => rfl
    | ok matched =>
      cases joinRowsTraced join rightTable schema rights lefts with
      | error e => rfl
      | ok rest =>
        simp only [ok_bind]
        split
        · rfl
        · simp only [ok_bind, List.map_append, List.map_map, Function.comp_def, List.map_id']

theorem joinAllTraced_fst (joins : List JoinClause) (lefts : List (RowDict × Matches)) :
    joinAll store catalog (lefts.map Prod.fst) joins = (do
      let result ← joinAllTraced store catalog lefts joins
      .ok (result.map Prod.fst)) := by
  induction joins generalizing lefts with
  | nil => rfl
  | cons join joins ih =>
    simp only [joinAll, joinAllTraced, execNestedLoopJoin]
    cases checkJoinTypeCompatibility join catalog with
    | error e => rfl
    | ok u =>
      cases catalog.getTable (resolveTableName join) with
      | error e => rfl
      | ok entry =>
        simp only [ok_bind]
        cases scanTable store entry with
        | error e => rfl
        | ok rights =>
          simp only [ok_bind, joinRowsTraced_fst]
          cases joinRowsTraced join (resolveTableName join) entry.schema rights lefts with
          | error e => rfl
          | ok result => simp only [ok_bind, ih]

/-- The selected rows are the traced ones. -/
theorem selectedTraced_fst [PyText] (hjoins : stmt.joins ≠ []) :
    selectedRows store catalog entry stmt = (do
      let result ← selectedTraced store catalog entry stmt
      .ok (result.map Prod.fst)) := by
  simp only [selectedRows, if_neg hjoins, selectedTraced]
  cases resolveQualifiedColumns _ stmt.projections with
  | error e => rfl
  | ok u =>
    cases scanTable store entry with
    | error e => rfl
    | ok lefts =>
      have hlefts : lefts = (lefts.map fun row => (row, ([] : Matches))).map Prod.fst := by
        rw [List.map_map]
        exact (List.map_id _).symm
      simp only [ok_bind]
      rw [hlefts, joinAllTraced_fst, ← hlefts]
      cases joinAllTraced store catalog _ stmt.joins with
      | error e => rfl
      | ok joined =>
        simp only [ok_bind, filterRaising_map]
        cases filterRaising (fun row : RowDict × Matches => evalWhere row.1 stmt.where') joined with
        | error e => rfl
        | ok kept =>
          simp only [ok_bind, sortRows_map]
          have hid : (fun x : RowDict × Matches => id x.1) = Prod.fst := rfl
          rw [hid]
          cases sortRows stmt.orderBy Prod.fst kept with
          | error e => rfl
          | ok sorted => simp only [ok_bind, limitRows_map]

theorem selectedTraced_names (hplain : PlainTables catalog (joinedNames stmt))
    (hentry : catalog.getTable stmt.table = .ok entry) {traced : List (RowDict × Matches)}
    (h : selectedTraced store catalog entry stmt = .ok traced) :
    ∀ row ∈ traced, Traced catalog stmt.table (stmt.joins.map resolveTableName) row := by
  simp only [selectedTraced, bind_eq_ok, Except.ok.injEq] at h
  obtain ⟨_, -, lefts, hscan, joined, hjoin, kept, hkept, sorted, hsorted, rfl⟩ := h
  intro row hrow
  have hin := filterRaising_subset hkept row
    ((sortRows_perm hsorted).subset (limitRows_subset _ _ _ row hrow))
  refine @joinAllTraced_names catalog stmt.table store [] stmt.joins _ joined hjoin ?_ ?_ row hin
  · exact fun join hj => (hplain.dotless _ (List.mem_cons_of_mem _ (List.mem_map_of_mem hj))).2
  · intro left hl
    obtain ⟨dict, hdict, rfl⟩ := List.mem_map.mp hl
    have hcols : entry.schema.map Prod.fst = columnsOf catalog stmt.table := by
      rw [columnsOf, hentry]
    refine ⟨fun key => ?_, rfl⟩
    rw [scanTable_keys hscan dict hdict key, hcols, columnNames, namesAfter, List.append_nil]
    simp [rowidNames]

end

/-! ## One row -/

section

variable {catalog : Catalog} {table : String} {row : RowDict × Matches} {names : List String}

theorem rowid_ne_dotted (t c : String) : t ++ "." ++ c ≠ "rowid" := fun h =>
  ne_dotted (by decide) t c h.symm

/-- The rowids that show are names of columns. -/
theorem rowidNames_subset
    (hfound : ∀ part ∈ row.2, part.2 = true → "rowid" ∈ columnsOf catalog part.1) :
    ∀ key ∈ rowidNames row.2, key ∈ columnNames catalog table row.2 := by
  intro key hkey
  obtain ⟨part, hpart, rfl⟩ := List.mem_map.mp hkey
  obtain ⟨hin, htrue⟩ := List.mem_filter.mp hpart
  have hafter : ∀ (found : Matches) (bare : List String), part ∈ found →
      part.1 ++ "." ++ "rowid" ∈ namesAfter catalog bare found := by
    intro found
    induction found with
    | nil =>
      intro _ h
      cases h
    | cons head found ih =>
      intro bare h
      obtain ⟨t, f⟩ := head
      rw [namesAfter, List.mem_append]
      rcases List.mem_cons.mp h with rfl | h
      · refine Or.inl (List.mem_map.mpr ⟨"rowid", hfound _ hin htrue, if_neg ?_⟩)
        exact fun hc => hc.2.1 rfl
      · exact Or.inr (ih _ h)
  exact List.mem_append_right _ (hafter row.2 _ hin)

/-- The names of a row with one name for each column. -/
theorem names_of_oneNameEach (hplain : PlainTables catalog (table :: row.2.map Prod.fst))
    (h : HasNames catalog table row)
    (hnames : OneNameEach catalog (table :: row.2.map Prod.fst) names)
    (hkeys : ∀ key, key ∈ (row.1.erase "rowid").keys ↔ key ∈ names) :
    (∀ part ∈ row.2, part.2 = true → "rowid" ∈ columnsOf catalog part.1) ∧
      "rowid" ∉ names ∧ names.Perm (columnNames catalog table row.2) := by
  simp only [mem_keys_erase, h _] at hkeys
  have hfound : ∀ part ∈ row.2, part.2 = true → "rowid" ∈ columnsOf catalog part.1 := by
    intro part hpart htrue
    have hshown : part.1 ++ "." ++ "rowid" ∈ rowidNames row.2 :=
      List.mem_map_of_mem (List.mem_filter.mpr ⟨hpart, htrue⟩)
    have hname := (hkeys _).mp ⟨rowid_ne_dotted _ _, Or.inr (Or.inr hshown)⟩
    obtain ⟨i, hi, he⟩ := List.getElem_of_mem hname
    have hlen := hnames.1.length_eq
    have hcolumn := List.Forall₂.get hnames.1 (hlen ▸ hi) hi
    have hmem := List.getElem_mem (hlen ▸ hi)
    simp only [List.get_eq_getElem] at hcolumn
    rw [he] at hcolumn
    obtain ⟨t, ht, hcol⟩ := List.mem_flatMap.mp hmem
    obtain ⟨col, hcolIn, hpair⟩ := List.mem_map.mp hcol
    rw [← hpair] at hcolumn
    have htd := hplain.dotless t ht
    have hpd := hplain.dotless part.1 (List.mem_cons_of_mem _ (List.mem_map_of_mem hpart))
    rcases hcolumn with hbare | hdotted
    · exact absurd hbare.symm (ne_dotted (htd.2 col hcolIn) _ _)
    · rw [dotted_inj hpd.1 htd.1] at hdotted
      rw [hdotted.1, hdotted.2]
      exact hcolIn
  have hrowid : "rowid" ∉ names := fun hin => ((hkeys _).mpr hin).1 rfl
  refine ⟨hfound, hrowid, ?_⟩
  have hsub : names ⊆ columnNames catalog table row.2 := by
    intro key hin
    obtain ⟨hne, he | hin | hin⟩ := (hkeys key).mpr hin
    · exact absurd he hne
    · exact hin
    · exact rowidNames_subset hfound key hin
  refine (List.subperm_of_subset hnames.2 hsub).perm_of_length_le ?_
  rw [← hnames.1.length_eq, ← columnNames_columns.length_eq]

/-- **One name for each column of a row.** -/
theorem oneNameEach_of_fit (hplain : PlainTables catalog (table :: row.2.map Prod.fst))
    (h : HasNames catalog table row)
    (hdistinct : ∀ t ∈ table :: row.2.map Prod.fst, (columnsOf catalog t).Nodup)
    (hrowid : "rowid" ∉ columnsOf catalog table)
    (hfound : ∀ part ∈ row.2, part.2 = true → "rowid" ∈ columnsOf catalog part.1) :
    OneNameEach catalog (table :: row.2.map Prod.fst) (columnNames catalog table row.2) ∧
      ∀ key, key ∈ (row.1.erase "rowid").keys ↔ key ∈ columnNames catalog table row.2 := by
  refine ⟨⟨columnNames_columns, columnNames_nodup hplain hdistinct⟩, fun key => ?_⟩
  rw [mem_keys_erase, h key]
  constructor
  · rintro ⟨hne, he | hin | hin⟩
    · exact absurd he hne
    · exact hin
    · exact rowidNames_subset hfound key hin
  · refine fun hin => ⟨?_, Or.inr (Or.inl hin)⟩
    rintro rfl
    rcases List.mem_append.mp hin with hin | hin
    · exact hrowid hin
    · rcases namesAfter_shape hin hplain.tail with ⟨-, hne, -⟩ | ⟨part, -, col, -, he⟩
      · exact hne rfl
      · exact rowid_ne_dotted _ _ he.symm

end

/-- **The column names of `SELECT *` over joins.** -/
theorem star_names_iff [PyText] (db : Database) (stmt : Select) (hstar : stmt.projections = [.star])
    (hgroup : stmt.groupBy = []) (hjoins : stmt.joins ≠ [])
    (hplain : PlainTables db.catalog (joinedNames stmt)) :
    StarNames db stmt ↔ ∀ entry traced, db.catalog.getTable stmt.table = .ok entry →
      selectedTraced db.store db.catalog entry stmt = .ok traced →
      ∀ row ∈ traced, NamesFit db.catalog stmt traced row := by
  have hagg : hasAggregate stmt.projections = false := by
    rw [hstar]
    rfl
  have hselect : ∀ rows, db.dispatchSelect stmt = .ok (.rows rows) ↔ ∃ entry traced,
      db.catalog.getTable stmt.table = .ok entry ∧
      selectedTraced db.store db.catalog entry stmt = .ok traced ∧
      rows = traced.map fun row => row.1.erase "rowid" := by
    intro rows
    have hreturned : ∀ dicts, returned stmt true dicts = .ok (dicts.map fun d => d.erase "rowid") := by
      intro dicts
      rw [returned, hstar]
      rfl
    simp only [dispatchSelect_eq_ok hgroup hagg, selectedTraced_fst hjoins, bind_eq_ok, hreturned,
      Except.ok.injEq]
    constructor
    · rintro ⟨entry, hentry, _, ⟨traced, htraced, rfl⟩, rfl⟩
      refine ⟨entry, traced, hentry, htraced, ?_⟩
      rw [List.map_map]
      rfl
    · rintro ⟨entry, traced, hentry, htraced, rfl⟩
      refine ⟨entry, hentry, _, ⟨traced, htraced, rfl⟩, ?_⟩
      rw [List.map_map]
      rfl
  -- what is known of every returned row
  have hrow : ∀ entry traced, db.catalog.getTable stmt.table = .ok entry →
      selectedTraced db.store db.catalog entry stmt = .ok traced → ∀ row ∈ traced,
      HasNames db.catalog stmt.table row ∧ stmt.table :: row.2.map Prod.fst = joinedNames stmt := by
    intro entry traced hentry htraced row hin
    obtain ⟨hnames, htables⟩ := selectedTraced_names hplain hentry htraced row hin
    exact ⟨hnames, by rw [htables, joinedNames]⟩
  constructor
  · intro h entry traced hentry htraced row hin
    obtain ⟨names, hall⟩ := h _ ((hselect _).mpr ⟨entry, traced, hentry, htraced, rfl⟩)
    have hof : ∀ r ∈ traced, (∀ part ∈ r.2, part.2 = true → "rowid" ∈ columnsOf db.catalog part.1) ∧
        "rowid" ∉ names ∧ names.Perm (columnNames db.catalog stmt.table r.2) := by
      intro r hr
      obtain ⟨hnames, htables⟩ := hrow entry traced hentry htraced r hr
      obtain ⟨hone, hkeys⟩ := hall _ (List.mem_map_of_mem hr)
      exact names_of_oneNameEach (htables ▸ hplain) hnames (htables ▸ hone) hkeys
    obtain ⟨hfound, hrowid, hperm⟩ := hof row hin
    obtain ⟨-, htables⟩ := hrow entry traced hentry htraced row hin
    obtain ⟨hone, -⟩ := hall _ (List.mem_map_of_mem hin)
    refine ⟨?_, fun hcol => ?_, hfound, fun other hother => ?_⟩
    · rw [← htables]
      exact columns_nodup_of_names (hperm.nodup_iff.mp hone.2)
    · exact hrowid (hperm.mem_iff.mpr (List.mem_append_left _ hcol))
    · obtain ⟨-, htables'⟩ := hrow entry traced hentry htraced other hother
      obtain ⟨-, -, hperm'⟩ := hof other hother
      have hsame : ∀ key, key ∈ columnNames db.catalog stmt.table other.2 ↔
          key ∈ columnNames db.catalog stmt.table row.2 := fun key =>
        hperm'.symm.mem_iff.trans hperm.mem_iff
      have hplain' : PlainTables db.catalog (stmt.table :: other.2.map Prod.fst) := htables' ▸ hplain
      rw [columnNames, columnNames]
      congr 1
      apply namesAfter_inj
      · exact (List.cons.inj (htables.trans htables'.symm)).2
      · exact hplain'.drop
      · intro t ht col hcol
        have hiff := hsame (t ++ "." ++ col)
        have hbare : t ++ "." ++ col ∉ columnsOf db.catalog stmt.table := fun hc =>
          ne_dotted ((hplain'.dotless _ (List.mem_cons_self ..)).2 _ hc) _ _ rfl
        rwa [columnNames, columnNames, List.mem_append, List.mem_append, or_iff_right hbare,
          or_iff_right hbare] at hiff
  · intro h rows hrows
    obtain ⟨entry, traced, hentry, htraced, rfl⟩ := (hselect rows).mp hrows
    cases traced with
    | nil => exact ⟨[], fun row hin => absurd hin List.not_mem_nil⟩
    | cons first rest =>
      refine ⟨columnNames db.catalog stmt.table first.2, fun dict hdict => ?_⟩
      obtain ⟨row, hin, rfl⟩ := List.mem_map.mp hdict
      have hfit := h entry _ hentry htraced row hin
      obtain ⟨hnames, htables⟩ := hrow entry _ hentry htraced row hin
      have hone := oneNameEach_of_fit (htables ▸ hplain) hnames (htables ▸ hfit.distinct) hfit.rowid
        hfit.found
      rw [hfit.agree first (List.mem_cons_self ..), ← htables]
      exact hone

/-! ## A LEFT JOIN with and without a match -/

/-- `SELECT * FROM t LEFT JOIN u ON t.a = u.b`; no row finds a match. -/
def unmatchedLeft : Select :=
  { projections := [.star], table := "t",
    joins := [⟨.left, "u", none,
      some (.binaryOp .eq (.qualifiedColumn "t" "a") (.qualifiedColumn "u" "b"))⟩] }

theorem star_names_unmatched : StarNames joinedTables unmatchedLeft := by
  refine (star_names_iff joinedTables unmatchedLeft rfl rfl (by decide)
    ⟨by decide, by decide +kernel⟩).mpr ?_
  intro entry traced hentry htraced row hin
  have hrun : (do
      let entry ← joinedTables.catalog.getTable "t"
      let traced ← selectedTraced joinedTables.store joinedTables.catalog entry unmatchedLeft
      .ok (traced.map Prod.snd)) = .ok [[("u", false)], [("u", false)]] := by decide +kernel
  have hentry' : joinedTables.catalog.getTable "t" = .ok entry := hentry
  simp only [hentry', htraced, ok_bind, Except.ok.injEq] at hrun
  have hfound : ∀ r ∈ traced, r.2 = [("u", false)] := by
    intro r hr
    have hmem := List.mem_map_of_mem (f := Prod.snd) hr
    rw [hrun] at hmem
    simpa using hmem
  refine ⟨by decide +kernel, by decide +kernel, ?_, fun other hother => ?_⟩
  · rw [hfound row hin]
    simp
  · rw [hfound row hin, hfound other hother]

/-- `SELECT * FROM t LEFT JOIN u ON t.b = u.b`; one row finds a match, one does not. -/
def halfMatched : Select :=
  { projections := [.star], table := "t", joins := joinedClauses.take 1 }

theorem star_names_differ : ¬ StarNames joinedTables halfMatched := by
  intro h
  have hrun : (do
      let entry ← joinedTables.catalog.getTable "t"
      let rows ← selectedRows joinedTables.store joinedTables.catalog entry halfMatched
      returned halfMatched true rows) =
      .ok [OrdDict.ofList [("a", .int 1), ("b", .int 2), ("u.b", .int 2), ("u.rowid", .int 1)],
        OrdDict.ofList [("a", .int 3), ("b", .int 4), ("u.b", .null)]] := by decide +kernel
  obtain ⟨names, hnames⟩ := h _ ((dispatchSelect_eq_ok rfl (by decide)).mpr hrun)
  have hfirst := (hnames _ (List.mem_cons_self ..)).2 "u.rowid"
  have hsecond := (hnames _ (List.mem_cons_of_mem _ (List.mem_cons_self ..))).2 "u.rowid"
  exact absurd (hsecond.mpr (hfirst.mp (by decide))) (by decide)

end TinyDB
