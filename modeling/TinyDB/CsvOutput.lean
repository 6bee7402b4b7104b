import TinyDB.Cli
import TinyDB.Lib.Csv

/-!
# Reading CSV output back

When the CSV that `_execute_one` prints for a SELECT gives the column names and
cell texts back. Column names are written without quotes, cells are cut at the
session's width and a carriage return alone does not bring quotes; a column
called `status` or `rows_affected` is taken for the result of a command.
-/

namespace TinyDB.Cli

open Lib

/-- The default session after `.mode csv`. -/
def csvSession : ReplConfig := { mode := .csv }

def rowTexts (columns : List String) (row : RowDict) : List (List Char) :=
  columns.map fun c => cellText csvSession.nullvalue (cellValue row c)

/-- The header and the rows as they should be read back. -/
def expected (first : RowDict) (rest : List RowDict) : List (List (List Char)) :=
  first.keys.map String.toList :: (first :: rest).map (rowTexts first.keys)

/-- A cell text that is not cut and not left without the quotes it needs. -/
def SafeText (text : List Char) : Prop :=
  truncate text csvSession.width = text ∧
    ('\r' ∈ text → ',' ∈ text ∨ '"' ∈ text ∨ '\n' ∈ text)

structure SafeResult (first : RowDict) (rest : List RowDict) : Prop where
  columns : first.keys ≠ []
  notStatus : "status" ∉ first.keys
  notAffected : "rows_affected" ∉ first.keys
  names : ∀ c ∈ first.keys, Csv.Bare c.toList
  cells : ∀ row ∈ first :: rest, ∀ c ∈ first.keys,
    SafeText (cellText csvSession.nullvalue (cellValue row c))

/-! ## Fields -/

theorem replaceChars_quote {text : List Char} {fuel : Nat} (h : text.length ≤ fuel) :
    replaceChars ['"'] ['"', '"'] fuel text = Csv.doubled text := by
  induction text generalizing fuel with
  | nil => cases fuel <;> rfl
  | cons c text ih =>
    cases fuel with
    | zero => cases h
    | succ fuel =>
      have hrest := ih (Nat.succ_le_succ_iff.mp h)
      by_cases hc : c = '"'
      · subst hc
        simp [replaceChars, Csv.doubled, List.isPrefixOf] at hrest ⊢
        exact hrest
      · have hpre : ['"'].isPrefixOf (c :: text) = false := by
          simp [List.isPrefixOf, beq_eq_false_iff_ne, Ne.symm hc]
        simp [replaceChars, hpre, hrest, Csv.doubled, hc]

def cut (text : List Char) : List Char := truncate text csvSession.width

def needsQuotes (text : List Char) : Prop := ',' ∈ text ∨ '"' ∈ text ∨ '\n' ∈ text

instance (text : List Char) : Decidable (needsQuotes text) :=
  inferInstanceAs (Decidable (_ ∨ _ ∨ _))

theorem csvCell_eq (value : Value) :
    csvCell csvSession.width csvSession.nullvalue value =
      let cell := cut (cellText csvSession.nullvalue value)
      if needsQuotes cell then Csv.quoted cell else cell := by
  have hwidth : csvSession.width > 0 := by decide
  simp only [csvCell, if_pos hwidth, replaceChars_quote (Nat.le_refl _)]
  rfl

theorem not_bare_iff (text : List Char) : ¬ Csv.Bare text ↔ needsQuotes text ∨ '\r' ∈ text := by
  simp only [Csv.Bare, needsQuotes, not_forall, Bool.not_eq_false, Csv.special, Bool.or_eq_true,
    decide_eq_true_eq, exists_prop]
  constructor
  · rintro ⟨c, hc, ((rfl | rfl) | rfl) | rfl⟩ <;> simp [hc]
  · rintro ((h | h | h) | h)
    · exact ⟨_, h, by simp⟩
    · exact ⟨_, h, by simp⟩
    · exact ⟨_, h, by simp⟩
    · exact ⟨_, h, by simp⟩

/-- What the cut text holds in front of the dots the text holds too. -/
theorem cr_of_cut {text : List Char} (h : '\r' ∈ cut text) : '\r' ∈ text := by
  rw [cut, truncate] at h
  split_ifs at h
  · exact h
  · exact h
  · rcases List.mem_append.mp h with h | h
    · exact List.mem_of_mem_take h
    · exact absurd h (by decide)

theorem csvCell_spec (value : Value) :
    let raw := csvCell csvSession.width csvSession.nullvalue value
    let text := cellText csvSession.nullvalue value
    Csv.Decided (raw, text) ∧ (Csv.ReadsAs raw text ↔ SafeText text) := by
  intro raw text
  have hraw : raw = if needsQuotes (cut text) then Csv.quoted (cut text) else cut text :=
    csvCell_eq value
  clear_value raw text
  subst hraw
  have hmissed : ∀ {raw : List Char}, Csv.Misses raw text → ¬ SafeText text →
      Csv.Decided (raw, text) ∧ (Csv.ReadsAs raw text ↔ SafeText text) := fun hmiss hunsafe =>
    ⟨.inr hmiss, ⟨fun h => absurd hmiss h.not_misses, fun h => absurd h hunsafe⟩⟩
  have hread : ∀ {raw : List Char}, Csv.ReadsAs raw (cut text) →
      (cut text = text → SafeText text) →
      Csv.Decided (raw, text) ∧ (Csv.ReadsAs raw text ↔ SafeText text) := by
    intro raw hreads hsafe
    by_cases hcut : cut text = text
    · rw [hcut] at hreads
      exact ⟨.inl hreads, ⟨fun _ => hsafe hcut, fun _ => hreads⟩⟩
    · exact hmissed (hreads.misses hcut) fun h => hcut h.1
  split
  next hquotes =>
    exact hread (Csv.readsAs_quoted _) fun hcut => ⟨hcut, fun _ => hcut ▸ hquotes⟩
  next hquotes =>
    by_cases hcr : '\r' ∈ cut text
    · have hhead : (cut text).head? ≠ some '"' := fun h =>
        hquotes (.inr (.inl (List.mem_of_mem_head? h)))
      have hbare : ¬ Csv.Bare text := (not_bare_iff text).mpr (.inr (cr_of_cut hcr))
      refine hmissed (Csv.misses_of_not_bare hhead hbare) fun h => hquotes ?_
      have hcut : cut text = text := h.1
      rw [hcut]
      exact h.2 (cr_of_cut hcr)
    · have hbare : Csv.Bare (cut text) := by
        by_contra h
        exact ((not_bare_iff _).mp h).elim hquotes hcr
      exact hread (Csv.readsAs_bare hbare) fun hcut =>
        ⟨hcut, fun h => absurd (hcut.symm ▸ h : '\r' ∈ cut text) hcr⟩

theorem name_spec (text : List Char) :
    Csv.Decided (text, text) ∧ (Csv.ReadsAs text text ↔ Csv.Bare text) := by
  by_cases hbare : Csv.Bare text
  · have hreads := Csv.readsAs_bare hbare
    exact ⟨.inl hreads, ⟨fun _ => hbare, fun _ => hreads⟩⟩
  · have hmiss : Csv.Misses text text := by
      by_cases hhead : text.head? = some '"'
      · exact Csv.misses_of_quote hhead
      · exact Csv.misses_of_not_bare hhead hbare
    exact ⟨.inr hmiss, ⟨fun h => absurd hmiss h.not_misses, fun h => absurd h hbare⟩⟩

/-! ## Results -/

/-- Every field as `print_csv` writes it, beside its text. -/
def fields (first : RowDict) (rest : List RowDict) : List (List Csv.Pair) :=
  (first.keys.map fun c => (c.toList, c.toList)) :: (first :: rest).map fun row =>
    first.keys.map fun c =>
      (csvCell csvSession.width csvSession.nullvalue (cellValue row c),
        cellText csvSession.nullvalue (cellValue row c))

theorem printCsv_eq (first : RowDict) (rest : List RowDict) :
    printCsv (first :: rest) csvSession.width csvSession.nullvalue =
      Csv.lines ((fields first rest).map (·.map Prod.fst)) := by
  simp [printCsv, fields, Csv.lines, Csv.line, List.flatMap_map, Function.comp_def]

theorem expected_eq (first : RowDict) (rest : List RowDict) :
    expected first rest = (fields first rest).map (·.map Prod.snd) := by
  simp [expected, fields, rowTexts, Function.comp_def]

theorem fields_decided {first : RowDict} {rest : List RowDict} :
    ∀ ps ∈ fields first rest, ∀ q ∈ ps, Csv.Decided q := by
  intro ps hps q hq
  rcases List.mem_cons.mp hps with rfl | hps
  · obtain ⟨c, -, rfl⟩ := List.mem_map.mp hq
    exact (name_spec c.toList).1
  · obtain ⟨row, -, rfl⟩ := List.mem_map.mp hps
    obtain ⟨c, -, rfl⟩ := List.mem_map.mp hq
    exact (csvCell_spec (cellValue row c)).1

theorem fields_readsAs_iff {first : RowDict} {rest : List RowDict} :
    (∀ ps ∈ fields first rest, ∀ q ∈ ps, Csv.ReadsAs q.1 q.2) ↔
      (∀ c ∈ first.keys, Csv.Bare c.toList) ∧ ∀ row ∈ first :: rest, ∀ c ∈ first.keys,
        SafeText (cellText csvSession.nullvalue (cellValue row c)) := by
  simp only [fields, List.forall_mem_cons, List.forall_mem_map, (name_spec _).2,
    (csvCell_spec _).2]

theorem printCsv_reads_iff {first : RowDict} {rest : List RowDict} (hne : first.keys ≠ []) :
    Csv.read (printCsv (first :: rest) csvSession.width csvSession.nullvalue) =
        some (expected first rest) ↔
      (∀ c ∈ first.keys, Csv.Bare c.toList) ∧ ∀ row ∈ first :: rest, ∀ c ∈ first.keys,
        SafeText (cellText csvSession.nullvalue (cellValue row c)) := by
  rw [printCsv_eq, expected_eq, ← fields_readsAs_iff]
  refine Csv.read_lines (List.cons_ne_nil _ _) (fun ps hps => ?_) fields_decided
  rcases List.mem_cons.mp hps with rfl | hps
  · simpa using hne
  · obtain ⟨row, -, rfl⟩ := List.mem_map.mp hps
    simpa using hne

theorem length_expected (first : RowDict) (rest : List RowDict) :
    2 ≤ (expected first rest).length := by
  simp [expected]

/-- The line printed for a column `rows_affected` never reads as the result. -/
theorem affected_ne_expected {first : RowDict} {rest : List RowDict} {n : Value}
    (h : first.get? "rows_affected" = some n) (plural : List Char)
    (hplural : plural = [] ∨ plural = ['s']) :
    Csv.read (strValue n ++ " row".toList ++ plural ++ " inserted\n".toList) ≠
      some (expected first rest) := by
  intro hread
  have hkey : "rows_affected" ∈ first.keys := by
    by_contra hkey
    rw [(first.get?_eq_none_iff _).mpr hkey] at h
    cases h
  by_cases hlf : '\n' ∈ strValue n
  · have htext : cellText csvSession.nullvalue (cellValue first "rows_affected") = strValue n := by
      have hnull : n ≠ .null := by
        rintro rfl
        exact absurd hlf (by decide)
      simp [cellText, cellValue, h, hnull]
    have hsize := Csv.read_size hread
    have hle := Csv.fieldSize_add_le_size
      (List.mem_map_of_mem (f := String.toList) hkey)
      (List.mem_map_of_mem (f := fun c => cellText csvSession.nullvalue (cellValue first c)) hkey)
      (rest.map (rowTexts first.keys))
    rw [htext] at hle
    have hname : Csv.fieldSize "rows_affected".toList = 14 := by decide
    have hcell : Csv.fieldSize (strValue n) = (strValue n).length + 3 := by
      simp [Csv.fieldSize, hlf]
    rw [hname, hcell] at hle
    have hout : (strValue n ++ " row".toList ++ plural ++ " inserted\n".toList).length ≤
        (strValue n).length + 15 := by
      rcases hplural with rfl | rfl <;> simp
    simp only [expected, List.map_cons, rowTexts] at hsize hle
    omega
  · have hline : strValue n ++ " row".toList ++ plural ++ " inserted\n".toList =
        (strValue n ++ " row".toList ++ plural ++ " inserted".toList) ++ ['\n'] := by
      simp
    have hfree : '\n' ∉ strValue n ++ " row".toList ++ plural ++ " inserted".toList := by
      rcases hplural with rfl | rfl <;> simp [hlf]
    rw [hline] at hread
    have hone := Csv.read_one_line hfree hread
    have htwo := length_expected first rest
    omega

/-- **CSV output reads back.** The output in csv mode with the default settings
gives back the column names and the text of every cell exactly when no name
needs quotes or is that of a command's result, and every cell text fits the
width and has no carriage return that goes unquoted. -/
theorem csv_reads_iff (dumps : RowDict → List Char) (elapsed : List Char) (first : RowDict)
    (rest : List RowDict) :
    Csv.read (executeOne dumps elapsed csvSession (first :: rest)) = some (expected first rest) ↔
      SafeResult first rest := by
  have htime : emitTime csvSession elapsed = [] := rfl
  by_cases hstatus : first.contains "status"
  · have hout : executeOne dumps elapsed csvSession (first :: rest) = "OK\n".toList := by
      simp only [executeOne, hstatus, if_true, htime, List.append_nil]
    rw [hout]
    refine ⟨fun h => ?_, fun h => absurd ((first.contains_iff _).mp hstatus) h.notStatus⟩
    have hone := Csv.read_one_line (by decide : '\n' ∉ "OK".toList) h
    have htwo := length_expected first rest
    omega
  cases haffected : first.get? "rows_affected" with
  | some n =>
    have hout : executeOne dumps elapsed csvSession (first :: rest) =
        strValue n ++ " row".toList ++ (if n.pyEq (.int 1) then [] else ['s']) ++
          " inserted\n".toList := by
      simp only [executeOne, if_neg hstatus, haffected, htime, List.append_nil]
    rw [hout]
    refine ⟨fun h => absurd h (affected_ne_expected haffected _ ?_), fun h => ?_⟩
    · split <;> simp
    · rw [(first.get?_eq_none_iff _).mpr h.notAffected] at haffected
      cases haffected
  | none =>
    have hout : executeOne dumps elapsed csvSession (first :: rest) =
        printCsv (first :: rest) csvSession.width csvSession.nullvalue := by
      simp only [executeOne, if_neg hstatus, haffected, htime, List.append_nil]
      rfl
    rw [hout]
    by_cases hne : first.keys = []
    · refine ⟨fun h => ?_, fun h => absurd hne h.columns⟩
      have hnil : expected first rest = [] :: (first :: rest).map (rowTexts first.keys) := by
        rw [expected, hne, List.map_nil]
      exact absurd (hnil ▸ h) Csv.read_ne_nil
    · rw [printCsv_reads_iff hne]
      refine ⟨fun h => ?_, fun h => ⟨h.names, h.cells⟩⟩
      exact ⟨hne, mt (first.contains_iff _).mpr hstatus, (first.get?_eq_none_iff _).mp haffected,
        h.1, h.2⟩

/-- A row with one text of 31 characters. -/
def longNote : RowDict :=
  OrdDict.ofList [("note", .text (String.ofList (List.replicate 31 'a')))]

theorem csv_cuts_long_note :
    Csv.read (executeOne (fun _ => []) [] csvSession [longNote]) ≠ some (expected longNote []) := by
  decide

end TinyDB.Cli
