import TinyDB.ParseErrors

/-!
# Token texts

A list of lexemes is written with blanks between them, a string literal in quotes with the
quotes inside it written twice. The lexer gives the lexemes back.
-/

namespace TinyDB

open Lib Lexeme

/-- The lexemes that have a text: the keywords in capitals, the words that are no keywords,
the numbers, all strings, the operators and the marks. -/
inductive Writable (py : Python) : Lexeme → Prop where
  | keyword {k : String} : k ∈ keywords → Writable py (keyword k)
  | ident {c : Char} {text : List Char} : py.isalpha c = true ∨ c = '_' → py.isdigit c = false →
      (∀ d ∈ text, py.isWordChar d = true) →
      py.upperText (String.ofList (c :: text)) ∉ keywords →
      Writable py (ident (String.ofList (c :: text)))
  | number {c : Char} {text : List Char} :
      py.isdigit c = true ∨ c = '.' ∧ (∃ d ∈ text.head?, py.isdigit d = true) →
      (∀ d ∈ text, py.isNumberChar d = true) → Writable py (number (String.ofList (c :: text)))
  | string (s : String) : Writable py (string s)
  | operator {op : String} : op ∈ operatorPatterns → Writable py (operator op)
  | punct {p : Char} : p ∈ singleCharPunct → Writable py (punct (String.ofList [p]))

/-- The source text of a lexeme. -/
def Lexeme.source (l : Lexeme) : List Char :=
  if l.type = .string then '\'' :: doubled l.value.toList ++ ['\''] else l.value.toList

/-- The text of the lexemes, each with the blanks behind it. -/
def spaced (items : List (Lexeme × List Char)) : List Char :=
  items.flatMap fun item => item.1.source ++ item.2

/-- Only blanks. -/
def Blanks (cs : List Char) : Prop := ∀ c ∈ cs, isBlank c = true

instance (cs : List Char) : Decidable (Blanks cs) :=
  decidable_of_iff (cs.all isBlank = true) List.all_eq_true

/-! ## One lexeme -/

/-- What follows a lexeme: a blank or the end of the text. -/
def Ends (rest : List Char) : Prop := ∀ c ∈ rest.head?, isBlank c = true

theorem blank_mark {c : Char} (h : isBlank c = true) : c ∈ marks := by
  rcases isBlank_iff.mp h with rfl | rfl | rfl | rfl <;> decide

theorem Ends.longest {py : Python} {rest front : List Char} (h : Ends rest) :
    ((∀ c ∈ front, py.isNumberChar c = true) → Longest py.isNumberChar front rest) ∧
      ((∀ c ∈ front, py.isWordChar c = true) → Longest py.isWordChar front rest) :=
  ⟨fun hf => ⟨hf, fun c hc => (mark_spec py (blank_mark (h c hc))).1⟩,
    fun hf => ⟨hf, fun c hc => (mark_spec py (blank_mark (h c hc))).2.1⟩⟩

theorem capital_spec (py : Python) {c : Char} (h : c.isUpper = true) :
    py.isalpha c = true ∧ py.isdigit c = false ∧ py.isWordChar c = true := by
  have hval : 65 ≤ c.toNat ∧ c.toNat ≤ 90 := by
    have hc : c.val ≥ 'A'.val ∧ c.val ≤ 'Z'.val := of_decide_eq_true h
    simpa [UInt32.le_iff_toNat_le, ← Char.toNat_val] using hc
  obtain ⟨halpha, hdigit, -⟩ := py.ascii c (by omega)
  have hnot : c.isDigit = false := by
    refine Bool.eq_false_iff.mpr fun hd => ?_
    have hle : 48 ≤ c.toNat ∧ c.toNat ≤ 57 := by
      simpa [Char.isDigit, UInt32.le_iff_toNat_le, ← Char.toNat_val] using hd
    omega
  have ha : py.isalpha c = true := by
    rw [halpha]
    exact Bool.or_eq_true_iff.mpr (Or.inl h)
  exact ⟨ha, by rw [hdigit, hnot], by simp [Python.isWordChar, Python.isalnum, ha]⟩

theorem keyword_capitals {k : String} (h : k ∈ keywords) :
    ∃ c text, k.toList = c :: text ∧ ∀ d ∈ c :: text, d.isUpper = true := by
  have hall : (keywords.all fun k => decide (k.toList ≠ []) && k.toList.all Char.isUpper) =
      true := by decide +kernel
  have hk := List.all_eq_true.mp hall k h
  simp only [Bool.and_eq_true, decide_eq_true_eq, List.all_eq_true] at hk
  obtain ⟨c, text, he⟩ := List.exists_cons_of_ne_nil hk.1
  exact ⟨c, text, he, he ▸ hk.2⟩

/-- No longer operator starts where an operator is followed by a blank. -/
theorem find_operator {op : String} (hop : op ∈ operatorPatterns) {rest : List Char}
    (hrest : Ends rest) :
    operatorPatterns.find? (fun o => o.toList.isPrefixOf (op.toList ++ rest)) = some op := by
  have hmem : op = "<>" ∨ op = "<=" ∨ op = ">=" ∨ op = "=" ∨ op = "<" ∨ op = ">" := by
    simpa [operatorPatterns] using hop
  cases rest with
  | nil => obtain rfl | rfl | rfl | rfl | rfl | rfl := hmem <;> decide +kernel
  | cons d rest =>
    obtain rfl | rfl | rfl | rfl := isBlank_iff.mp (hrest d rfl) <;>
      obtain rfl | rfl | rfl | rfl | rfl | rfl := hmem <;> rfl

/-- A lexeme with a blank or nothing behind it is read back. -/
theorem Writable.scans {py : Python} {l : Lexeme} (h : Writable py l) {rest : List Char}
    (hrest : Ends rest) : Scans py (l.source ++ rest) (some l) rest := by
  cases h with
  | @keyword k hk =>
    obtain ⟨c, text, he, hcap⟩ := keyword_capitals hk
    have hk' : k = String.ofList (c :: text) := by rw [← he, String.ofList_toList]
    have hup : py.upperText (String.ofList (c :: text)) = String.ofList (c :: text) :=
      hk' ▸ upperText_keyword py hk
    have hscan := Scans.word (Or.inl (capital_spec py (hcap c List.mem_cons_self)).1)
      (capital_spec py (hcap c List.mem_cons_self)).2.1
      (hrest.longest.2 fun d hd => (capital_spec py (hcap d hd)).2.2)
    rw [Python.wordLexeme, hup, ← hk', if_pos (List.contains_iff_mem.mpr hk), ← he] at hscan
    exact hscan
  | @ident c text hc hdigit htext hnot =>
    have hfirst : py.isWordChar c = true := by
      rcases hc with hc | rfl
      · simp [Python.isWordChar, Python.isalnum, hc]
      · simp [Python.isWordChar]
    have hscan := Scans.word hc hdigit (hrest.longest.2 fun d hd => (List.mem_cons.mp hd).elim
      (fun e => e ▸ hfirst) (htext d))
    rw [Python.wordLexeme, if_neg fun h => hnot (List.contains_iff_mem.mp h)] at hscan
    simpa [Lexeme.source, Lexeme.ident] using hscan
  | @number c text hc htext =>
    have hfirst : py.isNumberChar c = true := by
      rcases hc with hc | ⟨rfl, -⟩
      · simp [Python.isNumberChar, hc]
      · simp [Python.isNumberChar]
    have hscan := Scans.number hc (hrest.longest.1 fun d hd => (List.mem_cons.mp hd).elim
      (fun e => e ▸ hfirst) (htext d))
    simpa [Lexeme.source, Lexeme.number] using hscan
  | string s =>
    have hquote : rest.head? ≠ some '\'' := by
      intro he
      exact absurd (hrest '\'' he) (by decide)
    have hscan : Scans py ('\'' :: doubled s.toList ++ '\'' :: rest) _ rest := Scans.string hquote
    rw [String.ofList_toList] at hscan
    simpa [Lexeme.source, Lexeme.string] using hscan
  | @operator op hop => exact Scans.operator (find_operator hop hrest)
  | @punct p hp =>
    have hscan : Scans py (p :: rest) _ rest := Scans.punct hp fun _ d hd =>
      (mark_spec py (blank_mark (hrest d hd))).2.2.1
    simpa [Lexeme.source, Lexeme.punct] using hscan

/-! ## Lists of lexemes -/

theorem Blanks.lexes {py : Python} {blanks rest : List Char} {ls : List Lexeme} (h : Blanks blanks)
    (hrest : Lexes py rest ls) : Lexes py (blanks ++ rest) ls := by
  induction blanks with
  | nil => exact hrest
  | cons c blanks ih =>
    have hscan : Scans py (c :: (blanks ++ rest)) none (blanks ++ rest) :=
      Scans.blank (h c List.mem_cons_self)
    exact Lexes.step hscan (ih fun d hd => h d (List.mem_cons_of_mem _ hd))

theorem lexes_spaced {py : Python} {items : List (Lexeme × List Char)}
    (hitems : ∀ item ∈ items, Writable py item.1 ∧ Blanks item.2)
    (hsep : ∀ item ∈ items.dropLast, item.2 ≠ []) :
    Lexes py (spaced items) (items.map Prod.fst) := by
  induction items with
  | nil => exact Lexes.nil
  | cons item items ih =>
    obtain ⟨hw, hb⟩ := hitems item List.mem_cons_self
    have hends : Ends (item.2 ++ spaced items) := by
      intro c hc
      cases hgap : item.2 with
      | cons d gap =>
        rw [hgap] at hc hb
        have hd : d = c := by simpa using hc
        exact hb c (by rw [← hd]; exact List.mem_cons_self)
      | nil =>
        cases items with
        | nil =>
          rw [hgap] at hc
          cases hc
        | cons next items => exact absurd hgap (hsep item (by simp))
    have hrest := ih (fun i hi => hitems i (List.mem_cons_of_mem _ hi)) fun i hi => hsep i (by
      cases items with
      | nil => cases hi
      | cons next items => exact List.mem_cons_of_mem _ hi)
    have hstep := Lexes.step (hw.scans hends) (hb.lexes hrest)
    rw [← List.append_assoc] at hstep
    exact hstep

/-- **The lexer reads back what was written.** -/
theorem tokenize_spaced (py : Python) (lead : List Char) (items : List (Lexeme × List Char))
    (hlead : Blanks lead) (hitems : ∀ item ∈ items, Writable py item.1 ∧ Blanks item.2)
    (hsep : ∀ item ∈ items.dropLast, item.2 ≠ []) :
    ∃ tokens, tokenize py (String.ofList (lead ++ spaced items)) = .ok tokens ∧
      tokens.map Token.lexeme = items.map Prod.fst ++ [⟨.eof, ""⟩] := by
  have hlexes := hlead.lexes (lexes_spaced hitems hsep)
  have hiff := lexes_iff py (String.ofList (lead ++ spaced items)) (items.map Prod.fst)
  rw [String.toList_ofList] at hiff
  exact (hiff.mp hlexes).2

/-- A name with a quote and a line break in a literal, next to a number and an operator. -/
def spacedExample : List (Lexeme × List Char) :=
  [(keyword "WHERE", [' ']), (ident "name", ['\t', '\n']), (operator "<", [' ']),
    (string "O'Brien\n", ['\r']), (keyword "AND", [' ']), (number ".5", [' ']), (punct ".", [])]

theorem tokenize_spaced_literal :
    ∃ tokens, tokenize Python.asciiTables (String.ofList ([' '] ++ spaced spacedExample)) =
        .ok tokens ∧
      tokens.map Token.lexeme = spacedExample.map Prod.fst ++ [⟨.eof, ""⟩] := by
  have hwritable : ∀ item ∈ spacedExample, Writable Python.asciiTables item.1 := by
    simp only [spacedExample, List.forall_mem_cons]
    refine ⟨.keyword (by decide +kernel), ?_, .operator (by decide +kernel), .string _,
      .keyword (by decide +kernel), ?_, .punct (by decide), fun item h => absurd h List.not_mem_nil⟩
    · exact Writable.ident (Or.inl (by decide)) (by decide)
        (List.all_eq_true.mp (by decide +kernel)) (by decide +kernel)
    · exact Writable.number (Or.inr ⟨rfl, '5', rfl, by decide⟩)
        (List.all_eq_true.mp (by decide +kernel))
  have hblanks : ∀ item ∈ spacedExample, Blanks item.2 := by decide +kernel
  exact tokenize_spaced _ _ _ (by decide +kernel)
    (fun item h => ⟨hwritable item h, hblanks item h⟩) (by decide +kernel)

end TinyDB
