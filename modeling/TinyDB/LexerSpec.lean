import TinyDB.ParserSound
import Mathlib.Data.List.TakeWhile

/-!
# Texts and their lexemes

`Lexes` says which lexemes a text is written with: blanks and comments stand between them,
a number and a word are as long as can be, and a quote inside a string literal is written
twice. The lexer finds these lexemes and no others, as long as the text does not end inside
a string literal.
-/

namespace TinyDB

open Lib Lexeme

/-! ## The lexical grammar -/

/-- `front` is the longest front of the text whose characters satisfy `p`. -/
structure Longest (p : Char → Bool) (front rest : List Char) : Prop where
  inside : ∀ c ∈ front, p c = true
  stop : ∀ c ∈ rest.head?, p c = false

def isBlank (c : Char) : Bool := c = ' ' || c = '\t' || c = '\r' || c = '\n'

/-- What stands between the quotes of a literal. -/
def doubled (s : List Char) : List Char := s.flatMap fun c => if c = '\'' then [c, c] else [c]

namespace Python

variable (py : Python)

def isNumberChar (c : Char) : Bool := py.isdigit c || c = '.'

def isWordChar (c : Char) : Bool := py.isalnum c || c = '_'

/-- A keyword in any case, else an identifier. -/
def wordLexeme (text : List Char) : Lexeme :=
  let word := py.upperText (String.ofList text)
  if keywords.contains word then keyword word else ident (String.ofList text)

end Python

/-- One step through a text: a blank, a comment or a lexeme, and what follows it. -/
inductive Scans (py : Python) : List Char → Option Lexeme → List Char → Prop where
  | blank {c : Char} {rest : List Char} : isBlank c = true → Scans py (c :: rest) none rest
  | comment {body rest : List Char} : Longest (· ≠ '\n') body rest →
      Scans py ('-' :: '-' :: body ++ rest) none rest
  | string {s rest : List Char} : rest.head? ≠ some '\'' →
      Scans py ('\'' :: doubled s ++ '\'' :: rest) (some (string (String.ofList s))) rest
  | number {c : Char} {text rest : List Char} :
      py.isdigit c = true ∨ c = '.' ∧ (∃ d ∈ text.head?, py.isdigit d = true) →
      Longest py.isNumberChar (c :: text) rest →
      Scans py (c :: text ++ rest) (some (number (String.ofList (c :: text)))) rest
  | word {c : Char} {text rest : List Char} : py.isalpha c = true ∨ c = '_' →
      py.isdigit c = false → Longest py.isWordChar (c :: text) rest →
      Scans py (c :: text ++ rest) (some (py.wordLexeme (c :: text))) rest
  | operator {op : String} {rest : List Char} :
      operatorPatterns.find? (fun o => o.toList.isPrefixOf (op.toList ++ rest)) = some op →
      Scans py (op.toList ++ rest) (some (operator op)) rest
  | punct {p : Char} {rest : List Char} : p ∈ singleCharPunct →
      (p = '.' → ∀ d ∈ rest.head?, py.isdigit d = false) →
      Scans py (p :: rest) (some (punct (String.ofList [p]))) rest

inductive Lexes (py : Python) : List Char → List Lexeme → Prop where
  | nil : Lexes py [] []
  | step {text rest : List Char} {l : Option Lexeme} {ls : List Lexeme} :
    Scans py text l rest → Lexes py rest ls → Lexes py text (l.toList ++ ls)

inductive Mode where
  | text
  | comment
  | string
  deriving DecidableEq

/-- The text ends inside a string literal; in one, a quote written twice leaves and enters it
again. -/
def endsOpen : Mode → List Char → Bool
  | mode, [] => mode = .string
  | .text, c :: cs =>
    endsOpen (if c = '\'' then .string
      else if c = '-' ∧ cs.head? = some '-' then .comment else .text) cs
  | .string, c :: cs => endsOpen (if c = '\'' then .text else .string) cs
  | .comment, c :: cs => endsOpen (if c = '\n' then .text else .comment) cs

/-! ## Longest fronts -/

theorem longest_takeWhile (p : Char → Bool) (cs : List Char) :
    Longest p (cs.takeWhile p) (cs.dropWhile p) where
  inside c hc := List.mem_takeWhile_imp hc
  stop c hc := by
    induction cs with
    | nil => cases hc
    | cons d cs ih =>
      by_cases hd : p d = true
      · rw [List.dropWhile_cons_of_pos hd] at hc
        exact ih hc
      · rw [List.dropWhile_cons_of_neg hd] at hc
        cases hc
        exact Bool.eq_false_iff.mpr hd

theorem Longest.cons {p : Char → Bool} {c : Char} {front rest : List Char} (hc : p c = true)
    (h : Longest p front rest) : Longest p (c :: front) rest :=
  ⟨fun d hd => (List.mem_cons.mp hd).elim (fun e => e ▸ hc) (h.inside d), h.stop⟩

theorem Longest.takeWhile {p : Char → Bool} {front rest : List Char} (h : Longest p front rest) :
    (front ++ rest).takeWhile p = front := by
  have hstop : rest.takeWhile p = [] := by
    cases rest with
    | nil => rfl
    | cons c rest => simp [h.stop c rfl]
  rw [List.takeWhile_append_of_pos h.inside, hstop, List.append_nil]

theorem Longest.dropWhile {p : Char → Bool} {front rest : List Char} (h : Longest p front rest) :
    (front ++ rest).dropWhile p = rest := by
  rw [List.dropWhile_append_of_pos h.inside]
  cases rest with
  | nil => rfl
  | cons c rest => simp [h.stop c rfl]

/-! ## Characters -/

theorem ascii_false (py : Python) {c : Char} (hc : c.toNat < 128) (ha : c.isAlpha = false)
    (hd : c.isDigit = false) :
    py.isdigit c = false ∧ py.isalpha c = false ∧ py.isalnum c = false := by
  obtain ⟨halpha, hdigit, hnumeric, hdecimal⟩ := py.ascii c hc
  rw [ha] at halpha
  rw [hd] at hdigit hnumeric hdecimal
  exact ⟨hdigit, halpha, by simp [Python.isalnum, halpha, hdigit, hnumeric, hdecimal]⟩

/-- The characters that neither a number nor a word has. -/
def marks : List Char := [' ', '\t', '\r', '\n', '-', '\'', '<', '>', '=', '(', ')', ',', ';', '*']

theorem mark_spec (py : Python) {c : Char} (hc : c ∈ marks) :
    py.isNumberChar c = false ∧ py.isWordChar c = false ∧ py.isdigit c = false ∧
      py.isalpha c = false := by
  have hall : (marks.all fun c => decide (c.toNat < 128 ∧ c.isAlpha = false ∧
      c.isDigit = false ∧ c ≠ '.' ∧ c ≠ '_')) = true := by decide
  obtain ⟨h128, ha, hd, hdot, hunder⟩ := of_decide_eq_true (List.all_eq_true.mp hall c hc)
  obtain ⟨hdigit, halpha, halnum⟩ := ascii_false py h128 ha hd
  simp [Python.isNumberChar, Python.isWordChar, hdigit, halpha, halnum, hdot, hunder]

theorem dot_spec (py : Python) : py.isdigit '.' = false ∧ py.isalpha '.' = false :=
  ⟨(ascii_false py (by decide) (by decide) (by decide)).1,
    (ascii_false py (by decide) (by decide) (by decide)).2.1⟩

theorem underscore_spec (py : Python) : py.isdigit '_' = false :=
  (ascii_false py (by decide) (by decide) (by decide)).1

/-! ## Strings -/

theorem doubled_cons (c : Char) (s : List Char) :
    doubled (c :: s) = (if c = '\'' then [c, c] else [c]) ++ doubled s := List.flatMap_cons ..

/-- The literal is closed, or the text has come to its end. -/
theorem scanString_cases (cs : List Char) (line column : Nat) :
    (cs = doubled (scanString cs line column).1 ++ '\'' :: (scanString cs line column).2.1 ∧
      (scanString cs line column).2.1.head? ≠ some '\'') ∨
    cs = doubled (scanString cs line column).1 ∧ (scanString cs line column).2.1 = [] := by
  fun_induction scanString cs line column with
  | case1 => exact Or.inr ⟨rfl, rfl⟩
  | case2 => exact Or.inl ⟨rfl, by simp⟩
  | case3 line column ds parts rest heq ih =>
    rw [heq] at ih
    have hpair : ∀ t, doubled ('\'' :: parts) ++ t = '\'' :: '\'' :: (doubled parts ++ t) := by
      intro t
      simp [doubled_cons]
    rcases ih with ⟨hcs, hhead⟩ | ⟨hcs, hnil⟩
    · refine Or.inl ⟨?_, hhead⟩
      rw [hpair, ← hcs]
    · refine Or.inr ⟨?_, hnil⟩
      rw [← List.append_nil (doubled _), hpair, List.append_nil, ← hcs]
  | case4 line column d ds hd => exact Or.inl ⟨rfl, by simpa using hd⟩
  | case5 c cs line column hc parts rest heq ih ih' =>
    have hone : ∀ t, doubled (c :: parts) ++ t = c :: (doubled parts ++ t) := by
      intro t
      simp [doubled_cons, hc]
    have hboth : (cs = doubled parts ++ '\'' :: rest.1 ∧ rest.1.head? ≠ some '\'') ∨
        cs = doubled parts ∧ rest.1 = [] := by
      by_cases hn : c = '\n'
      · rw [if_pos hn] at heq
        rw [heq] at ih
        exact ih
      · rw [if_neg hn] at heq
        rw [heq] at ih'
        exact ih'
    rcases hboth with ⟨hcs, hhead⟩ | ⟨hcs, hnil⟩
    · refine Or.inl ⟨?_, hhead⟩
      rw [hone, ← hcs]
    · refine Or.inr ⟨?_, hnil⟩
      rw [← List.append_nil (doubled _), hone, List.append_nil, ← hcs]

theorem scanString_other {c : Char} (hc : c ≠ '\'') (cs : List Char) (line column : Nat) :
    scanString (c :: cs) line column =
      (let r := if c = '\n' then scanString cs (line + 1) 1 else scanString cs line (column + 1)
       (c :: r.1, r.2)) := by
  rw [scanString.eq_def]
  simp only [if_neg hc]

theorem scanString_doubled (s : List Char) {rest : List Char} (hrest : rest.head? ≠ some '\'')
    (line column : Nat) : ∃ line' column',
      scanString (doubled s ++ '\'' :: rest) line column = (s, rest, line', column') := by
  induction s generalizing line column with
  | nil =>
    cases rest with
    | nil => exact ⟨_, _, rfl⟩
    | cons d rest =>
      have hd : d ≠ '\'' := by simpa using hrest
      refine ⟨line, column + 1, ?_⟩
      simp [doubled, scanString, hd]
  | cons c s ih =>
    by_cases hc : c = '\''
    · obtain ⟨line', column', hscan⟩ := ih line (column + 2)
      refine ⟨line', column', ?_⟩
      simp [doubled_cons, hc, scanString, hscan]
    · by_cases hn : c = '\n'
      · obtain ⟨line', column', hscan⟩ := ih (line + 1) 1
        refine ⟨line', column', ?_⟩
        simp [doubled_cons, hn, scanString_other, hscan]
      · obtain ⟨line', column', hscan⟩ := ih line (column + 1)
        refine ⟨line', column', ?_⟩
        simp [doubled_cons, hc, hn, scanString_other hc, hscan]

theorem endsOpen_doubled (s rest : List Char) :
    endsOpen .string (doubled s ++ rest) = endsOpen .string rest := by
  induction s with
  | nil => rfl
  | cons c s ih =>
    by_cases hc : c = '\''
    · simpa [doubled_cons, hc, endsOpen] using ih
    · simpa [doubled_cons, hc, endsOpen] using ih

/-! ## One step -/

theorem endsOpen_plain {front rest : List Char} (h : ∀ c ∈ front, c ≠ '\'' ∧ c ≠ '-') :
    endsOpen .text (front ++ rest) = endsOpen .text rest := by
  induction front with
  | nil => rfl
  | cons c front ih =>
    obtain ⟨hquote, hminus⟩ := h c (List.mem_cons_self ..)
    rw [List.cons_append, endsOpen, if_neg hquote, if_neg fun h => hminus h.1]
    exact ih fun d hd => h d (List.mem_cons_of_mem _ hd)

theorem endsOpen_comment {body rest : List Char} (h : Longest (· ≠ '\n') body rest) :
    endsOpen .comment (body ++ rest) = endsOpen .text rest := by
  have hbody : ∀ body : List Char, (∀ c ∈ body, c ≠ '\n') →
      endsOpen .comment (body ++ rest) = endsOpen .comment rest := by
    intro body hall
    induction body with
    | nil => rfl
    | cons c body ih =>
      rw [List.cons_append, endsOpen, if_neg (hall c (List.mem_cons_self ..))]
      exact ih fun d hd => hall d (List.mem_cons_of_mem _ hd)
  rw [hbody body fun c hc => by simpa using h.inside c hc]
  cases rest with
  | nil => rfl
  | cons c rest =>
    have hc : c = '\n' := by simpa using h.stop c rfl
    rw [hc]
    rfl

theorem isBlank_iff {c : Char} : isBlank c = true ↔ c = ' ' ∨ c = '\t' ∨ c = '\r' ∨ c = '\n' := by
  simp [isBlank, or_assoc]

theorem mem_operatorPatterns {op : String} {text : List Char}
    (h : operatorPatterns.find? (fun o => o.toList.isPrefixOf text) = some op) :
    op ∈ operatorPatterns := List.mem_of_find?_eq_some h

/-- A step starts and ends outside the string literals. -/
theorem Scans.endsOpen {py : Python} {text rest : List Char} {l : Option Lexeme}
    (h : Scans py text l rest) : endsOpen .text text = endsOpen .text rest := by
  have hmarks : ∀ {p : Char → Bool} {front : List Char}, p '\'' = false → p '-' = false →
      Longest p front rest → TinyDB.endsOpen .text (front ++ rest) = TinyDB.endsOpen .text rest := by
    intro p front hquote hminus hl
    refine endsOpen_plain fun c hc => ⟨?_, ?_⟩
    · rintro rfl
      exact absurd (hl.inside _ hc) (by simp [hquote])
    · rintro rfl
      exact absurd (hl.inside _ hc) (by simp [hminus])
  have hquote := mark_spec py (show '\'' ∈ marks by decide)
  have hminus := mark_spec py (show '-' ∈ marks by decide)
  cases h with
  | @blank c _ hc =>
    refine endsOpen_plain (show ∀ d ∈ [c], d ≠ '\'' ∧ d ≠ '-' from fun d hd => ?_)
    rw [List.mem_singleton.mp hd]
    rcases isBlank_iff.mp hc with rfl | rfl | rfl | rfl <;> decide
  | comment hl =>
    refine endsOpen_comment ⟨fun c hc => ?_, hl.stop⟩
    rcases List.mem_cons.mp hc with rfl | hc
    · decide
    · exact hl.inside c hc
  | string hrest => exact endsOpen_doubled _ _
  | number _ hl => exact hmarks hquote.1 hminus.1 hl
  | word _ _ hl => exact hmarks hquote.2.1 hminus.2.1 hl
  | @operator op _ hop =>
    have hall : (operatorPatterns.all fun op =>
        op.toList.all fun c => decide (c ≠ '\'' ∧ c ≠ '-')) = true := by decide +kernel
    have hop' := List.all_eq_true.mp hall op (mem_operatorPatterns hop)
    exact endsOpen_plain fun c hc => of_decide_eq_true (List.all_eq_true.mp hop' c hc)
  | @punct p _ hp _ =>
    have hall : (singleCharPunct.all fun p => decide (p ≠ '\'' ∧ p ≠ '-')) = true := by decide
    have hone : ∀ d ∈ [p], d ≠ '\'' ∧ d ≠ '-' := by
      intro d hd
      rw [List.mem_singleton.mp hd]
      exact of_decide_eq_true (List.all_eq_true.mp hall p hp)
    exact endsOpen_plain hone

theorem wordLexeme_eq (py : Python) (text : List Char) (line column : Nat) :
    (if keywords.contains (py.upperText (String.ofList text)) then
      (⟨.keyword, py.upperText (String.ofList text), line, column⟩ : Token)
    else ⟨.ident, String.ofList text, line, column⟩).lexeme = py.wordLexeme text := by
  rw [Python.wordLexeme]
  by_cases hk : keywords.contains (py.upperText (String.ofList text)) = true
  · simp only [if_pos hk]
    rfl
  · simp only [if_neg hk]
    rfl

/-- **Soundness of a step.** Unless a string literal runs to the end of the text. -/
theorem scans_of_scanToken {py : Python} {c : Char} {cs rest : List Char}
    {line column line' column' : Nat} {t : Option Token}
    (h : scanToken py c cs line column = .ok (t, rest, line', column')) :
    Scans py (c :: cs) (t.map Token.lexeme) rest ∨
      c = '\'' ∧ rest = [] ∧ endsOpen .string cs = true ∧
        ∃ s, t.map Token.lexeme = some (string s) := by
  unfold scanToken at h
  by_cases hblank : c = ' ' ∨ c = '\t' ∨ c = '\r' ∨ c = '\n'
  · simp only [if_pos hblank, Except.ok.injEq, Prod.mk.injEq] at h
    obtain ⟨rfl, rfl, -⟩ := h
    exact Or.inl (Scans.blank (isBlank_iff.mpr hblank))
  rw [if_neg hblank] at h
  by_cases hcomment : c = '-' ∧ cs.head? = some '-'
  · simp only [if_pos hcomment, Except.ok.injEq, Prod.mk.injEq] at h
    obtain ⟨rfl, rfl, -⟩ := h
    obtain ⟨rfl, hhead⟩ := hcomment
    cases cs with
    | nil => cases hhead
    | cons d cs =>
      cases hhead
      have hscan : Scans py ('-' :: '-' :: cs.takeWhile (· ≠ '\n') ++ cs.dropWhile (· ≠ '\n')) none
          (cs.dropWhile (· ≠ '\n')) := Scans.comment (longest_takeWhile _ cs)
      rw [List.cons_append, List.cons_append, List.takeWhile_append_dropWhile] at hscan
      exact Or.inl hscan
  rw [if_neg hcomment] at h
  by_cases hquote : c = '\''
  · simp only [if_pos hquote, Except.ok.injEq, Prod.mk.injEq] at h
    obtain ⟨rfl, rfl, -⟩ := h
    subst hquote
    rcases scanString_cases cs line (column + 1) with ⟨hcs, hhead⟩ | ⟨hcs, hnil⟩
    · have hscan : Scans py ('\'' :: doubled (scanString cs line (column + 1)).1 ++
          '\'' :: (scanString cs line (column + 1)).2.1) _ _ := Scans.string hhead
      rw [List.cons_append, ← hcs] at hscan
      exact Or.inl hscan
    · refine Or.inr ⟨rfl, hnil, ?_, _, rfl⟩
      rw [hcs, ← List.append_nil (doubled _), endsOpen_doubled]
      rfl
  rw [if_neg hquote] at h
  by_cases hnumber : (py.isdigit c || decide (c = '.') && (cs.head?.map py.isdigit).getD false) = true
  · simp only [if_pos hnumber, Except.ok.injEq, Prod.mk.injEq] at h
    obtain ⟨rfl, rfl, -⟩ := h
    have hc : py.isNumberChar c = true := by
      simp only [Bool.or_eq_true, Bool.and_eq_true] at hnumber
      simp only [Python.isNumberChar, Bool.or_eq_true]
      exact hnumber.imp_right And.left
    have hstart : py.isdigit c = true ∨
        c = '.' ∧ ∃ d ∈ (cs.takeWhile py.isNumberChar).head?, py.isdigit d = true := by
      simp only [Bool.or_eq_true, Bool.and_eq_true, decide_eq_true_eq] at hnumber
      refine hnumber.imp_right fun ⟨hdot, hnext⟩ => ⟨hdot, ?_⟩
      cases cs with
      | nil => cases hnext
      | cons d cs =>
        have hd : py.isdigit d = true := hnext
        exact ⟨d, by simp [Python.isNumberChar, hd], hd⟩
    have hscan := Scans.number hstart ((longest_takeWhile py.isNumberChar cs).cons hc)
    rw [List.cons_append, List.takeWhile_append_dropWhile, ← List.takeWhile_cons_of_pos hc,
      ← List.dropWhile_cons_of_pos hc] at hscan
    exact Or.inl hscan
  rw [if_neg hnumber] at h
  by_cases hword : (py.isalpha c || decide (c = '_')) = true
  · simp only [if_pos hword, Except.ok.injEq, Prod.mk.injEq] at h
    obtain ⟨rfl, rfl, -⟩ := h
    have hstart : py.isalpha c = true ∨ c = '_' := by simpa using hword
    have hc : py.isWordChar c = true := by
      simp only [Python.isWordChar, Python.isalnum, Bool.or_eq_true, decide_eq_true_eq]
      exact hstart.imp_left fun ha => Or.inl (Or.inl (Or.inl ha))
    have hdigit : py.isdigit c = false := by
      simp only [Bool.or_eq_true, not_or, Bool.not_eq_true] at hnumber
      exact hnumber.1
    have hscan := Scans.word hstart hdigit ((longest_takeWhile py.isWordChar cs).cons hc)
    rw [List.cons_append, List.takeWhile_append_dropWhile, ← List.takeWhile_cons_of_pos hc,
      ← List.dropWhile_cons_of_pos hc] at hscan
    rw [← wordLexeme_eq py _ line column] at hscan
    exact Or.inl hscan
  rw [if_neg hword] at h
  cases hop : operatorPatterns.find? fun op => op.toList.isPrefixOf (c :: cs) with
  | some op =>
    simp only [hop, Except.ok.injEq, Prod.mk.injEq] at h
    obtain ⟨rfl, rfl, -⟩ := h
    have hmatch : op.toList.isPrefixOf (c :: cs) = true := by
      simpa only using List.find?_some hop
    have hprefix : op.toList <+: c :: cs := List.isPrefixOf_iff_prefix.mp hmatch
    have htext : op.toList ++ (c :: cs).drop op.length = c :: cs := by
      rw [← String.length_toList]
      exact (List.prefix_iff_eq_append.mp hprefix)
    rw [← htext] at hop
    have hscan : Scans py _ (some (operator op)) _ := Scans.operator hop
    rw [htext] at hscan
    exact Or.inl hscan
  | none =>
    simp only [hop] at h
    by_cases hpunct : singleCharPunct.contains c = true
    · simp only [if_pos hpunct, Except.ok.injEq, Prod.mk.injEq] at h
      obtain ⟨rfl, rfl, -⟩ := h
      refine Or.inl (Scans.punct (List.contains_iff_mem.mp hpunct) fun hdot d hd => ?_)
      refine Bool.eq_false_iff.mpr fun hdigit => hnumber ?_
      rw [Option.mem_def.mp hd, hdot]
      simp [hdigit]
    · rw [if_neg hpunct] at h
      cases h

/-- What starts a number, a word, an operator or a mark starts nothing that comes before it. -/
theorem scanToken_skip {c : Char} {cs : List Char} (hc : ¬ isBlank c = true) (hminus : c ≠ '-')
    (hquote : c ≠ '\'') (py : Python) (line column : Nat) : scanToken py c cs line column =
      (if py.isdigit c || c = '.' && (cs.head?.map py.isdigit).getD false then
        .ok (some ⟨.number, String.ofList ((c :: cs).takeWhile py.isNumberChar), line, column⟩,
          (c :: cs).dropWhile py.isNumberChar, line,
          column + ((c :: cs).takeWhile py.isNumberChar).length)
      else if py.isalpha c || c = '_' then
        let text := (c :: cs).takeWhile py.isWordChar
        let word := py.upperText (String.ofList text)
        .ok (some (if keywords.contains word then ⟨.keyword, word, line, column⟩
            else ⟨.ident, String.ofList text, line, column⟩),
          (c :: cs).dropWhile py.isWordChar, line, column + text.length)
      else
        match operatorPatterns.find? fun op => op.toList.isPrefixOf (c :: cs) with
        | some op =>
          .ok (some ⟨.operator, op, line, column⟩, (c :: cs).drop op.length, line,
            column + op.length)
        | none =>
          if singleCharPunct.contains c then
            .ok (some ⟨.punct, String.ofList [c], line, column⟩, cs, line, column + 1)
          else
            .error (.parseError ("unexpected character " ++ py.repr (String.ofList [c])) line
              column)) := by
  rw [scanToken, if_neg fun h => hc (isBlank_iff.mpr h), if_neg fun h => hminus h.1, if_neg hquote]
  rfl

/-- **Completeness of a step.** -/
theorem scanToken_of_scans {py : Python} {c : Char} {cs text rest : List Char} {l : Option Lexeme}
    (h : Scans py text l rest) (htext : text = c :: cs) (line column : Nat) :
    ∃ t line' column', scanToken py c cs line column = .ok (t, rest, line', column') ∧
      t.map Token.lexeme = l := by
  have hmark : ∀ {d : Char}, py.isNumberChar d = true ∨ py.isWordChar d = true →
      ¬ isBlank d = true ∧ d ≠ '-' ∧ d ≠ '\'' := by
    intro d hd
    have hnot : d ∉ marks := by
      intro hm
      obtain ⟨hn, hw, -⟩ := mark_spec py hm
      rcases hd with hd | hd
      · exact absurd hd (by simp [hn])
      · exact absurd hd (by simp [hw])
    refine ⟨fun hb => hnot ?_, fun e => hnot (e ▸ by decide), fun e => hnot (e ▸ by decide)⟩
    rcases isBlank_iff.mp hb with rfl | rfl | rfl | rfl <;> decide
  cases h with
  | blank hc =>
    cases htext
    rw [scanToken, if_pos (isBlank_iff.mp hc)]
    exact ⟨none, _, _, rfl, rfl⟩
  | @comment body _ hl =>
    rw [List.cons_append, List.cons_append] at htext
    obtain ⟨rfl, rfl⟩ := List.cons.inj htext
    rw [scanToken, if_neg (by decide), if_pos ⟨rfl, rfl⟩]
    have hl' : Longest (· ≠ '\n') ('-' :: '-' :: body) rest :=
      (hl.cons (by decide)).cons (by decide)
    have hdrop := hl'.dropWhile
    rw [List.cons_append, List.cons_append] at hdrop
    exact ⟨none, _, _, by rw [hdrop], rfl⟩
  | @string s _ hrest =>
    rw [List.cons_append] at htext
    obtain ⟨rfl, rfl⟩ := List.cons.inj htext
    obtain ⟨line', column', hscan⟩ := scanString_doubled s hrest line (column + 1)
    rw [scanToken, if_neg (by decide), if_neg (fun h => absurd h.1 (by decide)), if_pos rfl, hscan]
    exact ⟨_, _, _, rfl, rfl⟩
  | @number d text _ hstart hl =>
    rw [List.cons_append] at htext
    obtain ⟨rfl, rfl⟩ := List.cons.inj htext
    obtain ⟨hblank, hminus, hquote⟩ := hmark (Or.inl (hl.inside d (List.mem_cons_self ..)))
    have hnumber : (py.isdigit d || decide (d = '.') &&
        ((text ++ rest).head?.map py.isdigit).getD false) = true := by
      rcases hstart with hd | ⟨hdot, e, he, hdigit⟩
      · simp [hd]
      · cases text with
        | nil => cases he
        | cons e text =>
          cases he
          simp [hdot, hdigit]
    rw [scanToken_skip hblank hminus hquote, if_pos hnumber, ← List.cons_append, hl.takeWhile,
      hl.dropWhile]
    exact ⟨_, _, _, rfl, rfl⟩
  | @word d text _ hstart hdigit hl =>
    rw [List.cons_append] at htext
    obtain ⟨rfl, rfl⟩ := List.cons.inj htext
    obtain ⟨hblank, hminus, hquote⟩ := hmark (Or.inr (hl.inside d (List.mem_cons_self ..)))
    have hdot : d ≠ '.' := by
      rintro rfl
      rcases hstart with h | h
      · exact absurd h (by simp [dot_spec py])
      · exact absurd h (by decide)
    rw [scanToken_skip hblank hminus hquote, if_neg (by simp [hdigit, hdot]),
      if_pos (by simpa using hstart), ← List.cons_append, hl.takeWhile, hl.dropWhile]
    exact ⟨_, _, _, rfl, by rw [Option.map_some, wordLexeme_eq]⟩
  | @operator op _ hop =>
    have hall : (operatorPatterns.all fun op => op.toList.head?.any fun d => decide (d ∈ marks ∧
        isBlank d = false ∧ d ≠ '-' ∧ d ≠ '\'' ∧ d ≠ '.' ∧ d ≠ '_')) = true := by decide +kernel
    obtain ⟨d, hd, hd'⟩ := (Option.any_eq_true _ _).mp
      (List.all_eq_true.mp hall op (mem_operatorPatterns hop))
    obtain ⟨hm, hblank, hminus, hquote, hdot, hunder⟩ := of_decide_eq_true hd'
    obtain rfl : d = c := by
      cases hcs : op.toList with
      | nil =>
        rw [hcs] at hd
        cases hd
      | cons e es =>
        rw [hcs] at hd htext
        cases hd
        exact (List.cons.inj htext).1
    obtain ⟨-, -, hdigit, halpha⟩ := mark_spec py hm
    rw [htext] at hop
    rw [scanToken_skip (by simp [hblank]) hminus hquote, if_neg (by simp [hdigit, hdot]),
      if_neg (by simp [halpha, hunder]), hop]
    refine ⟨some ⟨.operator, op, line, column⟩, line, column + op.length, ?_, rfl⟩
    simp only [Except.ok.injEq, Prod.mk.injEq, true_and]
    rw [← htext, ← String.length_toList, List.drop_left]
    trivial
  | @punct p _ hp hdot =>
    obtain ⟨rfl, rfl⟩ := List.cons.inj htext
    have hall : (singleCharPunct.all fun p => decide ((p ∈ marks ∨ p = '.') ∧
        isBlank p = false ∧ p ≠ '-' ∧ p ≠ '\'' ∧ p ≠ '_' ∧
        ∀ op ∈ operatorPatterns, op.toList.head? ≠ some p)) = true := by decide +kernel
    obtain ⟨hm, hblank, hminus, hquote, hunder, hops⟩ :=
      of_decide_eq_true (List.all_eq_true.mp hall p hp)
    have hnonempty : ∀ op ∈ operatorPatterns, op.toList ≠ [] := by decide +kernel
    have hplain : py.isdigit p = false ∧ py.isalpha p = false := by
      rcases hm with hm | rfl
      · exact ⟨(mark_spec py hm).2.2.1, (mark_spec py hm).2.2.2⟩
      · exact dot_spec py
    have hnumber : ¬ (py.isdigit p || decide (p = '.') &&
        (rest.head?.map py.isdigit).getD false) = true := by
      simp only [hplain.1, Bool.false_or, Bool.and_eq_true, decide_eq_true_eq, not_and]
      intro he
      cases hr : rest.head? with
      | none => simp
      | some d => simp [hdot he d hr]
    have hnone : operatorPatterns.find? (fun op => op.toList.isPrefixOf (p :: rest)) = none := by
      refine List.find?_eq_none.mpr fun op hop hprefix => hops op hop ?_
      obtain ⟨tail, htail⟩ := List.isPrefixOf_iff_prefix.mp hprefix
      cases hcs : op.toList with
      | nil =>
        exact absurd hcs (hnonempty op hop)
      | cons e es =>
        rw [hcs, List.cons_append] at htail
        rw [(List.cons.inj htail).1]
        rfl
    rw [scanToken_skip (by simp [hblank]) hminus hquote, if_neg hnumber,
      if_neg (by simp [hplain.2, hunder]), hnone]
    simp only [if_pos (List.contains_iff_mem.mpr hp)]
    exact ⟨_, _, _, rfl, rfl⟩

theorem Scans.shorter {py : Python} {text rest : List Char} {l : Option Lexeme}
    (h : Scans py text l rest) : rest.length < text.length := by
  cases h with
  | operator hop =>
    have hpos : ∀ op ∈ operatorPatterns, 0 < op.toList.length := by decide +kernel
    have := hpos _ (mem_operatorPatterns hop)
    simp only [List.length_append]
    omega
  | _ => simp <;> omega

/-- A run of such characters is none of the two marks. -/
theorem Longest.unmarked {p : Char → Bool} {front rest : List Char} (h : Longest p front rest)
    (hstar : p '*' = false) (hparen : p '(' = false) :
    ¬ (String.ofList front = "*" ∨ String.ofList front = "(") := by
  have hfront : ∀ d : Char, p d = false → String.ofList front ≠ String.ofList [d] := by
    intro d hd he
    have hchars := congrArg String.toList he
    rw [String.toList_ofList, String.toList_ofList] at hchars
    have hin := h.inside d (by rw [hchars]; exact List.mem_singleton_self d)
    rw [hd] at hin
    cases hin
  rintro (he | he)
  · exact hfront '*' hstar he
  · exact hfront '(' hparen he

theorem Scans.proper {py : Python} {text rest : List Char} {l : Lexeme}
    (h : Scans py text (some l) rest) : l.Proper py := by
  have hstar := mark_spec py (show '*' ∈ marks by decide)
  have hparen := mark_spec py (show '(' ∈ marks by decide)
  generalize ho : some l = o at h
  cases h with
  | blank _ => cases ho
  | comment _ => cases ho
  | string _ =>
    rw [Option.some.inj ho]
    exact ⟨nofun, nofun, nofun, nofun, fun _ => Or.inr rfl⟩
  | number _ hl =>
    rw [Option.some.inj ho]
    refine ⟨nofun, nofun, fun _ c hc => ?_, nofun, fun hm => absurd hm (hl.unmarked hstar.1 hparen.1)⟩
    have hchar := hl.inside c (by simpa only [Lexeme.number, String.toList_ofList] using hc)
    simpa only [Python.isNumberChar, Bool.or_eq_true, decide_eq_true_eq] using hchar
  | @word c text _ _ _ hl =>
    rw [Option.some.inj ho]
    unfold Python.wordLexeme
    by_cases hk : keywords.contains (py.upperText (String.ofList (c :: text))) = true
    · simp only [if_pos hk]
      have hmem := List.contains_iff_mem.mp hk
      refine ⟨fun _ => hmem, nofun, nofun, nofun, fun hm => ?_⟩
      have hnone : "*" ∉ keywords ∧ "(" ∉ keywords := by decide +kernel
      rcases hm with hm | hm
      · exact absurd (hm ▸ hmem) hnone.1
      · exact absurd (hm ▸ hmem) hnone.2
    · simp only [if_neg hk]
      exact ⟨nofun, nofun, nofun, nofun, fun hm => absurd hm (hl.unmarked hstar.2.1 hparen.2.1)⟩
  | operator hop =>
    rw [Option.some.inj ho]
    have hmem := mem_operatorPatterns hop
    refine ⟨nofun, fun _ => hmem, nofun, nofun, fun hm => ?_⟩
    have hnone : "*" ∉ operatorPatterns ∧ "(" ∉ operatorPatterns := by decide +kernel
    rcases hm with hm | hm
    · exact absurd (hm ▸ hmem) hnone.1
    · exact absurd (hm ▸ hmem) hnone.2
  | punct _ _ =>
    rw [Option.some.inj ho]
    exact ⟨nofun, nofun, nofun, nofun, fun _ => Or.inl rfl⟩

/-! ## Whole texts -/

/-- **Soundness.** -/
theorem lexes_of_tokenizeFrom {py : Python} {fuel : Nat} {text : List Char} {line column : Nat}
    {tokens : List Token} (h : tokenizeFrom py fuel text line column = .ok tokens)
    (hclosed : endsOpen .text text = false) :
    ∃ ls, Lexes py text ls ∧ tokens.map Token.lexeme = ls ++ [⟨.eof, ""⟩] := by
  induction fuel generalizing text line column tokens with
  | zero =>
    cases text with
    | nil =>
      cases h
      exact ⟨[], Lexes.nil, rfl⟩
    | cons c cs => cases h
  | succ fuel ih =>
    cases text with
    | nil =>
      cases h
      exact ⟨[], Lexes.nil, rfl⟩
    | cons c cs =>
      simp only [tokenizeFrom, bind_eq_ok, Except.ok.injEq] at h
      obtain ⟨⟨t, rest, line', column'⟩, hscan, tokens', htokens, rfl⟩ := h
      rcases scans_of_scanToken hscan with hs | ⟨rfl, -, hopen, -⟩
      · rw [hs.endsOpen] at hclosed
        obtain ⟨ls, hls, hmap⟩ := ih htokens hclosed
        refine ⟨_, Lexes.step hs hls, ?_⟩
        rw [List.map_append, hmap, List.append_assoc]
        cases t <;> rfl
      · exact absurd hclosed (by simpa [endsOpen] using hopen)

/-- **Completeness.** -/
theorem tokenizeFrom_of_lexes {py : Python} {text : List Char} {ls : List Lexeme}
    (h : Lexes py text ls) {fuel : Nat} (hfuel : text.length ≤ fuel) (line column : Nat) :
    ∃ tokens, tokenizeFrom py fuel text line column = .ok tokens ∧
      tokens.map Token.lexeme = ls ++ [⟨.eof, ""⟩] ∧ endsOpen .text text = false := by
  induction h generalizing fuel line column with
  | nil => cases fuel <;> exact ⟨_, rfl, rfl, rfl⟩
  | @step text rest l ls hscan _ ih =>
    have hshort := hscan.shorter
    cases text with
    | nil => simp at hshort
    | cons c cs =>
      cases fuel with
      | zero => simp at hfuel
      | succ fuel =>
        obtain ⟨t, line', column', hs, rfl⟩ := scanToken_of_scans hscan rfl line column
        have hrest : rest.length ≤ fuel := by
          simp only [List.length_cons] at hfuel hshort
          omega
        obtain ⟨tokens, htokens, hmap, hclosed⟩ := ih hrest line' column'
        refine ⟨t.toList ++ tokens, ?_, ?_, by rw [hscan.endsOpen, hclosed]⟩
        · simp only [tokenizeFrom, hs, ok_bind, htokens]
        · rw [List.map_append, hmap, List.append_assoc]
          cases t <;> rfl

/-- **The lexer finds the lexemes of the text**, unless it ends inside a string literal. -/
theorem lexes_iff (py : Python) (sql : String) (ls : List Lexeme) :
    Lexes py sql.toList ls ↔ endsOpen .text sql.toList = false ∧ ∃ tokens,
      tokenize py sql = .ok tokens ∧ tokens.map Token.lexeme = ls ++ [⟨.eof, ""⟩] := by
  constructor
  · intro h
    obtain ⟨tokens, htokens, hmap, hclosed⟩ := tokenizeFrom_of_lexes h (Nat.le_refl _) 1 1
    exact ⟨hclosed, tokens, htokens, hmap⟩
  · rintro ⟨hclosed, tokens, htokens, hmap⟩
    obtain ⟨ls', hls, hmap'⟩ := lexes_of_tokenizeFrom htokens hclosed
    rwa [List.append_cancel_right (hmap.symm.trans hmap')]

theorem Scans.not_eof {py : Python} {text rest : List Char} {l : Lexeme}
    (h : Scans py text (some l) rest) : l.type ≠ .eof := by
  generalize ho : some l = o at h
  cases h with
  | blank _ => cases ho
  | comment _ => cases ho
  | @word c text =>
    rw [Option.some.inj ho]
    unfold Python.wordLexeme
    by_cases hk : keywords.contains (py.upperText (String.ofList (c :: text))) = true
    · simp only [if_pos hk]
      nofun
    · simp only [if_neg hk]
      nofun
  | _ =>
    rw [Option.some.inj ho]
    nofun

/-- The EOF comes last and only there. -/
theorem tokenizeFrom_eof {py : Python} {fuel : Nat} {text : List Char} {line column : Nat}
    {tokens : List Token} (h : tokenizeFrom py fuel text line column = .ok tokens) :
    ∃ body, tokens.map Token.lexeme = body ++ [⟨.eof, ""⟩] ∧ ∀ l ∈ body, l.type ≠ .eof := by
  induction fuel generalizing text line column tokens with
  | zero =>
    cases text with
    | nil =>
      cases h
      exact ⟨[], rfl, nofun⟩
    | cons c cs => cases h
  | succ fuel ih =>
    cases text with
    | nil =>
      cases h
      exact ⟨[], rfl, nofun⟩
    | cons c cs =>
      simp only [tokenizeFrom, bind_eq_ok, Except.ok.injEq] at h
      obtain ⟨⟨t, rest, line', column'⟩, hscan, tokens', htokens, rfl⟩ := h
      obtain ⟨body, hbody, hne⟩ := ih htokens
      have ht : ∀ l ∈ t.toList.map Token.lexeme, l.type ≠ .eof := by
        intro l hl
        rcases scans_of_scanToken hscan with hs | ⟨-, -, -, s, hs⟩
        · cases t with
          | none => cases hl
          | some t =>
            rw [List.mem_singleton.mp hl]
            exact hs.not_eof
        · cases t with
          | none => cases hl
          | some t =>
            rw [List.mem_singleton.mp hl, Option.some.inj hs]
            nofun
      refine ⟨t.toList.map Token.lexeme ++ body, ?_, fun l hl => ?_⟩
      · rw [List.map_append, hbody, List.append_assoc]
      · exact (List.mem_append.mp hl).elim (ht l) (hne l)

theorem scanToken_error {py : Python} {c : Char} {cs : List Char} {line column : Nat} {e : PyErr}
    (h : scanToken py c cs line column = .error e) :
    ∃ message line' column', e = .parseError message line' column' := by
  unfold scanToken at h
  split at h
  · cases h
  split at h
  · cases h
  split at h
  · cases h
  split at h
  · cases h
  split at h
  · cases h
  split at h
  · cases h
  split at h
  · cases h
  · cases h
    exact ⟨_, _, _, rfl⟩

/-- The lexer returns proper tokens or raises `ParseError`; it never runs out of fuel. -/
theorem tokenizeFrom_cases (py : Python) {fuel : Nat} {text : List Char}
    (hfuel : text.length ≤ fuel) (line column : Nat) :
    (∃ tokens, tokenizeFrom py fuel text line column = .ok tokens ∧ ∀ t ∈ tokens, t.Proper py) ∨
    ∃ message line' column',
      tokenizeFrom py fuel text line column = .error (.parseError message line' column') := by
  have heof : ∀ line column, ∀ t ∈ [(⟨.eof, "", line, column⟩ : Token)], t.Proper py := by
    intro line column t ht
    have hempty : ¬ (("" : String) = "*" ∨ ("" : String) = "(") := by decide
    rw [List.mem_singleton.mp ht]
    exact ⟨nofun, nofun, nofun, fun _ => rfl, fun hm => absurd hm hempty⟩
  induction fuel generalizing text line column with
  | zero =>
    obtain rfl := List.eq_nil_of_length_eq_zero (Nat.le_zero.mp hfuel)
    exact Or.inl ⟨_, rfl, heof line column⟩
  | succ fuel ih =>
    cases text with
    | nil => exact Or.inl ⟨_, rfl, heof line column⟩
    | cons c cs =>
      cases hscan : scanToken py c cs line column with
      | error e =>
        obtain ⟨message, line', column', rfl⟩ := scanToken_error hscan
        exact Or.inr ⟨message, line', column', by simp only [tokenizeFrom, hscan, error_bind]⟩
      | ok r =>
        obtain ⟨t, rest, line', column'⟩ := r
        have hstep : rest.length ≤ fuel ∧ ∀ u ∈ t.toList, u.Proper py := by
          simp only [List.length_cons] at hfuel
          rcases scans_of_scanToken hscan with hs | ⟨-, rfl, -, s, hs⟩
          · have := hs.shorter
            simp only [List.length_cons] at this
            refine ⟨by omega, fun u hu => ?_⟩
            rw [Option.mem_toList] at hu
            rw [hu] at hs
            exact hs.proper
          · refine ⟨Nat.zero_le _, fun u hu => ?_⟩
            rw [Option.mem_toList] at hu
            rw [hu, Option.map_some, Option.some.injEq] at hs
            rw [Token.Proper, hs]
            exact ⟨nofun, nofun, nofun, nofun, fun _ => Or.inr rfl⟩
        rcases ih hstep.1 line' column' with ⟨tokens, htokens, hproper⟩ | ⟨m, l, k, he⟩
        · refine Or.inl ⟨t.toList ++ tokens, by simp only [tokenizeFrom, hscan, ok_bind, htokens],
            fun u hu => ?_⟩
          exact (List.mem_append.mp hu).elim (hstep.2 u) (hproper u)
        · exact Or.inr ⟨m, l, k, by simp only [tokenizeFrom, hscan, ok_bind, he, error_bind]⟩

end TinyDB
