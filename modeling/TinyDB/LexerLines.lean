import TinyDB.TokenTexts

/-!
# Lexemes across lines

How the lexemes of a text depend on its lines. `Reads` follows the steps of the
lexer down to a rest of the text. Without comments a reading goes on behind a
blank whatever follows, so lines may be read one by one.
-/

namespace TinyDB

open Lib Lexeme

variable {py : Python}

/-! ## The front of a step -/

/-- What may follow a lexeme: a blank, a `-` or the end of the text. -/
def Stops (rest : List Char) : Prop := ∀ c ∈ rest.head?, isBlank c = true ∨ c = '-'

def opensComment : List Char → Bool
  | '-' :: '-' :: _ => true
  | _ => false

theorem Ends.stops {rest : List Char} (h : Ends rest) : Stops rest := fun c hc => .inl (h c hc)

theorem Stops.mark {rest : List Char} (h : Stops rest) : ∀ c ∈ rest.head?, c ∈ marks := by
  intro c hc
  rcases h c hc with hb | rfl
  · exact blank_mark hb
  · decide

theorem Stops.longest {p : Char → Bool} {front rest rest' : List Char} (h : Longest p front rest)
    (hp : ∀ c ∈ marks, p c = false) (hrest : Stops rest') : Longest p front rest' :=
  ⟨h.inside, fun c hc => hp c (hrest.mark c hc)⟩

theorem Longest.head {p : Char → Bool} {front rest rest' : List Char} (h : Longest p front rest)
    (hhead : rest'.head? = rest.head? ∨ rest' = []) : Longest p front rest' := by
  refine ⟨h.inside, fun c hc => ?_⟩
  rcases hhead with hhead | rfl
  · exact h.stop c (hhead ▸ hc)
  · cases hc

theorem operator_length : ∀ op ∈ operatorPatterns, op.toList ≠ [] ∧ op.toList.length ≤ 2 := by
  decide +kernel

theorem operator_chars {op : String} (hop : op ∈ operatorPatterns) {c : Char}
    (hc : c ∈ op.toList) : c = '<' ∨ c = '>' ∨ c = '=' := by
  have hall : (operatorPatterns.all fun op =>
      op.toList.all fun c => decide (c = '<' ∨ c = '>' ∨ c = '=')) = true := by decide +kernel
  exact of_decide_eq_true (List.all_eq_true.mp (List.all_eq_true.mp hall op hop) c hc)

/-- An operator is found by its characters and the one behind it. -/
theorem find_operator_head {op : String} (hop : op ∈ operatorPatterns) {rest rest' : List Char}
    (hhead : rest'.head? = rest.head?) :
    operatorPatterns.find? (fun o => o.toList.isPrefixOf (op.toList ++ rest')) =
      operatorPatterns.find? (fun o => o.toList.isPrefixOf (op.toList ++ rest)) := by
  have htake : (op.toList ++ rest').take 2 = (op.toList ++ rest).take 2 := by
    obtain ⟨c, text, hc⟩ := List.exists_cons_of_ne_nil (operator_length op hop).1
    rw [hc]
    cases text with
    | nil => cases rest <;> cases rest' <;> simp_all
    | cons d text => rfl
  have hfront : ∀ o ∈ operatorPatterns, ∀ text : List Char,
      o.toList.isPrefixOf text = o.toList.isPrefixOf (text.take 2) := by
    intro o ho text
    rw [Bool.eq_iff_iff, List.isPrefixOf_iff_prefix, List.isPrefixOf_iff_prefix,
      List.prefix_take_iff]
    exact (and_iff_left (operator_length o ho).2).symm
  refine List.find?_congr fun o ho => ?_
  rw [hfront o ho, hfront o ho (op.toList ++ rest), htake]

theorem find_operator_stops {op : String} (hop : op ∈ operatorPatterns) {rest : List Char}
    (hrest : Stops rest) :
    operatorPatterns.find? (fun o => o.toList.isPrefixOf (op.toList ++ rest)) = some op := by
  cases rest with
  | nil => exact find_operator hop (fun c hc => by cases hc)
  | cons d rest =>
    rcases hrest d rfl with hb | rfl
    · exact find_operator hop fun c hc => by cases hc; exact hb
    · have hmem : op = "<>" ∨ op = "<=" ∨ op = ">=" ∨ op = "=" ∨ op = "<" ∨ op = ">" := by
        simpa [operatorPatterns] using hop
      rw [find_operator_head hop (show ('-' :: rest).head? = ['-'].head? from rfl)]
      obtain rfl | rfl | rfl | rfl | rfl | rfl := hmem <;> decide +kernel

/-- A step takes a front off the text. It takes the same front when the rest is
another one with the same first character, and, comments apart, when a blank, a
`-` or nothing follows. -/
theorem Scans.front {text rest : List Char} {l : Option Lexeme} (h : Scans py text l rest) :
    ∃ front, front ≠ [] ∧ text = front ++ rest ∧
      (∀ rest', rest'.head? = rest.head? ∨ rest' = [] → Scans py (front ++ rest') l rest') ∧
      (opensComment text = false → ∀ rest', Stops rest' → Scans py (front ++ rest') l rest') := by
  have hquote : ∀ rest', Stops rest' → rest'.head? ≠ some '\'' := by
    intro rest' hrest he
    rcases hrest '\'' he with hb | hb
    · exact absurd hb (by decide)
    · exact absurd hb (by decide)
  cases h with
  | @blank c _ hc => exact ⟨[c], by simp, rfl, fun _ _ => .blank hc, fun _ _ _ => .blank hc⟩
  | @comment body _ hl =>
    refine ⟨'-' :: '-' :: body, by simp, rfl, fun rest' h => .comment (hl.head h), fun h => ?_⟩
    cases h
  | @string s _ hrest =>
    refine ⟨'\'' :: doubled s ++ ['\''], by simp, by simp, fun rest' h => ?_, fun _ rest' h => ?_⟩
    · have hrest' : rest'.head? ≠ some '\'' := by
        rcases h with h | rfl
        · rwa [h]
        · nofun
      simpa using Scans.string hrest'
    · simpa using Scans.string (hquote rest' h)
  | @number c front _ hstart hl =>
    exact ⟨c :: front, by simp, rfl, fun rest' h => .number hstart (hl.head h), fun _ rest' h =>
      .number hstart (h.longest hl fun c hc => (mark_spec py hc).1)⟩
  | @word c front _ hstart hdigit hl =>
    exact ⟨c :: front, by simp, rfl, fun rest' h => .word hstart hdigit (hl.head h),
      fun _ rest' h => .word hstart hdigit (h.longest hl fun c hc => (mark_spec py hc).2.1)⟩
  | @operator op _ hfind =>
    have hop := mem_operatorPatterns hfind
    refine ⟨op.toList, (operator_length op hop).1, rfl, fun rest' h => ?_, fun _ rest' h =>
      .operator (find_operator_stops hop h)⟩
    rcases h with h | rfl
    · exact .operator ((find_operator_head hop h).trans hfind)
    · exact .operator (find_operator_stops hop nofun)
  | @punct p _ hp hdot =>
    refine ⟨[p], by simp, rfl, fun rest' h => ?_, fun _ rest' h => ?_⟩
    · refine .punct hp fun he c hc => ?_
      rcases h with h | rfl
      · exact hdot he c (h ▸ hc)
      · cases hc
    · exact .punct hp fun _ c hc => (mark_spec py (h.mark c hc)).2.2.1

theorem Scans.unique {text rest rest' : List Char} {l l' : Option Lexeme}
    (h : Scans py text l rest) (h' : Scans py text l' rest') : l = l' ∧ rest = rest' := by
  cases text with
  | nil => simpa using h.shorter
  | cons c cs =>
    obtain ⟨t, line, column, hscan, rfl⟩ := scanToken_of_scans h rfl 1 1
    obtain ⟨t', line', column', hscan', rfl⟩ := scanToken_of_scans h' rfl 1 1
    rw [hscan] at hscan'
    cases hscan'
    exact ⟨rfl, rfl⟩

theorem opensComment_cons (c : Char) (cs : List Char) :
    opensComment (c :: cs) = (decide (c = '-') && decide (cs.head? = some '-')) := by
  by_cases hc : c = '-'
  · subst hc
    cases cs with
    | nil => rfl
    | cons d cs =>
      by_cases hd : d = '-'
      · subst hd
        rfl
      · simp [opensComment, hd]
  · simp [opensComment, hc]

theorem opensComment_append {front rest rest' : List Char} (hne : front ≠ [])
    (hhead : rest'.head? = rest.head?) :
    opensComment (front ++ rest') = opensComment (front ++ rest) := by
  obtain ⟨c, front, rfl⟩ := List.exists_cons_of_ne_nil hne
  rw [List.cons_append, List.cons_append, opensComment_cons, opensComment_cons]
  cases front <;> simp [hhead]

/-- A `-` starts nothing but a comment. -/
theorem Scans.minus {text rest : List Char} {l : Option Lexeme} (h : Scans py text l rest)
    (hhead : text.head? = some '-') : opensComment text = true := by
  obtain ⟨hnumber, hword, -⟩ := mark_spec py (show '-' ∈ marks by decide)
  cases h with
  | blank hc =>
    cases hhead
    cases hc
  | comment hl => rfl
  | string hrest => cases hhead
  | number hstart hl =>
    cases hhead
    exact absurd (hl.inside '-' List.mem_cons_self) (by simp [hnumber])
  | word hstart hdigit hl =>
    cases hhead
    exact absurd (hl.inside '-' List.mem_cons_self) (by simp [hword])
  | @operator op _ hfind =>
    have hall : ∀ op ∈ operatorPatterns, ∃ c cs, op.toList = c :: cs ∧ c ≠ '-' := by
      simp [operatorPatterns]
    obtain ⟨c, cs, hop, hc⟩ := hall op (mem_operatorPatterns hfind)
    rw [hop] at hhead
    cases hhead
    exact absurd rfl hc
  | punct hp hdot =>
    cases hhead
    exact absurd hp (by decide)

/-! ## Readings -/

/-- The steps from a text down to `final` make the lexemes; comments are allowed
or not. -/
inductive Reads (py : Python) (comments : Bool) (final : List Char) :
    List Char → List Lexeme → Prop where
  | done : Reads py comments final final []
  | step {text rest : List Char} {l : Option Lexeme} {ls : List Lexeme} : Scans py text l rest →
    (opensComment text = true → comments = true) → Reads py comments final rest ls →
    Reads py comments final text (l.toList ++ ls)

variable {comments : Bool} {text rest final final' : List Char} {ls ls' : List Lexeme}

theorem reads_nil_iff : Reads py true [] text ls ↔ Lexes py text ls := by
  constructor
  · intro h
    induction h with
    | done => exact .nil
    | step hscan _ _ ih => exact .step hscan ih
  · intro h
    induction h with
    | nil => exact .done
    | step hscan _ ih => exact .step hscan (fun _ => rfl) ih

theorem Reads.weaken (h : Reads py false final text ls) : Reads py comments final text ls := by
  induction h with
  | done => exact .done
  | step hscan hplain _ ih => exact .step hscan (fun hc => absurd (hplain hc) nofun) ih

theorem Reads.trans (h : Reads py comments rest text ls) (h' : Reads py comments final rest ls') :
    Reads py comments final text (ls ++ ls') := by
  induction h with
  | done => exact h'
  | step hscan hcomment _ ih =>
    rw [List.append_assoc]
    exact .step hscan hcomment ih

theorem Reads.lexes (h : Reads py comments rest text ls) (h' : Lexes py rest ls') :
    Lexes py text (ls ++ ls') := by
  induction h with
  | done => exact h'
  | step hscan _ _ ih =>
    rw [List.append_assoc]
    exact .step hscan ih

/-- The lexemes of a text start with those of a reading. -/
theorem Reads.lexes_rest (h : Reads py comments rest text ls) {all : List Lexeme}
    (hall : Lexes py text all) : ∃ ls', all = ls ++ ls' ∧ Lexes py rest ls' := by
  induction h generalizing all with
  | done => exact ⟨all, rfl, hall⟩
  | @step text rest' l ls hscan _ _ ih =>
    cases hall with
    | nil => simpa using hscan.shorter
    | step hscan' hrest =>
      obtain ⟨rfl, rfl⟩ := hscan.unique hscan'
      obtain ⟨ls', rfl, hls'⟩ := ih hrest
      exact ⟨ls', by rw [List.append_assoc], hls'⟩

/-- A reading takes the same front when another rest with the same first
character follows. -/
theorem Reads.front (h : Reads py comments final text ls) : ∃ front, text = front ++ final ∧
    ∀ final', final'.head? = final.head? → Reads py comments final' (front ++ final') ls := by
  induction h with
  | done => exact ⟨[], rfl, fun _ _ => .done⟩
  | @step text rest l ls hscan hcomment _ ih =>
    obtain ⟨front, rfl, hfront⟩ := ih
    obtain ⟨lead, hne, rfl, hlead, -⟩ := hscan.front
    refine ⟨lead ++ front, by simp, fun final' hhead => ?_⟩
    have hsame : (front ++ final').head? = (front ++ final).head? := by
      cases front <;> simp [hhead]
    rw [List.append_assoc]
    exact .step (hlead _ (.inl hsame)) (fun hc => hcomment (opensComment_append hne hsame ▸ hc))
      (hfront final' hhead)

/-- A text read without comments is read the same in front of a blank or a `-`. -/
theorem Reads.extend (h : Reads py false [] text ls) (hrest : Stops rest) :
    Reads py false rest (text ++ rest) ls := by
  induction h with
  | done => exact .done
  | @step text rest' l ls hscan hplain _ ih =>
    have hcomment : opensComment text = false :=
      Bool.eq_false_iff.mpr fun hc => absurd (hplain hc) nofun
    obtain ⟨lead, hne, rfl, hlead, hfollow⟩ := hscan.front
    rw [List.append_assoc]
    cases rest' with
    | cons c rest' =>
      have hsame : (c :: rest' ++ rest).head? = (c :: rest').head? := rfl
      exact .step (hlead _ (.inl hsame)) (fun hc => hplain (opensComment_append hne hsame ▸ hc)) ih
    | nil =>
      refine .step (hfollow hcomment _ hrest) (fun hc => ?_) ih
      obtain ⟨c, lead, rfl⟩ := List.exists_cons_of_ne_nil hne
      rw [List.cons_append, opensComment_cons, Bool.and_eq_true, decide_eq_true_eq] at hc
      rw [hscan.minus (by rw [hc.1]; rfl)] at hcomment
      cases hcomment

/-! ## Line breaks -/

/-- A comment or a literal with a line break in it. -/
def tangled : Bool → List Char → Bool
  | _, [] => false
  | false, c :: cs =>
    if c = '\'' then tangled true cs
    else if c = '-' ∧ cs.head? = some '-' then true
    else tangled false cs
  | true, c :: cs => if c = '\n' then true else tangled (decide (c ≠ '\'')) cs

/-- Some literal has a line break. -/
def Broken (ls : List Lexeme) : Prop := ∃ s, string s ∈ ls ∧ '\n' ∈ s.toList

theorem broken_append {ls ls' : List Lexeme} : Broken (ls ++ ls') ↔ Broken ls ∨ Broken ls' := by
  simp only [Broken, List.mem_append]
  constructor
  · rintro ⟨s, hs | hs, hn⟩
    · exact .inl ⟨s, hs, hn⟩
    · exact .inr ⟨s, hs, hn⟩
  · rintro (⟨s, hs, hn⟩ | ⟨s, hs, hn⟩)
    · exact ⟨s, .inl hs, hn⟩
    · exact ⟨s, .inr hs, hn⟩

theorem tangled_doubled (s rest : List Char) :
    tangled true (doubled s ++ '\'' :: rest) = (decide ('\n' ∈ s) || tangled false rest) := by
  induction s with
  | nil => simp [doubled, tangled]
  | cons c s ih =>
    by_cases hc : c = '\''
    · subst hc
      simpa [doubled_cons, tangled] using ih
    · by_cases hn : c = '\n'
      · subst hn
        simp [doubled_cons, tangled]
      · simpa [doubled_cons, tangled, hc, hn, Ne.symm hn] using ih

theorem tangled_plain {front rest : List Char} (h : ∀ c ∈ front, c ≠ '\'' ∧ c ≠ '-') :
    tangled false (front ++ rest) = tangled false rest := by
  induction front with
  | nil => rfl
  | cons c front ih =>
    obtain ⟨hquote, hminus⟩ := h c List.mem_cons_self
    rw [List.cons_append, tangled, if_neg hquote, if_neg fun h => hminus h.1]
    exact ih fun d hd => h d (List.mem_cons_of_mem _ hd)

theorem tangled_pad {pad : List Char} (h : ∀ c ∈ pad, isBlank c = true) :
    tangled false (';' :: pad) = false := by
  have hall : ∀ c ∈ ';' :: pad, c ≠ '\'' ∧ c ≠ '-' := by
    intro c hc
    rcases List.mem_cons.mp hc with rfl | hc
    · decide
    · rcases isBlank_iff.mp (h c hc) with rfl | rfl | rfl | rfl <;> decide
  have hplain : tangled false (';' :: pad ++ []) = false := tangled_plain hall
  rwa [List.append_nil] at hplain

/-- The front of a step that is no comment and no literal. -/
structure PlainFront (front : List Char) (l : Option Lexeme) : Prop where
  inside : ∀ c ∈ front, c ≠ '\'' ∧ c ≠ '-'
  literal : ∀ s, l ≠ some (string s)
  lineBreak : '\n' ∈ front → front = ['\n'] ∧ l = none
  semicolon : ';' ∈ front → front = [';'] ∧ l = some (punct ";")

theorem plainFront_of_run {p : Char → Bool} (hp : ∀ c ∈ marks, p c = false) {front : List Char}
    (h : ∀ c ∈ front, p c = true) {l : Option Lexeme} (hl : ∀ s, l ≠ some (string s)) :
    PlainFront front l := by
  have hnot : ∀ c ∈ marks, c ∉ front := fun c hc hmem => by
    have htrue := h c hmem
    rw [hp c hc] at htrue
    cases htrue
  refine ⟨fun c hc => ⟨?_, ?_⟩, hl, fun hn => absurd hn (hnot _ (by decide)),
    fun hs => absurd hs (hnot _ (by decide))⟩
  · rintro rfl
    exact hnot _ (by decide) hc
  · rintro rfl
    exact hnot _ (by decide) hc

/-- A step over a comment, over a literal, or over characters without either. -/
theorem Scans.kinds {text rest : List Char} {l : Option Lexeme} (h : Scans py text l rest) :
    (opensComment text = true ∧ l = none ∧
      ∃ body, text = '-' :: '-' :: body ++ rest ∧ Longest (· ≠ '\n') body rest) ∨
    (∃ s, text = '\'' :: doubled s ++ '\'' :: rest ∧ l = some (Lexeme.string (String.ofList s))) ∨
    (∃ front, front ≠ [] ∧ text = front ++ rest ∧ PlainFront front l) := by
  cases h with
  | @blank c _ hc =>
    refine .inr (.inr ⟨[c], by simp, rfl, ?_⟩)
    rcases isBlank_iff.mp hc with rfl | rfl | rfl | rfl <;> constructor <;> simp
  | @comment body _ hl => exact .inl ⟨rfl, rfl, body, rfl, hl⟩
  | @string s _ hrest => exact .inr (.inl ⟨s, rfl, rfl⟩)
  | @number c front _ hstart hl =>
    exact .inr (.inr ⟨c :: front, by simp, rfl,
      plainFront_of_run (fun c hc => (mark_spec py hc).1) hl.inside fun _ hs => by cases hs⟩)
  | @word c front _ hstart hdigit hl =>
    refine .inr (.inr ⟨c :: front, by simp, rfl,
      plainFront_of_run (fun c hc => (mark_spec py hc).2.1) hl.inside fun s hs => ?_⟩)
    have htype := congrArg (Option.map Lexeme.type) hs
    simp only [Python.wordLexeme, Option.map_some] at htype
    split at htype <;> cases htype
  | @operator op _ hfind =>
    have hmem := mem_operatorPatterns hfind
    have hchars : ∀ c ∈ op.toList, c ≠ '\'' ∧ c ≠ '-' ∧ c ≠ '\n' ∧ c ≠ ';' := by
      intro c hc
      rcases operator_chars hmem hc with rfl | rfl | rfl <;> simp
    refine .inr (.inr ⟨op.toList, (operator_length op hmem).1, rfl, ?_⟩)
    exact ⟨fun c hc => ⟨(hchars c hc).1, (hchars c hc).2.1⟩, fun _ hs => (by cases hs),
      fun hn => absurd rfl (hchars _ hn).2.2.1, fun hs => absurd rfl (hchars _ hs).2.2.2⟩
  | @punct p _ hp hdot =>
    refine .inr (.inr ⟨[p], by simp, rfl, ?_⟩)
    have hall : (singleCharPunct.all fun p =>
        decide (p ≠ '\'' ∧ p ≠ '-' ∧ p ≠ '\n')) = true := by decide
    obtain ⟨hquote, hminus, hn⟩ := of_decide_eq_true (List.all_eq_true.mp hall p hp)
    refine ⟨?_, fun _ hs => (by cases hs), fun h => absurd (List.mem_singleton.mp h).symm hn,
      fun h => ?_⟩
    · intro c hc
      rw [List.mem_singleton.mp hc]
      exact ⟨hquote, hminus⟩
    · rw [← List.mem_singleton.mp h]
      exact ⟨rfl, rfl⟩

/-- Blanks and comments are what makes no lexeme. -/
theorem Scans.nothing {text rest : List Char} (h : Scans py text none rest) :
    (∃ c, isBlank c = true ∧ text = c :: rest) ∨
      ∃ body, text = '-' :: '-' :: body ++ rest ∧ Longest (· ≠ '\n') body rest := by
  cases h with
  | blank hc => exact .inl ⟨_, hc, rfl⟩
  | comment hl => exact .inr ⟨_, rfl, hl⟩

theorem PlainFront.comment {front rest : List Char} {l : Option Lexeme} (h : PlainFront front l)
    (hne : front ≠ []) : opensComment (front ++ rest) = false := by
  obtain ⟨c, front, rfl⟩ := List.exists_cons_of_ne_nil hne
  rw [List.cons_append, opensComment_cons, decide_eq_false (h.inside c List.mem_cons_self).2]
  rfl

theorem Scans.tangled_iff {text rest : List Char} {l : Option Lexeme} (h : Scans py text l rest) :
    tangled false text = true ↔
      opensComment text = true ∨ Broken l.toList ∨ tangled false rest = true := by
  rcases h.kinds with ⟨hcomment, -, body, rfl, -⟩ | ⟨s, rfl, rfl⟩ | ⟨front, hne, rfl, hfront⟩
  · exact iff_of_true (by simp [tangled]) (.inl hcomment)
  · rw [List.cons_append, tangled, if_pos rfl, tangled_doubled]
    simp [Broken, Lexeme.string, opensComment]
  · rw [tangled_plain hfront.inside, hfront.comment hne]
    have hbroken : ¬ Broken l.toList := by
      rintro ⟨s, hs, -⟩
      exact hfront.literal s (Option.mem_toList.mp hs)
    simp [hbroken]

theorem Reads.of_not_tangled (h : Reads py true final text ls) (ht : tangled false text = false) :
    Reads py false final text ls ∧ ¬ Broken ls := by
  induction h with
  | done => exact ⟨.done, fun ⟨s, hs, _⟩ => by cases hs⟩
  | step hscan _ _ ih =>
    have hnot := mt hscan.tangled_iff.mpr (Bool.eq_false_iff.mp ht)
    simp only [not_or] at hnot
    obtain ⟨hcomment, hbroken, hrest⟩ := hnot
    obtain ⟨hreads, hbroken'⟩ := ih (Bool.eq_false_iff.mpr hrest)
    exact ⟨.step hscan (fun hc => absurd hc hcomment) hreads,
      fun hb => (broken_append.mp hb).elim hbroken hbroken'⟩

theorem Reads.tangled_eq (h : Reads py false final text ls) (hbroken : ¬ Broken ls) :
    tangled false text = tangled false final := by
  induction h with
  | done => rfl
  | step hscan hplain _ ih =>
    rw [broken_append, not_or] at hbroken
    rw [← ih hbroken.2, Bool.eq_iff_iff, hscan.tangled_iff]
    exact ⟨fun h => (h.resolve_left fun hc => nomatch hplain hc).resolve_left hbroken.1,
      fun h => .inr (.inr h)⟩

/-! ## The first line -/

theorem opensComment_iff {text : List Char} :
    opensComment text = true ↔ ∃ rest, text = '-' :: '-' :: rest := by
  constructor
  · intro h
    cases text with
    | nil => cases h
    | cons c cs =>
      rw [opensComment_cons, Bool.and_eq_true, decide_eq_true_eq, decide_eq_true_eq] at h
      obtain ⟨rfl, hd⟩ := h
      cases cs with
      | nil => cases hd
      | cons d cs =>
        cases hd
        exact ⟨cs, rfl⟩
  · rintro ⟨rest, rfl⟩
    rfl

theorem Reads.after_break (h : Reads py comments final ('\n' :: text) ls)
    (hfinal : '\n' ∉ final) : Reads py comments final text ls := by
  generalize htext : '\n' :: text = all at h
  cases h with
  | done => exact absurd (htext ▸ List.mem_cons_self) hfinal
  | step hscan _ hreads =>
    subst htext
    obtain ⟨rfl, rfl⟩ := hscan.unique (.blank rfl)
    exact hreads

theorem doubled_break {s : List Char} (h : '\n' ∈ doubled s) : '\n' ∈ s := by
  obtain ⟨c, hc, hmem⟩ := List.mem_flatMap.mp h
  split at hmem
  next hquote => subst hquote; simp at hmem
  next => exact List.mem_singleton.mp hmem ▸ hc

/-- A front without line breaks is in the first line. -/
theorem front_of_line {line rest front rest' : List Char}
    (h : line ++ '\n' :: rest = front ++ rest') (hfront : '\n' ∉ front) :
    ∃ line', line = front ++ line' ∧ rest' = line' ++ '\n' :: rest := by
  rcases List.append_eq_append_iff.mp h with ⟨more, rfl, hmore⟩ | ⟨line', rfl, rfl⟩
  · cases more with
    | nil => exact ⟨[], by simp, hmore.symm⟩
    | cons c more =>
      obtain ⟨rfl, -⟩ := List.cons.inj hmore
      exact absurd (List.mem_append_right _ List.mem_cons_self) hfront
  · exact ⟨line', rfl, rfl⟩

/-- A step in the first line of a text. -/
theorem Scans.line {line rest rest' : List Char} {l : Option Lexeme}
    (h : Scans py (line ++ '\n' :: rest) l rest') (hline : '\n' ∉ line) :
    (line = [] ∧ l = none ∧ rest' = rest) ∨ Broken l.toList ∨
    (opensComment (line ++ '\n' :: rest) = true ∧ l = none ∧ rest' = '\n' :: rest ∧
      ∃ body, line = '-' :: '-' :: body) ∨
    (∃ front line', line = front ++ line' ∧ rest' = line' ++ '\n' :: rest ∧
      ∀ r, r.head? = line'.head? ∨ r = [] →
        Scans py (front ++ r) l r ∧ opensComment (front ++ r) = false) := by
  have hlast : ∀ front, line ++ '\n' :: rest = front ++ rest' → front ≠ [] → '\n' ∉ front →
      opensComment (front ++ rest') = false → ∃ front line', line = front ++ line' ∧
        rest' = line' ++ '\n' :: rest ∧ ∀ r, r.head? = line'.head? ∨ r = [] →
          Scans py (front ++ r) l r ∧ opensComment (front ++ r) = false := by
    intro front htext hne hn hplain
    obtain ⟨front', -, htext', hlead, -⟩ := h.front
    obtain rfl := List.append_cancel_right (htext.symm.trans htext')
    obtain ⟨line', hline', hrest'⟩ := front_of_line htext hn
    refine ⟨front, line', hline', hrest', fun r hr => ?_⟩
    have hhead : r.head? = rest'.head? ∨ r = [] := by
      rw [hrest']
      cases line' with
      | nil => exact .inr (by simpa using hr)
      | cons c line' => exact hr
    refine ⟨hlead r hhead, Bool.eq_false_iff.mpr fun hc => ?_⟩
    rcases hhead with hhead | rfl
    · rw [opensComment_append hne hhead, hplain] at hc
      cases hc
    · obtain ⟨body, hbody⟩ := opensComment_iff.mp hc
      rw [List.append_nil] at hbody
      rw [hbody] at hplain
      cases hplain
  rcases h.kinds with ⟨hcomment, rfl, body, hbody, hl⟩ | ⟨s, hs, rfl⟩ | ⟨front, hne, hfront, hplain⟩
  · have hn : '\n' ∉ '-' :: '-' :: body := by
      simpa using fun hn => by simpa using hl.inside _ hn
    obtain ⟨line', rfl, rfl⟩ := front_of_line hbody hn
    cases line' with
    | nil => exact .inr (.inr (.inl ⟨hcomment, rfl, rfl, body, by simp⟩))
    | cons c line' =>
      obtain rfl : c = '\n' := by simpa using hl.stop c rfl
      exact absurd (List.mem_append_right _ List.mem_cons_self) hline
  · by_cases hn : '\n' ∈ s
    · exact .inr (.inl ⟨String.ofList s, by simp, by simpa using hn⟩)
    · refine .inr (.inr (.inr (hlast ('\'' :: doubled s ++ ['\'']) (by simpa using hs) (by simp)
        ?_ rfl)))
      simpa using mt doubled_break hn
  · by_cases hn : '\n' ∈ front
    · obtain ⟨rfl, rfl⟩ := hplain.lineBreak hn
      cases line with
      | nil => exact .inl ⟨rfl, rfl, (List.cons.inj hfront).2.symm⟩
      | cons c line =>
        obtain rfl := (List.cons.inj hfront).1
        exact absurd List.mem_cons_self hline
    · exact .inr (.inr (.inr (hlast front hfront hne hn (hplain.comment hne))))

/-- How the first line of a text is read: to its end, or up to a comment; or a
literal goes over a line break. -/
theorem Reads.cut {line rest : List Char}
    (h : Reads py comments final (line ++ '\n' :: rest) ls) (hline : '\n' ∉ line)
    (hfinal : '\n' ∉ final) :
    (∃ ls₁ ls₂, Reads py false [] line ls₁ ∧ Reads py comments final rest ls₂ ∧ ls = ls₁ ++ ls₂) ∨
    (comments = true ∧ ∃ front body ls₁ ls₂, line = front ++ '-' :: '-' :: body ∧
      Reads py false [] front ls₁ ∧ Reads py comments final rest ls₂ ∧ ls = ls₁ ++ ls₂) ∨
    Broken ls := by
  generalize htext : line ++ '\n' :: rest = text at h
  induction h generalizing line with
  | done => exact absurd (htext ▸ List.mem_append_right _ List.mem_cons_self) hfinal
  | @step text rest' l ls hscan hcomment hreads ih =>
    subst htext
    rcases hscan.line hline with ⟨rfl, rfl, rfl⟩ | hb | ⟨hc, rfl, rfl, body, rfl⟩ |
      ⟨front, line', rfl, rfl, hfront⟩
    · exact .inl ⟨[], ls, .done, hreads, rfl⟩
    · exact .inr (.inr (broken_append.mpr (.inl hb)))
    · refine .inr (.inl ⟨hcomment hc, [], body, [], ls, rfl, .done, ?_, rfl⟩)
      exact hreads.after_break hfinal
    · have hstep : ∀ {r ls₁}, (r.head? = line'.head? ∨ r = []) → Reads py false [] r ls₁ →
          Reads py false [] (front ++ r) (l.toList ++ ls₁) := fun hr hreads =>
        .step (hfront _ hr).1 (fun hc => absurd hc (by simp [(hfront _ hr).2])) hreads
      rcases ih (fun hn => hline (List.mem_append_right _ hn)) rfl with
        ⟨ls₁, ls₂, hone, htwo, rfl⟩ | ⟨hcomments, front', body, ls₁, ls₂, rfl, hone, htwo, rfl⟩ | hb
      · exact .inl ⟨l.toList ++ ls₁, ls₂, hstep (.inl rfl) hone, htwo, by simp⟩
      · refine .inr (.inl ⟨hcomments, front ++ front', body, l.toList ++ ls₁, ls₂, by simp,
          hstep ?_ hone, htwo, by simp⟩)
        cases front' with
        | nil => exact .inr rfl
        | cons c front' => exact .inl rfl
      · exact .inr (.inr (broken_append.mpr (.inr hb)))

/-- A comment on the last line would take what is left with it. -/
theorem Reads.last_line (h : Reads py true final text ls) (hne : final ≠ []) (hn : '\n' ∉ text) :
    Reads py false final text ls := by
  induction h with
  | done => exact .done
  | @step text rest l ls hscan _ hreads ih =>
    have hplain : opensComment text = true → false = true := by
      intro hc
      rcases hscan.kinds with ⟨-, -, body, rfl, hl⟩ | ⟨s, rfl, -⟩ | ⟨front, hfront, rfl, hplain⟩
      · obtain ⟨front, rfl, -⟩ := hreads.front
        obtain ⟨c, rest, hrest⟩ :=
          List.exists_cons_of_ne_nil (List.append_ne_nil_of_right_ne_nil front hne)
        rw [hrest] at hl hn
        obtain rfl : c = '\n' := by simpa using hl.stop c rfl
        exact absurd (List.mem_append_right _ List.mem_cons_self) hn
      · rw [List.cons_append, opensComment_cons] at hc
        cases hc
      · rw [hplain.comment hfront] at hc
        cases hc
    obtain ⟨front, -, rfl, -⟩ := hscan.front
    exact .step hscan hplain (ih fun h => hn (List.mem_append_right _ h))

/-- A semicolon with no quote behind it is a lexeme of its own. -/
theorem Reads.semicolon (h : Reads py false [] text ls) {front rest : List Char}
    (htext : text = front ++ ';' :: rest) (hquote : '\'' ∉ rest) : punct ";" ∈ ls := by
  induction h generalizing front with
  | done => simp at htext
  | @step text rest' l ls hscan hplain _ ih =>
    have hsplit : ∀ lead, text = lead ++ rest' → (∃ more, lead = front ++ ';' :: more ∧
        rest = more ++ rest') ∨ punct ";" ∈ ls := by
      intro lead hlead
      rcases List.append_eq_append_iff.mp (htext.symm.trans hlead) with
        ⟨more, hmore, hrest⟩ | ⟨front', rfl, hrest⟩
      · cases more with
        | nil => exact .inr (@ih [] hrest.symm)
        | cons c more =>
          rw [List.cons_append] at hrest
          obtain ⟨rfl, hback⟩ := List.cons.inj hrest
          exact .inl ⟨more, hmore, hback⟩
      · exact .inr (ih hrest)
    refine List.mem_append.mpr ?_
    rcases hscan.kinds with ⟨hc, -⟩ | ⟨s, hs, -⟩ | ⟨lead, hne, hlead, hfront⟩
    · exact absurd (hplain hc) nofun
    · refine .inr ((hsplit ('\'' :: doubled s ++ ['\'']) (by simpa using hs)).resolve_left ?_)
      rintro ⟨more, hmore, rfl⟩
      have hlast : (';' :: more).getLast? = some '\'' := by
        have hlast := congrArg List.getLast? hmore
        rw [List.getLast?_concat, List.getLast?_append, List.getLast?_cons] at hlast
        rw [List.getLast?_cons]
        simpa using hlast.symm
      rcases List.mem_cons.mp (List.mem_of_getLast? hlast) with he | hmem
      · cases he
      · exact hquote (List.mem_append_left _ hmem)
    · rcases hsplit lead hlead with ⟨more, rfl, -⟩ | hmem
      · obtain ⟨-, rfl⟩ := hfront.semicolon (List.mem_append_right _ List.mem_cons_self)
        exact .inl List.mem_cons_self
      · exact .inr hmem

/-- A literal has no line break that the text does not have. -/
theorem Lexes.not_broken (h : Lexes py text ls) (hn : '\n' ∉ text) : ¬ Broken ls := by
  induction h with
  | nil => exact fun ⟨s, hs, _⟩ => by cases hs
  | step hscan _ ih =>
    rw [broken_append, not_or]
    rcases hscan.kinds with ⟨-, rfl, body, rfl, -⟩ | ⟨s, rfl, rfl⟩ | ⟨front, -, rfl, hplain⟩
    · exact ⟨fun ⟨s, hs, _⟩ => (by cases hs), ih fun h => hn (List.mem_append_right _ h)⟩
    · refine ⟨?_, ih fun h => hn (List.mem_append_right _ (List.mem_cons_of_mem _ h))⟩
      rintro ⟨s', hs', hbreak⟩
      obtain rfl := Lexeme.mk.inj (List.mem_singleton.mp hs') |>.2
      rw [String.toList_ofList] at hbreak
      have hmem : '\n' ∈ doubled s := List.mem_flatMap.mpr ⟨_, hbreak, by simp⟩
      exact hn (List.mem_append_left _ (List.mem_cons_of_mem _ hmem))
    · refine ⟨?_, ih fun h => hn (List.mem_append_right _ h)⟩
      rintro ⟨s, hs, -⟩
      exact hplain.literal s (Option.mem_toList.mp hs)

theorem reads_nil (h : Reads py comments [] [] ls) : ls = [] := by
  generalize htext : ([] : List Char) = text at h
  cases h with
  | done => rfl
  | step hscan _ _ =>
    subst htext
    simpa using hscan.shorter

theorem lexes_comment {body : List Char} (h : Lexes py ('-' :: '-' :: body) ls)
    (hn : '\n' ∉ body) : ls = [] := by
  have hcomment : Scans py ('-' :: '-' :: body ++ []) none [] :=
    .comment ⟨fun c hc => by simpa using fun e : c = '\n' => hn (e ▸ hc), nofun⟩
  rw [List.append_nil] at hcomment
  cases h with
  | step hscan hrest =>
    obtain ⟨rfl, rfl⟩ := hscan.unique hcomment
    cases hrest with
    | nil => rfl
    | step hscan' _ => simpa using hscan'.shorter

/-- A number or a mark starts with the character it is read from. -/
theorem Scans.opens {c : Char} {cs rest : List Char} {l : Lexeme}
    (h : Scans py (c :: cs) (some l) rest) :
    (l.type = .number ∨ l.type = .punct → l.value.toList.head? = some c) ∧
      (c = '.' → l.type = .number ∨ l.type = .punct) := by
  generalize htext : c :: cs = text at h
  generalize hl : some l = o at h
  cases h with
  | blank hc => cases hl
  | comment hc => cases hl
  | string hrest =>
    cases hl
    cases htext
    refine ⟨fun h => ?_, fun h => by cases h⟩
    rcases h with h | h <;> cases h
  | number hstart hlong =>
    cases hl
    cases htext
    exact ⟨fun _ => by simp [Lexeme.number], fun _ => .inl rfl⟩
  | @word d front _ hstart hdigit hlong =>
    cases htext
    have htype : l.type = .keyword ∨ l.type = .ident := by
      rw [Option.some.inj hl, Python.wordLexeme]
      split
      · exact .inl rfl
      · exact .inr rfl
    refine ⟨fun h => ?_, fun h => ?_⟩
    · rcases htype with he | he <;> rw [he] at h <;> rcases h with h | h <;> cases h
    · subst h
      rcases hstart with h | h
      · rw [(dot_spec py).2] at h
        cases h
      · cases h
  | @operator op _ hfind =>
    cases hl
    refine ⟨fun h => ?_, fun h => ?_⟩
    · rcases h with h | h <;> cases h
    subst h
    have hmem := mem_operatorPatterns hfind
    obtain ⟨d, front, hop⟩ := List.exists_cons_of_ne_nil (operator_length op hmem).1
    rw [hop] at htext
    cases htext
    rcases operator_chars hmem (hop ▸ List.mem_cons_self) with h | h | h <;> cases h
  | punct hp hdot =>
    cases hl
    cases htext
    exact ⟨fun _ => by simp [Lexeme.punct], fun _ => .inr rfl⟩

/-- In a text that ends inside a literal the literal is the last lexeme. -/
theorem tokenizeFrom_open {fuel : Nat} {text : List Char} {line column : Nat}
    {tokens : List Token} (h : tokenizeFrom py fuel text line column = .ok tokens)
    (hopen : endsOpen .text text = true) :
    ∃ body s, tokens.map Token.lexeme = body ++ [string s, ⟨.eof, ""⟩] := by
  induction fuel generalizing text line column tokens with
  | zero =>
    cases text with
    | nil => cases hopen
    | cons c cs => cases h
  | succ fuel ih =>
    cases text with
    | nil => cases hopen
    | cons c cs =>
      simp only [tokenizeFrom, bind_eq_ok, Except.ok.injEq] at h
      obtain ⟨⟨t, rest, line', column'⟩, hscan, tokens', htokens, rfl⟩ := h
      rcases scans_of_scanToken hscan with hs | ⟨rfl, rfl, -, s, ht⟩
      · rw [hs.endsOpen] at hopen
        obtain ⟨body, s, hbody⟩ := ih htokens hopen
        refine ⟨(t.toList.map Token.lexeme) ++ body, s, ?_⟩
        rw [List.map_append, hbody, List.append_assoc]
      · obtain ⟨token, rfl, htoken⟩ := Option.map_eq_some_iff.mp ht
        have hend : tokens' = [⟨.eof, "", line', column'⟩] := by
          cases fuel <;> cases htokens <;> rfl
        refine ⟨[], s, ?_⟩
        rw [hend, Option.toList_some, List.singleton_append, List.map_cons, htoken]
        rfl

end TinyDB
