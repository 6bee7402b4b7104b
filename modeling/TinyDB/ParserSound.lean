import TinyDB.Grammar

/-!
# The routines read what the grammar says

One lemma for each routine of the parser: the tokens it passes derive what it returns, and
of the interpreter it asks only for the numbers that stand in the text. The proofs go along
the routines; a token that the lexer has not made occurs nowhere.
-/

namespace TinyDB

open Lib Lexeme Grammar

/-- What the lexer guarantees of a lexeme. -/
structure Lexeme.Proper (py : Python) (l : Lexeme) : Prop where
  keyword : l.type = .keyword → l.value ∈ keywords
  operator : l.type = .operator → l.value ∈ operatorPatterns
  number : l.type = .number → ∀ c ∈ l.value.toList, py.isdigit c = true ∨ c = '.'
  eof : l.type = .eof → l.value = ""
  marked : l.value = "*" ∨ l.value = "(" → l.type = .punct ∨ l.type = .string

def Token.Proper (py : Python) (t : Token) : Prop := t.lexeme.Proper py

theorem upperText_keyword (py : Python) {k : String} (h : k ∈ keywords) : py.upperText k = k := by
  have hall : (keywords.all fun k => k.toList.all Char.isUpper) = true := by decide +kernel
  have hcapital : ∀ c ∈ k.toList, c.isUpper = true :=
    List.all_eq_true.mp (List.all_eq_true.mp hall k h)
  have hflat : ∀ cs : List Char, (∀ c ∈ cs, c.isUpper = true) → cs.flatMap py.upper = cs := by
    intro cs hcs
    induction cs with
    | nil => rfl
    | cons c cs ih =>
      rw [List.flatMap_cons, py.upper_capital c (hcs c (List.mem_cons_self ..)),
        ih fun d hd => hcs d (List.mem_cons_of_mem _ hd)]
      rfl
  rw [Python.upperText, hflat _ hcapital, String.ofList_toList]

theorem lexeme_of_isKeyword {py : Python} {t : Token} {k : String} (h : t.Proper py)
    (hk : t.isKeyword py k = true) : t.lexeme = keyword k := by
  simp only [Token.isKeyword, Bool.and_eq_true, decide_eq_true_eq] at hk
  obtain ⟨htype, hvalue⟩ := hk
  have hmem : t.value ∈ keywords := h.keyword htype
  rw [upperText_keyword py hmem] at hvalue
  rw [Token.lexeme, htype, hvalue]
  rfl

/-- What may be asked: no loop runs out of turns, and a number is one of a token in `V`. -/
def Expected (V : Token → Prop) : Question → Prop
  | .number text | .int text => ∃ t, V t ∧ t.type = .number ∧ t.value = text
  | .str _ _ | .call => True
  | .turn => False

/-- What the code takes for the `*` of a projection. -/
def CodeStar (l : Lexeme) : Prop := l = punct "*" ∨ l = string "*"

/-- What the code takes for the parenthesis behind `INSERT INTO t`. -/
def CodeParen (l : Lexeme) : Prop := l = punct "(" ∨ l = string "("

section

variable {py : Python} {line : Nat} {V : Token → Prop} {α β : Type} {p : P α} {f : α → P β}
  {G K : List Lexeme → α → Prop} {H : List Lexeme → β → Prop} {t : Token}

/-- No EOF is passed, and the lexemes are related to the result. -/
def Passed (G : List Lexeme → α → Prop) (seg : List Token) (a : α) : Prop :=
  (∀ t ∈ seg, t.type ≠ .eof) ∧ G (seg.map Token.lexeme) a

/-- The routine reads tokens in `V`, and its result is related by `G` to their lexemes. -/
def Sound (py : Python) (line : Nat) (V : Token → Prop) (p : P α) (G : List Lexeme → α → Prop) :
    Prop :=
  p.Reads (py.host line) V (Expected V) (Passed G)

/-- The same where `t` is the token in front. -/
def SoundBefore (py : Python) (line : Nat) (V : Token → Prop) (t : Token) (p : P α)
    (G : List Lexeme → α → Prop) : Prop :=
  ∀ ts, (∀ u ∈ ts, V u) → ts.head?.getD (py.host line).last = t →
    p.ReadsAt (py.host line) (Expected V) ts (Passed G)

/-! ## Rules -/

theorem Sound.before (h : Sound py line V p G) : SoundBefore py line V t p G :=
  fun ts hts _ => h ts hts

theorem SoundBefore.imp (h : SoundBefore py line V t p G) (hG : ∀ s a, G s a → K s a) :
    SoundBefore py line V t p K := fun ts hts ht => (h ts hts ht).imp fun _ a hs => ⟨hs.1, hG _ a hs.2⟩

theorem Sound.imp (h : Sound py line V p G) (hG : ∀ s a, G s a → K s a) : Sound py line V p K :=
  Prog.Reads.imp h fun _ a hs => ⟨hs.1, hG _ a hs.2⟩

theorem Sound.pure {a : α} (h : G [] a) : Sound py line V (Pure.pure a) G :=
  fun _ _ => Prog.ReadsAt.pure ⟨nofun, h⟩

theorem SoundBefore.pure {a : α} (h : G [] a) : SoundBefore py line V t (Pure.pure a) G :=
  fun _ _ _ => Prog.ReadsAt.pure ⟨nofun, h⟩

theorem SoundBefore.failAt (message : String) (u : Token) :
    SoundBefore py line V t (failAt message u) G := fun _ _ _ => Prog.ReadsAt.fail _

theorem SoundBefore.bind (hp : SoundBefore py line V t p G)
    (hf : ∀ s a, G s a → Sound py line V (f a) fun r b => H (s ++ r) b) :
    SoundBefore py line V t (p >>= f) H := fun ts hts ht =>
  (hp ts hts ht).bind fun seg a rest happ hg => by
    have hrest : ∀ u ∈ rest, V u := fun u hu => hts u (happ ▸ List.mem_append_right _ hu)
    refine (hf _ a hg.2 rest hrest).imp fun seg' b hh => ⟨fun u hu => ?_, ?_⟩
    · exact (List.mem_append.mp hu).elim (hg.1 u) (hh.1 u)
    · rw [List.map_append]
      exact hh.2

theorem Sound.bind (hp : Sound py line V p G)
    (hf : ∀ s a, G s a → Sound py line V (f a) fun r b => H (s ++ r) b) :
    Sound py line V (p >>= f) H := fun ts hts => (hp.before.bind hf) ts hts rfl

/-- The token in front is one of the text or the EOF behind it. -/
theorem Sound.current {k : Token → P α}
    (h : ∀ t, V t ∨ t = (py.host line).last → SoundBefore py line V t (k t) G) :
    Sound py line V (TinyDB.current >>= k) G := by
  intro ts hts
  cases ts with
  | nil => exact h _ (Or.inr rfl) [] hts rfl
  | cons t ts => exact h t (Or.inl (hts t (List.mem_cons_self ..))) (t :: ts) hts rfl

theorem SoundBefore.current {k : Token → P α} (h : SoundBefore py line V t (k t) G) :
    SoundBefore py line V t (TinyDB.current >>= k) G := by
  intro ts hts ht
  have hk := h ts hts ht
  rw [← ht] at hk
  exact hk

theorem SoundBefore.advance {k : Token → P α} (ht : t.type ≠ .eof)
    (h : Sound py line V (k t) fun r a => G (t.lexeme :: r) a) :
    SoundBefore py line V t (TinyDB.advance >>= k) G := by
  intro ts hts hhead
  cases ts with
  | nil => exact absurd (congrArg Token.type hhead).symm ht
  | cons u ts =>
    obtain rfl : u = t := hhead
    have hk := h ts fun v hv => hts v (List.mem_cons_of_mem _ hv)
    refine ⟨hk.1, fun a rest hrun => ?_⟩
    obtain ⟨seg, hts, hseg, hg⟩ := hk.2 a rest hrun
    exact ⟨u :: seg, by rw [hts]; rfl, List.forall_mem_cons.mpr ⟨ht, hseg⟩, hg⟩

/-- What is read starts with the token in front. -/
theorem SoundBefore.head (h : SoundBefore py line V t p G) :
    SoundBefore py line V t p fun s a => G s a ∧ ∀ l ∈ s.head?, l = t.lexeme := by
  intro ts hts ht
  refine ⟨(h ts hts ht).1, fun a rest hrun => ?_⟩
  obtain ⟨seg, happ, hseg, hg⟩ := (h ts hts ht).2 a rest hrun
  refine ⟨seg, happ, hseg, hg, fun l hl => ?_⟩
  cases seg with
  | nil => cases hl
  | cons u seg =>
    rw [happ] at ht
    cases hl
    rw [← ht]
    rfl

theorem Sound.ask {q : Question} {k : q.Answer → P α} (hq : Expected V q)
    (hk : ∀ a, py.answer q = .ok a → Sound py line V (k a) G) :
    Sound py line V (.ask q k) G := fun ts hts =>
  Prog.ReadsAt.ask hq fun a ha => hk a ha ts hts

theorem passed_each {seg : List Token} {as : List α} (h : Each (Passed G) seg as) :
    Passed (Each G) seg as := by
  induction h with
  | nil => exact ⟨nofun, Each.nil⟩
  | cons hitem _ ih =>
    refine ⟨fun u hu => (List.mem_append.mp hu).elim (hitem.1 u) (ih.1 u), ?_⟩
    rw [List.map_append]
    exact Each.cons hitem.2 ih.2

theorem Sound.collect {turn : P (Option α)}
    (h : Sound py line V turn fun s o => o = none ∧ s = [] ∨ ∃ a, o = some a ∧ s ≠ [] ∧ G s a) :
    Sound py line V (collect turn) (Each G) := by
  intro ts hts
  have hturn : turn.Reads (py.host line) V (Expected V) fun seg o => o = none ∧ seg = [] ∨
      ∃ a, o = some a ∧ seg ≠ [] ∧ Passed G seg a := by
    refine Prog.Reads.imp h fun seg o ho => ?_
    rcases ho with ⟨hseg, ⟨rfl, hnil⟩ | ⟨a, rfl, hne, hg⟩⟩
    · exact Or.inl ⟨rfl, List.map_eq_nil_iff.mp hnil⟩
    · exact Or.inr ⟨a, rfl, fun hnil => hne (List.map_eq_nil_iff.mpr hnil), hseg, hg⟩
  exact (Prog.ReadsAt.collectFrom hturn ts hts (Nat.lt_succ_self _)).imp fun _ _ => passed_each

/-! ## Tokens -/

theorem not_eof {type : TokenType} (h : t.type = type) (hne : type ≠ .eof) : t.type ≠ .eof :=
  h ▸ hne

theorem mem_of_not_eof (ht : V t ∨ t = (py.host line).last) (h : t.type ≠ .eof) : V t := by
  refine ht.resolve_right ?_
  rintro rfl
  exact h rfl

theorem not_eof_of_value (hV : ∀ t, V t → t.Proper py) (ht : V t ∨ t = (py.host line).last)
    {value : String} (h : t.value = value) (hne : value ≠ "") : t.type ≠ .eof := by
  intro heof
  rcases ht with ht | rfl
  · exact hne (h.symm.trans ((hV t ht).eof heof))
  · exact hne h.symm

theorem sound_expectType {type : TokenType} (hne : type ≠ .eof) :
    Sound py line V (expectType py type) fun s t => s = [t.lexeme] ∧ t.type = type ∧ V t := by
  refine Sound.current fun t ht => ?_
  by_cases htype : t.type = type
  · rw [if_neg (not_not.mpr htype)]
    have hlast : t.type ≠ .eof := not_eof htype hne
    exact SoundBefore.advance hlast (Sound.pure ⟨rfl, htype, mem_of_not_eof ht hlast⟩)
  · rw [if_pos htype]
    exact SoundBefore.failAt _ _

theorem sound_expect {type : TokenType} (hne : type ≠ .eof) (value : String) :
    Sound py line V (expect py type value) fun s _ => s = [⟨type, value⟩] := by
  refine Sound.current fun t _ => ?_
  by_cases htype : t.type = type
  · rw [if_neg (not_not.mpr htype)]
    by_cases hvalue : t.value = value
    · rw [if_neg (not_not.mpr hvalue)]
      exact SoundBefore.advance (not_eof htype hne)
        (Sound.pure (by rw [Token.lexeme, htype, hvalue]))
    · rw [if_pos hvalue]
      exact SoundBefore.failAt _ _
  · rw [if_pos htype]
    exact SoundBefore.failAt _ _

theorem sound_expectPunct (p : String) :
    Sound py line V (expectPunct py p) fun s _ => s = [punct p] :=
  sound_expect (by decide) p

theorem sound_parseIdent : Sound py line V (parseIdent py) Name :=
  (sound_expectType (by decide)).bind fun s t ⟨hs, htype, _⟩ =>
    Sound.pure (by rw [hs, Token.lexeme, htype]; rfl)

theorem sound_matchPunct (p : String) : Sound py line V (matchPunct p) fun s b =>
    b = true ∧ s = [punct p] ∨ b = false ∧ s = [] := by
  refine Sound.current fun t _ => ?_
  by_cases h : t.type = .punct ∧ t.value = p
  · rw [if_pos h]
    refine SoundBefore.advance (not_eof h.1 (by decide)) (Sound.pure (Or.inl ⟨rfl, ?_⟩))
    rw [Token.lexeme, h.1, h.2]
    rfl
  · rw [if_neg h]
    exact SoundBefore.pure (Or.inr ⟨rfl, rfl⟩)

theorem isKeyword_of_upper {k : String} (htype : t.type = .keyword)
    (hk : py.upperText t.value = k) : t.isKeyword py k = true := by
  simp [Token.isKeyword, htype, hk]

theorem isKeyword_spec (hV : ∀ t, V t → t.Proper py) (ht : V t ∨ t = (py.host line).last) {k : String}
    (hk : t.isKeyword py k = true) : t.type ≠ .eof ∧ t.lexeme = keyword k := by
  have hlast : t.type ≠ .eof := by
    intro heof
    simp [Token.isKeyword, heof] at hk
  exact ⟨hlast, lexeme_of_isKeyword (hV t (mem_of_not_eof ht hlast)) hk⟩

/-! ## Lists and clauses -/

theorem sound_commaList {item : P α} (h : Sound py line V item G) :
    Sound py line V (commaList item) (Separated G) := by
  have hturn : Sound py line V (appendWhile (matchPunct ",") item)
      (Each fun s a => ∃ r, s = punct "," :: r ∧ G r a) := by
    refine Sound.collect ((sound_matchPunct ",").bind fun s b hb => ?_)
    rcases hb with ⟨rfl, rfl⟩ | ⟨rfl, rfl⟩
    · refine h.bind fun r a hg => Sound.pure (Or.inr ⟨a, rfl, by simp, r, ?_, hg⟩)
      rw [List.append_nil, List.singleton_append]
    · exact Sound.pure (Or.inl ⟨rfl, rfl⟩)
  have hseparated : ∀ {r : List Lexeme} {as : List α},
      Each (fun s a => ∃ r, s = punct "," :: r ∧ G r a) r as →
      ∀ {s : List Lexeme} {a : α}, G s a → Separated G (s ++ r) (a :: as) := by
    intro r as hr
    induction hr with
    | nil =>
      intro s a hs
      rw [List.append_nil]
      exact Separated.one hs
    | cons hitem _ ih =>
      intro s a hs
      obtain ⟨r', rfl, hg⟩ := hitem
      exact Separated.cons hs (ih hg)
  refine h.bind fun s a hs => hturn.bind fun r as hr => Sound.pure ?_
  rw [List.append_nil]
  exact hseparated hr hs

/-! ## `predicate.py` -/

theorem sound_parseNumber (ht : V t) (hn : t.type = .number) :
    Sound py line V (parseNumber t.value) fun s v => s = [] ∧ py.parseNumber t.value = .ok v :=
  Sound.ask ⟨t, ht, hn, rfl⟩ fun _ hv => Sound.pure ⟨rfl, hv⟩

theorem literal_number {v : Value} (hn : t.type = .number) (h : py.parseNumber t.value = .ok v) :
    Literal py t.lexeme v t.value := by
  rw [Token.lexeme, hn]
  exact Literal.number h

theorem literal_string (hs : t.type = .string) :
    Literal py t.lexeme (.text t.value) ("'" ++ t.value ++ "'") := by
  rw [Token.lexeme, hs]
  exact Literal.string t.value

theorem literal_bool (hb : t.type = .keyword ∧ (t.value = "TRUE" ∨ t.value = "FALSE")) :
    Literal py t.lexeme (.bool (t.value = "TRUE")) t.value := by
  rw [Token.lexeme, hb.1]
  rcases hb.2 with h | h
  · rw [h]
    exact Literal.true
  · rw [h]
    exact Literal.false

theorem literal_null (h0 : t.type = .keyword ∧ t.value = "NULL") :
    Literal py t.lexeme .null "NULL" := by
  rw [Token.lexeme, h0.1, h0.2]
  exact Literal.null

theorem sound_parseValue : Sound py line V (parseValue py) (LiteralValue py) := by
  refine Sound.current fun t ht => ?_
  by_cases hn : t.type = .number
  · rw [if_pos hn]
    have hlast : t.type ≠ .eof := not_eof hn (by decide)
    exact SoundBefore.advance hlast ((sound_parseNumber (mem_of_not_eof ht hlast) hn).imp
      fun s v hv => ⟨_, _, by rw [hv.1], literal_number hn hv.2⟩)
  rw [if_neg hn]
  by_cases hs : t.type = .string
  · rw [if_pos hs]
    exact SoundBefore.advance (not_eof hs (by decide)) (Sound.pure ⟨_, _, rfl, literal_string hs⟩)
  rw [if_neg hs]
  by_cases hb : t.type = .keyword ∧ (t.value = "TRUE" ∨ t.value = "FALSE")
  · rw [if_pos hb]
    exact SoundBefore.advance (not_eof hb.1 (by decide)) (Sound.pure ⟨_, _, rfl, literal_bool hb⟩)
  rw [if_neg hb]
  by_cases h0 : t.type = .keyword ∧ t.value = "NULL"
  · rw [if_pos h0]
    exact SoundBefore.advance (not_eof h0.1 (by decide)) (Sound.pure ⟨_, _, rfl, literal_null h0⟩)
  · rw [if_neg h0]
    exact SoundBefore.failAt _ _

theorem sound_parseValues : Sound py line V (parseValues py) (LiteralList py) :=
  (sound_expectPunct "(").bind fun s _ hs =>
    (sound_commaList sound_parseValue).bind fun r values hr =>
      (sound_expectPunct ")").bind fun u _ hu => Sound.pure (by
        subst hs hu
        exact ⟨r, by simp, hr⟩)

/-- What stands behind an identifier that is a column. -/
theorem sound_qualifier (name : String) {β : Type} {column : P β} {value : β → String}
    (h : Sound py line V column fun s b => s = [ident (value b)]) :
    Sound py line V (do
      if ← matchPunct "." then
        let b ← column
        return Expr.qualifiedColumn (some name) (value b)
      else return Expr.column name) fun r e => ColumnRef (ident name :: r) e := by
  refine (sound_matchPunct ".").bind fun s b hb => ?_
  rcases hb with ⟨rfl, rfl⟩ | ⟨rfl, rfl⟩
  · refine h.bind fun r b hr => Sound.pure ?_
    rw [hr]
    exact ColumnRef.qualified name (value b)
  · exact Sound.pure (ColumnRef.plain name)

theorem sound_parsePrimary {expression : P Expr}
    (h : Sound py line V expression (Derives py .disjunction)) :
    Sound py line V (parsePrimary py expression) (Derives py .primary) := by
  refine Sound.current fun t ht => ?_
  by_cases hn : t.type = .number
  · rw [if_pos hn]
    have hlast : t.type ≠ .eof := not_eof hn (by decide)
    refine SoundBefore.advance hlast ((sound_parseNumber (mem_of_not_eof ht hlast) hn).bind
      fun s v hv => Sound.pure ?_)
    rw [hv.1]
    exact Derives.literal (literal_number hn hv.2)
  rw [if_neg hn]
  by_cases hs : t.type = .string
  · rw [if_pos hs]
    exact SoundBefore.advance (not_eof hs (by decide))
      (Sound.pure (Derives.literal (literal_string hs)))
  rw [if_neg hs]
  by_cases hb : t.type = .keyword ∧ (t.value = "TRUE" ∨ t.value = "FALSE")
  · rw [if_pos hb]
    exact SoundBefore.advance (not_eof hb.1 (by decide))
      (Sound.pure (Derives.literal (literal_bool hb)))
  rw [if_neg hb]
  by_cases h0 : t.type = .keyword ∧ t.value = "NULL"
  · rw [if_pos h0]
    exact SoundBefore.advance (not_eof h0.1 (by decide))
      (Sound.pure (Derives.literal (literal_null h0)))
  rw [if_neg h0]
  by_cases hi : t.type = .ident
  · rw [if_pos hi]
    have hcolumn : Sound py line V (expectType py .ident) fun s u => s = [ident u.value] :=
      (sound_expectType (by decide)).imp fun s u ⟨hs, htype, _⟩ => by
        rw [hs, Token.lexeme, htype]
        rfl
    refine SoundBefore.advance (not_eof hi (by decide))
      ((sound_qualifier t.value hcolumn).imp fun r e hr => ?_)
    rw [Token.lexeme, hi]
    exact Derives.column hr
  rw [if_neg hi]
  by_cases hp : t.type = .punct ∧ t.value = "("
  · rw [if_pos hp]
    refine SoundBefore.advance (not_eof hp.1 (by decide)) (h.bind fun s e he =>
      (sound_expectPunct ")").bind fun u _ hu => Sound.pure ?_)
    rw [Token.lexeme, hp.1, hp.2, hu, List.append_nil]
    exact Derives.group he
  · rw [if_neg hp]
    exact SoundBefore.failAt _ _

theorem sound_parseColumnRef : Sound py line V (parseColumnRef py) ColumnRef := by
  refine sound_parseIdent.bind fun s name hs => ?_
  have hcolumn : Sound py line V (parseIdent py) fun s b => s = [ident (id b)] := sound_parseIdent
  rw [hs]
  exact sound_qualifier name hcolumn

theorem sound_parseAssignment : Sound py line V (parseAssignment py) (Assignment py) := by
  refine sound_parseIdent.bind fun s col hs =>
    (sound_expect (by decide) "=").bind fun r _ hr => sound_parseValue.bind fun u value hu =>
      Sound.pure ⟨u, ?_, hu⟩
  rw [hs, hr]
  simp [operator]

/-! ## Keywords -/

variable (hV : ∀ t, V t → t.Proper py)
include hV

theorem sound_matchKeyword (k : String) : Sound py line V (matchKeyword py k) fun s b =>
    b = true ∧ s = [keyword k] ∨ b = false ∧ s = [] := by
  refine Sound.current fun t ht => ?_
  by_cases hk : t.isKeyword py k = true
  · rw [if_pos hk]
    obtain ⟨hlast, hlex⟩ := isKeyword_spec hV ht hk
    exact SoundBefore.advance hlast (Sound.pure (Or.inl ⟨rfl, by rw [hlex]⟩))
  · rw [if_neg hk]
    exact SoundBefore.pure (Or.inr ⟨rfl, rfl⟩)

theorem sound_expectKeyword (k : String) :
    Sound py line V (expectKeyword py k) fun s _ => s = [keyword k] := by
  refine Sound.current fun t ht => ?_
  by_cases hk : t.isKeyword py k = true
  · rw [if_pos hk]
    obtain ⟨hlast, hlex⟩ := isKeyword_spec hV ht hk
    exact SoundBefore.advance hlast (Sound.pure (by rw [hlex]))
  · rw [if_neg hk]
    exact SoundBefore.failAt _ _

theorem sound_parseClause {k : String} {absent : α} {clause : P α} (h : Sound py line V clause G) :
    Sound py line V (parseClause py k absent clause) (Clause k absent G) := by
  refine (sound_matchKeyword hV k).bind fun s b hb => ?_
  rcases hb with ⟨rfl, rfl⟩ | ⟨rfl, rfl⟩
  · exact h.imp fun r a hr => Or.inr ⟨r, rfl, hr⟩
  · exact Sound.pure (Or.inl ⟨rfl, rfl⟩)

theorem sound_parseComparison {primary : P Expr}
    (h : Sound py line V primary (Derives py .primary)) :
    Sound py line V (parseComparison py primary) (Derives py .comparison) := by
  refine h.bind fun s left hleft => (sound_matchKeyword hV "IS").bind fun r b hb => ?_
  rcases hb with ⟨rfl, rfl⟩ | ⟨rfl, rfl⟩
  · refine (sound_matchKeyword hV "NOT").bind fun r b hb => (sound_expectKeyword hV "NULL").bind
      fun u _ hu => Sound.pure ?_
    subst hu
    rcases hb with ⟨rfl, rfl⟩ | ⟨rfl, rfl⟩
    · simpa [words] using Derives.isNotNull hleft
    · simpa [words] using Derives.isNull hleft
  refine (sound_matchKeyword hV "NOT").bind fun r b hb => ?_
  rcases hb with ⟨rfl, rfl⟩ | ⟨rfl, rfl⟩
  · refine (sound_expectKeyword hV "IN").bind fun u _ hu => sound_parseValues.bind
      fun w values hw => Sound.pure ?_
    subst hu
    simpa [words] using Derives.notIn hleft hw
  refine (sound_matchKeyword hV "IN").bind fun r b hb => ?_
  rcases hb with ⟨rfl, rfl⟩ | ⟨rfl, rfl⟩
  · refine sound_parseValues.bind fun w values hw => Sound.pure ?_
    simpa using Derives.isIn hleft hw
  refine (sound_matchKeyword hV "BETWEEN").bind fun r b hb => ?_
  rcases hb with ⟨rfl, rfl⟩ | ⟨rfl, rfl⟩
  · refine h.bind fun u lo hlo => (sound_expectKeyword hV "AND").bind fun w _ hw => h.bind
      fun x hi hhi => Sound.pure ?_
    subst hw
    simpa using Derives.between hleft hlo hhi
  refine Sound.current fun t ht => ?_
  by_cases ho : t.type = .operator
  · rw [if_pos ho]
    have hlast : t.type ≠ .eof := not_eof ho (by decide)
    have hop : ∀ text ∈ operatorPatterns, Comparator text (CompareOp.ofText text) := by
      intro text htext
      simp only [operatorPatterns, List.mem_cons, List.not_mem_nil, or_false] at htext
      rcases htext with rfl | rfl | rfl | rfl | rfl | rfl <;> constructor
    refine SoundBefore.advance hlast (h.bind fun u right hright => Sound.pure ?_)
    have hcomparator := hop t.value ((hV t (mem_of_not_eof ht hlast)).operator ho)
    have hlex : t.lexeme = operator t.value := by
      rw [Token.lexeme, ho]
      rfl
    rw [hlex]
    simpa using Derives.compare hleft hcomparator hright
  · rw [if_neg ho]
    refine SoundBefore.pure ?_
    simpa using Derives.primary hleft

/-- A chain of operands, associated to the left. -/
theorem sound_parseChain (k : String) (op : LogicOp) {operand : P Expr} {item chain : Level}
    (h : Sound py line V operand (Derives py item))
    (hone : ∀ s e, Derives py item s e → Derives py chain s e)
    (hmore : ∀ s r left right, Derives py chain s left → Derives py item r right →
      Derives py chain (s ++ keyword k :: r) (.logicalOp op left right)) :
    Sound py line V (parseChain py k op operand) (Derives py chain) := by
  have hturn : Sound py line V (appendWhile (matchKeyword py k) operand)
      (Each fun s e => ∃ r, s = keyword k :: r ∧ Derives py item r e) := by
    refine Sound.collect ((sound_matchKeyword hV k).bind fun s b hb => ?_)
    rcases hb with ⟨rfl, rfl⟩ | ⟨rfl, rfl⟩
    · refine h.bind fun r e he => Sound.pure (Or.inr ⟨e, rfl, by simp, r, ?_, he⟩)
      rw [List.append_nil, List.singleton_append]
    · exact Sound.pure (Or.inl ⟨rfl, rfl⟩)
  have hfold : ∀ {r : List Lexeme} {rights : List Expr},
      Each (fun s e => ∃ r, s = keyword k :: r ∧ Derives py item r e) r rights →
      ∀ {s : List Lexeme} {left : Expr}, Derives py chain s left →
        Derives py chain (s ++ r) (rights.foldl (.logicalOp op) left) := by
    intro r rights hr
    induction hr with
    | nil =>
      intro s left hleft
      rw [List.append_nil]
      exact hleft
    | cons hitem _ ih =>
      intro s left hleft
      obtain ⟨r', rfl, he⟩ := hitem
      rw [← List.append_assoc]
      exact ih (hmore s r' left _ hleft he)
  refine h.bind fun s left hleft => hturn.bind fun r rights hr => Sound.pure ?_
  rw [List.append_nil]
  exact hfold hr (hone s left hleft)

theorem sound_parseExpression (frames : Nat) :
    Sound py line V (parseExpression py frames) (Condition py) := by
  induction frames using Nat.strong_induction_on with
  | _ frames ih =>
    match frames with
    | frames + 5 =>
      refine sound_parseChain hV "OR" .or ?_ (fun _ _ => Derives.conjunction)
        fun _ _ _ _ => Derives.or
      refine sound_parseChain hV "AND" .and ?_ (fun _ _ => Derives.comparison)
        fun _ _ _ _ => Derives.and
      exact sound_parseComparison hV (sound_parsePrimary (ih frames (by omega)))
    | 0 | 1 | 2 | 3 | 4 => exact Sound.ask trivial fun a _ => nomatch a

end

end TinyDB
