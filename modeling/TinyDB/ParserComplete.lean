import TinyDB.ParseErrors
import Mathlib.Order.Filter.AtTopBot.Basic

/-!
# The parser finds every predicate

A condition is written with the parentheses that precedence and associativity ask for and
no others, and `parse_expression` reads it back, given stack enough: it passes the tokens
of the condition and none behind them. The proof goes along the derivations of the grammar,
so it covers redundant parentheses as well.
-/

namespace TinyDB

open Lib Lexeme Grammar Filter

/-! ## Tokens in front -/

section

variable {py : Python} {line : Nat} {α : Type} {t : Token} {ts : List Token}

/-- The token that is read next. -/
def next (py : Python) (line : Nat) (ts : List Token) : Token := ts.head?.getD (py.host line).last

theorem run_current (ts : List Token) :
    current.run (py.host line) ts = .ok (next py line ts, ts) := rfl

theorem run_advance (ts : List Token) :
    advance.run (py.host line) ts = .ok (next py line ts, ts.tail) := rfl

theorem run_pure (a : α) (ts : List Token) :
    (pure a : P α).run (py.host line) ts = .ok (a, ts) := rfl

theorem next_cons : next py line (t :: ts) = t := rfl

theorem isKeyword_keyword (py : Python) {k : String} (h : t.lexeme = keyword k) (hk : k ∈ keywords)
    (word : String) : t.isKeyword py word = decide (k = word) := by
  have htype : t.type = .keyword := congrArg Lexeme.type h
  have hvalue : t.value = k := congrArg Lexeme.value h
  simp [Token.isKeyword, htype, hvalue, upperText_keyword py hk]

theorem isKeyword_other (py : Python) (h : t.type ≠ .keyword) (word : String) :
    t.isKeyword py word = false := by
  simp [Token.isKeyword, h]

theorem run_matchKeyword (word : String) (ts : List Token) :
    (matchKeyword py word).run (py.host line) ts =
      if (next py line ts).isKeyword py word then .ok (true, ts.tail) else .ok (false, ts) := by
  change ((if (next py line ts).isKeyword py word then _ else _ : P Bool)).run _ ts = _
  split <;> rfl

theorem run_expectKeyword {word : String} (h : t.isKeyword py word = true) :
    (expectKeyword py word).run (py.host line) (t :: ts) = .ok (t, ts) := by
  change ((if t.isKeyword py word then _ else _ : P Token)).run _ (t :: ts) = _
  rw [if_pos h]
  rfl

theorem run_matchPunct (p : String) (ts : List Token) :
    (matchPunct p).run (py.host line) ts =
      if (next py line ts).type = .punct ∧ (next py line ts).value = p then .ok (true, ts.tail)
      else .ok (false, ts) := by
  change ((if (next py line ts).type = .punct ∧ (next py line ts).value = p then _ else _ :
    P Bool)).run _ ts = _
  split <;> rfl

theorem run_expectPunct {p : String} (h : t.lexeme = punct p) :
    (expectPunct py p).run (py.host line) (t :: ts) = .ok (t, ts) := by
  have htype : t.type = .punct := congrArg Lexeme.type h
  have hvalue : t.value = p := congrArg Lexeme.value h
  change (if t.type ≠ .punct then _ else if t.value ≠ p then _ else _ : P Token).run _ _ = _
  rw [if_neg (not_not.mpr htype), if_neg (not_not.mpr hvalue)]
  rfl

theorem run_expectType {type : TokenType} (h : t.type = type) :
    (expectType py type).run (py.host line) (t :: ts) = .ok (t, ts) := by
  change ((if t.type ≠ type then _ else _ : P Token)).run _ (t :: ts) = _
  rw [if_neg (not_not.mpr h)]
  rfl

/-! ## What stands behind -/

/-- The tokens that a routine of the level leaves behind what it has read. -/
def Follows (py : Python) (level : Level) (t : Token) : Prop :=
  let noDot := ¬ (t.type = .punct ∧ t.value = ".")
  let noTail := t.type ≠ .operator ∧ t.isKeyword py "IS" = false ∧ t.isKeyword py "NOT" = false ∧
    t.isKeyword py "IN" = false ∧ t.isKeyword py "BETWEEN" = false
  match level with
  | .primary => noDot
  | .comparison => noDot ∧ noTail
  | .conjunction => noDot ∧ noTail ∧ t.isKeyword py "AND" = false
  | .disjunction => noDot ∧ noTail ∧ t.isKeyword py "AND" = false ∧ t.isKeyword py "OR" = false

/-- The routine reads exactly the lexemes `s` and returns `a`, whatever follows them. -/
def Yields (py : Python) (line : Nat) (p : P α) (level : Level) (s : List Lexeme) (a : α) : Prop :=
  ∀ ts rest, ts.map Token.lexeme = s → Follows py level (next py line rest) →
    p.run (py.host line) (ts ++ rest) = .ok (a, rest)

theorem Follows.primary {level : Level} (h : Follows py level t) : Follows py .primary t := by
  cases level
  · exact h
  all_goals exact h.1

theorem Follows.comparison (h : Follows py .conjunction t ∨ Follows py .disjunction t) :
    Follows py .comparison t := by
  rcases h with h | h
  · exact ⟨h.1, h.2.1⟩
  · exact ⟨h.1, h.2.1⟩

theorem Follows.conjunction (h : Follows py .disjunction t) : Follows py .conjunction t :=
  ⟨h.1, h.2.1, h.2.2.1⟩

theorem follows_other (hkeyword : t.type ≠ .keyword) (hoperator : t.type ≠ .operator)
    (hdot : ¬ (t.type = .punct ∧ t.value = ".")) (level : Level) : Follows py level t := by
  have hk := isKeyword_other py hkeyword
  cases level <;> simp [Follows, hk, hoperator, hdot]

/-- A keyword stands behind a primary; AND and OR stand behind a comparison, OR behind a
conjunction. -/
theorem follows_keyword {k : String} (h : t.lexeme = keyword k) (hk : k ∈ keywords) :
    Follows py .primary t ∧ (k = "AND" ∨ k = "OR" → Follows py .comparison t) ∧
      (k = "OR" → Follows py .conjunction t) := by
  have htype : t.type = .keyword := congrArg Lexeme.type h
  refine ⟨by simp [Follows, htype], ?_, ?_⟩
  · rintro (rfl | rfl) <;> simp [Follows, htype, isKeyword_keyword py h hk]
  · rintro rfl
    simp [Follows, htype, isKeyword_keyword py h hk]

theorem follows_operator {op : String} (h : t.lexeme = operator op) : Follows py .primary t := by
  have htype : t.type = .operator := congrArg Lexeme.type h
  simp [Follows, htype]

/-! ## Literals and columns -/

theorem map_eq_singleton {l : Lexeme} (h : ts.map Token.lexeme = [l]) :
    ∃ t, ts = [t] ∧ t.lexeme = l := by
  obtain ⟨t, rest, rfl, ht, hrest⟩ := List.map_eq_cons_iff.mp h
  exact ⟨t, by rw [List.map_eq_nil_iff.mp hrest], ht⟩

theorem run_parseNumber {text : String} {value : Value} (h : py.parseNumber text = .ok value)
    (ts : List Token) : (parseNumber text).run (py.host line) ts = .ok (value, ts) := by
  have ha : (py.host line).answer (.number text) = .ok value := h
  simp [parseNumber, Prog.run, ha]

theorem yields_literal {l : Lexeme} {value : Value} {raw : String} (h : Literal py l value raw)
    (expression : P Expr) :
    Yields py line (parsePrimary py expression) .primary [l] (.sqlLiteral value raw) := by
  intro ts rest hts _
  obtain ⟨t, rfl, ht⟩ := map_eq_singleton hts
  rw [List.singleton_append]
  cases h with
  | number hn =>
    have htype : t.type = .number := congrArg Lexeme.type ht
    have hvalue : t.value = raw := congrArg Lexeme.value ht
    simp [parsePrimary, Prog.run_bind, run_current, run_advance, run_pure, next_cons, htype, hvalue,
      run_parseNumber hn]
  | string s =>
    have htype : t.type = .string := congrArg Lexeme.type ht
    have hvalue : t.value = s := congrArg Lexeme.value ht
    simp [parsePrimary, Prog.run_bind, run_current, run_advance, run_pure, next_cons, htype, hvalue]
  | true =>
    have htype : t.type = .keyword := congrArg Lexeme.type ht
    have hvalue : t.value = "TRUE" := congrArg Lexeme.value ht
    simp [parsePrimary, Prog.run_bind, run_current, run_advance, run_pure, next_cons, htype, hvalue]
  | false =>
    have htype : t.type = .keyword := congrArg Lexeme.type ht
    have hvalue : t.value = "FALSE" := congrArg Lexeme.value ht
    simp [parsePrimary, Prog.run_bind, run_current, run_advance, run_pure, next_cons, htype, hvalue]
  | null =>
    have htype : t.type = .keyword := congrArg Lexeme.type ht
    have hvalue : t.value = "NULL" := congrArg Lexeme.value ht
    simp [parsePrimary, Prog.run_bind, run_current, run_advance, run_pure, next_cons, htype, hvalue]

theorem yields_column {s : List Lexeme} {e : Expr} (h : ColumnRef s e) (expression : P Expr) :
    Yields py line (parsePrimary py expression) .primary s e := by
  intro ts rest hts hf
  cases h with
  | plain name =>
    obtain ⟨t, rfl, ht⟩ := map_eq_singleton hts
    have htype : t.type = .ident := congrArg Lexeme.type ht
    have hvalue : t.value = name := congrArg Lexeme.value ht
    have hdot : ¬ ((next py line rest).type = .punct ∧ (next py line rest).value = ".") := hf
    simp [parsePrimary, Prog.run_bind, run_current, run_advance, run_pure, next_cons, htype, hvalue,
      run_matchPunct, hdot]
  | qualified table name =>
    obtain ⟨t, ts, rfl, ht, hts⟩ := List.map_eq_cons_iff.mp hts
    obtain ⟨dot, ts, rfl, hdot, hts⟩ := List.map_eq_cons_iff.mp hts
    obtain ⟨c, rfl, hc⟩ := map_eq_singleton hts
    have htype : t.type = .ident := congrArg Lexeme.type ht
    have hvalue : t.value = table := congrArg Lexeme.value ht
    have hctype : c.type = .ident := congrArg Lexeme.type hc
    have hcvalue : c.value = name := congrArg Lexeme.value hc
    have hdot' : dot.type = .punct ∧ dot.value = "." :=
      ⟨congrArg Lexeme.type hdot, congrArg Lexeme.value hdot⟩
    simp [parsePrimary, Prog.run_bind, run_current, run_advance, run_pure, next_cons, htype, hvalue,
      run_matchPunct, hdot', run_expectType hctype, hcvalue]

theorem yields_group {s : List Lexeme} {e : Expr} {expression : P Expr}
    (h : Yields py line expression .disjunction s e) :
    Yields py line (parsePrimary py expression) .primary (punct "(" :: s ++ [punct ")"]) e := by
  intro ts rest hts _
  obtain ⟨lp, ts, rfl, hlp, hts⟩ := List.map_eq_cons_iff.mp hts
  obtain ⟨inner, ts, rfl, hinner, hts⟩ := List.map_eq_append_iff.mp hts
  obtain ⟨rp, rfl, hrp⟩ := map_eq_singleton hts
  have hltype : lp.type = .punct := congrArg Lexeme.type hlp
  have hlvalue : lp.value = "(" := congrArg Lexeme.value hlp
  have hrtype : rp.type = .punct := congrArg Lexeme.type hrp
  have hrvalue : rp.value = ")" := congrArg Lexeme.value hrp
  have hfollows : Follows py .disjunction (next py line (rp :: rest)) :=
    follows_other (by rw [next_cons, hrtype]; decide) (by rw [next_cons, hrtype]; decide)
      (by rw [next_cons, hrvalue]; simp) _
  have hrun := h inner (rp :: rest) hinner hfollows
  simp [parsePrimary, Prog.run_bind, run_current, run_advance, run_pure, next_cons, hltype, hlvalue,
    hrun, run_expectPunct hrp]

/-! ## Lists of literals -/

theorem run_parseValue {l : Lexeme} {value : Value} {raw : String} (h : Literal py l value raw)
    (ht : t.lexeme = l) : (parseValue py).run (py.host line) (t :: ts) = .ok (value, ts) := by
  cases h with
  | number hn =>
    have htype : t.type = .number := congrArg Lexeme.type ht
    have hvalue : t.value = raw := congrArg Lexeme.value ht
    simp [parseValue, Prog.run_bind, run_current, run_advance, next_cons, htype, hvalue,
      run_parseNumber hn]
  | string s =>
    have htype : t.type = .string := congrArg Lexeme.type ht
    have hvalue : t.value = s := congrArg Lexeme.value ht
    simp [parseValue, Prog.run_bind, run_current, run_advance, run_pure, next_cons, htype, hvalue]
  | true =>
    have htype : t.type = .keyword := congrArg Lexeme.type ht
    have hvalue : t.value = "TRUE" := congrArg Lexeme.value ht
    simp [parseValue, Prog.run_bind, run_current, run_advance, run_pure, next_cons, htype, hvalue]
  | false =>
    have htype : t.type = .keyword := congrArg Lexeme.type ht
    have hvalue : t.value = "FALSE" := congrArg Lexeme.value ht
    simp [parseValue, Prog.run_bind, run_current, run_advance, run_pure, next_cons, htype, hvalue]
  | null =>
    have htype : t.type = .keyword := congrArg Lexeme.type ht
    have hvalue : t.value = "NULL" := congrArg Lexeme.value ht
    simp [parseValue, Prog.run_bind, run_current, run_advance, run_pure, next_cons, htype, hvalue]

/-- Items, each behind its separator. -/
def Behind (sep : Lexeme) (item : List Lexeme → α → Prop) : List Lexeme → List α → Prop :=
  Each fun s a => ∃ r, s = sep :: r ∧ item r a

/-- The loop goes on at every separator and stops before the first token that is none. -/
theorem run_appendWhile {match' : P Bool} {operand : P α} {sep : Lexeme}
    {item : List Lexeme → α → Prop} (before : Token → Prop)
    (hsep : ∀ t ts, t.lexeme = sep → match'.run (py.host line) (t :: ts) = .ok (true, ts))
    (hbefore : ∀ t, t.lexeme = sep → before t)
    (hitem : ∀ s a, item s a → ∀ ts rest, ts.map Token.lexeme = s → before (next py line rest) →
      operand.run (py.host line) (ts ++ rest) = .ok (a, rest))
    {s : List Lexeme} {as : List α} (h : Behind sep item s as) (hts : ts.map Token.lexeme = s)
    (rest : List Token) (hrest : before (next py line rest))
    (hend : match'.run (py.host line) rest = .ok (false, rest)) :
    (appendWhile match' operand).run (py.host line) (ts ++ rest) = .ok (as, rest) := by
  have hturn : ∀ (q : List Token) (a : α) (tail : List Token),
      (∃ r, q.map Token.lexeme = sep :: r ∧ item r a) → before (next py line tail) →
        Prog.run (py.host line) (do
          if ← match' then
            let a ← operand
            return some a
          else return none) (q ++ tail) = .ok (some a, tail) := by
    rintro q a tail ⟨r, hq, ha⟩ hb
    obtain ⟨t, q, rfl, ht, hq⟩ := List.map_eq_cons_iff.mp hq
    rw [Prog.run_bind, List.cons_append, hsep t _ ht, ok_bind]
    simp only [↓reduceIte]
    rw [Prog.run_bind, hitem r a ha q tail hq hb]
    rfl
  have hnone : Prog.run (py.host line) (do
      if ← match' then
        let a ← operand
        return some a
      else return none) rest = .ok (none, rest) := by
    rw [Prog.run_bind, hend, ok_bind]
    rfl
  refine Prog.run_collectFrom (fun tail => before (next py line tail)) hturn ?_ ?_
    (Each.of_map h hts) hrest hnone (by rw [List.length_append]; omega)
  · rintro q a tail ⟨r, hq, -⟩
    obtain ⟨t, q, rfl, ht, -⟩ := List.map_eq_cons_iff.mp hq
    exact hbefore t ht
  · rintro q a ⟨r, hq, -⟩ rfl
    cases hq

theorem Grammar.Separated.split {item : List Lexeme → α → Prop} {s : List Lexeme} {as : List α}
    (h : Separated item s as) :
    ∃ s₀ a₀ r rest, s = s₀ ++ r ∧ as = a₀ :: rest ∧ item s₀ a₀ ∧
      Behind (punct ",") item r rest := by
  induction h with
  | @one s a ha => exact ⟨s, a, [], [], (List.append_nil s).symm, rfl, ha, Each.nil⟩
  | @cons s r a as ha _ ih =>
    obtain ⟨s₀, a₀, r', rest, rfl, rfl, ha₀, hrest⟩ := ih
    exact ⟨s, a, _, _, by rw [← List.cons_append], rfl, ha, Each.cons ⟨s₀, rfl, ha₀⟩ hrest⟩

theorem run_parseValues {s : List Lexeme} {values : List Value} (h : LiteralList py s values)
    (hts : ts.map Token.lexeme = s) (rest : List Token) :
    (parseValues py).run (py.host line) (ts ++ rest) = .ok (values, rest) := by
  obtain ⟨inner, rfl, hinner⟩ := h
  obtain ⟨s₀, first, r, others, rfl, rfl, hfirst, hothers⟩ := hinner.split
  obtain ⟨lp, ts, rfl, hlp, hts⟩ := List.map_eq_cons_iff.mp hts
  obtain ⟨mid, ts, rfl, hmid, hts⟩ := List.map_eq_append_iff.mp hts
  obtain ⟨rp, rfl, hrp⟩ := map_eq_singleton hts
  obtain ⟨q₀, q, rfl, hq₀, hq⟩ := List.map_eq_append_iff.mp hmid
  have hitem : ∀ s v, LiteralValue py s v → ∀ ts rest, ts.map Token.lexeme = s → True →
      (parseValue py).run (py.host line) (ts ++ rest) = .ok (v, rest) := by
    rintro s v ⟨l, raw, rfl, hv⟩ ts rest hts -
    obtain ⟨t, rfl, ht⟩ := map_eq_singleton hts
    exact run_parseValue hv ht
  have hrtype : rp.type = .punct := congrArg Lexeme.type hrp
  have hrvalue : rp.value = ")" := congrArg Lexeme.value hrp
  have hsep : ∀ t ts, t.lexeme = punct "," →
      (matchPunct ",").run (py.host line) (t :: ts) = .ok (true, ts) := by
    intro t ts ht
    have htype : t.type = .punct := congrArg Lexeme.type ht
    have hvalue : t.value = "," := congrArg Lexeme.value ht
    simp [run_matchPunct, next_cons, htype, hvalue]
  have hloop := run_appendWhile (fun _ => True) hsep (fun _ _ => trivial) hitem hothers hq
    (rp :: rest) trivial (by simp [run_matchPunct, next_cons, hrvalue])
  have hone := hitem s₀ first hfirst q₀ (q ++ rp :: rest) hq₀ trivial
  simp [parseValues, commaList, Prog.run_bind, run_expectPunct hlp, hone, hloop, run_pure,
    run_expectPunct hrp]

/-! ## Comparisons -/

variable {primary : P Expr} {s r : List Lexeme} {left right : Expr}

theorem yields_primary (h : Yields py line primary .primary s left) :
    Yields py line (parseComparison py primary) .comparison s left := by
  intro ts rest hts hf
  have hleft := h ts rest hts hf.primary
  obtain ⟨-, hoperator, his, hnot, hin, hbetween⟩ := hf
  simp [parseComparison, Prog.run_bind, hleft, run_matchKeyword, his, hnot, hin, hbetween,
    run_current, hoperator, run_pure]

theorem ofText_comparator {text : String} {op : CompareOp} (h : Comparator text op) :
    CompareOp.ofText text = op := by
  cases h <;> decide

theorem yields_compare {text : String} {op : CompareOp} (h : Yields py line primary .primary s left)
    (hop : Comparator text op) (h' : Yields py line primary .primary r right) :
    Yields py line (parseComparison py primary) .comparison (s ++ operator text :: r)
      (.binaryOp op left right) := by
  intro ts rest hts hf
  obtain ⟨q, ts, rfl, hq, hts⟩ := List.map_eq_append_iff.mp hts
  obtain ⟨t, q', rfl, ht, hq'⟩ := List.map_eq_cons_iff.mp hts
  have htype : t.type = .operator := congrArg Lexeme.type ht
  have hvalue : t.value = text := congrArg Lexeme.value ht
  have hkeyword := isKeyword_other py (show t.type ≠ .keyword by rw [htype]; decide)
  have hleft := h q (t :: (q' ++ rest)) hq (follows_operator ht)
  have hright := h' q' rest hq' hf.primary
  simp [parseComparison, Prog.run_bind, hleft, run_matchKeyword, next_cons, hkeyword, run_current,
    run_advance, htype, hvalue, hright, ofText_comparator hop, run_pure]

theorem yields_isNull (h : Yields py line primary .primary s left) :
    Yields py line (parseComparison py primary) .comparison (s ++ words ["IS", "NULL"])
      (.binaryOp .isNull left (.sqlLiteral .null "NULL")) := by
  intro ts rest hts hf
  obtain ⟨q, ts, rfl, hq, hts⟩ := List.map_eq_append_iff.mp hts
  obtain ⟨t, ts, rfl, ht, hts⟩ := List.map_eq_cons_iff.mp hts
  obtain ⟨u, rfl, hu⟩ := map_eq_singleton hts
  have hk := isKeyword_keyword py ht (by simp [keywords])
  have hk' := isKeyword_keyword py hu (by simp [keywords])
  have hleft := h q (t :: u :: rest) hq (follows_keyword ht (by simp [keywords])).1
  simp [parseComparison, Prog.run_bind, hleft, run_matchKeyword, next_cons, hk, hk',
    run_expectKeyword, run_pure]

theorem yields_isNotNull (h : Yields py line primary .primary s left) :
    Yields py line (parseComparison py primary) .comparison (s ++ words ["IS", "NOT", "NULL"])
      (.binaryOp .isNotNull left (.sqlLiteral .null "NULL")) := by
  intro ts rest hts hf
  obtain ⟨q, ts, rfl, hq, hts⟩ := List.map_eq_append_iff.mp hts
  obtain ⟨t, ts, rfl, ht, hts⟩ := List.map_eq_cons_iff.mp hts
  obtain ⟨n, ts, rfl, hn, hts⟩ := List.map_eq_cons_iff.mp hts
  obtain ⟨u, rfl, hu⟩ := map_eq_singleton hts
  have hk := isKeyword_keyword py ht (by simp [keywords])
  have hkn := isKeyword_keyword py hn (by simp [keywords])
  have hk' := isKeyword_keyword py hu (by simp [keywords])
  have hleft := h q (t :: n :: u :: rest) hq (follows_keyword ht (by simp [keywords])).1
  simp [parseComparison, Prog.run_bind, hleft, run_matchKeyword, next_cons, hk, hkn, hk',
    run_expectKeyword, run_pure]

theorem yields_isIn {values : List Value} (h : Yields py line primary .primary s left)
    (hvalues : LiteralList py r values) :
    Yields py line (parseComparison py primary) .comparison (s ++ keyword "IN" :: r)
      (.inPredicate left values false) := by
  intro ts rest hts hf
  obtain ⟨q, ts, rfl, hq, hts⟩ := List.map_eq_append_iff.mp hts
  obtain ⟨t, q', rfl, ht, hq'⟩ := List.map_eq_cons_iff.mp hts
  have hk := isKeyword_keyword py ht (by simp [keywords])
  have hleft := h q (t :: (q' ++ rest)) hq (follows_keyword ht (by simp [keywords])).1
  simp [parseComparison, parseInList, Prog.run_bind, hleft, run_matchKeyword, next_cons, hk,
    run_parseValues hvalues hq', run_pure]

theorem yields_notIn {values : List Value} (h : Yields py line primary .primary s left)
    (hvalues : LiteralList py r values) :
    Yields py line (parseComparison py primary) .comparison (s ++ words ["NOT", "IN"] ++ r)
      (.inPredicate left values true) := by
  intro ts rest hts hf
  rw [List.append_assoc] at hts
  obtain ⟨q, ts, rfl, hq, hts⟩ := List.map_eq_append_iff.mp hts
  obtain ⟨n, ts, rfl, hn, hts⟩ := List.map_eq_cons_iff.mp hts
  obtain ⟨t, q', rfl, ht, hq'⟩ := List.map_eq_cons_iff.mp hts
  have hkn := isKeyword_keyword py hn (by simp [keywords])
  have hk := isKeyword_keyword py ht (by simp [keywords])
  have hleft := h q (n :: t :: (q' ++ rest)) hq (follows_keyword hn (by simp [keywords])).1
  simp [parseComparison, parseInList, Prog.run_bind, hleft, run_matchKeyword, next_cons, hk, hkn,
    run_expectKeyword, run_parseValues hvalues hq', run_pure]

theorem yields_between {u : List Lexeme} {lo hi : Expr}
    (h : Yields py line primary .primary s left) (hlo : Yields py line primary .primary r lo)
    (hhi : Yields py line primary .primary u hi) :
    Yields py line (parseComparison py primary) .comparison
      (s ++ keyword "BETWEEN" :: r ++ keyword "AND" :: u)
      (.logicalOp .and (.binaryOp .ge left lo) (.binaryOp .le left hi)) := by
  intro ts rest hts hf
  rw [List.append_assoc] at hts
  obtain ⟨q, ts, rfl, hq, hts⟩ := List.map_eq_append_iff.mp hts
  obtain ⟨t, ts, rfl, ht, hts⟩ := List.map_eq_cons_iff.mp hts
  obtain ⟨q', ts, rfl, hq', hts⟩ := List.map_eq_append_iff.mp hts
  obtain ⟨a, q'', rfl, ha, hq''⟩ := List.map_eq_cons_iff.mp hts
  have hk := isKeyword_keyword py ht (by simp [keywords])
  have hka := isKeyword_keyword py ha (by simp [keywords])
  have hleft := h q (t :: (q' ++ a :: (q'' ++ rest))) hq (follows_keyword ht (by simp [keywords])).1
  have hmid := hlo q' (a :: (q'' ++ rest)) hq' (follows_keyword ha (by simp [keywords])).1
  have hlast := hhi q'' rest hq'' hf.primary
  simp [parseComparison, Prog.run_bind, hleft, run_matchKeyword, next_cons, hk, hka, hmid, hlast,
    run_expectKeyword, run_pure]

/-! ## Chains -/

/-- Operands between equal operators, associated to the left. -/
def Chained (k : String) (op : LogicOp) (item : List Lexeme → Expr → Prop) (s : List Lexeme)
    (e : Expr) : Prop :=
  ∃ s₀ e₀ r es, s = s₀ ++ r ∧ item s₀ e₀ ∧ Behind (keyword k) item r es ∧
    e = es.foldl (.logicalOp op) e₀

theorem Chained.one {k : String} {op : LogicOp} {item : List Lexeme → Expr → Prop} {e : Expr}
    (h : item s e) : Chained k op item s e :=
  ⟨s, e, [], [], (List.append_nil s).symm, h, Each.nil, rfl⟩

theorem Chained.snoc {k : String} {op : LogicOp} {item : List Lexeme → Expr → Prop}
    (h : Chained k op item s left) (hr : item r right) :
    Chained k op item (s ++ keyword k :: r) (.logicalOp op left right) := by
  obtain ⟨s₀, e₀, t, es, rfl, h₀, hes, rfl⟩ := h
  exact ⟨s₀, e₀, t ++ keyword k :: r, es ++ [right], by rw [List.append_assoc], h₀,
    Each.snoc hes ⟨r, rfl, hr⟩, by rw [List.foldl_append]; rfl⟩

theorem yields_chain {k : String} {op : LogicOp} {operand : P Expr} {lower level : Level} {e : Expr}
    (hk : k ∈ keywords) (hbefore : ∀ t, t.lexeme = keyword k → Follows py lower t)
    (hafter : ∀ t, Follows py level t → Follows py lower t ∧ t.isKeyword py k = false)
    (h : Chained k op (Yields py line operand lower) s e) :
    Yields py line (parseChain py k op operand) level s e := by
  intro ts rest hts hf
  obtain ⟨s₀, e₀, r, es, rfl, h₀, hes, rfl⟩ := h
  obtain ⟨q₀, q, rfl, hq₀, hq⟩ := List.map_eq_append_iff.mp hts
  obtain ⟨hlower, hend⟩ := hafter _ hf
  have hsep : ∀ t ts, t.lexeme = keyword k →
      (matchKeyword py k).run (py.host line) (t :: ts) = .ok (true, ts) := by
    intro t ts ht
    simp [run_matchKeyword, next_cons, isKeyword_keyword py ht hk]
  have hloop := run_appendWhile (Follows py lower) hsep hbefore (fun s e he => he) hes hq rest
    hlower (by simp [run_matchKeyword, hend])
  have hnext : Follows py lower (next py line (q ++ rest)) := by
    cases hes with
    | nil =>
      rw [List.map_eq_nil_iff.mp hq]
      exact hlower
    | cons hitem _ =>
      obtain ⟨_, rfl, -⟩ := hitem
      obtain ⟨t, q, rfl, ht, -⟩ := List.map_eq_cons_iff.mp hq
      exact hbefore t ht
  have hfirst := h₀ q₀ (q ++ rest) hq₀ hnext
  simp [parseChain, Prog.run_bind, hfirst, hloop, run_pure]

/-! ## Conditions -/

/-- What a derivation of the level comes to, once there are frames enough. -/
def FoundBy (py : Python) (line frames : Nat) (level : Level) (s : List Lexeme) (e : Expr) : Prop :=
  let primary := parsePrimary py (parseExpression py frames)
  let comparison := parseNotExpression (parseComparison py primary)
  match level with
  | .primary => Yields py line primary .primary s e
  | .comparison => Yields py line comparison .comparison s e
  | .conjunction => Chained "AND" .and (Yields py line comparison .comparison) s e
  | .disjunction =>
    Chained "OR" .or (Yields py line (parseAndExpression py comparison) .conjunction) s e

/-- `parse_expression` takes five frames for what `FoundBy` says. -/
theorem FoundBy.yields {frames : Nat} {e : Expr} (h : FoundBy py line frames .disjunction s e) :
    Yields py line (parseExpression py (frames + 5)) .disjunction s e :=
  yields_chain (by simp [keywords]) (fun t ht => (follows_keyword ht (by simp [keywords])).2.2 rfl)
    (fun t ht => ⟨ht.conjunction, ht.2.2.2⟩) h

/-- Three frames for each lexeme are enough: a group has two of them and costs five. -/
theorem foundBy_of_derives {frames : Nat} {level : Level} {e : Expr} (h : Derives py level s e)
    (hframes : 3 * s.length ≤ frames) : FoundBy py line frames level s e := by
  induction h generalizing frames with
  | literal hl => exact yields_literal hl _
  | column hc => exact yields_column hc _
  | @group s e _ ih =>
    rw [List.length_append, List.length_cons, List.length_singleton] at hframes
    obtain ⟨n, rfl⟩ : ∃ n, frames = n + 5 := ⟨frames - 5, by omega⟩
    exact yields_group (ih (by omega)).yields
  | primary _ ih => exact yields_primary (ih hframes)
  | compare _ hop _ ih ih' =>
    rw [List.length_append, List.length_cons] at hframes
    exact yields_compare (ih (by omega)) hop (ih' (by omega))
  | isNull _ ih =>
    rw [List.length_append] at hframes
    exact yields_isNull (ih (by omega))
  | isNotNull _ ih =>
    rw [List.length_append] at hframes
    exact yields_isNotNull (ih (by omega))
  | isIn _ hv ih =>
    rw [List.length_append] at hframes
    exact yields_isIn (ih (by omega)) hv
  | notIn _ hv ih =>
    rw [List.length_append, List.length_append] at hframes
    exact yields_notIn (ih (by omega)) hv
  | between _ _ _ ih ihlo ihhi =>
    simp only [List.length_append, List.length_cons] at hframes
    exact yields_between (ih (by omega)) (ihlo (by omega)) (ihhi (by omega))
  | comparison _ ih => exact Chained.one (ih hframes)
  | and _ _ ih ih' =>
    rw [List.length_append, List.length_cons] at hframes
    exact Chained.snoc (ih (by omega)) (ih' (by omega))
  | conjunction _ ih =>
    exact Chained.one (yields_chain (by simp [keywords])
      (fun t ht => (follows_keyword ht (by simp [keywords])).2.1 (Or.inl rfl))
      (fun t ht => ⟨Follows.comparison (Or.inl ht), ht.2.2⟩) (ih hframes))
  | or _ _ ih ih' =>
    rw [List.length_append, List.length_cons] at hframes
    refine Chained.snoc (ih (by omega)) (yields_chain (by simp [keywords])
      (fun t ht => (follows_keyword ht (by simp [keywords])).2.1 (Or.inl rfl))
      (fun t ht => ⟨Follows.comparison (Or.inl ht), ht.2.2⟩) (ih' (by omega)))

/-- **Completeness.** Every derivation is found, given frames enough. -/
theorem found_of_derives (line : Nat) {level : Level} {e : Expr} (h : Derives py level s e) :
    ∀ᶠ frames in atTop, FoundBy py line frames level s e := by
  filter_upwards [eventually_ge_atTop (3 * s.length)] with frames hframes
  exact foundBy_of_derives h hframes

end

/-! ## Predicates as they are written -/

/-- A predicate tree with its literals as they stand in the text, and BETWEEN as a node of its
own. The literals of an IN list are given with their values. -/
inductive Source where
  | literal (l : Lexeme) (value : Value) (raw : String)
  | column (name : String)
  | qualifiedColumn (table name : String)
  | compare (op : CompareOp) (left right : Source)
  | isNull (negated : Bool) (operand : Source)
  | isIn (negated : Bool) (operand : Source) (first : Lexeme × Value)
      (others : List (Lexeme × Value))
  | between (operand lo hi : Source)
  | logic (op : LogicOp) (left right : Source)

namespace Source

/-- The tree that the text stands for. -/
def tree : Source → Expr
  | literal _ value raw => .sqlLiteral value raw
  | column name => .column name
  | qualifiedColumn table name => .qualifiedColumn (some table) name
  | compare op left right => .binaryOp op left.tree right.tree
  | isNull negated operand =>
    .binaryOp (if negated then .isNotNull else .isNull) operand.tree (.sqlLiteral .null "NULL")
  | isIn negated operand first others =>
    .inPredicate operand.tree ((first :: others).map Prod.snd) negated
  | between operand lo hi =>
    .logicalOp .and (.binaryOp .ge operand.tree lo.tree) (.binaryOp .le operand.tree hi.tree)
  | logic op left right => .logicalOp op left.tree right.tree

/-- How loosely the node binds: an atom, a comparison, AND, OR. -/
def level : Source → Level
  | literal .. | column _ | qualifiedColumn .. => .primary
  | compare .. | isNull .. | isIn .. | between .. => .comparison
  | logic .and _ _ => .conjunction
  | logic .or _ _ => .disjunction

end Source

def Level.rank : Grammar.Level → Nat
  | .primary => 0
  | .comparison => 1
  | .conjunction => 2
  | .disjunction => 3

/-- Parentheses where a node binds more loosely than its place allows. -/
def bracket (place level : Level) (ls : List Lexeme) : List Lexeme :=
  if Level.rank place < Level.rank level then punct "(" :: ls ++ [punct ")"] else ls

def commas : Lexeme × Value → List (Lexeme × Value) → List Lexeme
  | first, [] => [first.1]
  | first, next :: others => first.1 :: punct "," :: commas next others

/-- The lexemes of the predicate. -/
def Source.tokens : Source → List Lexeme
  | literal l _ _ => [l]
  | column name => [ident name]
  | qualifiedColumn table name => [ident table, punct ".", ident name]
  | compare op left right =>
    bracket .primary left.level left.tokens ++
      operator op.str :: bracket .primary right.level right.tokens
  | isNull negated operand =>
    bracket .primary operand.level operand.tokens ++
      words (if negated then ["IS", "NOT", "NULL"] else ["IS", "NULL"])
  | isIn negated operand first others =>
    bracket .primary operand.level operand.tokens ++
      (words (if negated then ["NOT", "IN"] else ["IN"]) ++
        (punct "(" :: commas first others ++ [punct ")"]))
  | between operand lo hi =>
    bracket .primary operand.level operand.tokens ++
      keyword "BETWEEN" :: bracket .primary lo.level lo.tokens ++
        keyword "AND" :: bracket .primary hi.level hi.tokens
  | logic .and left right =>
    bracket .conjunction left.level left.tokens ++
      keyword "AND" :: bracket .comparison right.level right.tokens
  | logic .or left right =>
    bracket .disjunction left.level left.tokens ++
      keyword "OR" :: bracket .conjunction right.level right.tokens

/-- The literals are literals with these values, and the comparisons are one of the six. -/
def Source.Valid (py : Python) : Source → Prop
  | literal l value raw => Literal py l value raw
  | column _ | qualifiedColumn .. => True
  | compare op left right => (∃ text, Comparator text op) ∧ left.Valid py ∧ right.Valid py
  | isNull _ operand => operand.Valid py
  | isIn _ operand first others =>
    operand.Valid py ∧ ∀ v ∈ first :: others, ∃ raw, Literal py v.1 v.2 raw
  | between operand lo hi => operand.Valid py ∧ lo.Valid py ∧ hi.Valid py
  | logic _ left right => left.Valid py ∧ right.Valid py

theorem derives_mono {py : Python} (place : Level) {level : Level} {s : List Lexeme} {e : Expr}
    (h : Derives py level s e) (hle : Level.rank level ≤ Level.rank place) :
    Derives py place s e := by
  cases level <;> cases place <;> simp [Level.rank] at hle <;>
    first
    | exact h
    | exact .primary h
    | exact .comparison h
    | exact .conjunction h
    | exact .comparison (.primary h)
    | exact .conjunction (.comparison h)
    | exact .conjunction (.comparison (.primary h))

theorem derives_bracket {py : Python} (place : Level) {level : Level} {s : List Lexeme} {e : Expr}
    (h : Derives py level s e) : Derives py place (bracket place level s) e := by
  unfold bracket
  split
  · have hgroup := Derives.group (derives_mono .disjunction h (by cases level <;> decide))
    exact derives_mono place hgroup (Nat.zero_le _)
  · rename_i hle
    exact derives_mono place h (Nat.le_of_not_lt hle)

theorem literalList_commas {py : Python} {first : Lexeme × Value} {others : List (Lexeme × Value)}
    (h : ∀ v ∈ first :: others, ∃ raw, Literal py v.1 v.2 raw) :
    Separated (LiteralValue py) (commas first others) ((first :: others).map Prod.snd) := by
  induction others generalizing first with
  | nil =>
    obtain ⟨raw, hl⟩ := h first List.mem_cons_self
    exact Separated.one ⟨first.1, raw, rfl, hl⟩
  | cons next others ih =>
    obtain ⟨raw, hl⟩ := h first List.mem_cons_self
    exact Separated.cons ⟨first.1, raw, rfl, hl⟩ (ih fun v hv => h v (List.mem_cons_of_mem _ hv))

theorem comparator_str {text : String} {op : CompareOp} (h : Comparator text op) :
    Comparator op.str op := by
  cases h <;> constructor

/-- The text of a predicate derives its tree, at the level of its node. -/
theorem Source.derives {py : Python} {e : Source} (h : e.Valid py) :
    Derives py e.level e.tokens e.tree := by
  induction e with
  | literal l value raw => exact .literal h
  | column name => exact .column (.plain name)
  | qualifiedColumn table name => exact .column (.qualified table name)
  | compare op left right ihl ihr =>
    obtain ⟨⟨text, hop⟩, hl, hr⟩ := h
    exact .compare (derives_bracket _ (ihl hl)) (comparator_str hop) (derives_bracket _ (ihr hr))
  | isNull negated operand ih =>
    have hprimary := derives_bracket .primary (ih h)
    cases negated
    · exact .isNull hprimary
    · exact .isNotNull hprimary
  | isIn negated operand first others ih =>
    obtain ⟨ho, hvalues⟩ := h
    have hprimary := derives_bracket .primary (ih ho)
    have hlist : LiteralList py (punct "(" :: commas first others ++ [punct ")"])
        ((first :: others).map Prod.snd) := ⟨_, rfl, literalList_commas hvalues⟩
    cases negated
    · exact .isIn hprimary hlist
    · have hin := Derives.notIn hprimary hlist
      rw [List.append_assoc] at hin
      exact hin
  | between operand lo hi ih ihlo ihhi =>
    obtain ⟨ho, hlo, hhi⟩ := h
    exact .between (derives_bracket _ (ih ho)) (derives_bracket _ (ihlo hlo))
      (derives_bracket _ (ihhi hhi))
  | logic op left right ihl ihr =>
    obtain ⟨hl, hr⟩ := h
    cases op
    · exact .and (derives_bracket _ (ihl hl)) (derives_bracket _ (ihr hr))
    · exact .or (derives_bracket _ (ihl hl)) (derives_bracket _ (ihr hr))

/-- An EOF or a closing parenthesis. -/
def Closes (t : Token) : Prop := t.type = .eof ∨ t.lexeme = punct ")"

/-- **Every predicate is read back**, and nothing behind it, on a stack that is deep enough. -/
theorem parseExpression_source (py : Python) (line : Nat) (e : Source) (h : e.Valid py) :
    ∃ n, ∀ frames, n ≤ frames → ∀ ts rest, ts.map Token.lexeme = e.tokens →
      Closes (next py line rest) →
        (parseExpression py frames).run (py.host line) (ts ++ rest) = .ok (e.tree, rest) := by
  have hderives : Derives py .disjunction e.tokens e.tree :=
    derives_mono _ (Source.derives h) (by cases e.level <;> decide)
  obtain ⟨n, hn⟩ := eventually_atTop.mp (found_of_derives line hderives)
  refine ⟨n + 5, fun frames hframes ts rest hts hclose => ?_⟩
  obtain ⟨k, rfl⟩ : ∃ k, frames = k + 5 := ⟨frames - 5, by omega⟩
  have hfollows : Follows py .disjunction (next py line rest) := by
    rcases hclose with heof | hparen
    · exact follows_other (by rw [heof]; decide) (by rw [heof]; decide) (by simp [heof]) _
    · have htype : (next py line rest).type = .punct := congrArg Lexeme.type hparen
      have hvalue : (next py line rest).value = ")" := congrArg Lexeme.value hparen
      exact follows_other (by rw [htype]; decide) (by rw [htype]; decide) (by simp [hvalue]) _
  exact (hn k (by omega)).yields ts rest hts hfollows

/-- `(t.a = 1 OR b NOT IN ('x', NULL)) AND c BETWEEN 1 AND d` -/
def sourceExample : Source :=
  .logic .and
    (.logic .or
      (.compare .eq (.qualifiedColumn "t" "a") (.literal (number "1") (.int 1) "1"))
      (.isIn true (.column "b") (string "x", .text "x") [(keyword "NULL", .null)]))
    (.between (.column "c") (.literal (number "1") (.int 1) "1") (.column "d"))

theorem parseExpression_between :
    ∃ n, ∀ frames, n ≤ frames → ∀ ts rest, ts.map Token.lexeme = sourceExample.tokens →
      Closes (next Python.asciiTables 1 rest) →
        (parseExpression Python.asciiTables frames).run (Python.asciiTables.host 1) (ts ++ rest) =
          .ok (sourceExample.tree, rest) := by
  have hone : Literal Python.asciiTables (number "1") (.int 1) "1" := .number (by decide +kernel)
  refine parseExpression_source Python.asciiTables 1 sourceExample ⟨⟨⟨⟨"=", .eq⟩, trivial, hone⟩,
    trivial, ?_⟩, trivial, hone, trivial⟩
  intro v hv
  simp only [List.mem_cons, List.not_mem_nil, or_false] at hv
  rcases hv with rfl | rfl
  · exact ⟨_, .string "x"⟩
  · exact ⟨_, .null⟩

end TinyDB
