import TinyDB.Accepted
import TinyDB.ParserComplete

/-!
# The parser finds every statement

The converse of `StatementSound`: what the grammar derives, the routines read, tree and all,
on a stack with three frames for each lexeme. With both directions `parse` returns a
statement exactly if the lexemes of the text derive it, and no text is two statements.
-/

namespace TinyDB

open Lib Lexeme Grammar

section

variable {py : Python} {line frames : Nat} {α β : Type} {t : Token} {ts : List Token}
  {before after : Token → Prop} {s r : List Lexeme} {a : α} {b : β} {l : Lexeme} {ks : List String}

/-! ## One routine behind the other -/

/-- The routine reads exactly the lexemes `s` and returns `a`, in front of a token that
`before` admits. -/
def YieldsIn (py : Python) (line : Nat) (before : Token → Prop) (p : P α) (s : List Lexeme)
    (a : α) : Prop :=
  ∀ ts rest, ts.map Token.lexeme = s → before (next py line rest) →
    p.run (py.host line) (ts ++ rest) = .ok (a, rest)

/-- In front of what `after` admits, the lexemes start with a token that `before` admits. -/
def Leads (py : Python) (line : Nat) (after : Token → Prop) (s : List Lexeme)
    (before : Token → Prop) : Prop :=
  ∀ ts rest, ts.map Token.lexeme = s → after (next py line rest) → before (next py line (ts ++ rest))

theorem leads_cons (h : ∀ t, t.lexeme = l → before t) : Leads py line after (l :: s) before := by
  intro ts rest hts _
  obtain ⟨t, ts, rfl, ht, -⟩ := List.map_eq_cons_iff.mp hts
  exact h t ht

theorem leads_nil (h : ∀ t, after t → before t) : Leads py line after [] before := by
  intro ts rest hts hafter
  rw [List.map_eq_nil_iff.mp hts]
  exact h _ hafter

theorem Leads.append {mid : Token → Prop} (hr : Leads py line after r mid)
    (hs : Leads py line mid s before) : Leads py line after (s ++ r) before := by
  intro ts rest hts hafter
  obtain ⟨q, q', rfl, hq, hq'⟩ := List.map_eq_append_iff.mp hts
  rw [List.append_assoc]
  exact hs q (q' ++ rest) hq (hr q' rest hq' hafter)

theorem leads_any : Leads py line after s fun _ => True := fun _ _ _ _ => trivial

theorem YieldsIn.pure (a : α) : YieldsIn py line after (Pure.pure a : P α) [] a := by
  intro ts rest hts _
  rw [List.map_eq_nil_iff.mp hts]
  rfl

theorem YieldsIn.mono {p : P α} (h : YieldsIn py line before p s a) (hb : ∀ t, after t → before t) :
    YieldsIn py line after p s a := fun ts rest hts hafter => h ts rest hts (hb _ hafter)

theorem YieldsIn.bind {p : P α} {f : α → P β} (hp : YieldsIn py line before p s a)
    (hf : YieldsIn py line after (f a) r b) (hleads : Leads py line after r before) :
    YieldsIn py line after (p >>= f) (s ++ r) b := by
  intro ts rest hts hafter
  obtain ⟨q, q', rfl, hq, hq'⟩ := List.map_eq_append_iff.mp hts
  rw [Prog.run_bind, List.append_assoc, hp q (q' ++ rest) hq (hleads q' rest hq' hafter), ok_bind]
  exact hf q' rest hq' hafter

/-- The last step of a routine makes the result of what was read. -/
theorem YieldsIn.map {p : P α} {f : α → β} (hp : YieldsIn py line before p s a) (hb : f a = b) :
    YieldsIn py line before (p >>= fun a => Pure.pure (f a)) s b := by
  have hlast : YieldsIn py line before (Pure.pure (f a) : P β) [] b := hb ▸ YieldsIn.pure (f a)
  have hbind := hp.bind (f := fun a => (Pure.pure (f a) : P β)) hlast (leads_nil fun _ h => h)
  rwa [List.append_nil] at hbind

/-- A step that takes one lexeme. -/
theorem YieldsIn.token {p : P Token} {f : Token → P β}
    (hp : ∀ t ts, t.lexeme = l → p.run (py.host line) (t :: ts) = .ok (t, ts))
    (hf : ∀ t, t.lexeme = l → YieldsIn py line after (f t) r b) :
    YieldsIn py line after (p >>= f) (l :: r) b := by
  intro ts rest hts hafter
  obtain ⟨t, ts, rfl, ht, hts⟩ := List.map_eq_cons_iff.mp hts
  rw [Prog.run_bind, List.cons_append, hp t _ ht, ok_bind]
  exact hf t ht ts rest hts hafter

/-- A look at the token in front. -/
theorem YieldsIn.look {f : Token → P β} {b : β}
    (hf : ∀ t, t.lexeme = l → YieldsIn py line after (f t) (l :: r) b) :
    YieldsIn py line after (current >>= f) (l :: r) b := by
  intro ts rest hts hafter
  obtain ⟨t, ts, rfl, ht, -⟩ := List.map_eq_cons_iff.mp hts
  exact hf t ht (t :: ts) rest hts hafter

theorem take_keyword {k : String} (hk : k ∈ keywords) (t : Token) (ts : List Token)
    (ht : t.lexeme = keyword k) :
    (expectKeyword py k).run (py.host line) (t :: ts) = .ok (t, ts) :=
  run_expectKeyword (by rw [isKeyword_keyword py ht hk, decide_eq_true rfl])

theorem take_punct {p : String} (t : Token) (ts : List Token) (ht : t.lexeme = punct p) :
    (expectPunct py p).run (py.host line) (t :: ts) = .ok (t, ts) := run_expectPunct ht

theorem take_ident {name : String} (t : Token) (ts : List Token) (ht : t.lexeme = ident name) :
    (expectType py .ident).run (py.host line) (t :: ts) = .ok (t, ts) :=
  run_expectType (congrArg Lexeme.type ht)

theorem take_any (t : Token) (ts : List Token) (_ : t.lexeme = l) :
    advance.run (py.host line) (t :: ts) = .ok (t, ts) := rfl

theorem yields_ident (name : String) : YieldsIn py line before (parseIdent py) [ident name] name := by
  refine YieldsIn.token take_ident fun t ht => ?_
  obtain rfl : t.value = name := congrArg Lexeme.value ht
  exact YieldsIn.pure t.value

/-- A keyword that is there is taken. -/
theorem YieldsIn.word {k : String} (hk : k ∈ keywords) {f : Bool → P β}
    (hf : YieldsIn py line after (f true) r b) :
    YieldsIn py line after (matchKeyword py k >>= f) (keyword k :: r) b := by
  intro ts rest hts hafter
  obtain ⟨t, ts, rfl, ht, hts⟩ := List.map_eq_cons_iff.mp hts
  rw [Prog.run_bind, List.cons_append, run_matchKeyword, next_cons,
    isKeyword_keyword py ht hk, decide_eq_true rfl]
  exact hf ts rest hts hafter

/-- One that is not there is passed over. -/
theorem YieldsIn.noWord {k : String} {f : Bool → P β} (hf : YieldsIn py line after (f false) s b)
    (hleads : Leads py line after s fun t => t.isKeyword py k = false) :
    YieldsIn py line after (matchKeyword py k >>= f) s b := by
  intro ts rest hts hafter
  have hword : (next py line (ts ++ rest)).isKeyword py k = false := hleads ts rest hts hafter
  rw [Prog.run_bind, run_matchKeyword, hword]
  exact hf ts rest hts hafter

/-! ## Tokens behind a clause -/

/-- The end of the statement, or one of the keywords. -/
def Starts (ks : List String) (t : Token) : Prop :=
  t.type = .eof ∨ ∃ k ∈ ks, k ∈ keywords ∧ t.lexeme = keyword k

theorem Starts.mono {ks' : List String} (h : Starts ks t) (hks : ks ⊆ ks') : Starts ks' t :=
  h.imp_right fun ⟨k, hk, hword, ht⟩ => ⟨k, hks hk, hword, ht⟩

theorem Starts.isKeyword (h : Starts ks t) {word : String} (hw : word ∉ ks) :
    t.isKeyword py word = false := by
  rcases h with heof | ⟨k, hk, hword, ht⟩
  · exact isKeyword_other py (by rw [heof]; decide) word
  · rw [isKeyword_keyword py ht hword]
    exact decide_eq_false fun e => hw (e ▸ hk)

theorem Starts.type (h : Starts ks t) : t.type = .eof ∨ t.type = .keyword :=
  h.imp_right fun ⟨_, _, _, ht⟩ => congrArg Lexeme.type ht

theorem Starts.not_punct (h : Starts ks t) (p : String) : t.lexeme ≠ punct p := by
  intro ht
  have htype : t.type = .punct := congrArg Lexeme.type ht
  rcases h.type with h | h <;> rw [htype] at h <;> cases h

/-- The keywords that go on with a condition. -/
def conditionWords : List String := ["IS", "NOT", "IN", "BETWEEN", "AND", "OR"]

theorem Starts.follows (h : Starts ks t) (hks : ∀ w ∈ conditionWords, w ∉ ks) :
    Follows py .disjunction t := by
  have hoperator : t.type ≠ .operator := by rcases h.type with h | h <;> rw [h] <;> decide
  have hdot : ¬ (t.type = .punct ∧ t.value = ".") := by
    rcases h.type with h | h <;> rw [h] <;> simp
  have hword : ∀ w ∈ conditionWords, t.isKeyword py w = false := fun w hw => h.isKeyword (hks w hw)
  simp only [conditionWords, List.forall_mem_cons] at hword
  obtain ⟨his, hnot, hin, hbetween, hand, hor, -⟩ := hword
  exact ⟨hdot, ⟨hoperator, his, hnot, hin, hbetween⟩, hand, hor⟩

/-! ## Lists -/

theorem Grammar.Separated.mono {item item' : List Lexeme → α → Prop} {as : List α}
    (h : Separated item s as) (hi : ∀ s a, item s a → item' s a) : Separated item' s as := by
  induction h with
  | one ha => exact .one (hi _ _ ha)
  | cons ha _ ih => exact .cons (hi _ _ ha) ih

/-- A comma goes on, any other token ends the list. -/
theorem yields_commaList {p : P α} {as : List α} (hcomma : ∀ t, t.lexeme = punct "," → before t)
    (h : Separated (YieldsIn py line before p) s as) :
    YieldsIn py line (fun t => before t ∧ t.lexeme ≠ punct ",") (commaList p) s as := by
  intro ts rest hts hafter
  obtain ⟨s₀, first, r, others, rfl, rfl, hfirst, hothers⟩ := h.split
  obtain ⟨q₀, q, rfl, hq₀, hq⟩ := List.map_eq_append_iff.mp hts
  have hsep : ∀ t ts, t.lexeme = punct "," →
      (matchPunct ",").run (py.host line) (t :: ts) = .ok (true, ts) := by
    intro t ts ht
    have htype : t.type = .punct := congrArg Lexeme.type ht
    have hvalue : t.value = "," := congrArg Lexeme.value ht
    simp [run_matchPunct, next_cons, htype, hvalue]
  have hend : (matchPunct ",").run (py.host line) rest = .ok (false, rest) := by
    rw [run_matchPunct, if_neg fun h => hafter.2 (by
      rw [Token.lexeme, h.1, h.2]
      rfl)]
  have hloop := run_appendWhile before hsep hcomma (fun _ _ h => h) hothers hq rest hafter.1 hend
  have hnext : before (next py line (q ++ rest)) := by
    cases hothers with
    | nil =>
      rw [List.map_eq_nil_iff.mp hq]
      exact hafter.1
    | cons hitem _ =>
      obtain ⟨_, rfl, -⟩ := hitem
      obtain ⟨t, q, rfl, ht, -⟩ := List.map_eq_cons_iff.mp hq
      exact hcomma t ht
  have hone := hfirst q₀ (q ++ rest) hq₀ hnext
  simp [commaList, Prog.run_bind, hone, hloop, run_pure]

/-- Items that end by themselves. -/
theorem yields_items {p : P α} {as : List α} (h : Separated (YieldsIn py line (fun _ => True) p) s as) :
    YieldsIn py line (fun t => t.lexeme ≠ punct ",") (commaList p) s as :=
  (yields_commaList (fun _ _ => trivial) h).mono fun _ h => ⟨trivial, h⟩

theorem yields_names {names : List String} (h : Separated Name s names) :
    YieldsIn py line (fun t => t.lexeme ≠ punct ",") (commaList (parseIdent py)) s names :=
  yields_items (h.mono fun s name hname => by
    obtain rfl : s = [ident name] := hname
    exact yields_ident name)

theorem ne_comma {p : String} (hp : p ≠ ",") (t : Token) (ht : t.lexeme = punct p) :
    t.lexeme ≠ punct "," := by
  rw [ht]
  intro e
  exact hp (congrArg Lexeme.value e)

/-- A list in parentheses. -/
theorem yields_parenthesised {p : P α} {as : List α} (hcomma : ∀ t, t.lexeme = punct "," → before t)
    (hparen : ∀ t, t.lexeme = punct ")" → before t) {f : List α → P β}
    (h : Separated (YieldsIn py line before p) s as) (hf : YieldsIn py line after (f as) r b) :
    YieldsIn py line after (do
      let _ ← expectPunct py "("
      let as ← commaList p
      let _ ← expectPunct py ")"
      f as) (punct "(" :: (s ++ punct ")" :: r)) b :=
  YieldsIn.token take_punct fun _ _ => (yields_commaList hcomma h).bind
    (YieldsIn.token take_punct fun _ _ => hf)
    (leads_cons fun t ht => ⟨hparen t ht, ne_comma (by decide) t ht⟩)

theorem yields_values {values : List Value} (h : LiteralList py s values) :
    YieldsIn py line before (parseValues py) s values :=
  fun _ rest hts _ => run_parseValues h hts rest

theorem yields_value {v : Value} (h : LiteralValue py s v) :
    YieldsIn py line before (parseValue py) s v := by
  obtain ⟨l, raw, rfl, hl⟩ := h
  intro ts rest hts _
  obtain ⟨t, rfl, ht⟩ := map_eq_singleton hts
  exact run_parseValue hl ht

def NoDot (t : Token) : Prop := t.lexeme ≠ punct "."

theorem Starts.noDot (h : Starts ks t) : NoDot t := h.not_punct "."

theorem run_noPunct {p : String} (h : (next py line ts).lexeme ≠ punct p) :
    (matchPunct p).run (py.host line) ts = .ok (false, ts) := by
  rw [run_matchPunct, if_neg fun he => h (by rw [Token.lexeme, he.1, he.2]; rfl)]

theorem yields_columnRef {e : Expr} (h : ColumnRef s e) :
    YieldsIn py line NoDot (parseColumnRef py) s e := by
  cases h with
  | plain name =>
    intro ts rest hts hdot
    obtain ⟨t, rfl, ht⟩ := map_eq_singleton hts
    have htype : t.type = .ident := congrArg Lexeme.type ht
    have hvalue : t.value = name := congrArg Lexeme.value ht
    simp [parseColumnRef, parseIdent, Prog.run_bind, run_expectType htype, run_noPunct hdot, run_pure,
      hvalue]
  | qualified table name =>
    intro ts rest hts _
    obtain ⟨t, ts, rfl, ht, hts⟩ := List.map_eq_cons_iff.mp hts
    obtain ⟨dot, ts, rfl, hdot, hts⟩ := List.map_eq_cons_iff.mp hts
    obtain ⟨c, rfl, hc⟩ := map_eq_singleton hts
    have htype : t.type = .ident := congrArg Lexeme.type ht
    have hvalue : t.value = table := congrArg Lexeme.value ht
    have hctype : c.type = .ident := congrArg Lexeme.type hc
    have hcvalue : c.value = name := congrArg Lexeme.value hc
    have hdot' : dot.type = .punct ∧ dot.value = "." :=
      ⟨congrArg Lexeme.type hdot, congrArg Lexeme.value hdot⟩
    simp [parseColumnRef, parseIdent, Prog.run_bind, run_expectType htype, run_expectType hctype,
      run_matchPunct, next_cons, hdot', run_pure, hvalue, hcvalue]

/-! ## CREATE TABLE and DROP TABLE -/

/-- What stands behind a column of CREATE TABLE. -/
def EndsColumn (t : Token) : Prop := t.lexeme = punct "," ∨ t.lexeme = punct ")"

theorem EndsColumn.isKeyword (h : EndsColumn t) (word : String) : t.isKeyword py word = false := by
  have htype : t.type = .punct := by rcases h with h | h <;> exact congrArg Lexeme.type h
  exact isKeyword_other py (by rw [htype]; decide) word

theorem yields_constraint {c : Constraint} (h : ConstraintOf s c) :
    YieldsIn py line before (parseConstraint py) s (some c) := by
  cases h with
  | primaryKey =>
    refine YieldsIn.look fun t ht => ?_
    rw [isKeyword_keyword py ht (by simp [keywords]), if_pos (by decide)]
    exact YieldsIn.token take_any fun _ _ =>
      YieldsIn.token (take_keyword (by simp [keywords])) fun _ _ => YieldsIn.pure _
  | notNull =>
    refine YieldsIn.look fun t ht => ?_
    simp only [isKeyword_keyword py ht (by simp [keywords])]
    rw [if_neg (by decide), if_pos (by decide)]
    exact YieldsIn.token take_any fun _ _ =>
      YieldsIn.token (take_keyword (by simp [keywords])) fun _ _ => YieldsIn.pure _
  | unique =>
    refine YieldsIn.look fun t ht => ?_
    simp only [isKeyword_keyword py ht (by simp [keywords])]
    rw [if_neg (by decide), if_neg (by decide), if_pos (by decide)]
    exact YieldsIn.token take_any fun _ _ => YieldsIn.pure _

theorem constraintOf_ne_nil {c : Constraint} (h : ConstraintOf s c) : s ≠ [] := by
  cases h <;> exact List.cons_ne_nil _ _

/-- A loop whose turns look at the token in front. -/
theorem yields_collect {turn : P (Option α)} {as : List α}
    (h : Each (fun s a => s ≠ [] ∧ YieldsIn py line before turn s (some a) ∧
      ∀ q, Leads py line q s before) s as)
    (hend : ∀ rest, after (next py line rest) → before (next py line rest) ∧
      turn.run (py.host line) rest = .ok (none, rest)) :
    YieldsIn py line after (collect turn) s as := by
  intro ts rest hts hafter
  obtain ⟨hrest, hnone⟩ := hend rest hafter
  exact Prog.run_collectFrom (fun rest => before (next py line rest))
    (fun q a rest hq hb => hq.2.1 q rest rfl hb)
    (fun q a rest hq => hq.2.2 (fun _ => True) q rest rfl trivial)
    (fun q a hq => by
      rintro rfl
      exact hq.1 rfl) (Each.of_map h hts) hrest hnone (by rw [List.length_append]; omega)

theorem each_mono {item item' : List Lexeme → α → Prop} {as : List α} (h : Each item s as)
    (hi : ∀ s a, item s a → item' s a) : Each item' s as := by
  induction h with
  | nil => exact .nil
  | cons ha _ ih => exact .cons (hi _ _ ha) ih

theorem yields_constraints {cs : List Constraint} (h : Each ConstraintOf s cs) :
    YieldsIn py line EndsColumn (collect (parseConstraint py)) s cs := by
  have hturns : Each (fun s c => s ≠ [] ∧ YieldsIn py line (fun _ => True) (parseConstraint py) s
      (some c) ∧ ∀ q, Leads py line q s fun _ => True) s cs :=
    each_mono h fun s c hc => ⟨constraintOf_ne_nil hc, yields_constraint hc, fun _ => leads_any⟩
  refine yields_collect hturns fun rest hafter => ⟨trivial, ?_⟩
  rw [parseConstraint, Prog.run_bind, run_current, ok_bind]
  simp only [hafter.isKeyword, Bool.false_eq_true, ↓reduceIte]
  rfl

theorem take_type {k : String} (t : Token) (ts : List Token) (ht : t.lexeme = keyword k) :
    (expectType py .keyword).run (py.host line) (t :: ts) = .ok (t, ts) :=
  run_expectType (congrArg Lexeme.type ht)

theorem yields_columnDef {column : ColumnDef} (h : Column s column) :
    YieldsIn py line EndsColumn (parseColumnDef py) s column := by
  obtain ⟨cs, rfl, hcs⟩ := h
  refine YieldsIn.token take_ident fun t ht => YieldsIn.token take_type fun u hu => ?_
  have hname : t.value = column.name := congrArg Lexeme.value ht
  have htype : u.value = column.colType := congrArg Lexeme.value hu
  rw [hname, htype]
  exact (yields_constraints hcs).map rfl

/-- No IF, no flag. -/
def NoIf (py : Python) (t : Token) : Prop := t.isKeyword py "IF" = false

theorem noIf_ident {name : String} (t : Token) (ht : t.lexeme = ident name) : NoIf py t :=
  isKeyword_other py (by rw [show t.type = .ident from congrArg Lexeme.type ht]; decide) "IF"

theorem yields_ifNotExists {b : Bool} (h : Flag ["IF", "NOT", "EXISTS"] s b) :
    YieldsIn py line (NoIf py) (parseIfNotExists py) s b := by
  rcases h with ⟨rfl, rfl⟩ | ⟨rfl, rfl⟩
  · exact YieldsIn.noWord (YieldsIn.pure false) (leads_nil fun _ h => h)
  · exact YieldsIn.word (by simp [keywords]) (YieldsIn.token (take_keyword (by simp [keywords]))
      fun _ _ => YieldsIn.token (take_keyword (by simp [keywords])) fun _ _ => YieldsIn.pure true)

theorem yields_ifExists {b : Bool} (h : Flag ["IF", "EXISTS"] s b) :
    YieldsIn py line (NoIf py) (parseIfExists py) s b := by
  rcases h with ⟨rfl, rfl⟩ | ⟨rfl, rfl⟩
  · exact YieldsIn.noWord (YieldsIn.pure false) (leads_nil fun _ h => h)
  · exact YieldsIn.word (by simp [keywords])
      (YieldsIn.token (take_keyword (by simp [keywords])) fun _ _ => YieldsIn.pure true)

theorem yields_createTable {stmt : CreateTable} (h : CreateTableOf s stmt) :
    YieldsIn py line before (parseCreateTable py) s stmt := by
  obtain ⟨flag, columns, rfl, hflag, inner, rfl, hcolumns⟩ := h
  refine YieldsIn.token (take_keyword (by simp [keywords])) fun _ _ =>
    YieldsIn.token (take_keyword (by simp [keywords])) fun _ _ =>
      (yields_ifNotExists hflag).bind ?_ (leads_cons noIf_ident)
  refine YieldsIn.token take_ident fun t ht => ?_
  have hname : t.value = stmt.name := congrArg Lexeme.value ht
  rw [hname]
  exact yields_parenthesised (fun _ => Or.inl) (fun _ => Or.inr)
    (hcolumns.mono fun _ _ => yields_columnDef) (YieldsIn.pure stmt)

theorem yields_dropTable {stmt : DropTable} (h : DropTableOf s stmt) :
    YieldsIn py line (fun t => t.lexeme ≠ punct ",") (parseDropTable py) s stmt := by
  obtain ⟨flag, names, rfl, hflag, hnames⟩ := h
  have hfirst : Leads py line (fun t => t.lexeme ≠ punct ",") names (NoIf py) := by
    obtain ⟨s₀, name, r, _, rfl, -, hname, -⟩ := hnames.split
    obtain rfl : s₀ = [ident name] := hname
    exact leads_cons noIf_ident
  exact YieldsIn.token (take_keyword (by simp [keywords])) fun _ _ =>
    YieldsIn.token (take_keyword (by simp [keywords])) fun _ _ =>
      (yields_ifExists hflag).bind
        ((yields_names hnames).map rfl) hfirst

/-! ## Clauses -/

theorem yields_absent {k : String} {absent : α} {p : P α} (hks : k ∉ ks) :
    YieldsIn py line (Starts ks) (parseClause py k absent p) [] absent :=
  YieldsIn.noWord (YieldsIn.pure absent) (leads_nil fun _ h => h.isKeyword hks)

theorem yields_clause {k : String} {absent : α} {body : List Lexeme → α → Prop} {p : P α}
    (hk : k ∈ keywords) (hks : k ∉ ks) (h : Clause k absent body s a)
    (hp : ∀ s', body s' a → YieldsIn py line (Starts ks) p s' a) :
    YieldsIn py line (Starts ks) (parseClause py k absent p) s a := by
  rcases h with ⟨rfl, rfl⟩ | ⟨s', rfl, hbody⟩
  · exact yields_absent hks
  · exact YieldsIn.word hk (hp s' hbody)

/-- In front of a clause stands its keyword or what stands behind it. -/
theorem leads_clause {k : String} {absent : α} {body : List Lexeme → α → Prop} (hk : k ∈ keywords)
    (h : Clause k absent body s a) : Leads py line (Starts ks) s (Starts (k :: ks)) := by
  rcases h with ⟨rfl, -⟩ | ⟨s', rfl, -⟩
  · exact leads_nil fun _ h => h.mono (List.subset_cons_self _ _)
  · exact leads_cons fun t ht => Or.inr ⟨k, List.mem_cons_self, hk, ht⟩

theorem yields_condition {e : Expr} (h : Condition py s e) (hframes : 3 * s.length + 5 ≤ frames) :
    YieldsIn py line (Follows py .disjunction) (parseExpression py frames) s e := by
  obtain ⟨n, rfl⟩ : ∃ n, frames = n + 5 := ⟨frames - 5, by omega⟩
  exact (foundBy_of_derives h (by omega)).yields

theorem yields_where {cond : Option Expr} (hks : ∀ w ∈ conditionWords, w ∉ ks)
    (hwhere : "WHERE" ∉ ks) (h : Where py s cond) (hframes : 3 * s.length + 2 ≤ frames) :
    YieldsIn py line (Starts ks) (parseClause py "WHERE" none (parseWhere py frames)) s cond := by
  rcases h with ⟨rfl, rfl⟩ | ⟨s', rfl, e, rfl, he⟩
  · exact yields_absent hwhere
  · rw [List.length_cons] at hframes
    exact YieldsIn.word (by simp [keywords])
      (((yields_condition he (by omega)).mono fun t ht => ht.follows hks).map rfl)

/-! ## INSERT, UPDATE and DELETE -/

theorem yields_columnNames {columns : Option (List String)} (h : ColumnNames CodeParen s columns) :
    YieldsIn py line (fun t => t.value ≠ "(") (parseColumnNames py) s columns := by
  rcases h with ⟨rfl, rfl⟩ | ⟨l, inner, names, hl, rfl, hnames, rfl⟩
  · intro ts rest hts hafter
    rw [List.map_eq_nil_iff.mp hts, List.nil_append, parseColumnNames, Prog.run_bind, run_current,
      ok_bind]
    simp only [if_neg hafter]
    rfl
  · refine YieldsIn.look fun t ht => ?_
    have hvalue : t.value = "(" := by
      have hval : l.value = "(" := by rcases hl with rfl | rfl <;> rfl
      exact (congrArg Lexeme.value ht).trans hval
    rw [if_pos hvalue]
    refine YieldsIn.token take_any fun _ _ => ?_
    exact (yields_names hnames).bind (YieldsIn.token take_punct fun _ _ => YieldsIn.pure _)
      (leads_cons (ne_comma (by decide)))

theorem yields_insert {stmt : Insert} (h : InsertOf py CodeParen s stmt) :
    YieldsIn py line (fun t => t.lexeme ≠ punct ",") (parseInsert py) s stmt := by
  obtain ⟨columns, values, rfl, hcolumns, hvalues⟩ := h
  refine YieldsIn.token (take_keyword (by simp [keywords])) fun _ _ =>
    YieldsIn.token (take_keyword (by simp [keywords])) fun _ _ => ?_
  refine (yields_ident stmt.table).bind ?_ leads_any
  refine (yields_columnNames hcolumns).bind ?_ (leads_cons fun t ht => ?_)
  · exact YieldsIn.token (take_keyword (by simp [keywords])) fun _ _ =>
      (yields_items (hvalues.mono fun _ _ => yields_values)).map rfl
  · rw [show t.value = "VALUES" from congrArg Lexeme.value ht]
    decide

theorem yields_assignment {assigned : String × Value} (h : Assignment py s assigned) :
    YieldsIn py line before (parseAssignment py) s assigned := by
  obtain ⟨s', rfl, hvalue⟩ := h
  refine (yields_ident assigned.1).bind
    (YieldsIn.token (fun t ts ht => ?_) fun _ _ => (yields_value hvalue).map rfl) leads_any
  have htype : t.type = .operator := congrArg Lexeme.type ht
  have heq : t.value = "=" := congrArg Lexeme.value ht
  simp [expect, Prog.run_bind, run_current, run_advance, next_cons, htype, heq]

theorem yields_update {stmt : Update} (h : UpdateOf py s stmt) (hframes : 3 * s.length ≤ frames) :
    YieldsIn py line (Starts []) (parseUpdate py frames) s stmt := by
  obtain ⟨assignments, cond, rfl, hassignments, hcond⟩ := h
  simp only [List.length_append, List.length_cons] at hframes
  have hwhere : YieldsIn py line (Starts []) (parseClause py "WHERE" none (parseWhere py frames)) cond
      stmt.where' := yields_where (by simp) (by simp) hcond (by omega)
  refine YieldsIn.token (take_keyword (by simp [keywords])) fun _ _ =>
    (yields_ident stmt.table).bind
      (YieldsIn.token (take_keyword (by simp [keywords])) fun _ _ =>
        (yields_items (hassignments.mono fun _ _ => yields_assignment)).bind (hwhere.map rfl)
          fun ts rest hts hafter => ?_) leads_any
  exact (leads_clause (by simp [keywords]) hcond ts rest hts hafter).not_punct ","

theorem yields_delete {stmt : Delete} (h : DeleteOf py s stmt) (hframes : 3 * s.length ≤ frames) :
    YieldsIn py line (Starts []) (parseDelete py frames) s stmt := by
  obtain ⟨cond, rfl, hcond⟩ := h
  simp only [words, List.map_cons, List.map_nil, List.length_append, List.length_cons,
    List.length_nil] at hframes
  have hwhere : YieldsIn py line (Starts []) (parseClause py "WHERE" none (parseWhere py frames)) cond
      stmt.where' := yields_where (by simp) (by simp) hcond (by omega)
  exact YieldsIn.token (take_keyword (by simp [keywords])) fun _ _ =>
    YieldsIn.token (take_keyword (by simp [keywords])) fun _ _ =>
      (yields_ident stmt.table).bind (hwhere.map rfl) leads_any

/-! ## Projections -/

/-- A lexeme with the value `*` is the punctuation mark or a string. -/
def Marked (ls : List Lexeme) : Prop := ∀ l ∈ ls, l.value = "*" → CodeStar l

theorem Marked.mono {s' : List Lexeme} (h : Marked s) (hs : s' ⊆ s) : Marked s' :=
  fun l hl => h l (hs hl)

theorem value_of_codeStar (h : CodeStar l) : l.value = "*" := by
  rcases h with rfl | rfl <;> rfl

/-- The clauses behind the projections. -/
def tailWords : List String := ["FROM", "WHERE", "GROUP", "ORDER", "LIMIT", "OFFSET"]

/-- What stands behind a projection. -/
def EndsProjection (t : Token) : Prop := t.lexeme = punct "," ∨ Starts tailWords t

theorem EndsProjection.noDot (h : EndsProjection t) : NoDot t := by
  rcases h with h | h
  · exact ne_of_eq_of_ne h (by decide)
  · exact h.noDot

theorem EndsProjection.noAs (h : EndsProjection t) : t.isKeyword py "AS" = false := by
  rcases h with h | h
  · exact isKeyword_other py (by rw [show t.type = .punct from congrArg Lexeme.type h]; decide) "AS"
  · exact h.isKeyword (by decide)

theorem aggregate_ne_star {f : String} (h : isAggregate f = true) : f ≠ "*" := by
  rintro rfl
  revert h
  decide

theorem derives_primary_ne_nil {e : Expr} (h : Derives py .primary s e) : s ≠ [] := by
  cases h with
  | literal _ => exact List.cons_ne_nil _ _
  | column hc => cases hc <;> exact List.cons_ne_nil _ _
  | group _ => exact List.cons_ne_nil _ _

theorem length_pos_of_primary {e : Expr} (h : Derives py .primary s e) : 0 < s.length :=
  List.length_pos_of_ne_nil (derives_primary_ne_nil h)

/-- A tree is no deeper than its text is long. -/
theorem reprFrames_le {level : Level} {e : Expr} (h : Derives py level s e) :
    e.reprFrames ≤ 2 * s.length := by
  induction h with
  | literal _ => exact Nat.le_refl 2
  | column hc => cases hc <;> simp [Expr.reprFrames]
  | group _ ih =>
    rw [List.length_append, List.length_cons]
    omega
  | primary _ ih => exact ih
  | @compare _ _ _ _ _ _ h _ h' ih ih' =>
    have hl := length_pos_of_primary h
    have hr := length_pos_of_primary h'
    simp only [Expr.reprFrames, List.length_append, List.length_cons]
    omega
  | isNull h ih | isNotNull h ih =>
    have hl := length_pos_of_primary h
    simp only [Expr.reprFrames, List.length_append, words, List.length_map, List.length_cons,
      List.length_nil]
    omega
  | isIn h hv ih =>
    simp only [Expr.reprFrames, List.length_append, List.length_cons]
    omega
  | notIn h hv ih =>
    simp only [Expr.reprFrames, List.length_append, words, List.length_map, List.length_cons,
      List.length_nil]
    omega
  | between h h' h'' ih ihlo ihhi =>
    simp only [Expr.reprFrames, List.length_append, List.length_cons]
    omega
  | comparison _ ih | conjunction _ ih => exact ih
  | and _ _ ih ih' | or _ _ ih ih' =>
    simp only [Expr.reprFrames, List.length_append, List.length_cons]
    omega

theorem yields_aggregateArg {arg : Expr} (hframes : arg.reprFrames ≤ frames) :
    YieldsIn py line before (aggregateArg frames arg) [] (argName py arg) := by
  have hrun : YieldsIn py line before (.ask (.str frames arg) .pure : P String) [] (arg.repr py) := by
    intro ts rest hts _
    have hanswer : (py.host line).answer (.str frames arg) = .ok (arg.repr py) := if_pos hframes
    rw [List.map_eq_nil_iff.mp hts, List.nil_append, Prog.run, hanswer]
    rfl
  cases arg with
  | column name => exact YieldsIn.pure name
  | _ => exact hrun

theorem yields_primaryIn {e : Expr} (h : Derives py .primary s e) (hframes : 3 * s.length ≤ frames) :
    YieldsIn py line NoDot (parsePrimary py (parseExpression py frames)) s e := by
  have hfound : Yields py line (parsePrimary py (parseExpression py frames)) .primary s e :=
    foundBy_of_derives h hframes
  exact YieldsIn.mono hfound fun t ht hdot => ht (by rw [Token.lexeme, hdot.1, hdot.2]; rfl)

/-- A column in front decides for the last branch. -/
theorem yields_plain {s r : List Lexeme} {e e' : Expr} (hmarked : Marked s)
    (hc : ColumnRef s e)
    (h : YieldsIn py line after (do
      let expr ← parseColumnRef py
      if ← matchKeyword py "AS" then
        let name ← parseIdent py
        return .column name
      else return expr) (s ++ r) e') :
    YieldsIn py line after (parseProjection py frames) (s ++ r) e' := by
  obtain ⟨name, s', rfl⟩ : ∃ name s', s = ident name :: s' := by
    cases hc with
    | plain name => exact ⟨name, [], rfl⟩
    | qualified table name => exact ⟨table, _, rfl⟩
  refine YieldsIn.look fun t ht => ?_
  have htype : t.type = .ident := congrArg Lexeme.type ht
  have hmark : t.value ≠ "*" := fun e => by
    rcases hmarked _ List.mem_cons_self ((congrArg Lexeme.value ht).symm.trans e) with h | h <;> cases h
  rw [if_neg hmark, if_neg (by simp [htype]), if_neg (by simp [htype])]
  exact h

theorem yields_projection {e : Expr} (hmarked : Marked s) (h : Projection py CodeStar s e)
    (hframes : 3 * s.length ≤ frames) :
    YieldsIn py line EndsProjection (parseProjection py frames) s e := by
  cases h with
  | @star l hl =>
    refine YieldsIn.look fun t ht => ?_
    have hvalue : t.value = "*" := (congrArg Lexeme.value ht).trans (value_of_codeStar hl)
    rw [if_pos hvalue]
    exact YieldsIn.token take_any fun _ _ => YieldsIn.pure _
  | @count f l hf hl =>
    refine YieldsIn.look fun t ht => ?_
    have htype : t.type = .keyword := congrArg Lexeme.type ht
    have hvalue : t.value = f := congrArg Lexeme.value ht
    rw [if_neg (by rw [hvalue]; exact aggregate_ne_star hf), if_pos ⟨htype, by rw [hvalue]; exact hf⟩]
    refine YieldsIn.token take_any fun u hu => YieldsIn.token take_punct fun _ _ =>
      YieldsIn.look fun v hv => ?_
    have hstar : v.value = "*" := (congrArg Lexeme.value hv).trans (value_of_codeStar hl)
    rw [if_pos hstar, show u.value = f from congrArg Lexeme.value hu]
    exact YieldsIn.token take_any fun _ _ => YieldsIn.token take_punct fun _ _ => YieldsIn.pure _
  | @aggregate f inner arg hf hstar harg =>
    simp only [List.length_append, List.length_cons] at hframes
    have hdepth := reprFrames_le harg
    have hprimary : YieldsIn py line NoDot (parsePrimary py (parseExpression py frames)) inner arg :=
      yields_primaryIn harg (by omega)
    have hname : YieldsIn py line EndsProjection (aggregateArg frames arg) [] (argName py arg) :=
      yields_aggregateArg (by omega)
    refine YieldsIn.look fun t ht => ?_
    have htype : t.type = .keyword := congrArg Lexeme.type ht
    have hvalue : t.value = f := congrArg Lexeme.value ht
    rw [if_neg (by rw [hvalue]; exact aggregate_ne_star hf), if_pos ⟨htype, by rw [hvalue]; exact hf⟩]
    refine YieldsIn.token take_any fun u hu => YieldsIn.token take_punct fun _ _ => ?_
    have hrest : YieldsIn py line EndsProjection (do
        let arg ← parsePrimary py (parseExpression py frames)
        let _ ← expectPunct py ")"
        let name ← aggregateArg frames arg
        return aggregateLiteral u.value name) (inner ++ [punct ")"])
        (aggregateLiteral f (argName py arg)) := by
      refine hprimary.bind (YieldsIn.token take_punct fun _ _ => hname.map ?_)
        (leads_cons fun t ht => ne_of_eq_of_ne ht (by decide))
      rw [show u.value = f from congrArg Lexeme.value hu]
    obtain ⟨l, inner, rfl⟩ := List.exists_cons_of_ne_nil (derives_primary_ne_nil harg)
    refine YieldsIn.look fun v hv => ?_
    have hmark : l.value ≠ "*" := fun e => hstar l rfl (hmarked l (by simp) e)
    rw [if_neg (by rwa [show v.value = l.value from congrArg Lexeme.value hv])]
    exact hrest
  | @literal l value raw hstar htype hl =>
    refine YieldsIn.look fun t ht => ?_
    have hmark : t.value ≠ "*" := by
      rw [show t.value = l.value from congrArg Lexeme.value ht]
      exact fun e => hstar (hmarked l (by simp) e)
    have htype' : t.type = .number ∨ t.type = .string := by
      rwa [show t.type = l.type from congrArg Lexeme.type ht]
    rw [if_neg hmark, if_neg (by rcases htype' with h | h <;> simp [h]), if_pos htype']
    exact YieldsIn.mono (yields_literal hl _) fun t ht hdot =>
      ht.noDot (by rw [Token.lexeme, hdot.1, hdot.2]; rfl)
  | column hc =>
    have hend : YieldsIn py line EndsProjection (do
        if ← matchKeyword py "AS" then
          let name ← parseIdent py
          return .column name
        else return e) [] e :=
      YieldsIn.noWord (YieldsIn.pure e) (leads_nil fun _ h => h.noAs)
    have href : YieldsIn py line EndsProjection (parseColumnRef py) s e :=
      (yields_columnRef hc).mono fun _ h => h.noDot
    have hyields : YieldsIn py line EndsProjection (parseProjection py frames) (s ++ []) e :=
      yields_plain hmarked hc (href.bind hend (leads_nil fun _ h => h))
    rwa [List.append_nil] at hyields
  | @named s e name hc =>
    exact yields_plain (hmarked.mono (List.subset_append_left _ _)) hc <|
      (yields_columnRef hc).bind (YieldsIn.word (by simp [keywords])
        ((yields_ident name).map rfl)) (leads_cons fun t ht => ne_of_eq_of_ne ht (by decide))

/-! ## FROM and its joins -/

def NoAlias (py : Python) (t : Token) : Prop := t.isKeyword py "AS" = false ∧ t.type ≠ .ident

theorem Starts.noAlias (h : Starts ks t) (hks : "AS" ∉ ks) : NoAlias py t :=
  ⟨h.isKeyword hks, by rcases h.type with h | h <;> rw [h] <;> decide⟩

theorem yields_alias {o : Option String} (h : Alias s o) :
    YieldsIn py line (NoAlias py) (parseOptionalAlias py) s o := by
  cases h with
  | none =>
    refine YieldsIn.noWord (fun ts rest hts hafter => ?_) (leads_nil fun _ h => h.1)
    rw [List.map_eq_nil_iff.mp hts, List.nil_append]
    simp only [Bool.false_eq_true, ↓reduceIte]
    rw [Prog.run_bind, run_current, ok_bind]
    simp only [if_neg hafter.2]
    rfl
  | as name => exact YieldsIn.word (by simp [keywords]) ((yields_ident name).map rfl)
  | bare name =>
    refine YieldsIn.noWord ?_ (leads_cons fun t ht =>
      isKeyword_other py (by rw [show t.type = .ident from congrArg Lexeme.type ht]; decide) "AS")
    refine YieldsIn.look fun t ht => ?_
    rw [if_pos (show t.type = .ident from congrArg Lexeme.type ht)]
    exact (yields_ident name).map rfl

def joinWords : List String := ["JOIN", "INNER", "LEFT"]

/-- The clauses behind FROM. -/
def whereWords : List String := ["WHERE", "GROUP", "ORDER", "LIMIT", "OFFSET"]

theorem joinKind_cons {kind : JoinType} (h : JoinKind s kind) :
    ∃ k s', s = keyword k :: s' ∧ k ∈ joinWords ∧ k ∈ keywords := by
  cases h <;> exact ⟨_, _, rfl, by decide, by simp [keywords]⟩

theorem upperText_lexeme {k : String} (hk : k ∈ keywords) (ht : t.lexeme = keyword k) :
    py.upperText t.value = k :=
  (congrArg py.upperText (congrArg Lexeme.value ht)).trans (upperText_keyword py hk)

theorem yields_joinType {kind : JoinType} (h : JoinKind s kind) :
    YieldsIn py line before (parseJoinType py) s kind := by
  cases h with
  | join =>
    refine YieldsIn.look fun t ht => ?_
    simp only [upperText_lexeme (by simp [keywords]) ht, String.reduceEq, ↓reduceIte]
    exact YieldsIn.token (take_keyword (by simp [keywords])) fun _ _ => YieldsIn.pure _
  | inner =>
    refine YieldsIn.look fun t ht => ?_
    simp only [upperText_lexeme (by simp [keywords]) ht, String.reduceEq, ↓reduceIte]
    exact YieldsIn.token take_any fun _ _ =>
      YieldsIn.token (take_keyword (by simp [keywords])) fun _ _ => YieldsIn.pure _
  | left =>
    refine YieldsIn.look fun t ht => ?_
    simp only [upperText_lexeme (by simp [keywords]) ht, ↓reduceIte]
    exact YieldsIn.token take_any fun _ _ =>
      YieldsIn.token (take_keyword (by simp [keywords])) fun _ _ => YieldsIn.pure _

theorem yields_join {join : JoinClause} (h : Join py s join) (hframes : 3 * s.length ≤ frames) :
    YieldsIn py line (Starts (joinWords ++ whereWords)) (parseJoinClause py frames) s join := by
  obtain ⟨kind, alias', cond, e, rfl, hkind, halias, hcond, he⟩ := h
  simp only [List.length_append, List.length_cons] at hframes
  have hpos : 0 < kind.length := by
    obtain ⟨k, s', rfl, -⟩ := joinKind_cons hkind
    exact Nat.zero_lt_succ _
  have hon : YieldsIn py line (Starts (joinWords ++ whereWords)) (parseExpression py frames) cond e :=
    (yields_condition hcond (by omega)).mono fun t ht => ht.follows (by decide)
  have hjoin : (⟨join.kind, join.table, join.alias', some e⟩ : JoinClause) = join := by rw [← he]
  rw [List.append_assoc]
  refine (yields_joinType hkind).bind ((yields_ident join.table).bind ((yields_alias halias).bind
    (YieldsIn.token (take_keyword (by simp [keywords])) fun _ _ => hon.map hjoin)
      (leads_cons fun t ht => ?_)) leads_any) leads_any
  have htype : t.type = .keyword := congrArg Lexeme.type ht
  exact ⟨by rw [isKeyword_keyword py ht (by simp [keywords])]; decide, by rw [htype]; decide⟩

theorem Leads.imp {before' : Token → Prop} (h : Leads py line after s before)
    (hb : ∀ t, before t → before' t) : Leads py line after s before' :=
  fun ts rest hts hafter => hb _ (h ts rest hts hafter)

theorem join_cons {join : JoinClause} (h : Join py s join) :
    ∃ k s', s = keyword k :: s' ∧ k ∈ joinWords ∧ k ∈ keywords := by
  obtain ⟨kind, alias', cond, e, rfl, hkind, -⟩ := h
  obtain ⟨k, s', rfl, hk, hword⟩ := joinKind_cons hkind
  exact ⟨k, _, rfl, hk, hword⟩

theorem leads_join {join : JoinClause} (h : Join py s join) :
    Leads py line after s (Starts (joinWords ++ whereWords)) := by
  obtain ⟨k, s', rfl, hk, hword⟩ := join_cons h
  exact leads_cons fun t ht => Or.inr ⟨k, List.mem_append_left _ hk, hword, ht⟩

theorem startsJoin_keyword {k : String} (h : t.lexeme = keyword k) (hk : k ∈ keywords) :
    startsJoin py t = decide (k ∈ joinWords) := by
  simp only [startsJoin, isKeyword_keyword py h hk, joinWords, List.mem_cons, List.not_mem_nil,
    or_false, Bool.decide_or, Bool.or_assoc]

theorem Starts.not_startsJoin (h : Starts whereWords t) : startsJoin py t = false := by
  have hword : ∀ w ∈ joinWords, t.isKeyword py w = false := fun w hw =>
    h.isKeyword fun hw' => absurd hw' (by revert w; decide)
  simp only [joinWords, List.forall_mem_cons] at hword
  simp [startsJoin, hword]

/-- One turn of the loop over the joins. -/
def joinTurn (py : Python) (frames : Nat) : P (Option JoinClause) := do
  let token ← current
  if startsJoin py token then
    let join ← parseJoinClause py frames
    return some join
  else return none

theorem yields_joinTurn {join : JoinClause} (h : Join py s join) (hframes : 3 * s.length ≤ frames) :
    YieldsIn py line (Starts (joinWords ++ whereWords)) (joinTurn py frames) s (some join) := by
  have hyields : YieldsIn py line (Starts (joinWords ++ whereWords)) (parseJoinClause py frames) s
      join := yields_join h hframes
  obtain ⟨k, s', rfl, hk, hword⟩ := join_cons h
  refine YieldsIn.look fun t ht => ?_
  rw [if_pos (by rw [startsJoin_keyword ht hword, decide_eq_true hk])]
  exact hyields.map rfl

theorem each_sub {item item' : List Lexeme → α → Prop} {as : List α} (h : Each item s as)
    (hi : ∀ s' a, s' <:+: s → item s' a → item' s' a) : Each item' s as := by
  induction h with
  | nil => exact .nil
  | @cons s r a as ha _ ih =>
    refine .cons (hi _ _ (List.prefix_append s r).isInfix ha) (ih fun s' a hs' => hi s' a ?_)
    exact hs'.trans (List.suffix_append s r).isInfix

theorem yields_joins {joins : List JoinClause} (h : Each (Join py) s joins)
    (hframes : 3 * s.length ≤ frames) :
    YieldsIn py line (Starts whereWords) (parseJoinClauses py frames) s joins := by
  have hturns : Each (fun s join => s ≠ [] ∧
      YieldsIn py line (Starts (joinWords ++ whereWords)) (joinTurn py frames) s (some join) ∧
      ∀ q, Leads py line q s (Starts (joinWords ++ whereWords))) s joins :=
    each_sub h fun s' join hs' hjoin => by
      have hlen := hs'.length_le
      refine ⟨?_, yields_joinTurn hjoin (by omega), fun _ => leads_join hjoin⟩
      obtain ⟨k, s', rfl, -⟩ := join_cons hjoin
      exact List.cons_ne_nil _ _
  refine yields_collect hturns fun rest hafter => ⟨hafter.mono (List.subset_append_right _ _), ?_⟩
  rw [Prog.run_bind, run_current, ok_bind]
  simp only [hafter.not_startsJoin, Bool.false_eq_true, ↓reduceIte]
  rfl

theorem leads_joins {joins : List JoinClause} (h : Each (Join py) s joins) :
    Leads py line (Starts whereWords) s (Starts (joinWords ++ whereWords)) := by
  cases h with
  | nil => exact leads_nil fun _ h => h.mono (List.subset_append_right _ _)
  | cons hjoin _ =>
    obtain ⟨k, s', rfl, hk, hword⟩ := join_cons hjoin
    exact leads_cons fun t ht => Or.inr ⟨k, List.mem_append_left _ hk, hword, ht⟩

theorem yields_from {tables : String × Option String × List JoinClause} (h : From py s tables)
    (hframes : 3 * s.length ≤ frames) :
    YieldsIn py line (Starts whereWords)
      (parseClause py "FROM" ("", none, []) (parseFrom py frames)) s tables := by
  rcases h with ⟨rfl, rfl⟩ | ⟨s', rfl, alias', joins, rfl, halias, hjoins⟩
  · exact yields_absent (by decide)
  · simp only [List.length_append, List.length_cons] at hframes
    exact YieldsIn.word (by simp [keywords]) ((yields_ident tables.1).bind
      ((yields_alias halias).bind ((yields_joins hjoins (by omega)).map rfl)
        ((leads_joins hjoins).imp fun t ht => ht.noAlias (by decide))) leads_any)

/-! ## GROUP BY, ORDER BY, LIMIT and OFFSET -/

theorem yields_by {item : P α} {G : List Lexeme → α → Prop} {as : List α} (h : By G s as)
    (hlist : ∀ s', Separated G s' as → YieldsIn py line after (commaList item) s' as) :
    YieldsIn py line after (do
      let _ ← expectKeyword py "BY"
      commaList item) s as := by
  obtain ⟨s', rfl, has⟩ := h
  exact YieldsIn.token (take_keyword (by simp [keywords])) fun _ _ => hlist s' has

theorem yields_groups {groups : List Expr} (h : Clause "GROUP" [] (By ColumnRef) s groups) :
    YieldsIn py line (Starts ["ORDER", "LIMIT", "OFFSET"])
      (parseClause py "GROUP" [] (parseGroupBy py)) s groups := by
  refine yields_clause (by simp [keywords]) (by decide) h fun s' hs' => yields_by hs' fun r hr => ?_
  have hrefs : Separated (YieldsIn py line NoDot (parseGroupExpr py)) r groups :=
    hr.mono fun _ _ => yields_columnRef
  exact (yields_commaList (fun t ht => ne_of_eq_of_ne ht (by decide)) hrefs).mono fun t ht =>
    ⟨ht.noDot, ht.not_punct ","⟩

/-- What stands behind an item of ORDER BY. -/
def EndsOrder (py : Python) (t : Token) : Prop :=
  NoDot t ∧ t.isKeyword py "ASC" = false ∧ t.isKeyword py "DESC" = false

theorem Starts.endsOrder (h : Starts ks t) (hasc : "ASC" ∉ ks) (hdesc : "DESC" ∉ ks) :
    EndsOrder py t := ⟨h.noDot, h.isKeyword hasc, h.isKeyword hdesc⟩

theorem endsOrder_comma (t : Token) (ht : t.lexeme = punct ",") : EndsOrder py t := by
  have htype : t.type ≠ .keyword := by
    rw [show t.type = .punct from congrArg Lexeme.type ht]
    decide
  exact ⟨ne_of_eq_of_ne ht (by decide), isKeyword_other py htype _, isKeyword_other py htype _⟩

theorem yields_orderItem {item : OrderItem} (h : Order s item) :
    YieldsIn py line (EndsOrder py) (parseOrderItem py) s item := by
  have hdot : ∀ {k : String} (t : Token), t.lexeme = keyword k → NoDot t := fun t ht =>
    ne_of_eq_of_ne ht fun e => TokenType.noConfusion (congrArg Lexeme.type e)
  cases h with
  | @plain s e hc =>
    have hnone : YieldsIn py line (EndsOrder py) (parseDirection py) [] .asc :=
      YieldsIn.noWord (YieldsIn.noWord (YieldsIn.pure _) (leads_nil fun _ h => h.2.2))
        (leads_nil fun _ h => h.2.1)
    have hitem := (yields_columnRef hc).bind (f := fun e => (do
      let direction ← parseDirection py
      return ⟨e, direction⟩ : P OrderItem)) (hnone.map rfl) (leads_nil fun _ h => h.1)
    rwa [List.append_nil] at hitem
  | @asc s e hc =>
    have hasc : YieldsIn py line (EndsOrder py) (parseDirection py) (words ["ASC"]) .asc :=
      YieldsIn.word (by simp [keywords]) (YieldsIn.pure _)
    exact (yields_columnRef hc).bind (hasc.map rfl) (leads_cons hdot)
  | @desc s e hc =>
    have hdesc : YieldsIn py line (EndsOrder py) (parseDirection py) (words ["DESC"]) .desc :=
      YieldsIn.noWord (YieldsIn.word (by simp [keywords]) (YieldsIn.pure _)) (leads_cons fun t ht => by
        rw [isKeyword_keyword py ht (by simp [keywords])]
        decide)
    exact (yields_columnRef hc).bind (hdesc.map rfl) (leads_cons hdot)

theorem yields_orders {orders : List OrderItem} (h : Clause "ORDER" [] (By Order) s orders) :
    YieldsIn py line (Starts ["LIMIT", "OFFSET"])
      (parseClause py "ORDER" [] (parseOrderBy py)) s orders := by
  refine yields_clause (by simp [keywords]) (by decide) h fun s' hs' => yields_by hs' fun r hr => ?_
  have hitems : Separated (YieldsIn py line (EndsOrder py) (parseOrderItem py)) r orders :=
    hr.mono fun _ _ => yields_orderItem
  exact (yields_commaList endsOrder_comma hitems).mono fun t ht =>
    ⟨ht.endsOrder (by decide) (by decide), ht.not_punct ","⟩

theorem yields_count {k : String} {n : Option Nat} (hk : k ∈ keywords) (hks : k ∉ ks)
    (h : Clause k none (Count py) s n) :
    YieldsIn py line (Starts ks) (parseClause py k none (parseIntLiteral py)) s n := by
  refine yields_clause hk hks h fun s' hs' => ?_
  obtain ⟨text, value, rfl, hint, rfl⟩ := hs'
  refine YieldsIn.token (fun t ts ht => run_expectType (congrArg Lexeme.type ht)) fun t ht => ?_
  have hanswer : (py.host line).answer (.int t.value) = .ok value := by
    rw [show t.value = text from congrArg Lexeme.value ht]
    exact hint
  intro ts rest hts _
  rw [List.map_eq_nil_iff.mp hts, List.nil_append, Prog.run_bind, Prog.run, hanswer]
  rfl

/-! ## SELECT -/

theorem Grammar.Separated.sub {item item' : List Lexeme → α → Prop} {as : List α}
    (h : Separated item s as) (hi : ∀ s' a, s' <:+: s → item s' a → item' s' a) :
    Separated item' s as := by
  induction h with
  | one ha => exact .one (hi _ _ (List.infix_refl _) ha)
  | @cons s r a as ha _ ih =>
    refine .cons (hi _ _ (List.prefix_append s _).isInfix ha) (ih fun s' a hs' => hi s' a ?_)
    exact hs'.trans ((List.suffix_cons _ r).trans (List.suffix_append s _)).isInfix

theorem yields_projections {projections : List Expr} (hmarked : Marked s)
    (h : Separated (Projection py CodeStar) s projections) (hframes : 3 * s.length ≤ frames) :
    YieldsIn py line (Starts tailWords) (commaList (parseProjection py frames)) s projections := by
  have heach : Separated (YieldsIn py line EndsProjection (parseProjection py frames)) s projections :=
    h.sub fun s' e hs' he => by
      have hlen := hs'.length_le
      exact yields_projection (hmarked.mono hs'.subset) he (by omega)
  exact (yields_commaList (fun _ => Or.inl) heach).mono fun t ht => ⟨Or.inr ht, ht.not_punct ","⟩

theorem yields_select {stmt : Select} (hmarked : Marked s) (h : SelectOf py CodeStar s stmt)
    (hframes : 3 * s.length ≤ frames) :
    YieldsIn py line (Starts []) (parseSelect py frames) s stmt := by
  obtain ⟨projections, tail, rfl, hprojections, tables, cond, groups, orders, limit, offset, rfl,
    hfrom, hwhere, hgroups, horders, hlimit, hoffset⟩ := h
  simp only [List.length_append, List.length_cons] at hframes
  have hproj : YieldsIn py line (Starts tailWords) (commaList (parseProjection py frames)) projections
      stmt.projections :=
    yields_projections (hmarked.mono fun l hl => by simp [hl]) hprojections (by omega)
  have hcond : YieldsIn py line (Starts ["GROUP", "ORDER", "LIMIT", "OFFSET"])
      (parseClause py "WHERE" none (parseWhere py frames)) cond stmt.where' :=
    yields_where (by decide) (by decide) hwhere (by omega)
  -- what each clause leaves for the next one, from the end
  have hleadOffset : Leads py line (Starts []) offset (Starts ["OFFSET"]) :=
    leads_clause (by simp [keywords]) hoffset
  have hleadLimit := hleadOffset.append (leads_clause (by simp [keywords]) hlimit)
  have hleadOrders := hleadLimit.append (leads_clause (by simp [keywords]) horders)
  have hleadGroups := hleadOrders.append (leads_clause (by simp [keywords]) hgroups)
  have hleadCond := hleadGroups.append (leads_clause (by simp [keywords]) hwhere)
  have hleadTables := hleadCond.append (leads_clause (by simp [keywords]) hfrom)
  simp only [List.append_assoc] at hleadTables hleadCond hleadGroups hleadOrders hleadLimit ⊢
  exact YieldsIn.token (take_keyword (by simp [keywords])) fun _ _ =>
    hproj.bind ((yields_from hfrom (by omega)).bind (hcond.bind ((yields_groups hgroups).bind
      ((yields_orders horders).bind ((yields_count (by simp [keywords]) (by decide) hlimit).bind
        ((yields_count (by simp [keywords]) (by decide) hoffset).map rfl)
        hleadOffset) hleadLimit) hleadOrders) hleadGroups) hleadCond) hleadTables

/-! ## Statements -/

/-- The routine that the keyword in front picks. -/
def keywordRoutine (py : Python) (frames : Nat) (k : String) : P Statement :=
  if k = "CREATE" then return .createTable (← parseCreateTable py)
  else if k = "DROP" then return .dropTable (← parseDropTable py)
  else if k = "INSERT" then return .insert (← parseInsert py)
  else if k = "SELECT" then return .select (← parseSelect py frames)
  else if k = "UPDATE" then return .update (← parseUpdate py frames)
  else if k = "DELETE" then return .delete (← parseDelete py frames)
  else if k = "CHECKPOINT" then do
    let _ ← advance
    return .checkpoint
  else if k = "EXPLAIN" then do
    let _ ← advance
    return .explain (← parseStatement py frames)
  else parseTxControl py

theorem yields_keyword {k : String} {stmt : Statement} (hk : k ∈ keywords)
    (h : YieldsIn py line after (keywordRoutine py frames k) (keyword k :: s) stmt) :
    YieldsIn py line after (parseStatement py (frames + 1)) (keyword k :: s) stmt := by
  refine YieldsIn.look fun t ht => ?_
  rw [if_pos (show t.type = .keyword from congrArg Lexeme.type ht)]
  simp only [upperText_lexeme hk ht]
  exact h

theorem yields_routine {k : String} {p : P α} {f : α → Statement} (hk : k ∈ keywords)
    (hbranch : keywordRoutine py frames k = do return f (← p))
    (hp : YieldsIn py line after p (keyword k :: s) a) :
    YieldsIn py line after (parseStatement py (frames + 1)) (keyword k :: s) (f a) :=
  yields_keyword hk (hbranch ▸ hp.map rfl)

/-- **The parser finds every statement** of the grammar, in front of the end of the text. -/
theorem yields_statement {stmt : Statement} (h : StatementOf py CodeStar CodeParen s stmt)
    (hmarked : Marked s) (hframes : 3 * s.length < frames) :
    YieldsIn py line (Starts []) (parseStatement py frames) s stmt := by
  have hcomma : ∀ t, Starts [] t → t.lexeme ≠ punct "," := fun t ht => ht.not_punct ","
  obtain ⟨n, rfl⟩ : ∃ n, frames = n + 1 := ⟨frames - 1, by omega⟩
  have hn : 3 * s.length ≤ n := by omega
  clear hframes
  induction h generalizing n with
  | createTable h =>
    have hyields : YieldsIn py line (Starts []) (parseCreateTable py) _ _ := yields_createTable h
    obtain ⟨_, _, rfl, -⟩ := h
    refine yields_routine (by simp [keywords]) ?_ hyields
    simp only [keywordRoutine, ↓reduceIte]
  | dropTable h =>
    have hyields : YieldsIn py line (Starts []) (parseDropTable py) _ _ :=
      (yields_dropTable h).mono hcomma
    obtain ⟨_, _, rfl, -⟩ := h
    refine yields_routine (by simp [keywords]) ?_ hyields
    simp only [keywordRoutine, String.reduceEq, ↓reduceIte]
  | insert h =>
    have hyields : YieldsIn py line (Starts []) (parseInsert py) _ _ := (yields_insert h).mono hcomma
    obtain ⟨_, _, rfl, -⟩ := h
    refine yields_routine (by simp [keywords]) ?_ hyields
    simp only [keywordRoutine, String.reduceEq, ↓reduceIte]
  | select h =>
    have hyields : YieldsIn py line (Starts []) (parseSelect py n) _ _ := yields_select hmarked h hn
    obtain ⟨_, _, rfl, -⟩ := h
    refine yields_routine (by simp [keywords]) ?_ hyields
    simp only [keywordRoutine, String.reduceEq, ↓reduceIte]
  | update h =>
    have hyields : YieldsIn py line (Starts []) (parseUpdate py n) _ _ := yields_update h hn
    obtain ⟨_, _, rfl, -⟩ := h
    refine yields_routine (by simp [keywords]) ?_ hyields
    simp only [keywordRoutine, String.reduceEq, ↓reduceIte]
  | delete h =>
    have hyields : YieldsIn py line (Starts []) (parseDelete py n) _ _ := yields_delete h hn
    obtain ⟨_, rfl, -⟩ := h
    refine yields_routine (by simp [keywords]) ?_ hyields
    simp only [keywordRoutine, String.reduceEq, ↓reduceIte]
  | begin =>
    refine yields_keyword (by simp [keywords]) ?_
    simp only [keywordRoutine, String.reduceEq, ↓reduceIte]
    refine YieldsIn.token take_any fun t ht => ?_
    rw [if_pos (upperText_lexeme (by simp [keywords]) ht)]
    exact YieldsIn.noWord (YieldsIn.pure _) (leads_nil fun _ h => Starts.isKeyword h List.not_mem_nil)
  | beginTransaction =>
    refine yields_keyword (by simp [keywords]) ?_
    simp only [keywordRoutine, String.reduceEq, ↓reduceIte]
    refine YieldsIn.token take_any fun t ht => ?_
    rw [if_pos (upperText_lexeme (by simp [keywords]) ht)]
    exact YieldsIn.word (by simp [keywords]) (YieldsIn.pure _)
  | commit =>
    refine yields_keyword (by simp [keywords]) ?_
    simp only [keywordRoutine, String.reduceEq, ↓reduceIte]
    refine YieldsIn.token take_any fun t ht => ?_
    simp only [upperText_lexeme (by simp [keywords]) ht, String.reduceEq, true_or, ↓reduceIte]
    exact YieldsIn.pure _
  | end' =>
    refine yields_keyword (by simp [keywords]) ?_
    simp only [keywordRoutine, String.reduceEq, ↓reduceIte]
    refine YieldsIn.token take_any fun t ht => ?_
    simp only [upperText_lexeme (by simp [keywords]) ht, String.reduceEq, or_true, ↓reduceIte]
    exact YieldsIn.pure _
  | rollback =>
    refine yields_keyword (by simp [keywords]) ?_
    simp only [keywordRoutine, String.reduceEq, ↓reduceIte]
    refine YieldsIn.token take_any fun t ht => ?_
    simp only [upperText_lexeme (by simp [keywords]) ht, String.reduceEq, or_self, ↓reduceIte]
    exact YieldsIn.pure _
  | checkpoint =>
    refine yields_keyword (by simp [keywords]) ?_
    simp only [keywordRoutine, String.reduceEq, ↓reduceIte]
    exact YieldsIn.token take_any fun _ _ => YieldsIn.pure _
  | explain _ ih =>
    rw [List.length_cons] at hn
    obtain ⟨m, rfl⟩ : ∃ m, n = m + 1 := ⟨n - 1, by omega⟩
    have hinner := ih (hmarked.mono (List.subset_cons_self _ _)) m (by omega)
    refine yields_keyword (by simp [keywords]) ?_
    simp only [keywordRoutine, String.reduceEq, ↓reduceIte]
    exact YieldsIn.token take_any fun _ _ => hinner.map rfl

end

end TinyDB
