import TinyDB.ParserSound

/-!
# Statements read what the grammar says

The routines of `ddl_parser.py`, `dml_parser.py`, `join_parser.py` and `tx_control.py`, in
the order of the parser. The two tests that look at the value of a token alone read what
`CodeStar` and `CodeParen` say.
-/

namespace TinyDB

open Lib Lexeme Grammar

section

variable {py : Python} {line : Nat} {V : Token → Prop} {α : Type} {G : List Lexeme → α → Prop}
  {t : Token}

/-- A token with one of the two marked values is the mark or a string. -/
theorem lexeme_of_marked (hV : ∀ t, V t → t.Proper py) (ht : V t ∨ t = (py.host line).last)
    {v : String} (h : t.value = v) (hv : v = "*" ∨ v = "(") :
    t.lexeme = punct v ∨ t.lexeme = string v := by
  have hlast : t.type ≠ .eof := by
    refine not_eof_of_value hV ht h ?_
    rcases hv with rfl | rfl <;> decide
  have hvalue : t.lexeme.value = v := h
  have hmarked : t.type = .punct ∨ t.type = .string :=
    (hV t (mem_of_not_eof ht hlast)).marked (by rw [hvalue]; exact hv)
  rcases hmarked with htype | htype
  · exact Or.inl (by rw [Token.lexeme, htype, h]; rfl)
  · exact Or.inr (by rw [Token.lexeme, htype, h]; rfl)

theorem codeStar_of_value (hV : ∀ t, V t → t.Proper py) (ht : V t ∨ t = (py.host line).last)
    (h : t.value = "*") : CodeStar t.lexeme := lexeme_of_marked hV ht h (Or.inl rfl)

theorem not_codeStar (h : t.value ≠ "*") : ¬ CodeStar t.lexeme := by
  rintro (hstar | hstar) <;> exact h (congrArg Lexeme.value hstar)

/-- A primary that starts with a number or a string is that literal. -/
theorem literal_of_primary {s : List Lexeme} {e : Expr} (h : Derives py .primary s e)
    (hhead : ∀ l ∈ s.head?, l.type = .number ∨ l.type = .string) :
    ∃ l value raw, s = [l] ∧ Literal py l value raw ∧ e = .sqlLiteral value raw := by
  cases h with
  | literal hl => exact ⟨_, _, _, rfl, hl, rfl⟩
  | column hc =>
    cases hc with
    | plain name => exact absurd (hhead (ident name) rfl) (by simp [ident])
    | qualified table name => exact absurd (hhead (ident table) rfl) (by simp [ident])
  | group _ => exact absurd (hhead (punct "(") rfl) (by simp [punct])

theorem sound_aggregateArg (frames : Nat) (arg : Expr) :
    Sound py line V (aggregateArg frames arg) fun s name => s = [] ∧ name = argName py arg := by
  cases arg with
  | column name => exact Sound.pure ⟨rfl, rfl⟩
  | _ =>
    refine Sound.ask trivial fun name hname => Sound.pure ⟨rfl, ?_⟩
    simp only [Python.answer] at hname
    split at hname
    · exact (Except.ok.inj hname).symm
    · cases hname

variable (hV : ∀ t, V t → t.Proper py)
include hV

/-! ## CREATE TABLE and DROP TABLE -/

theorem sound_parseConstraint : Sound py line V (parseConstraint py) fun s o =>
    o = none ∧ s = [] ∨ ∃ c, o = some c ∧ s ≠ [] ∧ ConstraintOf s c := by
  refine Sound.current fun t ht => ?_
  by_cases hp : t.isKeyword py "PRIMARY" = true
  · rw [if_pos hp]
    obtain ⟨hlast, hlex⟩ := isKeyword_spec hV ht hp
    refine SoundBefore.advance hlast ((sound_expectKeyword hV "KEY").bind fun s _ hs =>
      Sound.pure (Or.inr ⟨_, rfl, by simp, ?_⟩))
    rw [hlex, hs]
    exact ConstraintOf.primaryKey
  rw [if_neg hp]
  by_cases hn : t.isKeyword py "NOT" = true
  · rw [if_pos hn]
    obtain ⟨hlast, hlex⟩ := isKeyword_spec hV ht hn
    refine SoundBefore.advance hlast ((sound_expectKeyword hV "NULL").bind fun s _ hs =>
      Sound.pure (Or.inr ⟨_, rfl, by simp, ?_⟩))
    rw [hlex, hs]
    exact ConstraintOf.notNull
  rw [if_neg hn]
  by_cases hu : t.isKeyword py "UNIQUE" = true
  · rw [if_pos hu]
    obtain ⟨hlast, hlex⟩ := isKeyword_spec hV ht hu
    refine SoundBefore.advance hlast (Sound.pure (Or.inr ⟨_, rfl, by simp, ?_⟩))
    rw [hlex]
    exact ConstraintOf.unique
  · rw [if_neg hu]
    exact SoundBefore.pure (Or.inl ⟨rfl, rfl⟩)

theorem sound_parseColumnDef : Sound py line V (parseColumnDef py) Column := by
  refine (sound_expectType (by decide)).bind fun s name hname =>
    (sound_expectType (by decide)).bind fun r type htype =>
      (Sound.collect (sound_parseConstraint hV)).bind fun u constraints hu => Sound.pure ?_
  obtain ⟨rfl, hident, -⟩ := hname
  obtain ⟨rfl, hkeyword, -⟩ := htype
  refine ⟨u, ?_, hu⟩
  rw [Token.lexeme, Token.lexeme, hident, hkeyword]
  simp [ident, keyword]

theorem sound_parseIfNotExists :
    Sound py line V (parseIfNotExists py) (Flag ["IF", "NOT", "EXISTS"]) := by
  refine (sound_matchKeyword hV "IF").bind fun s b hb => ?_
  rcases hb with ⟨rfl, rfl⟩ | ⟨rfl, rfl⟩
  · refine (sound_expectKeyword hV "NOT").bind fun r _ hr =>
      (sound_expectKeyword hV "EXISTS").bind fun u _ hu => Sound.pure (Or.inr ⟨?_, rfl⟩)
    rw [hr, hu]
    rfl
  · exact Sound.pure (Or.inl ⟨rfl, rfl⟩)

theorem sound_parseCreateTable : Sound py line V (parseCreateTable py) CreateTableOf := by
  refine (sound_expectKeyword hV "CREATE").bind fun s _ hs =>
    (sound_expectKeyword hV "TABLE").bind fun r _ hr =>
      (sound_parseIfNotExists hV).bind fun flag b hflag =>
        (sound_expectType (by decide)).bind fun n name hname =>
          (sound_expectPunct "(").bind fun u _ hu =>
            (sound_commaList (sound_parseColumnDef hV)).bind fun cs columns hcolumns =>
              (sound_expectPunct ")").bind fun w _ hw => Sound.pure ?_
  obtain ⟨rfl, hident, -⟩ := hname
  subst hs hr hu hw
  refine ⟨flag, punct "(" :: cs ++ [punct ")"], ?_, hflag, cs, rfl, hcolumns⟩
  rw [Token.lexeme, hident]
  simp [words, ident]

theorem sound_parseIfExists : Sound py line V (parseIfExists py) (Flag ["IF", "EXISTS"]) := by
  refine (sound_matchKeyword hV "IF").bind fun s b hb => ?_
  rcases hb with ⟨rfl, rfl⟩ | ⟨rfl, rfl⟩
  · refine (sound_expectKeyword hV "EXISTS").bind fun r _ hr => Sound.pure (Or.inr ⟨?_, rfl⟩)
    rw [hr]
    rfl
  · exact Sound.pure (Or.inl ⟨rfl, rfl⟩)

theorem sound_parseDropTable : Sound py line V (parseDropTable py) DropTableOf := by
  refine (sound_expectKeyword hV "DROP").bind fun s _ hs =>
    (sound_expectKeyword hV "TABLE").bind fun r _ hr =>
      (sound_parseIfExists hV).bind fun flag b hflag =>
        (sound_commaList sound_parseIdent).bind fun ns names hnames => Sound.pure ?_
  subst hs hr
  exact ⟨flag, ns, by simp [words], hflag, hnames⟩

/-! ## INSERT, UPDATE and DELETE -/

theorem sound_parseColumnNames :
    Sound py line V (parseColumnNames py) (ColumnNames CodeParen) := by
  refine Sound.current fun t ht => ?_
  by_cases hp : t.value = "("
  · rw [if_pos hp]
    have hlast : t.type ≠ .eof := not_eof_of_value hV ht hp (by decide)
    have hparen : CodeParen t.lexeme := lexeme_of_marked hV ht hp (Or.inr rfl)
    refine SoundBefore.advance hlast ((sound_commaList sound_parseIdent).bind fun s names hs =>
      (sound_expectPunct ")").bind fun r _ hr => Sound.pure (Or.inr
        ⟨t.lexeme, s, names, hparen, ?_, hs, rfl⟩))
    rw [hr, List.append_nil]
    rfl
  · rw [if_neg hp]
    exact SoundBefore.pure (Or.inl ⟨rfl, rfl⟩)

theorem sound_parseInsert : Sound py line V (parseInsert py) (InsertOf py CodeParen) := by
  refine (sound_expectKeyword hV "INSERT").bind fun s _ hs =>
    (sound_expectKeyword hV "INTO").bind fun r _ hr => sound_parseIdent.bind fun u table hu =>
      (sound_parseColumnNames hV).bind fun cs columns hcolumns =>
        (sound_expectKeyword hV "VALUES").bind fun w _ hw =>
          (sound_commaList sound_parseValues).bind fun vs values hvalues => Sound.pure ?_
  rw [Name] at hu
  subst hs hr hu hw
  exact ⟨cs, vs, by simp [words], hcolumns, hvalues⟩

theorem sound_parseWhere (frames : Nat) :
    Sound py line V (parseClause py "WHERE" none (parseWhere py frames)) (Where py) :=
  sound_parseClause hV ((sound_parseExpression hV frames).bind fun s e he =>
    Sound.pure ⟨e, rfl, by rw [List.append_nil]; exact he⟩)

theorem sound_parseUpdate (frames : Nat) :
    Sound py line V (parseUpdate py frames) (UpdateOf py) := by
  refine (sound_expectKeyword hV "UPDATE").bind fun s _ hs => sound_parseIdent.bind
    fun r table hr => (sound_expectKeyword hV "SET").bind fun u _ hu =>
      (sound_commaList sound_parseAssignment).bind fun as assignments has =>
        (sound_parseWhere hV frames).bind fun cond where' hcond => Sound.pure ?_
  rw [Name] at hr
  subst hs hr hu
  exact ⟨as, cond, by simp, has, hcond⟩

theorem sound_parseDelete (frames : Nat) :
    Sound py line V (parseDelete py frames) (DeleteOf py) := by
  refine (sound_expectKeyword hV "DELETE").bind fun s _ hs =>
    (sound_expectKeyword hV "FROM").bind fun r _ hr => sound_parseIdent.bind fun u table hu =>
      (sound_parseWhere hV frames).bind fun cond where' hcond => Sound.pure ?_
  rw [Name] at hu
  subst hs hr hu
  exact ⟨cond, by simp [words], hcond⟩

/-! ## SELECT -/

/-- An aggregate, once its name is known to be in front. -/
theorem sound_parseAggregate (frames : Nat) (htype : t.type = .keyword)
    (hagg : isAggregate t.value = true) :
    SoundBefore py line V t (parseAggregate py frames) (Projection py CodeStar) := by
  have hlex : t.lexeme = keyword t.value := by
    rw [Token.lexeme, htype]
    rfl
  refine SoundBefore.advance (not_eof htype (by decide)) ((sound_expectPunct "(").bind
    fun s _ hs => Sound.current fun u hu => ?_)
  subst hs
  by_cases hstar : u.value = "*"
  · rw [if_pos hstar]
    refine SoundBefore.advance (not_eof_of_value hV hu hstar (by decide)) ((sound_expectPunct ")").bind
      fun r _ hr => Sound.pure ?_)
    subst hr
    rw [hlex]
    exact Projection.count hagg (codeStar_of_value hV hu hstar)
  · rw [if_neg hstar]
    have hprimary : SoundBefore py line V u (parsePrimary py (parseExpression py frames))
        (Derives py .primary) := (sound_parsePrimary (sound_parseExpression hV frames)).before
    refine hprimary.head.bind fun r arg hr => (sound_expectPunct ")").bind fun w _ hw =>
      (sound_aggregateArg frames arg).bind fun x name hx => Sound.pure ?_
    obtain ⟨hderives, hhead⟩ := hr
    obtain ⟨rfl, rfl⟩ := hx
    subst hw
    rw [hlex]
    have hproj := Projection.aggregate hagg
      (fun l hl => by rw [hhead l hl]; exact not_codeStar hstar) hderives
    simpa using hproj

theorem sound_parseProjection (frames : Nat) :
    Sound py line V (parseProjection py frames) (Projection py CodeStar) := by
  refine Sound.current fun t ht => ?_
  by_cases hstar : t.value = "*"
  · rw [if_pos hstar]
    exact SoundBefore.advance (not_eof_of_value hV ht hstar (by decide))
      (Sound.pure (Projection.star (codeStar_of_value hV ht hstar)))
  rw [if_neg hstar]
  by_cases hagg : t.type = .keyword ∧ isAggregate t.value = true
  · rw [if_pos hagg]
    exact sound_parseAggregate hV frames hagg.1 hagg.2
  rw [if_neg hagg]
  by_cases hl : t.type = .number ∨ t.type = .string
  · rw [if_pos hl]
    have hprimary : SoundBefore py line V t (parsePrimary py (parseExpression py frames))
        (Derives py .primary) := (sound_parsePrimary (sound_parseExpression hV frames)).before
    refine hprimary.head.imp fun s e hs => ?_
    obtain ⟨l, value, raw, rfl, hliteral, rfl⟩ := literal_of_primary hs.1 fun l hm => by
      rw [hs.2 l hm]
      exact hl
    rw [hs.2 l (by simp)] at hliteral ⊢
    exact Projection.literal (not_codeStar hstar) hl hliteral
  · rw [if_neg hl]
    refine Sound.before (sound_parseColumnRef.bind fun s e he => (sound_matchKeyword hV "AS").bind
      fun r b hb => ?_)
    rcases hb with ⟨rfl, rfl⟩ | ⟨rfl, rfl⟩
    · refine sound_parseIdent.bind fun u name hu => Sound.pure ?_
      rw [Name] at hu
      subst hu
      exact Projection.named name he
    · refine Sound.pure ?_
      rw [List.append_nil, List.append_nil]
      exact Projection.column he

theorem sound_parseOptionalAlias : Sound py line V (parseOptionalAlias py) Alias := by
  refine (sound_matchKeyword hV "AS").bind fun s b hb => ?_
  rcases hb with ⟨rfl, rfl⟩ | ⟨rfl, rfl⟩
  · refine sound_parseIdent.bind fun r name hr => Sound.pure ?_
    rw [hr]
    exact Alias.as name
  · refine Sound.current fun t _ => ?_
    by_cases hi : t.type = .ident
    · rw [if_pos hi]
      refine Sound.before (sound_parseIdent.bind fun r name hr => Sound.pure ?_)
      rw [hr]
      exact Alias.bare name
    · rw [if_neg hi]
      exact SoundBefore.pure Alias.none

theorem sound_parseJoinType (ht : V t ∨ t = (py.host line).last) (hstart : startsJoin py t = true) :
    SoundBefore py line V t (parseJoinType py) JoinKind := by
  have htype : t.type = .keyword := by
    simp only [startsJoin, Token.isKeyword, Bool.or_eq_true, Bool.and_eq_true,
      decide_eq_true_eq] at hstart
    rcases hstart with (h | h) | h <;> exact h.1
  have hkeyword : ∀ k, py.upperText t.value = k → t.isKeyword py k = true := fun _ =>
    isKeyword_of_upper htype
  refine SoundBefore.current ?_
  by_cases hleft : py.upperText t.value = "LEFT"
  · rw [if_pos hleft]
    obtain ⟨hlast, hlex⟩ := isKeyword_spec hV ht (hkeyword _ hleft)
    refine SoundBefore.advance hlast ((sound_expectKeyword hV "JOIN").bind fun s _ hs =>
      Sound.pure ?_)
    rw [hlex, hs]
    exact JoinKind.left
  rw [if_neg hleft]
  by_cases hinner : py.upperText t.value = "INNER"
  · rw [if_pos hinner]
    obtain ⟨hlast, hlex⟩ := isKeyword_spec hV ht (hkeyword _ hinner)
    refine SoundBefore.advance hlast ((sound_expectKeyword hV "JOIN").bind fun s _ hs =>
      Sound.pure ?_)
    rw [hlex, hs]
    exact JoinKind.inner
  · rw [if_neg hinner]
    refine Sound.before ((sound_expectKeyword hV "JOIN").bind fun s _ hs => Sound.pure ?_)
    rw [hs]
    exact JoinKind.join

theorem sound_parseJoinClauses (frames : Nat) :
    Sound py line V (parseJoinClauses py frames) (Each (Join py)) := by
  refine Sound.collect (Sound.current fun t ht => ?_)
  by_cases hstart : startsJoin py t = true
  · rw [if_pos hstart]
    have hjoin : SoundBefore py line V t (parseJoinClause py frames) (Join py) := by
      refine (sound_parseJoinType hV ht hstart).bind fun k kind hk => sound_parseIdent.bind
        fun s table hs => (sound_parseOptionalAlias hV).bind fun as alias' has =>
          (sound_expectKeyword hV "ON").bind fun r _ hr =>
            (sound_parseExpression hV frames).bind fun cond e he => Sound.pure ?_
      rw [Name] at hs
      subst hs hr
      exact ⟨k, as, cond, e, by simp, hk, has, he, rfl⟩
    refine hjoin.bind fun s join hs => Sound.pure (Or.inr ⟨join, rfl, ?_, ?_⟩)
    · obtain ⟨k, as, cond, e, rfl, -⟩ := hs
      simp
    · rw [List.append_nil]
      exact hs
  · rw [if_neg hstart]
    exact SoundBefore.pure (Or.inl ⟨rfl, rfl⟩)

theorem sound_parseFrom (frames : Nat) :
    Sound py line V (parseClause py "FROM" ("", none, []) (parseFrom py frames)) (From py) := by
  refine sound_parseClause hV (sound_parseIdent.bind fun s table hs =>
    (sound_parseOptionalAlias hV).bind fun as alias' has =>
      (sound_parseJoinClauses hV frames).bind fun js joins hjoins => Sound.pure ?_)
  rw [Name] at hs
  subst hs
  exact ⟨as, js, by simp, has, hjoins⟩

theorem sound_by {k : String} {item : P α} (h : Sound py line V item G) :
    Sound py line V (parseClause py k [] (do
      let _ ← expectKeyword py "BY"
      commaList item)) (Clause k [] (By G)) :=
  sound_parseClause hV ((sound_expectKeyword hV "BY").bind fun s _ hs =>
    (sound_commaList h).imp fun r as hr => ⟨r, by rw [hs]; rfl, hr⟩)

theorem sound_parseOrderItem : Sound py line V (parseOrderItem py) Order := by
  have hdirection : Sound py line V (parseDirection py) fun s d => s = [] ∧ d = .asc ∨
      s = words ["ASC"] ∧ d = .asc ∨ s = words ["DESC"] ∧ d = .desc := by
    refine (sound_matchKeyword hV "ASC").bind fun s b hb => ?_
    rcases hb with ⟨rfl, rfl⟩ | ⟨rfl, rfl⟩
    · exact Sound.pure (Or.inr (Or.inl ⟨rfl, rfl⟩))
    · refine (sound_matchKeyword hV "DESC").bind fun r b hb => ?_
      rcases hb with ⟨rfl, rfl⟩ | ⟨rfl, rfl⟩
      · exact Sound.pure (Or.inr (Or.inr ⟨rfl, rfl⟩))
      · exact Sound.pure (Or.inl ⟨rfl, rfl⟩)
  refine sound_parseColumnRef.bind fun s e he => hdirection.bind fun r d hr => Sound.pure ?_
  rw [List.append_nil]
  rcases hr with ⟨rfl, rfl⟩ | ⟨rfl, rfl⟩ | ⟨rfl, rfl⟩
  · rw [List.append_nil]
    exact Order.plain he
  · exact Order.asc he
  · exact Order.desc he

theorem sound_parseIntLiteral (k : String) :
    Sound py line V (parseClause py k none (parseIntLiteral py)) (Clause k none (Count py)) := by
  refine sound_parseClause hV ((sound_expectType (by decide)).bind fun s u hu => ?_)
  obtain ⟨rfl, htype, hmem⟩ := hu
  have hint : Sound py line V (.ask (.int u.value) .pure) fun s n =>
      s = [] ∧ py.int u.value = .ok n := Sound.ask ⟨u, hmem, htype, rfl⟩ fun n hn =>
    Sound.pure ⟨rfl, hn⟩
  refine hint.bind fun r n hr => Sound.pure ⟨u.value, n, ?_, hr.2, rfl⟩
  rw [hr.1, Token.lexeme, htype]
  rfl

theorem sound_parseSelect (frames : Nat) :
    Sound py line V (parseSelect py frames) (SelectOf py CodeStar) := by
  refine (sound_expectKeyword hV "SELECT").bind fun s _ hs =>
    (sound_commaList (sound_parseProjection hV frames)).bind fun ps projections hps =>
      (sound_parseFrom hV frames).bind fun fs tables hfs =>
        (sound_parseWhere hV frames).bind fun ws where' hws =>
          (sound_by hV sound_parseColumnRef).bind fun gs groupBy hgs =>
            (sound_by hV (sound_parseOrderItem hV)).bind fun os orderBy hos =>
              (sound_parseIntLiteral hV "LIMIT").bind fun ls limit hls =>
                (sound_parseIntLiteral hV "OFFSET").bind fun xs offset hxs => Sound.pure ?_
  subst hs
  exact ⟨ps, fs ++ ws ++ gs ++ os ++ ls ++ xs, by simp, hps, fs, ws, gs, os, ls, xs, rfl, hfs, hws,
    hgs, hos, hls, hxs⟩

/-! ## Statements -/

theorem sound_parseTxControl (ht : V t ∨ t = (py.host line).last) (htype : t.type = .keyword) :
    SoundBefore py line V t (parseTxControl py) (StatementOf py CodeStar CodeParen) := by
  have hword : ∀ k, py.upperText t.value = k → t.lexeme = keyword k := fun k hk =>
    (isKeyword_spec hV ht (isKeyword_of_upper htype hk)).2
  refine SoundBefore.advance (not_eof htype (by decide)) ?_
  by_cases hbegin : py.upperText t.value = "BEGIN"
  · rw [if_pos hbegin, hword _ hbegin]
    refine (sound_matchKeyword hV "TRANSACTION").bind fun s b hb => Sound.pure ?_
    rcases hb with ⟨rfl, rfl⟩ | ⟨rfl, rfl⟩
    · exact StatementOf.beginTransaction
    · exact StatementOf.begin
  rw [if_neg hbegin]
  by_cases hcommit : py.upperText t.value = "COMMIT" ∨ py.upperText t.value = "END"
  · rw [if_pos hcommit]
    refine Sound.pure ?_
    rcases hcommit with h | h
    · rw [hword _ h]
      exact StatementOf.commit
    · rw [hword _ h]
      exact StatementOf.end'
  rw [if_neg hcommit]
  by_cases hrollback : py.upperText t.value = "ROLLBACK"
  · rw [if_pos hrollback, hword _ hrollback]
    exact Sound.pure StatementOf.rollback
  · rw [if_neg hrollback]
    exact fun _ _ => Prog.ReadsAt.fail _

/-- **One statement.** -/
theorem sound_parseStatement (frames : Nat) :
    Sound py line V (parseStatement py frames) (StatementOf py CodeStar CodeParen) := by
  induction frames with
  | zero => exact Sound.ask trivial fun a _ => nomatch a
  | succ frames ih =>
    refine Sound.current fun t ht => ?_
    by_cases htype : t.type = .keyword
    swap
    · rw [if_neg htype]
      exact SoundBefore.failAt _ _
    rw [if_pos htype]
    have hword : ∀ k, py.upperText t.value = k → t.lexeme = keyword k := fun k hk =>
      (isKeyword_spec hV ht (isKeyword_of_upper htype hk)).2
    have hwrap : ∀ {α : Type} {p : P α} {G : List Lexeme → α → Prop} {f : α → Statement},
        Sound py line V p G → (∀ s a, G s a → StatementOf py CodeStar CodeParen s (f a)) →
        SoundBefore py line V t (p >>= fun a => Pure.pure (f a))
          (StatementOf py CodeStar CodeParen) := fun hp hG =>
      Sound.before (hp.bind fun s a ha => Sound.pure (by rw [List.append_nil]; exact hG s a ha))
    by_cases hcreate : py.upperText t.value = "CREATE"
    · rw [if_pos hcreate]
      exact hwrap (sound_parseCreateTable hV) fun _ _ => StatementOf.createTable
    rw [if_neg hcreate]
    by_cases hdrop : py.upperText t.value = "DROP"
    · rw [if_pos hdrop]
      exact hwrap (sound_parseDropTable hV) fun _ _ => StatementOf.dropTable
    rw [if_neg hdrop]
    by_cases hinsert : py.upperText t.value = "INSERT"
    · rw [if_pos hinsert]
      exact hwrap (sound_parseInsert hV) fun _ _ => StatementOf.insert
    rw [if_neg hinsert]
    by_cases hselect : py.upperText t.value = "SELECT"
    · rw [if_pos hselect]
      exact hwrap (sound_parseSelect hV frames) fun _ _ => StatementOf.select
    rw [if_neg hselect]
    by_cases hupdate : py.upperText t.value = "UPDATE"
    · rw [if_pos hupdate]
      exact hwrap (sound_parseUpdate hV frames) fun _ _ => StatementOf.update
    rw [if_neg hupdate]
    by_cases hdelete : py.upperText t.value = "DELETE"
    · rw [if_pos hdelete]
      exact hwrap (sound_parseDelete hV frames) fun _ _ => StatementOf.delete
    rw [if_neg hdelete]
    by_cases hcheckpoint : py.upperText t.value = "CHECKPOINT"
    · rw [if_pos hcheckpoint]
      refine SoundBefore.advance (not_eof htype (by decide)) (Sound.pure ?_)
      rw [hword _ hcheckpoint]
      exact StatementOf.checkpoint
    rw [if_neg hcheckpoint]
    by_cases hexplain : py.upperText t.value = "EXPLAIN"
    · rw [if_pos hexplain]
      refine SoundBefore.advance (not_eof htype (by decide)) (ih.bind fun s stmt hs =>
        Sound.pure ?_)
      rw [hword _ hexplain, List.append_nil]
      exact StatementOf.explain hs
    · rw [if_neg hexplain]
      exact sound_parseTxControl hV ht htype

end

end TinyDB
