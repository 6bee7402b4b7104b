import TinyDB.StatementComplete

/-!
# The parser accepts exactly the grammar

With three frames for each lexeme, `parse` returns a statement if and only if the lexemes of
the text derive it: the stack is the one thing that a derivation can fail on. A text is no
two statements.
-/

namespace TinyDB

open Lib Lexeme Grammar

variable {py : Python} {sql : String} {stmt : Statement} {ls : List Lexeme}

theorem marked_of_proper (h : ∀ l ∈ ls, l.Proper py) : Marked ls := by
  intro l hl hvalue
  obtain ⟨type, value⟩ := l
  obtain rfl : value = "*" := hvalue
  rcases (h _ hl).marked (Or.inl rfl) with htype | htype
  · obtain rfl : type = .punct := htype
    exact Or.inl rfl
  · obtain rfl : type = .string := htype
    exact Or.inr rfl

/-- The tokens of a text are its lexemes and an EOF, and every lexeme is proper. -/
theorem tokens_of_tokenize {tokens : List Token} (h : tokenize py sql = .ok tokens) :
    tokens.map Token.lexeme = lexemes py sql ++ [⟨.eof, ""⟩] ∧ ∀ l ∈ lexemes py sql, l.Proper py := by
  have hproper : ∀ t ∈ tokens, t.Proper py := by
    rcases tokenizeFrom_cases py (Nat.le_refl sql.toList.length) 1 1 with
      ⟨tokens', htokens', hproper⟩ | ⟨_, _, _, herror⟩
    · obtain rfl := Except.ok.inj (h.symm.trans htokens')
      exact hproper
    · cases h.symm.trans herror
  obtain ⟨body, hbody, -⟩ := tokenizeFrom_eof h
  have hlexemes : lexemes py sql = body := by
    rw [lexemes, h]
    exact (congrArg List.dropLast hbody).trans List.dropLast_concat
  refine ⟨hlexemes ▸ hbody, fun l hl => ?_⟩
  have hmem : l ∈ tokens.map Token.lexeme := hbody ▸ List.mem_append_left _ (hlexemes ▸ hl)
  obtain ⟨t, ht, rfl⟩ := List.mem_map.mp hmem
  exact hproper t ht

/-- What is left without the semicolons: the lexemes of the statement and the EOF. -/
theorem withoutSemicolons_tokens {tokens : List Token} (h : tokenize py sql = .ok tokens) :
    ∃ ts last, withoutSemicolons tokens = ts ++ [last] ∧
      ts.map Token.lexeme = statementLexemes py sql ∧ last.type = .eof := by
  obtain ⟨hmap, -⟩ := tokens_of_tokenize h
  have hfiltered : (withoutSemicolons tokens).map Token.lexeme =
      statementLexemes py sql ++ [⟨.eof, ""⟩] := by
    rw [withoutSemicolons_lexemes, hmap, List.filter_append]
    rfl
  obtain ⟨ts, ends, heq, hts, hends⟩ := List.map_eq_append_iff.mp hfiltered
  obtain ⟨last, rfl, hlast⟩ := map_eq_singleton hends
  exact ⟨ts, last, heq, hts, congrArg Lexeme.type hlast⟩

theorem marked_statementLexemes {tokens : List Token} (h : tokenize py sql = .ok tokens) :
    Marked (statementLexemes py sql) :=
  (marked_of_proper (tokens_of_tokenize h).2).mono fun _ hl => List.mem_of_mem_filter hl

/-- A text that derives a statement is read as it. -/
theorem parse_of_statementOf {tokens : List Token} (htokens : tokenize py sql = .ok tokens)
    (h : StatementOf py CodeStar CodeParen (statementLexemes py sql) stmt)
    (hframes : 3 * (statementLexemes py sql).length < py.frames) : parse py sql = .ok stmt := by
  obtain ⟨ts, last, hfiltered, hts, hlast⟩ := withoutSemicolons_tokens htokens
  have hrun : ∀ line, (parseAll py).run (py.host line) (ts ++ [last]) = .ok (stmt, []) := by
    intro line
    have hstatement : (parseStatement py py.frames).run (py.host line) (ts ++ [last]) =
        .ok (stmt, [last]) :=
      yields_statement h (marked_statementLexemes htokens) hframes ts [last] hts (Or.inl hlast)
    rw [parseAll, Prog.run_bind, hstatement, ok_bind, Prog.run_bind, run_expectType hlast, ok_bind]
    rfl
  rw [parse, htokens, ok_bind, hfiltered]
  simp only [hrun, ok_bind]

/-- **The parser accepts exactly the grammar.** With three frames for each lexeme, a text is
read as a statement if and only if it splits into lexemes and these derive the statement. -/
theorem parse_eq_ok_iff (hframes : 3 * (statementLexemes py sql).length < py.frames) :
    parse py sql = .ok stmt ↔ (∃ tokens, tokenize py sql = .ok tokens) ∧
      StatementOf py CodeStar CodeParen (statementLexemes py sql) stmt := by
  constructor
  · intro h
    obtain ⟨tokens, htokens, -, -, hstatement⟩ := statementOf_parse h
    exact ⟨⟨tokens, htokens⟩, hstatement⟩
  · rintro ⟨⟨tokens, htokens⟩, h⟩
    exact parse_of_statementOf htokens h hframes

theorem parse_select_iff : parse Python.asciiTables "SELECT a FROM t;" =
      .ok (.select { projections := [.column "a"], table := "t" }) ↔
    (∃ tokens, tokenize Python.asciiTables "SELECT a FROM t;" = .ok tokens) ∧
      StatementOf Python.asciiTables CodeStar CodeParen
        (statementLexemes Python.asciiTables "SELECT a FROM t;")
        (.select { projections := [.column "a"], table := "t" }) :=
  parse_eq_ok_iff (by decide +kernel)

/-! ## The documented grammar -/

theorem statementOf_codeParen {star : Lexeme → Prop}
    (h : StatementOf py star (· = punct "(") ls stmt) : StatementOf py star CodeParen ls stmt := by
  induction h with
  | insert hs =>
    obtain ⟨columns, values, rfl, hcolumns, hvalues⟩ := hs
    refine StatementOf.insert ⟨columns, values, rfl, hcolumns.imp_right ?_, hvalues⟩
    rintro ⟨l, s, names, rfl, hnames⟩
    exact ⟨_, s, names, Or.inl rfl, hnames⟩
  | explain _ ih => exact StatementOf.explain ih
  | createTable hs => exact StatementOf.createTable hs
  | dropTable hs => exact StatementOf.dropTable hs
  | select hs => exact StatementOf.select hs
  | update hs => exact StatementOf.update hs
  | delete hs => exact StatementOf.delete hs
  | begin => exact StatementOf.begin
  | beginTransaction => exact StatementOf.beginTransaction
  | commit => exact StatementOf.commit
  | end' => exact StatementOf.end'
  | rollback => exact StatementOf.rollback
  | checkpoint => exact StatementOf.checkpoint

/-- **A documented statement is read as what it says**, unless a string `'*'` stands where a
projection may begin. -/
theorem parse_of_isStatement (h : IsStatement py sql stmt)
    (hstar : string "*" ∉ projectionStarts (statementLexemes py sql))
    (hframes : 3 * (statementLexemes py sql).length < py.frames) : parse py sql = .ok stmt := by
  obtain ⟨ls, hlexes, hsemicolon, hdocumented⟩ := h
  obtain ⟨tokens, htokens, hls⟩ : ∃ tokens, tokenize py sql = .ok tokens ∧
      (lexemes py sql = ls ∨ lexemes py sql = ls ++ [punct ";"]) := by
    rcases hlexes with hlexes | hlexes
    · obtain ⟨-, tokens, htokens, hmap⟩ := (lexes_iff py sql _).mp hlexes
      exact ⟨tokens, htokens, Or.inl
        (List.append_cancel_right ((tokens_of_tokenize htokens).1.symm.trans hmap))⟩
    · obtain ⟨-, tokens, htokens, hmap⟩ := (lexes_iff py sql _).mp hlexes
      exact ⟨tokens, htokens, Or.inr
        (List.append_cancel_right ((tokens_of_tokenize htokens).1.symm.trans hmap))⟩
  have hfilter : ls.filter (· ≠ punct ";") = ls := by
    rw [List.filter_eq_self]
    intro l hl
    simpa using fun hl' : l = punct ";" => hsemicolon (hl' ▸ hl)
  obtain rfl : statementLexemes py sql = ls := by
    rcases hls with heq | heq
    · rw [statementLexemes, heq, hfilter]
    · rw [statementLexemes, heq, List.filter_append, hfilter]
      simp
  have hident := ident_star_not_mem (tokens_of_tokenize htokens).2
  refine parse_of_statementOf htokens (statementOf_codeParen ?_) hframes
  exact statementOf_congr (fun _ hl => Or.inl hl) hident hdocumented fun l hl =>
    ⟨Or.inl, fun h => h.resolve_right fun hl' => hstar (hl' ▸ hl)⟩

theorem parse_commit : parse Python.asciiTables "COMMIT;" = .ok .commit := by
  have hlexes : Lexes Python.asciiTables "COMMIT;".toList (words ["COMMIT"] ++ [punct ";"]) :=
    (lexes_iff _ _ _).mpr ⟨by decide +kernel, _, rfl, by decide +kernel⟩
  exact parse_of_isStatement ⟨words ["COMMIT"], Or.inr hlexes, by decide, .commit⟩
    (by decide +kernel) (by decide +kernel)

/-! ## No text is two statements -/

/-- **The grammar is unambiguous**: proper lexemes derive at most one statement. -/
theorem statementOf_unique {stmt' : Statement} (hproper : ∀ l ∈ ls, l.Proper py)
    (h : StatementOf py CodeStar CodeParen ls stmt) :
    StatementOf py CodeStar CodeParen ls stmt' ↔ stmt' = stmt := by
  refine ⟨fun h' => ?_, fun heq => heq ▸ h⟩
  -- the parser reads either of them off the same tokens
  have hmap : (ls.map fun l => (⟨l.type, l.value, 1, 1⟩ : Token)).map Token.lexeme = ls := by
    rw [List.map_map]
    exact List.map_id ls
  have hmarked := marked_of_proper hproper
  have hread : YieldsIn py 1 (Starts []) (parseStatement py (3 * ls.length + 1)) ls stmt :=
    yields_statement h hmarked (Nat.lt_succ_self _)
  have hread' : YieldsIn py 1 (Starts []) (parseStatement py (3 * ls.length + 1)) ls stmt' :=
    yields_statement h' hmarked (Nat.lt_succ_self _)
  have hrun := (hread' _ [] hmap (Or.inl rfl)).symm.trans (hread _ [] hmap (Or.inl rfl))
  exact congrArg Prod.fst (Except.ok.inj hrun)

theorem statementOf_unique_explain :
    StatementOf Python.asciiTables CodeStar CodeParen (words ["EXPLAIN", "BEGIN"]) .begin ↔
      Statement.begin = .explain .begin := by
  refine statementOf_unique (fun l hl => ?_) (.explain .begin)
  have hword : l = keyword "EXPLAIN" ∨ l = keyword "BEGIN" := by simpa [words] using hl
  rcases hword with rfl | rfl
  all_goals exact {
    keyword := fun _ => by simp [keyword, keywords]
    operator := fun h => by cases h
    number := fun h => by cases h
    eof := fun h => by cases h
    marked := fun h => absurd h (by decide) }

end TinyDB
