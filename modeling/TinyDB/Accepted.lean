import TinyDB.LexerSpec
import TinyDB.ParseErrors
import TinyDB.ProjectionStarts
import TinyDB.StatementSound

/-!
# What the parser accepts

A text that `parse` accepts is a statement of the grammar, up to four things that the code
lets pass: a literal without its closing quote, a `;` anywhere, a string for the `*` of a
projection, and a string for the parenthesis of an INSERT.
-/

namespace TinyDB

open Lib Lexeme Grammar

/-- The lexemes of a text, an open literal closed at its end. -/
def lexemes (py : Python) (sql : String) : List Lexeme :=
  match tokenize py sql with
  | .ok tokens => (tokens.map Token.lexeme).dropLast
  | .error _ => []

/-- What the parser gets to see. -/
def statementLexemes (py : Python) (sql : String) : List Lexeme :=
  (lexemes py sql).filter (· ≠ punct ";")

/-- A statement of the documented grammar and at most one `;` behind it. -/
def IsStatement (py : Python) (sql : String) (stmt : Statement) : Prop :=
  ∃ ls, (Lexes py sql.toList ls ∨ Lexes py sql.toList (ls ++ [punct ";"])) ∧ punct ";" ∉ ls ∧
    Documented py ls stmt

/-- `INSERT INTO t` and then the string `(`. -/
def opensQuoted : List Lexeme → Bool
  | [] => false
  | l :: ls =>
    if l = keyword "EXPLAIN" then opensQuoted ls
    else l = keyword "INSERT" && ls[2]? = some (string "(")

structure WellWritten (py : Python) (sql : String) : Prop where
  closed : endsOpen .text sql.toList = false
  semicolon : punct ";" ∉ (lexemes py sql).dropLast
  star : string "*" ∉ projectionStarts (statementLexemes py sql)
  paren : opensQuoted (statementLexemes py sql) = false

/-! ## The parenthesis of an INSERT -/

section

variable {py : Python} {star : Lexeme → Prop} {ls : List Lexeme} {stmt : Statement}

theorem opensQuoted_of_documented (h : StatementOf py star (· = punct "(") ls stmt) :
    opensQuoted ls = false := by
  induction h with
  | insert hs =>
    obtain ⟨columns, values, rfl, hcolumns, -⟩ := hs
    rcases hcolumns with ⟨rfl, -⟩ | ⟨_, s, names, rfl, rfl, -⟩ <;> rfl
  | explain _ ih => exact ih
  | createTable hs =>
    obtain ⟨_, _, rfl, -⟩ := hs
    rfl
  | dropTable hs =>
    obtain ⟨_, _, rfl, -⟩ := hs
    rfl
  | select hs =>
    obtain ⟨_, _, rfl, -⟩ := hs
    rfl
  | update hs =>
    obtain ⟨_, _, rfl, -⟩ := hs
    rfl
  | delete hs =>
    obtain ⟨_, rfl, -⟩ := hs
    rfl
  | begin | beginTransaction | commit | end' | rollback | checkpoint => rfl

theorem columns_documented (h : StatementOf py star CodeParen ls stmt)
    (hquoted : opensQuoted ls = false) : StatementOf py star (· = punct "(") ls stmt := by
  induction h with
  | insert hs =>
    obtain ⟨columns, values, rfl, hcolumns, hvalues⟩ := hs
    refine StatementOf.insert ⟨columns, values, rfl, ?_, hvalues⟩
    rcases hcolumns with hnone | ⟨l, s, names, hl, rfl, hs⟩
    · exact Or.inl hnone
    · refine Or.inr ⟨l, s, names, hl.resolve_right ?_, rfl, hs⟩
      rintro rfl
      cases hquoted
  | explain _ ih => exact StatementOf.explain (ih hquoted)
  | createTable hs => exact StatementOf.createTable hs
  | dropTable hs => exact StatementOf.dropTable hs
  | select hs => exact StatementOf.select hs
  | update hs => exact StatementOf.update hs
  | delete hs => exact StatementOf.delete hs
  | begin => exact StatementOf.begin
  | beginTransaction => exact StatementOf.beginTransaction
  | commit => exact StatementOf.commit
  | end' => exact StatementOf.end'
  | rollback => exact StatementOf.rollback
  | checkpoint => exact StatementOf.checkpoint

end

/-! ## The semicolons -/

theorem filter_eq_or_last {α : Type} [DecidableEq α] {a : α} {l : List α} (h : a ∉ l.dropLast) :
    l = l.filter (· ≠ a) ∨ l = l.filter (· ≠ a) ++ [a] := by
  rcases List.eq_nil_or_concat l with rfl | ⟨front, last, rfl⟩
  · exact Or.inl rfl
  · rw [List.concat_eq_append, List.dropLast_concat] at h
    have hfront : front.filter (· ≠ a) = front := by
      rw [List.filter_eq_self]
      intro b hb
      simpa using fun hba : b = a => h (hba ▸ hb)
    rw [List.concat_eq_append, List.filter_append, hfront]
    by_cases hlast : last = a
    · right
      simp [hlast]
    · left
      simp [hlast]

theorem withoutSemicolons_lexemes (tokens : List Token) :
    (withoutSemicolons tokens).map Token.lexeme =
      (tokens.map Token.lexeme).filter (· ≠ punct ";") := by
  rw [withoutSemicolons, List.filter_map]
  congr 1
  refine List.filter_congr fun t _ => ?_
  simp [Token.lexeme, punct]

/-! ## From the run to the derivation -/

variable {py : Python} {sql : String} {stmt : Statement}

theorem run_expectType_eof {host : Prog.Host Token ParseFailure PyErr Question.Answer}
    {ts rest : List Token} {t : Token} (h : (expectType py .eof).run host ts = .ok (t, rest)) :
    (ts.head?.getD host.last).type = .eof := by
  change (if (ts.head?.getD host.last).type ≠ .eof then
    failAt ("expected " ++ TokenType.eof.str ++ ", got " ++
      py.repr (ts.head?.getD host.last).value) (ts.head?.getD host.last)
    else advance).run host ts = .ok (t, rest) at h
  by_contra hne
  rw [if_pos hne] at h
  cases h

/-- **Every accepted text is a statement of the grammar as the code reads it.** -/
theorem statementOf_parse (h : parse py sql = .ok stmt) : ∃ tokens,
    tokenize py sql = .ok tokens ∧ tokens.map Token.lexeme = lexemes py sql ++ [⟨.eof, ""⟩] ∧
      (∀ l ∈ lexemes py sql, l.Proper py) ∧
      StatementOf py CodeStar CodeParen (statementLexemes py sql) stmt := by
  simp only [parse, bind_eq_ok, Except.ok.injEq] at h
  obtain ⟨tokens, htokens, ⟨stmt', behind⟩, hrun, rfl⟩ := h
  have hproper : ∀ t ∈ tokens, t.Proper py := by
    rcases tokenizeFrom_cases py (Nat.le_refl sql.toList.length) 1 1 with
      ⟨tokens', htokens', hproper⟩ | ⟨_, _, _, herror⟩
    · obtain rfl := Except.ok.inj (htokens.symm.trans htokens')
      exact hproper
    · cases htokens.symm.trans herror
  obtain ⟨body, hbody, hne⟩ := tokenizeFrom_eof htokens
  have hlexemes : lexemes py sql = body := by
    rw [lexemes, htokens]
    exact (congrArg List.dropLast hbody).trans List.dropLast_concat
  refine ⟨tokens, htokens, hlexemes ▸ hbody, fun l hl => ?_, ?_⟩
  · have hmem : l ∈ tokens.map Token.lexeme := hbody ▸ List.mem_append_left _ (hlexemes ▸ hl)
    obtain ⟨t, ht, rfl⟩ := List.mem_map.mp hmem
    exact hproper t ht
  · have hfiltered : ∀ t ∈ withoutSemicolons tokens, t.Proper py :=
      fun t ht => hproper t (List.mem_of_mem_filter ht)
    have hmap : (withoutSemicolons tokens).map Token.lexeme =
        statementLexemes py sql ++ [⟨.eof, ""⟩] := by
      rw [withoutSemicolons_lexemes, hbody, statementLexemes, hlexemes, List.filter_append]
      rfl
    generalize withoutSemicolons tokens = filtered at hrun hfiltered hmap
    generalize (filtered.getLast?.map Token.line).getD 1 = line at hrun
    simp only [parseAll, Prog.run_bind, bind_eq_ok] at hrun
    obtain ⟨⟨stmt'', rest⟩, hstatement, ⟨t, rest'⟩, heof, hpure⟩ := hrun
    cases hpure
    obtain ⟨seg, rfl, hseg, hderives⟩ := (sound_parseStatement (fun _ ht => ht) py.frames filtered
      hfiltered).2 stmt'' rest hstatement
    have hlast := run_expectType_eof heof
    have hinside : ∀ l ∈ statementLexemes py sql, l.type ≠ .eof :=
      fun l hl => hne l (hlexemes ▸ List.mem_of_mem_filter hl)
    -- it takes no EOF, and what it leaves starts with one
    rw [List.map_append] at hmap
    have hall : seg.map Token.lexeme = statementLexemes py sql := by
      rcases List.append_eq_append_iff.mp hmap with ⟨x, hx, hrest⟩ | ⟨x, hx, hrest⟩
      · cases x with
        | nil => simpa using hx.symm
        | cons l x =>
          rw [List.cons_append] at hrest
          cases rest with
          | nil => simp at hrest
          | cons u rest =>
            obtain ⟨hhead, -⟩ := List.cons.inj hrest
            refine absurd ?_ (hinside l (by rw [hx]; simp))
            rw [← hhead]
            exact hlast
      · cases x with
        | nil => simpa using hx
        | cons l x =>
          obtain ⟨hl, -⟩ := List.cons.inj hrest
          have hmem : l ∈ seg.map Token.lexeme := by rw [hx]; simp
          obtain ⟨u, hu, rfl⟩ := List.mem_map.mp hmem
          refine absurd ?_ (hseg u hu)
          exact congrArg Lexeme.type hl.symm
    exact hall ▸ hderives

/-! ## When the text is as the grammar wants it -/

theorem countP_eq_of_imp {α : Type} {p q : α → Bool} {l : List α}
    (himp : ∀ a, p a = true → q a = true) (h : l.countP p = l.countP q) :
    ∀ a ∈ l, q a = true → p a = true := by
  induction l with
  | nil => nofun
  | cons b l ih =>
    have hle : l.countP p ≤ l.countP q := List.countP_mono_left fun a _ => himp a
    rw [List.countP_cons, List.countP_cons] at h
    have hb : q b = true → p b = true := by
      intro hq
      by_contra hp
      rw [if_neg hp, if_pos hq] at h
      omega
    have htail : l.countP p = l.countP q := by
      by_cases hq : q b = true
      · rw [if_pos hq, if_pos (hb hq)] at h
        omega
      · rw [if_neg hq, if_neg (fun hp => hq (himp b hp))] at h
        exact h
    intro a ha hqa
    rcases List.mem_cons.mp ha with rfl | ha
    · exact hb hqa
    · exact ih htail a ha hqa

instance : DecidablePred CodeStar := fun l => by unfold CodeStar; infer_instance

theorem lexes_iff_lexemes {tokens : List Token} (htokens : tokenize py sql = .ok tokens)
    (hmap : tokens.map Token.lexeme = lexemes py sql ++ [⟨.eof, ""⟩]) (ls : List Lexeme) :
    Lexes py sql.toList ls ↔ endsOpen .text sql.toList = false ∧ lexemes py sql = ls := by
  rw [lexes_iff]
  refine and_congr_right fun _ => ⟨?_, ?_⟩
  · rintro ⟨tokens', htokens', hmap'⟩
    obtain rfl := Except.ok.inj (htokens.symm.trans htokens')
    exact List.append_cancel_right (hmap.symm.trans hmap')
  · rintro rfl
    exact ⟨tokens, htokens, hmap⟩

theorem ident_star_not_mem (hproper : ∀ l ∈ lexemes py sql, l.Proper py) :
    ident "*" ∉ statementLexemes py sql := by
  intro hmem
  rcases (hproper _ (List.mem_of_mem_filter hmem)).marked (Or.inl rfl) with htype | htype
  · cases htype
  · cases htype

theorem wellWritten_of_isStatement (h : parse py sql = .ok stmt)
    (hstatement : IsStatement py sql stmt) : WellWritten py sql := by
  obtain ⟨tokens, htokens, hmap, hproper, hderives⟩ := statementOf_parse h
  have hident := ident_star_not_mem hproper
  obtain ⟨ls, hlexes, hsemicolon, hdocumented⟩ := hstatement
  have hlexemes : endsOpen .text sql.toList = false ∧
      (lexemes py sql = ls ∨ lexemes py sql = ls ++ [punct ";"]) := by
    rw [lexes_iff_lexemes htokens hmap, lexes_iff_lexemes htokens hmap] at hlexes
    exact and_or_left.mpr hlexes
  have hfilter : ls.filter (· ≠ punct ";") = ls := by
    rw [List.filter_eq_self]
    intro l hl
    simpa using fun hl' : l = punct ";" => hsemicolon (hl' ▸ hl)
  have hls : statementLexemes py sql = ls := by
    rcases hlexemes.2 with heq | heq
    · rw [statementLexemes, heq, hfilter]
    · rw [statementLexemes, heq, List.filter_append, hfilter]
      simp
  rw [hls] at hderives hident
  refine ⟨hlexemes.1, ?_, ?_, by rw [hls]; exact opensQuoted_of_documented hdocumented⟩
  · rcases hlexemes.2 with heq | heq
    · rw [heq]
      exact fun hmem => hsemicolon (List.mem_of_mem_dropLast hmem)
    · rw [heq, List.dropLast_concat]
      exact hsemicolon
  · -- both derivations have the stars of the one tree
    rw [hls]
    have hcode := countP_projectionStarts (fun _ hl => hl) hident hderives
    have hgrammar := countP_projectionStarts (fun _ hl => Or.inl hl) hident hdocumented
    intro hmem
    have hmark := countP_eq_of_imp (fun l hl => by simpa [CodeStar] using Or.inl (by simpa using hl))
      (hgrammar.trans hcode.symm) (string "*") hmem (by decide)
    exact absurd hmark (by decide)

theorem isStatement_of_wellWritten (h : parse py sql = .ok stmt) (hwell : WellWritten py sql) :
    IsStatement py sql stmt := by
  obtain ⟨tokens, htokens, hmap, hproper, hderives⟩ := statementOf_parse h
  have hident := ident_star_not_mem hproper
  refine ⟨statementLexemes py sql, ?_, by simp [statementLexemes], ?_⟩
  · rw [lexes_iff_lexemes htokens hmap, lexes_iff_lexemes htokens hmap, ← and_or_left]
    exact ⟨hwell.closed, filter_eq_or_last hwell.semicolon⟩
  · have hstar : ∀ l ∈ projectionStarts (statementLexemes py sql),
        (CodeStar l ↔ l = punct "*") := fun l hl =>
      or_iff_left fun hl' => hwell.star (hl' ▸ hl)
    exact statementOf_congr (fun _ hl => hl) hident (columns_documented hderives hwell.paren) hstar

end TinyDB
