import TinyDB.Cli
import TinyDB.LexerLines

/-!
# The lines of a script

How the loop of `_run_batch` takes the lines of a script: blanks are left out,
lines that start with a dot are not taken as SQL, the others wait in the buffer
until one ends with a semicolon.
-/

namespace TinyDB.Cli

open Lib Lexeme

variable {py : Python}

def lineTexts (text : List Char) : List (List Char) := (rawLines text).map (rstripChar '\n')

section
variable {σ : Type} (execute : σ → List Char → Except PyErr Unit × σ)

/-- The state after the texts, unless a built-in exception stops them. -/
def after : σ → List (List Char) → Option σ
  | db, [] => some db
  | db, sql :: sqls =>
    match execute db sql with
    | (.ok (), db) => after db sqls
    | (.error e, db) => if e.isBuiltin then none else after db sqls

end

/-! ## Blanks -/

theorem isSpace_of_isBlank {c : Char} (h : isBlank c = true) : isSpace c = true := by
  rcases isBlank_iff.mp h with rfl | rfl | rfl | rfl <;> decide

theorem lstrip_cons_space {c : Char} (h : isSpace c = true) (text : List Char) :
    lstrip (c :: text) = lstrip text := List.dropWhile_cons_of_pos h

theorem lstrip_cons {c : Char} (h : isSpace c = false) (text : List Char) :
    lstrip (c :: text) = c :: text := List.dropWhile_cons_of_neg (by simp [h])

theorem lstrip_append_space {spaces : List Char} (h : ∀ c ∈ spaces, isSpace c = true)
    (text : List Char) : lstrip (spaces ++ text) = lstrip text :=
  List.dropWhile_append_of_pos h

theorem rstrip_append_space {spaces : List Char} (h : ∀ c ∈ spaces, isSpace c = true)
    (text : List Char) : rstrip (text ++ spaces) = rstrip text := by
  rw [rstrip, List.reverse_append, List.dropWhile_append_of_pos (by simpa using h), rstrip]

/-- What stands before a character that is no blank stays. -/
theorem rstrip_append {c : Char} (h : isSpace c = false) (front text : List Char) :
    ∃ text', rstrip (front ++ c :: text) = front ++ c :: text' ∧ text' <+: text := by
  induction text using List.reverseRecOn with
  | nil =>
    refine ⟨[], ?_, List.prefix_rfl⟩
    rw [rstrip, List.reverse_append, List.reverse_singleton, List.singleton_append,
      List.dropWhile_cons_of_neg (by simp [h]), List.reverse_cons, List.reverse_reverse]
  | append_singleton text d ih =>
    by_cases hd : isSpace d = true
    · obtain ⟨text', htext', hfront⟩ := ih
      refine ⟨text', ?_, hfront.trans (List.prefix_append _ _)⟩
      rw [← htext', ← List.cons_append, ← List.append_assoc,
        rstrip_append_space (by simpa using hd)]
    · refine ⟨text ++ [d], ?_, List.prefix_rfl⟩
      rw [rstrip, ← List.cons_append, ← List.append_assoc, List.reverse_append,
        List.reverse_singleton, List.singleton_append, List.dropWhile_cons_of_neg hd,
        List.reverse_cons, List.reverse_reverse]

/-- The first and the last character that `strip` leaves. -/
theorem strip_cases (text : List Char) :
    (strip text = [] ∧ ∀ c ∈ text, isSpace c = true) ∨
      ∃ spaces c rest, text = spaces ++ c :: rest ∧ (∀ d ∈ spaces, isSpace d = true) ∧
        isSpace c = false ∧ (strip text).head? = some c := by
  by_cases h : ∀ c ∈ text, isSpace c = true
  · refine .inl ⟨?_, h⟩
    have hright : rstrip text = [] := by simpa [rstrip] using rstrip_append_space h []
    rw [strip, hright]
    rfl
  · have hne : text.dropWhile isSpace ≠ [] := fun he => h (List.dropWhile_eq_nil_iff.mp he)
    obtain ⟨c, rest, hrest⟩ := List.exists_cons_of_ne_nil hne
    have hc : isSpace c = false := by
      have hfirst := (longest_takeWhile isSpace text).stop
      rw [hrest] at hfirst
      exact hfirst c rfl
    have hspaces : ∀ d ∈ text.takeWhile isSpace, isSpace d = true := fun d hd =>
      List.mem_takeWhile_imp hd
    have htext : text = text.takeWhile isSpace ++ c :: rest := by
      rw [← hrest, List.takeWhile_append_dropWhile]
    refine .inr ⟨_, c, rest, htext, hspaces, hc, ?_⟩
    obtain ⟨rest', hrest', -⟩ := rstrip_append hc (text.takeWhile isSpace) rest
    rw [strip, htext, hrest', lstrip_append_space hspaces, lstrip_cons hc]
    rfl

/-! ## Blanks and lexemes -/

section
variable (hspace : ∀ c, isSpace c = true → py.isalnum c = false)
include hspace

/-- Of the blanks that `strip` takes the lexer only knows its own. -/
theorem scans_space {c : Char} {text rest : List Char} {l : Option Lexeme}
    (h : Scans py (c :: text) l rest) (hc : isSpace c = true) : l = none ∧ rest = text := by
  have halnum := hspace c hc
  simp only [Python.isalnum, Bool.or_eq_false_iff] at halnum
  obtain ⟨⟨⟨halpha, -⟩, hdigit⟩, -⟩ := halnum
  have hnot : ∀ d, isSpace d = false → c ≠ d := by
    rintro d hd rfl
    rw [hd] at hc
    cases hc
  generalize htext : c :: text = all at h
  cases h with
  | blank hblank =>
    cases htext
    exact ⟨rfl, rfl⟩
  | comment hl =>
    cases htext
    exact absurd rfl (hnot '-' (by decide))
  | string hrest =>
    cases htext
    exact absurd rfl (hnot '\'' (by decide))
  | number hstart hl =>
    cases htext
    rcases hstart with h | ⟨rfl, -⟩
    · rw [hdigit] at h
      cases h
    · exact absurd rfl (hnot '.' (by decide))
  | word hstart hfirst hl =>
    cases htext
    rcases hstart with h | rfl
    · rw [halpha] at h
      cases h
    · exact absurd rfl (hnot '_' (by decide))
  | @operator op _ hfind =>
    have hmem := mem_operatorPatterns hfind
    obtain ⟨d, front, hop⟩ := List.exists_cons_of_ne_nil (operator_length op hmem).1
    rw [hop] at htext
    cases htext
    rcases operator_chars hmem (hop ▸ List.mem_cons_self) with rfl | rfl | rfl
    · exact absurd rfl (hnot '<' (by decide))
    · exact absurd rfl (hnot '>' (by decide))
    · exact absurd rfl (hnot '=' (by decide))
  | punct hp hdot =>
    cases htext
    have hall : (singleCharPunct.all fun p => decide (isSpace p = false)) = true := by decide
    exact absurd rfl (hnot c (of_decide_eq_true (List.all_eq_true.mp hall c hp)))

theorem lexes_lstrip {text : List Char} {ls : List Lexeme} (h : Lexes py text ls) :
    Lexes py (lstrip text) ls := by
  induction text generalizing ls with
  | nil => exact h
  | cons c text ih =>
    by_cases hc : isSpace c = true
    · rw [lstrip_cons_space hc]
      cases h with
      | step hscan hrest =>
        obtain ⟨rfl, rfl⟩ := scans_space hspace hscan hc
        exact ih hrest
    · rw [lstrip_cons (Bool.eq_false_iff.mpr hc)]
      exact h

/-- Blanks in front of a reading may go, its lexemes stay in front. -/
theorem lexes_rest_lstrip {comments : Bool} {text rest : List Char} {ls all : List Lexeme}
    (h : Reads py comments rest text ls) (hall : Lexes py (lstrip text) all) :
    ∃ ls', all = ls ++ ls' ∧ Lexes py (lstrip rest) ls' := by
  induction h with
  | done => exact ⟨all, rfl, hall⟩
  | @step text rest' l ls hscan hcomment hreads ih =>
    cases text with
    | nil => simpa using hscan.shorter
    | cons c text =>
      by_cases hc : isSpace c = true
      · obtain ⟨rfl, rfl⟩ := scans_space hspace hscan hc
        rw [lstrip_cons_space hc] at hall
        exact ih hall
      · rw [lstrip_cons (Bool.eq_false_iff.mpr hc)] at hall
        obtain ⟨ls', rfl, hls'⟩ := (Reads.step hscan hcomment hreads).lexes_rest hall
        exact ⟨ls', rfl, lexes_lstrip hspace hls'⟩

theorem reads_spaces {comments : Bool} {final spaces text : List Char} {ls : List Lexeme}
    (h : Reads py comments final (spaces ++ text) ls) (hspaces : ∀ c ∈ spaces, isSpace c = true)
    (hfinal : ∀ c ∈ final.head?, isSpace c = false) : Reads py comments final text ls := by
  induction spaces with
  | nil => exact h
  | cons c spaces ih =>
    have hc := hspaces c List.mem_cons_self
    refine ih ?_ fun d hd => hspaces d (List.mem_cons_of_mem _ hd)
    generalize htext : c :: spaces ++ text = all at h
    cases h with
    | done =>
      rw [← htext] at hfinal
      rw [hfinal c rfl] at hc
      cases hc
    | step hscan _ hreads =>
      subst htext
      obtain ⟨rfl, rfl⟩ := scans_space hspace hscan hc
      exact hreads

end

/-- The first lexeme of a text on one line, if it is a number or a mark, starts
with the text's first character. -/
theorem lexes_opens {c : Char} {text : List Char} {l : Lexeme} {ls : List Lexeme}
    (h : Lexes py (c :: text) (l :: ls)) (hc : isSpace c = false) (hn : '\n' ∉ c :: text)
    (htype : l.type = .number ∨ l.type = .punct) : l.value.toList.head? = some c := by
  generalize hall : l :: ls = all at h
  generalize htext : c :: text = whole at h
  cases h with
  | nil => cases htext
  | @step _ rest l' ls' hscan hrest =>
    subst htext
    cases l' with
    | some l' =>
      cases hall
      exact hscan.opens.1 htype
    | none =>
      exfalso
      rcases hscan.nothing with ⟨d, hd, htext⟩ | ⟨body, htext, hl⟩
      · obtain ⟨rfl, -⟩ := List.cons.inj htext
        rw [isSpace_of_isBlank hd] at hc
        cases hc
      · rw [htext] at hn
        cases rest with
        | nil =>
          cases hrest with
          | nil => cases hall
          | step hscan' _ => simpa using hscan'.shorter
        | cons d rest =>
          obtain rfl : d = '\n' := by simpa using hl.stop d rfl
          exact hn (List.mem_append_right _ List.mem_cons_self)

/-! ## Lines -/

theorem rawLines_cons {line : List Char} (h : '\n' ∉ line) (rest : List Char) :
    rawLines (line ++ '\n' :: rest) = (line ++ ['\n']) :: rawLines rest := by
  induction line with
  | nil => simp [rawLines]
  | cons c line ih =>
    have hc : c ≠ '\n' := fun e => h (e ▸ List.mem_cons_self)
    rw [List.cons_append, rawLines, if_neg hc, ih fun h' => h (List.mem_cons_of_mem _ h')]
    rfl

theorem rawLines_last {line : List Char} (h : '\n' ∉ line) (hne : line ≠ []) :
    rawLines line = [line] := by
  induction line with
  | nil => exact absurd rfl hne
  | cons c line ih =>
    have hc : c ≠ '\n' := fun e => h (e ▸ List.mem_cons_self)
    rw [rawLines, if_neg hc]
    cases line with
    | nil => rfl
    | cons d line => rw [ih (fun h' => h (List.mem_cons_of_mem _ h')) (by simp)]

theorem rstripChar_line {line : List Char} (h : '\n' ∉ line) : rstripChar '\n' line = line := by
  rw [rstripChar, List.dropWhile_eq_self_iff.mpr, List.reverse_reverse]
  intro hlen
  have hmem : line.reverse[0] ∈ line := List.mem_reverse.mp (List.getElem_mem hlen)
  exact fun e => h (beq_iff_eq.mp e ▸ hmem)

theorem rstripChar_break {line : List Char} (h : '\n' ∉ line) :
    rstripChar '\n' (line ++ ['\n']) = line := by
  have hline := rstripChar_line h
  simpa [rstripChar] using hline

theorem lineTexts_cons {line : List Char} (h : '\n' ∉ line) (rest : List Char) :
    lineTexts (line ++ '\n' :: rest) = line :: lineTexts rest := by
  rw [lineTexts, rawLines_cons h, List.map_cons, rstripChar_break h, lineTexts]

theorem lineTexts_last {line : List Char} (h : '\n' ∉ line) (hne : line ≠ []) :
    lineTexts line = [line] := by
  rw [lineTexts, rawLines_last h hne, List.map_singleton, rstripChar_line h]

/-- A text is one line, or a first line and more. -/
theorem line_cases (text : List Char) :
    '\n' ∉ text ∨ ∃ line rest, '\n' ∉ line ∧ text = line ++ '\n' :: rest := by
  by_cases h : '\n' ∈ text
  · obtain ⟨line, rest, htext, hline⟩ := List.eq_append_cons_of_mem h
    exact .inr ⟨line, rest, hline, htext⟩
  · exact .inl h

theorem lineTexts_no_break (text : List Char) : ∀ line ∈ lineTexts text, '\n' ∉ line := by
  induction hn : text.length using Nat.strong_induction_on generalizing text with
  | _ n ih =>
    rcases line_cases text with h | ⟨line, rest, hline, rfl⟩
    · by_cases hne : text = []
      · subst hne
        nofun
      · rw [lineTexts_last h hne]
        simpa using h
    · rw [lineTexts_cons hline, List.forall_mem_cons]
      refine ⟨hline, ih rest.length ?_ rest rfl⟩
      rw [← hn, List.length_append, List.length_cons]
      omega

theorem dropWhile_dropWhile {p q : Char → Bool} (h : ∀ c, p c = true → q c = true)
    (text : List Char) : (text.dropWhile p).dropWhile q = text.dropWhile q := by
  induction text with
  | nil => rfl
  | cons c text ih =>
    by_cases hc : p c = true
    · rw [List.dropWhile_cons_of_pos hc, List.dropWhile_cons_of_pos (h c hc), ih]
    · rw [List.dropWhile_cons_of_neg hc]

theorem strip_rstripChar (line : List Char) : strip (rstripChar '\n' line) = strip line := by
  have hspace : ∀ c, (c == '\n') = true → isSpace c = true := by
    intro c hc
    rw [beq_iff_eq.mp hc]
    decide
  rw [strip, strip, rstrip, rstrip, rstripChar, List.reverse_reverse, dropWhile_dropWhile hspace]

theorem rstripChar_rstripChar (line : List Char) :
    rstripChar '\n' (rstripChar '\n' line) = rstripChar '\n' line := by
  rw [rstripChar, rstripChar, List.reverse_reverse, dropWhile_dropWhile fun _ h => h]

/-! ## Runs -/

section
variable [PyText] {σ : Type} {execute : σ → List Char → Except PyErr Unit × σ}
  {hasTable : σ → List Char → Bool} {db : σ} {lines : List (List Char)} {line : List Char}
  {buffer : List (List Char)} {hasError : Bool}

theorem runBatch_map_rstrip (db : σ) (lines : List (List Char)) (buffer : List (List Char))
    (hasError : Bool) : runBatch execute hasTable db (lines.map (rstripChar '\n')) buffer hasError =
      runBatch execute hasTable db lines buffer hasError := by
  induction lines generalizing db buffer hasError with
  | nil => rfl
  | cons line lines ih =>
    simp only [List.map_cons, runBatch, strip_rstripChar, rstripChar_rstripChar, ih]

/-- What follows once a text is handed to `execute`. -/
def handOver (execute : σ → List Char → Except PyErr Unit × σ) (hasTable : σ → List Char → Bool)
    (db : σ) (sql : List Char) (lines : List (List Char)) (hasError : Bool) : Batch :=
  match execute db sql with
  | (.ok (), db) => (runBatch execute hasTable db lines [] hasError).hand sql
  | (.error (.parseError _ _ _), db) => (runBatch execute hasTable db lines [] hasError).hand sql
  | (.error e, db) =>
    if e.isBuiltin then ⟨[sql], .error e⟩
    else (runBatch execute hasTable db lines [] true).hand sql

theorem runBatch_blank (h : strip line = []) :
    runBatch execute hasTable db (line :: lines) buffer hasError =
      runBatch execute hasTable db lines buffer hasError := by
  rw [runBatch, if_pos h]

theorem runBatch_dot (hne : strip line ≠ []) (h : startsWith ['.'] (strip line) = true) :
    (runBatch execute hasTable db (line :: lines) buffer hasError).handed = [] ∨
      ∃ failed, runBatch execute hasTable db (line :: lines) buffer hasError =
        runBatch execute hasTable db lines buffer failed := by
  rw [runBatch, if_neg hne, if_pos h]
  cases dotCommand hasTable db (strip line) with
  | none => exact .inl rfl
  | some failed => exact .inr ⟨_, rfl⟩

theorem runBatch_keep (hline : '\n' ∉ line) (hne : strip line ≠ [])
    (hdot : startsWith ['.'] (strip line) = false) (hend : (strip line).getLast? ≠ some ';') :
    runBatch execute hasTable db (line :: lines) buffer hasError =
      runBatch execute hasTable db lines (buffer ++ [line]) hasError := by
  simp only [runBatch, if_neg hne, hdot, rstripChar_line hline, if_neg hend, Bool.false_eq_true,
    if_false]

theorem runBatch_end (hline : '\n' ∉ line) (hdot : startsWith ['.'] (strip line) = false)
    (hend : (strip line).getLast? = some ';')
    (hsql : strip ([' '].intercalate (buffer ++ [line])) ≠ []) :
    runBatch execute hasTable db (line :: lines) buffer hasError =
      handOver execute hasTable db (strip ([' '].intercalate (buffer ++ [line]))) lines
        hasError := by
  have hne : strip line ≠ [] := by
    intro he
    rw [he] at hend
    cases hend
  simp only [runBatch, if_neg hne, hdot, rstripChar_line hline, if_pos hend, if_neg hsql,
    Bool.false_eq_true, if_false]
  rfl

theorem handOver_cases (execute : σ → List Char → Except PyErr Unit × σ)
    (hasTable : σ → List Char → Bool) (db : σ) (sql : List Char) (lines : List (List Char))
    (hasError : Bool) :
    ((handOver execute hasTable db sql lines hasError).handed = [sql] ∧
      ∀ sqls, after execute db (sql :: sqls) = none) ∨
    ∃ db' failed, (handOver execute hasTable db sql lines hasError).handed =
        sql :: (runBatch execute hasTable db' lines [] failed).handed ∧
      ∀ sqls, after execute db (sql :: sqls) = after execute db' sqls := by
  rw [handOver]
  cases hrun : execute db sql with
  | mk result db' =>
    cases result with
    | ok _ => exact .inr ⟨db', hasError, rfl, fun sqls => by rw [after, hrun]⟩
    | error e =>
      cases e <;> first
        | exact .inl ⟨rfl, fun sqls => by rw [after, hrun]; rfl⟩
        | exact .inr ⟨db', _, rfl, fun sqls => by rw [after, hrun]; rfl⟩

/-- The first text handed over; `execute` has no say in it. -/
theorem handOver_head (execute : σ → List Char → Except PyErr Unit × σ)
    (hasTable : σ → List Char → Bool) (db : σ) (sql : List Char) (lines : List (List Char))
    (hasError : Bool) :
    (handOver execute hasTable db sql lines hasError).handed.head? = some sql := by
  rcases handOver_cases execute hasTable db sql lines hasError with
    ⟨h, -⟩ | ⟨db', failed, h, -⟩
  · rw [h]
    rfl
  · rw [h]
    rfl

/-- The lines of the buffer, each with a blank behind it. -/
def leading (buffer : List (List Char)) : List Char := buffer.flatMap (· ++ [' '])

/-- A line and the lines joined to it. -/
def joined (line : List Char) (lines : List (List Char)) : List Char :=
  line ++ lines.flatMap fun l => ' ' :: l

omit [PyText] in
theorem intercalate_eq (buffer : List (List Char)) (line : List Char) (lines : List (List Char)) :
    [' '].intercalate (buffer ++ line :: lines) = leading buffer ++ joined line lines := by
  have hone : ∀ (line : List Char) (lines : List (List Char)),
      [' '].intercalate (line :: lines) = joined line lines := by
    intro line lines
    induction lines generalizing line with
    | nil => simp [joined]
    | cons l lines ih =>
      rw [List.intercalate_cons_cons, ih]
      simp [joined]
  induction buffer with
  | nil => exact hone line lines
  | cons b buffer ih =>
    have hne : buffer ++ line :: lines ≠ [] := by simp
    rw [List.cons_append, List.intercalate_cons_of_ne_nil hne, ih]
    simp [leading]

/-- A line that is put into the buffer. -/
structure Kept (line : List Char) : Prop where
  oneLine : '\n' ∉ line
  blank : strip line ≠ []
  dot : startsWith ['.'] (strip line) = false

omit [PyText] in
theorem strip_ne_nil {text : List Char} {c : Char} (h : c ∈ text) (hc : isSpace c = false) :
    strip text ≠ [] := by
  intro he
  rcases strip_cases text with ⟨-, hall⟩ | ⟨_, d, _, -, -, -, hhead⟩
  · rw [hall c h] at hc
    cases hc
  · rw [he] at hhead
    cases hhead

omit [PyText] in
theorem Kept.join_ne_nil (h : Kept line) (buffer more : List (List Char)) :
    strip (leading buffer ++ joined line more) ≠ [] := by
  rcases strip_cases line with ⟨hnil, -⟩ | ⟨spaces, c, rest, hline, -, hc, -⟩
  · exact absurd hnil h.blank
  · refine strip_ne_nil (List.mem_append_right _ (List.mem_append_left _ ?_)) hc
    rw [hline]
    simp

omit [PyText] in
theorem leading_append (buffer : List (List Char)) (line line' : List Char)
    (more : List (List Char)) :
    leading (buffer ++ [line]) ++ joined line' more =
      leading buffer ++ joined line (line' :: more) := by
  simp [leading, joined]

theorem handed_dot (hne : strip line ≠ []) (hdot : startsWith ['.'] (strip line) = true)
    {sql : List Char}
    (h : (runBatch execute hasTable db (line :: lines) buffer hasError).handed.head? = some sql) :
    ∃ failed, (runBatch execute hasTable db lines buffer failed).handed.head? = some sql := by
  have hrun : (runBatch execute hasTable db (line :: lines) buffer hasError).handed = [] ∨ _ :=
    runBatch_dot hne hdot
  rcases hrun with hnil | ⟨failed, heq⟩
  · rw [hnil] at h
    cases h
  · exact ⟨failed, heq ▸ h⟩

/-- A kept line is handed over with the buffer or joins it. -/
theorem handed_kept (hline : Kept line) {sql : List Char}
    (h : (runBatch execute hasTable db (line :: lines) buffer hasError).handed.head? = some sql) :
    sql = strip (leading buffer ++ joined line []) ∨
      (runBatch execute hasTable db lines (buffer ++ [line]) hasError).handed.head? = some sql := by
  by_cases hend : (strip line).getLast? = some ';'
  · have hsql : strip ([' '].intercalate (buffer ++ [line])) ≠ [] := by
      rw [intercalate_eq]
      exact hline.join_ne_nil buffer []
    rw [runBatch_end hline.oneLine hline.dot hend hsql, handOver_head, intercalate_eq] at h
    exact .inl (Option.some.inj h).symm
  · rw [runBatch_keep hline.oneLine hline.blank hline.dot hend] at h
    exact .inr h

/-- The first text handed over is the buffer and lines that were kept. -/
theorem handed_cases (hlines : ∀ l ∈ lines, '\n' ∉ l) {sql : List Char}
    (h : (runBatch execute hasTable db lines buffer hasError).handed.head? = some sql) :
    ∃ line more, Kept line ∧ (∀ l ∈ more, Kept l) ∧
      sql = strip (leading buffer ++ joined line more) := by
  induction lines generalizing db buffer hasError with
  | nil => cases h
  | cons line lines ih =>
    obtain ⟨hline, hrest⟩ := List.forall_mem_cons.mp hlines
    by_cases hblank : strip line = []
    · rw [runBatch_blank hblank] at h
      exact ih hrest h
    by_cases hdot : startsWith ['.'] (strip line) = true
    · obtain ⟨failed, hrun⟩ := handed_dot hblank hdot h
      exact ih hrest hrun
    · have hkept : Kept line := ⟨hline, hblank, Bool.eq_false_iff.mpr hdot⟩
      rcases handed_kept hkept h with rfl | h
      · exact ⟨line, [], hkept, nofun, rfl⟩
      · obtain ⟨line', more, hline', hmore, rfl⟩ := ih hrest h
        exact ⟨line, line' :: more, hkept, List.forall_mem_cons.mpr ⟨hline', hmore⟩,
          by rw [leading_append]⟩

/-- A line that was kept is in the text handed over. -/
theorem handed_of_kept (hline : Kept line) (hlines : ∀ l ∈ lines, '\n' ∉ l) {sql : List Char}
    (h : (runBatch execute hasTable db (line :: lines) buffer hasError).handed.head? = some sql) :
    ∃ more, (∀ l ∈ more, Kept l) ∧ sql = strip (leading buffer ++ joined line more) := by
  rcases handed_kept hline h with rfl | h
  · exact ⟨[], nofun, rfl⟩
  · obtain ⟨line', more, hline', hmore, rfl⟩ := handed_cases hlines h
    exact ⟨line' :: more, List.forall_mem_cons.mpr ⟨hline', hmore⟩, by rw [leading_append]⟩

end

end TinyDB.Cli
