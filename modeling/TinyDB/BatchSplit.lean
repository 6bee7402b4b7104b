import Mathlib
import TinyDB.BatchLines

/-!
# Splitting a script

Which texts `_run_batch` hands to `execute` for a script whose statements each
end with a `;` at the end of a line. The lines of a statement are joined by a
blank, so a comment takes the following lines with it and a line break inside a
literal is lost; a line that starts with a dot is not taken as SQL at all.
-/

namespace TinyDB.Cli

open Lib Lexeme

variable {py : Python}

/-! ## Scripts -/

/-- A statement of a script: lexemes, then a `;` with nothing but blanks behind it
on its line. -/
def ScriptStatement (py : Python) (text : List Char) : Prop :=
  ∃ ls pad, Reads py true (';' :: pad) text ls ∧ punct ";" ∉ ls ∧
    ∀ c ∈ pad, isBlank c = true ∧ c ≠ '\n'

def script (stmts : List (List Char)) (tail : List Char) : List Char :=
  stmts.flatMap (· ++ ['\n']) ++ tail

def SameTokens (py : Python) (text text' : List Char) : Prop :=
  ∃ tokens tokens', tokenize py (String.ofList text) = .ok tokens ∧
    tokenize py (String.ofList text') = .ok tokens' ∧
    tokens.map Token.lexeme = tokens'.map Token.lexeme

/-- The lines of the text may be joined: no comment, no line break inside a
literal, no line that looks like a dot-command. -/
structure Joinable (text : List Char) : Prop where
  tangled : tangled false text = false
  dots : ∀ line ∈ lineTexts text, startsWith ['.'] (strip line) = false

/-- The lines that are not blank, joined. -/
def batchText (text : List Char) : List Char :=
  strip ([' '].intercalate ((lineTexts text).filter fun line => strip line ≠ []))

/-! ## One statement -/

theorem lstrip_concat {c : Char} (hc : isSpace c = false) (text : List Char) :
    lstrip (text ++ [c]) = lstrip text ++ [c] := by
  induction text with
  | nil => exact lstrip_cons hc []
  | cons d text ih =>
    by_cases hd : isSpace d = true
    · rw [List.cons_append, lstrip_cons_space hd, lstrip_cons_space hd, ih]
    · rw [List.cons_append, lstrip_cons (Bool.eq_false_iff.mpr hd),
        lstrip_cons (Bool.eq_false_iff.mpr hd), List.cons_append]

theorem rstrip_concat {c : Char} (hc : isSpace c = false) (text : List Char) :
    rstrip (text ++ [c]) = text ++ [c] := by
  obtain ⟨text', htext', hpre⟩ := rstrip_append hc text []
  rw [htext', List.prefix_nil.mp hpre]

/-- A line that ends with a semicolon once it is stripped. -/
theorem semicolon_of_getLast {line : List Char} (h : (strip line).getLast? = some ';') :
    ∃ front spaces, line = front ++ ';' :: spaces ∧ ∀ c ∈ spaces, isSpace c = true := by
  have hright : (rstrip line).getLast? = some ';' := by
    obtain ⟨front, hfront⟩ := List.dropWhile_suffix isSpace (l := rstrip line)
    rw [← hfront, List.getLast?_append]
    change (strip line).getLast?.or front.getLast? = some ';'
    rw [h]
    rfl
  obtain ⟨front, hfront⟩ := List.getLast?_eq_some_iff.mp hright
  refine ⟨front, (line.reverse.takeWhile isSpace).reverse, ?_, fun c hc => ?_⟩
  · have hline := congrArg List.reverse
      (List.takeWhile_append_dropWhile (p := isSpace) (l := line.reverse))
    rw [List.reverse_append, List.reverse_reverse] at hline
    rw [← hline]
    change rstrip line ++ _ = _
    rw [hfront]
    simp
  · exact List.mem_takeWhile_imp (List.mem_reverse.mp hc)

theorem dot_of_startsWith {line : List Char} (h : startsWith ['.'] (strip line) = true) :
    strip line ≠ [] ∧
      ∃ spaces rest, line = spaces ++ '.' :: rest ∧ ∀ c ∈ spaces, isSpace c = true := by
  rcases strip_cases line with ⟨hnil, -⟩ | ⟨spaces, c, rest, hline, hspaces, -, hhead⟩
  · rw [hnil] at h
    cases h
  · obtain ⟨text, htext⟩ := List.isPrefixOf_iff_prefix.mp h
    rw [← htext] at hhead
    cases hhead
    exact ⟨by rw [← htext]; simp, spaces, rest, hline, hspaces⟩

/-- What the buffer holds is read before anything that follows. -/
def Ready (py : Python) (buffer : List (List Char)) (ls : List Lexeme) : Prop :=
  ∀ rest, Reads py false rest (leading buffer ++ rest) ls

theorem ready_nil : Ready py [] [] := fun _ => .done

theorem Ready.append {buffer : List (List Char)} {line : List Char} {ls ls' : List Lexeme}
    (h : Ready py buffer ls) (hline : Reads py false [] line ls') :
    Ready py (buffer ++ [line]) (ls ++ ls') := by
  intro rest
  have hblank : Reads py false rest (' ' :: rest) [] := .step (.blank rfl) nofun .done
  have hstops : Stops (' ' :: rest) := fun c hc => by cases hc; exact .inl rfl
  have hnext := (hline.extend hstops).trans hblank
  have hall := (h (line ++ ' ' :: rest)).trans hnext
  simpa [leading] using hall

section
variable (hspace : ∀ c, isSpace c = true → py.isalnum c = false) {pad : List Char}
  {buffer more : List (List Char)} {line : List Char} {ls ls' : List Lexeme}
include hspace

/-- A line that looks like a dot-command starts with a number or a mark. -/
theorem dot_lexeme {final rest : List Char} (h : Reads py true final (line ++ rest) ls)
    (hfinal : ∀ c ∈ final.head?, isSpace c = false ∧ c ≠ '.')
    (hdot : startsWith ['.'] (strip line) = true) :
    ∃ l ls', ls = l :: ls' ∧ (l.type = .number ∨ l.type = .punct) ∧
      l.value.toList.head? = some '.' := by
  obtain ⟨-, spaces, line, rfl, hspaces⟩ := dot_of_startsWith hdot
  rw [List.append_assoc] at h
  have hreads := reads_spaces hspace h hspaces fun c hc => (hfinal c hc).1
  generalize htext : '.' :: line ++ rest = text at hreads
  cases hreads with
  | done =>
    rw [← htext] at hfinal
    exact absurd rfl (hfinal '.' rfl).2
  | @step _ rest' l ls hscan _ _ =>
    subst htext
    cases l with
    | some l => exact ⟨l, ls, rfl, hscan.opens.2 rfl, hscan.opens.1 (hscan.opens.2 rfl)⟩
    | none =>
      rcases hscan.nothing with ⟨c, hc, htext⟩ | ⟨body, htext, -⟩
      · obtain ⟨rfl, -⟩ := List.cons.inj htext
        cases hc
      · cases htext

omit hspace in
theorem joined_no_break (hline : '\n' ∉ line) (hmore : ∀ l ∈ more, Kept l) :
    '\n' ∉ joined line more := by
  rw [joined, List.mem_append, List.mem_flatMap]
  rintro (h | ⟨l, hl, h⟩)
  · exact hline h
  · rcases List.mem_cons.mp h with h | h
    · cases h
    · exact (hmore l hl).oneLine h

/-- The text handed over goes on with the first character of a kept line, which is
no dot. -/
theorem kept_not_dot (hready : Ready py buffer ls) (hline : Kept line)
    (hmore : ∀ l ∈ more, Kept l) {l : Lexeme} (htype : l.type = .number ∨ l.type = .punct)
    (hhead : l.value.toList.head? = some '.') :
    ¬ Lexes py (strip (leading buffer ++ joined line more)) (ls ++ l :: ls') := by
  intro h
  have hbreak := joined_no_break hline.oneLine hmore
  rcases strip_cases line with ⟨hnil, -⟩ | ⟨spaces, c, rest, rfl, hspaces, hc, hfirst⟩
  · exact hline.blank hnil
  have htext : leading buffer ++ joined (spaces ++ c :: rest) more =
      (leading buffer ++ spaces) ++ c :: joined rest more := by
    simp [joined]
  obtain ⟨text, hright, hpre⟩ := rstrip_append hc (leading buffer ++ spaces) (joined rest more)
  rw [strip, htext, hright, List.append_assoc] at h
  obtain ⟨ls'', hls, hrest⟩ := lexes_rest_lstrip hspace (hready _) h
  rw [← List.append_cancel_left hls, lstrip_append_space hspaces, lstrip_cons hc] at hrest
  have hone : '\n' ∉ c :: text := by
    intro hn
    refine hbreak ?_
    rw [joined, List.append_assoc]
    refine List.mem_append_right _ ?_
    rcases List.mem_cons.mp hn with rfl | hn
    · exact List.mem_cons_self
    · exact List.mem_cons_of_mem _ (hpre.subset hn)
  have hdot := lexes_opens hrest hc hone htype
  rw [hhead] at hdot
  cases hdot
  have hstart := hline.dot
  cases hstrip : strip (spaces ++ '.' :: rest) with
  | nil => exact hline.blank hstrip
  | cons d text =>
    rw [hstrip] at hfirst hstart
    cases hfirst
    cases hstart

/-- A comment takes everything that is joined behind it. -/
theorem kept_comment (hready : Ready py buffer ls) (hmore : ∀ l ∈ more, Kept l)
    {front body : List Char} (hbody : '\n' ∉ body) (hfront : Reads py false [] front ls')
    {all : List Lexeme}
    (h : Lexes py (strip (leading buffer ++ joined (front ++ '-' :: '-' :: body) more)) all) :
    all = ls ++ ls' := by
  have hbreak := joined_no_break hbody hmore
  have htext : leading buffer ++ joined (front ++ '-' :: '-' :: body) more =
      (leading buffer ++ front ++ ['-']) ++ '-' :: joined body more := by
    simp [joined]
  obtain ⟨text, hright, hpre⟩ := rstrip_append (by decide : isSpace '-' = false)
    (leading buffer ++ front ++ ['-']) (joined body more)
  have hsplit : leading buffer ++ front ++ ['-'] ++ '-' :: text =
      leading buffer ++ (front ++ '-' :: '-' :: text) := by
    simp
  rw [strip, htext, hright, hsplit] at h
  have hstops : Stops ('-' :: '-' :: text) := fun c hc => by cases hc; exact .inr rfl
  have hreads := (hready (front ++ '-' :: '-' :: text)).trans (hfront.extend hstops)
  obtain ⟨ls'', hls, hrest⟩ := lexes_rest_lstrip hspace hreads h
  rw [lstrip_cons (by decide)] at hrest
  rw [hls, lexes_comment hrest fun hn => hbreak (hpre.subset hn), List.append_nil]

theorem lexes_last_line (hready : Ready py buffer ls) (hpad : ∀ c ∈ pad, isSpace c = true)
    (h : Reads py false (';' :: pad) line ls') :
    (strip line).getLast? = some ';' ∧
      Lexes py (strip (leading buffer ++ joined line [])) (ls ++ ls' ++ [punct ";"]) := by
  have hsemi : isSpace ';' = false := by decide
  obtain ⟨front, rfl, hfront⟩ := h.front
  have hstrip : ∀ start : List Char, rstrip (start ++ (front ++ ';' :: pad)) =
      start ++ front ++ [';'] := by
    intro start
    have hpadded : start ++ (front ++ ';' :: pad) = start ++ front ++ [';'] ++ pad := by simp
    rw [hpadded, rstrip_append_space hpad, rstrip_concat hsemi]
  constructor
  · have hline := hstrip []
    rw [List.nil_append, List.nil_append] at hline
    rw [strip, hline, lstrip_concat hsemi, List.getLast?_concat]
  · have hpunct : Lexes py [';'] [punct ";"] :=
      .step (l := some (punct ";")) (.punct (by decide) fun h => absurd h (by decide)) .nil
    have hreads := (hready (front ++ [';'])).trans (hfront [';'] rfl)
    have hjoined : joined (front ++ ';' :: pad) [] = front ++ ';' :: pad := by simp [joined]
    rw [strip, hjoined, hstrip, List.append_assoc]
    exact lexes_lstrip hspace (hreads.lexes hpunct)

end

/-- The text that a statement makes with what is in the buffer. -/
def batchFrom (buffer : List (List Char)) (text : List Char) : List Char :=
  strip ([' '].intercalate (buffer ++ (lineTexts text).filter fun line => strip line ≠ []))

section
variable [PyText] {σ : Type} {execute : σ → List Char → Except PyErr Unit × σ}
  {hasTable : σ → List Char → Bool} {db : σ} {buffer : List (List Char)} {hasError : Bool}
  (hspace : ∀ c, isSpace c = true → py.isalnum c = false) {pad text rest : List Char}
  {ls lb : List Lexeme}

/-- What comes of a statement when the loop meets it with a buffer that has been
read: it is handed over as it is, or it cannot be joined and the first text
handed over is another one. -/
def Settled (py : Python) (execute : σ → List Char → Except PyErr Unit × σ)
    (hasTable : σ → List Char → Bool) (db : σ) (buffer : List (List Char)) (hasError : Bool)
    (text rest : List Char) (all : List Lexeme) : Prop :=
  let batch := runBatch execute hasTable db (lineTexts (text ++ '\n' :: rest)) buffer hasError
  (Joinable text ∧ Lexes py (batchFrom buffer text) all ∧
    batch = handOver execute hasTable db (batchFrom buffer text) (lineTexts rest) hasError) ∨
  (¬ Joinable text ∧ ∀ sql, batch.handed.head? = some sql → ¬ Lexes py sql all)

include hspace

/-- A statement with a line that looks like a dot-command. -/
theorem settled_dot {line more : List Char} (hready : Ready py buffer lb)
    (h : Reads py true (';' :: pad) text ls) (htext : ∃ more, text = line ++ more)
    (hlines : lineTexts (text ++ '\n' :: rest) = line :: lineTexts more)
    (hmem : line ∈ lineTexts text) (hdot : startsWith ['.'] (strip line) = true) :
    Settled py execute hasTable db buffer hasError text rest (lb ++ ls ++ [punct ";"]) := by
  refine .inr ⟨fun hjoin => ?_, fun sql hsql hlexes => ?_⟩
  · rw [hjoin.dots line hmem] at hdot
    cases hdot
  rw [hlines] at hsql
  obtain ⟨tail, rfl⟩ := htext
  obtain ⟨l, ls', rfl, htype, hhead⟩ := dot_lexeme hspace h (by rintro c ⟨⟩; decide) hdot
  obtain ⟨failed, hrun⟩ := handed_dot (dot_of_startsWith hdot).1 hdot hsql
  obtain ⟨next, others, hnext, hothers, rfl⟩ := handed_cases (lineTexts_no_break more) hrun
  have hall : Lexes py (strip (leading buffer ++ joined next others))
      (lb ++ l :: (ls' ++ [punct ";"])) := by
    simpa using hlexes
  exact kept_not_dot hspace hready hnext hothers htype hhead hall

omit hspace [PyText] in
theorem joinable_cons {line more : List Char} (hline : '\n' ∉ line)
    (h : Reads py false [] line ls) (hbroken : ¬ Broken ls)
    (hdot : startsWith ['.'] (strip line) = false) :
    Joinable (line ++ '\n' :: more) ↔ Joinable more := by
  have hstops : Stops ('\n' :: more) := fun c hc => by cases hc; exact .inl rfl
  have htangled : TinyDB.tangled false (line ++ '\n' :: more) = TinyDB.tangled false more :=
    (h.extend hstops).tangled_eq hbroken
  constructor
  · intro hjoin
    have hdots := hjoin.dots
    rw [lineTexts_cons hline] at hdots
    exact ⟨htangled ▸ hjoin.tangled, fun l hl => hdots l (List.mem_cons_of_mem _ hl)⟩
  · intro hjoin
    refine ⟨htangled.trans hjoin.tangled, ?_⟩
    rw [lineTexts_cons hline]
    exact List.forall_mem_cons.mpr ⟨hdot, hjoin.dots⟩

/-- The last line of a statement, with the semicolon. -/
theorem settled_last (hpad : ∀ c ∈ pad, isBlank c = true ∧ c ≠ '\n')
    (h : Reads py true (';' :: pad) text ls) (hbroken : ¬ Broken ls) (hready : Ready py buffer lb)
    (hline : '\n' ∉ text) :
    Settled py execute hasTable db buffer hasError text rest (lb ++ ls ++ [punct ";"]) := by
  have hspaces : ∀ c ∈ pad, isSpace c = true := fun c hc => isSpace_of_isBlank (hpad c hc).1
  have hreads := h.last_line (by simp) hline
  have hne : text ≠ [] := by
    obtain ⟨front, rfl, -⟩ := h.front
    simp
  have hlines := lineTexts_cons hline rest
  have hone := lineTexts_last hline hne
  by_cases hdot : startsWith ['.'] (strip text) = true
  · exact settled_dot hspace hready h ⟨[], by simp⟩ hlines (by simp [hone]) hdot
  obtain ⟨hend, hlexes⟩ := lexes_last_line hspace hready hspaces hreads
  have hblank : strip text ≠ [] := by
    intro he
    rw [he] at hend
    cases hend
  have hfalse := Bool.eq_false_iff.mpr hdot
  have hpadded := tangled_pad fun c hc => (hpad c hc).1
  have hfrom : batchFrom buffer text = strip (leading buffer ++ joined text []) := by
    rw [batchFrom, hone, ← intercalate_eq]
    simp [hblank]
  refine .inl ⟨⟨(hreads.tangled_eq hbroken).trans hpadded, by simpa [hone] using hfalse⟩,
    hfrom ▸ hlexes, ?_⟩
  have hkept : Kept text := ⟨hline, hblank, hfalse⟩
  rw [hlines, hfrom, ← intercalate_eq]
  exact runBatch_end hline hfalse hend (intercalate_eq buffer text [] ▸ hkept.join_ne_nil buffer [])

theorem settled_statement (hpad : ∀ c ∈ pad, isBlank c = true ∧ c ≠ '\n')
    (h : Reads py true (';' :: pad) text ls) (hsemi : punct ";" ∉ ls) (hbroken : ¬ Broken ls)
    (hready : Ready py buffer lb) :
    Settled py execute hasTable db buffer hasError text rest (lb ++ ls ++ [punct ";"]) := by
  have hfinal : '\n' ∉ ';' :: pad := by
    intro hn
    rcases List.mem_cons.mp hn with hn | hn
    · cases hn
    · exact (hpad _ hn).2 rfl
  induction hlen : text.length using Nat.strong_induction_on generalizing text ls lb buffer with
  | _ n ih =>
    rcases line_cases text with hline | ⟨line, more, hline, rfl⟩
    · exact settled_last hspace hpad h hbroken hready hline
    have hlines : lineTexts (line ++ '\n' :: more ++ '\n' :: rest) =
        line :: lineTexts (more ++ '\n' :: rest) := by
      rw [List.append_assoc, List.cons_append, lineTexts_cons hline]
    have hshort : more.length < n := by
      rw [← hlen, List.length_append, List.length_cons]
      omega
    by_cases hdot : startsWith ['.'] (strip line) = true
    · exact settled_dot hspace hready h ⟨_, rfl⟩ hlines (by simp [lineTexts_cons hline]) hdot
    have hfalse := Bool.eq_false_iff.mpr hdot
    rcases h.cut hline hfinal with ⟨ls₁, ls₂, hone, htwo, rfl⟩ |
      ⟨-, front, body, ls₁, ls₂, rfl, hfront, -, rfl⟩ | hb
    · rw [broken_append, not_or] at hbroken
      rw [List.mem_append, not_or] at hsemi
      have hjoin : Joinable (line ++ '\n' :: more) ↔ Joinable more :=
        joinable_cons hline hone hbroken.1 hfalse
      by_cases hblank : strip line = []
      · -- a blank line is left out
        have hnil : ls₁ = [] := by
          have hall := (strip_cases line).resolve_right fun ⟨_, c, _, _, _, _, hhead⟩ => by
            rw [hblank] at hhead
            cases hhead
          exact reads_nil (reads_spaces hspace (by rwa [List.append_nil]) hall.2 nofun)
        subst hnil
        have hfrom : batchFrom buffer (line ++ '\n' :: more) = batchFrom buffer more := by
          simp [batchFrom, lineTexts_cons hline, hblank]
        have hmore := ih more.length hshort htwo hsemi.2 hbroken.2 hready rfl
        unfold Settled at hmore ⊢
        rw [hlines, runBatch_blank hblank, hjoin, hfrom, List.nil_append]
        exact hmore
      · -- a line of the statement joins the buffer
        have hend : (strip line).getLast? ≠ some ';' := by
          intro hend
          obtain ⟨before, spaces, hsplit, hspaces⟩ := semicolon_of_getLast hend
          refine hsemi.1 (hone.semicolon hsplit fun hquote => ?_)
          exact absurd (hspaces _ hquote) (by decide)
        have hfrom : batchFrom buffer (line ++ '\n' :: more) =
            batchFrom (buffer ++ [line]) more := by
          simp [batchFrom, lineTexts_cons hline, hblank]
        have hmore := ih more.length hshort htwo hsemi.2 hbroken.2 (hready.append hone) rfl
        rw [List.append_assoc lb] at hmore
        unfold Settled at hmore ⊢
        rw [hlines, runBatch_keep hline hblank hfalse hend, hjoin, hfrom]
        exact hmore
    · -- a comment takes the following lines with it
      rw [broken_append, not_or] at hbroken
      have hstops : Stops ('-' :: '-' :: body ++ '\n' :: more) := fun c hc => by
        cases hc
        exact .inr rfl
      have htangled :
          TinyDB.tangled false (front ++ '-' :: '-' :: body ++ '\n' :: more) = true := by
        rw [List.append_assoc, (hfront.extend hstops).tangled_eq hbroken.1]
        rfl
      refine .inr ⟨fun hjoin => ?_, fun sql hsql hlexes => ?_⟩
      · rw [hjoin.tangled] at htangled
        cases htangled
      · rw [hlines] at hsql
        have hblank : strip (front ++ '-' :: '-' :: body) ≠ [] :=
          strip_ne_nil (List.mem_append_right _ List.mem_cons_self) (by decide)
        obtain ⟨others, hothers, rfl⟩ := handed_of_kept ⟨hline, hblank, hfalse⟩
          (lineTexts_no_break _) hsql
        have hbody : '\n' ∉ body := fun hn => hline (by simp [hn])
        have hall := kept_comment hspace hready hothers hbody hfront hlexes
        have hlength := congrArg List.length hall
        simp at hlength
    · exact absurd hb hbroken

omit [PyText] hspace in
theorem strip_no_break {text : List Char} (h : '\n' ∉ text) : '\n' ∉ strip text := by
  intro hn
  have hright := (List.dropWhile_suffix isSpace).subset hn
  have hback := (List.dropWhile_suffix isSpace).subset (List.mem_reverse.mp hright)
  exact h (List.mem_reverse.mp hback)

/-- Every statement, in front of an empty buffer. -/
theorem settled_fresh (hpad : ∀ c ∈ pad, isBlank c = true ∧ c ≠ '\n')
    (h : Reads py true (';' :: pad) text ls) (hsemi : punct ";" ∉ ls) :
    Settled py execute hasTable db [] hasError text rest (ls ++ [punct ";"]) := by
  by_cases hbroken : Broken ls
  · refine .inr ⟨fun hjoin => (h.of_not_tangled hjoin.tangled).2 hbroken, fun sql hsql hlexes => ?_⟩
    obtain ⟨line, more, hline, hmore, rfl⟩ := handed_cases (lineTexts_no_break _) hsql
    exact hlexes.not_broken (strip_no_break (joined_no_break hline.oneLine hmore))
      (broken_append.mpr (.inl hbroken))
  · exact settled_statement hspace hpad h hsemi hbroken ready_nil

end

/-! ## Scripts -/

theorem ScriptStatement.same_iff {text : List Char} {ls : List Lexeme} {pad : List Char}
    (h : Reads py true (';' :: pad) text ls) (hpad : ∀ c ∈ pad, isBlank c = true ∧ c ≠ '\n')
    (sql : List Char) : SameTokens py text sql ↔ Lexes py sql (ls ++ [punct ";"]) := by
  have hpunct : Lexes py (';' :: pad) [punct ";"] := by
    have hblanks : Lexes py (pad ++ []) [] := Blanks.lexes (fun c hc => (hpad c hc).1) .nil
    rw [List.append_nil] at hblanks
    exact .step (l := some (punct ";")) (.punct (by decide) nofun) hblanks
  have htext := (lexes_iff py (String.ofList text) _).mp
    ((String.toList_ofList (l := text)).symm ▸ h.lexes hpunct)
  obtain ⟨-, tokens, htokens, hmap⟩ := htext
  have hsql := lexes_iff py (String.ofList sql) (ls ++ [punct ";"])
  rw [String.toList_ofList] at hsql
  rw [hsql]
  constructor
  · rintro ⟨tokens₁, tokens₂, h₁, h₂, hsame⟩
    obtain rfl := Except.ok.inj (htokens.symm.trans h₁)
    have hmap₂ := hsame.symm.trans hmap
    refine ⟨Bool.eq_false_iff.mpr fun hopen => ?_, tokens₂, h₂, hmap₂⟩
    rw [tokenize, String.toList_ofList] at h₂
    obtain ⟨body, s, hbody⟩ := tokenizeFrom_open h₂ hopen
    rw [hmap₂, List.append_assoc] at hbody
    have hlast := (List.append_inj' hbody rfl).2
    cases hlast
  · rintro ⟨-, tokens₂, h₂, hmap₂⟩
    exact ⟨tokens, tokens₂, htokens, h₂, hmap.trans hmap₂.symm⟩

theorem lineTexts_concat {text : List Char} (hne : text ≠ []) (hlast : text.getLast? ≠ some '\n') :
    lineTexts (text ++ ['\n']) = lineTexts text := by
  induction hn : text.length using Nat.strong_induction_on generalizing text with
  | _ n ih =>
    rcases line_cases text with h | ⟨line, rest, hline, rfl⟩
    · rw [lineTexts_cons h, lineTexts_last h hne]
      rfl
    · have hrest : rest ≠ [] := by
        rintro rfl
        simp at hlast
      have hlast' : rest.getLast? ≠ some '\n' := by
        intro he
        rw [List.getLast?_append, List.getLast?_cons, he] at hlast
        exact hlast rfl
      rw [List.append_assoc, List.cons_append, lineTexts_cons hline, lineTexts_cons hline,
        ih rest.length ?_ hrest hlast' rfl]
      rw [← hn, List.length_append, List.length_cons]
      omega

section
variable [PyText] {σ : Type} {execute : σ → List Char → Except PyErr Unit × σ}
  {hasTable : σ → List Char → Bool} (hspace : ∀ c, isSpace c = true → py.isalnum c = false)
  {stmts : List (List Char)} {tail : List Char}
include hspace

omit [PyText] in
theorem tail_lines (h : Reads py true [] tail []) :
    ∀ line ∈ lineTexts tail, startsWith ['.'] (strip line) = false := by
  have hfirst : ∀ {line rest : List Char}, Reads py true [] (line ++ rest) [] →
      startsWith ['.'] (strip line) = false := by
    intro line rest h
    refine Bool.eq_false_iff.mpr fun hdot => ?_
    obtain ⟨l, ls, hls, -⟩ := dot_lexeme hspace h nofun hdot
    cases hls
  induction hn : tail.length using Nat.strong_induction_on generalizing tail with
  | _ n ih =>
    rcases line_cases tail with hline | ⟨line, rest, hline, rfl⟩
    · by_cases hne : tail = []
      · subst hne
        nofun
      · rw [lineTexts_last hline hne, List.forall_mem_singleton]
        exact hfirst (by rwa [List.append_nil])
    · have hrest : Reads py true [] rest [] := by
        rcases h.cut hline nofun with ⟨ls₁, ls₂, -, hrest, hls⟩ |
          ⟨-, _, _, ls₁, ls₂, -, -, hrest, hls⟩ | hb
        · rwa [(List.append_eq_nil_iff.mp hls.symm).2] at hrest
        · rwa [(List.append_eq_nil_iff.mp hls.symm).2] at hrest
        · obtain ⟨s, hs, -⟩ := hb
          cases hs
      rw [lineTexts_cons hline, List.forall_mem_cons]
      refine ⟨hfirst h, ih rest.length ?_ hrest rfl⟩
      rw [← hn, List.length_append, List.length_cons]
      omega

omit hspace in
/-- Lines without a dot in front hand nothing over when none ends with a semicolon. -/
theorem handed_nil_iff {lines : List (List Char)} (hlines : ∀ line ∈ lines, '\n' ∉ line)
    (hdots : ∀ line ∈ lines, startsWith ['.'] (strip line) = false) {db : σ}
    {buffer : List (List Char)} {hasError : Bool} :
    (runBatch execute hasTable db lines buffer hasError).handed = [] ↔
      ∀ line ∈ lines, (strip line).getLast? ≠ some ';' := by
  induction lines generalizing db buffer hasError with
  | nil => exact iff_of_true rfl nofun
  | cons line lines ih =>
    obtain ⟨hline, hrest⟩ := List.forall_mem_cons.mp hlines
    obtain ⟨hdot, hdots⟩ := List.forall_mem_cons.mp hdots
    rw [List.forall_mem_cons]
    by_cases hblank : strip line = []
    · rw [runBatch_blank hblank, ih hrest hdots]
      exact (and_iff_right (by rw [hblank]; nofun)).symm
    by_cases hend : (strip line).getLast? = some ';'
    · have hkept : Kept line := ⟨hline, hblank, hdot⟩
      rw [runBatch_end hline hdot hend (by rw [intercalate_eq]; exact hkept.join_ne_nil buffer [])]
      refine iff_of_false (fun hnil => ?_) fun h => h.1 hend
      have hhead := handOver_head execute hasTable db
        (strip ([' '].intercalate (buffer ++ [line]))) lines hasError
      rw [hnil] at hhead
      cases hhead
    · rw [runBatch_keep hline hblank hdot hend, ih hrest hdots]
      exact (and_iff_right hend).symm

/-- The condition under which a script is split into its statements. -/
structure Splits (execute : σ → List Char → Except PyErr Unit × σ) (db : σ)
    (stmts : List (List Char)) (tail : List Char) : Prop where
  joinable : ∀ stmt ∈ stmts, Joinable stmt
  reached : (after execute db (stmts.map batchText).dropLast).isSome
  tail : (after execute db (stmts.map batchText)).isSome →
    ∀ line ∈ lineTexts tail, (strip line).getLast? ≠ some ';'

theorem script_iff (hstmts : ∀ stmt ∈ stmts, ScriptStatement py stmt)
    (htail : Lexes py tail []) (db : σ) (hasError : Bool) :
    List.Forall₂ (SameTokens py) stmts
        (runBatch execute hasTable db (lineTexts (script stmts tail)) [] hasError).handed ↔
      Splits execute db stmts tail := by
  induction stmts generalizing db hasError with
  | nil =>
    have hlines := tail_lines hspace (reads_nil_iff.mpr htail)
    rw [List.forall₂_nil_left_iff]
    change (runBatch execute hasTable db (lineTexts tail) [] hasError).handed = [] ↔ _
    rw [handed_nil_iff (lineTexts_no_break tail) hlines]
    exact ⟨fun h => ⟨nofun, rfl, fun _ => h⟩, fun h => h.tail rfl⟩
  | cons stmt stmts ih =>
    obtain ⟨⟨ls, pad, hreads, hsemi, hpad⟩, hrest⟩ := List.forall_mem_cons.mp hstmts
    have hsame := ScriptStatement.same_iff hreads hpad
    have hscript : script (stmt :: stmts) tail = stmt ++ '\n' :: script stmts tail := by
      simp [script]
    rw [hscript]
    have hsettled : Settled py execute hasTable db [] hasError stmt (script stmts tail)
      (ls ++ [punct ";"]) := settled_fresh hspace hpad hreads hsemi
    rcases hsettled with ⟨hjoin, hlexes, hrun⟩ | ⟨hjoin, hnone⟩
    · have hsql : batchFrom [] stmt = batchText stmt := rfl
      rw [hsql] at hlexes hrun
      have hfirst : SameTokens py stmt (batchText stmt) := (hsame _).mpr hlexes
      rw [hrun]
      rcases handOver_cases execute hasTable db (batchText stmt) (lineTexts (script stmts tail))
        hasError with ⟨hhanded, hafter⟩ | ⟨db', failed, hhanded, hafter⟩
      · rw [hhanded]
        constructor
        · intro hall
          obtain rfl : stmts = [] := by
            cases (List.forall₂_cons.mp hall).2
            rfl
          refine ⟨fun s hs => List.mem_singleton.mp hs ▸ hjoin, rfl, fun hsome => ?_⟩
          rw [List.map_singleton, hafter] at hsome
          cases hsome
        · intro h
          cases stmts with
          | nil => exact .cons hfirst .nil
          | cons next stmts =>
            have hreached := h.reached
            rw [List.map_cons, List.map_cons, List.dropLast_cons_cons, hafter] at hreached
            cases hreached
      · have hreach : (after execute db ((stmt :: stmts).map batchText).dropLast).isSome ↔
            (after execute db' (stmts.map batchText).dropLast).isSome := by
          cases stmts with
          | nil => exact Iff.rfl
          | cons next stmts =>
            rw [List.map_cons, List.map_cons, List.dropLast_cons_cons, hafter]
        have hlast : after execute db ((stmt :: stmts).map batchText) =
            after execute db' (stmts.map batchText) := hafter _
        rw [hhanded, List.forall₂_cons, and_iff_right hfirst, ih hrest db' failed]
        exact ⟨fun h => ⟨List.forall_mem_cons.mpr ⟨hjoin, h.joinable⟩, hreach.mpr h.reached,
            hlast ▸ h.tail⟩,
          fun h => ⟨(List.forall_mem_cons.mp h.joinable).2, hreach.mp h.reached, hlast ▸ h.tail⟩⟩
    · refine iff_of_false (fun hall => ?_) fun h => hjoin (h.joinable stmt List.mem_cons_self)
      obtain ⟨sql, sqls, hfirst, -, hhanded⟩ := List.forall₂_cons_left_iff.mp hall
      refine hnone sql ?_ ((hsame sql).mp hfirst)
      rw [hhanded]
      rfl

omit hspace [PyText] in
/-- The break after the last line may be missing. -/
theorem lineTexts_of_concat (hstmts : ∀ stmt ∈ stmts, ScriptStatement py stmt) {text : List Char}
    (h : text ++ ['\n'] = script stmts []) : lineTexts text = lineTexts (script stmts []) := by
  rw [← h]
  rcases List.eq_nil_or_concat stmts with rfl | ⟨before, stmt, rfl⟩
  · simp [script] at h
  · obtain ⟨ls, pad, hreads, -, hpad⟩ := hstmts stmt (by simp)
    obtain ⟨front, rfl, -⟩ := hreads.front
    have htext : text = script before [] ++ front ++ ';' :: pad := by
      refine List.append_cancel_right (h.trans ?_)
      simp [script]
    refine (lineTexts_concat (by simp [htext]) fun hlast => ?_).symm
    rw [htext, List.getLast?_append, List.getLast?_cons, Option.some_or] at hlast
    have hmem := List.mem_of_getLast? ((List.getLast?_cons).trans hlast)
    rcases List.mem_cons.mp hmem with hn | hn
    · cases hn
    · exact (hpad _ hn).2 rfl

/-- **The texts handed over.** For a script of statements that each end with a `;`
at the end of a line, then only blanks and comments, `_run_batch` hands over one
text for each statement, with the same lexemes, exactly when no statement has a
comment, a line break in a literal or a line that starts with a dot, no built-in
exception stops the run before the last statement, and no line after it ends with
a semicolon. -/
theorem runBatch_hands_iff (hasTable : σ → List Char → Bool)
    (hstmts : ∀ stmt ∈ stmts, ScriptStatement py stmt) (htail : Lexes py tail [])
    {text : List Char}
    (htext : text = script stmts tail ∨ tail = [] ∧ text ++ ['\n'] = script stmts []) (db : σ) :
    List.Forall₂ (SameTokens py) stmts
        (runBatch execute hasTable db (rawLines text) [] false).handed ↔
      Splits execute db stmts tail := by
  have hlines : lineTexts text = lineTexts (script stmts tail) := by
    rcases htext with rfl | ⟨rfl, h⟩
    · rfl
    · exact lineTexts_of_concat hstmts h
  rw [← runBatch_map_rstrip]
  change List.Forall₂ (SameTokens py) stmts
    (runBatch execute hasTable db (lineTexts text) [] false).handed ↔ _
  rw [hlines]
  exact script_iff hspace hstmts htail db false

end

/-- A text without comments and without line breaks in literals, then a semicolon. -/
theorem scriptStatement_of_lexes {text : List Char} {ls : List Lexeme} (h : Lexes py text ls)
    (htangled : tangled false text = false) (hsemi : punct ";" ∉ ls) :
    ScriptStatement py (text ++ [' ', ';']) := by
  have hreads := ((reads_nil_iff.mpr h).of_not_tangled htangled).1
  have hstops : Stops [' ', ';'] := fun c hc => by cases hc; exact .inl rfl
  have hblank : Reads py false [';'] [' ', ';'] [] := .step (.blank rfl) nofun .done
  refine ⟨ls, [], ?_, hsemi, nofun⟩
  rw [← List.append_nil ls]
  exact ((hreads.extend hstops).trans hblank).weaken

theorem asciiTables_space : ∀ c, isSpace c = true → Python.asciiTables.isalnum c = false := by
  intro c hc
  refine Bool.eq_false_iff.mpr fun halnum => ?_
  have hword : c.isAlpha = true ∨ c.isDigit = true := by
    by_contra hnot
    obtain ⟨ha, hd⟩ := not_or.mp hnot
    simp [Python.isalnum, Python.asciiTables, Bool.eq_false_iff.mpr ha,
      Bool.eq_false_iff.mpr hd] at halnum
  have hrange : 48 ≤ c.toNat ∧ c.toNat ≤ 57 ∨ 65 ≤ c.toNat ∧ c.toNat ≤ 122 := by
    simp only [Char.isAlpha, Char.isUpper, Char.isLower, Char.isDigit, Bool.or_eq_true,
      Bool.and_eq_true, decide_eq_true_eq, ge_iff_le, UInt32.le_iff_toNat_le,
      Char.toNat_val] at hword
    simp at hword
    omega
  simp only [isSpace, Bool.or_eq_true, Bool.and_eq_true, decide_eq_true_eq] at hc
  omega

/-- Two statements over two lines each, a blank line between them and a comment at the end. -/
def twoStatements : List (List Char) :=
  ["DROP TABLE\nt ;".toList, "\nSELECT a\nFROM t ;".toList]

theorem hands_twoStatements :
    List.Forall₂ (SameTokens Python.asciiTables) twoStatements
      (runBatch (fun (db : Unit) _ => (.ok (), db)) (fun _ _ => false) ()
        (rawLines (script twoStatements "-- end".toList)) [] false).handed := by
  have hone : Lexes Python.asciiTables "DROP TABLE\nt".toList
      [keyword "DROP", keyword "TABLE", ident "t"] :=
    (lexes_iff _ _ _).mpr ⟨by decide, [⟨.keyword, "DROP", 1, 1⟩, ⟨.keyword, "TABLE", 1, 6⟩,
      ⟨.ident, "t", 2, 1⟩, ⟨.eof, "", 2, 2⟩], by decide +kernel, rfl⟩
  have htwo : Lexes Python.asciiTables "\nSELECT a\nFROM t".toList
      [keyword "SELECT", ident "a", keyword "FROM", ident "t"] :=
    (lexes_iff _ _ _).mpr ⟨by decide, [⟨.keyword, "SELECT", 2, 1⟩, ⟨.ident, "a", 2, 8⟩,
      ⟨.keyword, "FROM", 3, 1⟩, ⟨.ident, "t", 3, 6⟩, ⟨.eof, "", 3, 7⟩], by decide +kernel, rfl⟩
  have htail : Lexes Python.asciiTables "-- end".toList [] :=
    (lexes_iff _ _ _).mpr ⟨by decide, [⟨.eof, "", 1, 1⟩], by decide +kernel, rfl⟩
  refine (runBatch_hands_iff asciiTables_space _ ?_ htail (.inl rfl) ()).mpr ?_
  · intro stmt hstmt
    rcases List.mem_cons.mp hstmt with rfl | hstmt
    · exact scriptStatement_of_lexes hone (by decide) (by decide)
    · rw [List.mem_singleton.mp hstmt]
      exact scriptStatement_of_lexes htwo (by decide) (by decide)
  · refine ⟨fun stmt hstmt => ?_, rfl, fun _ => by decide⟩
    rcases List.mem_cons.mp hstmt with rfl | hstmt
    · exact ⟨by decide, by decide⟩
    · rw [List.mem_singleton.mp hstmt]
      exact ⟨by decide, by decide⟩

/-- A comment at the end of a line takes the next line with it. -/
def commentedStatement : List Char := "SELECT a -- first\nFROM t;".toList

theorem commentedStatement_lost :
    ¬ List.Forall₂ (SameTokens Python.asciiTables) [commentedStatement]
      (runBatch (fun (db : Unit) _ => (.ok (), db)) (fun _ _ => false) ()
        (rawLines (commentedStatement ++ ['\n'])) [] false).handed := by
  intro h
  have hrun : (runBatch (fun (db : Unit) _ => (.ok (), db)) (fun _ _ => false) ()
      (rawLines (commentedStatement ++ ['\n'])) [] false).handed =
        ["SELECT a -- first FROM t;".toList] := by decide +kernel
  rw [hrun] at h
  obtain ⟨tokens, tokens', htokens, htokens', hsame⟩ := (List.forall₂_cons.mp h).1
  have hlength : (tokenize Python.asciiTables (String.ofList commentedStatement)).toOption.map
      List.length = some 6 := by decide +kernel
  have hlength' : (tokenize Python.asciiTables
      (String.ofList "SELECT a -- first FROM t;".toList)).toOption.map List.length = some 3 := by
    decide +kernel
  rw [htokens] at hlength
  rw [htokens'] at hlength'
  have hsix : tokens.length = 6 := Option.some.inj hlength
  have hthree : tokens'.length = 3 := Option.some.inj hlength'
  have hcount := congrArg List.length hsame
  rw [List.length_map, List.length_map] at hcount
  omega

end TinyDB.Cli
