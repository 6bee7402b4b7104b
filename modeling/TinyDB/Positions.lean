import TinyDB.ParseErrors

/-!
# Positions of tokens

The loop of `tokenize` keeps the line and the column of what it reads next. A comment leaves
the column where the comment starts, and a string literal takes its line when it is read and
its column where it starts. So the positions are right exactly if no literal has a line feed
in it and the text does not end in a comment.
-/

namespace TinyDB

open Lib

/-! ## Where a text ends -/

/-- One line more than there are line feeds. -/
def lineAt (before : List Char) : Nat := 1 + before.count '\n'

/-- One more than the characters since the last line feed. -/
def columnAt (before : List Char) : Nat := 1 + (before.reverse.takeWhile (· ≠ '\n')).length

/-- Line and column behind the text `front`, which starts at the given ones. -/
def posAfter (front : List Char) (line column : Nat) : Nat × Nat :=
  front.foldl (fun pos c => if c = '\n' then (pos.1 + 1, 1) else (pos.1, pos.2 + 1)) (line, column)

theorem posAfter_lineAt (before front : List Char) :
    posAfter front (lineAt before) (columnAt before) =
      (lineAt (before ++ front), columnAt (before ++ front)) := by
  induction front generalizing before with
  | nil => simp [posAfter]
  | cons c front ih =>
    have hstep : (if c = '\n' then (lineAt before + 1, 1)
        else (lineAt before, columnAt before + 1)) =
          (lineAt (before ++ [c]), columnAt (before ++ [c])) := by
      by_cases hc : c = '\n'
      · simp [lineAt, columnAt, hc, Nat.add_assoc]
      · simp [lineAt, columnAt, hc, Nat.add_comm]
    rw [posAfter, List.foldl_cons, hstep]
    have hrest := ih (before ++ [c])
    rw [List.append_assoc] at hrest
    exact hrest

/-! ## Tokens and the text before them -/

/-- The loop of `tokenize` with every token next to the text before it. -/
def markedFrom (py : Python) : Nat → List Char → List Char → Nat → Nat →
    Except PyErr (List (List Char × Token))
  | _, before, [], line, column => .ok [(before, ⟨.eof, "", line, column⟩)]
  | 0, _, _ :: _, _, _ => .error (.runtimeError "out of fuel")
  | fuel + 1, before, c :: cs, line, column => do
    let (token, rest, line, column) ← scanToken py c cs line column
    let front := (c :: cs).take ((c :: cs).length - rest.length)
    let tokens ← markedFrom py fuel (before ++ front) rest line column
    .ok (token.toList.map (fun token => (before, token)) ++ tokens)

/-- The tokens of a text, each with the text before its first character. -/
def marked (py : Python) (sql : String) : Except PyErr (List (List Char × Token)) :=
  markedFrom py sql.toList.length [] sql.toList 1 1

theorem markedFrom_tokens (py : Python) (fuel : Nat) (before text : List Char)
    (line column : Nat) :
    (markedFrom py fuel before text line column).map (List.map Prod.snd) =
      tokenizeFrom py fuel text line column := by
  induction fuel generalizing before text line column with
  | zero => cases text <;> rfl
  | succ fuel ih =>
    cases text with
    | nil => rfl
    | cons c cs =>
      rw [markedFrom, tokenizeFrom]
      cases hscan : scanToken py c cs line column with
      | error e => rfl
      | ok step =>
        obtain ⟨t, rest, line', column'⟩ := step
        generalize hfront : (c :: cs).take ((c :: cs).length - rest.length) = front
        simp only [ok_bind, hfront, ← ih (before ++ front) rest line' column']
        cases markedFrom py fuel (before ++ front) rest line' column' with
        | error e => rfl
        | ok tokens => cases t <;> rfl

/-- The token has the line and the column of its first character. -/
def AtItsPlace (m : List Char × Token) : Prop :=
  m.2.line = lineAt m.1 ∧ m.2.column = columnAt m.1

instance (m : List Char × Token) : Decidable (AtItsPlace m) := inferInstanceAs (Decidable (_ ∧ _))

/-- A line feed in a string literal, or a comment up to the end of the text. -/
def misplaced : Mode → List Char → Bool
  | mode, [] => mode = .comment
  | .text, c :: cs =>
    misplaced (if c = '\'' then .string
      else if c = '-' ∧ cs.head? = some '-' then .comment else .text) cs
  | .string, c :: cs => c = '\n' || misplaced (if c = '\'' then .text else .string) cs
  | .comment, c :: cs => misplaced (if c = '\n' then .text else .comment) cs

theorem posAfter_cons (c : Char) (front : List Char) (line column : Nat) :
    posAfter (c :: front) line column =
      if c = '\n' then posAfter front (line + 1) 1 else posAfter front line (column + 1) := by
  by_cases hc : c = '\n' <;> simp [posAfter, hc]

theorem posAfter_flat {front : List Char} (h : '\n' ∉ front) (line column : Nat) :
    posAfter front line column = (line, column + front.length) := by
  induction front generalizing column with
  | nil => rfl
  | cons c front ih =>
    have hc : c ≠ '\n' := fun e => h (e ▸ List.mem_cons_self)
    rw [posAfter_cons, if_neg hc, ih fun hn => h (List.mem_cons_of_mem _ hn), List.length_cons,
      Nat.add_assoc, Nat.add_comm 1]

/-! ## One turn of the loop -/

theorem misplaced_plain {front rest : List Char} (h : ∀ c ∈ front, c ≠ '\'' ∧ c ≠ '-') :
    misplaced .text (front ++ rest) = misplaced .text rest := by
  induction front with
  | nil => rfl
  | cons c front ih =>
    obtain ⟨hquote, hminus⟩ := h c List.mem_cons_self
    rw [List.cons_append, misplaced, if_neg hquote, if_neg fun h => hminus h.1]
    exact ih fun d hd => h d (List.mem_cons_of_mem _ hd)

theorem misplaced_comment {body rest : List Char} (h : Longest (· ≠ '\n') body rest) :
    misplaced .comment (body ++ rest) = (rest.isEmpty || misplaced .text rest) := by
  induction body with
  | nil =>
    cases rest with
    | nil => rfl
    | cons c rest =>
      have hc : c = '\n' := by simpa using h.stop c rfl
      subst hc
      rfl
  | cons c body ih =>
    have hc : c ≠ '\n' := by simpa using h.inside c List.mem_cons_self
    rw [List.cons_append, misplaced, if_neg hc]
    exact ih ⟨fun d hd => h.inside d (List.mem_cons_of_mem _ hd), h.stop⟩

/-- What is read of a literal, behind its opening quote. -/
theorem scanString_places (cs : List Char) (line column : Nat) :
    ∃ front, cs = front ++ (scanString cs line column).2.1 ∧
      (scanString cs line column).2.2 = posAfter front line column ∧
      misplaced .string cs =
        (front.contains '\n' || misplaced .text (scanString cs line column).2.1) := by
  fun_induction scanString cs line column with
  | case1 => exact ⟨[], rfl, rfl, rfl⟩
  | case2 => exact ⟨['\''], rfl, rfl, rfl⟩
  | case3 line column ds parts rest heq ih =>
    rw [heq] at ih
    obtain ⟨front, hds, hpos, hmis⟩ := ih
    refine ⟨'\'' :: '\'' :: front, by simpa using hds, ?_, ?_⟩
    · rw [posAfter_cons, if_neg (by decide), posAfter_cons, if_neg (by decide)]
      exact hpos
    · simpa [misplaced] using hmis
  | case4 line column d ds hd =>
    exact ⟨['\''], rfl, rfl, by simp [misplaced]⟩
  | case5 c cs line column hc parts rest heq ih ih' =>
    by_cases hn : c = '\n'
    · rw [if_pos hn] at heq
      rw [heq] at ih
      obtain ⟨front, hcs, hpos, -⟩ := ih
      refine ⟨c :: front, by simpa using hcs, ?_, ?_⟩
      · rw [posAfter_cons, if_pos hn]
        exact hpos
      · simp [misplaced, hn]
    · rw [if_neg hn] at heq
      rw [heq] at ih'
      obtain ⟨front, hcs, hpos, hmis⟩ := ih'
      refine ⟨c :: front, by simpa using hcs, ?_, ?_⟩
      · rw [posAfter_cons, if_neg hn]
        exact hpos
      · have hn' : ¬ '\n' = c := fun e => hn e.symm
        simpa [misplaced, hn, hc, hn'] using hmis

/-- The three things a turn can do: skip a blank, skip a comment and leave the column, or make
a token whose line is the one behind it. -/
inductive Turn (c : Char) (cs : List Char) (line column : Nat) :
    Option Token → List Char → Nat × Nat → Prop where
  | blank : isBlank c = true → misplaced .text (c :: cs) = misplaced .text cs →
      Turn c cs line column none cs (posAfter [c] line column)
  | comment {front rest : List Char} : c :: cs = front ++ rest → c ≠ '\n' → '\n' ∉ front →
      rest = [] ∨ (∃ tail, rest = '\n' :: tail) →
      misplaced .text (c :: cs) = (rest.isEmpty || misplaced .text rest) →
      Turn c cs line column none rest (line, column)
  | token {front rest : List Char} {token : Token} : c :: cs = front ++ rest → c ≠ '\n' →
      token.line = (posAfter front line column).1 → token.column = column →
      misplaced .text (c :: cs) = (front.contains '\n' || misplaced .text rest) →
      Turn c cs line column (some token) rest (posAfter front line column)

/-- A token whose characters open neither a literal nor a comment and break no line. -/
theorem Turn.plain {c : Char} {cs front rest : List Char} {line column : Nat} {token : Token}
    (hsplit : c :: cs = front ++ rest) (hfront : front ≠ [])
    (hplain : ∀ d ∈ front, d ≠ '\'' ∧ d ≠ '-' ∧ d ≠ '\n') (hline : token.line = line)
    (hcolumn : token.column = column) :
    Turn c cs line column (some token) rest (line, column + front.length) := by
  have hflat : '\n' ∉ front := fun h => (hplain _ h).2.2 rfl
  have hc : c ≠ '\n' := by
    cases front with
    | nil => exact absurd rfl hfront
    | cons d front =>
      rw [(List.cons.inj hsplit).1]
      exact (hplain d List.mem_cons_self).2.2
  rw [← posAfter_flat hflat]
  refine Turn.token hsplit hc (by rw [posAfter_flat hflat, hline]) hcolumn ?_
  rw [hsplit, misplaced_plain fun d hd => ⟨(hplain d hd).1, (hplain d hd).2.1⟩]
  simp [hflat]

/-- The longest front of characters of one kind, none of which breaks a line, starts a
literal or a comment. -/
private theorem Turn.longest {p : Char → Bool} {c : Char} {cs : List Char} {line column : Nat}
    {token : Token} (hmarks : p '\'' = false ∧ p '-' = false ∧ p '\n' = false) (hc : p c = true)
    (hline : token.line = line) (hcolumn : token.column = column) :
    Turn c cs line column (some token) ((c :: cs).dropWhile p)
      (line, column + ((c :: cs).takeWhile p).length) := by
  have hsplit : c :: cs = (c :: cs).takeWhile p ++ (c :: cs).dropWhile p :=
    List.takeWhile_append_dropWhile.symm
  refine Turn.plain hsplit (by rw [List.takeWhile_cons_of_pos hc]; simp) ?_ hline hcolumn
  intro d hd
  have hp := (longest_takeWhile p (c :: cs)).inside d hd
  refine ⟨?_, ?_, ?_⟩
  · rintro rfl
    rw [hmarks.1] at hp
    cases hp
  · rintro rfl
    rw [hmarks.2.1] at hp
    cases hp
  · rintro rfl
    rw [hmarks.2.2] at hp
    cases hp

theorem scanToken_turn {py : Python} {c : Char} {cs rest : List Char}
    {line column line' column' : Nat} {t : Option Token}
    (h : scanToken py c cs line column = .ok (t, rest, line', column')) :
    Turn c cs line column t rest (line', column') := by
  by_cases hblank : isBlank c = true
  · rw [scanToken, if_pos (isBlank_iff.mp hblank)] at h
    simp only [Except.ok.injEq, Prod.mk.injEq] at h
    obtain ⟨rfl, rfl, hpos⟩ := h
    have hplain : ∀ d ∈ [c], d ≠ '\'' ∧ d ≠ '-' := by
      intro d hd
      rw [List.mem_singleton.mp hd]
      rcases isBlank_iff.mp hblank with rfl | rfl | rfl | rfl <;> decide
    rw [← hpos]
    exact Turn.blank hblank (misplaced_plain hplain)
  by_cases hcomment : c = '-' ∧ cs.head? = some '-'
  · rw [scanToken, if_neg fun h => hblank (isBlank_iff.mpr h), if_pos hcomment] at h
    simp only [Except.ok.injEq, Prod.mk.injEq] at h
    obtain ⟨rfl, rfl, rfl, rfl⟩ := h
    obtain ⟨rfl, hhead⟩ := hcomment
    have hl := longest_takeWhile (· ≠ '\n') cs
    have hsplit : '-' :: cs = ('-' :: cs.takeWhile (· ≠ '\n')) ++ cs.dropWhile (· ≠ '\n') := by
      rw [List.cons_append, List.takeWhile_append_dropWhile]
    rw [List.dropWhile_cons_of_pos (by decide)]
    refine Turn.comment hsplit (by decide) ?_ ?_ ?_
    · intro hn
      rcases List.mem_cons.mp hn with hn | hn
      · exact absurd hn (by decide)
      · exact absurd (hl.inside _ hn) (by decide)
    · cases hr : cs.dropWhile (· ≠ '\n') with
      | nil => exact Or.inl rfl
      | cons d tail =>
        have hd : d = '\n' := by simpa using hl.stop d (by rw [hr]; rfl)
        exact Or.inr ⟨tail, by rw [hd]⟩
    · have hmode : misplaced .text ('-' :: cs) = misplaced .comment cs := by
        rw [misplaced, if_neg (by decide), if_pos ⟨rfl, hhead⟩]
      rw [hmode, ← misplaced_comment hl, List.takeWhile_append_dropWhile]
  by_cases hquote : c = '\''
  · rw [scanToken, if_neg fun h => hblank (isBlank_iff.mpr h), if_neg hcomment, if_pos hquote] at h
    simp only [Except.ok.injEq, Prod.mk.injEq] at h
    obtain ⟨rfl, rfl, hline, hcolumn⟩ := h
    subst hquote
    obtain ⟨front, hcs, hpos, hmis⟩ := scanString_places cs line (column + 1)
    have hstart : posAfter ('\'' :: front) line column = posAfter front line (column + 1) := by
      rw [posAfter_cons, if_neg (by decide)]
    have hres : (line', column') = posAfter ('\'' :: front) line column := by
      rw [← hline, ← hcolumn, hstart, ← hpos]
    have htoken : (scanString cs line (column + 1)).2.2.1 =
        (posAfter ('\'' :: front) line column).1 := by
      rw [hstart, ← hpos]
    rw [hres]
    refine Turn.token (by rw [List.cons_append, ← hcs]) (by decide) htoken rfl ?_
    simpa [misplaced] using hmis
  rw [scanToken, if_neg fun h => hblank (isBlank_iff.mpr h), if_neg hcomment, if_neg hquote] at h
  have hmarks : ∀ d ∈ ['\'', '-', '\n'], py.isNumberChar d = false ∧ py.isWordChar d = false := by
    intro d hd
    have hm : d ∈ marks := by
      simp only [List.mem_cons, List.not_mem_nil, or_false] at hd
      rcases hd with rfl | rfl | rfl <;> decide
    exact ⟨(mark_spec py hm).1, (mark_spec py hm).2.1⟩
  by_cases hnumber :
      (py.isdigit c || decide (c = '.') && (cs.head?.map py.isdigit).getD false) = true
  · simp only [if_pos hnumber, Except.ok.injEq, Prod.mk.injEq] at h
    obtain ⟨rfl, rfl, rfl, rfl⟩ := h
    have hc : py.isNumberChar c = true := by
      simp only [Bool.or_eq_true, Bool.and_eq_true] at hnumber
      simp only [Python.isNumberChar, Bool.or_eq_true]
      exact hnumber.imp_right And.left
    exact Turn.longest (p := py.isNumberChar) ⟨(hmarks _ (by simp)).1, (hmarks _ (by simp)).1,
      (hmarks _ (by simp)).1⟩ hc rfl rfl
  rw [if_neg hnumber] at h
  by_cases hword : (py.isalpha c || decide (c = '_')) = true
  · simp only [if_pos hword, Except.ok.injEq, Prod.mk.injEq] at h
    obtain ⟨rfl, rfl, rfl, rfl⟩ := h
    have hc : py.isWordChar c = true := by
      simp only [Bool.or_eq_true, decide_eq_true_eq] at hword
      simp only [Python.isWordChar, Python.isalnum, Bool.or_eq_true, decide_eq_true_eq]
      exact hword.imp_left fun ha => Or.inl (Or.inl (Or.inl ha))
    exact Turn.longest (p := py.isWordChar) ⟨(hmarks _ (by simp)).2, (hmarks _ (by simp)).2,
      (hmarks _ (by simp)).2⟩ hc (by split <;> rfl) (by split <;> rfl)
  rw [if_neg hword] at h
  cases hop : operatorPatterns.find? fun op => op.toList.isPrefixOf (c :: cs) with
  | some op =>
    simp only [hop, Except.ok.injEq, Prod.mk.injEq] at h
    obtain ⟨rfl, rfl, rfl, rfl⟩ := h
    have hmatch : op.toList.isPrefixOf (c :: cs) = true := by
      simpa only using List.find?_some hop
    have hprefix : op.toList <+: c :: cs := List.isPrefixOf_iff_prefix.mp hmatch
    have hall : (operatorPatterns.all fun op => decide (op.toList ≠ []) &&
        op.toList.all fun c => decide (c ≠ '\'' ∧ c ≠ '-' ∧ c ≠ '\n')) = true := by decide +kernel
    have hthis := List.all_eq_true.mp hall op (mem_operatorPatterns hop)
    simp only [Bool.and_eq_true, decide_eq_true_eq, List.all_eq_true] at hthis
    rw [← String.length_toList]
    exact Turn.plain (List.prefix_iff_eq_append.mp hprefix).symm hthis.1 hthis.2 rfl rfl
  | none =>
    simp only [hop] at h
    by_cases hpunct : singleCharPunct.contains c = true
    · simp only [if_pos hpunct, Except.ok.injEq, Prod.mk.injEq] at h
      obtain ⟨rfl, rfl, rfl, rfl⟩ := h
      have hall : (singleCharPunct.all fun c => decide (c ≠ '\'' ∧ c ≠ '-' ∧ c ≠ '\n')) = true := by
        decide
      have hthis := of_decide_eq_true
        (List.all_eq_true.mp hall c (List.contains_iff_mem.mp hpunct))
      have hone : ∀ d ∈ [c], d ≠ '\'' ∧ d ≠ '-' ∧ d ≠ '\n' := by
        intro d hd
        rw [List.mem_singleton.mp hd]
        exact hthis
      exact Turn.plain rfl (List.cons_ne_nil _ _) hone rfl rfl
    · rw [if_neg hpunct] at h
      cases h

/-! ## The whole text -/

theorem lineAt_append (before front : List Char) :
    lineAt (before ++ front) = lineAt before + front.count '\n' := by
  simp [lineAt, Nat.add_assoc]

/-- The line is right, and the column is right or does not matter. -/
structure OnTrack (before text : List Char) (line column : Nat) : Prop where
  line : line = lineAt before
  column : column = columnAt before ∨ ∃ tail, text = '\n' :: tail

theorem OnTrack.column_eq {before cs : List Char} {c : Char} {line column : Nat}
    (h : OnTrack before (c :: cs) line column) (hc : c ≠ '\n') : column = columnAt before := by
  rcases h.column with hcol | ⟨tail, ht⟩
  · exact hcol
  · exact absurd (List.cons.inj ht).1 hc

/-- The pass from one place to the next. -/
theorem OnTrack.append {before front rest : List Char} {line column : Nat}
    (hline : line = lineAt before) (hcolumn : column = columnAt before) :
    OnTrack (before ++ front) rest (posAfter front line column).1
      (posAfter front line column).2 := by
  subst hline hcolumn
  rw [posAfter_lineAt]
  exact ⟨rfl, Or.inl rfl⟩

/-- Behind a blank the column is right, even if it was not before a line feed. -/
theorem OnTrack.blank {before cs : List Char} {c : Char} {line column : Nat}
    (h : OnTrack before (c :: cs) line column) :
    OnTrack (before ++ [c]) cs (posAfter [c] line column).1 (posAfter [c] line column).2 := by
  by_cases hc : c = '\n'
  · refine ⟨?_, Or.inl ?_⟩
    · rw [posAfter_cons, if_pos hc, h.line, lineAt_append, hc]
      rfl
    · rw [posAfter_cons, if_pos hc, hc]
      simp [posAfter, columnAt]
  · exact OnTrack.append h.line (h.column_eq hc)

theorem markedFrom_nil (py : Python) (fuel : Nat) (before : List Char) (line column : Nat) :
    markedFrom py fuel before [] line column = .ok [(before, ⟨.eof, "", line, column⟩)] := by
  cases fuel <;> rfl

theorem OnTrack.eof {before : List Char} {line column : Nat} (h : OnTrack before [] line column) :
    AtItsPlace (before, ⟨.eof, "", line, column⟩) := by
  refine ⟨h.line, h.column.resolve_right ?_⟩
  rintro ⟨tail, ht⟩
  cases ht

/-- A comment up to the end leaves the EOF where the comment starts. -/
theorem not_atItsPlace_eof {before front : List Char} {line column : Nat} (hfront : front ≠ [])
    (hflat : '\n' ∉ front) (hcolumn : column = columnAt before) :
    ¬ AtItsPlace (before ++ front, ⟨.eof, "", line, column⟩) := by
  rintro ⟨-, hc⟩
  have hpos := congrArg Prod.snd (posAfter_lineAt before front)
  rw [posAfter_flat hflat] at hpos
  have hlen := List.length_pos_of_ne_nil hfront
  simp only at hpos hc
  omega

/-- **Every token at its place**, from any point of the text on. -/
theorem markedFrom_places {py : Python} {fuel : Nat} {before text : List Char} {line column : Nat}
    {ms : List (List Char × Token)} (h : markedFrom py fuel before text line column = .ok ms)
    (hon : OnTrack before text line column) :
    (∀ m ∈ ms, AtItsPlace m) ↔ misplaced .text text = false := by
  induction fuel generalizing before text line column ms with
  | zero =>
    cases text with
    | nil =>
      cases h
      exact iff_of_true (List.forall_mem_singleton.mpr hon.eof) rfl
    | cons c cs => cases h
  | succ fuel ih =>
    cases text with
    | nil =>
      cases h
      exact iff_of_true (List.forall_mem_singleton.mpr hon.eof) rfl
    | cons c cs =>
      simp only [markedFrom, bind_eq_ok, Except.ok.injEq] at h
      obtain ⟨⟨t, rest, pos⟩, hscan, ms', hms, rfl⟩ := h
      have htake : ∀ {front : List Char}, c :: cs = front ++ rest →
          (c :: cs).take ((c :: cs).length - rest.length) = front := by
        intro front hsplit
        rw [hsplit, List.length_append, Nat.add_sub_cancel, List.take_left']
        rfl
      have hturn := scanToken_turn hscan
      generalize hpos : (pos.1, pos.2) = next at hturn
      obtain rfl : pos = next := hpos
      cases hturn with
      | blank hblank hmis =>
        rw [htake (show c :: cs = [c] ++ cs from rfl)] at hms
        rw [hmis]
        exact ih hms hon.blank
      | @comment front _ hsplit hc hflat hrest hmis =>
        rw [htake hsplit] at hms
        rw [hmis]
        rcases hrest with rfl | ⟨tail, rfl⟩
        · rw [markedFrom_nil] at hms
          cases hms
          have hfront : front ≠ [] := by
            rintro rfl
            cases hsplit
          have hnot := @not_atItsPlace_eof before front line column hfront hflat (hon.column_eq hc)
          exact iff_of_false (fun hall => hnot (hall _ (List.mem_singleton_self _))) (by simp)
        · have hon' : OnTrack (before ++ front) ('\n' :: tail) line column := by
            refine ⟨?_, Or.inr ⟨tail, rfl⟩⟩
            rw [lineAt_append, hon.line, List.count_eq_zero_of_not_mem hflat, Nat.add_zero]
          exact ih hms hon'
      | @token front _ token hsplit hc hline hcolumn hmis =>
        rw [htake hsplit] at hms
        have hright := hon.column_eq hc
        have hrest := ih hms (OnTrack.append hon.line hright)
        have htoken : AtItsPlace (before, token) ↔ front.contains '\n' = false := by
          have hplace : AtItsPlace (before, token) ↔ lineAt (before ++ front) = lineAt before := by
            have hl := congrArg Prod.fst (posAfter_lineAt before front)
            rw [← hon.line, ← hright] at hl
            have hline' : token.line = lineAt (before ++ front) := hline.trans hl
            rw [← hline']
            exact and_iff_left (hcolumn.trans hright)
          rw [hplace, lineAt_append, Nat.add_eq_left, List.count_eq_zero]
          simp
        rw [hmis, Bool.or_eq_false_iff, ← hrest, ← htoken, Option.toList_some, List.map_cons,
          List.map_nil, List.singleton_append, List.forall_mem_cons]

/-- The tokens of the text have the positions of their first characters; the EOF has that of
the end of the text. -/
def Positioned (py : Python) (sql : String) (tokens : List Token) : Prop :=
  ∃ ms, marked py sql = .ok ms ∧ ms.map Prod.snd = tokens ∧ ∀ m ∈ ms, AtItsPlace m

/-- **Positions.** Exactly if no string literal has a line feed in it and the text does not
end in a comment. -/
theorem positioned_iff {py : Python} {sql : String} {tokens : List Token}
    (h : tokenize py sql = .ok tokens) :
    Positioned py sql tokens ↔ misplaced .text sql.toList = false := by
  have htokens := markedFrom_tokens py sql.toList.length [] sql.toList 1 1
  have hon : OnTrack [] sql.toList 1 1 := ⟨rfl, Or.inl rfl⟩
  cases hm : markedFrom py sql.toList.length [] sql.toList 1 1 with
  | error e =>
    rw [hm, ← tokenize, h] at htokens
    cases htokens
  | ok ms =>
    rw [hm, ← tokenize, h] at htokens
    rw [← markedFrom_places hm hon]
    constructor
    · rintro ⟨ms', hms, -, hall⟩
      rw [marked, hm] at hms
      cases hms
      exact hall
    · exact fun hall => ⟨ms, hm, Except.ok.inj htokens, hall⟩

/-- Two lines, a tab, a doubled quote and a comment. -/
theorem positioned_comment :
    Positioned Python.asciiTables "SELECT\n\t'a''b' -- c\n;"
      [⟨.keyword, "SELECT", 1, 1⟩, ⟨.string, "a'b", 2, 2⟩, ⟨.punct, ";", 3, 1⟩, ⟨.eof, "", 3, 2⟩] :=
  (positioned_iff (by decide +kernel)).mpr (by decide +kernel)

/-- The literal starts in the first line, and its token says the second. -/
theorem literal_in_second_line :
    ¬ ∀ (py : Python) (sql : String) (tokens : List Token), tokenize py sql = .ok tokens →
      Positioned py sql tokens := by
  intro h
  have htokens : tokenize Python.asciiTables "'a\nb'" =
      .ok [⟨.string, "a\nb", 2, 1⟩, ⟨.eof, "", 2, 3⟩] := by decide +kernel
  obtain ⟨ms, hms, -, hall⟩ := h _ _ _ htokens
  have hms' : marked Python.asciiTables "'a\nb'" =
      .ok [([], ⟨.string, "a\nb", 2, 1⟩), (['\'', 'a', '\n', 'b', '\''], ⟨.eof, "", 2, 3⟩)] := by
    decide +kernel
  rw [hms', Except.ok.injEq] at hms
  subst hms
  exact absurd (hall _ List.mem_cons_self) (by decide)

end TinyDB
