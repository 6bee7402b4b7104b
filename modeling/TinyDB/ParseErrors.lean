import TinyDB.LexerSpec
import TinyDB.StatementSound
import TinyDB.Lib.DecimalText

/-!
# What the parser raises

A parser that returns no statement raises `ParseError`, save where the interpreter raises
something on its way: at a number it cannot convert, and at a call for which no frame is left.
-/

namespace TinyDB

open Lib

/-! ## Numbers -/

/-- Decimal digits, not more than `int` reads. -/
def Python.IsInt (py : Python) (text : String) : Prop :=
  (∀ c ∈ text.toList, (py.decimal c).isSome = true) ∧
    (py.intMaxStrDigits = 0 ∨ text.toList.length ≤ py.intMaxStrDigits)

/-- Decimal digits with one point among them. -/
def Python.IsFloat (py : Python) (text : String) : Prop :=
  ∃ whole fraction, text.toList = whole ++ '.' :: fraction ∧ whole ++ fraction ≠ [] ∧
    ∀ c ∈ whole ++ fraction, (py.decimal c).isSome = true

/-- A question the interpreter answers: the number is one, and the frames suffice. -/
def Python.Readable (py : Python) : Question → Prop
  | .number text => py.IsInt text ∨ py.IsFloat text
  | .int text => py.IsInt text
  | .str frames arg => arg.reprFrames ≤ frames
  | .call => False
  | .turn => True

theorem mapM_isSome_iff {α β : Type} (f : α → Option β) (l : List α) :
    (l.mapM f).isSome = true ↔ ∀ a ∈ l, (f a).isSome = true := by
  induction l with
  | nil => simp
  | cons a l ih =>
    rw [List.forall_mem_cons, ← ih, List.mapM_cons]
    cases f a with
    | none => simp
    | some b => cases l.mapM f <;> simp

theorem length_of_mapM {α β : Type} {f : α → Option β} {l : List α} {bs : List β}
    (h : l.mapM f = some bs) : bs.length = l.length := by
  induction l generalizing bs with
  | nil =>
    rw [List.mapM_nil] at h
    cases h
    rfl
  | cons a l ih =>
    simp only [List.mapM_cons, Option.bind_eq_bind, Option.bind_eq_some_iff, Option.pure_def,
      Option.some.injEq] at h
    obtain ⟨b, -, bs', hbs, rfl⟩ := h
    rw [List.length_cons, List.length_cons, ih hbs]

variable {py : Python} {text : String}

theorem int_ok_iff : (∃ n, py.int text = .ok n) ↔ py.IsInt text := by
  rw [Python.IsInt, ← mapM_isSome_iff]
  unfold Python.int
  cases h : text.toList.mapM py.decimal with
  | none => simp
  | some digits =>
    simp only [length_of_mapM h, Option.isSome_some, true_and]
    split
    · rename_i hlimit
      exact iff_of_true ⟨_, rfl⟩ hlimit
    · rename_i hlimit
      exact iff_of_false nofun hlimit

/-- The characters of a NUMBER, its decimal digits in ASCII. -/
def Python.asciiDigit (py : Python) (c : Char) : Char :=
  ((py.decimal c).map fun d => Char.ofNat (48 + d.val)).getD c

theorem isDigit_ofNat (d : Fin 10) : (Char.ofNat (48 + d.val)).isDigit = true := by
  revert d
  decide

theorem asciiDigit_plain {c : Char} (h : py.isdigit c = true ∨ c = '.') :
    PlainChar (py.asciiDigit c) := by
  unfold Python.asciiDigit
  cases hd : py.decimal c with
  | some d => exact Or.inl (isDigit_ofNat d)
  | none =>
    by_cases hascii : c.toNat < 128
    · obtain ⟨-, hdigit, -, hdecimal⟩ := py.ascii c hascii
      rw [hd] at hdecimal
      exact Or.inr (Or.inl (h.resolve_left (by rw [hdigit, ← hdecimal]; nofun)))
    · exact Or.inr (Or.inr (not_lt.mp hascii))

theorem decimal_point : py.decimal '.' = none := by
  have h := (py.ascii '.' (by decide)).2.2.2
  cases hd : py.decimal '.' with
  | none => rfl
  | some d =>
    rw [hd] at h
    cases h

theorem asciiDigit_eq_point {c : Char} : py.asciiDigit c = '.' ↔ c = '.' := by
  unfold Python.asciiDigit
  cases hd : py.decimal c with
  | none => rfl
  | some d =>
    refine iff_of_false (fun hpoint => ?_) fun hc => ?_
    · have hdigit : (Char.ofNat (48 + d.val)).isDigit = true := isDigit_ofNat d
      rw [show Char.ofNat (48 + d.val) = '.' from hpoint] at hdigit
      exact absurd hdigit (by decide)
    · rw [hc, decimal_point] at hd
      cases hd

theorem isDigit_asciiDigit {c : Char} :
    (py.asciiDigit c).isDigit = true ↔ (py.decimal c).isSome = true := by
  unfold Python.asciiDigit
  cases hd : py.decimal c with
  | some d => exact iff_of_true (isDigit_ofNat d) rfl
  | none =>
    refine iff_of_false (fun hdigit => ?_) nofun
    have hcode : 48 ≤ c.toNat ∧ c.toNat ≤ 57 := isDigit_toNat hdigit
    have hdecimal := (py.ascii c (by omega)).2.2.2
    rw [hd, show c.isDigit = true from hdigit] at hdecimal
    cases hdecimal

theorem float_ok_iff (h : ∀ c ∈ text.toList, py.isdigit c = true ∨ c = '.')
    (hpoint : '.' ∈ text.toList) : (∃ f, py.float text = .ok f) ↔ py.IsFloat text := by
  have hplain : ∀ c ∈ text.toList.map py.asciiDigit, PlainChar c := by
    intro c hc
    obtain ⟨d, hd, rfl⟩ := List.mem_map.mp hc
    exact asciiDigit_plain (h d hd)
  have hmapped : '.' ∈ text.toList.map py.asciiDigit :=
    List.mem_map.mpr ⟨'.', hpoint, asciiDigit_eq_point.mpr rfl⟩
  have hok : (∃ f, py.float text = .ok f) ↔
      (floatOfText (text.toList.map py.asciiDigit)).isSome = true := by
    have hfloat : py.float text = ((floatOfText (text.toList.map py.asciiDigit)).elim
        (.error .valueError) .ok) := by
      rw [Python.float]
      change _ = (floatOfText (text.toList.map fun c =>
        ((py.decimal c).map fun d => Char.ofNat (48 + d.val)).getD c)).elim _ _
      cases floatOfText _ <;> rfl
    rw [hfloat]
    cases floatOfText (text.toList.map py.asciiDigit) with
    | none =>
      constructor
      · rintro ⟨f, hf⟩
        cases hf
      · intro hsome
        cases hsome
    | some f => exact iff_of_true ⟨f, rfl⟩ rfl
  rw [hok, floatOfText_isSome_iff hplain hmapped]
  constructor
  · rintro ⟨whole, fraction, happ, hne, hdigits⟩
    obtain ⟨whole, tail, htext, rfl, htail⟩ := List.map_eq_append_iff.mp happ
    obtain ⟨c, fraction, rfl, hc, rfl⟩ := List.map_eq_cons_iff.mp htail
    rw [asciiDigit_eq_point] at hc
    rw [← List.map_append] at hne hdigits
    refine ⟨whole, fraction, hc ▸ htext, fun hnil => hne (by rw [hnil]; rfl), fun d hd => ?_⟩
    exact isDigit_asciiDigit.mp (hdigits _ (List.mem_map_of_mem hd))
  · rintro ⟨whole, fraction, htext, hne, hdecimal⟩
    refine ⟨whole.map py.asciiDigit, fraction.map py.asciiDigit, ?_, ?_, fun c hc => ?_⟩
    · rw [htext, List.map_append, List.map_cons, asciiDigit_eq_point.mpr rfl]
    · rwa [← List.map_append, ne_eq, List.map_eq_nil_iff]
    · rw [← List.map_append] at hc
      obtain ⟨d, hd, rfl⟩ := List.mem_map.mp hc
      exact isDigit_asciiDigit.mpr (hdecimal d hd)

/-- **What `_parse_number` takes** of the text of a NUMBER. -/
theorem parseNumber_ok_iff (h : ∀ c ∈ text.toList, py.isdigit c = true ∨ c = '.') :
    (∃ v, py.parseNumber text = .ok v) ↔ py.IsInt text ∨ py.IsFloat text := by
  have hmap : ∀ {α : Type} (r : Except PyErr α) (f : α → Value),
      (∃ v, r.map f = .ok v) ↔ ∃ a, r = .ok a := by
    intro α r f
    cases r with
    | error e => exact iff_of_false nofun nofun
    | ok a => exact iff_of_true ⟨_, rfl⟩ ⟨a, rfl⟩
  unfold Python.parseNumber
  split
  · rename_i hpoint
    have hmem : '.' ∈ text.toList := List.contains_iff_mem.mp hpoint
    rw [hmap, float_ok_iff h hmem]
    refine (or_iff_right fun hint => ?_).symm
    have hsome := hint.1 '.' hmem
    rw [decimal_point] at hsome
    cases hsome
  · rename_i hpoint
    have hlift : (∃ n : Int, (do let a ← py.int text; Except.ok (a : Int)) = .ok n) ↔
        ∃ n, py.int text = .ok n := by
      cases py.int text with
      | error e => exact iff_of_false nofun nofun
      | ok n => exact iff_of_true ⟨n, rfl⟩ ⟨n, rfl⟩
    rw [hmap]
    refine (hlift.trans int_ok_iff).trans ?_
    refine (or_iff_left fun hfloat => ?_).symm
    obtain ⟨whole, fraction, htext, -⟩ := hfloat
    exact hpoint (List.contains_iff_mem.mpr (by simp [htext]))

/-! ## Questions -/

/-- What the parser asks the interpreter for on its way through the text. -/
def Python.asked (py : Python) (sql : String) : List Question :=
  match tokenize py sql with
  | .ok tokens =>
    let filtered := withoutSemicolons tokens
    let line := (filtered.getLast?.map Token.line).getD 1
    (parseAll py).asked (py.host line) filtered
  | .error _ => []

theorem answer_ok_iff {V : Token → Prop} (hV : ∀ t, V t → t.Proper py) {q : Question}
    (hq : Expected V q) : (∃ a, py.answer q = .ok a) ↔ py.Readable q := by
  have hchars : ∀ {text : String}, (∃ t, V t ∧ t.type = .number ∧ t.value = text) →
      ∀ c ∈ text.toList, py.isdigit c = true ∨ c = '.' := by
    rintro text ⟨t, ht, htype, rfl⟩
    exact (hV t ht).number htype
  cases q with
  | number text => exact parseNumber_ok_iff (hchars hq)
  | int text => exact int_ok_iff
  | str frames arg =>
    change (∃ a, (if arg.reprFrames ≤ frames then Except.ok (arg.repr py) else .error recursionError) =
      .ok a) ↔ arg.reprFrames ≤ frames
    split
    · rename_i hle
      exact iff_of_true ⟨_, rfl⟩ hle
    · rename_i hle
      exact iff_of_false nofun hle
  | call => exact iff_of_false nofun not_false
  | turn => exact absurd hq not_false

/-- What the interpreter raises is no `ParseError`. -/
theorem answer_error {q : Question} {e : PyErr} (h : py.answer q = .error e) :
    e = .valueError ∨ ∃ message, e = .runtimeError message := by
  have hint : ∀ {text : String} {e : PyErr}, py.int text = .error e → e = .valueError := by
    intro text e h
    unfold Python.int at h
    split at h
    · split at h
      · cases h
      · exact (Except.error.inj h).symm
    · exact (Except.error.inj h).symm
  cases q with
  | number text =>
    refine Or.inl ?_
    change py.parseNumber text = .error e at h
    unfold Python.parseNumber at h
    split at h
    · unfold Python.float at h
      split at h
      · cases h
      · exact (Except.error.inj h).symm
    · cases hn : py.int text with
      | error e' =>
        rw [hn] at h
        obtain rfl : e' = e := Except.error.inj h
        exact hint hn
      | ok n =>
        rw [hn] at h
        cases h
  | int text => exact Or.inl (hint h)
  | str frames arg =>
    simp only [Python.answer] at h
    split at h
    · cases h
    · exact Or.inr ⟨_, (Except.error.inj h).symm⟩
  | call => exact Or.inr ⟨_, (Except.error.inj h).symm⟩
  | turn => exact Or.inr ⟨_, (Except.error.inj h).symm⟩

/-! ## `parse` -/

/-- A statement, or a `ParseError` with its line and column. -/
def ReturnsOrParseError (r : Except PyErr Statement) : Prop :=
  (∃ stmt, r = .ok stmt) ∨ ∃ message line column, r = .error (.parseError message line column)

theorem asked_expectType (host : Prog.Host Token ParseFailure PyErr Question.Answer)
    (type : TokenType) (ts : List Token) : (expectType py type).asked host ts = [] := by
  change ((if (ts.head?.getD host.last).type ≠ type then
    failAt ("expected " ++ type.str ++ ", got " ++ py.repr (ts.head?.getD host.last).value)
      (ts.head?.getD host.last) else advance).asked host ts) = []
  split <;> rfl

theorem asked_parseAll {tokens : List Token} (hproper : ∀ t ∈ tokens, t.Proper py) (line : Nat)
    {q : Question} (hq : q ∈ (parseAll py).asked (py.host line) tokens) :
    Expected (fun t => t.Proper py) q := by
  rcases Prog.mem_asked_bind.mp hq with hq | ⟨stmt, rest, -, hq⟩
  · exact (sound_parseStatement (fun _ ht => ht) py.frames tokens hproper).1 q hq
  · rcases Prog.mem_asked_bind.mp hq with hq | ⟨_, _, -, hq⟩
    · rw [asked_expectType] at hq
      cases hq
    · cases hq

/-- **`parse` raises `ParseError` alone** exactly when the interpreter can read every number
the parser comes to, and has the frames for the calls. -/
theorem parse_returns_or_parseError_iff (py : Python) (sql : String) :
    ReturnsOrParseError (parse py sql) ↔ ∀ q ∈ py.asked sql, py.Readable q := by
  rcases tokenizeFrom_cases py (Nat.le_refl sql.toList.length) 1 1 with
    ⟨tokens, htokens, hproper⟩ | ⟨message, line, column, herror⟩
  · have hfiltered : ∀ t ∈ withoutSemicolons tokens, t.Proper py :=
      fun t ht => hproper t (List.mem_of_mem_filter ht)
    have htokenize : tokenize py sql = .ok tokens := htokens
    simp only [parse, Python.asked, htokenize, ok_bind]
    generalize withoutSemicolons tokens = filtered at hfiltered ⊢
    generalize (filtered.getLast?.map Token.line).getD 1 = line
    have hread : ∀ q ∈ (parseAll py).asked (py.host line) filtered,
        ((∃ a, py.answer q = .ok a) ↔ py.Readable q) := fun q hq =>
      answer_ok_iff (fun _ ht => ht) (asked_parseAll hfiltered line hq)
    rcases Prog.run_cases (py.host line) (parseAll py) filtered with
      ⟨hanswered, hrun⟩ | ⟨q, hq, e, hrefused, hrun⟩
    · refine iff_of_true ?_ fun q hq => (hread q hq).mp (hanswered q hq)
      rcases hrun with ⟨r, hrun⟩ | ⟨failure, hrun⟩
      · exact Or.inl ⟨r.1, by rw [hrun, ok_bind]⟩
      · exact Or.inr ⟨_, _, _, by rw [hrun, error_bind]; rfl⟩
    · refine iff_of_false ?_ fun hall => ?_
      · rw [hrun, error_bind]
        rintro (⟨stmt, hstmt⟩ | ⟨message, l, column, herror⟩)
        · cases hstmt
        · rcases answer_error hrefused with rfl | ⟨m, rfl⟩ <;> cases herror
      · obtain ⟨a, ha⟩ := (hread q hq).mpr (hall q hq)
        rw [show py.answer q = .error e from hrefused] at ha
        cases ha
  · have htokenize : tokenize py sql = .error (.parseError message line column) := herror
    refine iff_of_true (Or.inr ⟨message, line, column, ?_⟩) fun q hq => ?_
    · rw [parse, htokenize, error_bind]
    · rw [Python.asked, htokenize] at hq
      cases hq

/-! ## The parser at work -/

/-- An interpreter with the default limits that knows the ASCII characters only. -/
def Python.asciiTables : Python where
  isalpha := Char.isAlpha
  isdigit := Char.isDigit
  isnumeric := Char.isDigit
  decimal c := if c.isDigit then some (Fin.ofNat 10 (c.toNat - 48)) else none
  upper c := if c.isLower then [c.toUpper] else [c]
  isprintable _ := false
  intMaxStrDigits := 4300
  frames := 900
  ascii c _ := by
    cases h : c.isDigit <;> simp
  upper_capital c hc := by
    have hlower : c.isLower = false := by
      have hupper : c.val ≥ 'A'.val ∧ c.val ≤ 'Z'.val := of_decide_eq_true hc
      change (decide (c.val ≥ 'a'.val) && decide (c.val ≤ 'z'.val)) = false
      rw [decide_eq_false, Bool.false_and]
      intro hle
      exact absurd (UInt32.le_trans hle hupper.2) (by decide)
    rw [hlower]
    rfl

/-- `float` refuses two points, and nothing in the parser catches what it raises. -/
theorem not_parse_returns_or_parseError :
    ¬ ∀ (py : Python) (sql : String), ReturnsOrParseError (parse py sql) := by
  have hpoints : parse Python.asciiTables "SELECT 1.2.3" = .error .valueError := by
    decide +kernel
  intro h
  rcases h Python.asciiTables "SELECT 1.2.3" with ⟨stmt, hstmt⟩ | ⟨message, line, column, herror⟩
  · rw [hpoints] at hstmt
    cases hstmt
  · rw [hpoints] at herror
    cases herror

example : parse Python.asciiTables "SELECT a FROM t LIMIT 1.5" = .error .valueError := by
  decide +kernel

example : Python.asciiTables.asked "SELECT a FROM t WHERE a = 2.5 LIMIT 7" =
    [.number "2.5", .int "7"] := by decide +kernel

end TinyDB
