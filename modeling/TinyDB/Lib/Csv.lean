import Mathlib.Tactic

/-!
# Comma-separated values

A reader of records by the rules of RFC 4180: fields are separated by commas,
a record ends at a line break (LF or CR LF), the break after the last record is
optional, a field in quotes may hold anything with its quotes doubled, and a
field without quotes holds neither quotes, commas nor breaks. The rules about a
written line say how the fields read depend on the fields written.
-/

namespace TinyDB.Lib.Csv

inductive Mode where
  | start
  | plain
  | quoted
  | quote
  | cr
  deriving DecidableEq

/-- What one character does to the field it stands in. -/
inductive Act where
  | keep
  | skip
  | field
  | record
  deriving DecidableEq

def step : Mode → Char → Option (Mode × Act)
  | .cr, c => if c = '\n' then some (.start, .record) else none
  | .quoted, c => if c = '"' then some (.quote, .skip) else some (.quoted, .keep)
  | mode, c =>
    if c = ',' then some (.start, .field)
    else if c = '\n' then some (.start, .record)
    else if c = '\r' then some (.cr, .skip)
    else match mode, decide (c = '"') with
      | .start, true => some (.quoted, .skip)
      | .quote, true => some (.quoted, .keep)
      | .start, false | .plain, false => some (.plain, .keep)
      | _, _ => none

/-- The rest of the current field, of its record, and the records after it. -/
structure Reading where
  field : List Char
  fields : List (List Char)
  records : List (List (List Char))
  deriving DecidableEq

namespace Reading

def done : Reading := ⟨[], [], []⟩

def prepend (text : List Char) (r : Reading) : Reading := { r with field := text ++ r.field }

def next (r : Reading) : Reading := ⟨[], r.field :: r.fields, r.records⟩

def all (r : Reading) : List (List (List Char)) := (r.field :: r.fields) :: r.records

def nextRecord (r : Reading) : Reading := ⟨[], [], r.all⟩

@[simp] theorem prepend_nil (r : Reading) : r.prepend [] = r := rfl

@[simp] theorem prepend_prepend (a b : List Char) (r : Reading) :
    (r.prepend b).prepend a = r.prepend (a ++ b) := by
  simp [prepend]

end Reading

/-- The mode before the first character of `text` is given. -/
def scan : Mode → List Char → Option Reading
  | mode, [] => if mode = .quoted ∨ mode = .cr then none else some .done
  | mode, c :: text =>
    match step mode c with
    | none => none
    | some (mode', .keep) => (scan mode' text).map (·.prepend [c])
    | some (mode', .skip) => scan mode' text
    | some (mode', .field) => (scan mode' text).map (·.next)
    | some (mode', .record) =>
      if text = [] then some .done else (scan mode' text).map (·.nextRecord)

def read (text : List Char) : Option (List (List (List Char))) :=
  (scan .start text).map (·.all)

def special (c : Char) : Bool := c = ',' || c = '"' || c = '\n' || c = '\r'

/-- A text that needs no quotes. -/
abbrev Bare (text : List Char) : Prop := ∀ c ∈ text, special c = false

def doubled (text : List Char) : List Char :=
  text.flatMap fun c => if c = '"' then ['"', '"'] else [c]

def quoted (text : List Char) : List Char := '"' :: (doubled text ++ ['"'])

/-- One line of output. -/
def line (fields : List (List Char)) : List Char := [','].intercalate fields ++ ['\n']

def lines (records : List (List (List Char))) : List Char := records.flatMap line

/-! ## Fields -/

/-- What may follow a field. -/
inductive Closes : List Char → Prop where
  | comma (text : List Char) : Closes (',' :: text)
  | break_ (text : List Char) : Closes ('\n' :: text)

/-- `raw` is read as one field, `text`. -/
def ReadsAs (raw text : List Char) : Prop :=
  ∀ rest, Closes rest → scan .start (raw ++ rest) = (scan .start rest).map (·.prepend text)

/-- The first field of `raw` is not `text`. -/
def Misses (raw text : List Char) : Prop :=
  ∀ rest r, Closes rest → scan .start (raw ++ rest) = some r → r.field ≠ text

theorem scan_comma (text : List Char) :
    scan .start (',' :: text) = (scan .start text).map (·.next) := rfl

theorem scan_break (text : List Char) :
    scan .start ('\n' :: text) =
      if text = [] then some .done else (scan .start text).map (·.nextRecord) := rfl

theorem scan_start_quote (text : List Char) : scan .start ('"' :: text) = scan .quoted text := rfl

theorem scan_plain_quote (text : List Char) : scan .plain ('"' :: text) = none := rfl

theorem scan_quoted_quote (text : List Char) : scan .quoted ('"' :: text) = scan .quote text := rfl

theorem scan_quote_quote (text : List Char) :
    scan .quote ('"' :: text) = (scan .quoted text).map (·.prepend ['"']) := rfl

theorem scan_quoted {c : Char} (hc : c ≠ '"') (text : List Char) :
    scan .quoted (c :: text) = (scan .quoted text).map (·.prepend [c]) := by
  have hstep : step .quoted c = some (.quoted, .keep) := if_neg hc
  simp only [scan, hstep]

theorem special_eq_false_iff (c : Char) :
    special c = false ↔ c ≠ ',' ∧ c ≠ '"' ∧ c ≠ '\n' ∧ c ≠ '\r' := by
  simp [special, and_assoc]

theorem step_bare {mode : Mode} (hmode : mode = .start ∨ mode = .plain) {c : Char}
    (hc : special c = false) : step mode c = some (.plain, .keep) := by
  obtain ⟨hcomma, hquote, hlf, hcr⟩ := (special_eq_false_iff c).mp hc
  rcases hmode with rfl | rfl <;>
    exact (if_neg hcomma).trans <| (if_neg hlf).trans <| (if_neg hcr).trans <| by
      rw [decide_eq_false hquote]

theorem scan_start_eq_plain {c : Char} (hc : c ≠ '"') (text : List Char) :
    scan .start (c :: text) = scan .plain (c :: text) := by
  have hstep : step .start c = step .plain c := by
    simp only [step, decide_eq_false hc]
  simp only [scan, hstep]

theorem scan_closes {mode : Mode} (hcr : mode ≠ .cr) (hquoted : mode ≠ .quoted) {rest : List Char}
    (h : Closes rest) : scan mode rest = scan .start rest := by
  cases h <;> cases mode <;> first | contradiction | rfl

theorem field_closes {rest : List Char} {r : Reading} (h : Closes rest)
    (hr : scan .start rest = some r) : r.field = [] := by
  cases h with
  | comma text =>
    obtain ⟨_, _, rfl⟩ := Option.map_eq_some_iff.mp ((scan_comma text).symm.trans hr)
    rfl
  | break_ text =>
    rw [scan_break] at hr
    split at hr
    · cases hr; rfl
    · obtain ⟨_, _, rfl⟩ := Option.map_eq_some_iff.mp hr
      rfl

theorem scan_bare {mode : Mode} (hmode : mode = .start ∨ mode = .plain) {text : List Char}
    (hbare : Bare text) {rest : List Char} (h : Closes rest) :
    scan mode (text ++ rest) = (scan .start rest).map (·.prepend text) := by
  induction text generalizing mode with
  | nil =>
    rw [List.nil_append, scan_closes (by rcases hmode with rfl | rfl <;> simp)
      (by rcases hmode with rfl | rfl <;> simp) h]
    simp
  | cons c text ih =>
    have hstep := step_bare hmode (hbare c List.mem_cons_self)
    have hrest := ih (.inr rfl) (fun c hc => hbare c (List.mem_cons_of_mem _ hc))
    simp only [List.cons_append, scan, hstep, hrest, Option.map_map]
    rfl

theorem readsAs_bare {text : List Char} (h : Bare text) : ReadsAs text text :=
  fun _ hrest => scan_bare (.inl rfl) h hrest

theorem scan_doubled (text : List Char) {rest : List Char} (h : Closes rest) :
    scan .quoted (doubled text ++ '"' :: rest) = (scan .start rest).map (·.prepend text) := by
  induction text with
  | nil =>
    have hquote : scan .quote rest = scan .start rest := scan_closes (by simp) (by simp) h
    simp [doubled, scan_quoted_quote, hquote]
  | cons c text ih =>
    by_cases hc : c = '"'
    · subst hc
      simp only [doubled, List.flatMap_cons, if_true, List.cons_append, List.nil_append] at ih ⊢
      rw [scan_quoted_quote, scan_quote_quote, ih, Option.map_map]
      rfl
    · simp only [doubled, List.flatMap_cons, if_neg hc, List.cons_append, List.nil_append] at ih ⊢
      rw [scan_quoted hc, ih, Option.map_map]
      rfl

theorem readsAs_quoted (text : List Char) : ReadsAs (quoted text) text := by
  intro rest h
  have hquoted := scan_doubled text h
  simp only [quoted, List.cons_append, List.append_assoc, List.nil_append]
  exact (scan_start_quote _).trans hquoted

theorem bare_nil : Bare [] := List.forall_mem_nil _

theorem field_cr {text : List Char} {r : Reading} (h : scan .cr text = some r) : r.field = [] := by
  cases text with
  | nil => cases h
  | cons c text =>
    by_cases hc : c = '\n'
    · subst hc
      exact field_closes (.break_ text) h
    · have hstep : step .cr c = none := if_neg hc
      simp [scan, hstep] at h

/-- Without a quote in front no field holds a special character. -/
theorem bare_field {text : List Char} {r : Reading} (h : scan .plain text = some r) :
    Bare r.field := by
  induction text generalizing r with
  | nil =>
    cases h
    exact bare_nil
  | cons c text ih =>
    by_cases hc : special c = true
    · simp only [special, Bool.or_eq_true, decide_eq_true_eq] at hc
      rcases hc with ((rfl | rfl) | rfl) | rfl
      · exact field_closes (.comma text) h ▸ bare_nil
      · exact nomatch (scan_plain_quote text).symm.trans h
      · exact field_closes (.break_ text) h ▸ bare_nil
      · exact field_cr h ▸ bare_nil
    · have hbare := Bool.eq_false_iff.mpr hc
      simp only [scan, step_bare (.inr rfl) hbare, Option.map_eq_some_iff] at h
      obtain ⟨r', hr', rfl⟩ := h
      exact List.forall_mem_cons.mpr ⟨hbare, ih hr'⟩

theorem ReadsAs.misses {raw text text' : List Char} (h : ReadsAs raw text) (hne : text ≠ text') :
    Misses raw text' := by
  intro rest r hrest hr
  rw [h rest hrest, Option.map_eq_some_iff] at hr
  obtain ⟨r', hr', rfl⟩ := hr
  simpa [Reading.prepend, field_closes hrest hr'] using hne

theorem ReadsAs.not_misses {raw text : List Char} (h : ReadsAs raw text) : ¬ Misses raw text := by
  intro hmiss
  have hread := h ['\n'] (.break_ [])
  exact hmiss ['\n'] (Reading.done.prepend text) (.break_ []) hread (by simp [Reading.prepend,
    Reading.done])

/-- A text that needs quotes and starts without one is not read back. -/
theorem misses_of_not_bare {raw text : List Char} (hhead : raw.head? ≠ some '"')
    (h : ¬ Bare text) : Misses raw text := by
  intro rest r hrest hr e
  have hplain : scan .start (raw ++ rest) = scan .plain (raw ++ rest) := by
    cases raw with
    | nil => exact (scan_closes (by simp) (by simp) hrest).symm
    | cons c raw =>
      have hc : c ≠ '"' := fun e => hhead (by rw [e]; rfl)
      exact scan_start_eq_plain hc _
  exact h (e ▸ bare_field (hplain ▸ hr))

/-! ### A quote in front -/

def lead (text : List Char) : Nat := (text.takeWhile fun c => c = '"').length

@[simp] theorem lead_nil : lead [] = 0 := rfl

@[simp] theorem lead_quote (text : List Char) : lead ('"' :: text) = lead text + 1 := by
  simp [lead]

theorem lead_of_ne {c : Char} (hc : c ≠ '"') (text : List Char) : lead (c :: text) = 0 := by
  simp [lead, hc]

theorem lead_append {rest : List Char} (h : Closes rest) (text : List Char) :
    lead (text ++ rest) = lead text := by
  induction text with
  | nil => cases h <;> rfl
  | cons c text ih =>
    by_cases hc : c = '"'
    · subst hc
      simp [ih]
    · rw [List.cons_append, lead_of_ne hc, lead_of_ne hc]

/-- After the closing quote the field is over. -/
theorem field_quote {c : Char} (hc : c ≠ '"') {text : List Char} {r : Reading}
    (h : scan .quote (c :: text) = some r) : r.field = [] := by
  by_cases hcomma : c = ','
  · subst hcomma
    exact field_closes (.comma text) h
  by_cases hlf : c = '\n'
  · subst hlf
    exact field_closes (.break_ text) h
  by_cases hcr : c = '\r'
  · subst hcr
    exact field_cr h
  simp [scan, step, hcomma, hlf, hcr, hc] at h

/-- A field in quotes starts with at most half of the quotes that are written. -/
theorem lead_field {text : List Char} {r : Reading} :
    (scan .quoted text = some r → 2 * lead r.field ≤ lead text) ∧
      (scan .quote text = some r → 2 * lead r.field ≤ lead text + 1) := by
  induction text generalizing r with
  | nil =>
    refine ⟨(nomatch ·), fun h => ?_⟩
    cases h
    simp [Reading.done]
  | cons c text ih =>
    by_cases hc : c = '"'
    · subst hc
      refine ⟨fun h => ?_, fun h => ?_⟩
      · exact (lead_quote text).symm ▸ ih.2 ((scan_quoted_quote text).symm.trans h)
      · rw [scan_quote_quote, Option.map_eq_some_iff] at h
        obtain ⟨r', hr', rfl⟩ := h
        have hquoted := ih.1 hr'
        simp only [Reading.prepend, List.cons_append, List.nil_append, lead_quote]
        omega
    · refine ⟨fun h => ?_, fun h => ?_⟩
      · rw [scan_quoted hc, Option.map_eq_some_iff] at h
        obtain ⟨r', hr', rfl⟩ := h
        simp [Reading.prepend, lead_of_ne hc]
      · simp [field_quote hc h]

/-- A text that starts with a quote is not read back from itself. -/
theorem misses_of_quote {text : List Char} (hhead : text.head? = some '"') :
    Misses text text := by
  intro rest r hrest hr e
  cases text with
  | nil => cases hhead
  | cons c text =>
    cases hhead
    have hle := lead_field.1 ((scan_start_quote (text ++ rest)).symm.trans hr)
    rw [e, lead_quote, lead_append hrest] at hle
    omega

/-! ## Lines -/

/-- A field as it is written and the text it stands for. -/
abbrev Pair := List Char × List Char

def Decided (p : Pair) : Prop := ReadsAs p.1 p.2 ∨ Misses p.1 p.2

theorem line_single (raw : List Char) : line [raw] = raw ++ ['\n'] := by
  simp [line]

theorem line_cons (raw raw' : List Char) (raws : List (List Char)) :
    line (raw :: raw' :: raws) = raw ++ ',' :: line (raw' :: raws) := by
  simp [line, List.intercalate_cons_cons]

/-- A line whose fields are read back is read back. -/
theorem scan_line {p : Pair} {ps : List Pair} (h : ∀ q ∈ p :: ps, ReadsAs q.1 q.2)
    (rest : List Char) :
    scan .start (line ((p :: ps).map Prod.fst) ++ rest) =
      if rest = [] then some ⟨p.2, ps.map Prod.snd, []⟩
      else (read rest).map fun records => ⟨p.2, ps.map Prod.snd, records⟩ := by
  induction ps generalizing p with
  | nil =>
    have hp := h p List.mem_cons_self ('\n' :: rest) (.break_ rest)
    rw [List.map_cons, List.map_nil, line_single, List.append_assoc, List.singleton_append, hp,
      scan_break]
    split
    · simp [Reading.prepend, Reading.done]
    · simp only [read, Option.map_map]
      congr 1
      funext r
      simp [Reading.prepend, Reading.nextRecord]
  | cons q ps ih =>
    have hp := h p List.mem_cons_self (',' :: (line ((q :: ps).map Prod.fst) ++ rest)) (.comma _)
    have hq := ih (fun q hq => h q (List.mem_cons_of_mem _ hq))
    rw [List.map_cons, List.map_cons, line_cons, List.append_assoc, List.cons_append,
      ← List.map_cons, hp]
    rw [scan_comma, hq]
    split
    · simp [Reading.prepend, Reading.next]
    · simp only [Option.map_map]
      congr 1
      funext r
      simp [Reading.prepend, Reading.next]

theorem read_line {p : Pair} {ps : List Pair} (h : ∀ q ∈ p :: ps, ReadsAs q.1 q.2)
    (rest : List Char) :
    read (line ((p :: ps).map Prod.fst) ++ rest) =
      if rest = [] then some [(p :: ps).map Prod.snd]
      else (read rest).map ((p :: ps).map Prod.snd :: ·) := by
  rw [read, scan_line h]
  split
  · rfl
  · rw [Option.map_map]
    rfl

/-- A line that comes back as it was meant has no field that is missed. -/
theorem readsAs_of_line {p : Pair} {ps : List Pair} (hdec : ∀ q ∈ p :: ps, Decided q)
    {rest : List Char} {r : Reading}
    (h : scan .start (line ((p :: ps).map Prod.fst) ++ rest) = some r)
    (hr : r.field :: r.fields = (p :: ps).map Prod.snd) : ∀ q ∈ p :: ps, ReadsAs q.1 q.2 := by
  induction ps generalizing p r with
  | nil =>
    rw [List.map_cons, List.map_nil, line_single, List.append_assoc] at h
    rcases hdec p List.mem_cons_self with hp | hp
    · simpa using hp
    · exact absurd (List.cons.inj hr).1 (hp _ r (.break_ rest) h)
  | cons q ps ih =>
    rw [List.map_cons, List.map_cons, line_cons, List.append_assoc, List.cons_append,
      ← List.map_cons] at h
    obtain ⟨hfield, hfields⟩ := List.cons.inj hr
    rcases hdec p List.mem_cons_self with hp | hp
    · rw [hp _ (.comma _)] at h
      rw [scan_comma, Option.map_map, Option.map_eq_some_iff] at h
      obtain ⟨r', hr', rfl⟩ := h
      have hps := ih (fun q hq => hdec q (List.mem_cons_of_mem _ hq)) hr' hfields
      exact List.forall_mem_cons.mpr ⟨hp, hps⟩
    · exact absurd hfield (hp _ r (.comma _) h)

theorem lines_ne_nil {records : List (List (List Char))} (h : records ≠ []) :
    lines records ≠ [] := by
  cases records with
  | nil => exact absurd rfl h
  | cons fields records => simp [lines, line]

/-- **Reading what was written.** When every field is known to be read back or
missed, the records come back exactly when no field is missed. -/
theorem read_lines {records : List (List Pair)} (hne : records ≠ [])
    (hfields : ∀ ps ∈ records, ps ≠ []) (hdec : ∀ ps ∈ records, ∀ q ∈ ps, Decided q) :
    read (lines (records.map (·.map Prod.fst))) = some (records.map (·.map Prod.snd)) ↔
      ∀ ps ∈ records, ∀ q ∈ ps, ReadsAs q.1 q.2 := by
  induction records with
  | nil => exact absurd rfl hne
  | cons ps records ih =>
    obtain ⟨hps, hrest⟩ := List.forall_mem_cons.mp hdec
    cases ps with
    | nil => exact absurd rfl (hfields [] List.mem_cons_self)
    | cons p ps =>
      rw [List.forall_mem_cons, List.map_cons (l := records), lines, List.flatMap_cons, ← lines,
        List.map_cons (l := records)]
      by_cases hline : ∀ q ∈ p :: ps, ReadsAs q.1 q.2
      · rw [read_line hline]
        by_cases hnil : records = []
        · subst hnil
          simpa [lines] using hline
        · have hback := ih hnil (fun ps h => hfields ps (List.mem_cons_of_mem _ h)) hrest
          rw [if_neg (lines_ne_nil (by simpa using hnil)), ← hback]
          simpa using fun _ => hline
      · refine ⟨fun h => ?_, fun h => absurd h.1 hline⟩
        obtain ⟨r, hr, he⟩ := Option.map_eq_some_iff.mp h
        exact absurd (readsAs_of_line hps hr (List.cons.inj he).1) hline

/-! ## Sizes -/

theorem step_spec {mode mode' : Mode} {c : Char} {act : Act} (h : step mode c = some (mode', act)) :
    match act with
    | .keep => mode = .quoted → mode' = .quoted
    | .skip => True
    | .field => mode' = .start ∧ mode ≠ .quoted
    | .record => mode' = .start ∧ mode ≠ .quoted ∧ c = '\n' := by
  cases mode <;> simp only [step] at h <;> split_ifs at h <;> first | cases h; simp_all | skip
  all_goals split at h <;> cases h <;> simp

/-- The characters a field takes up: its own, the comma or break after it, and
the quotes that a line break needs. -/
def fieldSize (field : List Char) : Nat := field.length + 1 + if '\n' ∈ field then 2 else 0

def size (records : List (List (List Char))) : Nat :=
  (records.map fun fields => (fields.map fieldSize).sum).sum

/-- The size of a reading, without the quotes of the current field. -/
def Reading.size (r : Reading) : Nat :=
  r.field.length + 1 + (r.fields.map fieldSize).sum + Csv.size r.records

theorem fieldSize_add_le_size {fields fields' : List (List Char)} {field field' : List Char}
    (h : field ∈ fields) (h' : field' ∈ fields') (records : List (List (List Char))) :
    fieldSize field + fieldSize field' ≤ size (fields :: fields' :: records) := by
  have hle := List.le_sum_of_mem (List.mem_map_of_mem (f := fieldSize) h)
  have hle' := List.le_sum_of_mem (List.mem_map_of_mem (f := fieldSize) h')
  simp only [size, List.map_cons, List.sum_cons]
  omega

theorem read_ne_nil {text : List Char} {records : List (List (List Char))} :
    read text ≠ some ([] :: records) := by
  intro h
  obtain ⟨r, -, hr⟩ := Option.map_eq_some_iff.mp h
  exact absurd (List.cons.inj hr).1 (List.cons_ne_nil _ _)

theorem size_all_le (r : Reading) : size r.all ≤ r.size + 2 := by
  simp only [size, Reading.all, Reading.size, List.map_cons, List.sum_cons, fieldSize]
  split <;> omega

theorem size_all_of_bare {r : Reading} (h : Bare r.field) : size r.all = r.size := by
  have hlf : '\n' ∉ r.field := fun hlf => by simpa [special] using h _ hlf
  simp only [size, Reading.all, Reading.size, List.map_cons, List.sum_cons, fieldSize, if_neg hlf]

theorem size_next (r : Reading) : r.next.size = size r.all + 1 := by
  simp only [Reading.next, Reading.size, size, Reading.all, List.map_cons, List.sum_cons,
    List.length_nil]
  omega

theorem size_nextRecord (r : Reading) : r.nextRecord.size = size r.all + 1 := by
  simp only [Reading.nextRecord, Reading.size, List.map_nil, List.sum_nil, List.length_nil]
  omega

/-- What is read is no longer than the text, the last break apart. -/
theorem scan_size {text : List Char} {mode : Mode} {r : Reading} (h : scan mode text = some r) :
    r.size ≤ text.length + (if mode = .quoted then 0 else 1) ∧
      (mode = .start → size r.all ≤ text.length + 1) := by
  induction text generalizing mode r with
  | nil =>
    cases mode <;> cases h <;> decide
  | cons c text ih =>
    have hsize : r.size ≤ (c :: text).length + (if mode = .quoted then 0 else 1) := by
      cases hstep : step mode c with
      | none => simp [scan, hstep] at h
      | some next =>
        obtain ⟨mode', act⟩ := next
        have hspec := step_spec hstep
        cases act with
        | keep =>
          simp only [scan, hstep, Option.map_eq_some_iff] at h
          obtain ⟨r', hr', rfl⟩ := h
          have hle := (ih hr').1
          simp only [Reading.size, Reading.prepend, List.length_append, List.length_cons,
            List.length_nil] at hle ⊢
          split at hle <;> split <;> simp_all <;> omega
        | skip =>
          simp only [scan, hstep] at h
          have hle := (ih h).1
          simp only [List.length_cons]
          split at hle <;> split <;> omega
        | field =>
          simp only [scan, hstep, Option.map_eq_some_iff] at h
          obtain ⟨r', hr', rfl⟩ := h
          have hle := (ih hr').2 hspec.1
          rw [size_next, if_neg hspec.2, List.length_cons]
          omega
        | record =>
          simp only [scan, hstep] at h
          rw [if_neg hspec.2.1, List.length_cons]
          split at h
          · cases h
            simp [Reading.size, Reading.done, size]
          · obtain ⟨r', hr', rfl⟩ := Option.map_eq_some_iff.mp h
            have hle := (ih hr').2 hspec.1
            rw [size_nextRecord]
            omega
    refine ⟨hsize, fun hmode => ?_⟩
    subst hmode
    by_cases hc : c = '"'
    · subst hc
      have hquoted : scan .quoted text = some r := (scan_start_quote text).symm.trans h
      have hle := (ih hquoted).1
      have hall := size_all_le r
      simp only [if_true, List.length_cons] at hle ⊢
      omega
    · have hplain : scan .plain (c :: text) = some r := (scan_start_eq_plain hc text).symm.trans h
      rw [size_all_of_bare (bare_field hplain)]
      simpa using hsize

theorem read_size {text : List Char} {records : List (List (List Char))}
    (h : read text = some records) : size records ≤ text.length + 1 := by
  obtain ⟨r, hr, rfl⟩ := Option.map_eq_some_iff.mp h
  exact (scan_size hr).2 rfl

/-- One line is one record. -/
theorem scan_one_line {text : List Char} (hlf : '\n' ∉ text) {mode : Mode} {r : Reading}
    (h : scan mode (text ++ ['\n']) = some r) : r.records = [] := by
  induction text generalizing mode r with
  | nil => cases mode <;> cases h <;> rfl
  | cons c text ih =>
    obtain ⟨hc, htext⟩ := not_or.mp (mt List.mem_cons.mpr hlf)
    rw [List.cons_append] at h
    cases hstep : step mode c with
    | none => simp [scan, hstep] at h
    | some next =>
      obtain ⟨mode', act⟩ := next
      have hspec := step_spec hstep
      cases act with
      | keep =>
        simp only [scan, hstep, Option.map_eq_some_iff] at h
        obtain ⟨r', hr', rfl⟩ := h
        exact (ih htext hr' : r'.records = [])
      | skip =>
        simp only [scan, hstep] at h
        exact ih htext h
      | field =>
        simp only [scan, hstep, Option.map_eq_some_iff] at h
        obtain ⟨r', hr', rfl⟩ := h
        exact (ih htext hr' : r'.records = [])
      | record => exact absurd hspec.2.2.symm hc

theorem read_one_line {text : List Char} (hlf : '\n' ∉ text) {records : List (List (List Char))}
    (h : read (text ++ ['\n']) = some records) : records.length = 1 := by
  obtain ⟨r, hr, rfl⟩ := Option.map_eq_some_iff.mp h
  simp [Reading.all, scan_one_line hlf hr]

end TinyDB.Lib.Csv
