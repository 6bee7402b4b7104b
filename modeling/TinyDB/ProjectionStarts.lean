import TinyDB.ParserSound

/-!
# Where a projection starts

The places of a SELECT at which a `*` would be a projection or the argument of an aggregate,
found by a scan of the lexemes. In a derivation as many of them hold one as the tree has
stars, so two derivations of one tree from the same lexemes agree on the stars.
-/

namespace TinyDB

open Lib Lexeme Grammar

/-! ## The scan -/

inductive Place where
  | start
  | call
  | inside
  deriving DecidableEq, Repr

/-- A place and how deep in parentheses it is. -/
abbrev Spot := Place × Nat

/-- The spot behind a lexeme. A comma outside parentheses separates projections. -/
def Spot.next (spot : Spot) (l : Lexeme) : Spot :=
  if l = punct "," then (if spot.2 = 0 then .start else .inside, spot.2)
  else if l = punct "(" then (if spot.1 = .call then .start else .inside, spot.2 + 1)
  else if l = punct ")" then (.inside, spot.2 - 1)
  else if l.type = .keyword ∧ isAggregate l.value then (.call, spot.2)
  else (.inside, spot.2)

/-- The lexemes at the start of a projection or of the argument of an aggregate. -/
def starts (spot : Spot) : List Lexeme → List Lexeme
  | [] => []
  | l :: ls => (if spot.1 = .start then [l] else []) ++ starts (spot.next l) ls

/-- The same in a statement: behind SELECT, which EXPLAIN may announce. -/
def projectionStarts : List Lexeme → List Lexeme
  | [] => []
  | l :: ls =>
    if l = keyword "EXPLAIN" then projectionStarts ls
    else if l = keyword "SELECT" then starts (.start, 0) ls
    else []

theorem starts_append (spot : Spot) (s r : List Lexeme) :
    starts spot (s ++ r) = starts spot s ++ starts (s.foldl Spot.next spot) r := by
  induction s generalizing spot with
  | nil => rfl
  | cons l s ih => rw [List.cons_append, starts, starts, ih, List.append_assoc, List.foldl_cons]

/-- Only a call makes a difference to what follows. -/
theorem next_start (d : Nat) (l : Lexeme) : Spot.next (.start, d) l = Spot.next (.inside, d) l := by
  unfold Spot.next
  rfl

theorem starts_start (d : Nat) (l : Lexeme) (ls : List Lexeme) :
    starts (.start, d) (l :: ls) = l :: starts (.inside, d) (l :: ls) := by
  rw [starts, starts, next_start]
  rfl

/-! ## Segments that start no projection -/

section

variable {py : Python} {d : Nat} {s r : List Lexeme} {l : Lexeme} {e : Expr} {α : Type}

/-- The scan is where it was, and at most identifiers stood where a projection might. -/
structure Still (d : Nat) (s : List Lexeme) : Prop where
  back : s.foldl Spot.next (.inside, d) = (.inside, d)
  idents : ∀ l ∈ starts (.inside, d) s, l.type = .ident

theorem still_nil : Still d [] := ⟨rfl, nofun⟩

theorem Still.append (hs : Still d s) (hr : Still d r) : Still d (s ++ r) := by
  refine ⟨by rw [List.foldl_append, hs.back, hr.back], fun l hl => ?_⟩
  rw [starts_append, hs.back] at hl
  exact (List.mem_append.mp hl).elim (hs.idents l) (hr.idents l)

theorem Still.cons (hl : Still d [l]) (hs : Still d s) : Still d (l :: s) := hl.append hs

/-- A lexeme that is no comma, no parenthesis and no aggregate. -/
def Lexeme.Plain (l : Lexeme) : Prop :=
  l ≠ punct "," ∧ l ≠ punct "(" ∧ l ≠ punct ")" ∧ ¬ (l.type = .keyword ∧ isAggregate l.value = true)

instance Lexeme.decidablePlain (l : Lexeme) : Decidable l.Plain := by
  unfold Lexeme.Plain
  infer_instance

theorem next_of_plain (h : l.Plain) (spot : Spot) : spot.next l = (.inside, spot.2) := by
  rw [Spot.next, if_neg h.1, if_neg h.2.1, if_neg h.2.2.1, if_neg h.2.2.2]

theorem still_plain (h : l.Plain) : Still d [l] := ⟨next_of_plain h _, nofun⟩

theorem still_of_plain (h : ∀ l ∈ s, l.Plain) : Still d s := by
  induction s with
  | nil => exact still_nil
  | cons l s ih =>
    rw [List.forall_mem_cons] at h
    exact Still.cons (still_plain h.1) (ih h.2)

theorem still_of_type (hp : l.type ≠ .punct) (hk : l.type ≠ .keyword) : Still d [l] := by
  refine still_plain ⟨?_, ?_, ?_, fun ha => hk ha.1⟩ <;> rintro rfl <;> exact hp rfl

theorem still_ident (name : String) : Still d [ident name] := still_of_type nofun nofun

theorem still_group (h : Still (d + 1) s) : Still d (punct "(" :: s ++ [punct ")"]) := by
  have hopen : Spot.next (.inside, d) (punct "(") = (.inside, d + 1) := rfl
  refine ⟨?_, fun l hl => ?_⟩
  · rw [List.cons_append, List.foldl_cons, hopen, List.foldl_append, h.back]
    rfl
  · rw [List.cons_append, starts, hopen, starts_append, h.back] at hl
    exact h.idents l (by simpa [starts] using hl)

/-- Outside parentheses an identifier stands behind a comma. -/
def Heads (d : Nat) (s : List Lexeme) : Prop := d = 0 → ∃ name r, s = ident name :: r

theorem still_comma (h : Still d s) (hhead : Heads d s) : Still d (punct "," :: s) := by
  cases d with
  | succ d => exact Still.cons ⟨rfl, nofun⟩ h
  | zero =>
    obtain ⟨name, r, rfl⟩ := hhead rfl
    have hnext : Spot.next (.inside, 0) (punct ",") = (.start, 0) := rfl
    refine ⟨?_, fun u hu => ?_⟩
    · rw [List.foldl_cons, hnext, List.foldl_cons, next_start]
      exact h.back
    · rw [starts, hnext, starts_start] at hu
      rcases List.mem_cons.mp hu with rfl | hu
      · rfl
      · exact h.idents u hu

theorem Heads.append (h : Heads d s) : Heads d (s ++ r) := fun hd => by
  obtain ⟨name, u, rfl⟩ := h hd
  exact ⟨name, u ++ r, rfl⟩

theorem still_separated {item : List Lexeme → α → Prop} {as : List α}
    (hitem : ∀ s a, item s a → Still d s ∧ Heads d s) (h : Separated item s as) :
    Still d s ∧ Heads d s := by
  induction h with
  | one ha => exact hitem _ _ ha
  | cons ha _ ih =>
    obtain ⟨hs, hhead⟩ := hitem _ _ ha
    exact ⟨hs.append (still_comma ih.1 ih.2), hhead.append⟩

theorem still_each {item : List Lexeme → α → Prop} {as : List α}
    (hitem : ∀ s a, item s a → Still d s) (h : Each item s as) : Still d s := by
  induction h with
  | nil => exact still_nil
  | cons ha _ ih => exact (hitem _ _ ha).append ih

/-! ## Expressions -/

theorem still_literal {value : Value} {raw : String} (h : Literal py l value raw) :
    Still d [l] := by
  cases h with
  | number _ => exact still_of_type nofun nofun
  | string _ => exact still_of_type nofun nofun
  | true => exact still_plain (by decide)
  | false => exact still_plain (by decide)
  | null => exact still_plain (by decide)

theorem still_literalList {values : List Value} (h : LiteralList py s values) : Still d s := by
  obtain ⟨r, rfl, hr⟩ := h
  have hitem : ∀ s a, LiteralValue py s a → Still (d + 1) s ∧ Heads (d + 1) s := by
    rintro s a ⟨l, raw, rfl, hl⟩
    exact ⟨still_literal hl, fun hd => absurd hd (Nat.succ_ne_zero d)⟩
  exact still_group (still_separated hitem hr).1

theorem still_columnRef (h : ColumnRef s e) : Still d s ∧ Heads d s := by
  cases h with
  | plain name => exact ⟨still_ident name, fun _ => ⟨_, _, rfl⟩⟩
  | qualified table name =>
    refine ⟨Still.cons (still_ident table) (Still.cons (still_plain (by decide))
      (still_ident name)), fun _ => ⟨_, _, rfl⟩⟩

theorem still_words {ks : List String} (h : ∀ l ∈ words ks, l.Plain) : Still d (words ks) :=
  still_of_plain h

theorem still_derives {level : Level} (h : Derives py level s e) : Still d s := by
  induction h generalizing d with
  | literal hl => exact still_literal hl
  | column hc => exact (still_columnRef hc).1
  | group _ ih => exact still_group ih
  | primary _ ih | comparison _ ih | conjunction _ ih => exact ih
  | compare _ _ _ ih ih' => exact ih.append (Still.cons (still_of_type nofun nofun) ih')
  | isNull _ ih => exact ih.append (still_words (by decide))
  | isNotNull _ ih => exact ih.append (still_words (by decide))
  | isIn _ hvalues ih =>
    exact ih.append (Still.cons (still_plain (by decide)) (still_literalList hvalues))
  | notIn _ hvalues ih =>
    exact (ih.append (still_words (by decide))).append (still_literalList hvalues)
  | between _ _ _ ih ih' ih'' =>
    exact (ih.append (Still.cons (still_plain (by decide)) ih')).append
      (Still.cons (still_plain (by decide)) ih'')
  | and _ _ ih ih' => exact ih.append (Still.cons (still_plain (by decide)) ih')
  | or _ _ ih ih' => exact ih.append (Still.cons (still_plain (by decide)) ih')

/-! ## What follows the projections -/

theorem still_clause {k : String} {absent a : α} {body : List Lexeme → α → Prop}
    (hk : (keyword k).Plain) (hbody : ∀ s a, body s a → Still d s)
    (h : Clause k absent body s a) : Still d s := by
  rcases h with ⟨rfl, -⟩ | ⟨r, rfl, hr⟩
  · exact still_nil
  · exact Still.cons (still_plain hk) (hbody r a hr)

theorem still_by {item : List Lexeme → α → Prop} {as : List α}
    (hitem : ∀ s a, item s a → Still d s ∧ Heads d s) (h : By item s as) : Still d s := by
  obtain ⟨r, rfl, hr⟩ := h
  exact Still.cons (still_plain (by decide)) (still_separated hitem hr).1

theorem still_alias {alias' : Option String} (h : Alias s alias') : Still d s := by
  cases h with
  | none => exact still_nil
  | as name => exact Still.cons (still_plain (by decide)) (still_ident name)
  | bare name => exact still_ident name

theorem still_join {join : JoinClause} (h : Join py s join) : Still d s := by
  obtain ⟨kind, alias', cond, e, rfl, hkind, halias, hcond, -⟩ := h
  have hwords : Still d kind := by
    generalize join.kind = type at hkind
    cases hkind <;> exact still_words (by decide)
  rw [List.append_assoc, List.cons_append]
  exact hwords.append (Still.cons (still_ident _) ((still_alias halias).append
    (Still.cons (still_plain (by decide)) (still_derives hcond))))

theorem still_where {where' : Option Expr} (h : Where py s where') : Still d s :=
  still_clause (by decide) (fun _ _ ⟨_, _, he⟩ => still_derives he) h

theorem still_order {item : OrderItem} (h : Order s item) : Still d s ∧ Heads d s := by
  cases h with
  | plain hc => exact still_columnRef hc
  | asc hc =>
    exact ⟨(still_columnRef hc).1.append (still_words (by decide)), (still_columnRef hc).2.append⟩
  | desc hc =>
    exact ⟨(still_columnRef hc).1.append (still_words (by decide)), (still_columnRef hc).2.append⟩

theorem still_count {n : Option Nat} (h : Count py s n) : Still d s := by
  obtain ⟨text, k, rfl, -⟩ := h
  exact still_of_type nofun nofun

theorem still_tail {stmt : Select} (h : Tail py s stmt) : Still d s := by
  obtain ⟨tables, cond, groups, orders, limit, offset, rfl, hfrom, hwhere, hgroup, horder, hlimit,
    hoffset⟩ := h
  have htables : Still d tables := by
    refine still_clause (by decide) (fun s a ha => ?_) hfrom
    obtain ⟨alias', joins, rfl, halias, hjoins⟩ := ha
    exact (Still.cons (still_ident _) (still_alias halias)).append
      (still_each (fun _ _ => still_join) hjoins)
  have hgroups : Still d groups :=
    still_clause (by decide) (fun _ _ => still_by fun _ _ => still_columnRef) hgroup
  have horders : Still d orders :=
    still_clause (by decide) (fun _ _ => still_by fun _ _ => still_order) horder
  exact ((((htables.append (still_where hwhere)).append hgroups).append horders).append
    (still_clause (by decide) (fun _ _ => still_count) hlimit)).append
    (still_clause (by decide) (fun _ _ => still_count) hoffset)

end

/-! ## Stars -/

/-- What the `*` of a projection and of an aggregate give. -/
def starExprs : List Expr := .star :: ["COUNT", "SUM", "AVG"].map (aggregateLiteral · "*")

theorem aggregateLiteral_mem_starExprs {f a : String} (hf : isAggregate f = true) :
    aggregateLiteral f a ∈ starExprs ↔ a = "*" := by
  have hf' : f ∈ ["COUNT", "SUM", "AVG"] := List.contains_iff_mem.mp hf
  constructor
  · intro h
    have hmem : ∃ f' ∈ ["COUNT", "SUM", "AVG"], aggregateLiteral f' "*" = aggregateLiteral f a :=
      List.mem_map.mp ((List.mem_cons.mp h).resolve_left nofun)
    obtain ⟨f', hf'', hliteral⟩ := hmem
    have htext : f' ++ "(" ++ "*" ++ ")" = f ++ "(" ++ a ++ ")" :=
      (Expr.sqlLiteral.inj hliteral).2
    have hchars := congrArg String.toList htext
    simp only [List.mem_cons, List.not_mem_nil, or_false] at hf' hf''
    have hcancel : ['*'] ++ [')'] = a.toList ++ [')'] := by
      rcases hf' with rfl | rfl | rfl <;> rcases hf'' with rfl | rfl | rfl <;>
        simp [String.toList_append] at hchars ⊢ <;> exact hchars
    exact (String.toList_inj.mp (List.append_cancel_right hcancel)).symm
  · rintro rfl
    exact List.mem_cons_of_mem _ (List.mem_map.mpr ⟨f, hf', rfl⟩)

theorem mem_front {c : Char} {x : String} (h : c ∈ x.toList) (y : String) :
    c ∈ (x ++ y).toList := by
  rw [String.toList_append]
  exact List.mem_append_left _ h

/-- A `repr` opens a parenthesis behind the name of its class. -/
theorem paren_mem_repr (py : Python) (e : Expr) : '(' ∈ (e.repr py).toList := by
  cases e with
  | column name => exact mem_front (mem_front (by decide) _) _
  | star =>
    unfold Expr.repr
    decide
  | sqlLiteral | qualifiedColumn | unaryOp =>
    exact mem_front (mem_front (mem_front (mem_front (by decide) _) _) _) _
  | binaryOp | logicalOp | inPredicate =>
    exact mem_front (mem_front (mem_front (mem_front (mem_front (mem_front (by decide) _) _) _)
      _) _) _

theorem repr_ne_star (py : Python) (e : Expr) : e.repr py ≠ "*" := by
  intro h
  have hparen := paren_mem_repr py e
  rw [h] at hparen
  exact absurd hparen (by decide)

theorem ident_mem_of_derives {py : Python} {level : Level} {s : List Lexeme} {name : String}
    (h : Derives py level s (.column name)) : ident name ∈ s := by
  generalize he : Expr.column name = e at h
  induction h with
  | literal _ => cases he
  | column hc =>
    cases hc with
    | plain name' =>
      cases he
      exact List.mem_singleton_self _
    | qualified _ _ => cases he
  | group _ ih => exact List.mem_cons_of_mem _ (List.mem_append_left _ (ih he))
  | primary _ ih | comparison _ ih | conjunction _ ih => exact ih he
  | _ => cases he

/-- Only a name could be a star, and none is. -/
theorem argName_ne_star {py : Python} {level : Level} {s : List Lexeme} {arg : Expr}
    (h : Derives py level s arg) (hident : ident "*" ∉ s) : argName py arg ≠ "*" := by
  cases arg with
  | column name =>
    intro hname
    rw [argName] at hname
    exact hident (hname ▸ ident_mem_of_derives h)
  | _ => exact repr_ne_star py _

section

variable {py : Python} {star : Lexeme → Prop} {s : List Lexeme} {e : Expr}

theorem columnRef_not_star (h : ColumnRef s e) : e ∉ starExprs := by
  cases h <;> simp [starExprs, aggregateLiteral]

theorem literal_not_star {l : Lexeme} {value : Value} {raw : String} (h : Literal py l value raw)
    (htype : l.type = .number ∨ l.type = .string) : Expr.sqlLiteral value raw ∉ starExprs := by
  intro hmem
  obtain ⟨f, hf, hf'⟩ := List.mem_map.mp ((List.mem_cons.mp hmem).resolve_left nofun)
  obtain ⟨hvalue, hraw⟩ := Expr.sqlLiteral.inj hf'
  have htext : ∀ {text s : String}, py.parseNumber text ≠ .ok (.text s) := by
    intro text s hs
    unfold Python.parseNumber at hs
    split at hs
    · cases hx : py.float text <;> rw [hx] at hs <;> cases hs
    · cases hx : py.int text <;> rw [hx] at hs <;> cases hs
  cases h with
  | number hn => exact htext (hvalue ▸ hn)
  | string s =>
    have hchars := congrArg String.toList hraw
    simp only [List.mem_cons, List.not_mem_nil, or_false] at hf
    rcases hf with rfl | rfl | rfl <;> simp [String.toList_append] at hchars
  | true | false | null => rcases htype with h | h <;> cases h

theorem not_star (hstar : ∀ l, star l → l = punct "*" ∨ l = string "*") {l : Lexeme}
    (hp : l.type ≠ .punct) (hs : l.type ≠ .string) : ¬ star l := by
  intro h
  rcases hstar l h with rfl | rfl
  · exact hp rfl
  · exact hs rfl

/-- A segment at the start of a projection. -/
theorem Still.start {d : Nat} {l : Lexeme} (h : Still d (l :: s)) :
    (l :: s).foldl Spot.next (.start, d) = (.inside, d) ∧
      ∀ u ∈ starts (.start, d) (l :: s), u = l ∨ u.type = .ident := by
  refine ⟨?_, fun u hu => ?_⟩
  · rw [List.foldl_cons, next_start]
    exact h.back
  · rw [starts_start] at hu
    exact (List.mem_cons.mp hu).imp_right (h.idents u)

theorem next_aggregate {f : String} (hf : isAggregate f = true) (spot : Spot) :
    spot.next (keyword f) = (.call, spot.2) := by
  rw [Spot.next, if_neg nofun, if_neg nofun, if_neg nofun, if_pos ⟨rfl, hf⟩]

/-- Another reading of the stars of a projection. -/
theorem projection_congr {star' : Lexeme → Prop} (h : Projection py star s e)
    (hsame : ∀ l ∈ starts (.start, 0) s, (star l ↔ star' l)) : Projection py star' s e := by
  cases h with
  | star hl => exact Projection.star ((hsame _ (List.mem_cons_self ..)).mp hl)
  | @count f l hf hl =>
    have hmem : l ∈ starts (.start, 0) [keyword f, punct "(", l, punct ")"] := by
      have hopen : Spot.next (.call, 0) (punct "(") = (.start, 1) := rfl
      simp [starts, next_aggregate hf, hopen]
    exact Projection.count hf ((hsame l hmem).mp hl)
  | @aggregate f s arg hf hhead harg =>
    refine Projection.aggregate hf (fun l hl => ?_) harg
    have hmem : l ∈ starts (.start, 0) (keyword f :: punct "(" :: s ++ [punct ")"]) := by
      have hopen : Spot.next (.call, 0) (punct "(") = (.start, 1) := rfl
      cases s with
      | nil => cases hl
      | cons u s =>
        cases hl
        simp [starts, next_aggregate hf, hopen]
    exact (not_congr (hsame l hmem)).mp (hhead l hl)
  | literal hl htype hliteral =>
    exact Projection.literal ((not_congr (hsame _ (List.mem_cons_self ..))).mp hl) htype hliteral
  | column hc => exact Projection.column hc
  | named name hc => exact Projection.named name hc

variable [DecidablePred star] (hstar : ∀ l, star l → l = punct "*" ∨ l = string "*")
include hstar

theorem countP_idents {ls : List Lexeme} (h : ∀ l ∈ ls, l.type = .ident) : ls.countP star = 0 := by
  rw [List.countP_eq_zero]
  intro l hl
  have htype := h l hl
  simpa using not_star hstar (by rw [htype]; nofun) (by rw [htype]; nofun)

/-- **One projection.** It holds a star where one may start, if it stands for one. -/
theorem starts_projection (hident : ident "*" ∉ s) (h : Projection py star s e) :
    s.foldl Spot.next (.start, 0) = (.inside, 0) ∧
      (starts (.start, 0) s).countP star = if e ∈ starExprs then 1 else 0 := by
  have hcolumn : ∀ {s : List Lexeme} {e : Expr}, ColumnRef s e →
      s.foldl Spot.next (.start, 0) = (.inside, 0) ∧ (starts (.start, 0) s).countP star = 0 := by
    intro s e hc
    obtain ⟨hstill, hhead⟩ := still_columnRef (d := 0) hc
    obtain ⟨name, r, rfl⟩ := hhead rfl
    obtain ⟨hback, hstarts⟩ := hstill.start
    refine ⟨hback, countP_idents hstar fun u hu => ?_⟩
    rcases hstarts u hu with rfl | hu
    · rfl
    · exact hu
  cases h with
  | @star l hl =>
    have hback : Spot.next (.start, 0) l = (.inside, 0) := by
      rcases hstar l hl with rfl | rfl <;> rfl
    have hmem : Expr.star ∈ starExprs := List.mem_cons_self ..
    refine ⟨hback, ?_⟩
    rw [if_pos hmem]
    simp [starts, hl]
  | @count f l hf hl =>
    have hback : Spot.next (.start, 1) l = (.inside, 1) := by
      rcases hstar l hl with rfl | rfl <;> rfl
    have hopen : Spot.next (.call, 0) (punct "(") = (.start, 1) := rfl
    have hkeyword : ¬ star (keyword f) := not_star hstar nofun nofun
    have hmem := (aggregateLiteral_mem_starExprs hf).mpr (rfl : "*" = "*")
    refine ⟨?_, ?_⟩
    · simp only [List.foldl_cons, next_aggregate hf, hopen, hback]
      rfl
    · rw [if_pos hmem]
      simp [starts, next_aggregate hf, hopen, hback, hkeyword, hl]
  | @aggregate f s arg hf hhead harg =>
    have hopen : Spot.next (.call, 0) (punct "(") = (.start, 1) := rfl
    have hname : argName py arg ≠ "*" :=
      argName_ne_star harg fun hmem => hident (by simp [hmem])
    have hkeyword : ¬ star (keyword f) := not_star hstar nofun nofun
    have hinside : (s.foldl Spot.next (.start, 1)).next (punct ")") = (.inside, 0) ∧
        (starts (.start, 1) s).countP star = 0 ∧
        starts (s.foldl Spot.next (.start, 1)) [punct ")"] = [] := by
      cases s with
      | nil =>
        cases harg with
        | column hc => cases hc
      | cons l s =>
        obtain ⟨hback, hstarts⟩ := (still_derives harg).start
        refine ⟨by rw [hback]; rfl, ?_, by rw [hback]; rfl⟩
        rw [List.countP_eq_zero]
        intro u hu
        rcases hstarts u hu with rfl | hu
        · simpa using hhead u rfl
        · simpa using not_star hstar (by rw [hu]; nofun) (by rw [hu]; nofun)
    obtain ⟨hclose, hcount, hlast⟩ := hinside
    rw [if_neg (fun hmem => hname ((aggregateLiteral_mem_starExprs hf).mp hmem))]
    refine ⟨?_, ?_⟩
    · rw [List.cons_append, List.foldl_cons, next_aggregate hf, List.cons_append, List.foldl_cons,
        hopen, List.foldl_append]
      exact hclose
    · rw [List.cons_append, starts, next_aggregate hf, List.cons_append, starts, hopen,
        starts_append, hlast, List.append_nil]
      simp [hkeyword, hcount]
  | @literal l value raw hl htype hliteral =>
    have hplain : l.Plain := by
      have hpunct : ∀ p, l ≠ punct p := by
        rintro p rfl
        rcases htype with h | h <;> cases h
      refine ⟨hpunct _, hpunct _, hpunct _, fun ha => ?_⟩
      rcases htype with h | h <;> exact absurd (ha.1.symm.trans h) nofun
    refine ⟨next_of_plain hplain _, ?_⟩
    rw [if_neg (literal_not_star hliteral htype)]
    simp [starts, hl]
  | column hc =>
    rw [if_neg (columnRef_not_star hc)]
    exact hcolumn hc
  | @named s e name hc =>
    obtain ⟨hback, hcount⟩ := hcolumn hc
    have hname : Still 0 [keyword "AS", ident name] :=
      Still.cons (still_plain (by decide)) (still_ident name)
    rw [if_neg (by simp [starExprs, aggregateLiteral])]
    refine ⟨by rw [List.foldl_append, hback, hname.back], ?_⟩
    rw [starts_append, hback, List.countP_append, hcount, countP_idents hstar hname.idents]

theorem starts_projections {es : List Expr} (hident : ident "*" ∉ s)
    (h : Separated (Projection py star) s es) :
    s.foldl Spot.next (.start, 0) = (.inside, 0) ∧
      (starts (.start, 0) s).countP star = es.countP (· ∈ starExprs) := by
  induction h with
  | one hp =>
    obtain ⟨hback, hcount⟩ := starts_projection hstar hident hp
    refine ⟨hback, ?_⟩
    rw [hcount, List.countP_cons, List.countP_nil]
    simp
  | @cons s r e es hp _ ih =>
    obtain ⟨hback, hcount⟩ :=
      starts_projection hstar (fun hmem => hident (List.mem_append_left _ hmem)) hp
    obtain ⟨hback', hcount'⟩ :=
      ih fun hmem => hident (List.mem_append_right _ (List.mem_cons_of_mem _ hmem))
    have hcomma : Spot.next (.inside, 0) (punct ",") = (.start, 0) := rfl
    refine ⟨by rw [List.foldl_append, hback, List.foldl_cons, hcomma, hback'], ?_⟩
    rw [starts_append, hback, starts, hcomma, List.countP_append, hcount, List.countP_cons]
    simp [hcount', Nat.add_comm]

/-- The stars of a tree. -/
def Statement.stars : Statement → Nat
  | .select stmt => stmt.projections.countP (· ∈ starExprs)
  | .explain stmt => stmt.stars
  | _ => 0

theorem starts_select {ls : List Lexeme} {stmt : Select} (hident : ident "*" ∉ ls)
    (h : SelectOf py star ls stmt) : ∃ projections tail,
      ls = keyword "SELECT" :: projections ++ tail ∧ ident "*" ∉ projections ∧
      Separated (Projection py star) projections stmt.projections ∧ Tail py tail stmt ∧
      projectionStarts ls =
        starts (.start, 0) projections ++ starts (.inside, 0) tail := by
  obtain ⟨projections, tail, rfl, hps, htail⟩ := h
  have hident' : ident "*" ∉ projections := fun hmem =>
    hident (List.mem_append_left _ (List.mem_cons_of_mem _ hmem))
  refine ⟨projections, tail, rfl, hident', hps, htail, ?_⟩
  rw [List.cons_append, projectionStarts, if_neg (by decide), if_pos rfl, starts_append,
    (starts_projections hstar hident' hps).1]

/-- **Stars of a derivation.** The scan finds as many as the tree has. -/
theorem countP_projectionStarts {paren : Lexeme → Prop} {ls : List Lexeme} {stmt : Statement}
    (hident : ident "*" ∉ ls) (h : StatementOf py star paren ls stmt) :
    (projectionStarts ls).countP star = stmt.stars := by
  induction h with
  | select hs =>
    obtain ⟨projections, tail, -, hident', hps, htail, hstarts⟩ := starts_select hstar hident hs
    have htail' : (starts (.inside, 0) tail).countP star = 0 :=
      countP_idents hstar (still_tail htail).idents
    rw [hstarts, List.countP_append, htail', (starts_projections hstar hident' hps).2]
    rfl
  | explain _ ih => exact ih fun hmem => hident (List.mem_cons_of_mem _ hmem)
  | createTable hs =>
    obtain ⟨_, _, rfl, -⟩ := hs
    rfl
  | dropTable hs =>
    obtain ⟨_, _, rfl, -⟩ := hs
    rfl
  | insert hs =>
    obtain ⟨_, _, rfl, -⟩ := hs
    rfl
  | update hs =>
    obtain ⟨_, _, rfl, -⟩ := hs
    rfl
  | delete hs =>
    obtain ⟨_, rfl, -⟩ := hs
    rfl
  | begin | beginTransaction | commit | end' | rollback | checkpoint => rfl

/-! ## Another reading of the stars -/

theorem projections_congr {star' : Lexeme → Prop} {es : List Expr} (hident : ident "*" ∉ s)
    (h : Separated (Projection py star) s es)
    (hsame : ∀ l ∈ starts (.start, 0) s, (star l ↔ star' l)) :
    Separated (Projection py star') s es := by
  induction h with
  | one hp => exact Separated.one (projection_congr hp hsame)
  | @cons s r e es hp _ ih =>
    have hback := (starts_projection hstar
      (fun hmem => hident (List.mem_append_left _ hmem)) hp).1
    have hcomma : Spot.next (.inside, 0) (punct ",") = (.start, 0) := rfl
    rw [starts_append, hback, starts, hcomma] at hsame
    refine Separated.cons (projection_congr hp fun l hl => ?_) (ih ?_ fun l hl => ?_)
    · exact hsame l (List.mem_append_left _ hl)
    · exact fun hmem => hident (List.mem_append_right _ (List.mem_cons_of_mem _ hmem))
    · exact hsame l (List.mem_append_right _ (List.mem_append_right _ hl))

/-- Two readings that agree where the scan looks derive the same. -/
theorem statementOf_congr {star' paren : Lexeme → Prop} {ls : List Lexeme} {stmt : Statement}
    (hident : ident "*" ∉ ls) (h : StatementOf py star paren ls stmt)
    (hsame : ∀ l ∈ projectionStarts ls, (star l ↔ star' l)) :
    StatementOf py star' paren ls stmt := by
  induction h with
  | select hs =>
    obtain ⟨projections, tail, rfl, hident', hps, htail, hstarts⟩ := starts_select hstar hident hs
    rw [hstarts] at hsame
    exact StatementOf.select ⟨projections, tail, rfl, projections_congr hstar hident' hps
      fun l hl => hsame l (List.mem_append_left _ hl), htail⟩
  | explain _ ih =>
    exact StatementOf.explain (ih (fun hmem => hident (List.mem_cons_of_mem _ hmem)) hsame)
  | createTable hs => exact StatementOf.createTable hs
  | dropTable hs => exact StatementOf.dropTable hs
  | insert hs => exact StatementOf.insert hs
  | update hs => exact StatementOf.update hs
  | delete hs => exact StatementOf.delete hs
  | begin => exact StatementOf.begin
  | beginTransaction => exact StatementOf.beginTransaction
  | commit => exact StatementOf.commit
  | end' => exact StatementOf.end'
  | rollback => exact StatementOf.rollback
  | checkpoint => exact StatementOf.checkpoint

end

end TinyDB
