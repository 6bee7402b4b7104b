import TinyDB.Lib.Decimal
import Mathlib.Data.List.TakeWhile

/-!
# Texts of digits and points

`float` of a text in which an ASCII character is a digit or a point: there is no sign,
exponent, blank, underscore or name, so what decides is the number of points.
-/

namespace TinyDB.Lib

/-- A digit, a point, or a character outside ASCII. -/
def PlainChar (c : Char) : Prop := c.isDigit = true ∨ c = '.' ∨ 128 ≤ c.toNat

theorem isDigit_toNat {c : Char} (h : c.isDigit = true) : 48 ≤ c.toNat ∧ c.toNat ≤ 57 := by
  simp only [Char.isDigit, Bool.and_eq_true, decide_eq_true_eq, ge_iff_le, UInt32.le_iff_toNat_le] at h
  exact h

/-- Plain characters by their codes. -/
theorem PlainChar.toNat {c : Char} (h : PlainChar c) :
    c.toNat = 46 ∨ 48 ≤ c.toNat ∧ c.toNat ≤ 57 ∨ 128 ≤ c.toNat := by
  rcases h with h | rfl | h
  · exact Or.inr (Or.inl (isDigit_toNat h))
  · exact Or.inl rfl
  · exact Or.inr (Or.inr h)

theorem PlainChar.ne {c d : Char} (h : PlainChar c)
    (hd : d.toNat < 46 ∨ d.toNat = 47 ∨ 57 < d.toNat ∧ d.toNat < 128) : c ≠ d := by
  rintro rfl
  rcases h.toNat with h | h | h <;> omega

theorem PlainChar.not_space {c : Char} (h : PlainChar c) : isSpaceChar c = false := by
  have hcode := h.toNat
  have hspace : c ≠ ' ' ∧ c ≠ '\t' ∧ c ≠ '\n' ∧ c ≠ '\r' :=
    ⟨h.ne (by decide), h.ne (by decide), h.ne (by decide), h.ne (by decide)⟩
  simp only [isSpaceChar, beq_eq_false_iff_ne.mpr hspace.1, beq_eq_false_iff_ne.mpr hspace.2.1,
    beq_eq_false_iff_ne.mpr hspace.2.2.1, beq_eq_false_iff_ne.mpr hspace.2.2.2, Bool.false_or,
    Bool.or_eq_false_iff, beq_eq_false_iff_ne]
  omega

theorem PlainChar.toLower {c : Char} (h : PlainChar c) : c.toLower = c := by
  have hcode := h.toNat
  have hupper : ¬ (c.val ≥ 'A'.val ∧ c.val ≤ 'Z'.val) := by
    rw [ge_iff_le, UInt32.le_iff_toNat_le, UInt32.le_iff_toNat_le]
    change ¬ (65 ≤ c.toNat ∧ c.toNat ≤ 90)
    omega
  exact dif_neg hupper

variable {text : List Char}

theorem stripChars_plain (h : ∀ c ∈ text, PlainChar c) : stripChars text = text := by
  have hdrop : ∀ l : List Char, (∀ c ∈ l, PlainChar c) → l.dropWhile isSpaceChar = l := by
    intro l hl
    cases l with
    | nil => rfl
    | cons c l => exact List.dropWhile_cons_of_neg (by simp [(hl c (List.mem_cons_self ..)).not_space])
  rw [stripChars, hdrop text h, hdrop text.reverse fun c hc => h c (List.mem_reverse.mp hc),
    List.reverse_reverse]

theorem dropUnderscores_plain (h : ∀ c ∈ text, PlainChar c) {prev : Option Char}
    (hprev : prev ≠ some '_') : dropUnderscores prev text = some text := by
  induction text generalizing prev with
  | nil => rw [dropUnderscores, if_neg hprev]
  | cons c l ih =>
    have hc : c ≠ '_' := (h c (List.mem_cons_self ..)).ne (by decide)
    rw [dropUnderscores, if_neg hc, if_neg (fun hp => hprev hp.1),
      ih (fun d hd => h d (List.mem_cons_of_mem _ hd)) (by simpa using hc)]
    rfl

theorem splitSign_plain (h : ∀ c ∈ text, PlainChar c) : splitSign text = (false, text) := by
  cases text with
  | nil => rfl
  | cons c l =>
    have hc := h c (List.mem_cons_self ..)
    have hsign : c ≠ '+' ∧ c ≠ '-' := ⟨hc.ne (by decide), hc.ne (by decide)⟩
    unfold splitSign
    split
    · rename_i heq
      exact absurd (List.cons.inj heq).1 hsign.1
    · rename_i heq
      exact absurd (List.cons.inj heq).1 hsign.2
    · rfl

theorem floatOfText_plain (h : ∀ c ∈ text, PlainChar c) :
    floatOfText text = parseDecimal false text := by
  have hlower : lowerChars text = text := by
    refine (List.map_congr_left fun c hc => (h c hc).toLower).trans (List.map_id' text)
  have hname : ∀ {c : Char} {l : List Char}, 57 < c.toNat ∧ c.toNat < 128 → text ≠ c :: l := by
    rintro c l hc rfl
    exact (h c (List.mem_cons_self ..)).ne (Or.inr (Or.inr hc)) rfl
  have hinf : ¬ (text = ['i', 'n', 'f'] ∨
      text = ['i', 'n', 'f', 'i', 'n', 'i', 't', 'y']) := by
    rintro (ht | ht) <;> exact hname (by decide) ht
  have hnan : text ≠ ['n', 'a', 'n'] := hname (by decide)
  have hnone : (none : Option Char) ≠ some '_' := nofun
  simp only [floatOfText, stripChars_plain h, dropUnderscores_plain h hnone, splitSign_plain h,
    hlower, if_neg hinf, if_neg hnan]

theorem parseExponent_plain (h : ∀ c ∈ text, PlainChar c)
    (hsome : (parseExponent text).isSome = true) : text = [] := by
  cases text with
  | nil => rfl
  | cons c l =>
    have hc := h c (List.mem_cons_self ..)
    have hletter : ¬ (c = 'e' ∨ c = 'E') :=
      not_or.mpr ⟨hc.ne (by decide), hc.ne (by decide)⟩
    rw [parseExponent, if_neg hletter] at hsome
    cases hsome

/-- The text split behind its digits. -/
theorem splitDigits (text : List Char) : ∃ whole rest, text = whole ++ rest ∧
    (∀ c ∈ whole, c.isDigit = true) ∧
    text.takeWhile Char.isDigit = whole ∧ text.dropWhile Char.isDigit = rest :=
  ⟨_, _, List.takeWhile_append_dropWhile.symm, fun _ hc => List.mem_takeWhile_imp hc, rfl, rfl⟩

theorem parseDecimal_point (neg : Bool) {whole : List Char}
    (hwhole : ∀ c ∈ whole, c.isDigit = true) (rest : List Char) :
    (parseDecimal neg (whole ++ '.' :: rest)).isSome = true ↔
      whole ++ rest.takeWhile Char.isDigit ≠ [] ∧
        (parseExponent (rest.dropWhile Char.isDigit)).isSome = true := by
  have hstop : ¬ Char.isDigit '.' = true := by decide
  have htake : (whole ++ '.' :: rest).takeWhile Char.isDigit = whole := by
    rw [List.takeWhile_append_of_pos hwhole, List.takeWhile_cons_of_neg hstop, List.append_nil]
  have hdrop : (whole ++ '.' :: rest).dropWhile Char.isDigit = '.' :: rest := by
    rw [List.dropWhile_append_of_pos hwhole, List.dropWhile_cons_of_neg hstop]
  simp only [parseDecimal, htake, hdrop]
  by_cases hempty : whole ++ rest.takeWhile Char.isDigit = []
  · simp [hempty]
  · rw [if_neg hempty, Option.isSome_map]
    exact (and_iff_right hempty).symm

/-- **What `float` takes** of such a text: digits with one point among them. -/
theorem floatOfText_isSome_iff (h : ∀ c ∈ text, PlainChar c) (hpoint : '.' ∈ text) :
    (floatOfText text).isSome = true ↔ ∃ whole fraction, text = whole ++ '.' :: fraction ∧
      whole ++ fraction ≠ [] ∧ ∀ c ∈ whole ++ fraction, c.isDigit = true := by
  rw [floatOfText_plain h]
  constructor
  · intro hsome
    obtain ⟨whole, rest, happ, hwhole, htake, hdrop⟩ := splitDigits text
    cases rest with
    | nil =>
      rw [List.append_nil] at happ
      exact absurd (hwhole '.' (happ ▸ hpoint)) (by decide)
    | cons c rest =>
      have hrest : ∀ d ∈ c :: rest, PlainChar d :=
        fun d hd => h d (happ ▸ List.mem_append_right _ hd)
      by_cases hc : c = '.'
      · subst hc
        obtain ⟨fraction, behind, hsplit, hfraction, htake', hdrop'⟩ := splitDigits rest
        rw [happ, parseDecimal_point false hwhole, htake', hdrop'] at hsome
        have hbehind : behind = [] := parseExponent_plain (fun d hd =>
          hrest d (List.mem_cons_of_mem _ (hsplit ▸ List.mem_append_right _ hd))) hsome.2
        rw [hbehind, List.append_nil] at hsplit
        refine ⟨whole, rest, happ, hsplit ▸ hsome.1, fun d hd => ?_⟩
        exact (List.mem_append.mp hd).elim (hwhole d) (fun hd => hfraction d (hsplit ▸ hd))
      · -- without a point here the exponent would have to start
        have hnone : (parseExponent (c :: rest)).isSome = true → False := fun hexp =>
          List.cons_ne_nil _ _ (parseExponent_plain hrest hexp)
        simp only [parseDecimal, htake, hdrop] at hsome
        split at hsome
        · rename_i heq
          exact absurd (List.cons.inj heq).1 hc
        · split at hsome
          · cases hsome
          · rw [Option.isSome_map] at hsome
            exact absurd hsome hnone
  · rintro ⟨whole, fraction, rfl, hne, hdigits⟩
    have hfraction : ∀ c ∈ fraction, c.isDigit = true :=
      fun c hc => hdigits c (List.mem_append_right _ hc)
    refine (parseDecimal_point false (fun c hc => hdigits c (List.mem_append_left _ hc)) _).mpr ?_
    rw [List.takeWhile_eq_self_iff.mpr hfraction, List.dropWhile_eq_nil_iff.mpr hfraction]
    exact ⟨hne, rfl⟩

end TinyDB.Lib
