import Mathlib.Tactic

/-!
# IEEE-754 binary64 as bit patterns

A double is its 64-bit pattern. `datum` reads a pattern as a NaN, an infinity
or an integer multiple of `2 ^ (-1074)`, the distance between subnormals, so
that comparisons between doubles, and between a double and an integer, are
exact integer comparisons. `ofQuot` rounds a quotient to nearest, ties to even,
and the arithmetic is exact arithmetic followed by `ofQuot`.
-/

namespace TinyDB.Lib

structure Binary64 where
  bits : UInt64
  deriving DecidableEq, Repr

/-- A finite datum `fin s` is the number `s * 2 ^ (-1074)`. -/
inductive Datum where
  | nan
  | inf (neg : Bool)
  | fin (scaled : Int)
  deriving DecidableEq, Repr

namespace Datum

def ofInt (i : Int) : Datum := .fin (i * 2 ^ 1074)

def lt : Datum → Datum → Bool
  | .nan, _ => false
  | _, .nan => false
  | .inf a, .inf b => a && !b
  | .inf a, .fin _ => a
  | .fin _, .inf b => !b
  | .fin s, .fin t => decide (s < t)

def eq : Datum → Datum → Bool
  | .nan, _ => false
  | d, e => d == e

def le (d e : Datum) : Bool := lt d e || eq d e

theorem eq_iff (d e : Datum) : eq d e = true ↔ d = e ∧ d ≠ .nan := by
  cases d <;> cases e <;> simp [eq]

theorem ofInt_inj (i j : Int) : ofInt i = ofInt j ↔ i = j := by
  have h : (2 : Int) ^ 1074 ≠ 0 := Int.ne_of_gt (Int.pow_pos (by decide))
  rw [ofInt, ofInt, Datum.fin.injEq]
  exact ⟨Int.eq_of_mul_eq_mul_right h, fun e => by rw [e]⟩

theorem lt_ofInt (i j : Int) : lt (ofInt i) (ofInt j) = decide (i < j) := by
  have h : (0 : Int) < 2 ^ 1074 := Int.pow_pos (by decide)
  simp only [ofInt, lt, decide_eq_decide]
  exact Int.mul_lt_mul_right h

theorem lt_asymm {d e : Datum} (h : d.lt e = true) : e.lt d = false := by
  cases d with
  | nan => cases h
  | inf a =>
    cases e with
    | nan => cases h
    | inf b => cases a <;> cases b <;> simp_all [lt]
    | fin t => simp_all [lt]
  | fin s =>
    cases e with
    | nan => cases h
    | inf b => simp_all [lt]
    | fin t =>
      simp only [lt, decide_eq_true_eq, decide_eq_false_iff_not] at h ⊢
      omega

theorem lt_trans {d e f : Datum} (hde : d.lt e = true) (hef : e.lt f = true) :
    d.lt f = true := by
  cases d <;> cases e <;> cases f <;> simp_all [lt]
  omega

theorem lt_total {d e : Datum} (hd : d ≠ .nan) (he : e ≠ .nan) (hne : d ≠ e) :
    d.lt e = true ∨ e.lt d = true := by
  cases d with
  | nan => exact absurd rfl hd
  | inf a =>
    cases e with
    | nan => exact absurd rfl he
    | inf b => cases a <;> cases b <;> simp_all [lt]
    | fin t => cases a <;> simp [lt]
  | fin s =>
    cases e with
    | nan => exact absurd rfl he
    | inf b => cases b <;> simp [lt]
    | fin t =>
      have hst : s ≠ t := fun h => hne (congrArg Datum.fin h)
      simp only [lt, decide_eq_true_eq]
      omega

end Datum

namespace Binary64

def negative (x : Binary64) : Bool := decide (2 ^ 63 ≤ x.bits.toNat)
def exponent (x : Binary64) : Nat := x.bits.toNat / 2 ^ 52 % 2 ^ 11
def fraction (x : Binary64) : Nat := x.bits.toNat % 2 ^ 52

def datum (x : Binary64) : Datum :=
  if x.exponent = 2047 then
    if x.fraction = 0 then .inf x.negative else .nan
  else
    let m : Nat :=
      if x.exponent = 0 then x.fraction else (2 ^ 52 + x.fraction) * 2 ^ (x.exponent - 1)
    .fin (if x.negative then -(m : Int) else m)

def ofBits (neg : Bool) (magnitude : Nat) : Binary64 :=
  ⟨UInt64.ofNat ((if neg then 2 ^ 63 else 0) + magnitude)⟩

def nan : Binary64 := ofBits false (2047 * 2 ^ 52 + 2 ^ 51)
def infinity (neg : Bool) : Binary64 := ofBits neg (2047 * 2 ^ 52)
def zero (neg : Bool) : Binary64 := ofBits neg 0

/-- `num / den` in units of `2 ^ (-1074)`, rounded to nearest, ties to even.
`r` is the rounded significand and `k` its shift, and `k * 2 ^ 52 + r` is the
pattern also when `r` is subnormal or has carried into the next binade. -/
def ofQuot (neg : Bool) (num den : Nat) : Binary64 :=
  let k := Nat.log2 (num / den) - 52
  let d := den * 2 ^ k
  let q := num / d
  let rem := num % d
  let r := if d < 2 * rem ∨ (d = 2 * rem ∧ q % 2 = 1) then q + 1 else q
  let magnitude := k * 2 ^ 52 + r
  if 2047 * 2 ^ 52 ≤ magnitude then infinity neg else ofBits neg magnitude

def ofScaled (s : Int) : Binary64 := ofQuot (decide (s < 0)) s.natAbs 1

def ofInt (i : Int) : Binary64 := ofScaled (i * 2 ^ 1074)

def add (x y : Binary64) : Binary64 :=
  match x.datum, y.datum with
  | .nan, _ => nan
  | _, .nan => nan
  | .inf a, .inf b => if a = b then infinity a else nan
  | .inf a, .fin _ => infinity a
  | .fin _, .inf b => infinity b
  | .fin s, .fin t =>
    if s + t = 0 then zero (x.negative && y.negative) else ofScaled (s + t)

def mul (x y : Binary64) : Binary64 :=
  let neg := x.negative != y.negative
  match x.datum, y.datum with
  | .nan, _ => nan
  | _, .nan => nan
  | .inf _, .inf _ => infinity neg
  | .inf _, .fin t => if t = 0 then nan else infinity neg
  | .fin s, .inf _ => if s = 0 then nan else infinity neg
  | .fin s, .fin t => ofQuot neg (s.natAbs * t.natAbs) (2 ^ 1074)

def div (x y : Binary64) : Binary64 :=
  let neg := x.negative != y.negative
  match x.datum, y.datum with
  | .nan, _ => nan
  | _, .nan => nan
  | .inf _, .inf _ => nan
  | .inf _, .fin _ => infinity neg
  | .fin _, .inf _ => zero neg
  | .fin s, .fin t =>
    if t = 0 then (if s = 0 then nan else infinity neg)
    else ofQuot neg (s.natAbs * 2 ^ 1074) t.natAbs

example : ofInt 3 = ⟨0x4008000000000000⟩ := by decide +kernel
example : div (ofInt 1) (ofInt 3) = ⟨0x3fd5555555555555⟩ := by decide +kernel
example : add (ofQuot false (2 ^ 1074) 10) (ofQuot false (2 * 2 ^ 1074) 10)
    = ⟨0x3fd3333333333334⟩ := by decide +kernel

end Binary64
end TinyDB.Lib
