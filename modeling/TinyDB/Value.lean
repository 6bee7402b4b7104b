import TinyDB.Lib.Bytes
import TinyDB.Lib.Binary64

/-!
# SQL values and the exceptions of the engine

`Value` is what a cell, a literal or a row dictionary can hold. Comparisons
follow Python: `INT`, `FLOAT` and `BOOL` compare as numbers, `TEXT` by code
points, and ordering anything else raises `TypeError`. `PyErr` lists the
`TinyDBError` subclasses with their fields and the built-in exceptions that can
escape from the engine.
-/

namespace TinyDB

open Lib

inductive ColumnType where
  | int
  | float
  | text
  | bool
  deriving DecidableEq, Repr

def ColumnType.value : ColumnType → String
  | .int => "INT"
  | .float => "FLOAT"
  | .text => "TEXT"
  | .bool => "BOOL"

inductive Value where
  | null
  | int (i : Int)
  | float (f : Binary64)
  | text (s : String)
  | bool (b : Bool)
  deriving DecidableEq, Repr

abbrev Row := List Value

abbrev Schema := List (String × ColumnType)

/-- The `value` an exception carries: one object or a tuple of them. -/
inductive ErrValue where
  | one (v : Value)
  | tuple (vs : List Value)
  deriving DecidableEq, Repr

inductive PyErr where
  | parseError (message : String) (line column : Nat)
  | typeMismatch (column expected got : String)
  | uniqueViolation (column table : String) (value : ErrValue)
  | notNullViolation (column table : String)
  | tableNotFound (table : String)
  | unsafeDeleteWithoutWhere
  | integerOverflow (value max : Int)
  | transactionAlreadyActive
  | pageCorrupt (pageId : Nat)
  | transactionLogCorrupt (offset : Nat)
  | databaseBusy (message : String)
  | ambiguousColumn (column : String)
  -- built-in exceptions
  | keyError (key : String)
  | typeError
  | valueError
  | indexError
  | overflowError
  | structError
  | unicodeDecodeError
  | runtimeError (message : String)
  deriving DecidableEq, Repr

/-! ## Python comparisons -/

namespace Value

def numeric? : Value → Option Datum
  | .int i => some (.ofInt i)
  | .bool b => some (.ofInt (if b then 1 else 0))
  | .float f => some f.datum
  | .null => none
  | .text _ => none

/-- `left == right`. -/
def pyEq (left right : Value) : Bool :=
  match left, right with
  | .null, .null => true
  | .text s, .text t => s == t
  | l, r =>
    match l.numeric?, r.numeric? with
    | some x, some y => x.eq y
    | _, _ => false

/-- An order comparison: numbers by `num`, strings by `str`, else `TypeError`. -/
def pyOrd (num : Datum → Datum → Bool) (str : String → String → Bool) (left right : Value) :
    Except PyErr Bool :=
  match left, right with
  | .text s, .text t => .ok (str s t)
  | l, r =>
    match l.numeric?, r.numeric? with
    | some x, some y => .ok (num x y)
    | _, _ => .error .typeError

def pyLt : Value → Value → Except PyErr Bool := pyOrd Datum.lt fun s t => decide (s < t)
def pyLe : Value → Value → Except PyErr Bool := pyOrd Datum.le fun s t => decide (s ≤ t)
def pyGt (left right : Value) : Except PyErr Bool := pyLt right left
def pyGe (left right : Value) : Except PyErr Bool := pyLe right left

/-- `bool(value)`. -/
def truthy : Value → Bool
  | .null => false
  | .int i => i != 0
  | .float f => f.datum != .fin 0
  | .text s => s != ""
  | .bool b => b

/-- Tuple equality. -/
def pyEqAll : List Value → List Value → Bool
  | [], [] => true
  | a :: as, b :: bs => pyEq a b && pyEqAll as bs
  | _, _ => false

theorem pyEq_comm (a b : Value) : a.pyEq b = b.pyEq a := by
  have hdatum : ∀ x y : Datum, x.eq y = y.eq x := fun x y => by
    rw [Bool.eq_iff_iff, Datum.eq_iff, Datum.eq_iff]
    constructor <;> (rintro ⟨rfl, h⟩; exact ⟨rfl, h⟩)
  cases a <;> cases b <;> simp only [pyEq, numeric?, hdatum]
  rename_i s t
  rw [Bool.eq_iff_iff, beq_iff_eq, beq_iff_eq, eq_comm]

theorem pyEq_trans {a b c : Value} (hab : a.pyEq b = true) (hbc : b.pyEq c = true) :
    a.pyEq c = true := by
  have hdatum : ∀ {x y z : Datum}, x.eq y = true → y.eq z = true → x.eq z = true := by
    intro x y z hxy hyz
    rw [Datum.eq_iff] at hxy hyz ⊢
    exact ⟨hxy.1.trans hyz.1, hxy.2⟩
  cases a <;> cases b <;> simp only [pyEq, numeric?, Bool.false_eq_true] at hab
  all_goals cases c <;> simp only [pyEq, numeric?, Bool.false_eq_true] at hbc ⊢
  all_goals first
    | exact hdatum hab hbc
    | exact beq_iff_eq.mpr ((beq_iff_eq.mp hab).trans (beq_iff_eq.mp hbc))

theorem pyEqAll_comm (as bs : List Value) : pyEqAll as bs = pyEqAll bs as := by
  induction as generalizing bs with
  | nil => cases bs <;> rfl
  | cons a as ih =>
    cases bs with
    | nil => rfl
    | cons b bs => simp only [pyEqAll, pyEq_comm a b, ih bs]

theorem pyEqAll_trans {as bs cs : List Value} (hab : pyEqAll as bs = true)
    (hbc : pyEqAll bs cs = true) : pyEqAll as cs = true := by
  induction as generalizing bs cs with
  | nil =>
    cases bs with
    | nil => exact hbc
    | cons b bs => cases hab
  | cons a as ih =>
    cases bs with
    | nil => cases hab
    | cons b bs =>
      cases cs with
      | nil => cases hbc
      | cons c cs =>
        simp only [pyEqAll, Bool.and_eq_true] at hab hbc ⊢
        exact ⟨pyEq_trans hab.1 hbc.1, ih hab.2 hbc.2⟩

end Value

/-! ## Fixed-width fields -/

/-- `struct.pack` of one unsigned little-endian field of `k` bytes. -/
def packUint (k n : Nat) : Except PyErr Bytes :=
  if n < 256 ^ k then .ok (leBytes k n) else .error .structError

/-- `struct.unpack` of one unsigned little-endian field of `k` bytes. -/
def unpackUint (k : Nat) (raw : Bytes) : Except PyErr Nat :=
  if raw.length = k then .ok (leNat raw) else .error .structError

theorem packUint_ok {k n : Nat} (h : n < 256 ^ k) : packUint k n = .ok (leBytes k n) := if_pos h

theorem packUint_eq_ok {k n : Nat} {bs : Bytes} :
    packUint k n = .ok bs ↔ n < 256 ^ k ∧ bs = leBytes k n := by
  unfold packUint
  split
  · rename_i h
    simp [h, eq_comm]
  · rename_i h
    simp [h]

theorem unpackUint_leBytes {k n : Nat} (h : n < 256 ^ k) :
    unpackUint k (leBytes k n) = .ok n := by
  simp [unpackUint, leNat_leBytes k n h]

theorem unpackUint_eq_ok {k n : Nat} {raw : Bytes} :
    unpackUint k raw = .ok n ↔ raw.length = k ∧ leNat raw = n := by
  unfold unpackUint
  split
  · rename_i h
    simp [h]
  · rename_i h
    simp [h]

theorem unpackUint_short {k : Nat} {raw : Bytes} (h : raw.length ≠ k) :
    unpackUint k raw = .error .structError := if_neg h

/-! ## Type names -/

/-- `_python_type_name`. -/
def pythonTypeName : Value → String
  | .bool _ => "BOOL"
  | .int _ => "INT"
  | .float _ => "FLOAT"
  | .text _ => "TEXT"
  | .null => "NONETYPE"

end TinyDB
