import TinyDB.Value
import TinyDB.Lib.Result

/-!
# Type codec and coercion

`types.py`: the encoding of one value under its column type, its decoding, and
the coercion on insert. Eight zero bytes stand for NULL, so `INT 0` and the
`FLOAT` of that bit pattern read back as NULL; `readBack` is what a value turns
into on its way through the codec (`decode_encode`).
-/

namespace TinyDB

open Lib

def int64Min : Int := -(2 ^ 63)
def int64Max : Int := 2 ^ 63 - 1

/-- `str.encode("utf-8")`. -/
def encodeUtf8 (s : String) : Bytes := s.toUTF8.data.toList

/-- `bytes.decode("utf-8")`. -/
def decodeUtf8 (raw : Bytes) : Except PyErr String :=
  match String.fromUTF8? (ByteArray.mk raw.toArray) with
  | some s => .ok s
  | none => .error .unicodeDecodeError

@[simp] theorem decodeUtf8_encodeUtf8 (s : String) : decodeUtf8 (encodeUtf8 s) = .ok s := by
  have h : String.fromUTF8? (ByteArray.mk (encodeUtf8 s).toArray) = some s := by
    simp only [encodeUtf8, String.fromUTF8?, Array.toArray_toList]
    exact dif_pos s.isValidUTF8
  rw [decodeUtf8, h]

theorem decodeUtf8_eq_ok {raw : Bytes} {s : String} (h : decodeUtf8 raw = .ok s) :
    encodeUtf8 s = raw := by
  unfold decodeUtf8 String.fromUTF8? at h
  split at h
  · rename_i t ht
    split at ht
    · cases ht
      cases h
      rfl
    · cases ht
  · cases h

/-! ## Encoding -/

def encodeInt : Value → Except PyErr Bytes
  | .int i =>
    if i < int64Min ∨ int64Max < i then .error (.integerOverflow i int64Max)
    else .ok (leBytesInt 8 i)
  | v => .error (.typeMismatch "?" "INT" (pythonTypeName v))

def encodeFloat : Value → Except PyErr Bytes
  | .float f => .ok (leBytes 8 f.bits.toNat)
  | v => .error (.typeMismatch "?" "FLOAT" (pythonTypeName v))

def encodeText : Value → Except PyErr Bytes
  | .text s =>
    let encoded := encodeUtf8 s
    if encoded.length < 256 ^ 4 then .ok (leBytes 4 encoded.length ++ encoded)
    else .error .overflowError
  | v => .error (.typeMismatch "?" "TEXT" (pythonTypeName v))

def encodeBool : Value → Except PyErr Bytes
  | .bool b => .ok [if b then 1 else 0]
  | v => .error (.typeMismatch "?" "BOOL" (pythonTypeName v))

def nullSentinel : Bytes := zeros 8

def encode (value : Value) (columnType : ColumnType) : Except PyErr Bytes :=
  if value = .null then .ok nullSentinel
  else
    match columnType with
    | .int => encodeInt value
    | .float => encodeFloat value
    | .text => encodeText value
    | .bool => encodeBool value

/-! ## Decoding -/

def decodeInt (raw : Bytes) : Int := leInt (slice raw 0 8)

def decodeFloat (raw : Bytes) : Except PyErr Binary64 := do
  let bits ← unpackUint 8 (slice raw 0 8)
  .ok ⟨UInt64.ofNat bits⟩

def decodeText (raw : Bytes) : Except PyErr String :=
  let length := leNat (slice raw 0 4)
  decodeUtf8 (slice raw 4 (4 + length))

def decodeBool : Bytes → Except PyErr Bool
  | [] => .error .indexError
  | b :: _ => .ok (b != 0)

def decode (raw : Bytes) (columnType : ColumnType) : Except PyErr Value :=
  if raw = nullSentinel then .ok .null
  else
    match columnType with
    | .int => .ok (.int (decodeInt raw))
    | .float => do .ok (.float (← decodeFloat raw))
    | .text => do .ok (.text (← decodeText raw))
    | .bool => do .ok (.bool (← decodeBool raw))

/-- `coerce_in`. -/
def coerceIn (value : Value) (columnType : ColumnType) (column : String) : Except PyErr Value :=
  match columnType, value with
  | .int, .bool b => .ok (.int (if b then 1 else 0))
  | .int, .int i => .ok (.int i)
  | .float, .float f => .ok (.float f)
  | .text, .text s => .ok (.text s)
  | .bool, .bool b => .ok (.bool b)
  | _, .null => .ok .null
  | t, v => .error (.typeMismatch column t.value (pythonTypeName v))

/-! ## The round trip -/

/-- The values a column of the type can hold. -/
def HasType : ColumnType → Value → Prop
  | _, .null => True
  | .int, .int i => int64Min ≤ i ∧ i ≤ int64Max
  | .float, .float _ => True
  | .text, .text s => (encodeUtf8 s).length < 256 ^ 4
  | .bool, .bool _ => True
  | _, _ => False

/-- What a stored value reads back as. -/
def readBack : Value → Value
  | .int i => if i = 0 then .null else .int i
  | .float f => if f.bits = 0 then .null else .float f
  | v => v

@[simp] theorem readBack_readBack (v : Value) : readBack (readBack v) = readBack v := by
  cases v with
  | int i =>
    by_cases h : i = 0
    · simp [readBack, h]
    · simp [readBack, h]
  | float f =>
    by_cases h : f.bits = 0
    · simp [readBack, h]
    · simp [readBack, h]
  | null => rfl
  | text s => rfl
  | bool b => rfl

theorem hasType_readBack {t : ColumnType} {v : Value} (h : HasType t v) :
    HasType t (readBack v) := by
  cases v with
  | int i =>
    by_cases h0 : i = 0
    · simp [readBack, h0, HasType]
    · simpa [readBack, h0] using h
  | float f =>
    by_cases h0 : f.bits = 0
    · simp [readBack, h0, HasType]
    · simpa [readBack, h0] using h
  | null => exact h
  | text s => exact h
  | bool b => exact h

theorem coerceIn_null (t : ColumnType) (column : String) : coerceIn .null t column = .ok .null := by
  cases t <;> rfl

private theorem encodeInt_ok {i : Int} (h : int64Min ≤ i ∧ i ≤ int64Max) :
    encodeInt (.int i) = .ok (leBytesInt 8 i) := by
  have h1 : ¬ (i < int64Min ∨ int64Max < i) := by omega
  simp [encodeInt, h1]

theorem encode_hasType {v : Value} {t : ColumnType} {raw : Bytes} (hv : v ≠ .null)
    (h : encode v t = .ok raw) : HasType t v := by
  unfold encode at h
  rw [if_neg hv] at h
  cases t <;> cases v <;> simp_all [encodeInt, encodeFloat, encodeText, encodeBool, HasType]
  · by_contra hc
    rw [if_pos (by omega)] at h
    cases h
  · by_contra hc
    rw [if_neg hc] at h
    cases h

/-- Every value of the column's type encodes. -/
theorem encode_of_hasType {v : Value} {t : ColumnType} (h : HasType t v) :
    ∃ raw, encode v t = .ok raw := by
  cases t <;> cases v <;> simp_all [HasType, encode, encodeFloat, encodeText, encodeBool, encodeInt_ok]

private theorem leBytesInt_ne_sentinel {i : Int} (h : int64Min ≤ i ∧ i ≤ int64Max) (h0 : i ≠ 0) :
    leBytesInt 8 i ≠ nullSentinel := by
  intro e
  have hi : leInt (leBytesInt 8 i) = i := by
    apply leInt_leBytesInt
    · simp only [int64Min] at h; omega
    · simp only [int64Max] at h; omega
  have hz : leInt nullSentinel = 0 := by decide
  rw [e, hz] at hi
  exact h0 hi.symm

/-- **Codec round trip.** -/
theorem decode_encode {v : Value} {t : ColumnType} {raw : Bytes} (hv : v ≠ .null)
    (h : encode v t = .ok raw) : decode raw t = .ok (readBack v) ∧ raw ≠ [] := by
  have ht := encode_hasType hv h
  unfold encode at h
  rw [if_neg hv] at h
  cases v with
  | null => exact absurd rfl hv
  | int i =>
    cases t <;> simp only [HasType] at ht
    rw [encodeInt_ok ht, Except.ok.injEq] at h
    subst h
    refine ⟨?_, fun e => by simpa using congrArg List.length e⟩
    by_cases h0 : i = 0
    · subst h0; decide
    · have hs : slice (leBytesInt 8 i) 0 8 = leBytesInt 8 i := by
        simpa using slice_append_left (leBytesInt 8 i) []
      simp only [decode, leBytesInt_ne_sentinel ht h0, ↓reduceIte, decodeInt, hs, readBack, h0,
        Except.ok.injEq, Value.int.injEq]
      apply leInt_leBytesInt
      · simp only [int64Min] at ht; omega
      · simp only [int64Max] at ht; omega
  | float f =>
    cases t <;> simp only [HasType] at ht
    simp only [encodeFloat, Except.ok.injEq] at h
    subst h
    refine ⟨?_, fun e => by simpa using congrArg List.length e⟩
    have hlt : f.bits.toNat < 256 ^ 8 := f.bits.toNat_lt
    have hs : slice (leBytes 8 f.bits.toNat) 0 8 = leBytes 8 f.bits.toNat := by
      simpa using slice_append_left (leBytes 8 f.bits.toNat) []
    by_cases h0 : f.bits = 0
    · simp only [readBack, h0, ↓reduceIte]
      decide
    · have hne : leBytes 8 f.bits.toNat ≠ nullSentinel := by
        intro e
        have hz := congrArg leNat e
        rw [leNat_leBytes _ _ hlt, nullSentinel, leNat_zeros] at hz
        exact h0 (UInt64.toNat_inj.mp (by simpa using hz))
      simp only [decode, hne, ↓reduceIte, decodeFloat, hs, unpackUint_leBytes hlt, ok_bind,
        UInt64.ofNat_toNat, readBack, h0]
  | text s =>
    cases t <;> simp only [HasType] at ht
    simp only [encodeText, ht, ↓reduceIte, Except.ok.injEq] at h
    subst h
    refine ⟨?_, fun e => by simpa using congrArg List.length e⟩
    have hs4 : slice (leBytes 4 (encodeUtf8 s).length ++ encodeUtf8 s) 0 4
        = leBytes 4 (encodeUtf8 s).length := by
      simpa using slice_append_left (leBytes 4 (encodeUtf8 s).length) (encodeUtf8 s)
    have hlen : leNat (leBytes 4 (encodeUtf8 s).length) = (encodeUtf8 s).length :=
      leNat_leBytes _ _ ht
    have hrest : slice (leBytes 4 (encodeUtf8 s).length ++ encodeUtf8 s) 4
        (4 + (encodeUtf8 s).length) = encodeUtf8 s := by
      simpa using slice_field (leBytes 4 (encodeUtf8 s).length) (encodeUtf8 s) [] 4
        (encodeUtf8 s).length (by simp) rfl
    have hne : leBytes 4 (encodeUtf8 s).length ++ encodeUtf8 s ≠ nullSentinel := by
      intro e
      have hl := congrArg List.length e
      have hz : leNat (slice nullSentinel 0 4) = 0 := by decide
      rw [← e, hs4, hlen] at hz
      simp [hz, nullSentinel] at hl
    simp only [decode, hne, ↓reduceIte, decodeText, hs4, hlen, hrest, decodeUtf8_encodeUtf8,
      ok_bind, readBack]
  | bool b =>
    cases t <;> simp only [HasType] at ht
    simp only [encodeBool, Except.ok.injEq] at h
    subst h
    cases b <;> decide

end TinyDB
