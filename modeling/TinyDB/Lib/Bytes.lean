import Mathlib.Tactic

/-!
# Byte strings

Byte strings as lists of `UInt8`, little-endian numerals of a fixed width,
slices and slice assignment. `leNat_leBytes` and `leBytes_leNat` make the
width-`k` numerals and the byte strings of length `k` two presentations of the
numbers below `256 ^ k`; the `slice` lemmas read one field of a concatenation.
-/

namespace TinyDB.Lib

abbrev Bytes := List UInt8

/-- The `k` low bytes of `n`, least significant first. -/
def leBytes : Nat → Nat → Bytes
  | 0, _ => []
  | k + 1, n => UInt8.ofNat (n % 256) :: leBytes k (n / 256)

/-- The number a little-endian byte string denotes. -/
def leNat : Bytes → Nat
  | [] => 0
  | b :: bs => b.toNat + 256 * leNat bs

/-- The two's complement reading of a little-endian byte string. -/
def leInt (bs : Bytes) : Int :=
  if 256 ^ bs.length ≤ 2 * leNat bs then (leNat bs : Int) - 256 ^ bs.length else leNat bs

/-- The `k` low bytes of the two's complement of `i`. -/
def leBytesInt (k : Nat) (i : Int) : Bytes := leBytes k (i % 256 ^ k).toNat

/-- `bs[i:j]`. -/
def slice (bs : Bytes) (i j : Nat) : Bytes := (bs.drop i).take (j - i)

/-- `bs[i:j] = new`. -/
def setSlice (bs : Bytes) (i j : Nat) (new : Bytes) : Bytes := bs.take i ++ new ++ bs.drop j

def zeros (n : Nat) : Bytes := List.replicate n 0

/-- `os.pwrite` of `new` at offset `i`; a gap before it reads as zeros. -/
def writeAt (bs : Bytes) (i : Nat) (new : Bytes) : Bytes :=
  bs.take i ++ (zeros (i - bs.length) ++ (new ++ bs.drop (i + new.length)))

@[simp] theorem leBytes_length (k n : Nat) : (leBytes k n).length = k := by
  induction k generalizing n with
  | zero => rfl
  | succ k ih => simp [leBytes, ih]

@[simp] theorem leBytesInt_length (k : Nat) (i : Int) : (leBytesInt k i).length = k := by
  simp [leBytesInt]

@[simp] theorem zeros_length (n : Nat) : (zeros n).length = n := by simp [zeros]

theorem leNat_lt (bs : Bytes) : leNat bs < 256 ^ bs.length := by
  induction bs with
  | nil => simp [leNat]
  | cons b bs ih =>
    have hb : b.toNat < 256 := b.toNat_lt
    simp only [leNat, List.length_cons, Nat.pow_succ]
    omega

theorem leNat_leBytes (k n : Nat) (h : n < 256 ^ k) : leNat (leBytes k n) = n := by
  induction k generalizing n with
  | zero => simp at h; simp [leBytes, leNat, h]
  | succ k ih =>
    have hd : n / 256 < 256 ^ k := by
      rw [Nat.pow_succ] at h
      exact Nat.div_lt_of_lt_mul (by rwa [Nat.mul_comm] at h)
    simp only [leBytes, leNat, ih _ hd, UInt8.toNat_ofNat']
    omega

theorem leBytes_leNat (bs : Bytes) : leBytes bs.length (leNat bs) = bs := by
  induction bs with
  | nil => rfl
  | cons b bs ih =>
    have hb : b.toNat < 256 := b.toNat_lt
    have hm : (b.toNat + 256 * leNat bs) % 256 = b.toNat := by omega
    have hd : (b.toNat + 256 * leNat bs) / 256 = leNat bs := by omega
    simp only [List.length_cons, leBytes, leNat, hm, hd, ih, UInt8.ofNat_toNat]

theorem leBytes_inj {k m n : Nat} (hm : m < 256 ^ k) (hn : n < 256 ^ k)
    (h : leBytes k m = leBytes k n) : m = n := by
  rw [← leNat_leBytes k m hm, ← leNat_leBytes k n hn, h]

/-- Two's complement round trip on the signed range of `k` bytes. -/
theorem leInt_leBytesInt (k : Nat) (i : Int) (hlo : -(256 ^ k : Int) ≤ 2 * i)
    (hhi : 2 * i < (256 ^ k : Int)) : leInt (leBytesInt k i) = i := by
  have hpos : (0 : Int) < 256 ^ k := by positivity
  have hmod := Int.emod_nonneg i (ne_of_gt hpos)
  have hlt := Int.emod_lt_of_pos i hpos
  have hn : leNat (leBytesInt k i) = (i % 256 ^ k).toNat := by
    apply leNat_leBytes
    zify
    omega
  have hcast : ((i % 256 ^ k).toNat : Int) = i % 256 ^ k := Int.toNat_of_nonneg hmod
  unfold leInt
  rw [leBytesInt_length, hn, hcast]
  by_cases hi : 0 ≤ i
  · have he : i % 256 ^ k = i := Int.emod_eq_of_lt hi (by omega)
    rw [if_neg]
    · exact he
    · zify
      rw [hcast, he]
      omega
  · have he : i % 256 ^ k = i + 256 ^ k := by
      rw [← Int.add_emod_right]
      exact Int.emod_eq_of_lt (by omega) (by omega)
    rw [if_pos]
    · omega
    · zify
      rw [hcast, he]
      omega

@[simp] theorem leNat_zeros (n : Nat) : leNat (zeros n) = 0 := by
  induction n with
  | zero => rfl
  | succ n ih =>
    have : leNat (zeros (n + 1)) = 0 + 256 * leNat (zeros n) := rfl
    omega

/-! ## Slices of concatenations -/

theorem slice_append_left (a b : Bytes) : slice (a ++ b) 0 a.length = a := by
  simp [slice]

/-- The field that starts `i` bytes in and is `n` bytes long. -/
theorem slice_field (a b c : Bytes) (i n : Nat) (hi : i = a.length) (hn : n = b.length) :
    slice (a ++ (b ++ c)) i (i + n) = b := by
  subst hi hn
  simp [slice]

theorem slice_prefix (a b : Bytes) (j : Nat) (hj : j = a.length) : slice (a ++ b) 0 j = a := by
  subst hj
  exact slice_append_left a b

theorem drop_skip (a b : Bytes) (i : Nat) (hi : a.length ≤ i) :
    (a ++ b).drop i = b.drop (i - a.length) := by
  rw [List.drop_append, List.drop_of_length_le hi, List.nil_append]

theorem slice_skip (a b : Bytes) (i j : Nat) (hi : a.length ≤ i) :
    slice (a ++ b) i j = slice b (i - a.length) (j - a.length) := by
  have hn : j - i = j - a.length - (i - a.length) := by omega
  rw [slice, slice, drop_skip a b i hi, hn]

theorem slice_slice (bs : Bytes) (n i j : Nat) (hj : j ≤ n) :
    slice (slice bs 0 n) i j = slice bs i j := by
  have hm : min (j - i) (n - i) = j - i := by omega
  simp only [slice, List.drop_zero, Nat.sub_zero, List.drop_take, List.take_take, hm]

theorem slice_length_le (bs : Bytes) (i j : Nat) : (slice bs i j).length ≤ j - i := by
  simp only [slice, List.length_take]
  omega

theorem slice_length {bs : Bytes} {i j : Nat} (h : j ≤ bs.length) :
    (slice bs i j).length = j - i := by
  rw [slice, List.length_take, List.length_drop]
  omega

/-- Two neighbouring slices. -/
theorem slice_append {bs : Bytes} {i j k : Nat} (hij : i ≤ j) (hjk : j ≤ k) :
    slice bs i j ++ slice bs j k = slice bs i k := by
  have hk : k - i = (j - i) + (k - j) := by omega
  have hd : bs.drop j = (bs.drop i).drop (j - i) := by
    rw [List.drop_drop]
    congr 1
    omega
  rw [slice, slice, slice, hk, hd, List.take_add]

theorem setSlice_length (bs new : Bytes) (i j : Nat) (hi : i ≤ bs.length)
    (hj : j ≤ bs.length) (hn : i + new.length = j) :
    (setSlice bs i j new).length = bs.length := by
  simp only [setSlice, List.length_append, List.length_take, List.length_drop]
  omega

theorem setSlice_field (a b c new : Bytes) (i j : Nat) (hi : i = a.length)
    (hj : j = a.length + b.length) : setSlice (a ++ (b ++ c)) i j new = a ++ (new ++ c) := by
  subst hi hj
  simp [setSlice, List.append_assoc]

theorem writeAt_append (a b new : Bytes) (i : Nat) (hi : i = a.length) :
    writeAt (a ++ b) i new = a ++ (new ++ b.drop new.length) := by
  subst hi
  simp [writeAt, zeros]

/-! ## CRC-32 -/

/-- One bit of the reflected CRC-32. -/
def crcBit (c : UInt32) : UInt32 :=
  if c &&& 1 = 1 then (c >>> 1) ^^^ 0xEDB88320 else c >>> 1

def crcByte (c : UInt32) (b : UInt8) : UInt32 := (crcBit^[8]) (c ^^^ b.toUInt32)

/-- `zlib.crc32`. -/
def crc32 (bs : Bytes) : Nat := ((bs.foldl crcByte 0xFFFFFFFF) ^^^ 0xFFFFFFFF).toNat

theorem crc32_lt (bs : Bytes) : crc32 bs < 256 ^ 4 := UInt32.toNat_lt _

/-- The check value of CRC-32, over the digits `123456789`. -/
example : crc32 [49, 50, 51, 52, 53, 54, 55, 56, 57] = 0xCBF43926 := by decide +kernel

end TinyDB.Lib
