import TinyDB.IndexMap
import TinyDB.IndexSize
import TinyDB.Lib.LexOrder
import Mathlib.Data.String.Basic

/-!
# The order of TEXT keys

Strings are compared by code points, the specification orders TEXT keys by their UTF-8 bytes.
`encodeUtf8_lt_iff`: the two orders are one, so an index over strings walks its keys as one over
the payloads that `_encode_key` stores.
-/

namespace TinyDB

open Lib

instance linearOrderUInt8 : LinearOrder UInt8 where
  le_refl _ := UInt8.le_refl _
  le_trans _ _ _ := UInt8.le_trans
  lt_iff_le_not_ge a b := by
    rw [UInt8.not_le]
    exact ⟨fun h => ⟨UInt8.le_of_lt h, h⟩, And.right⟩
  le_antisymm _ _ := UInt8.le_antisymm
  le_total := UInt8.le_total
  toDecidableLE := inferInstance

/-! ## One character -/

theorem ofNat_lt {m n : Nat} (h : m < n) (hn : n < 256) : UInt8.ofNat m < UInt8.ofNat n := by
  rw [UInt8.lt_iff_toNat_lt, UInt8.toNat_ofNat', UInt8.toNat_ofNat']
  omega

theorem branches_ofNat {m n : Nat} {a b : Bytes} (hn : n < 256) (hle : m ≤ n)
    (h : m = n → Branches a b) : Branches (UInt8.ofNat m :: a) (UInt8.ofNat n :: b) := by
  rcases Nat.lt_or_eq_of_le hle with hlt | heq
  · exact Branches.of_lt (ofNat_lt hlt hn)
  · exact Branches.cons (congrArg UInt8.ofNat heq) (h heq)

/-- Characters in order have bytes in order, at the first byte in which they differ: the lead
byte when their encodings differ in length, else that of the highest six bits that differ. -/
theorem branches_utf8EncodeChar {c d : Char} (h : c < d) :
    Branches (String.utf8EncodeChar c) (String.utf8EncodeChar d) := by
  have hv : c.val.toNat < d.val.toNat := UInt32.lt_iff_toNat_lt.mp h
  have hd : d.val.toNat < 1114112 := by
    have hvalid := d.valid
    simp only [UInt32.isValidChar, Nat.isValidChar] at hvalid
    omega
  simp only [String.utf8EncodeChar]
  generalize c.val.toNat = v at hv ⊢
  generalize d.val.toNat = w at hv hd ⊢
  by_cases hw1 : w ≤ 0x7f
  · rw [if_pos hw1, if_pos (by omega)]
    exact Branches.of_lt (ofNat_lt hv (by omega))
  by_cases hw2 : w ≤ 0x7ff
  · rw [if_neg hw1, if_pos hw2]
    by_cases hv1 : v ≤ 0x7f
    · rw [if_pos hv1]
      exact Branches.of_lt (ofNat_lt (by omega) (by omega))
    · rw [if_neg hv1, if_pos (by omega)]
      refine branches_ofNat (by omega) (by omega) fun h1 => ?_
      exact Branches.of_lt (ofNat_lt (by omega) (by omega))
  by_cases hw3 : w ≤ 0xffff
  · rw [if_neg hw1, if_neg hw2, if_pos hw3]
    by_cases hv1 : v ≤ 0x7f
    · rw [if_pos hv1]
      exact Branches.of_lt (ofNat_lt (by omega) (by omega))
    rw [if_neg hv1]
    by_cases hv2 : v ≤ 0x7ff
    · rw [if_pos hv2]
      exact Branches.of_lt (ofNat_lt (by omega) (by omega))
    · rw [if_neg hv2, if_pos (by omega)]
      refine branches_ofNat (by omega) (by omega) fun h1 => ?_
      refine branches_ofNat (by omega) (by omega) fun h2 => ?_
      exact Branches.of_lt (ofNat_lt (by omega) (by omega))
  rw [if_neg hw1, if_neg hw2, if_neg hw3]
  by_cases hv1 : v ≤ 0x7f
  · rw [if_pos hv1]
    exact Branches.of_lt (ofNat_lt (by omega) (by omega))
  rw [if_neg hv1]
  by_cases hv2 : v ≤ 0x7ff
  · rw [if_pos hv2]
    exact Branches.of_lt (ofNat_lt (by omega) (by omega))
  rw [if_neg hv2]
  by_cases hv3 : v ≤ 0xffff
  · rw [if_pos hv3]
    exact Branches.of_lt (ofNat_lt (by omega) (by omega))
  · rw [if_neg hv3]
    refine branches_ofNat (by omega) (by omega) fun h1 => ?_
    refine branches_ofNat (by omega) (by omega) fun h2 => ?_
    refine branches_ofNat (by omega) (by omega) fun h3 => ?_
    exact Branches.of_lt (ofNat_lt (by omega) (by omega))

/-! ## Whole strings -/

theorem encodeUtf8_eq_flatMap (s : String) :
    encodeUtf8 s = s.toList.flatMap String.utf8EncodeChar := by
  have hbytes : s.toUTF8 = s.toList.utf8Encode := String.utf8Encode_toList.symm
  rw [encodeUtf8, hbytes, List.utf8Encode, List.toList_data_toByteArray]

theorem strictMono_encodeUtf8 : StrictMono encodeUtf8 := by
  intro s t h
  rw [encodeUtf8_eq_flatMap, encodeUtf8_eq_flatMap]
  exact strictMono_flatMap (fun _ => String.utf8EncodeChar_ne_nil)
    (fun _ _ => branches_utf8EncodeChar) (String.lt_iff_toList_lt.mp h)

/-- **Code points and bytes.** -/
theorem encodeUtf8_lt_iff {s t : String} : encodeUtf8 s < encodeUtf8 t ↔ s < t :=
  strictMono_encodeUtf8.lt_iff_lt

/-! ## The functions that compare keys -/

namespace BPlusTree

variable {κ κ' : Type} [LinearOrder κ] [LinearOrder κ'] {f : κ → κ'}

theorem childIndex_map (hf : StrictMono f) (keys : List κ) (key : κ) :
    childIndex (keys.map f) (f key) = childIndex keys key := by
  rw [childIndex, childIndex, List.findIdx_map]
  exact congrArg (List.findIdx · keys) (funext fun sep => decide_eq_decide.mpr hf.lt_iff_lt)

theorem bisectLoop_map (hf : StrictMono f) (keys : List κ) (key : κ) (n lo hi : Nat) :
    bisectLoop (keys.map f) (f key) n lo hi = bisectLoop keys key n lo hi := by
  induction n generalizing lo hi with
  | zero => rfl
  | succ n ih =>
    simp only [bisectLoop, List.getElem?_map]
    cases keys[(lo + hi) / 2]? with
    | none => rfl
    | some k => simp only [Option.map_some, hf.le_iff_le, ih]

theorem bisectRight_map (hf : StrictMono f) (keys : List κ) (key : κ) :
    bisectRight (keys.map f) (f key) = bisectRight keys key := by
  rw [bisectRight, bisectRight, List.length_map, bisectLoop_map hf]

theorem keyInRange_map (hf : StrictMono f) (lo hi : κ) (inclusive : Bool) (key : κ) :
    keyInRange (f lo) (f hi) inclusive (f key) = keyInRange lo hi inclusive key := by
  simp only [keyInRange, hf.le_iff_le, hf.lt_iff_lt]

/-- **TEXT keys.** The order of strings is that of the payloads stored for them, the searches
and the range test do the same on either, and what runs of an index over strings leave is scanned
in the order of the payloads. -/
theorem text_keys_in_byte_order (store : NodeStore String) (hstore : Pages store [])
    (order : Nat) (ops : List (TreeOp String)) :
    (∀ s t p q, keyPayload (.text s) = .ok (3, p) → keyPayload (.text t) = .ok (3, q) →
      (s < t ↔ p < q) ∧ (s ≤ t ↔ p ≤ q)) ∧
    (∀ (keys : List String) key,
      childIndex keys key = childIndex (keys.map encodeUtf8) (encodeUtf8 key) ∧
        bisectRight keys key = bisectRight (keys.map encodeUtf8) (encodeUtf8 key)) ∧
    (∀ (lo hi : String) inclusive key, keyInRange lo hi inclusive key =
      keyInRange (encodeUtf8 lo) (encodeUtf8 hi) inclusive (encodeUtf8 key)) ∧
    ∃ tree entries, ops.foldlM call (create store order) = some tree ∧
      Lists entries (mapOf ops) ∧ (entries.map fun e => encodeUtf8 e.1).Pairwise (· < ·) ∧
      tree.fullScan = some (entries.map Prod.snd) ∧
      ∀ lo hi inclusive, tree.range lo hi inclusive = some ((entries.filter fun e =>
        keyInRange (encodeUtf8 lo) (encodeUtf8 hi) inclusive (encodeUtf8 e.1)).map Prod.snd) := by
  refine ⟨?_, ?_, ?_, ?_⟩
  · rintro s t _ _ ⟨⟩ ⟨⟩
    exact ⟨encodeUtf8_lt_iff.symm, strictMono_encodeUtf8.le_iff_le.symm⟩
  · exact fun keys key => ⟨(childIndex_map strictMono_encodeUtf8 keys key).symm,
      (bisectRight_map strictMono_encodeUtf8 keys key).symm⟩
  · exact fun lo hi inclusive key => (keyInRange_map strictMono_encodeUtf8 lo hi inclusive key).symm
  · obtain ⟨tree, leaves, hcalls, hs, hm⟩ :=
      calls_spec ops (create_stands store order hstore) Lists.nil
    have h := hs.holds
    refine ⟨tree, entriesOf leaves, hcalls, hm, ?_, fullScan_spec h, fun lo hi inclusive => ?_⟩
    · have hpairs := h.pairwise
      rw [List.pairwise_map] at hpairs ⊢
      exact hpairs.imp encodeUtf8_lt_iff.mpr
    · rw [range_spec h, rowidsIn]
      simp only [keyInRange_map strictMono_encodeUtf8]

/-- A word of each encoded length. -/
def fourLengths : List (TreeOp String) :=
  [.insert "𝄞" 4, .insert "中" 3, .insert "z" 1, .insert "é" 2, .insert "zz" 5]

theorem text_keys_four_lengths :
    ∃ tree entries, fourLengths.foldlM call (create ⟨fun _ => none, [], 1⟩ 2) = some tree ∧
      Lists entries (mapOf fourLengths) ∧ (entries.map fun e => encodeUtf8 e.1).Pairwise (· < ·) ∧
      tree.fullScan = some (entries.map Prod.snd) ∧
      ∀ lo hi inclusive, tree.range lo hi inclusive = some ((entries.filter fun e =>
        keyInRange (encodeUtf8 lo) (encodeUtf8 hi) inclusive (encodeUtf8 e.1)).map Prod.snd) :=
  (text_keys_in_byte_order ⟨fun _ => none, [], 1⟩ ⟨by decide, by decide, by decide⟩ 2 _).2.2.2

end BPlusTree

end TinyDB
