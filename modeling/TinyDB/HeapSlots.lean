import TinyDB.Heap

/-!
# The heap body as a list of slots

A slot is a row encoded under the table's schema, with the zero padding that a
shrinking update leaves behind it; its fields `encoded` and `arity` say that the
bytes are that encoding, so a slot always decodes. A body `Represents` a list
of slots when it is their count followed by their bytes. On such a body the
loops of `heap.py` are list operations: `scan` filters the live slots, `append`
adds one at the end, `delete` and `update` work on the first slot with the
rowid.
-/

namespace TinyDB

open Lib

structure Slot (schema : Schema) where
  dead : Bool
  rowid : Nat
  values : Row
  enc : Bytes
  pad : Nat
  encoded : encodeRow values schema rowid = .ok enc
  arity : values.length = schema.length

namespace Slot

variable {schema : Schema}

def data (s : Slot schema) : Bytes := s.enc ++ zeros s.pad

def flag (s : Slot schema) : UInt8 := if s.dead then 1 else 0

def bytes (s : Slot schema) : Bytes :=
  leBytes 4 (s.data.length + 1) ++ ([s.flag] ++ s.data)

/-- The row as a scan returns it. -/
def live? (s : Slot schema) : Option (Nat × Row) :=
  if s.dead then none else some (s.rowid, readBackRow s.values)

def kill (s : Slot schema) : Slot schema := { s with dead := true }

theorem data_decodes (s : Slot schema) :
    decodeRow s.data schema = .ok (readBackRow s.values) ∧ decodeRowid s.data = .ok s.rowid :=
  decodeRow_encodeRow s.arity s.encoded (zeros s.pad)

theorem data_length (s : Slot schema) : s.data.length = s.enc.length + s.pad := by
  simp [data]

theorem bytes_length (s : Slot schema) : s.bytes.length = s.data.length + 5 := by
  simp only [bytes, List.length_append, leBytes_length, List.length_singleton]
  omega

end Slot

namespace Heap

variable {schema : Schema}

def slotsBytes (slots : List (Slot schema)) : Bytes := slots.flatMap Slot.bytes

def slotsBody (slots : List (Slot schema)) : Bytes := leBytes 2 slots.length ++ slotsBytes slots

/-- The body holds the slots. A page that was just allocated has an empty body. -/
def Represents (body : Bytes) (slots : List (Slot schema)) : Prop :=
  body = slotsBody slots ∨ (body = [] ∧ slots = [])

/-- The body of the slots can be written: the header's length field is a `u16`. -/
def SlotsFit (slots : List (Slot schema)) : Prop := (slotsBody slots).length < 256 ^ 2

def liveRows (slots : List (Slot schema)) : List (Nat × Row) := slots.filterMap Slot.live?

@[simp] theorem slotsBytes_nil : slotsBytes ([] : List (Slot schema)) = [] := rfl

@[simp] theorem slotsBytes_cons (s : Slot schema) (slots : List (Slot schema)) :
    slotsBytes (s :: slots) = s.bytes ++ slotsBytes slots := rfl

@[simp] theorem slotsBytes_append (s t : List (Slot schema)) :
    slotsBytes (s ++ t) = slotsBytes s ++ slotsBytes t := by
  simp [slotsBytes]

theorem slotsBody_length (slots : List (Slot schema)) :
    (slotsBody slots).length = 2 + (slotsBytes slots).length := by
  simp [slotsBody]

theorem length_le_slotsBytes (slots : List (Slot schema)) :
    slots.length ≤ (slotsBytes slots).length := by
  induction slots with
  | nil => simp
  | cons s slots ih =>
    simp only [slotsBytes_cons, List.length_append, List.length_cons, s.bytes_length]
    omega

theorem data_length_le {s : Slot schema} {slots : List (Slot schema)} (h : s ∈ slots) :
    s.data.length + 5 ≤ (slotsBytes slots).length := by
  induction slots with
  | nil => simp at h
  | cons t slots ih =>
    simp only [slotsBytes_cons, List.length_append]
    rcases List.mem_cons.mp h with rfl | h
    · rw [s.bytes_length]; omega
    · have := ih h; omega

theorem SlotsFit.length_lt {slots : List (Slot schema)} (h : SlotsFit slots) :
    slots.length < 256 ^ 2 := by
  have := length_le_slotsBytes slots
  rw [SlotsFit, slotsBody_length] at h
  omega

theorem SlotsFit.data_lt {slots : List (Slot schema)} (h : SlotsFit slots) {s : Slot schema}
    (hs : s ∈ slots) : s.data.length + 1 < 256 ^ 4 := by
  have := data_length_le hs
  rw [SlotsFit, slotsBody_length] at h
  omega

/-! ## The loops on a represented body -/

private theorem slice_len (a c : Bytes) (s : Slot schema) :
    slice (a ++ (s.bytes ++ c)) a.length (a.length + 4) = leBytes 4 (s.data.length + 1) := by
  rw [Slot.bytes, List.append_assoc]
  exact slice_field a _ _ a.length 4 rfl (by simp)

private theorem slice_rowBytes (a c : Bytes) (s : Slot schema) :
    slice (a ++ (s.bytes ++ c)) (a.length + 4) (a.length + 4 + (s.data.length + 1))
      = [s.flag] ++ s.data := by
  rw [Slot.bytes, List.append_assoc, ← List.append_assoc a]
  exact slice_field (a ++ leBytes 4 (s.data.length + 1)) _ _ (a.length + 4) (s.data.length + 1)
    (by simp) (by simp)

private theorem next_offset (a : Bytes) (s : Slot schema) :
    a.length + 4 + (s.data.length + 1) = (a ++ s.bytes).length := by
  rw [List.length_append, s.bytes_length]
  omega

theorem scanSlots_slotsBytes (a : Bytes) (slots : List (Slot schema))
    (h : ∀ s ∈ slots, s.data.length + 1 < 256 ^ 4) :
    scanSlots schema (a ++ slotsBytes slots) slots.length a.length = .ok (liveRows slots) := by
  induction slots generalizing a with
  | nil => rfl
  | cons s slots ih =>
    have hs := h s (List.mem_cons_self ..)
    have hih := ih (a ++ s.bytes) (fun t ht => h t (List.mem_cons_of_mem _ ht))
    rw [List.append_assoc, ← next_offset] at hih
    rw [slotsBytes_cons, List.length_cons, scanSlots, slice_len, unpackUint_leBytes hs, ok_bind,
      slice_rowBytes, hih]
    obtain ⟨hrow, hid⟩ := s.data_decodes
    cases hd : s.dead
    · have hf : slice (s.flag :: s.data) 0 1 = alive := by simp [slice, Slot.flag, hd, alive]
      simp only [hf, ↓reduceIte, List.drop_one, List.singleton_append, List.tail_cons, hid, hrow,
        ok_bind, liveRows, List.filterMap_cons, Slot.live?, hd, Bool.false_eq_true]
    · have hf : slice (s.flag :: s.data) 0 1 ≠ alive := by simp [slice, Slot.flag, hd, alive]
      simp only [hf, ↓reduceIte, List.singleton_append, liveRows, List.filterMap_cons, Slot.live?,
        hd]

theorem findSlot_none (rowid : Nat) (a : Bytes) (slots : List (Slot schema))
    (h : ∀ s ∈ slots, s.data.length + 1 < 256 ^ 4) (hn : ∀ s ∈ slots, s.rowid ≠ rowid) :
    findSlot rowid (a ++ slotsBytes slots) slots.length a.length = .ok none := by
  induction slots generalizing a with
  | nil => rfl
  | cons s slots ih =>
    have hs := h s (List.mem_cons_self ..)
    have hih := ih (a ++ s.bytes) (fun t ht => h t (List.mem_cons_of_mem _ ht))
      (fun t ht => hn t (List.mem_cons_of_mem _ ht))
    rw [List.append_assoc, ← next_offset] at hih
    rw [slotsBytes_cons, List.length_cons, findSlot, slice_len, unpackUint_leBytes hs, ok_bind,
      slice_rowBytes, hih]
    simp only [List.drop_one, List.singleton_append, List.tail_cons, s.data_decodes.2, ok_bind,
      hn s (List.mem_cons_self ..), ↓reduceIte]

theorem findSlot_first (a : Bytes) (before : List (Slot schema)) (s : Slot schema)
    (after : List (Slot schema))
    (h : ∀ t ∈ before ++ s :: after, t.data.length + 1 < 256 ^ 4)
    (hb : ∀ t ∈ before, t.rowid ≠ s.rowid) :
    findSlot s.rowid (a ++ slotsBytes (before ++ s :: after)) (before ++ s :: after).length a.length
      = .ok (some ((a ++ slotsBytes before).length, s.data.length + 1)) := by
  induction before generalizing a with
  | nil =>
    have hs := h s (by simp)
    simp only [List.nil_append, slotsBytes_cons, List.length_cons, findSlot, slice_len,
      unpackUint_leBytes hs, ok_bind, slice_rowBytes, List.drop_one, List.singleton_append,
      List.tail_cons, s.data_decodes.2, ↓reduceIte, slotsBytes_nil, List.append_nil]
  | cons t before ih =>
    have ht := h t (by simp)
    have hih := ih (a ++ t.bytes) (fun u hu => h u (List.mem_cons_of_mem _ hu))
      (fun u hu => hb u (List.mem_cons_of_mem _ hu))
    rw [List.append_assoc, ← next_offset] at hih
    rw [List.cons_append, slotsBytes_cons, List.length_cons, findSlot, slice_len,
      unpackUint_leBytes ht, ok_bind, slice_rowBytes, hih]
    simp only [List.drop_one, List.singleton_append, List.tail_cons, t.data_decodes.2, ok_bind,
      hb t (List.mem_cons_self ..), ↓reduceIte, slotsBytes_cons, List.append_assoc]

/-- The first slot of a rowid, if any. -/
theorem first_slot (rowid : Nat) (slots : List (Slot schema)) :
    (∀ s ∈ slots, s.rowid ≠ rowid) ∨
      ∃ before s after, slots = before ++ s :: after ∧ s.rowid = rowid ∧
        ∀ t ∈ before, t.rowid ≠ rowid := by
  induction slots with
  | nil => exact Or.inl (by simp)
  | cons s slots ih =>
    by_cases hs : s.rowid = rowid
    · exact Or.inr ⟨[], s, slots, rfl, hs, by simp⟩
    · rcases ih with h | ⟨before, t, after, rfl, ht, hb⟩
      · left
        intro t ht
        rcases List.mem_cons.mp ht with rfl | ht
        · exact hs
        · exact h t ht
      · right
        refine ⟨s :: before, t, after, rfl, ht, ?_⟩
        intro u hu
        rcases List.mem_cons.mp hu with rfl | hu
        · exact hs
        · exact hb u hu

/-! ## The operations on a represented body -/

theorem slice_count (slots : List (Slot schema)) :
    slice (slotsBody slots) 0 2 = leBytes 2 slots.length := by
  have := slice_append_left (leBytes 2 slots.length) (slotsBytes slots)
  rwa [leBytes_length] at this

theorem readCount_represents {body : Bytes} {slots : List (Slot schema)}
    (h : Represents body slots) (hf : SlotsFit slots) :
    readCount body = (slots.length, body) := by
  rcases h with rfl | ⟨rfl, rfl⟩
  · have hl : ¬ (slotsBody slots).length < 2 := by rw [slotsBody_length]; omega
    rw [readCount, if_neg hl, slice_count, leNat_leBytes _ _ hf.length_lt]
  · rfl

theorem represents_drop {body : Bytes} {slots : List (Slot schema)}
    (h : Represents body slots) : body.drop 2 = slotsBytes slots := by
  rcases h with rfl | ⟨rfl, rfl⟩
  · rw [slotsBody]
    exact List.drop_left' (leBytes_length 2 slots.length)
  · rfl

theorem scanBody_represents {body : Bytes} {slots : List (Slot schema)}
    (h : Represents body slots) (hf : SlotsFit slots) :
    scanBody schema body = .ok (liveRows slots) := by
  rw [scanBody, readCount_represents h hf]
  simp only
  rcases h with rfl | ⟨rfl, rfl⟩
  · exact scanSlots_slotsBytes (leBytes 2 slots.length) slots (fun s hs => hf.data_lt hs)
  · rfl

theorem appendBody_represents {body : Bytes} {slots : List (Slot schema)} {values : Row}
    (h : Represents body slots) (hf : SlotsFit slots) {enc : Bytes}
    (he : encodeRow values schema (slots.length + 1) = .ok enc)
    (ha : values.length = schema.length)
    (hn : SlotsFit (slots ++ [⟨false, slots.length + 1, values, enc, 0, he, ha⟩])) :
    appendBody schema values body = .ok (slots.length + 1,
      slotsBody (slots ++ [⟨false, slots.length + 1, values, enc, 0, he, ha⟩])) := by
  have hlen : enc.length + 1 < 256 ^ 4 := by
    have := hn.data_lt (List.mem_append_right slots (List.mem_singleton_self _))
    simpa [Slot.data, zeros] using this
  have hcount : slots.length + 1 < 256 ^ 2 := by simpa using hn.length_lt
  simp only [appendBody, readCount_represents h hf, he, packUint_ok hcount, packUint_ok hlen,
    ok_bind, represents_drop h, slotsBody, slotsBytes_append, slotsBytes_cons, slotsBytes_nil,
    Slot.bytes, Slot.data, Slot.flag, zeros, List.replicate_zero, List.append_nil,
    List.length_append, List.length_singleton, alive, Bool.false_eq_true, ↓reduceIte]

/-- A body with a slot in it is not the empty one, and its count is stored. -/
theorem represents_cons {body : Bytes} {slots : List (Slot schema)} (h : Represents body slots)
    (hf : SlotsFit slots) (hne : slots ≠ []) :
    body = slotsBody slots ∧ unpackUint 2 (slice body 0 2) = .ok slots.length := by
  rcases h with rfl | ⟨rfl, rfl⟩
  · refine ⟨rfl, ?_⟩
    rw [slice_count, unpackUint_leBytes hf.length_lt]
  · exact absurd rfl hne

section FirstSlot

variable {body : Bytes} {before after : List (Slot schema)} {s : Slot schema}

theorem findSlot_represents (h : Represents body (before ++ s :: after))
    (hf : SlotsFit (before ++ s :: after)) (hb : ∀ t ∈ before, t.rowid ≠ s.rowid) :
    unpackUint 2 (slice body 0 2) = .ok (before ++ s :: after).length ∧
      findSlot s.rowid body (before ++ s :: after).length 2 =
        .ok (some ((leBytes 2 (before ++ s :: after).length ++ slotsBytes before).length,
          s.data.length + 1)) := by
  obtain ⟨rfl, hc⟩ := represents_cons h hf (by simp)
  refine ⟨hc, ?_⟩
  have := findSlot_first (leBytes 2 (before ++ s :: after).length) before s after
    (fun t ht => hf.data_lt ht) hb
  rw [leBytes_length] at this
  exact this

/-- The bytes around the first slot. -/
theorem slotsBody_split (before after : List (Slot schema)) (s : Slot schema) :
    slotsBody (before ++ s :: after) =
      (leBytes 2 (before ++ s :: after).length ++ slotsBytes before) ++
        (leBytes 4 (s.data.length + 1) ++ ([s.flag] ++ (s.data ++ slotsBytes after))) := by
  simp only [slotsBody, slotsBytes_append, slotsBytes_cons, Slot.bytes, List.append_assoc]

private theorem set_flag (a l d : Bytes) (f g : UInt8) (hl : l.length = 4) :
    (a ++ (l ++ ([f] ++ d))).set (a.length + 4) g = a ++ (l ++ ([g] ++ d)) := by
  rw [List.set_append_right _ _ (by omega), Nat.add_sub_cancel_left,
    List.set_append_right _ _ (by omega), hl]
  rfl

theorem set_dead (before after : List (Slot schema)) (s : Slot schema) :
    (slotsBody (before ++ s :: after)).set
        ((leBytes 2 (before ++ s :: after).length ++ slotsBytes before).length + 4) 1 =
      slotsBody (before ++ s.kill :: after) := by
  rw [slotsBody_split, slotsBody_split, set_flag _ _ _ _ _ (leBytes_length ..)]
  simp [Slot.kill, Slot.data, Slot.flag]

/-- **Delete.** The first slot with the rowid dies. -/
theorem deleteBody_represents (h : Represents body (before ++ s :: after))
    (hf : SlotsFit (before ++ s :: after)) (hb : ∀ t ∈ before, t.rowid ≠ s.rowid) :
    deleteBody s.rowid body = .ok (some (slotsBody (before ++ s.kill :: after))) := by
  obtain ⟨hc, hfind⟩ := findSlot_represents h hf hb
  obtain ⟨rfl, -⟩ := represents_cons h hf (by simp)
  simp only [deleteBody, hc, hfind, ok_bind, set_dead]

private theorem slice_found (h : body = slotsBody (before ++ s :: after)) :
    slice body ((leBytes 2 (before ++ s :: after).length ++ slotsBytes before).length + 4)
        ((leBytes 2 (before ++ s :: after).length ++ slotsBytes before).length + 4 +
          (s.data.length + 1)) = [s.flag] ++ s.data := by
  have := slice_rowBytes (leBytes 2 (before ++ s :: after).length ++ slotsBytes before)
    (slotsBytes after) s
  rw [h, slotsBody, slotsBytes_append, slotsBytes_cons, ← List.append_assoc]
  exact this

/-- **Update in place.** The first slot with the rowid comes to hold the row and
is alive, whatever it was before. -/
theorem updateBody_inPlace (h : Represents body (before ++ s :: after))
    (hf : SlotsFit (before ++ s :: after)) (hb : ∀ t ∈ before, t.rowid ≠ s.rowid)
    {values : Row} {enc : Bytes} (he : encodeRow values schema s.rowid = .ok enc)
    (ha : values.length = schema.length) (hle : enc.length ≤ s.data.length) :
    updateBody schema s.rowid values body = .ok (some (slotsBody (before ++
      ⟨false, s.rowid, values, enc, s.data.length - enc.length, he, ha⟩ :: after))) := by
  obtain ⟨hc, hfind⟩ := findSlot_represents h hf hb
  obtain ⟨hbody, -⟩ := represents_cons h hf (by simp)
  have hlt := hf.data_lt (s := s) (by simp)
  have hrow : ([s.flag] ++ s.data).length = s.data.length + 1 := by
    simp only [List.length_append, List.length_singleton]
    omega
  have hdrop : ([s.flag] ++ s.data).drop 1 = s.data := rfl
  simp only [updateBody, hc, hfind, ok_bind, slice_found hbody, hdrop, he, hle, ↓reduceIte, hrow,
    packUint_ok hlt, Except.ok.injEq, Option.some.injEq]
  -- the four assignments, each to one field of the slot
  generalize hA : leBytes 2 (before ++ s :: after).length ++ slotsBytes before = a
  have e0 : body = a ++ (leBytes 4 (s.data.length + 1) ++ ([s.flag] ++
      (s.data ++ slotsBytes after))) := by rw [hbody, slotsBody_split, hA]
  have e1 := setSlice_field a (leBytes 4 (s.data.length + 1))
    ([s.flag] ++ (s.data ++ slotsBytes after)) (leBytes 4 (s.data.length + 1)) a.length
    (a.length + 4) rfl (by simp)
  have e2 := setSlice_field (a ++ leBytes 4 (s.data.length + 1)) [s.flag]
    (s.data ++ slotsBytes after) alive (a.length + 4) (a.length + 4 + 1) (by simp) (by simp)
  have e3 := setSlice_field (a ++ leBytes 4 (s.data.length + 1) ++ alive)
    (s.data.take enc.length) (s.data.drop enc.length ++ slotsBytes after) enc
    (a.length + 4 + 1) (a.length + 4 + 1 + enc.length) (by simp [alive])
    (by simp [alive, Nat.min_eq_left hle])
  have e4 := setSlice_field (a ++ leBytes 4 (s.data.length + 1) ++ alive ++ enc)
    (s.data.drop enc.length) (slotsBytes after) (zeros (s.data.length - enc.length))
    (a.length + 4 + 1 + enc.length) (a.length + 4 + (s.data.length + 1))
    (by simp [alive]; omega) (by simp [alive]; omega)
  have hz : a.length + 4 + (s.data.length + 1) - (a.length + 4 + 1 + enc.length) =
      s.data.length - enc.length := by omega
  simp only [List.append_assoc, ← List.append_assoc (s.data.take enc.length) (s.data.drop _),
    List.take_append_drop] at e1 e2 e3 e4
  rw [hz, e0, e1, e2, e3, e4, slotsBody_split, ← hA]
  have hpad : enc.length + (s.enc.length + s.pad - enc.length) = s.enc.length + s.pad := by
    rw [s.data_length] at hle
    omega
  simp [Slot.data, Slot.flag, alive, hpad]

/-- **Update that outgrows its slot.** The first slot with the rowid dies and the
row goes to the end. -/
theorem updateBody_grow (h : Represents body (before ++ s :: after))
    (hf : SlotsFit (before ++ s :: after)) (hb : ∀ t ∈ before, t.rowid ≠ s.rowid)
    {values : Row} {enc : Bytes} (he : encodeRow values schema s.rowid = .ok enc)
    (ha : values.length = schema.length) (hlt : s.data.length < enc.length)
    (hn : SlotsFit (before ++ s.kill :: after ++ [⟨false, s.rowid, values, enc, 0, he, ha⟩])) :
    updateBody schema s.rowid values body = .ok (some (slotsBody
      (before ++ s.kill :: after ++ [⟨false, s.rowid, values, enc, 0, he, ha⟩]))) := by
  obtain ⟨hc, hfind⟩ := findSlot_represents h hf hb
  obtain ⟨hbody, -⟩ := represents_cons h hf (by simp)
  have hlen : enc.length + 1 < 256 ^ 4 := by
    have := hn.data_lt (List.mem_append_right _ (List.mem_singleton_self _))
    simpa [Slot.data, zeros] using this
  have hcount : (before ++ s :: after).length + 1 < 256 ^ 2 := by
    have := hn.length_lt
    simpa [Nat.add_assoc] using this
  have hdrop : ([s.flag] ++ s.data).drop 1 = s.data := rfl
  have hge : ¬ enc.length ≤ s.data.length := by omega
  simp only [updateBody, hc, hfind, ok_bind, slice_found hbody, hdrop, he, hge, ↓reduceIte,
    packUint_ok hlen, packUint_ok hcount, Except.ok.injEq, Option.some.injEq]
  rw [hbody, set_dead]
  have e1 := setSlice_field [] (leBytes 2 (before ++ s.kill :: after).length)
    (slotsBytes (before ++ s.kill :: after) ++ (leBytes 4 (enc.length + 1) ++ (alive ++ enc)))
    (leBytes 2 ((before ++ s :: after).length + 1)) 0 2 rfl (by simp)
  simp only [List.nil_append] at e1
  rw [slotsBody, List.append_assoc, e1]
  simp [slotsBody, Slot.bytes, Slot.data, Slot.flag, alive, zeros, Nat.add_assoc]

end FirstSlot

theorem updateBody_encode_error {body : Bytes} {before after : List (Slot schema)}
    {s : Slot schema} (h : Represents body (before ++ s :: after))
    (hf : SlotsFit (before ++ s :: after)) (hb : ∀ t ∈ before, t.rowid ≠ s.rowid)
    {values : Row} {e : PyErr} (he : encodeRow values schema s.rowid = .error e) :
    updateBody schema s.rowid values body = .error e := by
  obtain ⟨hc, hfind⟩ := findSlot_represents h hf hb
  simp only [updateBody, hc, hfind, ok_bind, he, error_bind]

end Heap
end TinyDB
