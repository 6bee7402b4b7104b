import TinyDB.Types

/-!
# Row layout

`row_layout.py`: `[rowid u64][col_count u16][(len u32 + value) * n]`, a length
of zero standing for NULL. Proved here: a row encoded under a schema decodes
to its values as the type codec reads them back, also when other bytes follow
(`decodeRow_encodeRow`).
-/

namespace TinyDB

open Lib

def encodeCell (value : Value) (columnType : ColumnType) : Except PyErr Bytes :=
  if value = .null then packUint 4 0
  else do
    let encoded ← encode value columnType
    let length ← packUint 4 encoded.length
    .ok (length ++ encoded)

/-- The loop of `encode_row` over `zip(values, schema)`. -/
def encodeCells : Row → Schema → Except PyErr Bytes
  | value :: values, (_, columnType) :: schema => do
    let cell ← encodeCell value columnType
    let rest ← encodeCells values schema
    .ok (cell ++ rest)
  | _, _ => .ok []

def encodeRow (values : Row) (schema : Schema) (rowid : Nat) : Except PyErr Bytes := do
  let prefix' ← packUint 8 rowid
  let count ← packUint 2 schema.length
  let cells ← encodeCells values schema
  .ok (prefix' ++ (count ++ cells))

/-- The loop of `decode_row`. -/
def decodeCells (raw : Bytes) : Nat → Schema → Except PyErr Row
  | _, [] => .ok []
  | offset, (_, columnType) :: schema => do
    let length ← unpackUint 4 (slice raw offset (offset + 4))
    if length = 0 then
      let rest ← decodeCells raw (offset + 4) schema
      .ok (.null :: rest)
    else
      let value ← decode (slice raw (offset + 4) (offset + 4 + length)) columnType
      let rest ← decodeCells raw (offset + 4 + length) schema
      .ok (value :: rest)

def decodeRow (raw : Bytes) (schema : Schema) : Except PyErr Row := decodeCells raw (8 + 2) schema

def decodeRowid (raw : Bytes) : Except PyErr Nat := unpackUint 8 (slice raw 0 8)

/-! ## The round trip -/

/-- What a stored row reads back as. -/
def readBackRow (values : Row) : Row := values.map readBack

@[simp] theorem readBackRow_readBackRow (values : Row) :
    readBackRow (readBackRow values) = readBackRow values := by
  simp [readBackRow]

private theorem decodeCells_null (a c : Bytes) (name : String) (t : ColumnType) (schema : Schema) :
    decodeCells (a ++ (leBytes 4 0 ++ c)) a.length ((name, t) :: schema) =
      (do
        let rest ← decodeCells (a ++ (leBytes 4 0 ++ c)) (a.length + 4) schema
        .ok (.null :: rest)) := by
  simp only [decodeCells, slice_field a (leBytes 4 0) c a.length 4 rfl (by simp),
    unpackUint_leBytes (show 0 < 256 ^ 4 by decide), ok_bind, ↓reduceIte]

private theorem decodeCells_value (a e c : Bytes) (name : String) (t : ColumnType)
    (schema : Schema) (hpos : e ≠ []) (hlt : e.length < 256 ^ 4) :
    decodeCells (a ++ ((leBytes 4 e.length ++ e) ++ c)) a.length ((name, t) :: schema) =
      (do
        let value ← decode e t
        let rest ← decodeCells (a ++ ((leBytes 4 e.length ++ e) ++ c)) (a.length + 4 + e.length)
          schema
        .ok (value :: rest)) := by
  have h4 : slice (a ++ ((leBytes 4 e.length ++ e) ++ c)) a.length (a.length + 4)
      = leBytes 4 e.length := by
    rw [List.append_assoc]
    exact slice_field a (leBytes 4 e.length) (e ++ c) a.length 4 rfl (by simp)
  have he : slice (a ++ ((leBytes 4 e.length ++ e) ++ c)) (a.length + 4) (a.length + 4 + e.length)
      = e := by
    rw [List.append_assoc, ← List.append_assoc]
    exact slice_field (a ++ leBytes 4 e.length) e c (a.length + 4) e.length (by simp) rfl
  have hz : e.length ≠ 0 := by simpa using hpos
  simp only [decodeCells, h4, unpackUint_leBytes hlt, ok_bind, he, hz, ↓reduceIte]

theorem decodeCells_encodeCells (values : Row) (schema : Schema) (cells : Bytes)
    (hlen : values.length = schema.length) (h : encodeCells values schema = .ok cells)
    (a tail : Bytes) :
    decodeCells (a ++ (cells ++ tail)) a.length schema = .ok (readBackRow values) := by
  induction values generalizing schema cells a with
  | nil =>
    cases schema with
    | nil => rfl
    | cons => simp at hlen
  | cons v values ih =>
    cases schema with
    | nil => simp at hlen
    | cons col schema =>
      obtain ⟨name, t⟩ := col
      simp only [encodeCells, bind_eq_ok, Except.ok.injEq] at h
      obtain ⟨cell, hcell, rest, hrest, rfl⟩ := h
      have hlen' : values.length = schema.length := by simpa using hlen
      by_cases hv : v = .null
      · rw [encodeCell, if_pos hv, packUint_eq_ok] at hcell
        obtain ⟨-, rfl⟩ := hcell
        have := ih schema rest hlen' hrest (a ++ leBytes 4 0)
        rw [List.append_assoc, List.length_append, leBytes_length] at this
        rw [List.append_assoc, decodeCells_null, this, ok_bind, hv]
        rfl
      · simp only [encodeCell, hv, ↓reduceIte, bind_eq_ok, Except.ok.injEq, packUint_eq_ok] at hcell
        obtain ⟨e, he, len, ⟨hlt, rfl⟩, rfl⟩ := hcell
        obtain ⟨hd, hne⟩ := decode_encode hv he
        have := ih schema rest hlen' hrest (a ++ (leBytes 4 e.length ++ e))
        rw [List.append_assoc, List.length_append, List.length_append, leBytes_length,
          ← Nat.add_assoc] at this
        rw [List.append_assoc, decodeCells_value a e (rest ++ tail) name t schema hne hlt, hd,
          ok_bind, this, ok_bind]
        rfl

/-- **Row round trip.** -/
theorem decodeRow_encodeRow {values : Row} {schema : Schema} {rowid : Nat} {raw : Bytes}
    (hlen : values.length = schema.length) (h : encodeRow values schema rowid = .ok raw)
    (tail : Bytes) :
    decodeRow (raw ++ tail) schema = .ok (readBackRow values) ∧
      decodeRowid (raw ++ tail) = .ok rowid := by
  simp only [encodeRow, bind_eq_ok, Except.ok.injEq, packUint_eq_ok] at h
  obtain ⟨_, ⟨hr, rfl⟩, _, ⟨hc, rfl⟩, cells, hcells, rfl⟩ := h
  constructor
  · have := decodeCells_encodeCells values schema cells hlen hcells
      (leBytes 8 rowid ++ leBytes 2 schema.length) tail
    simpa [decodeRow, List.append_assoc] using this
  · have hs : slice (leBytes 8 rowid ++ (leBytes 2 schema.length ++ cells) ++ tail) 0 8
        = leBytes 8 rowid := by
      rw [List.append_assoc]
      simpa using slice_append_left (leBytes 8 rowid) (leBytes 2 schema.length ++ cells ++ tail)
    rw [decodeRowid, hs, unpackUint_leBytes hr]

theorem encodeRow_length {values : Row} {schema : Schema} {rowid : Nat} {raw : Bytes}
    (h : encodeRow values schema rowid = .ok raw) : 10 ≤ raw.length := by
  simp only [encodeRow, bind_eq_ok, Except.ok.injEq, packUint_eq_ok] at h
  obtain ⟨_, ⟨_, rfl⟩, _, ⟨_, rfl⟩, cells, _, rfl⟩ := h
  simp only [List.length_append, leBytes_length]
  omega

/-! ## Which rows come back -/

/-- What a column of the type may be given. INT 0 is not among it. -/
def WellTyped : ColumnType → Value → Prop
  | _, .null => True
  | .int, .int i => int64Min ≤ i ∧ i ≤ int64Max ∧ i ≠ 0
  | .float, .float _ => True
  | .text, .text _ => True
  | .bool, .bool _ => True
  | _, _ => False

/-- A value whose bytes are not those of NULL and whose length fits the length field. -/
def Value.Storable : Value → Prop
  | .float f => f.bits ≠ 0
  | .text s => 4 + (encodeUtf8 s).length < 256 ^ 4
  | _ => True

instance (v : Value) : Decidable v.Storable :=
  match v with
  | .float f => inferInstanceAs (Decidable (f.bits ≠ 0))
  | .text s => inferInstanceAs (Decidable (4 + (encodeUtf8 s).length < 256 ^ 4))
  | .null => inferInstanceAs (Decidable True)
  | .int _ => inferInstanceAs (Decidable True)
  | .bool _ => inferInstanceAs (Decidable True)

/-- Encoding succeeds, and whatever follows the bytes, they decode to the row and its rowid. -/
def RoundTrips (values : Row) (schema : Schema) (rowid : Nat) : Prop :=
  ∃ raw, encodeRow values schema rowid = .ok raw ∧ ∀ tail,
    decodeRow (raw ++ tail) schema = .ok values ∧ decodeRowid (raw ++ tail) = .ok rowid

theorem storable_iff {v : Value} {t : ColumnType} (h : WellTyped t v) :
    v.Storable ↔ (∃ cell, encodeCell v t = .ok cell) ∧ readBack v = v := by
  cases v with
  | null => exact iff_of_true trivial ⟨⟨leBytes 4 0, rfl⟩, rfl⟩
  | int i =>
    cases t <;> simp only [WellTyped] at h
    have hne : Value.int i ≠ .null := Value.noConfusion
    refine iff_of_true trivial ⟨?_, by rw [readBack, if_neg h.2.2]⟩
    rw [encodeCell, if_neg hne, encode, if_neg hne, encodeInt, if_neg (by omega), ok_bind,
      leBytesInt_length]
    exact ⟨_, rfl⟩
  | float f =>
    cases t <;> simp only [WellTyped] at h
    have hcell : ∃ cell, encodeCell (.float f) .float = .ok cell := ⟨_, rfl⟩
    rw [and_iff_right hcell, readBack]
    by_cases h0 : f.bits = 0
    · rw [if_pos h0]
      exact iff_of_false (fun hs => hs h0) Value.noConfusion
    · rw [if_neg h0]
      exact iff_of_true h0 rfl
  | text s =>
    cases t <;> simp only [WellTyped] at h
    have hne : Value.text s ≠ .null := Value.noConfusion
    have hread : readBack (.text s) = .text s := rfl
    rw [and_iff_left hread, encodeCell, if_neg hne, encode, if_neg hne, encodeText]
    change 4 + (encodeUtf8 s).length < 256 ^ 4 ↔ _
    by_cases hlt : (encodeUtf8 s).length < 256 ^ 4
    · simp only [if_pos hlt, ok_bind, bind_eq_ok, packUint_eq_ok, List.length_append,
        leBytes_length]
      constructor
      · exact fun hfits => ⟨_, _, ⟨hfits, rfl⟩, rfl⟩
      · rintro ⟨_, _, ⟨hfits, -⟩, -⟩
        exact hfits
    · simp only [if_neg hlt, error_bind]
      refine iff_of_false (by omega) ?_
      rintro ⟨cell, hcell⟩
      cases hcell
  | bool b =>
    cases t <;> simp only [WellTyped] at h
    exact iff_of_true trivial ⟨⟨_, rfl⟩, rfl⟩

theorem storable_row_iff {values : Row} {schema : Schema}
    (h : List.Forall₂ (fun v col => WellTyped col.2 v) values schema) :
    (∀ v ∈ values, v.Storable) ↔
      (∃ cells, encodeCells values schema = .ok cells) ∧ readBackRow values = values := by
  induction h with
  | nil => exact iff_of_true nofun ⟨⟨[], rfl⟩, rfl⟩
  | @cons v col values schema hv _ ih =>
    rw [List.forall_mem_cons, ih, storable_iff hv]
    simp only [encodeCells, bind_eq_ok, Except.ok.injEq, readBackRow, List.map_cons, List.cons.injEq]
    constructor
    · rintro ⟨⟨⟨cell, hcell⟩, hread⟩, ⟨cells, hcells⟩, hreads⟩
      exact ⟨⟨_, cell, hcell, cells, hcells, rfl⟩, hread, hreads⟩
    · rintro ⟨⟨_, cell, hcell, cells, hcells, rfl⟩, hread, hreads⟩
      exact ⟨⟨⟨cell, hcell⟩, hread⟩, ⟨cells, hcells⟩, hreads⟩

/-- **Which well-typed rows survive storage.** -/
theorem row_round_trip_iff {values : Row} {schema : Schema}
    (h : List.Forall₂ (fun v col => WellTyped col.2 v) values schema) (rowid : Nat) :
    RoundTrips values schema rowid ↔
      rowid < 256 ^ 8 ∧ schema.length < 256 ^ 2 ∧ ∀ v ∈ values, v.Storable := by
  have hlen : values.length = schema.length := h.length_eq
  rw [storable_row_iff h]
  constructor
  · rintro ⟨raw, hraw, hdecode⟩
    have hread := (decodeRow_encodeRow hlen hraw []).1.symm.trans (hdecode []).1
    simp only [encodeRow, bind_eq_ok, Except.ok.injEq, packUint_eq_ok] at hraw
    obtain ⟨_, ⟨hrowid, -⟩, _, ⟨hcount, -⟩, cells, hcells, -⟩ := hraw
    exact ⟨hrowid, hcount, ⟨cells, hcells⟩, Except.ok.inj hread⟩
  · rintro ⟨hrowid, hcount, ⟨cells, hcells⟩, hread⟩
    have hraw : encodeRow values schema rowid =
        .ok (leBytes 8 rowid ++ (leBytes 2 schema.length ++ cells)) := by
      rw [encodeRow, packUint_ok hrowid, packUint_ok hcount, hcells]
      rfl
    refine ⟨_, hraw, fun tail => ?_⟩
    obtain ⟨hrow, hid⟩ := decodeRow_encodeRow hlen hraw tail
    exact ⟨by rw [hrow, hread], hid⟩

theorem row_round_trip_mixed :
    RoundTrips [.int 1, .null, .text "a", .float ⟨1⟩]
      [("a", .int), ("b", .bool), ("c", .text), ("d", .float)] 7 :=
  (row_round_trip_iff (by simp [WellTyped, int64Min, int64Max]) 7).mpr
    ⟨by decide, by decide, by decide +kernel⟩

/-- The FLOAT 0.0 has the bytes of NULL. -/
theorem float_zero_lost : ¬ ∀ (values : Row) (schema : Schema) (rowid : Nat),
    List.Forall₂ (fun v col => WellTyped col.2 v) values schema → rowid < 256 ^ 8 →
      schema.length < 256 ^ 2 → RoundTrips values schema rowid := by
  intro h
  obtain ⟨raw, hraw, hdecode⟩ := h [.float ⟨0⟩] [("a", .float)] 0 (by simp [WellTyped])
    (by decide) (by decide)
  have hread := (hdecode []).1
  rw [(decodeRow_encodeRow rfl hraw []).1] at hread
  cases hread

end TinyDB
