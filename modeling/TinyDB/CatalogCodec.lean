import TinyDB.Types

/-!
# Catalog codec

`catalog_codec.py`: `[table_count u16]` and per table
`[name_len u16][name][root_page_id u32][col_count u16]` with its columns
`[name_len u16][name][type_len u16][type]`. `decodeCatalog_encodeCatalog`: what
was encoded comes back, also when other bytes follow; the runtime fields of a
table are not stored and come back as their defaults.
-/

namespace TinyDB

open Lib

structure TableMeta where
  name : String
  rootPageId : Nat
  schema : Schema
  rowCount : Nat := 0
  indexes : List (String × Nat) := []
  deriving DecidableEq, Repr

/-- A string behind its length. -/
def encodeName (s : String) : Except PyErr Bytes := do
  let bytes := encodeUtf8 s
  let length ← packUint 2 bytes.length
  .ok (length ++ bytes)

def encodeColumns : Schema → Except PyErr Bytes
  | [] => .ok []
  | (colName, colType) :: schema => do
    let name ← encodeName colName
    let type ← encodeName colType.value
    let rest ← encodeColumns schema
    .ok (name ++ (type ++ rest))

def encodeEntry (entry : TableMeta) : Except PyErr Bytes := do
  let name ← encodeName entry.name
  let root ← packUint 4 entry.rootPageId
  let count ← packUint 2 entry.schema.length
  let columns ← encodeColumns entry.schema
  .ok (name ++ (root ++ (count ++ columns)))

def encodeEntries : List TableMeta → Except PyErr Bytes
  | [] => .ok []
  | entry :: entries => do
    let part ← encodeEntry entry
    let rest ← encodeEntries entries
    .ok (part ++ rest)

def encodeCatalog (entries : List TableMeta) : Except PyErr Bytes := do
  let count ← packUint 2 entries.length
  let parts ← encodeEntries entries
  .ok (count ++ parts)

/-- `ColumnType(text)`. -/
def ColumnType.ofValue (text : String) : Except PyErr ColumnType :=
  if text = "INT" then .ok .int
  else if text = "FLOAT" then .ok .float
  else if text = "TEXT" then .ok .text
  else if text = "BOOL" then .ok .bool
  else .error .valueError

/-- The string at `offset` and the offset behind it. -/
def decodeName (raw : Bytes) (offset : Nat) : Except PyErr (String × Nat) := do
  let length ← unpackUint 2 (slice raw offset (offset + 2))
  let s ← decodeUtf8 (slice raw (offset + 2) (offset + 2 + length))
  .ok (s, offset + 2 + length)

def decodeColumns (raw : Bytes) : Nat → Nat → Except PyErr (Schema × Nat)
  | 0, offset => .ok ([], offset)
  | n + 1, offset => do
    let (colName, offset) ← decodeName raw offset
    let (text, offset) ← decodeName raw offset
    let colType ← ColumnType.ofValue text
    let (schema, offset) ← decodeColumns raw n offset
    .ok ((colName, colType) :: schema, offset)

def decodeEntry (raw : Bytes) (offset : Nat) : Except PyErr (TableMeta × Nat) := do
  let (name, offset) ← decodeName raw offset
  let rootPageId ← unpackUint 4 (slice raw offset (offset + 4))
  let colCount ← unpackUint 2 (slice raw (offset + 4) (offset + 4 + 2))
  let (schema, offset) ← decodeColumns raw colCount (offset + 4 + 2)
  .ok ({ name, rootPageId, schema }, offset)

def decodeEntries (raw : Bytes) : Nat → Nat → Except PyErr (List TableMeta)
  | 0, _ => .ok []
  | n + 1, offset => do
    let (entry, offset) ← decodeEntry raw offset
    let entries ← decodeEntries raw n offset
    .ok (entry :: entries)

def decodeCatalog (raw : Bytes) : Except PyErr (List TableMeta) := do
  let tableCount ← unpackUint 2 (slice raw 0 2)
  decodeEntries raw tableCount 2

/-! ## The round trip -/

/-- The part of an entry that the codec stores. -/
def TableMeta.stored (entry : TableMeta) : TableMeta :=
  { name := entry.name, rootPageId := entry.rootPageId, schema := entry.schema }

@[simp] theorem ofValue_value (t : ColumnType) : ColumnType.ofValue t.value = .ok t := by
  cases t <;> decide

private theorem slice_mid (a b c : Bytes) : slice (a ++ (b ++ c)) a.length (a.length + b.length) = b :=
  slice_field a b c a.length b.length rfl rfl

theorem decodeName_encodeName {s : String} {bytes : Bytes} (h : encodeName s = .ok bytes)
    (a c : Bytes) :
    decodeName (a ++ (bytes ++ c)) a.length = .ok (s, a.length + bytes.length) := by
  simp only [encodeName, bind_eq_ok, packUint_eq_ok, Except.ok.injEq] at h
  obtain ⟨_, ⟨hlt, rfl⟩, rfl⟩ := h
  have h1 : slice (a ++ (leBytes 2 (encodeUtf8 s).length ++ (encodeUtf8 s ++ c))) a.length
      (a.length + 2) = leBytes 2 (encodeUtf8 s).length := by
    simpa using slice_mid a (leBytes 2 (encodeUtf8 s).length) (encodeUtf8 s ++ c)
  have h2 : slice (a ++ (leBytes 2 (encodeUtf8 s).length ++ (encodeUtf8 s ++ c))) (a.length + 2)
      (a.length + 2 + (encodeUtf8 s).length) = encodeUtf8 s := by
    simpa using slice_mid (a ++ leBytes 2 (encodeUtf8 s).length) (encodeUtf8 s) c
  simp only [decodeName, List.append_assoc, h1, unpackUint_leBytes hlt, ok_bind, h2,
    decodeUtf8_encodeUtf8, List.length_append, leBytes_length, ← Nat.add_assoc]

theorem decodeColumns_encodeColumns {schema : Schema} {bytes : Bytes}
    (h : encodeColumns schema = .ok bytes) (a c : Bytes) :
    decodeColumns (a ++ (bytes ++ c)) schema.length a.length =
      .ok (schema, a.length + bytes.length) := by
  induction schema generalizing bytes a with
  | nil =>
    cases h
    rfl
  | cons col schema ih =>
    obtain ⟨colName, colType⟩ := col
    simp only [encodeColumns, bind_eq_ok, Except.ok.injEq] at h
    obtain ⟨name, hname, type, htype, rest, hrest, rfl⟩ := h
    have h1 := decodeName_encodeName hname a (type ++ (rest ++ c))
    have h2 := decodeName_encodeName htype (a ++ name) (rest ++ c)
    have h3 := ih hrest (a ++ (name ++ type))
    simp only [List.append_assoc, List.length_append, ← Nat.add_assoc] at h1 h2 h3 ⊢
    simp only [List.length_cons, decodeColumns, h1, ok_bind, h2, ofValue_value, h3]

theorem decodeEntry_encodeEntry {entry : TableMeta} {bytes : Bytes}
    (h : encodeEntry entry = .ok bytes) (a c : Bytes) :
    decodeEntry (a ++ (bytes ++ c)) a.length = .ok (entry.stored, a.length + bytes.length) := by
  simp only [encodeEntry, bind_eq_ok, packUint_eq_ok, Except.ok.injEq] at h
  obtain ⟨name, hname, _, ⟨hroot, rfl⟩, _, ⟨hcount, rfl⟩, columns, hcols, rfl⟩ := h
  have h1 := decodeName_encodeName hname a
    (leBytes 4 entry.rootPageId ++ (leBytes 2 entry.schema.length ++ (columns ++ c)))
  have h2 := slice_mid (a ++ name) (leBytes 4 entry.rootPageId)
    (leBytes 2 entry.schema.length ++ (columns ++ c))
  have h3 := slice_mid (a ++ (name ++ leBytes 4 entry.rootPageId))
    (leBytes 2 entry.schema.length) (columns ++ c)
  have h4 := decodeColumns_encodeColumns hcols
    (a ++ (name ++ (leBytes 4 entry.rootPageId ++ leBytes 2 entry.schema.length))) c
  simp only [List.append_assoc, List.length_append, leBytes_length, ← Nat.add_assoc] at h1 h2 h3 h4 ⊢
  simp only [decodeEntry, h1, ok_bind, h2, unpackUint_leBytes hroot, h3, unpackUint_leBytes hcount,
    h4, TableMeta.stored]

theorem decodeEntries_encodeEntries {entries : List TableMeta} {bytes : Bytes}
    (h : encodeEntries entries = .ok bytes) (a c : Bytes) :
    decodeEntries (a ++ (bytes ++ c)) entries.length a.length =
      .ok (entries.map TableMeta.stored) := by
  induction entries generalizing bytes a with
  | nil => rfl
  | cons entry entries ih =>
    simp only [encodeEntries, bind_eq_ok, Except.ok.injEq] at h
    obtain ⟨part, hpart, rest, hrest, rfl⟩ := h
    have h1 := decodeEntry_encodeEntry hpart a (rest ++ c)
    have h2 := ih hrest (a ++ part)
    simp only [List.append_assoc, List.length_append] at h1 h2 ⊢
    simp only [List.length_cons, decodeEntries, h1, ok_bind, h2, List.map_cons]

/-- **Catalog round trip.** -/
theorem decodeCatalog_encodeCatalog {entries : List TableMeta} {bytes : Bytes}
    (h : encodeCatalog entries = .ok bytes) (tail : Bytes) :
    decodeCatalog (bytes ++ tail) = .ok (entries.map TableMeta.stored) := by
  simp only [encodeCatalog, bind_eq_ok, packUint_eq_ok, Except.ok.injEq] at h
  obtain ⟨_, ⟨hlt, rfl⟩, parts, hparts, rfl⟩ := h
  have h1 : slice (leBytes 2 entries.length ++ (parts ++ tail)) 0 2 = leBytes 2 entries.length := by
    simpa using slice_append_left (leBytes 2 entries.length) (parts ++ tail)
  have h2 := decodeEntries_encodeEntries hparts (leBytes 2 entries.length) tail
  rw [leBytes_length] at h2
  simp only [decodeCatalog, List.append_assoc, h1, unpackUint_leBytes hlt, ok_bind, h2]

/-! ## What can be encoded -/

/-- The counts and the lengths of the names fit two bytes, the root page fits four. -/
structure TableMeta.Encodable (entry : TableMeta) : Prop where
  name : (encodeUtf8 entry.name).length < 256 ^ 2
  root : entry.rootPageId < 256 ^ 4
  count : entry.schema.length < 256 ^ 2
  columns : ∀ col ∈ entry.schema, (encodeUtf8 col.1).length < 256 ^ 2

theorem encodeName_ok {s : String} (h : (encodeUtf8 s).length < 256 ^ 2) :
    ∃ bytes, encodeName s = .ok bytes :=
  ⟨leBytes 2 (encodeUtf8 s).length ++ encodeUtf8 s, by simp only [encodeName, packUint_ok h, ok_bind]⟩

theorem length_value (t : ColumnType) : (encodeUtf8 t.value).length < 256 ^ 2 := by
  cases t <;> decide

theorem encodeColumns_ok {schema : Schema}
    (h : ∀ col ∈ schema, (encodeUtf8 col.1).length < 256 ^ 2) :
    ∃ bytes, encodeColumns schema = .ok bytes := by
  induction schema with
  | nil => exact ⟨[], rfl⟩
  | cons col schema ih =>
    obtain ⟨colName, colType⟩ := col
    obtain ⟨name, hname⟩ := encodeName_ok (h _ (List.mem_cons_self ..))
    obtain ⟨type, htype⟩ := encodeName_ok (length_value colType)
    obtain ⟨rest, hrest⟩ := ih fun col hcol => h col (List.mem_cons_of_mem _ hcol)
    exact ⟨_, by simp only [encodeColumns, hname, htype, hrest, ok_bind]; rfl⟩

theorem TableMeta.Encodable.encodeEntry {entry : TableMeta} (h : entry.Encodable) :
    ∃ bytes, encodeEntry entry = .ok bytes := by
  obtain ⟨name, hname⟩ := encodeName_ok h.name
  obtain ⟨columns, hcolumns⟩ := encodeColumns_ok h.columns
  exact ⟨_, by
    simp only [TinyDB.encodeEntry, hname, packUint_ok h.root, packUint_ok h.count, hcolumns, ok_bind]
    rfl⟩

theorem encodeEntries_ok {entries : List TableMeta} (h : ∀ entry ∈ entries, entry.Encodable) :
    ∃ bytes, encodeEntries entries = .ok bytes := by
  induction entries with
  | nil => exact ⟨[], rfl⟩
  | cons entry entries ih =>
    obtain ⟨part, hpart⟩ := (h entry (List.mem_cons_self ..)).encodeEntry
    obtain ⟨rest, hrest⟩ := ih fun entry hin => h entry (List.mem_cons_of_mem _ hin)
    exact ⟨part ++ rest, by simp only [encodeEntries, hpart, hrest, ok_bind]⟩

/-- **The catalog codec.** What fits is encoded, comes back from in front of any other bytes,
and no other list has the same encoding. -/
theorem catalog_roundTrip (entries : List TableMeta) (hcount : entries.length < 256 ^ 2)
    (hentries : ∀ entry ∈ entries, entry.Encodable) :
    ∃ bytes, encodeCatalog entries = .ok bytes ∧
      (∀ tail, decodeCatalog (bytes ++ tail) = .ok (entries.map TableMeta.stored)) ∧
      ∀ others, encodeCatalog others = .ok bytes →
        others.map TableMeta.stored = entries.map TableMeta.stored := by
  obtain ⟨parts, hparts⟩ := encodeEntries_ok hentries
  have hencode : encodeCatalog entries = .ok (leBytes 2 entries.length ++ parts) := by
    simp only [encodeCatalog, packUint_ok hcount, hparts, ok_bind]
  refine ⟨_, hencode, decodeCatalog_encodeCatalog hencode, fun others hothers => ?_⟩
  have hback := decodeCatalog_encodeCatalog hothers []
  rw [decodeCatalog_encodeCatalog hencode [], Except.ok.injEq] at hback
  exact hback.symm

/-- Two tables, one of them without columns. -/
theorem catalog_roundTrip_two :
    ∃ bytes, encodeCatalog [⟨"é", 7, [("名", .text), ("a", .bool)], 0, []⟩, ⟨"", 0, [], 0, []⟩] =
        .ok bytes ∧
      (∀ tail, decodeCatalog (bytes ++ tail) = .ok (List.map TableMeta.stored
        [⟨"é", 7, [("名", .text), ("a", .bool)], 0, []⟩, ⟨"", 0, [], 0, []⟩])) ∧
      ∀ others, encodeCatalog others = .ok bytes → others.map TableMeta.stored = List.map
        TableMeta.stored [⟨"é", 7, [("名", .text), ("a", .bool)], 0, []⟩, ⟨"", 0, [], 0, []⟩] := by
  refine catalog_roundTrip _ (by decide) fun entry hin => ?_
  rcases List.mem_cons.mp hin with rfl | hin
  · exact ⟨by decide, by decide, by decide, by decide⟩
  · rw [List.mem_singleton.mp hin]
    exact ⟨by decide, by decide, by decide, nofun⟩

end TinyDB
