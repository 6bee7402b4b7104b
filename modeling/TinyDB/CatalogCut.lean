import TinyDB.CatalogStore

/-!
# A catalog that was cut off

A catalog that does not fit the header page is cut at the end of the page.
`decodeCatalog_cut`: no proper prefix of an encoded catalog decodes, so a cut
catalog cannot be loaded again.
-/

namespace TinyDB

open Lib FileStore

theorem ofValue_eq_ok {s : String} {t : ColumnType} (h : ColumnType.ofValue s = .ok t) :
    s = t.value := by
  unfold ColumnType.ofValue at h
  split at h
  · cases h; assumption
  · split at h
    · cases h; assumption
    · split at h
      · cases h; assumption
      · split at h
        · cases h; assumption
        · cases h

/-- No type name is a proper prefix of another. -/
private theorem value_ne_cut (t u : ColumnType) {j : Nat}
    (hj : j < (encodeUtf8 t.value).length) : encodeUtf8 u.value ≠ (encodeUtf8 t.value).take j := by
  have hall : ∀ t u : ColumnType, ∀ j < (encodeUtf8 t.value).length,
      encodeUtf8 u.value ≠ (encodeUtf8 t.value).take j := by
    intro t u
    cases t <;> cases u <;> decide +kernel
  exact hall t u j hj

/-- Nothing is left to read behind the end. -/
private theorem decodeName_end (raw : Bytes) (offset : Nat) (h : raw.length ≤ offset) :
    decodeName raw offset = .error .structError := by
  have hs : slice raw offset (offset + 2) = [] := by
    rw [slice, List.drop_of_length_le h, List.take_nil]
  simp only [decodeName, hs, unpackUint_short (show ([] : Bytes).length ≠ 2 by decide), error_bind]

/-- A field of which only a part is there. -/
private theorem slice_cut (a b : Bytes) (n : Nat) (hn : b.length < n) :
    (slice (a ++ b) a.length (a.length + n)).length ≠ n := by
  simp only [slice, List.drop_left, Nat.add_sub_cancel_left, List.length_take]
  omega

/-- A cut name raises or is shorter than it was. -/
private theorem decodeName_cut {s : String} {bytes : Bytes} (h : encodeName s = .ok bytes)
    (a : Bytes) {k : Nat} (hk : k < bytes.length) :
    (∃ e, decodeName (a ++ bytes.take k) a.length = .error e) ∨
      ∃ s', decodeName (a ++ bytes.take k) a.length = .ok (s', a.length + bytes.length) ∧
        encodeUtf8 s' = (encodeUtf8 s).take (k - 2) ∧ k - 2 < (encodeUtf8 s).length := by
  simp only [encodeName, bind_eq_ok, packUint_eq_ok, Except.ok.injEq] at h
  obtain ⟨_, ⟨hlt, rfl⟩, rfl⟩ := h
  rw [List.length_append, leBytes_length] at hk
  rcases Nat.lt_or_ge k 2 with h2 | h2
  · refine Or.inl ⟨.structError, ?_⟩
    have hcut := slice_cut a ((leBytes 2 (encodeUtf8 s).length ++ encodeUtf8 s).take k) 2 (by
      rw [List.length_take]; omega)
    simp only [decodeName, unpackUint_short hcut, error_bind]
  · have htake : (leBytes 2 (encodeUtf8 s).length ++ encodeUtf8 s).take k =
        leBytes 2 (encodeUtf8 s).length ++ (encodeUtf8 s).take (k - 2) := by
      rw [List.take_append, leBytes_length, List.take_of_length_le (by rw [leBytes_length]; omega)]
    have h1 : slice (a ++ (leBytes 2 (encodeUtf8 s).length ++ (encodeUtf8 s).take (k - 2))) a.length
        (a.length + 2) = leBytes 2 (encodeUtf8 s).length :=
      slice_field a (leBytes 2 (encodeUtf8 s).length) _ a.length 2 rfl (leBytes_length ..).symm
    have h2' : slice (a ++ (leBytes 2 (encodeUtf8 s).length ++ (encodeUtf8 s).take (k - 2)))
        (a.length + 2) (a.length + 2 + (encodeUtf8 s).length) = (encodeUtf8 s).take (k - 2) := by
      rw [slice, ← List.append_assoc, Nat.add_sub_cancel_left,
        show a.length + 2 = (a ++ leBytes 2 (encodeUtf8 s).length).length by
          rw [List.length_append, leBytes_length], List.drop_left, List.take_take,
        Nat.min_eq_right (by omega)]
    rw [htake]
    cases hd : decodeUtf8 ((encodeUtf8 s).take (k - 2)) with
    | error e => exact Or.inl ⟨e, by simp only [decodeName, h1, unpackUint_leBytes hlt, ok_bind, h2',
        hd, error_bind]⟩
    | ok s' =>
      refine Or.inr ⟨s', ?_, decodeUtf8_eq_ok hd, by omega⟩
      simp only [decodeName, h1, unpackUint_leBytes hlt, ok_bind, h2', hd, List.length_append,
        leBytes_length, ← Nat.add_assoc]

private theorem take_two (a b : Bytes) (k : Nat) (hk : a.length ≤ k) :
    (a ++ b).take k = a ++ b.take (k - a.length) := by
  rw [List.take_append, List.take_of_length_le hk]

private theorem take_one (a b : Bytes) (k : Nat) (hk : k ≤ a.length) :
    (a ++ b).take k = a.take k := List.take_append_of_le_length hk

theorem decodeColumns_cut {schema : Schema} {bytes : Bytes} (h : encodeColumns schema = .ok bytes)
    (a : Bytes) {k : Nat} (hk : k < bytes.length) :
    ∃ e, decodeColumns (a ++ bytes.take k) schema.length a.length = .error e := by
  induction schema generalizing bytes a k with
  | nil =>
    cases h
    simp at hk
  | cons col schema ih =>
    obtain ⟨colName, colType⟩ := col
    simp only [encodeColumns, bind_eq_ok, Except.ok.injEq] at h
    obtain ⟨name, hname, type, htype, rest, hrest, rfl⟩ := h
    rw [List.length_append, List.length_append] at hk
    rcases Nat.lt_or_ge k name.length with h1 | h1
    · -- the cut is in the name of the column
      rw [take_one name _ k (Nat.le_of_lt h1)]
      rcases decodeName_cut hname a h1 with ⟨e, he⟩ | ⟨s', hs', -, -⟩
      · exact ⟨e, by simp only [List.length_cons, decodeColumns, he, error_bind]⟩
      · have hend := decodeName_end (a ++ name.take k) (a.length + name.length) (by
          rw [List.length_append, List.length_take]; omega)
        exact ⟨.structError, by simp only [List.length_cons, decodeColumns, hs', ok_bind, hend, error_bind]⟩
    · rw [take_two name _ k h1]
      have hn := decodeName_encodeName hname a ((type ++ rest).take (k - name.length))
      rcases Nat.lt_or_ge (k - name.length) type.length with h2 | h2
      · -- the cut is in the type
        rw [take_one type rest _ (Nat.le_of_lt h2)] at hn ⊢
        have hcut := decodeName_cut htype (a ++ name) h2
        rw [List.append_assoc, List.length_append] at hcut
        rcases hcut with ⟨e, he⟩ | ⟨s', hs', henc, hj⟩
        · exact ⟨e, by simp only [List.length_cons, decodeColumns, hn, ok_bind, he, error_bind]⟩
        · cases hv : ColumnType.ofValue s' with
          | error e =>
            exact ⟨e, by simp only [List.length_cons, decodeColumns, hn, ok_bind, hs', hv,
              error_bind]⟩
          | ok u =>
            rw [ofValue_eq_ok hv] at henc
            exact absurd henc (value_ne_cut colType u hj)
      · -- the cut is in a later column
        rw [take_two type rest _ h2] at hn ⊢
        have ht := decodeName_encodeName htype (a ++ name)
          (rest.take (k - name.length - type.length))
        obtain ⟨e, he⟩ := ih hrest (a ++ (name ++ type))
          (show k - name.length - type.length < rest.length by omega)
        simp only [List.append_assoc, List.length_append, ← Nat.add_assoc] at hn ht he
        exact ⟨e, by simp only [List.length_cons, decodeColumns, hn, ok_bind, ht, ofValue_value, he,
          error_bind]⟩

theorem decodeEntry_cut {entry : TableMeta} {bytes : Bytes} (h : encodeEntry entry = .ok bytes)
    (a : Bytes) {k : Nat} (hk : k < bytes.length) :
    ∃ e, decodeEntry (a ++ bytes.take k) a.length = .error e := by
  simp only [encodeEntry, bind_eq_ok, packUint_eq_ok, Except.ok.injEq] at h
  obtain ⟨name, hname, _, ⟨hroot, rfl⟩, _, ⟨hcount, rfl⟩, columns, hcols, rfl⟩ := h
  simp only [List.length_append, leBytes_length] at hk
  rcases Nat.lt_or_ge k name.length with h1 | h1
  · rw [take_one name _ k (Nat.le_of_lt h1)]
    rcases decodeName_cut hname a h1 with ⟨e, he⟩ | ⟨s', hs', -, -⟩
    · exact ⟨e, by simp only [decodeEntry, he, error_bind]⟩
    · have hend : (slice (a ++ name.take k) (a.length + name.length)
          (a.length + name.length + 4)).length ≠ 4 := by
        rw [slice, List.drop_of_length_le (by rw [List.length_append, List.length_take]; omega),
          List.take_nil]
        decide
      exact ⟨.structError, by simp only [decodeEntry, hs', ok_bind, unpackUint_short hend, error_bind]⟩
  · rw [take_two name _ k h1]
    have hn := decodeName_encodeName hname a ((leBytes 4 entry.rootPageId ++
      (leBytes 2 entry.schema.length ++ columns)).take (k - name.length))
    rcases Nat.lt_or_ge (k - name.length) 4 with h2 | h2
    · rw [take_one (leBytes 4 entry.rootPageId) _ _ (by rw [leBytes_length]; omega)] at hn ⊢
      have hcut := slice_cut (a ++ name) ((leBytes 4 entry.rootPageId).take (k - name.length)) 4 (by
        rw [List.length_take]; omega)
      rw [List.append_assoc, List.length_append] at hcut
      exact ⟨.structError, by simp only [decodeEntry, hn, ok_bind, unpackUint_short hcut, error_bind]⟩
    · rw [take_two (leBytes 4 entry.rootPageId) _ _ (by rw [leBytes_length]; omega),
        leBytes_length] at hn ⊢
      have hr := slice_field (a ++ name) (leBytes 4 entry.rootPageId)
        ((leBytes 2 entry.schema.length ++ columns).take (k - name.length - 4)) _ 4 rfl
        (leBytes_length ..).symm
      rw [List.append_assoc, List.length_append] at hr
      rcases Nat.lt_or_ge (k - name.length - 4) 2 with h3 | h3
      · rw [take_one (leBytes 2 entry.schema.length) _ _ (by rw [leBytes_length]; omega)] at hn hr ⊢
        have hcut := slice_cut (a ++ (name ++ leBytes 4 entry.rootPageId))
          ((leBytes 2 entry.schema.length).take (k - name.length - 4)) 2 (by
          rw [List.length_take]; omega)
        simp only [List.append_assoc, List.length_append, leBytes_length, ← Nat.add_assoc] at hcut
        exact ⟨.structError, by simp only [decodeEntry, hn, ok_bind, hr, unpackUint_leBytes hroot,
          unpackUint_short hcut, error_bind]⟩
      · rw [take_two (leBytes 2 entry.schema.length) _ _ (by rw [leBytes_length]; omega),
          leBytes_length] at hn hr ⊢
        have hc := slice_field (a ++ (name ++ leBytes 4 entry.rootPageId))
          (leBytes 2 entry.schema.length) (columns.take (k - name.length - 4 - 2)) _ 2 rfl
          (leBytes_length ..).symm
        obtain ⟨e, he⟩ := decodeColumns_cut hcols
          (a ++ (name ++ (leBytes 4 entry.rootPageId ++ leBytes 2 entry.schema.length)))
          (show k - name.length - 4 - 2 < columns.length by omega)
        simp only [List.append_assoc, List.length_append, leBytes_length, ← Nat.add_assoc] at hc he
        exact ⟨e, by simp only [decodeEntry, hn, ok_bind, hr, unpackUint_leBytes hroot, hc,
          unpackUint_leBytes hcount, he, error_bind]⟩

theorem decodeEntries_cut {entries : List TableMeta} {bytes : Bytes}
    (h : encodeEntries entries = .ok bytes) (a : Bytes) {k : Nat} (hk : k < bytes.length) :
    ∃ e, decodeEntries (a ++ bytes.take k) entries.length a.length = .error e := by
  induction entries generalizing bytes a k with
  | nil =>
    cases h
    simp at hk
  | cons entry entries ih =>
    simp only [encodeEntries, bind_eq_ok, Except.ok.injEq] at h
    obtain ⟨part, hpart, rest, hrest, rfl⟩ := h
    rw [List.length_append] at hk
    rcases Nat.lt_or_ge k part.length with h1 | h1
    · rw [take_one part rest k (Nat.le_of_lt h1)]
      obtain ⟨e, he⟩ := decodeEntry_cut hpart a h1
      exact ⟨e, by simp only [List.length_cons, decodeEntries, he, error_bind]⟩
    · rw [take_two part rest k h1]
      have hp := decodeEntry_encodeEntry hpart a (rest.take (k - part.length))
      obtain ⟨e, he⟩ := ih hrest (a ++ part) (show k - part.length < rest.length by omega)
      rw [List.append_assoc, List.length_append] at he
      exact ⟨e, by simp only [List.length_cons, decodeEntries, hp, ok_bind, he, error_bind]⟩

/-- **A cut catalog does not decode.** -/
theorem decodeCatalog_cut {entries : List TableMeta} {bytes : Bytes}
    (h : encodeCatalog entries = .ok bytes) {k : Nat} (hk : k < bytes.length) :
    ∃ e, decodeCatalog (bytes.take k) = .error e := by
  simp only [encodeCatalog, bind_eq_ok, packUint_eq_ok, Except.ok.injEq] at h
  obtain ⟨_, ⟨hlt, rfl⟩, parts, hparts, rfl⟩ := h
  rw [List.length_append, leBytes_length] at hk
  rcases Nat.lt_or_ge k 2 with h1 | h1
  · have hcut := slice_cut [] ((leBytes 2 entries.length ++ parts).take k) 2 (by
      rw [List.length_take]; omega)
    simp only [List.nil_append, List.length_nil, Nat.zero_add] at hcut
    exact ⟨.structError, by simp only [decodeCatalog, unpackUint_short hcut, error_bind]⟩
  · rw [take_two (leBytes 2 entries.length) parts k (by rw [leBytes_length]; omega), leBytes_length]
    have hc := slice_prefix (leBytes 2 entries.length) (parts.take (k - 2)) 2 (leBytes_length ..).symm
    obtain ⟨e, he⟩ := decodeEntries_cut hparts (leBytes 2 entries.length)
      (show k - 2 < parts.length by omega)
    rw [leBytes_length] at he
    exact ⟨e, by simp only [decodeCatalog, hc, unpackUint_leBytes hlt, ok_bind, he]⟩

/-- A header page with a cut catalog cannot be loaded. -/
theorem loadBody_cut {store : FileStore} (hs : store.Sound) {entries : List TableMeta} {raw : Bytes}
    (he : encodeCatalog entries = .ok raw) (hcut : store.bodySize < catalogOffset + 4 + raw.length)
    (hlt : raw.length < 256 ^ 4) (head : Nat) (tail : Bytes) :
    ∃ e, Catalog.loadBody (flushedBody store head raw tail) = .error e := by
  simp only [catalogOffset] at hcut
  have hbig := hs.bodySize_lt.1
  obtain ⟨k, hk⟩ : ∃ k, store.bodySize = 20 + (k + 1) := ⟨store.bodySize - 21, by omega⟩
  have hmeta := metaBytes_length store.pageSize head
  have htake : (leBytes 4 raw.length ++ (raw ++ tail)).take (store.bodySize - 16) =
      leBytes 4 raw.length ++ raw.take (k + 1) := by
    rw [take_two _ _ _ (by rw [leBytes_length]; omega), leBytes_length,
      take_one raw tail _ (by omega), show store.bodySize - 16 - 4 = k + 1 by omega]
  have h1 : slice (metaBytes store.pageSize head ++ (leBytes 4 raw.length ++ raw.take (k + 1))) 16 20
      = leBytes 4 raw.length :=
    slice_field _ (leBytes 4 raw.length) _ 16 4 hmeta.symm (leBytes_length ..).symm
  have h2 : slice (metaBytes store.pageSize head ++ (leBytes 4 raw.length ++ raw.take (k + 1))) 20
      (20 + raw.length) = raw.take (k + 1) := by
    rw [slice, ← List.append_assoc, Nat.add_sub_cancel_left,
      show 20 = (metaBytes store.pageSize head ++ leBytes 4 raw.length).length by
        rw [List.length_append, hmeta, leBytes_length], List.drop_left, List.take_take,
      Nat.min_eq_right (by omega)]
  have hlen : ¬ (metaBytes store.pageSize head ++
      (leBytes 4 raw.length ++ raw.take (k + 1))).length < 16 := by
    rw [List.length_append, hmeta]
    omega
  have hz : raw.length ≠ 0 := by omega
  have hne : raw.take (k + 1) ≠ [] := by
    intro e
    have := congrArg List.length e
    simp only [List.length_take, List.length_nil] at this
    omega
  obtain ⟨e, hdec⟩ := decodeCatalog_cut he (show k + 1 < raw.length by omega)
  refine ⟨e, ?_⟩
  rw [flushedBody, htake]
  simp only [Catalog.loadBody, catalogOffset, Nat.reduceAdd, hlen, ↓reduceIte, h1,
    leNat_leBytes _ _ hlt, hz, h2, hne, hdec]
  rfl

end TinyDB
