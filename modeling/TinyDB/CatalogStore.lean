import TinyDB.Catalog
import TinyDB.FreeList

/-!
# The header page

`Header store head body`: page 0 is the header page, and its body starts with
the file metadata that names `head` as the first free page. The three writers
of the page keep the parts that are not theirs: `flush_spec` for the catalog,
`flushFreeHead_spec` for the metadata.
-/

namespace TinyDB

open Lib FileStore

/-- The file metadata, the first 16 bytes of the header body. -/
def metaBytes (pageSize head : Nat) : Bytes :=
  fileHeaderMagic ++ (leBytes 4 pageSize ++ leBytes 4 head)

theorem metaBytes_length (pageSize head : Nat) : (metaBytes pageSize head).length = 16 := by
  have hm : fileHeaderMagic.length = 8 := by decide
  simp only [metaBytes, List.length_append, leBytes_length, hm]

structure Header (store : FileStore) (head : Nat) (body : Bytes) : Prop where
  read : ∃ lsn, store.readPage 0 = .ok ⟨0, .header, lsn, body⟩
  fields : ∃ rest, body = metaBytes store.pageSize head ++ rest
  head_lt : head < 256 ^ 4

theorem Header.length {store : FileStore} {head : Nat} {body : Bytes} (h : Header store head body) :
    16 ≤ body.length := by
  obtain ⟨rest, hb⟩ := h.fields
  rw [hb, List.length_append, metaBytes_length]
  omega

theorem Header.congr {store store' : FileStore} {head : Nat} {body : Bytes}
    (h : Header store head body) (hs : store'.pageSize = store.pageSize)
    (hr : store'.rawRead 0 = store.rawRead 0) : Header store' head body := by
  obtain ⟨⟨lsn, hread⟩, hf, hlt⟩ := h
  exact ⟨⟨lsn, by rw [readPage_congr hr, hread]⟩, by rw [hs]; exact hf, hlt⟩

/-- Bytes `i` to `j` of a body, behind the metadata and its rewrites alike. -/
private theorem slice_behind (a a' rest : Bytes) (i j : Nat) (ha : a.length = 16)
    (ha' : a'.length = 16) (hi : 16 ≤ i) : slice (a ++ rest) i j = slice (a' ++ rest) i j := by
  rw [slice_skip a rest i j (by omega), slice_skip a' rest i j (by omega), ha, ha']

/-- What is loaded does not depend on the metadata. -/
theorem loadBody_meta (a a' rest : Bytes) (ha : a.length = 16) (ha' : a'.length = 16) :
    Catalog.loadBody (a ++ rest) = Catalog.loadBody (a' ++ rest) := by
  have hl : (a ++ rest).length = (a' ++ rest).length := by
    rw [List.length_append, List.length_append, ha, ha']
  have h1 := slice_behind a a' rest 16 20 ha ha' (Nat.le_refl _)
  have h2 : ∀ n, slice (a ++ rest) 20 n = slice (a' ++ rest) 20 n := fun n =>
    slice_behind a a' rest 20 n ha ha' (by decide)
  simp only [Catalog.loadBody, catalogOffset, Nat.reduceAdd, hl, h1, h2]
  rfl

/-- A body that was extended by zeros and then took the catalog. -/
theorem flushBody_spec (rest : Bytes) {fields raw : Bytes} (hf : fields.length = 16)
    (hlt : raw.length < 256 ^ 4) :
    ∃ tail, Catalog.flushBody (fields ++ rest) raw =
        .ok (fields ++ (leBytes 4 raw.length ++ (raw ++ tail))) ∧
      (fields ++ (leBytes 4 raw.length ++ (raw ++ tail))).length =
        max (fields ++ rest).length (20 + raw.length) := by
  have hneed : (fields ++ rest ++ zeros (catalogOffset + 4 + raw.length -
      (fields ++ rest).length)).length = max (fields ++ rest).length (20 + raw.length) := by
    rw [List.length_append, zeros_length]
    simp only [catalogOffset]
    omega
  obtain ⟨pad, hpad⟩ : ∃ pad, pad = rest ++ zeros (catalogOffset + 4 + raw.length -
      (fields ++ rest).length) := ⟨_, rfl⟩
  rw [List.append_assoc, ← hpad] at hneed
  have hplen : 4 + raw.length ≤ pad.length := by
    rw [List.length_append, List.length_append, hf] at hneed
    omega
  obtain ⟨p1, p2, p3, hp, h1, h2⟩ : ∃ p1 p2 p3, pad = p1 ++ (p2 ++ p3) ∧ p1.length = 4 ∧
      p2.length = raw.length :=
    ⟨pad.take 4, (pad.drop 4).take raw.length, (pad.drop 4).drop raw.length, by simp,
      by rw [List.length_take]; omega, by rw [List.length_take, List.length_drop]; omega⟩
  refine ⟨p3, ?_, ?_⟩
  · have hs1 : setSlice (fields ++ (p1 ++ (p2 ++ p3))) catalogOffset (catalogOffset + 4)
        (leBytes 4 raw.length) = fields ++ (leBytes 4 raw.length ++ (p2 ++ p3)) := by
      have := setSlice_field fields p1 (p2 ++ p3) (leBytes 4 raw.length) 16 20 hf.symm (by omega)
      simpa [catalogOffset] using this
    have hs2 : setSlice (fields ++ (leBytes 4 raw.length ++ (p2 ++ p3))) (catalogOffset + 4)
        (catalogOffset + 4 + raw.length) raw = fields ++ (leBytes 4 raw.length ++ (raw ++ p3)) := by
      have := setSlice_field (fields ++ leBytes 4 raw.length) p2 p3 raw 20 (20 + raw.length)
        (by rw [List.length_append, hf, leBytes_length]) (by rw [List.length_append, hf,
          leBytes_length, h2])
      simpa [catalogOffset] using this
    have hext : fields ++ rest ++ zeros (catalogOffset + 4 + raw.length -
        (fields ++ rest).length) = fields ++ (p1 ++ (p2 ++ p3)) := by
      rw [List.append_assoc, ← hpad, hp]
    simp only [Catalog.flushBody, hlt, ↓reduceIte, hext, hs1, hs2]
  · rw [← hneed, hp]
    simp only [List.length_append, leBytes_length, h1, h2]

/-- A catalog that lies whole on the page is what is loaded. -/
theorem loadBody_flushed {fields raw tail : Bytes} {entries : List TableMeta}
    (hf : fields.length = 16) (hlt : raw.length < 256 ^ 4) (he : encodeCatalog entries = .ok raw) :
    Catalog.loadBody (fields ++ (leBytes 4 raw.length ++ (raw ++ tail))) =
      .ok (some (entries.map TableMeta.stored)) := by
  have hpos : 2 ≤ raw.length := by
    simp only [encodeCatalog, bind_eq_ok, packUint_eq_ok, Except.ok.injEq] at he
    obtain ⟨_, ⟨-, rfl⟩, parts, -, rfl⟩ := he
    rw [List.length_append, leBytes_length]
    omega
  have h1 : slice (fields ++ (leBytes 4 raw.length ++ (raw ++ tail))) 16 20 =
      leBytes 4 raw.length :=
    slice_field fields (leBytes 4 raw.length) (raw ++ tail) 16 4 hf.symm (leBytes_length ..).symm
  have h2 : slice (fields ++ (leBytes 4 raw.length ++ (raw ++ tail))) 20 (20 + raw.length) = raw := by
    have := slice_field (fields ++ leBytes 4 raw.length) raw tail 20 raw.length
      (by rw [List.length_append, hf, leBytes_length]) rfl
    rwa [List.append_assoc] at this
  have hlen : ¬ (fields ++ (leBytes 4 raw.length ++ (raw ++ tail))).length < 16 := by
    rw [List.length_append, hf]
    omega
  have hne : raw ≠ [] := fun e => by rw [e] at hpos; simp at hpos
  have hz : raw.length ≠ 0 := by omega
  have hdec := decodeCatalog_encodeCatalog he []
  rw [List.append_nil] at hdec
  simp only [Catalog.loadBody, catalogOffset, Nat.reduceAdd, hlen, ↓reduceIte, h1,
    leNat_leBytes _ _ hlt, hz, h2, hne, hdec]
  rfl

variable {store : FileStore} {head : Nat} {body : Bytes}

/-- Rewriting the header page with a body that keeps the metadata. -/
theorem Header.write (h : Header store head body) (hs : store.Sound) (hpos : 0 < store.file.length)
    (rest : Bytes) (hlen : (metaBytes store.pageSize head ++ rest).length < 256 ^ 2) {page : Page}
    (hr : store.readPage 0 = .ok page) :
    ∃ store', store.writePage { page with body := metaBytes store.pageSize head ++ rest } =
        .ok store' ∧
      Header store' head (metaBytes store.pageSize head ++ rest.take (store.bodySize - 16)) ∧
      store'.Sound ∧ SameExcept 0 store store' := by
  obtain ⟨⟨lsn, hread⟩, -, hlt⟩ := h
  rw [hr, Except.ok.injEq] at hread
  subst hread
  obtain ⟨store', hw⟩ := writePage_ok store
    ⟨0, .header, lsn, metaBytes store.pageSize head ++ rest⟩ (hs.id_lt hpos)
    (readPage_bounds hr).2 hlen
  have hsame := sameExcept_writePage hw hpos
  have hbig := hs.bodySize_lt.1
  refine ⟨store', hw, ⟨⟨lsn, ?_⟩, ⟨rest.take (store.bodySize - 16), by rw [hsame.pageSize]⟩, hlt⟩,
    hs.write hpos hw, hsame⟩
  rw [readPage_writePage hw (Nat.zero_le _), if_pos rfl]
  simp only [List.take_append, metaBytes_length,
    List.take_of_length_le (show (metaBytes store.pageSize head).length ≤ store.bodySize by
      rw [metaBytes_length]; omega)]

/-- The size of the header body that a catalog needs. -/
def Catalog.size (catalog : Catalog) : Except PyErr Nat := do
  let raw ← encodeCatalog catalog.entries.values
  .ok (catalogOffset + 4 + raw.length)

theorem Catalog.size_eq_map (catalog : Catalog) : catalog.size =
    (encodeCatalog catalog.entries.values).map fun raw => catalogOffset + 4 + raw.length := by
  unfold Catalog.size
  cases encodeCatalog catalog.entries.values <;> rfl

/-- Entries that differ in the number of their pages only. -/
def SameColumns (entry entry' : TableMeta) : Prop :=
  entry.name = entry'.name ∧ entry.schema = entry'.schema ∧ entry.rootPageId < 256 ^ 4 ∧
    entry'.rootPageId < 256 ^ 4

private theorem encodeEntry_length {entry entry' : TableMeta} (h : SameColumns entry entry') :
    (encodeEntry entry).map List.length = (encodeEntry entry').map List.length := by
  obtain ⟨hn, hs, hr, hr'⟩ := h
  simp only [encodeEntry, ← hn, ← hs, packUint_ok hr, packUint_ok hr', ok_bind]
  cases encodeName entry.name <;> cases packUint 2 entry.schema.length <;>
    cases encodeColumns entry.schema <;> simp [Except.map]

/-- The number of a root page does not change the size of the catalog. -/
theorem encodeEntries_length {entries entries' : List TableMeta}
    (h : List.Forall₂ SameColumns entries entries') :
    (encodeEntries entries).map List.length = (encodeEntries entries').map List.length := by
  induction h with
  | nil => rfl
  | cons hd _ ih =>
    have hone := encodeEntry_length hd
    rename_i e e' l l' _
    simp only [encodeEntries]
    cases he : encodeEntry e <;> cases he' : encodeEntry e' <;>
      cases hl : encodeEntries l <;> cases hl' : encodeEntries l' <;>
      simp_all [Except.map]

theorem size_congr {catalog catalog' : Catalog}
    (h : List.Forall₂ SameColumns catalog.entries.values catalog'.entries.values) :
    catalog.size = catalog'.size := by
  have hlen := encodeEntries_length h
  rw [Catalog.size_eq_map, Catalog.size_eq_map, encodeCatalog, encodeCatalog, h.length_eq]
  cases packUint 2 catalog'.entries.values.length with
  | error e => rfl
  | ok count =>
    simp only [ok_bind]
    cases he : encodeEntries catalog.entries.values <;>
      cases he' : encodeEntries catalog'.entries.values <;> simp_all [Except.map]

/-- The header body after a catalog was written; what does not fit the page is cut off. -/
def flushedBody (store : FileStore) (head : Nat) (raw tail : Bytes) : Bytes :=
  metaBytes store.pageSize head ++
    (leBytes 4 raw.length ++ (raw ++ tail)).take (store.bodySize - 16)

/-- **The catalog is written behind the metadata.** -/
theorem flush_spec (catalog : Catalog) (h : Header store head body) (hs : store.Sound)
    (hpos : 0 < store.file.length) {raw : Bytes}
    (he : encodeCatalog catalog.entries.values = .ok raw)
    (hsmall : catalogOffset + 4 + raw.length < 256 ^ 2) :
    ∃ store' tail, catalog.flush store = .ok store' ∧
      Header store' head (flushedBody store head raw tail) ∧ store'.Sound ∧
      SameExcept 0 store store' := by
  simp only [catalogOffset] at hsmall
  obtain ⟨lsn, hread⟩ := h.read
  obtain ⟨rest, hb⟩ := h.fields
  have hlt : raw.length < 256 ^ 4 := by omega
  have hmeta := metaBytes_length store.pageSize head
  obtain ⟨tail, hflush, hlen⟩ := flushBody_spec rest hmeta hlt
  have hle : body.length ≤ store.bodySize := hs.body_le hpos hread
  have hbig := hs.bodySize_lt.2
  rw [← hb] at hflush hlen
  obtain ⟨store', hw, hh, hs', hsame⟩ := Header.write h hs hpos
    (leBytes 4 raw.length ++ (raw ++ tail)) (by omega) hread
  refine ⟨store', tail, ?_, hh, hs', hsame⟩
  simp only [Catalog.flush, he, ok_bind, hread, hflush]
  exact hw

/-- If it fits the page, it is what is loaded from now on. -/
theorem loadBody_fits (hs : store.Sound) {entries : List TableMeta} {raw : Bytes}
    (he : encodeCatalog entries = .ok raw) (hfit : catalogOffset + 4 + raw.length ≤ store.bodySize)
    (tail : Bytes) : Catalog.loadBody (flushedBody store head raw tail) =
      .ok (some (entries.map TableMeta.stored)) := by
  simp only [catalogOffset] at hfit
  have hbig := hs.bodySize_lt.2
  have htake : (leBytes 4 raw.length ++ (raw ++ tail)).take (store.bodySize - 16) =
      leBytes 4 raw.length ++ (raw ++ tail.take (store.bodySize - 20 - raw.length)) := by
    rw [List.take_append, leBytes_length, List.take_of_length_le (by rw [leBytes_length]; omega),
      List.take_append, List.take_of_length_le (by omega)]
    rw [show store.bodySize - 16 - 4 - raw.length = store.bodySize - 20 - raw.length by omega]
  rw [flushedBody, htake]
  exact loadBody_flushed (metaBytes_length ..) (by omega) he

/-- A catalog too large for the length field of a page is not written. -/
theorem flush_large (catalog : Catalog) (h : Header store head body) {raw : Bytes}
    (he : encodeCatalog catalog.entries.values = .ok raw)
    (hbig : 256 ^ 2 ≤ catalogOffset + 4 + raw.length) : catalog.flush store =
      .error (if raw.length < 256 ^ 4 then .structError else .overflowError) := by
  obtain ⟨lsn, hread⟩ := h.read
  obtain ⟨rest, hb⟩ := h.fields
  by_cases hlt : raw.length < 256 ^ 4
  · rw [if_pos hlt]
    obtain ⟨tail, hflush, hlen⟩ :=
      flushBody_spec rest (metaBytes_length store.pageSize head) hlt
    rw [← hb] at hflush hlen
    simp only [catalogOffset] at hbig
    have hfail : packUint 2 (metaBytes store.pageSize head ++
        (leBytes 4 raw.length ++ (raw ++ tail))).length = .error .structError :=
      if_neg (by rw [hlen]; omega)
    have hlsn := packUint_ok (readPage_bounds hread).2
    simp only [Catalog.flush, he, ok_bind, hread, hflush, writePage, packHeader, hfail, hlsn,
      packUint_ok (show 0 < 256 ^ 4 by decide)]
    rfl
  · rw [if_neg hlt]
    simp only [Catalog.flush, he, ok_bind, hread, Catalog.flushBody, hlt, ↓reduceIte, error_bind]

/-- **The metadata is written in front of the catalog**, which stays as it is. -/
theorem flushFreeHead_spec (h : Header store head body) (hs : store.Sound)
    (hpos : 0 < store.file.length) (hlt : store.freeHead < 256 ^ 4) :
    ∃ store' body', store.flushFreeHead = .ok store' ∧ Header store' store.freeHead body' ∧
      store'.Sound ∧ SameExcept 0 store store' ∧
      Catalog.loadBody body' = Catalog.loadBody body := by
  obtain ⟨lsn, hread⟩ := h.read
  obtain ⟨rest, hb⟩ := h.fields
  have hle : body.length ≤ store.bodySize := hs.body_le hpos hread
  have hbig := hs.bodySize_lt.2
  have hsize : store.pageSize < 256 ^ 4 := by
    have := hs.size.2
    simp only [pageSizeMax] at this
    omega
  have hmeta : packMeta store.pageSize store.freeHead =
      .ok (metaBytes store.pageSize store.freeHead) := by
    simp only [packMeta, packUint_ok hsize, packUint_ok hlt, ok_bind, metaBytes]
  have hzero : body ++ zeros (16 - body.length) = body := by
    rw [show 16 - body.length = 0 by have := h.length; omega]
    exact List.append_nil body
  have hset : setSlice body 0 16 (metaBytes store.pageSize store.freeHead) =
      metaBytes store.pageSize store.freeHead ++ rest := by
    have := setSlice_field [] (metaBytes store.pageSize head) rest
      (metaBytes store.pageSize store.freeHead) 0 16 rfl (by rw [metaBytes_length]; rfl)
    rw [List.nil_append, List.nil_append, ← hb] at this
    exact this
  have hlen : (metaBytes store.pageSize store.freeHead ++ rest).length = body.length := by
    rw [hb, List.length_append, List.length_append, metaBytes_length, metaBytes_length]
  obtain ⟨store', hw⟩ := writePage_ok store
    ⟨0, .header, 0, metaBytes store.pageSize store.freeHead ++ rest⟩ (by simp) (by simp)
    (by simp only [hlen]; omega)
  have hsame := sameExcept_writePage hw hpos
  have hback := readPage_writePage hw (Nat.zero_le _) 0
  rw [if_pos rfl] at hback
  simp only [List.take_of_length_le (show (metaBytes store.pageSize store.freeHead ++ rest).length ≤
    store.bodySize by rw [hlen]; exact hle)] at hback
  refine ⟨store', _, ?_, ⟨⟨0, hback⟩, ⟨rest, by rw [hsame.pageSize]⟩, hlt⟩, hs.write hpos hw, hsame,
    ?_⟩
  · obtain ⟨raw, hraw, hst⟩ := writePage_eq_ok.mp hw
    simp only at hraw
    simp only [flushFreeHead, hread, ok_bind, hzero, hmeta, hset, hraw, hst]
  · rw [hb]
    exact loadBody_meta _ _ rest (metaBytes_length ..) (metaBytes_length ..)

/-! ## Opening -/

/-- **Opening a file.** The free list starts where the header says. -/
theorem openFile_spec (h : Header store head body) (hs : store.Sound) (hpos : 0 < store.file.length) :
    openFile store.file store.pageSize =
      .ok { store with freeHead := head, pageCount := store.file.length } := by
  obtain ⟨lsn, hread⟩ := h.read
  obtain ⟨rest, hb⟩ := h.fields
  have hsize : store.pageSize < 256 ^ 4 := by
    have := hs.size.2
    simp only [pageSizeMax] at this
    omega
  have hne : store.file.isEmpty = false := by
    rw [List.isEmpty_eq_false_iff]
    intro he
    rw [he, List.length_nil] at hpos
    omega
  simp only [readPage, bind_eq_ok, Except.ok.injEq] at hread
  obtain ⟨⟨pid, t, l, bodyLen⟩, hun, hpage⟩ := hread
  simp only [Page.mk.injEq] at hpage
  obtain ⟨rfl, rfl, rfl, hbody⟩ := hpage
  obtain ⟨more, hmore⟩ : ∃ more, (store.rawRead 0).drop fileHeaderSize = body ++ more := by
    refine ⟨((store.rawRead 0).drop fileHeaderSize).drop bodyLen, ?_⟩
    rw [← hbody, slice, Nat.add_sub_cancel_left, List.take_append_drop]
  have hlm : fileHeaderMagic.length = 8 := by decide
  have hall : body ++ more = fileHeaderMagic ++ (leBytes 4 store.pageSize ++
      (leBytes 4 head ++ (rest ++ more))) := by
    rw [hb]
    simp only [metaBytes, List.append_assoc]
  have h1 : slice (body ++ more) 0 8 = fileHeaderMagic := by
    rw [hall]
    exact slice_prefix _ _ _ hlm.symm
  have h2 : slice (body ++ more) 8 12 = leBytes 4 store.pageSize := by
    rw [hall]
    exact slice_field fileHeaderMagic (leBytes 4 store.pageSize) _ 8 4 hlm.symm
      (leBytes_length ..).symm
  have h3 : slice (body ++ more) 12 16 = leBytes 4 head := by
    rw [hall, ← List.append_assoc]
    exact slice_field (fileHeaderMagic ++ leBytes 4 store.pageSize) (leBytes 4 head) _ 12 4
      (by rw [List.length_append, hlm, leBytes_length]) (leBytes_length ..).symm
  have hr0 : store.file.getD 0 [] = store.rawRead 0 := rfl
  simp only [openFile, hs.size, and_self, not_true_eq_false, ↓reduceIte, hne, Bool.false_eq_true,
    hr0, hun, ok_bind, ne_eq, hmore, h1, h2, h3, unpackUint_leBytes hsize,
    unpackUint_leBytes h.head_lt]

/-- **Loading the catalog.** -/
theorem load_spec (catalog : Catalog) (h : Header store head body) (hpos : 0 < store.pageCount)
    {loaded : Option (List TableMeta)} (hl : Catalog.loadBody body = .ok loaded) :
    catalog.load store = .ok (match loaded with
      | none => catalog
      | some entries => ⟨OrdDict.ofList (entries.map fun e => (e.name, e))⟩) := by
  obtain ⟨lsn, hread⟩ := h.read
  have hnot : ¬ store.pageCount < 1 := by omega
  simp only [Catalog.load, hnot, ↓reduceIte, hread, ok_bind, hl]
  cases loaded <;> rfl

end TinyDB
