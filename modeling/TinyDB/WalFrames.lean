import TinyDB.Wal

/-!
# Frames of the write-ahead log

What `encode_record` and `decode_record` are to each other. A record round trips
as far as its fields fit their widths: the page id is packed in two bytes, while
the header of a page has four for it. In the other direction `decode_record`
trusts what the checksums cover: a frame whose fields do not fill its body is
read all the same, or raises what the reading of a field raises.
-/

namespace TinyDB

open Lib

/-! ## The parts of a frame -/

/-- The length field of the header. -/
def frameLength (raw : Bytes) : Nat := leNat (slice raw 8 12)

/-- The bytes that the checksums cover. -/
def frameBody (raw : Bytes) : Bytes := slice raw frameHeaderSize (12 + frameLength raw)

/-- The checks before the checksums are read. -/
structure HeaderPasses (raw : Bytes) : Prop where
  header : frameHeaderSize ≤ raw.length
  magic : slice raw 0 8 = walMagic
  whole : frameHeaderSize + frameLength raw ≤ raw.length

/-- Both checksums are that of the body. -/
def SumsMatch (raw : Bytes) : Prop :=
  leNat (slice raw 12 16) = crc32 (frameBody raw) ∧
    leNat (slice raw (12 + frameLength raw) (16 + frameLength raw)) = crc32 (frameBody raw)

instance (raw : Bytes) : Decidable (SumsMatch raw) := inferInstanceAs (Decidable (_ ∧ _))

/-- The fixed fields are there, the kind is one of the three and the images take
up all of the rest. -/
structure FieldsFill (body : Bytes) : Prop where
  fixed : 15 ≤ body.length
  kind : 1 ≤ leNat (slice body 4 5) ∧ leNat (slice body 4 5) ≤ 3
  images : 15 + leNat (slice body 11 13) + leNat (slice body 13 15) = body.length

private theorem unpackUint_slice {bs : Bytes} {i j k : Nat} (h : j ≤ bs.length) (hk : j - i = k) :
    unpackUint k (slice bs i j) = .ok (leNat (slice bs i j)) := by
  rw [unpackUint, if_pos (by rw [slice_length h, hk])]

/-- `decode_record` behind the header: a length field below four leaves no room
for the second checksum. -/
theorem decodeRecord_of_header {raw : Bytes} (h : HeaderPasses raw) :
    decodeRecord raw =
      if frameLength raw < 4 then .error .structError
      else if SumsMatch raw then decodeBody (frameBody raw)
      else .error (.transactionLogCorrupt 0) := by
  have hsize := h.header
  have hwhole := h.whole
  rw [frameHeaderSize] at hsize hwhole
  have hlength : unpackUint 4 (slice raw 8 12) = .ok (frameLength raw) :=
    unpackUint_slice (by omega) rfl
  have hcrc : unpackUint 4 (slice raw 12 16) = .ok (leNat (slice raw 12 16)) :=
    unpackUint_slice (by omega) rfl
  have hlen : (slice raw frameHeaderSize (frameHeaderSize + frameLength raw)).length =
      frameLength raw := by
    rw [slice_length h.whole]
    omega
  rw [decodeRecord, if_neg (by rw [frameHeaderSize]; omega), if_neg (by simp [h.magic]), hlength,
    hcrc]
  simp only [ok_bind, if_neg (Nat.not_lt.mpr h.whole), hlen]
  split
  · rename_i hshort
    rw [unpackUint_short, error_bind]
    rw [List.length_drop, hlen]
    omega
  · rename_i hlong
    have hsplit : slice raw frameHeaderSize (frameHeaderSize + frameLength raw) =
        frameBody raw ++ slice raw (12 + frameLength raw) (16 + frameLength raw) :=
      (slice_append (by rw [frameHeaderSize]; omega) (by rw [frameHeaderSize]; omega)).symm
    have hbody : (frameBody raw).length = frameLength raw - 4 := by
      rw [frameBody, slice_length (by omega), frameHeaderSize]
      omega
    rw [hsplit, List.drop_left' hbody, List.take_left' hbody,
      unpackUint_slice (by omega) (by omega), ok_bind]
    by_cases hs : SumsMatch raw
    · rw [if_neg (by rw [hs.1, hs.2]; simp), if_pos hs]
    · have hne : crc32 (frameBody raw) ≠ leNat (slice raw 12 16) ∨ crc32 (frameBody raw) ≠
          leNat (slice raw (12 + frameLength raw) (16 + frameLength raw)) := by
        rw [SumsMatch] at hs
        tauto
      rw [if_neg hs, if_pos hne]

theorem decodeRecord_of_not_header {raw : Bytes} (h : ¬ HeaderPasses raw) :
    decodeRecord raw = .error (.transactionLogCorrupt 0) := by
  by_cases hsize : raw.length < frameHeaderSize
  · rw [decodeRecord, if_pos hsize]
  · by_cases hmagic : slice raw 0 8 = walMagic
    · have hwhole : raw.length < frameHeaderSize + frameLength raw := by
        by_contra hw
        exact h ⟨by omega, hmagic, by omega⟩
      rw [frameHeaderSize] at hsize
      have hlength : unpackUint 4 (slice raw 8 12) = .ok (frameLength raw) :=
        unpackUint_slice (by omega) rfl
      have hcrc : unpackUint 4 (slice raw 12 16) = .ok (leNat (slice raw 12 16)) :=
        unpackUint_slice (by omega) rfl
      rw [decodeRecord, if_neg (by rw [frameHeaderSize]; omega), if_neg (by simp [hmagic]), hlength,
        hcrc]
      simp only [ok_bind, if_pos hwhole]
    · rw [decodeRecord, if_neg hsize, if_pos hmagic]

/-! ## Bodies -/

/-- The kinds are the bytes one to three. -/
private theorem kind_of_byte {b : Nat} (h : 1 ≤ b ∧ b ≤ 3) :
    ∃ kind : RecordKind, [kind.toByte] = leBytes 1 b := by
  obtain rfl | rfl | rfl : b = 1 ∨ b = 2 ∨ b = 3 := by omega
  · exact ⟨.mutate, rfl⟩
  · exact ⟨.txCommit, rfl⟩
  · exact ⟨.txRollback, rfl⟩

/-- The bodies that records have are those whose fields fill them. -/
theorem fieldsFill_iff {body : Bytes} : FieldsFill body ↔ ∃ r, encodeBody r = .ok body := by
  constructor
  · rintro ⟨hfixed, hkind, himages⟩
    obtain ⟨kind, hk⟩ := kind_of_byte hkind
    have hb : (slice body 15 (15 + leNat (slice body 11 13))).length =
        leNat (slice body 11 13) := by
      rw [slice_length (by omega)]
      omega
    have ha : (slice body (15 + leNat (slice body 11 13)) body.length).length =
        leNat (slice body 13 15) := by
      rw [slice_length (Nat.le_refl _)]
      omega
    have hlt : ∀ i j k, j ≤ body.length → j - i = k → leNat (slice body i j) < 256 ^ k := by
      intro i j k hj hk
      have hl := leNat_lt (slice body i j)
      rwa [slice_length hj, hk] at hl
    have hle : ∀ i j k, j ≤ body.length → j - i = k →
        leBytes k (leNat (slice body i j)) = slice body i j := by
      intro i j k hj hk
      have hl := leBytes_leNat (slice body i j)
      rwa [slice_length hj, hk] at hl
    refine ⟨⟨leNat (slice body 0 4), leNat (slice body 5 9), kind, leNat (slice body 9 11),
      slice body 15 (15 + leNat (slice body 11 13)),
      slice body (15 + leNat (slice body 11 13)) body.length⟩, encodeBody_eq_ok.mpr
        ⟨hlt 0 4 4 (by omega) rfl, hlt 5 9 4 (by omega) rfl, hlt 9 11 2 (by omega) rfl, ?_, ?_, ?_⟩⟩
    · rw [hb]
      exact hlt 11 13 2 (by omega) rfl
    · rw [ha]
      exact hlt 13 15 2 (by omega) rfl
    · have hfull : slice body 0 body.length = body := by simp [slice]
      simp only [hk, hb, ha]
      rw [hle 0 4 4 (by omega) rfl, hle 4 5 1 (by omega) rfl, hle 5 9 4 (by omega) rfl,
        hle 9 11 2 (by omega) rfl, hle 11 13 2 (by omega) rfl, hle 13 15 2 (by omega) rfl]
      -- the fields are put together from the last one on
      rw [slice_append (by omega) (by omega), slice_append (by omega) (by omega),
        slice_append (by omega) (by omega), slice_append (by omega) (by omega),
        slice_append (by omega) (by omega), slice_append (by omega) (by omega),
        slice_append (by omega) (by omega), hfull]
  · rintro ⟨r, hr⟩
    obtain ⟨-, -, -, h4, h5, rfl⟩ := encodeBody_eq_ok.mp hr
    have hkind : 1 ≤ leNat [r.kind.toByte] ∧ leNat [r.kind.toByte] ≤ 3 := by
      cases r.kind <;> decide
    constructor
    · simp only [List.length_append, leBytes_length, List.length_singleton]
      omega
    · simp (disch := simp) only [slice_skip, slice_prefix, leBytes_length, Nat.reduceSub]
      exact hkind
    · simp (disch := simp) only [slice_skip, slice_prefix, leBytes_length, Nat.reduceSub,
        List.length_singleton, leNat_leBytes _ _ h4, leNat_leBytes _ _ h5, List.length_append]
      omega

/-- The fields of a body are read without a word about the log. -/
private theorem decodeBody_raises (body : Bytes) :
    RaisesOnly (fun e => ∀ offset, e ≠ .transactionLogCorrupt offset) (decodeBody body) := by
  have hread : ∀ k raw, RaisesOnly (fun e => ∀ offset, e ≠ .transactionLogCorrupt offset)
      (unpackUint k raw) := by
    intro k raw
    exact RaisesOnly.ite (fun _ => RaisesOnly.ok _) fun _ => RaisesOnly.error (by simp)
  unfold decodeBody
  refine (hread _ _).bind fun _ _ => (hread _ _).bind fun _ _ => (hread _ _).bind fun _ _ =>
    (hread _ _).bind fun _ _ => (hread _ _).bind fun _ _ => (hread _ _).bind fun _ _ => ?_
  apply RaisesOnly.bind
  · unfold RecordKind.ofByte
    refine RaisesOnly.ite (fun _ => RaisesOnly.ok _) fun _ => ?_
    refine RaisesOnly.ite (fun _ => RaisesOnly.ok _) fun _ => ?_
    exact RaisesOnly.ite (fun _ => RaisesOnly.ok _) fun _ => RaisesOnly.error (by simp)
  · exact fun _ _ => RaisesOnly.ok _

/-! ## From a record to its frame and back -/

/-- What the decoder finds at the start of a frame, whatever comes after it. -/
theorem frame_parts {r : WalRecord} {frame : Bytes} (h : encodeRecord r = .ok frame)
    (rest : Bytes) :
    encodeBody r = .ok (frameBody (frame ++ rest)) ∧ HeaderPasses (frame ++ rest) ∧
      SumsMatch (frame ++ rest) ∧ 4 ≤ frameLength (frame ++ rest) ∧
        frameHeaderSize + frameLength (frame ++ rest) = frame.length := by
  obtain ⟨body, hbody, hlen, hf⟩ := encodeRecord_eq_ok.mp h
  have hl := frame_length hf
  have hlength : frameLength (frame ++ rest) = body.length + 4 := by
    rw [frameLength, hf]
    simp (disch := simp) only [slice_skip, slice_prefix, List.append_assoc, walMagic_length,
      Nat.reduceSub, leNat_leBytes _ _ hlen]
  have hfield : frame ++ rest = walMagic ++ (leBytes 4 (body.length + 4) ++
      (leBytes 4 (crc32 body) ++ (body ++ (leBytes 4 (crc32 body) ++ rest)))) := by
    rw [hf]
    simp only [List.append_assoc]
  have hpart : frameBody (frame ++ rest) = body := by
    have hn : 12 + (body.length + 4) - 8 - 4 - 4 = body.length := by omega
    rw [frameBody, hlength, hfield]
    simp (disch := simp) only [frameHeaderSize, slice_skip, slice_prefix, walMagic_length,
      Nat.reduceSub, leBytes_length, hn]
  have hstored : slice (frame ++ rest) (12 + (body.length + 4)) (16 + (body.length + 4)) =
      leBytes 4 (crc32 body) := by
    rw [hfield, slice_skip _ _ _ _ (by simp; omega), slice_skip _ _ _ _ (by simp; omega),
      slice_skip _ _ _ _ (by simp; omega), slice_skip _ _ _ _ (by simp; omega)]
    simp only [walMagic_length, leBytes_length]
    have h1 : 12 + (body.length + 4) - 8 - 4 - 4 - body.length = 0 := by omega
    have h2 : 16 + (body.length + 4) - 8 - 4 - 4 - body.length = 4 := by omega
    rw [h1, h2]
    exact slice_prefix _ _ _ (by simp)
  refine ⟨by rw [hpart]; exact hbody, ⟨?_, ?_, ?_⟩, ⟨?_, ?_⟩, by omega, by omega⟩
  · rw [List.length_append]
    omega
  · rw [hfield]
    exact slice_prefix _ _ _ rfl
  · rw [List.length_append]
    omega
  · rw [hpart, hfield]
    simp (disch := simp) only [slice_skip, slice_prefix, walMagic_length, leBytes_length,
      Nat.reduceSub, leNat_leBytes _ _ (crc32_lt body)]
  · rw [hpart, hlength, hstored]
    exact leNat_leBytes _ _ (crc32_lt body)

/-- The record comes back, also with more bytes behind its frame. -/
theorem decodeRecord_append {r : WalRecord} {frame : Bytes} (h : encodeRecord r = .ok frame)
    (rest : Bytes) : decodeRecord (frame ++ rest) = .ok r := by
  obtain ⟨hbody, hheader, hsums, hlong, -⟩ := frame_parts h rest
  rw [decodeRecord_of_header hheader, if_neg (by omega), if_pos hsums]
  exact decodeBody_encodeBody hbody

/-- The record can be encoded, and its frame decodes to it whatever follows. -/
def WalRecord.RoundTrips (r : WalRecord) : Prop :=
  ∃ frame, encodeRecord r = .ok frame ∧ ∀ rest, decodeRecord (frame ++ rest) = .ok r

/-- **Round trip.** A record of the log comes back from its frame exactly if its
page id fits two bytes. -/
theorem roundTrips_iff (r : WalRecord) (hlsn : r.lsn < 2 ^ 32) (htx : r.txId < 2 ^ 32)
    (hbefore : r.before.length ≤ FileStore.pageSizeMax - fileHeaderSize)
    (hafter : r.after.length ≤ FileStore.pageSizeMax - fileHeaderSize) :
    r.RoundTrips ↔ r.pageId < 2 ^ 16 := by
  rw [FileStore.pageSizeMax, fileHeaderSize] at hbefore hafter
  constructor
  · rintro ⟨frame, hf, -⟩
    obtain ⟨body, hbody, -, -⟩ := encodeRecord_eq_ok.mp hf
    obtain ⟨-, -, hpage, -⟩ := encodeBody_eq_ok.mp hbody
    exact hpage
  · intro hpage
    obtain ⟨body, hbody⟩ : ∃ body, encodeBody r = .ok body :=
      ⟨_, encodeBody_eq_ok.mpr ⟨hlsn, htx, hpage, by omega, by omega, rfl⟩⟩
    have hlen : body.length + 4 < 256 ^ 4 := by
      obtain ⟨-, -, -, -, -, rfl⟩ := encodeBody_eq_ok.mp hbody
      simp only [List.length_append, leBytes_length, List.length_singleton]
      omega
    have hf := encodeRecord_eq_ok.mpr ⟨body, hbody, hlen, rfl⟩
    exact ⟨_, hf, decodeRecord_append hf⟩

/-- The longest images and the largest page id that fits. -/
theorem roundTrips_last_page :
    WalRecord.RoundTrips ⟨1, 42, .mutate, 65535, zeros 65525, zeros 65525⟩ := by
  apply (roundTrips_iff _ _ _ _ _).mpr
  all_goals simp [FileStore.pageSizeMax, fileHeaderSize]

/-- A page that a page header can number and the log cannot. -/
theorem page_id_too_wide :
    ¬ ∀ r : WalRecord, r.lsn < 2 ^ 32 → r.txId < 2 ^ 32 → r.pageId < 2 ^ 32 →
      r.before.length ≤ FileStore.pageSizeMax - fileHeaderSize →
      r.after.length ≤ FileStore.pageSizeMax - fileHeaderSize → r.RoundTrips := by
  intro h
  obtain ⟨frame, hf, -⟩ := h ⟨1, 42, .mutate, 65536, [1], [2]⟩ (by decide) (by decide) (by decide)
    (by decide) (by decide)
  have he : encodeRecord ⟨1, 42, .mutate, 65536, [1], [2]⟩ = .error .structError := rfl
  rw [he] at hf
  cases hf

/-! ## From bytes to a record and back -/

/-- The decoder finds the log corrupt, or the record it returns has the first
frame of `raw` as its encoding. -/
def CleanDecode (raw : Bytes) : Prop :=
  match decodeRecord raw with
  | .ok r => encodeRecord r = .ok (raw.take (frameHeaderSize + frameLength raw))
  | .error e => ∃ offset, e = .transactionLogCorrupt offset

/-- The first frame of `raw`, put together from its parts. -/
private theorem take_frame {raw : Bytes} (h : HeaderPasses raw) (hlong : 4 ≤ frameLength raw) :
    raw.take (frameHeaderSize + frameLength raw) =
      walMagic ++ (slice raw 8 12 ++ (slice raw 12 16 ++ (frameBody raw ++
        slice raw (12 + frameLength raw) (16 + frameLength raw)))) := by
  have hfull : raw.take (frameHeaderSize + frameLength raw) =
      slice raw 0 (16 + frameLength raw) := by simp [slice, frameHeaderSize]
  rw [hfull, ← h.magic, frameBody, frameHeaderSize, slice_append (by omega) (by omega),
    slice_append (by omega) (by omega), slice_append (by omega) (by omega),
    slice_append (by omega) (by omega)]

/-- A frame whose body is that of a record is the frame of that record. -/
private theorem encodeRecord_of_body {raw : Bytes} {r : WalRecord} (h : HeaderPasses raw)
    (hlong : 4 ≤ frameLength raw) (hsums : SumsMatch raw)
    (hr : encodeBody r = .ok (frameBody raw)) :
    encodeRecord r = .ok (raw.take (frameHeaderSize + frameLength raw)) := by
  have hsize := h.header
  have hwhole := h.whole
  rw [frameHeaderSize] at hsize hwhole
  have hbody : (frameBody raw).length + 4 = frameLength raw := by
    rw [frameBody, slice_length (by omega), frameHeaderSize]
    omega
  have hle : ∀ i j, j ≤ raw.length → j - i = 4 →
      leBytes 4 (leNat (slice raw i j)) = slice raw i j := by
    intro i j hj hk
    have hl := leBytes_leNat (slice raw i j)
    rwa [slice_length hj, hk] at hl
  have hlt : frameLength raw < 256 ^ 4 := by
    have hl := leNat_lt (slice raw 8 12)
    rwa [slice_length (by omega)] at hl
  refine encodeRecord_eq_ok.mpr ⟨frameBody raw, hr, by omega, ?_⟩
  rw [take_frame h hlong, hbody, ← hle 8 12 (by omega) rfl, ← hle 12 16 (by omega) rfl,
    ← hle (12 + frameLength raw) (16 + frameLength raw) (by omega) (by omega), hsums.1, hsums.2]
  rfl

/-- **What the decoder accepts.** `decode_record` is clean on a byte string exactly
if behind a header that passes there is room for the second checksum, and the
fields of a body with the right checksums fill it. -/
theorem cleanDecode_iff (raw : Bytes) :
    CleanDecode raw ↔
      (HeaderPasses raw → 4 ≤ frameLength raw ∧ (SumsMatch raw → FieldsFill (frameBody raw))) := by
  unfold CleanDecode
  by_cases hheader : HeaderPasses raw
  · rw [decodeRecord_of_header hheader]
    by_cases hlong : frameLength raw < 4
    · have hnot : ¬ 4 ≤ frameLength raw := by omega
      simp [hlong, hheader, hnot]
    · rw [if_neg hlong]
      by_cases hsums : SumsMatch raw
      · rw [if_pos hsums]
        constructor
        · intro hclean
          refine fun _ => ⟨by omega, fun _ => fieldsFill_iff.mpr ?_⟩
          cases hd : decodeBody (frameBody raw) with
          | error e =>
            rw [hd] at hclean
            obtain ⟨offset, rfl⟩ := hclean
            exact absurd rfl (decodeBody_raises _ _ hd offset)
          | ok r =>
            rw [hd] at hclean
            have hparts := (frame_parts hclean (raw.drop (frameHeaderSize + frameLength raw))).1
            rw [List.take_append_drop] at hparts
            exact ⟨r, hparts⟩
        · intro hcond
          obtain ⟨-, hfill⟩ := hcond hheader
          obtain ⟨r, hr⟩ := fieldsFill_iff.mp (hfill hsums)
          rw [decodeBody_encodeBody hr]
          exact encodeRecord_of_body hheader (by omega) hsums hr
      · simp [hsums, hheader]
        omega
  · rw [decodeRecord_of_not_header hheader]
    simp [hheader]

/-- A checksum over nothing and no room for it: the reading of the checksum raises. -/
theorem short_length_escapes : ¬ ∀ raw, CleanDecode raw := by
  intro h
  have hraise : decodeRecord (walMagic ++ zeros 8) = .error .structError := by decide +kernel
  have hclean := h (walMagic ++ zeros 8)
  rw [CleanDecode, hraise] at hclean
  obtain ⟨offset, he⟩ := hclean
  cases he

end TinyDB
