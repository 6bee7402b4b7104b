import TinyDB.Storage

/-!
# The write-ahead log

`wal.py`: the codec of a log record, the scan that reads records off a file and
the `Wal` object that appends them. A `Wal` holds the file offset of its
descriptor and the next LSN; the bytes of the file are passed beside it.
`readLog_append` is the rule for reading a log: whole frames come back as their
records, then the scan goes on with what follows.
-/

namespace TinyDB

open Lib

/-- `MAGIC`, the bytes of `TINYWAL1`. -/
def walMagic : Bytes := [84, 73, 78, 89, 87, 65, 76, 49]

/-- `MAGIC_SIZE + _WAL_POST_MAGIC_SIZE`. -/
def frameHeaderSize : Nat := 16

inductive RecordKind where
  | mutate
  | txCommit
  | txRollback
  deriving DecidableEq, Repr

namespace RecordKind

def toByte : RecordKind → UInt8
  | .mutate => 1
  | .txCommit => 2
  | .txRollback => 3

def ofByte (b : UInt8) : Except PyErr RecordKind :=
  if b = 1 then .ok .mutate
  else if b = 2 then .ok .txCommit
  else if b = 3 then .ok .txRollback
  else .error .valueError

@[simp] theorem ofByte_toByte (k : RecordKind) : ofByte k.toByte = .ok k := by
  cases k <;> rfl

end RecordKind

structure WalRecord where
  lsn : Nat
  txId : Nat
  kind : RecordKind
  pageId : Nat
  before : Bytes
  after : Bytes
  deriving DecidableEq, Repr

/-! ## Frames -/

/-- The body of a frame, which the checksum covers. -/
def encodeBody (r : WalRecord) : Except PyErr Bytes := do
  let lsn ← packUint 4 r.lsn
  let txId ← packUint 4 r.txId
  let pageId ← packUint 2 r.pageId
  let beforeLen ← packUint 2 r.before.length
  let afterLen ← packUint 2 r.after.length
  .ok (lsn ++ ([r.kind.toByte] ++ (txId ++ (pageId ++
    (beforeLen ++ (afterLen ++ (r.before ++ r.after)))))))

def encodeRecord (r : WalRecord) : Except PyErr Bytes := do
  let body ← encodeBody r
  let crc ← packUint 4 (crc32 body)
  let length ← packUint 4 (body.length + 4)
  .ok (walMagic ++ (length ++ (crc ++ (body ++ crc))))

def decodeBody (body : Bytes) : Except PyErr WalRecord := do
  let head := slice body 0 11
  let lsn ← unpackUint 4 (slice head 0 4)
  let kindValue ← unpackUint 1 (slice head 4 5)
  let txId ← unpackUint 4 (slice head 5 9)
  let pageId ← unpackUint 2 (slice head 9 11)
  let bodyRest := body.drop 11
  let beforeLen ← unpackUint 2 (slice bodyRest 0 2)
  let afterLen ← unpackUint 2 (slice bodyRest 2 4)
  let payload := bodyRest.drop 4
  let before := slice payload 0 beforeLen
  let after := slice payload beforeLen (beforeLen + afterLen)
  let kind ← RecordKind.ofByte (UInt8.ofNat kindValue)
  .ok ⟨lsn, txId, kind, pageId, before, after⟩

def decodeRecord (raw : Bytes) : Except PyErr WalRecord :=
  if raw.length < frameHeaderSize then .error (.transactionLogCorrupt 0)
  else if slice raw 0 8 ≠ walMagic then .error (.transactionLogCorrupt 0)
  else do
    let length ← unpackUint 4 (slice raw 8 12)
    let expectedCrc ← unpackUint 4 (slice raw 12 16)
    let frameEnd := frameHeaderSize + length
    if raw.length < frameEnd then .error (.transactionLogCorrupt 0)
    else
      let bodyAndCrc := slice raw frameHeaderSize frameEnd
      let body := bodyAndCrc.take (bodyAndCrc.length - 4)
      let storedCrc ← unpackUint 4 (bodyAndCrc.drop (bodyAndCrc.length - 4))
      if crc32 body ≠ expectedCrc ∨ crc32 body ≠ storedCrc then .error (.transactionLogCorrupt 0)
      else decodeBody body

/-- The loop of `iter_records` and `replay_wal`; `rest` is the file from `pos`
on, and the fuel is its length. -/
def scanRecords : Nat → Bytes → Except PyErr (List WalRecord)
  | 0, _ => .ok []
  | n + 1, rest =>
    let raw := rest.take frameHeaderSize
    -- a torn header ends the scan
    if raw.length < frameHeaderSize then .ok []
    else do
      let length ← unpackUint 4 (slice raw 8 12)
      let frameEnd := frameHeaderSize + length
      let r ← decodeRecord (rest.take frameEnd)
      let records ← scanRecords n (rest.drop frameEnd)
      .ok (r :: records)

/-- All records of a file, in order, or the error the scan ends in. -/
def readLog (bytes : Bytes) : Except PyErr (List WalRecord) := scanRecords bytes.length bytes

/-- The frames of a list of records, one after the other. -/
def encodeLog : List WalRecord → Except PyErr Bytes
  | [] => .ok []
  | r :: records => do
    let frame ← encodeRecord r
    let rest ← encodeLog records
    .ok (frame ++ rest)

/-! ## The log object -/

/-- An open `Wal`: the offset of its file descriptor and `_next_lsn`. -/
structure Wal where
  offset : Nat
  nextLsn : Nat
  deriving DecidableEq, Repr

namespace Wal

/-- `_recover_next_lsn`; whatever the scan raises is swallowed. -/
def recoverNextLsn (bytes : Bytes) : Nat :=
  match readLog bytes with
  | .ok records =>
    let maxLsn := records.foldl (fun m r => max m r.lsn) 0
    if 0 < maxLsn then maxLsn + 1 else 1
  | .error _ => 1

/-- `Wal.open`. The scan for the next LSN leaves the offset at the start of the file. -/
def openLog (bytes : Bytes) : Wal := ⟨0, recoverNextLsn bytes⟩

def appendRec (wal : Wal) (bytes : Bytes) (r : WalRecord) : Except PyErr (Nat × Wal × Bytes) := do
  let raw ← encodeRecord r
  .ok (r.lsn, ⟨wal.offset + raw.length, max wal.nextLsn (r.lsn + 1)⟩,
    writeAt bytes wal.offset raw)

def append (wal : Wal) (bytes : Bytes) (kind : RecordKind) (txId pageId : Nat)
    (before after : Bytes) : Except PyErr (Nat × Wal × Bytes) :=
  wal.appendRec bytes ⟨wal.nextLsn, txId, kind, pageId, before, after⟩

/-- `iter_records`, run to its end: `lseek` puts the offset back to the start. -/
def iterRecords (wal : Wal) (bytes : Bytes) : Except PyErr (List WalRecord) × Wal :=
  (readLog bytes, { wal with offset := 0 })

def truncate (_wal : Wal) : Wal × Bytes := (⟨0, 1⟩, [])

end Wal

/-! ## Reading frames back -/

@[simp] theorem walMagic_length : walMagic.length = 8 := by decide

theorem encodeBody_eq_ok {r : WalRecord} {body : Bytes} :
    encodeBody r = .ok body ↔
      r.lsn < 256 ^ 4 ∧ r.txId < 256 ^ 4 ∧ r.pageId < 256 ^ 2 ∧ r.before.length < 256 ^ 2 ∧
        r.after.length < 256 ^ 2 ∧
        body = leBytes 4 r.lsn ++ ([r.kind.toByte] ++ (leBytes 4 r.txId ++ (leBytes 2 r.pageId ++
          (leBytes 2 r.before.length ++ (leBytes 2 r.after.length ++ (r.before ++ r.after)))))) := by
  simp only [encodeBody, bind_eq_ok, packUint_eq_ok, Except.ok.injEq]
  constructor
  · rintro ⟨_, ⟨h1, rfl⟩, _, ⟨h2, rfl⟩, _, ⟨h3, rfl⟩, _, ⟨h4, rfl⟩, _, ⟨h5, rfl⟩, rfl⟩
    exact ⟨h1, h2, h3, h4, h5, rfl⟩
  · rintro ⟨h1, h2, h3, h4, h5, rfl⟩
    exact ⟨_, ⟨h1, rfl⟩, _, ⟨h2, rfl⟩, _, ⟨h3, rfl⟩, _, ⟨h4, rfl⟩, _, ⟨h5, rfl⟩, rfl⟩

theorem encodeRecord_eq_ok {r : WalRecord} {frame : Bytes} :
    encodeRecord r = .ok frame ↔
      ∃ body, encodeBody r = .ok body ∧ body.length + 4 < 256 ^ 4 ∧
        frame = walMagic ++ (leBytes 4 (body.length + 4) ++ (leBytes 4 (crc32 body) ++
          (body ++ leBytes 4 (crc32 body)))) := by
  simp only [encodeRecord, bind_eq_ok, packUint_eq_ok, Except.ok.injEq]
  constructor
  · rintro ⟨body, hb, _, ⟨-, rfl⟩, _, ⟨h, rfl⟩, rfl⟩
    exact ⟨body, hb, h, rfl⟩
  · rintro ⟨body, hb, h, rfl⟩
    exact ⟨body, hb, _, ⟨crc32_lt body, rfl⟩, _, ⟨h, rfl⟩, rfl⟩

theorem decodeBody_encodeBody {r : WalRecord} {body : Bytes} (h : encodeBody r = .ok body) :
    decodeBody body = .ok r := by
  obtain ⟨h1, h2, h3, h4, h5, rfl⟩ := encodeBody_eq_ok.mp h
  have hk : unpackUint 1 [r.kind.toByte] = .ok r.kind.toByte.toNat := by cases r.kind <;> rfl
  have hb : slice (r.before ++ r.after) 0 r.before.length = r.before := slice_append_left _ _
  have ha : slice (r.before ++ r.after) r.before.length
      (r.before.length + r.after.length) = r.after := by
    simpa using slice_field r.before r.after [] _ _ rfl rfl
  simp (disch := simp) only [decodeBody, slice_slice, slice_skip, slice_prefix, drop_skip,
    leBytes_length, List.length_singleton, Nat.reduceSub, List.drop_zero, unpackUint_leBytes h1,
    unpackUint_leBytes h2, unpackUint_leBytes h3, unpackUint_leBytes h4, unpackUint_leBytes h5, hk,
    ok_bind, UInt8.ofNat_toNat, RecordKind.ofByte_toByte, hb, ha]

theorem frame_length {frame body : Bytes} (hb : frame =
    walMagic ++ (leBytes 4 (body.length + 4) ++ (leBytes 4 (crc32 body) ++
      (body ++ leBytes 4 (crc32 body))))) : frame.length = frameHeaderSize + (body.length + 4) := by
  subst hb
  simp only [List.length_append, walMagic_length, leBytes_length, frameHeaderSize]
  omega

/-- A frame starts with a header that gives its length. -/
theorem frame_header {r : WalRecord} {frame : Bytes} (h : encodeRecord r = .ok frame)
    (rest : Bytes) :
    ((frame ++ rest).take frameHeaderSize).length = frameHeaderSize ∧
      unpackUint 4 (slice ((frame ++ rest).take frameHeaderSize) 8 12) =
        .ok (frame.length - frameHeaderSize) ∧
      frameHeaderSize ≤ frame.length := by
  obtain ⟨body, -, hlen, hf⟩ := encodeRecord_eq_ok.mp h
  have hl := frame_length hf
  refine ⟨?_, ?_, by omega⟩
  · rw [List.length_take, List.length_append]
    omega
  · have hs : (frame ++ rest).take frameHeaderSize = slice (frame ++ rest) 0 frameHeaderSize := rfl
    have he : frame.length - frameHeaderSize = body.length + 4 := by omega
    rw [he, ← unpackUint_leBytes hlen, hs, slice_slice _ _ _ _ (by decide), hf]
    simp (disch := simp) only [slice_skip, slice_prefix, List.append_assoc, walMagic_length,
      Nat.reduceSub]

theorem decodeRecord_encodeRecord {r : WalRecord} {frame : Bytes}
    (h : encodeRecord r = .ok frame) : decodeRecord frame = .ok r := by
  obtain ⟨body, hbody, hlen, hf⟩ := encodeRecord_eq_ok.mp h
  have hl := frame_length hf
  have hmagic : slice frame 0 8 = walMagic := by
    rw [hf]
    exact slice_prefix _ _ _ rfl
  have hlength : slice frame 8 12 = leBytes 4 (body.length + 4) := by
    rw [hf]
    simp (disch := simp) only [slice_skip, slice_prefix, walMagic_length, Nat.reduceSub]
  have hcrc : slice frame 12 16 = leBytes 4 (crc32 body) := by
    rw [hf]
    simp (disch := simp) only [slice_skip, slice_prefix, walMagic_length, leBytes_length,
      Nat.reduceSub]
  have hrest : slice frame frameHeaderSize frame.length = body ++ leBytes 4 (crc32 body) := by
    have hd : frame.drop frameHeaderSize = body ++ leBytes 4 (crc32 body) := by
      rw [hf]
      simp (disch := simp) only [frameHeaderSize, drop_skip, walMagic_length, leBytes_length,
        Nat.reduceSub, List.drop_zero]
    rw [slice, hd, List.take_of_length_le]
    rw [← hd, List.length_drop]
  have hsize : (body ++ leBytes 4 (crc32 body)).length - 4 = body.length := by simp
  rw [decodeRecord, if_neg (by omega), if_neg (by simp [hmagic]), hlength, hcrc,
    unpackUint_leBytes hlen, unpackUint_leBytes (crc32_lt body)]
  simp only [ok_bind, ← hl, hrest, hsize, List.take_left', List.drop_left',
    unpackUint_leBytes (crc32_lt body), decodeBody_encodeBody hbody]
  simp

/-- The scan reads a whole frame and goes on behind it. -/
private theorem scanRecords_frame {r : WalRecord} {frame : Bytes} (h : encodeRecord r = .ok frame)
    (n : Nat) (rest : Bytes) :
    scanRecords (n + 1) (frame ++ rest) = (scanRecords n rest).map (r :: ·) := by
  obtain ⟨hlen, hlength, hle⟩ := frame_header h rest
  have hend : frameHeaderSize + (frame.length - frameHeaderSize) = frame.length := by omega
  simp only [scanRecords, hlen, Nat.lt_irrefl, if_false, hlength, ok_bind, hend, List.take_left',
    List.drop_left', decodeRecord_encodeRecord h]
  cases scanRecords n rest <;> rfl

private theorem slice_take (bs : Bytes) {n i j : Nat} (h : j ≤ n) :
    slice (bs.take n) i j = slice bs i j := by
  simp only [slice, List.drop_take, List.take_take]
  rw [Nat.min_eq_left (by omega)]

/-- A frame that lacks bytes behind its header is found corrupt. -/
theorem readLog_torn {r : WalRecord} {frame : Bytes} (h : encodeRecord r = .ok frame) {n : Nat}
    (hn : frameHeaderSize ≤ n) (hlt : n < frame.length) :
    readLog (frame.take n) = .error (.transactionLogCorrupt 0) := by
  obtain ⟨hhead, hlength, -⟩ := frame_header h []
  rw [List.append_nil] at hhead hlength
  have hlen : (frame.take n).length = n := by rw [List.length_take]; omega
  have htake : (frame.take n).take frameHeaderSize = frame.take frameHeaderSize := by
    rw [List.take_take, Nat.min_eq_left hn]
  have hend : frameHeaderSize + (frame.length - frameHeaderSize) = frame.length := by omega
  have hwhole : (frame.take n).take frame.length = frame.take n :=
    List.take_of_length_le (by rw [hlen]; exact Nat.le_of_lt hlt)
  obtain ⟨body, -, hsize, hf⟩ := encodeRecord_eq_ok.mp h
  have hbody := frame_length hf
  simp only [frameHeaderSize] at hn
  have hmagic : slice (frame.take n) 0 8 = walMagic := by
    rw [slice_take frame (by omega), hf]
    exact slice_prefix _ _ _ rfl
  have hfour : slice (frame.take n) 8 12 = leBytes 4 (body.length + 4) := by
    rw [slice_take frame (by omega), hf]
    simp (disch := simp) only [slice_skip, slice_prefix, walMagic_length, Nat.reduceSub]
  have hcrc : slice (frame.take n) 12 16 = leBytes 4 (crc32 body) := by
    rw [slice_take frame (by omega), hf]
    simp (disch := simp) only [slice_skip, slice_prefix, walMagic_length, leBytes_length,
      Nat.reduceSub]
  have hdecode : decodeRecord (frame.take n) = .error (.transactionLogCorrupt 0) := by
    rw [decodeRecord, if_neg (by rw [hlen, frameHeaderSize]; omega), if_neg (by simp [hmagic]), hfour,
      hcrc, unpackUint_leBytes hsize, unpackUint_leBytes (crc32_lt body)]
    simp only [ok_bind, hlen, ← hbody, hlt, ↓reduceIte]
  obtain ⟨m, hm⟩ : ∃ m, n = m + 1 := ⟨n - 1, by omega⟩
  have hscan : scanRecords (m + 1) (frame.take n) = .error (.transactionLogCorrupt 0) := by
    simp only [scanRecords, htake, hhead, Nat.lt_irrefl, ↓reduceIte, hlength, ok_bind, hend, hwhole,
      hdecode, error_bind]
  rw [readLog, hlen]
  exact (congrArg (fun k => scanRecords k (frame.take n)) hm).trans hscan

/-- Fewer bytes than a header end the scan. -/
theorem readLog_short {part : Bytes} (h : part.length < frameHeaderSize) : readLog part = .ok [] := by
  unfold readLog
  cases part.length with
  | zero => rfl
  | succ n =>
    have hlen : (part.take frameHeaderSize).length < frameHeaderSize := by
      rw [List.length_take]
      omega
    simp only [scanRecords, hlen, ↓reduceIte]

/-- Fuel beyond the length of the file changes nothing. -/
private theorem scanRecords_fuel (n m : Nat) (bytes : Bytes) (hn : bytes.length ≤ n)
    (hm : bytes.length ≤ m) : scanRecords n bytes = scanRecords m bytes := by
  induction n generalizing m bytes with
  | zero =>
    obtain rfl : bytes = [] := List.length_eq_zero_iff.mp (by omega)
    cases m <;> rfl
  | succ n ih =>
    cases m with
    | zero =>
      obtain rfl : bytes = [] := List.length_eq_zero_iff.mp (by omega)
      rfl
    | succ m =>
      have hrest : ∀ k, scanRecords n (bytes.drop (frameHeaderSize + k)) =
          scanRecords m (bytes.drop (frameHeaderSize + k)) := by
        intro k
        apply ih <;> rw [List.length_drop, frameHeaderSize] <;> omega
      simp only [scanRecords, hrest]

/-- **Reading a log.** Whole frames come back as their records. -/
theorem readLog_append {records : List WalRecord} {bytes : Bytes}
    (h : encodeLog records = .ok bytes) (rest : Bytes) :
    readLog (bytes ++ rest) = (readLog rest).map (records ++ ·) := by
  induction records generalizing bytes with
  | nil =>
    obtain rfl : bytes = [] := by
      simp only [encodeLog, Except.ok.injEq] at h
      exact h.symm
    rw [List.nil_append]
    cases readLog rest <;> rfl
  | cons r records ih =>
    simp only [encodeLog, bind_eq_ok, Except.ok.injEq] at h
    obtain ⟨frame, hframe, bs, hbs, rfl⟩ := h
    have hle := (frame_header hframe []).2.2
    have hfuel : (frame ++ bs ++ rest).length = (frame ++ bs ++ rest).length - 1 + 1 := by
      simp only [List.length_append, frameHeaderSize] at hle ⊢
      omega
    rw [readLog, hfuel, List.append_assoc, scanRecords_frame hframe,
      scanRecords_fuel _ (bs ++ rest).length (bs ++ rest) ?_ (Nat.le_refl _)]
    · rw [← readLog, ih hbs]
      cases readLog rest <;> rfl
    · simp only [List.length_append, frameHeaderSize] at hle ⊢
      omega

theorem readLog_encodeLog {records : List WalRecord} {bytes : Bytes}
    (h : encodeLog records = .ok bytes) : readLog bytes = .ok records := by
  have hr := readLog_append h []
  rw [List.append_nil] at hr
  rw [hr, show readLog [] = .ok [] from rfl, Except.map, List.append_nil]

theorem encodeLog_append {records more : List WalRecord} {bytes : Bytes} :
    encodeLog (records ++ more) = .ok bytes ↔
      ∃ x y, encodeLog records = .ok x ∧ encodeLog more = .ok y ∧ bytes = x ++ y := by
  induction records generalizing bytes with
  | nil =>
    constructor
    · intro h
      exact ⟨[], bytes, rfl, h, rfl⟩
    · rintro ⟨_, y, h, hy, rfl⟩
      rw [encodeLog, Except.ok.injEq] at h
      rw [← h]
      exact hy
  | cons r records ih =>
    simp only [List.cons_append, encodeLog, bind_eq_ok, Except.ok.injEq, ih]
    constructor
    · rintro ⟨frame, hf, _, ⟨x, y, hx, hy, rfl⟩, rfl⟩
      exact ⟨frame ++ x, y, ⟨frame, hf, x, hx, rfl⟩, hy, by rw [List.append_assoc]⟩
    · rintro ⟨_, y, ⟨frame, hf, x, hx, rfl⟩, hy, rfl⟩
      exact ⟨frame, hf, x ++ y, ⟨x, y, hx, hy, rfl⟩, by rw [List.append_assoc]⟩

theorem encodeLog_singleton {r : WalRecord} {frame : Bytes} (h : encodeRecord r = .ok frame) :
    encodeLog [r] = .ok frame := by
  simp [encodeLog, h]

theorem encodeRecord_length_pos {r : WalRecord} {frame : Bytes}
    (h : encodeRecord r = .ok frame) : 0 < frame.length := by
  have hle := (frame_header h []).2.2
  rw [frameHeaderSize] at hle
  omega

/-- A frame is as long as its images and 35 bytes around them. -/
theorem encodeRecord_length {r : WalRecord} {frame : Bytes} (h : encodeRecord r = .ok frame) :
    frame.length = 35 + r.before.length + r.after.length := by
  obtain ⟨body, hbody, -, hf⟩ := encodeRecord_eq_ok.mp h
  obtain ⟨-, -, -, -, -, rfl⟩ := encodeBody_eq_ok.mp hbody
  rw [frame_length hf]
  simp only [frameHeaderSize, List.length_append, leBytes_length, List.length_singleton]
  omega

/-- The images of a record that can be encoded. -/
theorem encodeRecord_images {r : WalRecord} {frame : Bytes} (h : encodeRecord r = .ok frame) :
    r.before.length < 256 ^ 2 ∧ r.after.length < 256 ^ 2 := by
  obtain ⟨body, hbody, -, -⟩ := encodeRecord_eq_ok.mp h
  obtain ⟨-, -, -, hb, ha, -⟩ := encodeBody_eq_ok.mp hbody
  exact ⟨hb, ha⟩

/-- The number of a record says nothing about whether it can be encoded, while it is small. -/
theorem encodeRecord_lsn {r : WalRecord} {frame : Bytes} (h : encodeRecord r = .ok frame)
    {lsn : Nat} (hlsn : lsn < 256 ^ 4) :
    ∃ frame', encodeRecord { r with lsn := lsn } = .ok frame' := by
  obtain ⟨body, hbody, hlen, -⟩ := encodeRecord_eq_ok.mp h
  obtain ⟨-, h2, h3, h4, h5, rfl⟩ := encodeBody_eq_ok.mp hbody
  exact ⟨_, encodeRecord_eq_ok.mpr ⟨_, encodeBody_eq_ok.mpr ⟨hlsn, h2, h3, h4, h5, rfl⟩,
    by simpa using hlen, rfl⟩⟩

theorem encodeLog_eq_nil {records : List WalRecord} (h : encodeLog records = .ok []) :
    records = [] := by
  cases records with
  | nil => rfl
  | cons r records =>
    simp only [encodeLog, bind_eq_ok, Except.ok.injEq] at h
    obtain ⟨frame, hf, bs, -, he⟩ := h
    have hpos := encodeRecord_length_pos hf
    rw [(List.append_eq_nil_iff.mp he).1] at hpos
    cases hpos

/-- An append behind the last record. -/
theorem Wal.append_end {wal wal' : Wal} {records : List WalRecord} {bytes bytes' : Bytes}
    {kind : RecordKind} {txId pageId lsn : Nat} {before after : Bytes}
    (h : encodeLog records = .ok bytes) (ho : wal.offset = bytes.length)
    (ha : wal.append bytes kind txId pageId before after = .ok (lsn, wal', bytes')) :
    encodeLog (records ++ [⟨wal.nextLsn, txId, kind, pageId, before, after⟩]) = .ok bytes' ∧
      wal'.offset = bytes'.length ∧ wal'.nextLsn = wal.nextLsn + 1 := by
  simp only [append, appendRec, bind_eq_ok, Except.ok.injEq, Prod.mk.injEq] at ha
  obtain ⟨raw, hraw, -, rfl, rfl⟩ := ha
  have hbytes : writeAt bytes wal.offset raw = bytes ++ raw := by
    simpa using writeAt_append bytes [] raw wal.offset ho
  rw [hbytes]
  exact ⟨encodeLog_append.mpr ⟨_, _, h, encodeLog_singleton hraw, rfl⟩,
    by rw [List.length_append, ho], Nat.max_eq_right (Nat.le_succ _)⟩

end TinyDB
