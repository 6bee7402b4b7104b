import TinyDB.Replay

/-!
# A log of finished transactions

A database logs the end of a transaction and never a page. The frames of such a
log have one size, so a `Wal` whose offset is not at the end of the file writes
a frame over a frame: however many objects write to the file, it stays a row of
frames and of gaps. Its replay writes nothing.
-/

namespace TinyDB

open Lib

/-- The size of a frame without images. -/
def endFrameSize : Nat := 35

/-- The frame of a commit or of a rollback. -/
def EndFrame (frame : Bytes) : Prop :=
  ∃ r, encodeRecord r = .ok frame ∧ r.kind ≠ .mutate ∧ r.before = [] ∧ r.after = []

/-- A write behind the end of the file leaves such a gap. -/
def Gap (frame : Bytes) : Prop := frame = zeros endFrameSize

/-- The file is a row of frames, where `gaps` allows them with gaps in between. -/
def EndLog (gaps : Prop) (bytes : Bytes) : Prop :=
  ∃ frames : List Bytes, bytes = frames.flatten ∧ ∀ f ∈ frames, EndFrame f ∨ gaps ∧ Gap f

theorem endLog_nil (gaps : Prop) : EndLog gaps [] := ⟨[], rfl, by simp⟩

theorem EndFrame.length {frame : Bytes} (h : EndFrame frame) : frame.length = endFrameSize := by
  obtain ⟨r, he, -, hb, ha⟩ := h
  rw [encodeRecord_length he, hb, ha]
  rfl

theorem length_of_frame {gaps : Prop} {frame : Bytes} (h : EndFrame frame ∨ gaps ∧ Gap frame) :
    frame.length = endFrameSize := by
  rcases h with h | ⟨-, h⟩
  · exact h.length
  · rw [h, zeros_length]

theorem flatten_length {n : Nat} {frames : List Bytes} (h : ∀ f ∈ frames, f.length = n) :
    frames.flatten.length = n * frames.length := by
  induction frames with
  | nil => rfl
  | cons g frames ih =>
    rw [List.flatten_cons, List.length_append, h g (List.mem_cons_self ..),
      ih fun f hf => h f (List.mem_cons_of_mem _ hf), List.length_cons, Nat.mul_succ, Nat.add_comm]

/-! ## Writing a frame -/

theorem zeros_flatten (n k : Nat) : (List.replicate k (zeros n)).flatten = zeros (n * k) := by
  induction k with
  | zero => rfl
  | succ k ih =>
    rw [List.replicate_succ, List.flatten_cons, ih, zeros, zeros, zeros, ← List.replicate_add,
      Nat.mul_succ, Nat.add_comm]

/-- A frame written at a multiple of its size takes the place of one frame. -/
theorem writeAt_flatten {n : Nat} {frames : List Bytes} {frame : Bytes}
    (h : ∀ f ∈ frames, f.length = n) (hf : frame.length = n) (k : Nat) :
    writeAt frames.flatten (n * k) frame = (pwritePage n frames k frame).flatten := by
  induction k generalizing frames with
  | zero =>
    cases frames with
    | nil => simp [writeAt, pwritePage, zeros]
    | cons g rest =>
      have hg := h g (List.mem_cons_self ..)
      have hdrop : (g ++ rest.flatten).drop frame.length = rest.flatten :=
        List.drop_left' (by rw [hg, hf])
      simp [writeAt, pwritePage, zeros, hdrop]
  | succ k ih =>
    cases frames with
    | nil =>
      have hgap := zeros_flatten n (k + 1)
      simp only [writeAt, pwritePage, List.flatten_nil, List.take_nil, List.length_nil,
        Nat.sub_zero, List.drop_nil, List.append_nil, List.nil_append, Nat.not_lt_zero,
        if_false, List.flatten_append, List.flatten_cons, hgap]
    | cons g rest =>
      have hg := h g (List.mem_cons_self ..)
      have hrest := ih fun f hm => h f (List.mem_cons_of_mem _ hm)
      have hoff : n * (k + 1) = g.length + n * k := by rw [hg, Nat.mul_succ, Nat.add_comm]
      have hcut : writeAt (g ++ rest.flatten) (n * (k + 1)) frame =
          g ++ writeAt rest.flatten (n * k) frame := by
        rw [hoff, writeAt, writeAt, List.take_length_add_append, List.length_append,
          Nat.add_sub_add_left, Nat.add_assoc, List.drop_length_add_append, List.append_assoc]
      have hset : pwritePage n (g :: rest) (k + 1) frame = g :: pwritePage n rest k frame := by
        simp only [pwritePage, List.length_cons, Nat.add_lt_add_iff_right, List.set_cons_succ,
          Nat.add_sub_add_right]
        split <;> rfl
      rw [List.flatten_cons, hcut, hset, List.flatten_cons, hrest]

theorem mem_pwritePage {n k : Nat} {frames : List Bytes} {frame f : Bytes}
    (h : f ∈ pwritePage n frames k frame) :
    f ∈ frames ∨ f = frame ∨ (f = zeros n ∧ frames.length < k) := by
  unfold pwritePage at h
  split at h
  · rcases List.mem_or_eq_of_mem_set h with h | h
    · exact Or.inl h
    · exact Or.inr (Or.inl h)
  · rw [List.mem_append, List.mem_append, List.mem_replicate, List.mem_singleton] at h
    rcases h with h | ⟨hne, h⟩ | h
    · exact Or.inl h
    · exact Or.inr (Or.inr ⟨h, by omega⟩)
    · exact Or.inr (Or.inl h)

/-- The offset of a `Wal` lies between two frames. -/
def Wal.BetweenFrames (wal : Wal) : Prop := ∃ k, wal.offset = endFrameSize * k

theorem betweenFrames_openLog (bytes : Bytes) : (Wal.openLog bytes).BetweenFrames := ⟨0, rfl⟩

/-- Logging the end of a transaction. Without a gap before the offset none is made. -/
theorem EndLog.append {gaps : Prop} {bytes bytes' : Bytes} (h : EndLog gaps bytes) {wal wal' : Wal}
    (hw : wal.BetweenFrames) {kind : RecordKind} {txId lsn : Nat} (hk : kind ≠ .mutate)
    (ha : wal.append bytes kind txId 0 [] [] = .ok (lsn, wal', bytes'))
    (hgap : gaps ∨ wal.offset ≤ bytes.length) :
    EndLog gaps bytes' ∧ wal'.BetweenFrames ∧ wal'.offset ≤ bytes'.length := by
  obtain ⟨frames, rfl, hframes⟩ := h
  obtain ⟨k, hoff⟩ := hw
  simp only [Wal.append, Wal.appendRec, bind_eq_ok, Except.ok.injEq, Prod.mk.injEq] at ha
  obtain ⟨raw, hraw, -, rfl, rfl⟩ := ha
  have hend : EndFrame raw := ⟨_, hraw, hk, rfl, rfl⟩
  have hsizes := fun f hf => length_of_frame (hframes f hf)
  rw [hoff, writeAt_flatten hsizes hend.length]
  have hall : ∀ f ∈ pwritePage endFrameSize frames k raw, EndFrame f ∨ gaps ∧ Gap f := by
    intro f hf
    rcases mem_pwritePage hf with hm | rfl | ⟨hz, hlt⟩
    · exact hframes f hm
    · exact Or.inl hend
    · refine Or.inr ⟨hgap.resolve_right fun hle => ?_, hz⟩
      rw [hoff, flatten_length hsizes] at hle
      have := Nat.le_of_mul_le_mul_left hle (by decide)
      omega
  refine ⟨⟨_, rfl, hall⟩, ⟨k + 1, ?_⟩, ?_⟩
  · simp only [hend.length]
    rfl
  · rw [flatten_length fun f hf => length_of_frame (hall f hf)]
    simp only [hend.length, ← Nat.mul_succ]
    refine Nat.mul_le_mul_left _ ?_
    unfold pwritePage
    split
    · rw [List.length_set]; omega
    · simp only [List.length_append, List.length_replicate, List.length_singleton]; omega

/-! ## Reading it back -/

/-- The scan raises at a gap. -/
theorem readLog_gap (rest : Bytes) : ∃ e, readLog (zeros endFrameSize ++ rest) = .error e := by
  have hfuel : (zeros endFrameSize ++ rest).length = (34 + rest.length) + 1 := by
    rw [List.length_append, zeros_length, endFrameSize]
    omega
  have htake : (zeros endFrameSize ++ rest).take frameHeaderSize = zeros frameHeaderSize := by
    rw [List.take_append_of_le_length (by decide)]
    decide
  have hlen : unpackUint 4 (slice (zeros frameHeaderSize) 8 12) = .ok 0 := by decide
  have hdec : decodeRecord (zeros frameHeaderSize) = .error (.transactionLogCorrupt 0) := by decide
  have hshort : ¬ (zeros frameHeaderSize).length < frameHeaderSize := by decide
  refine ⟨.transactionLogCorrupt 0, ?_⟩
  simp only [readLog, hfuel, scanRecords, htake, hshort, if_false, hlen, ok_bind, Nat.add_zero,
    hdec, error_bind]

/-- The log reads back as ends of transactions, or does not read because of a gap. -/
theorem readLog_endLog {gaps : Prop} {bytes : Bytes} (h : EndLog gaps bytes) :
    (gaps ∧ ∃ e, readLog bytes = .error e) ∨
      ∃ records, readLog bytes = .ok records ∧ ∀ r ∈ records, r.kind ≠ .mutate := by
  obtain ⟨frames, rfl, hframes⟩ := h
  induction frames with
  | nil => exact Or.inr ⟨[], rfl, by simp⟩
  | cons g rest ih =>
    rcases hframes g (List.mem_cons_self ..) with ⟨r, hr, hk, -, -⟩ | ⟨hgaps, hg⟩
    · have hread := readLog_append (encodeLog_singleton hr) rest.flatten
      rw [List.flatten_cons, hread]
      rcases ih fun f hf => hframes f (List.mem_cons_of_mem _ hf) with ⟨hgaps, e, he⟩ | ⟨rs, he, hrs⟩
      · exact Or.inl ⟨hgaps, e, by rw [he]; rfl⟩
      · refine Or.inr ⟨r :: rs, by rw [he]; rfl, ?_⟩
        intro r' hr'
        rcases List.mem_cons.mp hr' with rfl | hr'
        · exact hk
        · exact hrs r' hr'
    · rw [List.flatten_cons, hg]
      exact Or.inl ⟨hgaps, readLog_gap rest.flatten⟩

theorem replayRecords_ends (committed : List Nat) {records : List WalRecord}
    (h : ∀ r ∈ records, r.kind ≠ .mutate) (store : FileStore) :
    replayRecords committed records store = (.ok (), store) := by
  induction records with
  | nil => rfl
  | cons r records ih =>
    rw [replayRecords, if_neg (h r (List.mem_cons_self ..)),
      ih fun r hr => h r (List.mem_cons_of_mem _ hr)]

/-- **Replay writes nothing.** -/
theorem replayWal_endLog {gaps : Prop} {bytes : Bytes} (h : EndLog gaps bytes) (store : FileStore) :
    (replayWal (some bytes) store).2 = store := by
  rcases readLog_endLog h with ⟨-, e, he⟩ | ⟨records, he, hends⟩
  · simp only [replayWal, he]
  · simp only [replayWal, he, replayRecords_ends _ hends]

theorem openStore_endLog {gaps : Prop} {bytes : Bytes} (h : EndLog gaps bytes) {file : List Bytes}
    {pageSize : Nat} {store : FileStore}
    (ho : FileStore.openStore file (some bytes) pageSize = .ok store) :
    FileStore.openFile file pageSize = .ok store := by
  simp only [FileStore.openStore, bind_eq_ok] at ho
  obtain ⟨store', hfile, ho⟩ := ho
  have hrep := replayWal_endLog h store'
  split at ho
  · cases ho
  · rename_i hr
    rw [hr] at hrep
    rw [hfile, ← hrep, ← Except.ok.inj ho]

/-- A log without gaps is replayed and changes nothing. -/
theorem replayWal_noGaps {bytes : Bytes} (h : EndLog False bytes) (store : FileStore) :
    replayWal (some bytes) store = (.ok (), store) := by
  rcases readLog_endLog h with ⟨hf, -⟩ | ⟨records, he, hends⟩
  · exact hf.elim
  · simp only [replayWal, he, replayRecords_ends _ hends]

end TinyDB
