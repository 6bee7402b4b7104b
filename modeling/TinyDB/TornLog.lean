import TinyDB.Statements
import TinyDB.Replay

/-!
# A log that was cut

A crash during an append leaves the whole frames and a part of the next one. The
scan stops quietly only inside the 16 bytes in front of a frame's body; behind them
the frame is decoded and found corrupt. `torn_log_iff`: the cut file is treated as
the log of its whole records exactly if fewer than 16 bytes follow the last of them.
-/

namespace TinyDB

open Lib FileStore

/-- The records that are whole within the first `n` bytes. -/
def wholeRecords : List WalRecord → Nat → List WalRecord
  | [], _ => []
  | r :: records, n =>
    match encodeRecord r with
    | .error _ => []
    | .ok frame => if frame.length ≤ n then r :: wholeRecords records (n - frame.length) else []

/-- The number of the first `n` bytes that lie behind the whole records. -/
def tornBytes : List WalRecord → Nat → Nat
  | [], _ => 0
  | r :: records, n =>
    match encodeRecord r with
    | .error _ => 0
    | .ok frame => if frame.length ≤ n then tornBytes records (n - frame.length) else n

/-- The file is treated as the log of the records: a `Wal` opened on it goes on behind them,
and replay redoes the transactions that have a COMMIT among them and undoes the others. -/
structure TreatedAs (bytes : Bytes) (records : List WalRecord) : Prop where
  opened : ∃ whole, encodeLog records = .ok whole ∧ Wal.openLog bytes = Wal.openLog whole
  same : ∀ store, replayWal (some bytes) store =
    replayRecords (committedTx records) records store
  replayed : ∀ store : FileStore, store.Readable →
    (∀ r ∈ records, r.kind = .mutate → r.pageId < store.file.length) →
    ∃ store', replayWal (some bytes) store = (.ok (), store') ∧
      ∀ p page, store.readPage p = .ok page → store'.readPage p = .ok { page with
        body := ((lastImage (committedTx records) p records).map fun image =>
          image.take store.bodySize).getD page.body }

/-! ## What is left of the file -/

/-- The cut falls behind whole frames, inside the next one or at the end. -/
theorem take_encodeLog {records : List WalRecord} {bytes : Bytes}
    (h : encodeLog records = .ok bytes) (n : Nat) :
    ∃ whole part, encodeLog (wholeRecords records n) = .ok whole ∧ bytes.take n = whole ++ part ∧
      part.length = tornBytes records n ∧
      (part = [] ∨ ∃ r frame, encodeRecord r = .ok frame ∧ part.length < frame.length ∧
        part = frame.take part.length) := by
  induction records generalizing bytes n with
  | nil =>
    cases h
    exact ⟨[], [], rfl, List.take_nil, rfl, Or.inl rfl⟩
  | cons r records ih =>
    simp only [encodeLog, bind_eq_ok, Except.ok.injEq] at h
    obtain ⟨frame, hframe, rest, hrest, rfl⟩ := h
    by_cases hle : frame.length ≤ n
    · obtain ⟨whole, part, hw, ht, hlen, hpart⟩ := ih hrest (n - frame.length)
      refine ⟨frame ++ whole, part, ?_, ?_, ?_, hpart⟩
      · simp only [wholeRecords, hframe, hle, ↓reduceIte, encodeLog, hw, ok_bind]
      · rw [List.take_append, List.take_of_length_le hle, ht, List.append_assoc]
      · simp only [tornBytes, hframe, hle, ↓reduceIte, hlen]
    · have hlt : n < frame.length := Nat.lt_of_not_le hle
      have htake : (frame ++ rest).take n = frame.take n :=
        List.take_append_of_le_length (Nat.le_of_lt hlt)
      have hn : (frame.take n).length = n := by rw [List.length_take]; omega
      refine ⟨[], frame.take n, ?_, htake, ?_, Or.inr ⟨r, frame, hframe, ?_, ?_⟩⟩
      · simp only [wholeRecords, hframe, hle, ↓reduceIte, encodeLog]
      · simp only [tornBytes, hframe, hle, ↓reduceIte, hn]
      · rw [hn]
        exact hlt
      · rw [hn]

/-- What the scan makes of the cut file. -/
theorem readLog_take {records : List WalRecord} {bytes : Bytes} (h : encodeLog records = .ok bytes)
    (n : Nat) : readLog (bytes.take n) =
      if tornBytes records n < frameHeaderSize then .ok (wholeRecords records n)
      else .error (.transactionLogCorrupt 0) := by
  obtain ⟨whole, part, hw, ht, hlen, hpart⟩ := take_encodeLog h n
  rw [ht, readLog_append hw, ← hlen]
  split
  · rename_i hlt
    rw [readLog_short hlt, Except.map, List.append_nil]
  · rename_i hge
    rcases hpart with rfl | ⟨r, frame, hframe, hlt, he⟩
    · exact absurd (by decide) hge
    · rw [he, readLog_torn hframe (Nat.le_of_not_lt hge) hlt]
      rfl

/-! ## Replay -/

/-- One pass leaves the last image of every page, as much of it as the page holds. -/
theorem replayRecords_images (committed : List Nat) (records : List WalRecord) {store : FileStore}
    (hs : store.Readable) (hsmall : ∀ r ∈ records, r.before.length < 256 ^ 2 ∧ r.after.length < 256 ^ 2)
    (hin : ∀ r ∈ records, r.kind = .mutate → r.pageId < store.file.length) :
    ∃ store', replayRecords committed records store = (.ok (), store') ∧
      ∀ p page, store.readPage p = .ok page → store'.readPage p = .ok { page with
        body := ((lastImage committed p records).map fun image =>
          image.take store.bodySize).getD page.body } := by
  induction records generalizing store with
  | nil => exact ⟨store, rfl, fun p page h => h⟩
  | cons r records ih =>
    have hrest : ∀ r' ∈ records, r'.before.length < 256 ^ 2 ∧ r'.after.length < 256 ^ 2 :=
      fun r' h => hsmall r' (List.mem_cons_of_mem _ h)
    by_cases hk : r.kind = .mutate
    · obtain ⟨page, hread, hid⟩ := hs.page r.pageId (hin r (List.mem_cons_self ..) hk)
      have himage : (if r.txId ∈ committed then r.after else r.before).length < 256 ^ 2 := by
        split
        · exact (hsmall r (List.mem_cons_self ..)).2
        · exact (hsmall r (List.mem_cons_self ..)).1
      obtain ⟨store1, hw⟩ := writePage_ok store
        { page with body := if r.txId ∈ committed then r.after else r.before }
        (readPage_bounds hread).1 (readPage_bounds hread).2 himage
      have hlt : page.pageId < store.file.length := by rw [hid]; exact readPage_lt hread
      have hsame := sameExcept_writePage hw hlt
      have hs1 := (writesOnly_writePage hs hread hw).readable
      have hback := readPage_writePage hw (Nat.le_of_lt hlt)
      have hb : store1.bodySize = store.bodySize := by simp only [bodySize, hsame.pageSize]
      obtain ⟨store', hrun, hspec⟩ := ih hs1 hrest fun r' h hk' => by
        rw [hsame.length]
        exact hin r' (List.mem_cons_of_mem _ h) hk'
      refine ⟨store', by simp only [replayRecords, hk, ↓reduceIte, hread, hw, hrun], ?_⟩
      intro p old hold
      by_cases hp : p = r.pageId
      · subst hp
        rw [hread, Except.ok.injEq] at hold
        subst hold
        rw [hspec _ _ (by rw [hback, if_pos hid.symm]), lastImage, hb]
        cases lastImage committed r.pageId records with
        | none => simp [hk]
        | some body => rfl
      · have hne : ¬ r.pageId = p := fun e => hp e.symm
        rw [hspec p old (by rw [hback, if_neg (by rw [hid]; exact hp)]; exact hold), lastImage, hb]
        cases lastImage committed p records with
        | none => simp [hne]
        | some body => rfl
    · obtain ⟨store', hrun, hspec⟩ := ih hs hrest fun r' h hk' =>
        hin r' (List.mem_cons_of_mem _ h) hk'
      refine ⟨store', by simp only [replayRecords, hk, ↓reduceIte, hrun], ?_⟩
      intro p page hread
      rw [hspec p page hread, lastImage]
      cases lastImage committed p records with
      | none => simp [hk]
      | some body => rfl

theorem encodeLog_small {records : List WalRecord} {bytes : Bytes}
    (h : encodeLog records = .ok bytes) :
    ∀ r ∈ records, r.before.length < 256 ^ 2 ∧ r.after.length < 256 ^ 2 := by
  induction records generalizing bytes with
  | nil => exact fun r hr => absurd hr List.not_mem_nil
  | cons r records ih =>
    simp only [encodeLog, bind_eq_ok, Except.ok.injEq] at h
    obtain ⟨frame, hframe, rest, hrest, rfl⟩ := h
    intro r' hr
    rcases List.mem_cons.mp hr with rfl | hr
    · exact encodeRecord_images hframe
    · exact ih hrest r' hr

/-- No record of a log in which nothing can be read makes replay say that the log is corrupt. -/
private theorem replayRecords_empty (committed : List Nat) (records : List WalRecord) :
    (replayRecords committed records ⟨[], 512, 0, 0⟩).1 ≠ .error (.transactionLogCorrupt 0) := by
  induction records with
  | nil => exact fun h => by cases h
  | cons r records ih =>
    have hread : (⟨[], 512, 0, 0⟩ : FileStore).readPage r.pageId = .error .structError := by
      have hraw : (⟨[], 512, 0, 0⟩ : FileStore).rawRead r.pageId = [] := by
        simp [rawRead]
      rw [readPage, hraw]
      rfl
    by_cases hk : r.kind = .mutate
    · simp only [replayRecords, hk, ↓reduceIte, hread]
      exact fun h => by cases h
    · simpa only [replayRecords, hk, ↓reduceIte] using ih

/-- **A torn log.** For every log and every byte it is cut at: the file is treated as the log
of the records that are whole if and only if the cut leaves fewer than 16 bytes, the size of
a frame's header, behind them. -/
theorem torn_log_iff (records : List WalRecord) (bytes : Bytes) (n : Nat)
    (h : encodeLog records = .ok bytes) :
    TreatedAs (bytes.take n) (wholeRecords records n) ↔ tornBytes records n < frameHeaderSize := by
  have hread := readLog_take h n
  obtain ⟨whole, part, hw, -⟩ := take_encodeLog h n
  constructor
  · intro ht
    by_contra hge
    rw [if_neg hge] at hread
    have hsame := ht.same ⟨[], 512, 0, 0⟩
    simp only [replayWal, hread] at hsame
    exact replayRecords_empty _ (wholeRecords records n) (congrArg Prod.fst hsame.symm)
  · intro hlt
    rw [if_pos hlt] at hread
    refine ⟨⟨whole, hw, ?_⟩, fun store => by simp only [replayWal, hread], ?_⟩
    · simp only [Wal.openLog, Wal.recoverNextLsn, hread, readLog_encodeLog hw]
    · intro store hs hin
      simp only [replayWal, hread]
      exact replayRecords_images _ _ hs (encodeLog_small hw) hin

def tornHistory : List WalRecord :=
  [⟨1, 1, .mutate, 1, [1], [2]⟩, ⟨2, 1, .txCommit, 0, [], []⟩, ⟨3, 2, .mutate, 1, [2], [3]⟩]

def tornFile : Bytes :=
  match encodeLog tornHistory with
  | .ok bytes => bytes
  | .error _ => []

/-- The third frame is cut in the middle of its header. -/
theorem torn_log_header : TreatedAs (tornFile.take 80) (wholeRecords tornHistory 80) :=
  (torn_log_iff tornHistory tornFile 80 (by decide +kernel)).mpr (by decide +kernel)

/-- The cut falls into the body of the second frame. -/
theorem torn_body_is_corrupt : ¬ ∀ (records : List WalRecord) (bytes : Bytes) (n : Nat),
    encodeLog records = .ok bytes → TreatedAs (bytes.take n) (wholeRecords records n) := by
  intro h
  have hsame := (h tornHistory tornFile 60 (by decide +kernel)).same ⟨[], 512, 0, 0⟩
  have hres := congrArg Prod.fst hsame
  have hcut : (replayWal (some (tornFile.take 60)) ⟨[], 512, 0, 0⟩).1 =
      .error (.transactionLogCorrupt 0) := by decide +kernel
  rw [hcut] at hres
  exact replayRecords_empty _ _ hres.symm

end TinyDB
