import Mathlib.Data.List.GetD
import TinyDB.Wal
import TinyDB.Lib.Run

/-!
# The log over many sessions

Any number of `Wal` objects are opened on one file, append to it, scan it and
are closed, in any order. `LogState` keeps beside the file the list of records
it should hold. The log stays faithful exactly as long as every append is made
through an object whose file offset stands at the end of the file: opening and
scanning leave the offset at the start.
-/

namespace TinyDB.Wal

open Lib

inductive LogOp where
  | openLog
  | append (object : Nat) (kind : RecordKind) (txId pageId : Nat) (before after : Bytes)
  | iterRecords (object : Nat)
  | close (object : Nat)
  deriving DecidableEq, Repr

structure LogState where
  bytes : Bytes
  /-- The `Wal` objects opened so far, `none` once closed. -/
  objects : List (Option Wal)
  /-- The records the file held at first, then those appended. -/
  records : List WalRecord
  /-- Every LSN assigned so far was above all the LSNs in the file. -/
  above : Bool
  deriving DecidableEq, Repr

/-- A file as it stands, no `Wal` opened on it. -/
def start (bytes : Bytes) (records : List WalRecord) : LogState := ⟨bytes, [], records, true⟩

namespace LogState

/-- The object behind a call; a call on a closed one raises. -/
def object? (st : LogState) (i : Nat) : Option Wal := (st.objects.getD i none)

def call (st : LogState) : LogOp → LogState
  | .openLog => { st with objects := st.objects ++ [some (Wal.openLog st.bytes)] }
  | .append i kind txId pageId before after =>
    match st.object? i with
    | none => st
    | some wal =>
      match wal.append st.bytes kind txId pageId before after with
      | .error _ => st
      | .ok (lsn, wal', bytes) =>
        { bytes := bytes
          objects := st.objects.set i (some wal')
          records := st.records ++ [⟨lsn, txId, kind, pageId, before, after⟩]
          above := st.above && st.records.all fun r => decide (r.lsn < lsn) }
  | .iterRecords i =>
    match st.object? i with
    | none => st
    | some wal => { st with objects := st.objects.set i (some (wal.iterRecords st.bytes).2) }
  | .close i => { st with objects := st.objects.set i none }

/-- A scan through any object on the file yields the records, and every LSN
assigned was above those in the file. -/
def Faithful (st : LogState) : Prop :=
  (∀ wal : Wal, (wal.iterRecords st.bytes).1 = .ok st.records) ∧ st.above = true

/-- An append, unless its record cannot be encoded, stands at the end of the file. -/
def AtEnd (st : LogState) : LogOp → Prop
  | .append i kind txId pageId before after =>
    ∀ wal ∈ st.object? i,
      (encodeRecord ⟨wal.nextLsn, txId, kind, pageId, before, after⟩).isOk = true →
        wal.offset = st.bytes.length
  | _ => True

instance (st : LogState) (op : LogOp) : Decidable (st.AtEnd op) := by
  cases op <;> (unfold AtEnd; infer_instance)

/-! ## The invariant -/

/-- The offset of an object lies between two frames, and an object at the end of
the file would assign an LSN above all those in the file. -/
private structure Placed (bytes : Bytes) (records : List WalRecord) (wal : Wal) : Prop where
  between : ∃ front back x y, records = front ++ back ∧ encodeLog front = .ok x ∧
    encodeLog back = .ok y ∧ bytes = x ++ y ∧ wal.offset = x.length
  next : wal.offset = bytes.length → ∀ r ∈ records, r.lsn < wal.nextLsn

private structure Inv (st : LogState) : Prop where
  encoded : encodeLog st.records = .ok st.bytes
  above : st.above = true
  placed : ∀ i wal, st.object? i = some wal → Placed st.bytes st.records wal

private theorem Inv.faithful {st : LogState} (h : Inv st) : st.Faithful :=
  ⟨fun _ => readLog_encodeLog h.encoded, h.above⟩

private theorem placed_start {bytes : Bytes} {records : List WalRecord} {wal : Wal}
    (h : encodeLog records = .ok bytes) (ho : wal.offset = 0) : Placed bytes records wal where
  between := ⟨[], records, [], bytes, rfl, rfl, h, rfl, ho⟩
  next := by
    intro he r hr
    obtain rfl : bytes = [] := List.length_eq_zero_iff.mp (by omega)
    rw [encodeLog_eq_nil h] at hr
    cases hr

/-- After an assignment an object is the new one or was there before. -/
private theorem object?_set {objects : List (Option Wal)} {i j : Nat} {o : Option Wal} {wal : Wal}
    (h : (objects.set i o).getD j none = some wal) :
    o = some wal ∨ objects.getD j none = some wal := by
  rw [List.getD_eq_getElem?_getD, List.getElem?_set] at h
  split at h
  · split at h
    · exact Or.inl h
    · cases h
  · exact Or.inr h

private theorem openLog_inv {st : LogState} (h : Inv st) : Inv (st.call .openLog) where
  encoded := h.encoded
  above := h.above
  placed := by
    intro i wal hi
    rcases Nat.lt_or_ge i st.objects.length with hlt | hge
    · refine h.placed i wal ?_
      rw [object?, ← hi, object?, call, List.getD_append _ _ _ _ hlt]
    · rw [object?, call, List.getD_append_right _ _ _ _ hge, List.getD_eq_getElem?_getD] at hi
      refine placed_start h.encoded ?_
      rcases Nat.eq_or_lt_of_le (Nat.zero_le (i - st.objects.length)) with he | hgt
      · rw [← he] at hi
        cases hi
        rfl
      · rw [List.getElem?_eq_none (by rw [List.length_singleton]; omega)] at hi
        cases hi

private theorem set_inv {st : LogState} (h : Inv st) (i : Nat) {o : Option Wal}
    (ho : ∀ wal, o = some wal → wal.offset = 0) :
    Inv { st with objects := st.objects.set i o } where
  encoded := h.encoded
  above := h.above
  placed := by
    intro j wal hj
    rcases object?_set hj with he | hold
    · exact placed_start h.encoded (ho wal he)
    · exact h.placed j wal hold

private theorem append_eq_ok {wal : Wal} (bytes : Bytes) {bytes' before after : Bytes}
    {kind : RecordKind} {txId pageId lsn : Nat} {wal' : Wal} :
    wal.append bytes kind txId pageId before after = .ok (lsn, wal', bytes') ↔
      ∃ raw, encodeRecord ⟨wal.nextLsn, txId, kind, pageId, before, after⟩ = .ok raw ∧
        lsn = wal.nextLsn ∧ wal' = ⟨wal.offset + raw.length, wal.nextLsn + 1⟩ ∧
        bytes' = writeAt bytes wal.offset raw := by
  simp only [append, appendRec, bind_eq_ok, Except.ok.injEq, Prod.mk.injEq, Nat.max_eq_right
    (Nat.le_succ _)]
  constructor
  · rintro ⟨raw, hraw, rfl, rfl, rfl⟩
    exact ⟨raw, hraw, rfl, rfl, rfl⟩
  · rintro ⟨raw, hraw, rfl, rfl, rfl⟩
    exact ⟨raw, hraw, rfl, rfl, rfl⟩

private theorem call_append {st : LogState} {i : Nat} {wal : Wal} {kind : RecordKind}
    {txId pageId : Nat} {before after raw : Bytes} (hobj : st.object? i = some wal)
    (hraw : encodeRecord ⟨wal.nextLsn, txId, kind, pageId, before, after⟩ = .ok raw) :
    st.call (.append i kind txId pageId before after) =
      { bytes := writeAt st.bytes wal.offset raw
        objects := st.objects.set i (some ⟨wal.offset + raw.length, wal.nextLsn + 1⟩)
        records := st.records ++ [⟨wal.nextLsn, txId, kind, pageId, before, after⟩]
        above := st.above && st.records.all fun r => decide (r.lsn < wal.nextLsn) } := by
  have ha := (append_eq_ok st.bytes).mpr ⟨raw, hraw, rfl, rfl, rfl⟩
  simp only [call, hobj, ha]

private theorem append_inv {st : LogState} (h : Inv st) {i : Nat} {wal : Wal} {kind : RecordKind}
    {txId pageId : Nat} {before after raw : Bytes} (hobj : st.object? i = some wal)
    (hraw : encodeRecord ⟨wal.nextLsn, txId, kind, pageId, before, after⟩ = .ok raw)
    (hend : wal.offset = st.bytes.length) :
    Inv (st.call (.append i kind txId pageId before after)) := by
  have hnext := (h.placed i wal hobj).next hend
  have hpos := encodeRecord_length_pos hraw
  have hbytes : writeAt st.bytes wal.offset raw = st.bytes ++ raw := by
    simpa using writeAt_append st.bytes [] raw wal.offset hend
  have hone := encodeLog_singleton hraw
  rw [call_append hobj hraw, hbytes]
  refine ⟨encodeLog_append.mpr ⟨_, _, h.encoded, hone, rfl⟩, ?_, ?_⟩
  · simp only [h.above, Bool.true_and, List.all_eq_true, decide_eq_true_eq]
    exact hnext
  · intro j other hj
    rcases object?_set hj with he | hold
    · obtain rfl := Option.some.inj he
      refine ⟨⟨_, [], _, [], (List.append_nil _).symm, encodeLog_append.mpr ⟨_, _, h.encoded, hone,
        rfl⟩, rfl, (List.append_nil _).symm, by rw [hend, List.length_append]⟩, ?_⟩
      intro _ r hr
      rcases List.mem_append.mp hr with hin | hlast
      · exact Nat.lt_succ_of_lt (hnext r hin)
      · rw [List.mem_singleton.mp hlast]
        exact Nat.lt_succ_self _
    · obtain ⟨front, back, x, y, hrec, hx, hy, hb, ho⟩ := (h.placed j other hold).between
      refine ⟨⟨front, back ++ [_], x, y ++ raw, ?_, hx, encodeLog_append.mpr ⟨_, _, hy, hone, rfl⟩,
        ?_, ho⟩, ?_⟩
      · rw [hrec, List.append_assoc]
      · rw [hb, List.append_assoc]
      · intro he
        -- the file has grown past the offset of every other object
        simp only [hb, List.length_append] at he
        omega

/-- An append before the end overwrites the record it stands on. -/
private theorem append_breaks {st : LogState} (h : Inv st) {i : Nat} {wal : Wal}
    {kind : RecordKind} {txId pageId : Nat} {before after raw : Bytes}
    (hobj : st.object? i = some wal)
    (hraw : encodeRecord ⟨wal.nextLsn, txId, kind, pageId, before, after⟩ = .ok raw)
    (hend : wal.offset ≠ st.bytes.length) :
    ¬ (st.call (.append i kind txId pageId before after)).Faithful := by
  obtain ⟨front, back, x, y, hrec, hx, hy, hb, ho⟩ := (h.placed i wal hobj).between
  rw [call_append hobj hraw]
  rintro ⟨hread, habove⟩
  cases back with
  | nil =>
    simp only [encodeLog, Except.ok.injEq] at hy
    rw [hb, ← hy, List.append_nil] at hend
    exact hend ho
  | cons r back =>
    have hlt : r.lsn < wal.nextLsn := by
      simp only [h.above, Bool.true_and, List.all_eq_true, decide_eq_true_eq] at habove
      exact habove r (by simp [hrec])
    have hlog : encodeLog (front ++ [⟨wal.nextLsn, txId, kind, pageId, before, after⟩]) =
        .ok (x ++ raw) := encodeLog_append.mpr ⟨_, _, hx, encodeLog_singleton hraw, rfl⟩
    have hscan := hread wal
    simp only [iterRecords, hb, writeAt_append x y raw wal.offset ho, ← List.append_assoc,
      readLog_append hlog] at hscan
    cases hrest : readLog (y.drop raw.length) with
    | error e =>
      rw [hrest] at hscan
      cases hscan
    | ok more =>
      rw [hrest] at hscan
      simp only [Except.map, hrec, List.append_assoc, Except.ok.injEq, List.append_cancel_left_eq,
        List.cons_append, List.cons.injEq] at hscan
      rw [← hscan.1] at hlt
      exact Nat.lt_irrefl _ hlt

private theorem step_inv {st : LogState} {op : LogOp} (h : Inv st) (hk : st.AtEnd op) :
    Inv (st.call op) := by
  cases op with
  | openLog => exact openLog_inv h
  | append i kind txId pageId before after =>
    cases hobj : st.object? i with
    | none => simpa only [call, hobj] using h
    | some wal =>
      cases hraw : encodeRecord ⟨wal.nextLsn, txId, kind, pageId, before, after⟩ with
      | error e => simpa only [call, hobj, append, appendRec, hraw, error_bind] using h
      | ok raw => exact append_inv h hobj hraw (hk wal hobj (by rw [hraw]; rfl))
  | iterRecords i =>
    cases hobj : st.object? i with
    | none => simpa only [call, hobj] using h
    | some wal =>
      simp only [call, hobj]
      refine set_inv h i ?_
      rintro _ ⟨rfl⟩
      rfl
  | close i =>
    refine set_inv h i ?_
    rintro _ ⟨⟩

private theorem step_breaks {st : LogState} {op : LogOp} (h : Inv st) (hk : ¬ st.AtEnd op) :
    ¬ (st.call op).Faithful := by
  cases op with
  | append i kind txId pageId before after =>
    simp only [AtEnd, not_forall] at hk
    obtain ⟨wal, hobj, hok, hend⟩ := hk
    cases hraw : encodeRecord ⟨wal.nextLsn, txId, kind, pageId, before, after⟩ with
    | error e =>
      rw [hraw] at hok
      cases hok
    | ok raw => exact append_breaks h hobj hraw hend
  | openLog => exact absurd trivial hk
  | iterRecords i => exact absurd trivial hk
  | close i => exact absurd trivial hk

end LogState

/-! ## Runs -/

/-- **A log keeps all its records exactly as long as every append stands at the
end of the file.** -/
theorem log_faithful_iff (records : List WalRecord) (bytes : Bytes) (ops : List LogOp)
    (hlog : encodeLog records = .ok bytes) :
    Reached LogState.call LogState.Faithful (start bytes records) ops ↔
      Along LogState.call LogState.AtEnd (start bytes records) ops := by
  have hstart : LogState.Inv (start bytes records) := by
    refine ⟨hlog, rfl, ?_⟩
    intro i wal hi
    cases hi
  exact reached_iff_along (L := fun _ _ => True) LogState.Inv (fun _ h => h.faithful)
    (fun _ _ h _ hk => LogState.step_inv h hk) (fun _ _ h _ hk => LogState.step_breaks h hk)
    hstart (Along.trivial _ _)

/-- One session on an empty file, of records of different sizes, keeps them all. -/
theorem log_faithful_first_session :
    Reached LogState.call LogState.Faithful (start [] [])
      [.openLog, .append 0 .mutate 1 2 [1] [2, 3], .append 0 .txCommit 1 0 [] [], .close 0,
        .openLog, .iterRecords 1] :=
  (log_faithful_iff [] [] _ rfl).mpr (by decide +kernel)

/-- A second session writes its first record over the first one in the file. -/
theorem log_second_session_overwrites :
    ¬ Reached LogState.call LogState.Faithful (start [] [])
      [.openLog, .append 0 .txCommit 1 0 [] [], .close 0, .openLog,
        .append 1 .txCommit 2 0 [] []] := by
  intro h
  have hread := (h.last).1 ⟨0, 1⟩
  revert hread
  decide +kernel

end TinyDB.Wal
