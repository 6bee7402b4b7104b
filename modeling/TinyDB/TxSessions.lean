import TinyDB.Database
import TinyDB.Lib.Run

/-!
# Transaction ids over many sessions

`TxManager` counts from 1 in every session, while the log keeps the records of the
sessions before. `fresh_ids_iff`: no `begin` returns an id that a record in the log
has, exactly as long as the first `begin` of every session finds the log empty.
-/

namespace TinyDB

open Lib

/-- The calls of a session on a `TxManager` and its `Wal`. -/
inductive TxCall where
  | openSession
  | begin
  | commit (txId : Nat)
  | rollback (txId : Nat)
  /-- A MUTATE record for the active transaction. -/
  | mutate (pageId : Nat) (before after : Bytes)
  | close
  deriving DecidableEq, Repr

/-- The log file, what the open session holds, and what it found in the log. -/
structure TxLog where
  bytes : Bytes
  session : Option (TxManager × Wal)
  found : Bytes

/-- No session yet, an empty log. -/
def TxLog.start : TxLog := ⟨[], none, []⟩

namespace TxLog

def activeId (tx : TxManager) : Option Nat := (tx.txs.values.find? TxState.active).map TxState.txId

def finish (st : TxLog) (kind : RecordKind) (txId : Nat) : TxLog :=
  match st.session with
  | none => st
  | some (tx, wal) =>
    match tx.finish wal st.bytes kind txId with
    | .error _ => st
    | .ok (tx, wal, bytes) => { st with bytes := bytes, session := some (tx, wal) }

/-- One call; one that raises changes nothing. -/
def call (st : TxLog) : TxCall → TxLog
  | .openSession => 
    { st with session := some (TxManager.new, Wal.openLog st.bytes), found := st.bytes }
  | .begin =>
    match st.session with
    | none => st
    | some (tx, wal) =>
      match tx.begin with
      | .error _ => st
      | .ok (_, tx) => { st with session := some (tx, wal) }
  | .commit txId => st.finish .txCommit txId
  | .rollback txId => st.finish .txRollback txId
  | .mutate pageId before after =>
    match st.session with
    | none => st
    | some (tx, wal) =>
      match activeId tx with
      | none => st
      | some txId =>
        match wal.append st.bytes .mutate txId pageId before after with
        | .error _ => st
        | .ok (_, wal, bytes) => { st with bytes := bytes, session := some (tx, wal) }
  | .close => { st with session := none }

/-- A whole record of the log has the id. -/
def Occurs (bytes : Bytes) (txId : Nat) : Prop :=
  ∃ front r whole rest, encodeLog (front ++ [r]) = .ok whole ∧ bytes = whole ++ rest ∧ r.txId = txId

/-- The id that a `begin` returns is in no record of the log. -/
def FreshId (st : TxLog) (c : TxCall) : Prop :=
  c = .begin → ∀ tx wal, st.session = some (tx, wal) → ∀ id tx', tx.begin = .ok (id, tx') →
    ¬ Occurs st.bytes id

/-- A COMMIT ends no transaction that an earlier session left in the log. -/
def OwnCommit (st : TxLog) (c : TxCall) : Prop :=
  ∀ txId, c = .commit txId → ∀ tx wal, st.session = some (tx, wal) →
    tx.checkTx txId = .ok () → ¬ Occurs st.found txId

/-- The first `begin` of a session finds the log empty. -/
def BeginsEmpty (st : TxLog) (c : TxCall) : Prop :=
  c = .begin → ∀ s ∈ st.session, s.1.nextTxId = 1 → st.bytes = []

instance (st : TxLog) (c : TxCall) : Decidable (st.BeginsEmpty c) := by
  unfold BeginsEmpty
  infer_instance

/-! ## The invariant -/

/-- A session that began a transaction, on the log that it found empty. -/
structure Began (records : List WalRecord) (st : TxLog) (tx : TxManager) (wal : Wal) : Prop where
  found : st.found = []
  next : 1 < tx.nextTxId
  offset : wal.offset = st.bytes.length
  below : ∀ r ∈ records, r.txId < tx.nextTxId
  known : ∀ k s, tx.txs.get? k = some s → s.txId = k ∧ k < tx.nextTxId
  /-- Before the first record there is the first transaction, and it is active. -/
  first : records = [] → tx.anyActive = true ∧ ∀ k s, tx.txs.get? k = some s → k = 1

/-- What the records of the log, from the first on, say of the open session. -/
structure Inv (st : TxLog) (records : List WalRecord) : Prop where
  encoded : encodeLog records = .ok st.bytes
  head : ∀ r ∈ records.head?, r.txId = 1
  session : ∀ tx wal, st.session = some (tx, wal) →
    (tx = TxManager.new ∧ wal.offset = 0 ∧ st.found = st.bytes) ∨ Began records st tx wal

variable {st : TxLog} {records : List WalRecord}

theorem occurs_iff {bytes : Bytes} (h : encodeLog records = .ok bytes) (txId : Nat) :
    Occurs bytes txId ↔ ∃ r ∈ records, r.txId = txId := by
  constructor
  · rintro ⟨front, r, whole, rest, hw, hb, hid⟩
    have hread := readLog_append hw rest
    rw [← hb, readLog_encodeLog h] at hread
    cases hrest : readLog rest with
    | error e =>
      rw [hrest] at hread
      cases hread
    | ok more =>
      rw [hrest, Except.map, Except.ok.injEq] at hread
      exact ⟨r, by rw [hread]; simp, hid⟩
  · rintro ⟨r, hr, hid⟩
    obtain ⟨front, back, rfl⟩ := List.append_of_mem hr
    have hsplit : front ++ r :: back = (front ++ [r]) ++ back := by simp
    rw [hsplit, encodeLog_append] at h
    obtain ⟨whole, rest, hw, -, hb⟩ := h
    exact ⟨front, r, whole, rest, hw, hb, hid⟩

theorem not_occurs_nil (txId : Nat) : ¬ Occurs [] txId := by
  have hnil : encodeLog [] = .ok [] := rfl
  rw [occurs_iff hnil]
  rintro ⟨r, hr, -⟩
  cases hr

private theorem head_snoc {r : WalRecord} (hhead : ∀ r ∈ records.head?, r.txId = 1)
    (hnil : records = [] → r.txId = 1) : ∀ r' ∈ (records ++ [r]).head?, r'.txId = 1 := by
  cases records with
  | nil =>
    intro r' hr
    obtain rfl : r = r' := by simpa using hr
    exact hnil rfl
  | cons first rest => exact hhead

private theorem Began.of_eq {st' : TxLog} {tx : TxManager} {wal : Wal}
    (h : Began records st tx wal) (hbytes : st'.bytes = st.bytes) (hfound : st'.found = st.found) :
    Began records st' tx wal :=
  ⟨hfound.trans h.found, h.next, by rw [hbytes]; exact h.offset, h.below, h.known, h.first⟩

/-- The ids that `_check_tx` lets through, in a session that began a transaction. -/
private theorem Began.checked {tx : TxManager} {wal : Wal} (h : Began records st tx wal)
    {txId : Nat} {s : TxState} (hget : tx.txs.get? txId = some s) :
    txId < tx.nextTxId ∧ (records = [] → txId = 1) :=
  ⟨(h.known txId s hget).2, fun hnil => (h.first hnil).2 txId s hget⟩

private theorem checkTx_new (txId : Nat) : TxManager.new.checkTx txId ≠ .ok () := by
  intro h
  cases h

theorem checkTx_ok {tx : TxManager} {txId : Nat} (h : tx.checkTx txId = .ok ()) :
    ∃ s, tx.txs.get? txId = some s := by
  cases hg : tx.txs.get? txId with
  | none =>
    simp only [TxManager.checkTx, hg] at h
    cases h
  | some s => exact ⟨s, rfl⟩

/-- The active transaction has an entry under its id. -/
private theorem Began.activeId {tx : TxManager} {wal : Wal} (h : Began records st tx wal)
    {txId : Nat} (ha : activeId tx = some txId) : ∃ s, tx.txs.get? txId = some s := by
  obtain ⟨s, hfind, rfl⟩ := Option.map_eq_some_iff.mp ha
  obtain ⟨k, hk⟩ := OrdDict.mem_values.mp (List.mem_of_find?_eq_some hfind)
  have hget := (OrdDict.get?_eq_some_iff _ _ _).mpr hk
  exact ⟨s, by rw [(h.known k s hget).1]; exact hget⟩

/-! ## One call -/

theorem inv_openSession (h : Inv st records) : Inv (st.call .openSession) records where
  encoded := h.encoded
  head := h.head
  session := by
    intro tx wal he
    simp only [call, Option.some.injEq, Prod.mk.injEq] at he
    obtain ⟨rfl, rfl⟩ := he
    exact Or.inl ⟨rfl, rfl, rfl⟩

theorem inv_close (h : Inv st records) : Inv (st.call .close) records where
  encoded := h.encoded
  head := h.head
  session := by
    intro tx wal he
    cases he

private theorem anyActive_begun (tx : TxManager) :
    (⟨tx.txs.set tx.nextTxId ⟨tx.nextTxId, true⟩, tx.nextTxId + 1⟩ : TxManager).anyActive =
      true := by
  have hmem : (⟨tx.nextTxId, true⟩ : TxState) ∈
      (tx.txs.set tx.nextTxId ⟨tx.nextTxId, true⟩).values :=
    OrdDict.mem_values.mpr ⟨tx.nextTxId, (OrdDict.get?_eq_some_iff _ _ _).mp (by
      rw [OrdDict.get?_set, if_pos rfl])⟩
  exact List.any_eq_true.mpr ⟨_, hmem, rfl⟩

private theorem began_first {wal : Wal} (hfound : st.found = []) (ho : wal.offset = 0)
    (hbytes : st.bytes = []) :
    Began [] st ⟨TxManager.new.txs.set 1 ⟨1, true⟩, 2⟩ wal where
  found := hfound
  next := by decide
  offset := by rw [ho, hbytes]; rfl
  below := by
    intro r hr
    cases hr
  known := by
    intro k s hget
    rw [OrdDict.get?_set] at hget
    split at hget
    · rename_i hk
      obtain rfl := Option.some.inj hget
      exact ⟨hk, by rw [← hk]; decide⟩
    · cases hget
  first := by
    refine fun _ => ⟨anyActive_begun TxManager.new, fun k s hget => ?_⟩
    rw [OrdDict.get?_set] at hget
    split at hget
    · rename_i hk
      exact hk.symm
    · cases hget

/-- A later `begin` of the session: it raises before the first record is there. -/
private theorem Began.again {tx : TxManager} {wal : Wal} (h : Began records st tx wal)
    (hidle : ¬ tx.anyActive = true) :
    Began records st ⟨tx.txs.set tx.nextTxId ⟨tx.nextTxId, true⟩, tx.nextTxId + 1⟩ wal where
  found := h.found
  next := Nat.lt_succ_of_lt h.next
  offset := h.offset
  below := fun r hr => Nat.lt_succ_of_lt (h.below r hr)
  known := by
    intro k s hget
    rw [OrdDict.get?_set] at hget
    split at hget
    · rename_i hk
      obtain rfl := Option.some.inj hget
      exact ⟨hk, by rw [← hk]; exact Nat.lt_succ_self _⟩
    · exact ⟨(h.known k s hget).1, Nat.lt_succ_of_lt (h.known k s hget).2⟩
  first := fun hnil => absurd (h.first hnil).1 hidle

theorem inv_begin (h : Inv st records) (hempty : st.BeginsEmpty .begin) :
    Inv (st.call .begin) records := by
  cases hs : st.session with
  | none => simpa only [call, hs] using h
  | some s =>
    obtain ⟨tx, wal⟩ := s
    by_cases hidle : tx.anyActive = true
    · have hb : tx.begin = .error .transactionAlreadyActive := if_pos hidle
      simpa only [call, hs, hb] using h
    · have hb : tx.begin = .ok (tx.nextTxId,
          ⟨tx.txs.set tx.nextTxId ⟨tx.nextTxId, true⟩, tx.nextTxId + 1⟩) := if_neg hidle
      simp only [call, hs, hb]
      refine ⟨h.encoded, h.head, fun tx' wal' he => Or.inr ?_⟩
      rw [Option.some.injEq, Prod.mk.injEq] at he
      obtain ⟨rfl, rfl⟩ := he
      rcases h.session tx wal hs with ⟨rfl, ho, hfound⟩ | hbegan
      · have hnil : st.bytes = [] := hempty rfl (TxManager.new, wal) hs rfl
        have hrec : records = [] := encodeLog_eq_nil (by rw [← hnil]; exact h.encoded)
        subst hrec
        exact (began_first (hfound.trans hnil) ho hnil).of_eq rfl rfl
      · exact (hbegan.again hidle).of_eq rfl rfl

/-- A record of a transaction that the session knows. -/
private theorem Began.append {tx tx' : TxManager} {wal wal' : Wal} {bytes' : Bytes}
    {kind : RecordKind} {txId pageId lsn : Nat} {before after : Bytes} {s : TxState}
    (h : Inv st records) (hbegan : Began records st tx wal) (hget : tx.txs.get? txId = some s)
    (ha : wal.append st.bytes kind txId pageId before after = .ok (lsn, wal', bytes'))
    (hnext : tx'.nextTxId = tx.nextTxId)
    (hsub : ∀ k s, tx'.txs.get? k = some s → tx.txs.get? k = some s) :
    ∃ records', Inv { st with bytes := bytes', session := some (tx', wal') } records' := by
  obtain ⟨henc, ho, -⟩ := Wal.append_end h.encoded hbegan.offset ha
  refine ⟨_, henc, head_snoc h.head (hbegan.checked hget).2, fun tx1 wal1 he => Or.inr ?_⟩
  rw [Option.some.injEq, Prod.mk.injEq] at he
  obtain ⟨rfl, rfl⟩ := he
  refine ⟨hbegan.found, by rw [hnext]; exact hbegan.next, ho, fun r' hr' => ?_,
    fun k s hk => ?_, fun hnil => absurd hnil (by simp)⟩
  · rw [hnext]
    rcases List.mem_append.mp hr' with hold | hnew
    · exact hbegan.below r' hold
    · rw [List.mem_singleton.mp hnew]
      exact (hbegan.checked hget).1
  · rw [hnext]
    exact hbegan.known k s (hsub k s hk)

theorem inv_finish (h : Inv st records) (kind : RecordKind) (txId : Nat) :
    ∃ records', Inv (st.finish kind txId) records' := by
  cases hs : st.session with
  | none => exact ⟨records, by simpa only [finish, hs] using h⟩
  | some s =>
    obtain ⟨tx, wal⟩ := s
    cases hf : tx.finish wal st.bytes kind txId with
    | error e => exact ⟨records, by simpa only [finish, hs, hf] using h⟩
    | ok r =>
      obtain ⟨tx', wal', bytes'⟩ := r
      simp only [finish, hs, hf]
      simp only [TxManager.finish, bind_eq_ok, Except.ok.injEq, Prod.mk.injEq] at hf
      obtain ⟨⟨⟩, hcheck, ⟨lsn, wal1, bytes1⟩, happ, rfl, rfl, rfl⟩ := hf
      rcases h.session tx wal hs with ⟨rfl, -⟩ | hbegan
      · exact absurd hcheck (checkTx_new txId)
      · obtain ⟨s, hget⟩ := checkTx_ok hcheck
        refine Began.append h hbegan hget happ rfl fun k s hk => ?_
        rw [OrdDict.get?_erase] at hk
        split at hk
        · cases hk
        · exact hk

theorem inv_mutate (h : Inv st records) (pageId : Nat) (before after : Bytes) :
    ∃ records', Inv (st.call (.mutate pageId before after)) records' := by
  cases hs : st.session with
  | none => exact ⟨records, by simpa only [call, hs] using h⟩
  | some s =>
    obtain ⟨tx, wal⟩ := s
    cases hid : activeId tx with
    | none => exact ⟨records, by simpa only [call, hs, hid] using h⟩
    | some txId =>
      cases happ : wal.append st.bytes .mutate txId pageId before after with
      | error e => exact ⟨records, by simpa only [call, hs, hid, happ] using h⟩
      | ok r =>
        obtain ⟨lsn, wal', bytes'⟩ := r
        simp only [call, hs, hid, happ]
        rcases h.session tx wal hs with ⟨rfl, -⟩ | hbegan
        · cases hid
        · obtain ⟨s, hget⟩ := hbegan.activeId hid
          exact Began.append h hbegan hget happ rfl fun _ _ hk => hk

theorem inv_call (h : ∃ records, Inv st records) (c : TxCall) (hempty : st.BeginsEmpty c) :
    ∃ records, Inv (st.call c) records := by
  obtain ⟨records, h⟩ := h
  cases c with
  | openSession => exact ⟨records, inv_openSession h⟩
  | begin => exact ⟨records, inv_begin h hempty⟩
  | commit txId => exact inv_finish h .txCommit txId
  | rollback txId => exact inv_finish h .txRollback txId
  | mutate pageId before after => exact inv_mutate h pageId before after
  | close => exact ⟨records, inv_close h⟩

/-! ## Ids -/

theorem freshId_of_beginsEmpty (h : Inv st records) {c : TxCall} (hempty : st.BeginsEmpty c) :
    st.FreshId c := by
  rintro rfl tx wal hs id tx' hb
  rw [occurs_iff h.encoded]
  rintro ⟨r, hr, hid⟩
  simp only [TxManager.begin] at hb
  split at hb
  · cases hb
  · rw [Except.ok.injEq, Prod.mk.injEq] at hb
    obtain ⟨rfl, -⟩ := hb
    rcases h.session tx wal hs with ⟨rfl, -⟩ | hbegan
    · have hnil : st.bytes = [] := hempty rfl (TxManager.new, wal) hs rfl
      obtain rfl : records = [] := encodeLog_eq_nil (by rw [← hnil]; exact h.encoded)
      cases hr
    · exact absurd (hbegan.below r hr) (by omega)

theorem ownCommit (h : Inv st records) (c : TxCall) : st.OwnCommit c := by
  rintro txId rfl tx wal hs hcheck
  rcases h.session tx wal hs with ⟨rfl, -⟩ | hbegan
  · exact absurd hcheck (checkTx_new txId)
  · rw [hbegan.found]
    exact not_occurs_nil txId

/-- The first record has the id that every session hands out first. -/
theorem not_freshId (h : Inv st records) {c : TxCall} (hfull : ¬ st.BeginsEmpty c) :
    ¬ st.FreshId c := by
  simp only [BeginsEmpty, not_forall] at hfull
  obtain ⟨rfl, ⟨tx, wal⟩, hs, hone, hbytes⟩ := hfull
  intro hfresh
  rcases h.session tx wal hs with ⟨rfl, -⟩ | hbegan
  · refine hfresh rfl _ _ hs 1 _ rfl ((occurs_iff h.encoded 1).mpr ?_)
    cases hr : records with
    | nil =>
      have henc := h.encoded
      rw [hr] at henc
      exact absurd (Except.ok.inj henc).symm hbytes
    | cons r rest => exact ⟨r, by simp, h.head r (by rw [hr]; rfl)⟩
  · exact absurd hbegan.next (by rw [show tx.nextTxId = 1 from hone]; decide)

private theorem inv_start : ∃ records, Inv start records :=
  ⟨[], rfl, by simp, by simp [start]⟩

private theorem along_iff (h : ∃ records, Inv st records) (calls : List TxCall) :
    Along call (fun st c => st.FreshId c ∧ st.OwnCommit c) st calls ↔
      Along call BeginsEmpty st calls := by
  induction calls generalizing st with
  | nil => exact Iff.rfl
  | cons c calls ih =>
    obtain ⟨records, hinv⟩ := h
    by_cases hempty : st.BeginsEmpty c
    · have hrest := ih (inv_call ⟨records, hinv⟩ c hempty)
      constructor
      · exact fun h => ⟨hempty, hrest.mp h.2⟩
      · exact fun h => ⟨⟨freshId_of_beginsEmpty hinv hempty, ownCommit hinv c⟩, hrest.mpr h.2⟩
    · exact ⟨fun h => absurd h.1.1 (not_freshId hinv hempty), fun h => absurd h.1 hempty⟩

/-- **Transaction ids.** In a run of sessions from an empty log no `begin` returns
an id of a record in the log, and no COMMIT ends a transaction of an earlier session,
exactly as long as the first `begin` of each session finds the log empty. -/
theorem fresh_ids_iff (calls : List TxCall) :
    Along call (fun st c => st.FreshId c ∧ st.OwnCommit c) start calls ↔
      Along call BeginsEmpty start calls :=
  along_iff inv_start calls

/-- Session 2 begins transaction 1 again, with the records of transaction 1 of session
1, which was rolled back, in the log. -/
theorem reused_id : ¬ ∀ calls : List TxCall,
    Along call (fun st c => st.FreshId c ∧ st.OwnCommit c) start calls := by
  intro h
  have hrun := (along_iff inv_start [.openSession, .begin, .mutate 3 [1] [2], .rollback 1, .close,
    .openSession, .begin]).mp (h _)
  revert hrun
  decide +kernel

end TxLog
end TinyDB
