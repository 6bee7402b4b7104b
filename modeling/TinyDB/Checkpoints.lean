import TinyDB.TornLog
import TinyDB.TxSessions

/-!
# Checkpoints

`checkpoint` empties the log, whatever the transactions in it have come to.
`checkpoints_unobserved_iff`: a run leaves, at every crash point, what it would leave
without its checkpoints exactly if each checkpoint finds the log settled, the last
mutation of every page being that of a committed transaction or one that changed nothing.
-/

namespace TinyDB

open Lib FileStore

/-- The calls of a run. A mutation is a MUTATE record, then `write_page`; the process can be
killed between the two. -/
inductive LoggedCall where
  | begin
  | commit (txId : Nat)
  | rollback (txId : Nat)
  | log (pageId : Nat) (body : Bytes)
  | write
  | checkpoint
  deriving DecidableEq, Repr

/-- The page that a call logs a mutation of. -/
def LoggedCall.logged : LoggedCall → Option Nat
  | .log pageId _ => some pageId
  | _ => none

/-- A `TxManager` with its log, over a store. -/
structure LoggedRun where
  store : FileStore
  bytes : Bytes
  wal : Wal
  tx : TxManager
  /-- The page that is logged and not yet written. -/
  pending : Option Page
  /-- The pages each transaction has mutated. -/
  mutated : List (Nat × Nat)
  deriving DecidableEq

namespace LoggedRun

def start (store : FileStore) : LoggedRun :=
  ⟨store, [], Wal.openLog [], TxManager.new, none, []⟩

def finish (st : LoggedRun) (kind : RecordKind) (txId : Nat) : LoggedRun :=
  match st.tx.finish st.wal st.bytes kind txId with
  | .error _ => st
  | .ok (tx, wal, bytes) => { st with tx := tx, wal := wal, bytes := bytes }

/-- One call; one that raises changes nothing. -/
def call (st : LoggedRun) : LoggedCall → LoggedRun
  | .begin =>
    match st.tx.begin with
    | .error _ => st
    | .ok (_, tx) => { st with tx := tx }
  | .commit txId => st.finish .txCommit txId
  | .rollback txId => st.finish .txRollback txId
  | .log pageId body =>
    match TxLog.activeId st.tx with
    | none => st
    | some txId =>
      match st.store.readPage pageId with
      | .error _ => st
      | .ok page =>
        match st.wal.append st.bytes .mutate txId pageId page.body body with
        | .error _ => st
        | .ok (_, wal, bytes) =>
          { st with
            bytes := bytes
            wal := wal
            pending := some { page with body := body }
            mutated := (txId, pageId) :: st.mutated }
  | .write =>
    match st.pending with
    | none => st
    | some page =>
      match st.store.writePage page with
      | .error _ => { st with pending := none }
      | .ok store => { st with store := store, pending := none }
  -- a `FileStore` has no `flush_all`
  | .checkpoint => { st with wal := st.wal.truncate.1, bytes := st.wal.truncate.2 }

/-- What is logged is written at once. -/
def WrittenAtOnce (st : LoggedRun) (c : LoggedCall) : Prop := st.pending ≠ none → c = .write

/-- The active transaction has not mutated the page before. -/
def OncePerPage (st : LoggedRun) (c : LoggedCall) : Prop :=
  ∀ id ∈ TxLog.activeId st.tx, ∀ p ∈ c.logged, (id, p) ∉ st.mutated

/-- The next record gets a number that fits. -/
def HasLsn (st : LoggedRun) (_ : LoggedCall) : Prop := st.wal.nextLsn < 256 ^ 4

instance (st : LoggedRun) (c : LoggedCall) : Decidable (st.WrittenAtOnce c) := by
  unfold WrittenAtOnce
  infer_instance

instance (st : LoggedRun) (c : LoggedCall) : Decidable (st.OncePerPage c) := by
  unfold OncePerPage
  infer_instance

instance (st : LoggedRun) (c : LoggedCall) : Decidable (st.HasLsn c) := by
  unfold HasLsn
  infer_instance

/-- What `replay_wal` leaves after a crash. -/
def recovered (st : LoggedRun) : FileStore := (replayWal (some st.bytes) st.store).2

/-- Recovery leaves the same bodies in the pages of the file. -/
def SameRecovered (a b : LoggedRun) : Prop :=
  ∀ p < a.store.file.length,
    (a.recovered.readPage p).map Page.body = (b.recovered.readPage p).map Page.body

end LoggedRun

/-- The last MUTATE record of a page. -/
def lastMutation (p : Nat) : List WalRecord → Option WalRecord
  | [] => none
  | r :: records =>
    match lastMutation p records with
    | some last => some last
    | none => if r.kind = .mutate ∧ r.pageId = p then some r else none

/-- The last mutation of every page in the log belongs to a transaction that has committed,
or left the page with the body it had. -/
def SettledLog (bodySize : Nat) (records : List WalRecord) : Prop :=
  ∀ r ∈ records, lastMutation r.pageId records = some r →
    r.txId ∈ committedTx records ∨ r.before.take bodySize = r.after.take bodySize

instance (bodySize : Nat) (records : List WalRecord) : Decidable (SettledLog bodySize records) := by
  unfold SettledLog
  infer_instance

/-- A checkpoint finds the log settled. -/
def LoggedRun.Settled (st : LoggedRun) (c : LoggedCall) : Prop :=
  c = .checkpoint → ∀ records ∈ (readLog st.bytes).toOption,
    SettledLog st.store.bodySize records

instance (st : LoggedRun) (c : LoggedCall) : Decidable (st.Settled c) := by
  unfold LoggedRun.Settled
  infer_instance

/-! ## Last mutations -/

theorem lastMutation_append (p : Nat) (a b : List WalRecord) :
    lastMutation p (a ++ b) = (lastMutation p b).or (lastMutation p a) := by
  induction a with
  | nil => simp [lastMutation]
  | cons r a ih =>
    rw [List.cons_append, lastMutation, ih]
    cases lastMutation p b with
    | none => rfl
    | some last => rfl

theorem lastMutation_snoc (p : Nat) (records : List WalRecord) (r : WalRecord) :
    lastMutation p (records ++ [r]) =
      if r.kind = .mutate ∧ r.pageId = p then some r else lastMutation p records := by
  rw [lastMutation_append]
  by_cases h : r.kind = .mutate ∧ r.pageId = p
  · simp [lastMutation, h]
  · rw [if_neg h]
    simp only [lastMutation, if_neg h, Option.none_or]

theorem lastMutation_mem {p : Nat} {records : List WalRecord} {r : WalRecord}
    (h : lastMutation p records = some r) : r ∈ records ∧ r.kind = .mutate ∧ r.pageId = p := by
  induction records with
  | nil => cases h
  | cons first records ih =>
    rw [lastMutation] at h
    cases hl : lastMutation p records with
    | some last =>
      rw [hl] at h
      exact ⟨List.mem_cons_of_mem _ (ih (hl.trans h)).1, (ih (hl.trans h)).2⟩
    | none =>
      simp only [hl] at h
      split at h
      · rename_i hp
        obtain rfl := Option.some.inj h
        exact ⟨List.mem_cons_self, hp⟩
      · cases h

/-- The image that replay writes for a record. -/
def imageOf (committed : List Nat) (r : WalRecord) : Bytes :=
  if r.txId ∈ committed then r.after else r.before

theorem lastImage_eq (committed : List Nat) (p : Nat) (records : List WalRecord) :
    lastImage committed p records = (lastMutation p records).map (imageOf committed) := by
  induction records with
  | nil => rfl
  | cons r records ih =>
    rw [lastImage, lastMutation, ih]
    cases lastMutation p records with
    | some last => rfl
    | none =>
      by_cases h : r.kind = .mutate ∧ r.pageId = p
      · simp only [Option.map_none, if_pos h]
        rfl
      · simp only [Option.map_none, if_neg h]

/-- A record without its number, which replay does not look at. -/
def unnumbered (r : WalRecord) : WalRecord := { r with lsn := 0 }

theorem unnumbered_eq {r r' : WalRecord} (h : unnumbered r = unnumbered r') :
    r.txId = r'.txId ∧ r.kind = r'.kind ∧ r.pageId = r'.pageId ∧ r.before = r'.before ∧
      r.after = r'.after := by
  simpa [unnumbered] using h

theorem committedTx_unnumbered (records : List WalRecord) :
    committedTx (records.map unnumbered) = committedTx records := by
  induction records with
  | nil => rfl
  | cons r records ih =>
    simp only [committedTx, List.map_cons, List.filter_cons] at ih ⊢
    by_cases h : r.kind = .txCommit
    · simp only [unnumbered, h, decide_true, ↓reduceIte, List.map_cons, ← ih]
    · simpa only [unnumbered, h, decide_false, Bool.false_eq_true, ↓reduceIte] using ih

theorem lastMutation_unnumbered (p : Nat) (records : List WalRecord) :
    lastMutation p (records.map unnumbered) = (lastMutation p records).map unnumbered := by
  induction records with
  | nil => rfl
  | cons r records ih =>
    rw [List.map_cons, lastMutation, ih, lastMutation]
    cases lastMutation p records with
    | some last => rfl
    | none =>
      by_cases h : r.kind = .mutate ∧ r.pageId = p
      · rw [if_pos h]
        exact if_pos h
      · rw [if_neg h]
        exact if_neg h

/-- Logs that differ in the numbers of their records only. -/
def SameButLsn (a b : List WalRecord) : Prop := a.map unnumbered = b.map unnumbered

theorem SameButLsn.committedTx {a b : List WalRecord} (h : SameButLsn a b) :
    committedTx a = committedTx b := by
  rw [← committedTx_unnumbered a, h, committedTx_unnumbered]

theorem SameButLsn.lastMutation {a b : List WalRecord} (h : SameButLsn a b) (p : Nat) :
    (lastMutation p a).map unnumbered = (lastMutation p b).map unnumbered := by
  rw [← lastMutation_unnumbered, h, lastMutation_unnumbered]

theorem SameButLsn.append {a b : List WalRecord} (h : SameButLsn a b) {r r' : WalRecord}
    (hr : unnumbered r = unnumbered r') : SameButLsn (a ++ [r]) (b ++ [r']) := by
  simp only [SameButLsn, List.map_append, List.map_singleton, hr] at h ⊢
  rw [h]

/-! ## The two runs -/

namespace LoggedRun

/-- One call of the run, and of the run without its checkpoints. -/
def both (s : LoggedRun × LoggedRun) (c : LoggedCall) : LoggedRun × LoggedRun :=
  (s.1.call c, if c = .checkpoint then s.2 else s.2.call c)

theorem run_both (a b : LoggedRun) (calls : List LoggedCall) :
    run both (a, b) calls = (run call a calls, run call b (calls.filter (· ≠ .checkpoint))) := by
  induction calls generalizing a b with
  | nil => rfl
  | cons c calls ih =>
    rw [run, List.foldl_cons, ← run, both, ih]
    by_cases hc : c = .checkpoint
    · subst hc
      rfl
    · have hf : (c :: calls).filter (· ≠ .checkpoint) = c :: calls.filter (· ≠ .checkpoint) :=
        List.filter_cons_of_pos (by simpa using hc)
      rw [if_neg hc, hf]
      rfl

/-- The log holds the records, and the next one goes behind them. -/
structure LogOf (st : LoggedRun) (records : List WalRecord) : Prop where
  encoded : encodeLog records = .ok st.bytes
  offset : st.wal.offset = st.bytes.length

/-- `a` has checkpoints: of the log of `b` it has lost `old`. -/
structure TwoRuns (a b : LoggedRun) (old mine recs : List WalRecord) : Prop where
  store : b.store = a.store
  tx : b.tx = a.tx
  pending : b.pending = a.pending
  logA : LogOf a mine
  logB : LogOf b (old ++ recs)
  same : SameButLsn mine recs
  nextLsn : 0 < a.wal.nextLsn ∧ a.wal.nextLsn ≤ b.wal.nextLsn
  readable : a.store.Readable
  /-- A transaction that has committed does not come back. -/
  ended : ∀ id ∈ committedTx (old ++ recs), a.tx.txs.get? id = none ∧ id < a.tx.nextTxId
  known : ∀ k s, a.tx.txs.get? k = some s → s.txId = k ∧ k < a.tx.nextTxId
  ongoing : ∀ r ∈ recs, r.kind = .mutate → r.txId ∉ committedTx old
  inFile : ∀ r ∈ old ++ recs, r.kind = .mutate → r.pageId < a.store.file.length
  settled : ∀ p r, lastMutation p old = some r →
    r.txId ∈ committedTx old ∨ r.before.take a.store.bodySize = r.after.take a.store.bodySize
  written : ∀ p page, a.store.readPage p = .ok page → (∀ q ∈ a.pending, q.pageId ≠ p) →
    ∀ r, lastMutation p (old ++ recs) = some r → page.body = r.after.take a.store.bodySize
  toWrite : ∀ q ∈ a.pending, q.pageId < a.store.file.length ∧ q.lsn < 256 ^ 4 ∧
    q.body.length < 256 ^ 2 ∧ ∃ r, lastMutation q.pageId recs = some r ∧ r.after = q.body

variable {a b : LoggedRun} {old mine recs : List WalRecord}

/-- What replay leaves in a page of the file. -/
private theorem recovered_body {st : LoggedRun} {records : List WalRecord} (hlog : LogOf st records)
    (hs : st.store.Readable)
    (hin : ∀ r ∈ records, r.kind = .mutate → r.pageId < st.store.file.length) {p : Nat} {page : Page}
    (hread : st.store.readPage p = .ok page) :
    (st.recovered.readPage p).map Page.body =
      .ok (((lastMutation p records).map fun r =>
        (imageOf (committedTx records) r).take st.store.bodySize).getD page.body) := by
  obtain ⟨store', hrun, hspec⟩ := replayRecords_images (committedTx records) records hs
    (encodeLog_small hlog.encoded) hin
  have hreplay : st.recovered = store' := by
    simp only [recovered, replayWal, readLog_encodeLog hlog.encoded, hrun]
  rw [hreplay, hspec p page hread, lastImage_eq, Option.map_map]
  rfl

private theorem SameButLsn.pages {a b : List WalRecord} (h : SameButLsn a b) {n : Nat}
    (hin : ∀ r ∈ b, r.kind = .mutate → r.pageId < n) : ∀ r ∈ a, r.kind = .mutate → r.pageId < n := by
  intro r hr hk
  have hmem : unnumbered r ∈ b.map unnumbered := by
    rw [← h]
    exact List.mem_map_of_mem hr
  obtain ⟨r', hr', he⟩ := List.mem_map.mp hmem
  obtain ⟨-, hkind, hpage, -⟩ := unnumbered_eq he
  rw [← hpage]
  exact hin r' hr' (hkind.trans hk)

private theorem SameButLsn.image {a b : List WalRecord} (h : SameButLsn a b) (p n : Nat)
    (committed : List Nat) (body : Bytes) :
    ((lastMutation p a).map fun r => (imageOf committed r).take n).getD body =
      ((lastMutation p b).map fun r => (imageOf committed r).take n).getD body := by
  have hsame := h.lastMutation p
  cases ha : lastMutation p a with
  | none =>
    rw [ha, Option.map_none, eq_comm, Option.map_eq_none_iff] at hsame
    rw [hsame]
  | some r =>
    rw [ha, Option.map_some, eq_comm, Option.map_eq_some_iff] at hsame
    obtain ⟨r', hb, he⟩ := hsame
    have himage : imageOf committed r' = imageOf committed r := by
      obtain ⟨hid, -, -, hbefore, hafter⟩ := unnumbered_eq he
      rw [imageOf, imageOf, hid, hafter, hbefore]
    rw [hb, Option.map_some, Option.map_some, himage]

/-- **Recovery.** The records that a checkpoint dropped would write what the pages hold. -/
theorem TwoRuns.recovered (h : TwoRuns a b old mine recs) : SameRecovered a b := by
  intro p hp
  obtain ⟨page, hread, -⟩ := h.readable.page p hp
  have hinR : ∀ r ∈ recs, r.kind = .mutate → r.pageId < a.store.file.length :=
    fun r hr => h.inFile r (List.mem_append_right _ hr)
  rw [recovered_body h.logA h.readable (SameButLsn.pages h.same hinR) hread,
    recovered_body h.logB (by rw [h.store]; exact h.readable) (by rw [h.store]; exact h.inFile)
      (by rw [h.store]; exact hread), h.store, SameButLsn.image h.same, h.same.committedTx,
    lastMutation_append, Except.ok.injEq]
  cases hl : lastMutation p recs with
  | some r =>
    obtain ⟨hmem, hk, -⟩ := lastMutation_mem hl
    have himage : imageOf (committedTx (old ++ recs)) r = imageOf (committedTx recs) r := by
      have hnot := h.ongoing r hmem hk
      simp only [imageOf, committedTx_append, List.mem_append, hnot, false_or]
    simp only [Option.some_or, Option.map_some, Option.getD_some, himage]
  | none =>
    rw [Option.none_or]
    cases ho : lastMutation p old with
    | none => rfl
    | some r =>
      have hbody : page.body = r.after.take a.store.bodySize := by
        refine h.written p page hread (fun q hq he => ?_) r ?_
        · obtain ⟨-, -, -, r', hr', -⟩ := h.toWrite q hq
          rw [he, hl] at hr'
          cases hr'
        · rw [lastMutation_append, hl, Option.none_or, ho]
      simp only [Option.map_none, Option.getD_none, Option.map_some, Option.getD_some, imageOf]
      split
      · exact hbody
      · rename_i hnot
        rcases h.settled p r ho with hc | hsame
        · exact absurd (by rw [committedTx_append]; exact List.mem_append_left _ hc) hnot
        · rw [hsame]
          exact hbody

/-! ## One call -/

/-- An append goes through in both runs or in none. -/
private theorem TwoRuns.append (h : TwoRuns a b old mine recs) (hroom : b.wal.nextLsn < 256 ^ 4)
    (kind : RecordKind) (txId pageId : Nat) (before after : Bytes) :
    (∃ e e', a.wal.append a.bytes kind txId pageId before after = .error e ∧
      b.wal.append b.bytes kind txId pageId before after = .error e') ∨
    ∃ lsn lsn' outA outB, a.wal.append a.bytes kind txId pageId before after = .ok (lsn, outA) ∧
      b.wal.append b.bytes kind txId pageId before after = .ok (lsn', outB) ∧
      before.length < 256 ^ 2 ∧ after.length < 256 ^ 2 := by
  simp only [Wal.append, Wal.appendRec]
  cases ha : encodeRecord ⟨a.wal.nextLsn, txId, kind, pageId, before, after⟩ with
  | error e =>
    cases hb : encodeRecord ⟨b.wal.nextLsn, txId, kind, pageId, before, after⟩ with
    | error e' => exact Or.inl ⟨e, e', rfl, rfl⟩
    | ok frame =>
      have hlsn : a.wal.nextLsn < 256 ^ 4 := Nat.lt_of_le_of_lt h.nextLsn.2 hroom
      obtain ⟨frame', hf⟩ := encodeRecord_lsn hb hlsn
      exact absurd (ha.symm.trans hf) (by simp)
  | ok frame =>
    obtain ⟨frame', hf⟩ := encodeRecord_lsn ha hroom
    have himages := encodeRecord_images ha
    rw [hf]
    exact Or.inr ⟨_, _, _, _, rfl, rfl, himages⟩

/-- The two logs behind such an append. -/
private theorem TwoRuns.logs (h : TwoRuns a b old mine recs) {kind : RecordKind}
    {txId pageId lsn lsn' : Nat} {before after : Bytes} {walA walB : Wal} {bytesA bytesB : Bytes}
    (ha : a.wal.append a.bytes kind txId pageId before after = .ok (lsn, walA, bytesA))
    (hb : b.wal.append b.bytes kind txId pageId before after = .ok (lsn', walB, bytesB)) :
    ∃ r r' : WalRecord, r'.txId = txId ∧ r'.kind = kind ∧ r'.pageId = pageId ∧ r'.after = after ∧
      LogOf { a with bytes := bytesA, wal := walA } (mine ++ [r]) ∧
      LogOf { b with bytes := bytesB, wal := walB } (old ++ (recs ++ [r'])) ∧
      SameButLsn (mine ++ [r]) (recs ++ [r']) ∧
      0 < walA.nextLsn ∧ walA.nextLsn ≤ walB.nextLsn := by
  obtain ⟨hencA, hoA, hnextA⟩ := Wal.append_end h.logA.encoded h.logA.offset ha
  obtain ⟨hencB, hoB, hnextB⟩ := Wal.append_end h.logB.encoded h.logB.offset hb
  refine ⟨_, ⟨b.wal.nextLsn, txId, kind, pageId, before, after⟩, rfl, rfl, rfl, rfl,
    ⟨hencA, hoA⟩, ⟨?_, hoB⟩, h.same.append rfl, by omega, ?_⟩
  · rw [← List.append_assoc]
    exact hencB
  · rw [hnextA, hnextB]
    exact Nat.succ_le_succ h.nextLsn.2

/-- The runs agree after a call. -/
def Keeps (a b : LoggedRun) : Prop := ∃ old mine recs, TwoRuns a b old mine recs

private theorem keeps_begin (h : TwoRuns a b old mine recs) :
    Keeps (a.call .begin) (b.call .begin) := by
  simp only [call, h.tx]
  cases hb : a.tx.begin with
  | error e => exact ⟨old, mine, recs, h⟩
  | ok out =>
    obtain ⟨id, tx⟩ := out
    simp only [TxManager.begin] at hb
    split at hb
    · cases hb
    · rw [Except.ok.injEq, Prod.mk.injEq] at hb
      obtain ⟨rfl, rfl⟩ := hb
      refine ⟨old, mine, recs, { h with
        tx := rfl
        logA := ⟨h.logA.encoded, h.logA.offset⟩
        logB := ⟨h.logB.encoded, h.logB.offset⟩
        ended := fun id hid => ?_
        known := fun k s hk => ?_ }⟩
      · obtain ⟨hnone, hlt⟩ := h.ended id hid
        refine ⟨?_, Nat.lt_succ_of_lt hlt⟩
        rw [OrdDict.get?_set, if_neg (by omega)]
        exact hnone
      · rw [OrdDict.get?_set] at hk
        split at hk
        · rename_i he
          obtain rfl := Option.some.inj hk
          exact ⟨he, by rw [← he]; exact Nat.lt_succ_self _⟩
        · exact ⟨(h.known k s hk).1, Nat.lt_succ_of_lt (h.known k s hk).2⟩

private theorem committedTx_snoc (records : List WalRecord) (r : WalRecord) :
    committedTx (records ++ [r]) =
      committedTx records ++ if r.kind = .txCommit then [r.txId] else [] := by
  rw [committedTx_append]
  by_cases hk : r.kind = .txCommit
  · simp [committedTx, hk]
  · simp [committedTx, hk]

private theorem keeps_finish (h : TwoRuns a b old mine recs) (hroom : b.wal.nextLsn < 256 ^ 4)
    {kind : RecordKind} (hkind : kind ≠ .mutate) (txId : Nat) :
    Keeps (a.finish kind txId) (b.finish kind txId) := by
  simp only [finish, TxManager.finish, h.tx]
  cases hcheck : a.tx.checkTx txId with
  | error e => exact ⟨old, mine, recs, h⟩
  | ok u =>
    simp only [ok_bind]
    rcases h.append hroom kind txId 0 [] [] with ⟨e, e', ha, hb⟩ |
      ⟨lsn, lsn', ⟨walA, bytesA⟩, ⟨walB, bytesB⟩, ha, hb, -⟩
    · rw [ha, hb]
      exact ⟨old, mine, recs, h⟩
    · obtain ⟨r, r', hid, hk, hpage, -, hlogA, hlogB, hsame, hnext⟩ := h.logs ha hb
      obtain ⟨s, hget⟩ := TxLog.checkTx_ok hcheck
      have hlast : ∀ p l, lastMutation p (l ++ [r']) = lastMutation p l := fun p l => by
        rw [lastMutation_snoc, if_neg (by rw [hk]; exact fun he => hkind he.1)]
      have hassoc : old ++ (recs ++ [r']) = (old ++ recs) ++ [r'] := (List.append_assoc ..).symm
      simp only [ha, hb, ok_bind]
      refine ⟨old, mine ++ [r], recs ++ [r'], { h with
        tx := rfl
        logA := ⟨hlogA.encoded, hlogA.offset⟩
        logB := ⟨hlogB.encoded, hlogB.offset⟩
        same := hsame
        nextLsn := hnext
        ended := fun id hmem => ?_
        known := fun k s hk => ?_
        ongoing := fun r1 hr1 hk1 => ?_
        inFile := fun r1 hr1 hk1 => ?_
        written := fun p page hread hq r1 hr1 => ?_
        toWrite := fun q hq => ?_ }⟩
      · rw [hassoc, committedTx_snoc, List.mem_append] at hmem
        rw [OrdDict.get?_erase]
        rcases hmem with hold | hnew
        · obtain ⟨hnone, hlt⟩ := h.ended id hold
          refine ⟨?_, hlt⟩
          split
          · rfl
          · exact hnone
        · split at hnew
          · obtain rfl : id = txId := (List.mem_singleton.mp hnew).trans hid
            exact ⟨if_pos rfl, (h.known id s hget).2⟩
          · cases hnew
      · rw [OrdDict.get?_erase] at hk
        split at hk
        · cases hk
        · exact h.known k s hk
      · rcases List.mem_append.mp hr1 with hold | hnew
        · exact h.ongoing r1 hold hk1
        · rw [List.mem_singleton.mp hnew, hk] at hk1
          exact absurd hk1 hkind
      · rw [hassoc] at hr1
        rcases List.mem_append.mp hr1 with hold | hnew
        · exact h.inFile r1 hold hk1
        · rw [List.mem_singleton.mp hnew, hk] at hk1
          exact absurd hk1 hkind
      · rw [hassoc, hlast] at hr1
        exact h.written p page hread hq r1 hr1
      · obtain ⟨h1, h2, h3, r1, hr1, h4⟩ := h.toWrite q hq
        exact ⟨h1, h2, h3, r1, by rw [hlast]; exact hr1, h4⟩

/-- The active transaction has not committed. -/
private theorem TwoRuns.active (h : TwoRuns a b old mine recs) {txId : Nat}
    (ha : TxLog.activeId a.tx = some txId) : txId ∉ committedTx (old ++ recs) := by
  intro hmem
  obtain ⟨s, hfind, rfl⟩ := Option.map_eq_some_iff.mp ha
  obtain ⟨k, hk⟩ := OrdDict.mem_values.mp (List.mem_of_find?_eq_some hfind)
  have hget := (OrdDict.get?_eq_some_iff _ _ _).mpr hk
  rw [(h.known k s hget).1] at hmem
  exact absurd ((h.ended k hmem).1.symm.trans hget) (by simp)

private theorem keeps_log (h : TwoRuns a b old mine recs) (hroom : b.wal.nextLsn < 256 ^ 4)
    (pageId : Nat) (body : Bytes) (hpending : a.pending = none) :
    Keeps (a.call (.log pageId body)) (b.call (.log pageId body)) := by
  simp only [call, h.tx, h.store]
  cases hid : TxLog.activeId a.tx with
  | none => exact ⟨old, mine, recs, h⟩
  | some txId =>
    cases hread : a.store.readPage pageId with
    | error e => exact ⟨old, mine, recs, h⟩
    | ok page =>
      simp only
      rcases h.append hroom .mutate txId pageId page.body body with ⟨e, e', ha, hb⟩ |
        ⟨lsn, lsn', ⟨walA, bytesA⟩, ⟨walB, bytesB⟩, ha, hb, -, hbody⟩
      · rw [ha, hb]
        exact ⟨old, mine, recs, h⟩
      · obtain ⟨r, r', htx, hk, hpage, hafter, hlogA, hlogB, hsame, hnext⟩ := h.logs ha hb
        have hassoc : old ++ (recs ++ [r']) = (old ++ recs) ++ [r'] :=
          (List.append_assoc ..).symm
        have hnot : ∀ id ∈ committedTx (old ++ recs ++ [r']), id ∈ committedTx (old ++ recs) := by
          intro id hmem
          rw [committedTx_snoc, hk] at hmem
          simpa using hmem
        have hpid := h.readable.pageId hread
        simp only [ha, hb]
        refine ⟨old, mine ++ [r], recs ++ [r'], { h with
          store := rfl
          tx := rfl
          pending := rfl
          logA := ⟨hlogA.encoded, hlogA.offset⟩
          logB := ⟨hlogB.encoded, hlogB.offset⟩
          same := hsame
          nextLsn := hnext
          ended := fun id hmem => h.ended id (hnot id (by rw [← hassoc]; exact hmem))
          ongoing := fun r1 hr1 hk1 => ?_
          inFile := fun r1 hr1 hk1 => ?_
          written := fun p page1 hread1 hq r1 hr1 => ?_
          toWrite := fun q hq => ?_ }⟩
        · rcases List.mem_append.mp hr1 with hold | hnew
          · exact h.ongoing r1 hold hk1
          · rw [List.mem_singleton.mp hnew, htx]
            have hact := h.active hid
            rw [committedTx_append] at hact
            exact fun hmem => hact (List.mem_append_left _ hmem)
        · rw [hassoc] at hr1
          rcases List.mem_append.mp hr1 with hold | hnew
          · exact h.inFile r1 hold hk1
          · rw [List.mem_singleton.mp hnew, hpage]
            exact readPage_lt hread
        · have hne : pageId ≠ p := by
            rw [← hpid]
            exact hq { page with body := body } rfl
          rw [hassoc, lastMutation_snoc, if_neg (by rw [hpage]; exact fun he => hne he.2)] at hr1
          exact h.written p page1 hread1 (by simp [hpending]) r1 hr1
        · obtain rfl : { page with body := body } = q := Option.some.inj hq
          refine ⟨?_, (readPage_bounds hread).2, hbody, r', ?_, hafter⟩
          · rw [hpid]
            exact readPage_lt hread
          · rw [lastMutation_snoc, if_pos ⟨hk, hpage.trans hpid.symm⟩]

private theorem keeps_write (h : TwoRuns a b old mine recs) :
    Keeps (a.call .write) (b.call .write) := by
  simp only [call, h.pending, h.store]
  cases hp : a.pending with
  | none => exact ⟨old, mine, recs, h⟩
  | some page =>
    obtain ⟨hlt, hlsn, hlen, last, hlast, hafter⟩ := h.toWrite page hp
    obtain ⟨store', hw⟩ := writePage_ok a.store page (h.readable.id_lt hlt) hlsn hlen
    have hsame := sameExcept_writePage hw hlt
    have hback := readPage_writePage hw (Nat.le_of_lt hlt)
    have hsize : store'.bodySize = a.store.bodySize := by simp only [bodySize, hsame.pageSize]
    simp only [hw]
    refine ⟨old, mine, recs, { h with
      store := rfl
      pending := rfl
      logA := ⟨h.logA.encoded, h.logA.offset⟩
      logB := ⟨h.logB.encoded, h.logB.offset⟩
      readable := h.readable.write page (Nat.le_of_lt hlt) hw
      inFile := by simpa only [hsame.length] using h.inFile
      settled := by simpa only [hsize] using h.settled
      written := fun p page1 hread1 hq r1 hr1 => ?_
      toWrite := fun q hq => ?_ }⟩
    · rw [hsize]
      rw [hback] at hread1
      split at hread1
      · rename_i he
        obtain rfl := Except.ok.inj hread1
        subst he
        rw [lastMutation_append, hlast, Option.some_or] at hr1
        rw [← Option.some.inj hr1, hafter]
      · rename_i hne
        refine h.written p page1 hread1 (fun q hq' he => hne ?_) r1 hr1
        rw [← he]
        exact congrArg Page.pageId (Option.some.inj (hq'.symm.trans hp))
    · cases hq

private theorem settledLog_same {a b : List WalRecord} (h : SameButLsn a b) {n : Nat}
    (hs : SettledLog n a) {p : Nat} {r : WalRecord} (hr : lastMutation p b = some r) :
    r.txId ∈ committedTx b ∨ r.before.take n = r.after.take n := by
  have hsame := h.lastMutation p
  rw [hr, Option.map_some, Option.map_eq_some_iff] at hsame
  obtain ⟨r', hr', he⟩ := hsame
  obtain ⟨hid, -, hpage, hbefore, hafter⟩ := unnumbered_eq he
  obtain ⟨hmem, -, hp⟩ := lastMutation_mem hr'
  have hsettled := hs r' hmem (by rw [hp]; exact hr')
  rw [hid, hbefore, hafter, h.committedTx] at hsettled
  exact hsettled

private theorem keeps_checkpoint (h : TwoRuns a b old mine recs) (hpending : a.pending = none)
    (hsettled : SettledLog a.store.bodySize mine) : Keeps (a.call .checkpoint) b := by
  refine ⟨old ++ recs, [], [], { h with
    store := h.store
    tx := h.tx
    pending := h.pending
    logA := ⟨rfl, rfl⟩
    logB := by rw [List.append_nil]; exact h.logB
    same := rfl
    nextLsn := ⟨Nat.one_pos, Nat.le_trans h.nextLsn.1 h.nextLsn.2⟩
    ended := by rw [List.append_nil]; exact h.ended
    ongoing := fun r hr => absurd hr List.not_mem_nil
    inFile := by rw [List.append_nil]; exact h.inFile
    settled := fun p r hr => ?_
    written := by rw [List.append_nil]; exact h.written
    toWrite := by simp [call, hpending] }⟩
  rw [lastMutation_append] at hr
  rw [committedTx_append]
  cases hl : lastMutation p recs with
  | some last =>
    rw [hl, Option.some_or] at hr
    obtain rfl := Option.some.inj hr
    rcases settledLog_same h.same hsettled hl with hc | hsame
    · exact Or.inl (List.mem_append_right _ hc)
    · exact Or.inr hsame
  | none =>
    rw [hl, Option.none_or] at hr
    rcases h.settled p r hr with hc | hsame
    · exact Or.inl (List.mem_append_left _ hc)
    · exact Or.inr hsame

/-- Right behind a checkpoint that drops a record of another body. -/
private theorem not_same_checkpoint (h : TwoRuns a b old mine recs) (hpending : a.pending = none)
    (hnot : ¬ SettledLog a.store.bodySize mine) : ¬ SameRecovered (a.call .checkpoint) b := by
  simp only [SettledLog, not_forall, not_or] at hnot
  obtain ⟨r, -, hlast, hid, hne⟩ := hnot
  intro hsame
  have hlasts := h.same.lastMutation r.pageId
  rw [hlast, Option.map_some, eq_comm, Option.map_eq_some_iff] at hlasts
  obtain ⟨r', hr', he⟩ := hlasts
  obtain ⟨htx, -, hpage, hbefore, hafter⟩ := unnumbered_eq he
  obtain ⟨hmem, hk, hp⟩ := lastMutation_mem hr'
  have hlt : r.pageId < a.store.file.length := by
    rw [← hp]
    exact h.inFile r' (List.mem_append_right _ hmem) hk
  obtain ⟨page, hread, -⟩ := h.readable.page r.pageId hlt
  have hlastAll : lastMutation r.pageId (old ++ recs) = some r' := by
    rw [lastMutation_append, hr', Option.some_or]
  have hbody := h.written r.pageId page hread (by simp [hpending]) r' hlastAll
  have hout : r'.txId ∉ committedTx (old ++ recs) := by
    rw [committedTx_append, List.mem_append, not_or]
    exact ⟨h.ongoing r' hmem hk, by rw [htx, ← h.same.committedTx]; exact hid⟩
  have hbodies := hsame r.pageId hlt
  have hnone : LogOf (a.call .checkpoint) [] := ⟨rfl, rfl⟩
  rw [recovered_body hnone h.readable (fun r hr => absurd hr List.not_mem_nil) hread,
    recovered_body h.logB (by rw [h.store]; exact h.readable) (by rw [h.store]; exact h.inFile)
      (by rw [h.store]; exact hread), hlastAll, h.store, Except.ok.injEq] at hbodies
  simp only [lastMutation, Option.map_none, Option.getD_none, Option.map_some, Option.getD_some,
    imageOf, if_neg hout] at hbodies
  rw [hbody, hafter, hbefore] at hbodies
  exact hne hbodies.symm

/-! ## Whole runs -/

private theorem twoRuns_start {store : FileStore} (hs : store.Readable) :
    TwoRuns (start store) (start store) [] [] [] where
  store := rfl
  tx := rfl
  pending := rfl
  logA := ⟨rfl, rfl⟩
  logB := ⟨rfl, rfl⟩
  same := rfl
  nextLsn := ⟨Nat.one_pos, Nat.le_refl _⟩
  readable := hs
  ended := fun id hid => absurd hid List.not_mem_nil
  known := fun k s hk => by cases hk
  ongoing := fun r hr => absurd hr List.not_mem_nil
  inFile := fun r hr => absurd hr List.not_mem_nil
  settled := fun p r hr => by cases hr
  written := fun p page _ _ r hr => by cases hr
  toWrite := fun q hq => by cases hq

/-- The log that `Settled` reads. -/
private theorem settled_iff (h : TwoRuns a b old mine recs) (c : LoggedCall) :
    a.Settled c ↔ (c = .checkpoint → SettledLog a.store.bodySize mine) := by
  simp only [Settled, readLog_encodeLog h.logA.encoded, Except.toOption, Option.mem_some_iff,
    forall_eq']

private theorem reached_iff {s : LoggedRun × LoggedRun} (h : Keeps s.1 s.2)
    {calls : List LoggedCall}
    (hlegal : Along both (fun s c => s.1.WrittenAtOnce c ∧ (c ≠ .checkpoint → s.2.HasLsn c)) s
      calls) :
    Reached both (fun s => SameRecovered s.1 s.2) s calls ↔
      Along both (fun s c => s.1.Settled c) s calls := by
  refine reached_iff_along (fun s => Keeps s.1 s.2) ?_ ?_ ?_ h hlegal
  · rintro s ⟨old, mine, recs, h⟩
    exact h.recovered
  · rintro ⟨a, b⟩ c ⟨old, mine, recs, h⟩ ⟨honce, hroom⟩ hsettled
    cases c with
    | begin => exact keeps_begin h
    | commit txId => exact keeps_finish h (hroom (by simp)) (by simp) txId
    | rollback txId => exact keeps_finish h (hroom (by simp)) (by simp) txId
    | log pageId body =>
      refine keeps_log h (hroom (by simp)) pageId body ?_
      by_contra hpending
      cases honce hpending
    | write => exact keeps_write h
    | checkpoint =>
      refine keeps_checkpoint h ?_ ((settled_iff h _).mp hsettled rfl)
      by_contra hpending
      cases honce hpending
  · rintro ⟨a, b⟩ c ⟨old, mine, recs, h⟩ ⟨honce, -⟩ hnot
    rw [settled_iff h, not_forall] at hnot
    obtain ⟨rfl, hnot⟩ := hnot
    refine not_same_checkpoint h ?_ hnot
    by_contra hpending
    cases honce hpending

private theorem along_both {P : LoggedRun → LoggedCall → Prop} (a b : LoggedRun)
    (calls : List LoggedCall) :
    Along both (fun s c => P s.1 c) (a, b) calls ↔ Along call P a calls := by
  induction calls generalizing a b with
  | nil => exact Iff.rfl
  | cons c calls ih => exact and_congr_right fun _ => ih _ _

private theorem along_filter {P : LoggedRun → LoggedCall → Prop} (a b : LoggedRun)
    (calls : List LoggedCall) (h : Along call P b (calls.filter (· ≠ .checkpoint))) :
    Along both (fun s c => c ≠ .checkpoint → P s.2 c) (a, b) calls := by
  induction calls generalizing a b with
  | nil => exact True.intro
  | cons c calls ih =>
    by_cases hc : c = .checkpoint
    · subst hc
      exact ⟨fun hne => absurd rfl hne, ih _ _ h⟩
    · have hf : (c :: calls).filter (· ≠ .checkpoint) = c :: calls.filter (· ≠ .checkpoint) :=
        List.filter_cons_of_pos (by simpa using hc)
      rw [hf] at h
      refine ⟨fun _ => h.1, ?_⟩
      simp only [both, if_neg hc]
      exact ih _ _ h.2

private theorem along_and {σ α : Type} {step : σ → α → σ} {P Q : σ → α → Prop} {s : σ}
    {l : List α} (hp : Along step P s l) (hq : Along step Q s l) :
    Along step (fun s a => P s a ∧ Q s a) s l := by
  induction l generalizing s with
  | nil => exact True.intro
  | cons a l ih => exact ⟨⟨hp.1, hq.1⟩, ih hp.2 hq.2⟩

/-- **Checkpoints.** Recovery after a crash at any point of a run leaves the bodies it would
leave in the run without the checkpoints exactly if each checkpoint finds the log settled. -/
theorem checkpoints_unobserved_iff (store : FileStore) (hs : store.Readable)
    (calls : List LoggedCall) (honce : Along call WrittenAtOnce (start store) calls)
    (hroom : Along call HasLsn (start store) (calls.filter (· ≠ .checkpoint))) :
    (∀ front, front <+: calls → SameRecovered (run call (start store) front)
      (run call (start store) (front.filter (· ≠ .checkpoint)))) ↔
      Along call Settled (start store) calls := by
  have hlegal := along_and ((along_both (start store) (start store) calls).mpr honce)
    (along_filter (start store) (start store) calls hroom)
  have hkey := reached_iff ⟨_, _, _, twoRuns_start hs⟩ hlegal
  rw [along_both, reached_iff_prefix] at hkey
  simpa only [run_both] using hkey

private theorem readable_onePage : (History.onePage [1]).Readable where
  size := by decide +kernel
  raw := by decide +kernel
  page := by
    have hheader : (History.onePage [1]).readPage 0 =
        .ok ⟨0, .header, 0, fileHeaderMagic ++ (leBytes 4 512 ++ leBytes 4 0)⟩ := by decide +kernel
    have htable : (History.onePage [1]).readPage 1 = .ok ⟨1, .table, 0, [1]⟩ := by decide +kernel
    have hlength : (History.onePage [1]).file.length = 2 := by decide +kernel
    intro i hi
    rw [hlength] at hi
    interval_cases i
    · exact ⟨_, hheader, rfl⟩
    · exact ⟨_, htable, rfl⟩

/-- A checkpoint behind a COMMIT, then a transaction that is rolled back. -/
theorem checkpoint_after_commit :
    Along call Settled (start (History.onePage [1])) [.begin, .log 1 [2], .write, .commit 1,
        .checkpoint, .begin, .log 1 [3], .write, .rollback 2] ∧
      ∀ front, front <+: [.begin, .log 1 [2], .write, .commit 1, .checkpoint, .begin, .log 1 [3],
          .write, .rollback 2] →
        SameRecovered (run call (start (History.onePage [1])) front)
          (run call (start (History.onePage [1])) (front.filter (· ≠ .checkpoint))) := by
  have hsettled : Along call Settled (start (History.onePage [1])) [.begin, .log 1 [2], .write,
      .commit 1, .checkpoint, .begin, .log 1 [3], .write, .rollback 2] := by decide +kernel
  exact ⟨hsettled, (checkpoints_unobserved_iff (History.onePage [1]) readable_onePage _
    (by decide +kernel) (by decide +kernel)).mpr hsettled⟩

/-- A checkpoint inside a transaction: the record that would undo it is gone. -/
theorem checkpoint_drops_undo : ¬ ∀ (store : FileStore) (calls : List LoggedCall), store.Readable →
    Along call WrittenAtOnce (start store) calls → Along call OncePerPage (start store) calls →
    ∀ front, front <+: calls → SameRecovered (run call (start store) front)
      (run call (start store) (front.filter (· ≠ .checkpoint))) := by
  intro h
  have hsame := h (History.onePage [1]) [.begin, .log 1 [2], .write, .checkpoint] readable_onePage
    (by decide +kernel) (by decide +kernel) _ List.prefix_rfl 1 (by decide +kernel)
  revert hsame
  decide +kernel

end LoggedRun
end TinyDB
