import TinyDB.Storage
import TinyDB.Wal

/-!
# Replay of the log

`replay_wal` makes one forward pass over the records and writes, for every
mutation, the after-image when its transaction has a commit record and the
before-image when it has none. The last image written to a page is the one that
stays, so for a serial history the pass is right exactly when, on every page
whose last writer did not commit, that writer's last before-image is the body
the page had when the writer began.
-/

namespace TinyDB

open Lib

/-- The second loop of `replay_wal`. What was written before an error stays. -/
def replayRecords (committed : List Nat) : List WalRecord → FileStore →
    Except PyErr Unit × FileStore
  | [], store => (.ok (), store)
  | r :: records, store =>
    if r.kind = .mutate then
      match store.readPage r.pageId with
      | .error e => (.error e, store)
      | .ok page =>
        let body := if r.txId ∈ committed then r.after else r.before
        match store.writePage { page with body := body } with
        | .error e => (.error e, store)
        | .ok store => replayRecords committed records store
    else replayRecords committed records store

/-- `committed_tx`. -/
def committedTx (records : List WalRecord) : List Nat :=
  (records.filter fun r => r.kind = .txCommit).map WalRecord.txId

theorem committedTx_append (a b : List WalRecord) :
    committedTx (a ++ b) = committedTx a ++ committedTx b := by
  simp [committedTx]

/-- `replay_wal`; `none` when there is no log file. -/
def replayWal (wal : Option Bytes) (store : FileStore) : Except PyErr Unit × FileStore :=
  match wal with
  | none => (.ok (), store)
  | some bytes =>
    match readLog bytes with
    | .error e => (.error e, store)
    | .ok records => replayRecords (committedTx records) records store

/-- `FileStore.open`. -/
def FileStore.openStore (file : List Bytes) (wal : Option Bytes) (pageSize : Nat) :
    Except PyErr FileStore := do
  let store ← FileStore.openFile file pageSize
  match replayWal wal store with
  | (.error e, _) => .error e
  | (.ok (), store) => .ok store

/-! ## Serial histories -/

inductive Outcome where
  | committed
  | rolledBack
  | unfinished
  deriving DecidableEq, Repr

/-- A transaction and the bodies it gave to pages, in order. -/
structure Transaction where
  id : Nat
  mutations : List (Nat × Bytes)
  outcome : Outcome
  deriving DecidableEq, Repr

/-- The body of every page. -/
abbrev Bodies := Nat → Bytes

namespace Transaction

def pages (tx : Transaction) : List Nat := tx.mutations.map Prod.fst

/-- The bodies the transaction leaves: its own if it commits, else the old ones. -/
def result (bodies : Bodies) (tx : Transaction) : Bodies :=
  if tx.outcome = .committed then
    tx.mutations.foldl (fun bodies m => Function.update bodies m.1 m.2) bodies
  else bodies

def mutationRecords (id : Nat) : Nat → Bodies → List (Nat × Bytes) → List WalRecord
  | _, _, [] => []
  | lsn, bodies, (p, new) :: ms =>
    ⟨lsn, id, .mutate, p, bodies p, new⟩ ::
      mutationRecords id (lsn + 1) (Function.update bodies p new) ms

def endRecords (lsn : Nat) (tx : Transaction) : List WalRecord :=
  match tx.outcome with
  | .committed => [⟨lsn, tx.id, .txCommit, 0, [], []⟩]
  | .rolledBack => [⟨lsn, tx.id, .txRollback, 0, [], []⟩]
  | .unfinished => []

/-- What the transaction appends to the log, from LSN `lsn` on. -/
def records (lsn : Nat) (bodies : Bodies) (tx : Transaction) : List WalRecord :=
  mutationRecords tx.id lsn bodies tx.mutations ++ tx.endRecords (lsn + tx.mutations.length)

/-- The body `p` had just before the last of the mutations of `p`. -/
def lastBefore (p : Nat) : Bodies → List (Nat × Bytes) → Option Bytes
  | _, [] => none
  | bodies, (q, new) :: ms =>
    match lastBefore p (Function.update bodies q new) ms with
    | some body => some body
    | none => if q = p then some (bodies p) else none

end Transaction

abbrev History := List Transaction

namespace History

def records : Nat → Bodies → History → List WalRecord
  | _, _, [] => []
  | lsn, bodies, tx :: rest =>
    tx.records lsn bodies ++
      records (lsn + (tx.records lsn bodies).length) (tx.result bodies) rest

/-- The bodies after exactly the committed transactions. -/
def committedBodies (bodies : Bodies) (history : History) : Bodies :=
  history.foldl (fun bodies tx => tx.result bodies) bodies

def pages (history : History) : List Nat := history.flatMap Transaction.pages

/-- Transactions have distinct ids and only the last may be unfinished. -/
structure Serial (history : History) : Prop where
  ids : (history.map Transaction.id).Nodup
  finished : ∀ tx ∈ history.dropLast, tx.outcome ≠ .unfinished

/-- On every page whose last writer did not commit, the body before the writer's
last mutation of it is the body it had when the writer began. -/
def UndoneByLast : Bodies → History → Prop
  | _, [] => True
  | bodies, tx :: rest =>
    (tx.outcome ≠ .committed → ∀ p ∈ tx.pages, p ∉ pages rest →
      Transaction.lastBefore p bodies tx.mutations = some (bodies p)) ∧
      UndoneByLast (tx.result bodies) rest

instance UndoneByLast.instDecidable : ∀ bodies history, Decidable (UndoneByLast bodies history)
  | _, [] => isTrue trivial
  | bodies, tx :: rest =>
    @instDecidableAnd _ _ _ (UndoneByLast.instDecidable (tx.result bodies) rest)

end History

/-! ## What one pass leaves -/

/-- The image of the last mutation of page `p`, as replay picks it. -/
def lastImage (committed : List Nat) (p : Nat) : List WalRecord → Option Bytes
  | [] => none
  | r :: records =>
    match lastImage committed p records with
    | some body => some body
    | none =>
      if r.kind = .mutate ∧ r.pageId = p then
        some (if r.txId ∈ committed then r.after else r.before)
      else none

theorem lastImage_append (committed : List Nat) (p : Nat) (a b : List WalRecord) :
    lastImage committed p (a ++ b) = (lastImage committed p b).or (lastImage committed p a) := by
  induction a with
  | nil => simp [lastImage]
  | cons r a ih =>
    rw [List.cons_append, lastImage, ih]
    cases lastImage committed p b with
    | none => rfl
    | some body => rfl

/-- The page a record mutates is there and both its images fit a page body. -/
private structure Applicable (store : FileStore) (r : WalRecord) : Prop where
  page : r.kind = .mutate → ∃ page, store.readPage r.pageId = .ok page ∧ page.pageId = r.pageId
  before : r.before.length ≤ store.bodySize
  after : r.after.length ≤ store.bodySize

/-- One step of the pass: the page gets the image, every other page stays. -/
private theorem write_image {store : FileStore} {page : Page} {p : Nat} {body : Bytes}
    (hsmall : store.bodySize < 256 ^ 2) (hread : store.readPage p = .ok page)
    (hid : page.pageId = p) (hfit : body.length ≤ store.bodySize) :
    ∃ store', store.writePage { page with body := body } = .ok store' ∧
      store'.bodySize = store.bodySize ∧
      ∀ i, store'.readPage i =
        if i = p then .ok { page with body := body } else store.readPage i := by
  obtain ⟨hb, hlsn⟩ := FileStore.readPage_bounds hread
  have hlt := FileStore.readPage_lt hread
  obtain ⟨store', hw⟩ := FileStore.writePage_ok store { page with body := body } hb hlsn
    (Nat.lt_of_le_of_lt hfit hsmall)
  have hsame := FileStore.sameExcept_writePage hw (by rw [hid]; exact hlt)
  refine ⟨store', hw, ?_, ?_⟩
  · rw [FileStore.bodySize, hsame.pageSize]
    rfl
  · intro i
    rw [FileStore.readPage_writePage hw (by rw [hid]; exact Nat.le_of_lt hlt) i, hid,
      List.take_of_length_le hfit]

/-- **One pass leaves the last image of every page.** -/
private theorem replayRecords_spec (committed : List Nat) (records : List WalRecord)
    (store : FileStore) (hsmall : store.bodySize < 256 ^ 2)
    (happ : ∀ r ∈ records, Applicable store r) :
    ∃ store', replayRecords committed records store = (.ok (), store') ∧
      ∀ p page, store.readPage p = .ok page →
        store'.readPage p =
          .ok { page with body := (lastImage committed p records).getD page.body } := by
  induction records generalizing store with
  | nil => exact ⟨store, rfl, fun p page h => h⟩
  | cons r records ih =>
    have hr := happ r List.mem_cons_self
    have hrest : ∀ r' ∈ records, Applicable store r' := fun r' h =>
      happ r' (List.mem_cons_of_mem _ h)
    by_cases hk : r.kind = .mutate
    · obtain ⟨page, hread, hid⟩ := hr.page hk
      have hfit : (if r.txId ∈ committed then r.after else r.before).length ≤ store.bodySize := by
        split
        · exact hr.after
        · exact hr.before
      obtain ⟨store₁, hw, hsize, hreads⟩ := write_image hsmall hread hid hfit
      obtain ⟨store', hrun, hspec⟩ := ih store₁ (by rw [hsize]; exact hsmall) (by
        intro r' h'
        refine ⟨?_, by rw [hsize]; exact (hrest r' h').before,
          by rw [hsize]; exact (hrest r' h').after⟩
        intro hk'
        rw [hreads]
        split
        · rename_i he
          exact ⟨_, rfl, by rw [he]; exact hid⟩
        · exact (hrest r' h').page hk')
      refine ⟨store', ?_, ?_⟩
      · simp only [replayRecords, hk, if_true, hread, hw, hrun]
      · intro p old hold
        by_cases hp : r.pageId = p
        · subst hp
          rw [hread, Except.ok.injEq] at hold
          subst hold
          rw [hspec _ _ (by rw [hreads, if_pos rfl]), lastImage]
          cases lastImage committed r.pageId records with
          | none => simp [hk]
          | some body => rfl
        · rw [hspec p old (by rw [hreads, if_neg (fun e => hp e.symm)]; exact hold), lastImage]
          cases lastImage committed p records with
          | none => simp [hp]
          | some body => rfl
    · obtain ⟨store', hrun, hspec⟩ := ih store hsmall hrest
      refine ⟨store', by simp only [replayRecords, hk, if_false, hrun], ?_⟩
      intro p page hread
      rw [hspec p page hread, lastImage]
      cases lastImage committed p records with
      | none => simp [hk]
      | some body => rfl

/-! ## The images of a history -/

namespace Transaction

private theorem lastImage_end (committed : List Nat) (p lsn : Nat) (tx : Transaction) :
    lastImage committed p (tx.endRecords lsn) = none := by
  unfold endRecords
  cases tx.outcome <;> simp [lastImage]

/-- Of a transaction that did not commit the pass keeps the last before-image. -/
private theorem lastImage_uncommitted {committed : List Nat} {id : Nat} (hid : id ∉ committed)
    (p lsn : Nat) (bodies : Bodies) (ms : List (Nat × Bytes)) :
    lastImage committed p (mutationRecords id lsn bodies ms) = lastBefore p bodies ms := by
  induction ms generalizing lsn bodies with
  | nil => rfl
  | cons m ms ih =>
    obtain ⟨q, new⟩ := m
    rw [mutationRecords, lastImage, lastBefore, ih]
    cases lastBefore p (Function.update bodies q new) ms with
    | some body => rfl
    | none =>
      by_cases hq : q = p
      · simp [hid, hq]
      · simp [hq]

/-- Of a committed transaction the pass keeps the body it left. -/
private theorem lastImage_committed {committed : List Nat} {id : Nat} (hid : id ∈ committed)
    (p lsn : Nat) (bodies : Bodies) (ms : List (Nat × Bytes)) :
    (lastImage committed p (mutationRecords id lsn bodies ms)).getD (bodies p) =
      ms.foldl (fun bodies m => Function.update bodies m.1 m.2) bodies p := by
  induction ms generalizing lsn bodies with
  | nil => rfl
  | cons m ms ih =>
    obtain ⟨q, new⟩ := m
    have hrest := ih (lsn + 1) (Function.update bodies q new)
    rw [List.foldl_cons, ← hrest, mutationRecords, lastImage]
    cases lastImage committed p (mutationRecords id (lsn + 1) (Function.update bodies q new) ms)
      with
    | some body => rfl
    | none =>
      by_cases hq : q = p
      · subst hq
        simp [hid]
      · have hp : p ≠ q := fun e => hq e.symm
        simp [hq, hp]

private theorem lastImage_isSome (committed : List Nat) (id p lsn : Nat) (bodies : Bodies)
    (ms : List (Nat × Bytes)) :
    (lastImage committed p (mutationRecords id lsn bodies ms)).isSome ↔ p ∈ ms.map Prod.fst := by
  induction ms generalizing lsn bodies with
  | nil => simp [mutationRecords, lastImage]
  | cons m ms ih =>
    obtain ⟨q, new⟩ := m
    rw [mutationRecords, lastImage, List.map_cons, List.mem_cons, ← ih (lsn + 1)
      (Function.update bodies q new)]
    cases lastImage committed p (mutationRecords id (lsn + 1) (Function.update bodies q new) ms)
      with
    | some body => simp
    | none =>
      by_cases hq : q = p
      · simp [hq]
      · have hp : p ≠ q := fun e => hq e.symm
        simp [hq, hp]

private theorem result_of_not_mem {bodies : Bodies} {p : Nat} (tx : Transaction)
    (hp : p ∉ tx.pages) : tx.result bodies p = bodies p := by
  have hfold : ∀ (ms : List (Nat × Bytes)) (bodies : Bodies), p ∉ ms.map Prod.fst →
      ms.foldl (fun bodies m => Function.update bodies m.1 m.2) bodies p = bodies p := by
    intro ms
    induction ms with
    | nil => exact fun _ _ => rfl
    | cons m ms ih =>
      intro bodies hm
      simp only [List.map_cons, List.mem_cons, not_or] at hm
      rw [List.foldl_cons, ih _ hm.2, Function.update_of_ne hm.1]
  rw [result]
  split
  · exact hfold _ _ hp
  · rfl

end Transaction

namespace History

private theorem lastImage_records (committed : List Nat) (p lsn : Nat) (bodies : Bodies)
    (tx : Transaction) :
    lastImage committed p (tx.records lsn bodies) =
      lastImage committed p (Transaction.mutationRecords tx.id lsn bodies tx.mutations) := by
  rw [Transaction.records, lastImage_append, Transaction.lastImage_end, Option.none_or]

private theorem lastImage_none {committed : List Nat} {p lsn : Nat} {bodies : Bodies}
    {history : History} (hp : p ∉ pages history) :
    lastImage committed p (records lsn bodies history) = none := by
  induction history generalizing lsn bodies with
  | nil => rfl
  | cons tx rest ih =>
    simp only [pages, List.flatMap_cons, List.mem_append, not_or] at hp
    rw [records, lastImage_append, ih hp.2, Option.none_or, lastImage_records,
      ← Option.not_isSome_iff_eq_none, Transaction.lastImage_isSome]
    exact hp.1

private theorem lastImage_mem (committed : List Nat) {p : Nat} (lsn : Nat) (bodies : Bodies)
    {history : History} (hp : p ∈ pages history) :
    ∃ body, lastImage committed p (records lsn bodies history) = some body := by
  induction history generalizing lsn bodies with
  | nil => cases hp
  | cons tx rest ih =>
    rw [records, lastImage_append]
    by_cases hin : p ∈ pages rest
    · obtain ⟨body, hbody⟩ := ih (lsn + (tx.records lsn bodies).length)
        (tx.result bodies) hin
      exact ⟨body, by rw [hbody, Option.some_or]⟩
    · simp only [pages, List.flatMap_cons, List.mem_append] at hp
      rw [lastImage_none hin, Option.none_or, lastImage_records]
      exact Option.isSome_iff_exists.mp
        ((Transaction.lastImage_isSome _ _ _ _ _ _).mpr (hp.resolve_right hin))

private theorem committedBodies_of_not_mem {bodies : Bodies} {history : History} {p : Nat}
    (hp : p ∉ pages history) : committedBodies bodies history p = bodies p := by
  induction history generalizing bodies with
  | nil => rfl
  | cons tx rest ih =>
    simp only [pages, List.flatMap_cons, List.mem_append, not_or] at hp
    have hrec : committedBodies bodies (tx :: rest) p = committedBodies (tx.result bodies) rest p :=
      rfl
    rw [hrec, ih hp.2]
    exact tx.result_of_not_mem hp.1

/-- What the pass keeps of the last writer of a page is right iff the writer
committed or its last before-image is the body it started from. -/
private theorem lastImage_tx {committed : List Nat} {tx : Transaction}
    (hc : tx.id ∈ committed ↔ tx.outcome = .committed) {p : Nat} (hp : p ∈ tx.pages) (lsn : Nat)
    (bodies : Bodies) :
    lastImage committed p (tx.records lsn bodies) = some (tx.result bodies p) ↔
      (tx.outcome ≠ .committed →
        Transaction.lastBefore p bodies tx.mutations = some (bodies p)) := by
  rw [lastImage_records, Transaction.result]
  by_cases ho : tx.outcome = .committed
  · have himage := Transaction.lastImage_committed (hc.mpr ho) p lsn bodies tx.mutations
    obtain ⟨body, hbody⟩ := Option.isSome_iff_exists.mp
      ((Transaction.lastImage_isSome committed tx.id p lsn bodies tx.mutations).mpr hp)
    rw [hbody, Option.getD_some] at himage
    simp [ho, hbody, himage]
  · rw [Transaction.lastImage_uncommitted (fun h => ho (hc.mp h)), if_neg ho]
    simp [ho]

private theorem lastImage_iff {committed : List Nat} {history : History}
    (hc : ∀ tx ∈ history, tx.id ∈ committed ↔ tx.outcome = .committed) (lsn : Nat)
    (bodies : Bodies) :
    (∀ p ∈ pages history, lastImage committed p (records lsn bodies history) =
      some (committedBodies bodies history p)) ↔ UndoneByLast bodies history := by
  induction history generalizing lsn bodies with
  | nil => simp [pages, UndoneByLast]
  | cons tx rest ih =>
    have htx := hc tx List.mem_cons_self
    have hrest := ih (fun t ht => hc t (List.mem_cons_of_mem _ ht))
      (lsn + (tx.records lsn bodies).length) (tx.result bodies)
    have hbodies : committedBodies bodies (tx :: rest) = committedBodies (tx.result bodies) rest :=
      rfl
    rw [UndoneByLast, ← hrest, hbodies]
    constructor
    · intro h
      refine ⟨?_, ?_⟩
      · intro ho p hp hnot
        have hi := h p (by simp [pages, hp])
        rw [records, lastImage_append, lastImage_none hnot, Option.none_or,
          committedBodies_of_not_mem hnot] at hi
        exact (lastImage_tx htx hp lsn bodies).mp hi ho
      · intro p hp
        have hi := h p (by simp [pages] at hp ⊢; exact Or.inr hp)
        obtain ⟨body, hbody⟩ := lastImage_mem committed
          (lsn + (tx.records lsn bodies).length) (tx.result bodies) hp
        rw [records, lastImage_append, hbody, Option.some_or] at hi
        rw [hbody, hi]
    · rintro ⟨hlast, hothers⟩ p hp
      rw [records, lastImage_append]
      by_cases hin : p ∈ pages rest
      · rw [hothers p hin, Option.some_or]
      · have hptx : p ∈ tx.pages := by
          simp only [pages, List.flatMap_cons, List.mem_append] at hp
          exact hp.resolve_right hin
        rw [lastImage_none hin, Option.none_or, committedBodies_of_not_mem hin]
        exact (lastImage_tx htx hptx lsn bodies).mpr fun ho => hlast ho p hptx hin

private theorem mem_committedTx_end {id lsn : Nat} {tx : Transaction} :
    id ∈ committedTx (tx.endRecords lsn) ↔ tx.outcome = .committed ∧ tx.id = id := by
  unfold Transaction.endRecords committedTx
  cases tx.outcome <;> simp [eq_comm]

private theorem committedTx_mutations (id lsn : Nat) (bodies : Bodies) (ms : List (Nat × Bytes)) :
    committedTx (Transaction.mutationRecords id lsn bodies ms) = [] := by
  induction ms generalizing lsn bodies with
  | nil => rfl
  | cons m ms ih =>
    have := ih (lsn + 1) (Function.update bodies m.1 m.2)
    simpa [committedTx, Transaction.mutationRecords] using this

private theorem mem_committedTx {id lsn : Nat} {bodies : Bodies} {history : History} :
    id ∈ committedTx (records lsn bodies history) ↔
      ∃ tx ∈ history, tx.outcome = .committed ∧ tx.id = id := by
  induction history generalizing lsn bodies with
  | nil => simp [records, committedTx]
  | cons tx rest ih =>
    rw [records, committedTx_append, List.mem_append, ih, Transaction.records, committedTx_append,
      committedTx_mutations, List.nil_append, mem_committedTx_end, List.exists_mem_cons_iff]

/-- With distinct ids, replay counts as committed the transactions that are. -/
private theorem committed_iff {history : History} (hs : Serial history) (lsn : Nat)
    (bodies : Bodies) :
    ∀ tx ∈ history,
      tx.id ∈ committedTx (records lsn bodies history) ↔ tx.outcome = .committed := by
  intro tx htx
  rw [mem_committedTx]
  constructor
  · rintro ⟨tx', htx', ho, hid⟩
    rwa [List.inj_on_of_nodup_map hs.ids htx' htx hid] at ho
  · intro ho
    exact ⟨tx, htx, ho, rfl⟩

/-- All bodies of the history, old and new, fit a page body. -/
structure Fits (size : Nat) (bodies : Bodies) (history : History) : Prop where
  old : ∀ p ∈ pages history, (bodies p).length ≤ size
  new : ∀ tx ∈ history, ∀ m ∈ tx.mutations, m.2.length ≤ size

private theorem mem_mutationRecords {size id lsn : Nat} {bodies : Bodies}
    {ms : List (Nat × Bytes)} {r : WalRecord} (hold : ∀ m ∈ ms, (bodies m.1).length ≤ size)
    (hnew : ∀ m ∈ ms, m.2.length ≤ size)
    (hr : r ∈ Transaction.mutationRecords id lsn bodies ms) :
    r.pageId ∈ ms.map Prod.fst ∧ r.before.length ≤ size ∧ r.after.length ≤ size := by
  induction ms generalizing lsn bodies with
  | nil => cases hr
  | cons m ms ih =>
    obtain ⟨q, new⟩ := m
    rw [Transaction.mutationRecords, List.mem_cons] at hr
    rcases hr with rfl | hr
    · exact ⟨List.mem_cons_self, hold _ List.mem_cons_self, hnew _ List.mem_cons_self⟩
    · have hold' : ∀ m ∈ ms, (Function.update bodies q new m.1).length ≤ size := by
        intro m hm
        by_cases he : m.1 = q
        · rw [he, Function.update_self]
          exact hnew _ List.mem_cons_self
        · rw [Function.update_of_ne he]
          exact hold m (List.mem_cons_of_mem _ hm)
      obtain ⟨hp, hsizes⟩ := ih hold' (fun m hm => hnew m (List.mem_cons_of_mem _ hm)) hr
      exact ⟨List.mem_cons_of_mem _ hp, hsizes⟩

private theorem foldl_update_length {size : Nat} {ms : List (Nat × Bytes)} {b : Bodies}
    {p : Nat} (hnew : ∀ m ∈ ms, m.2.length ≤ size) (hp : (b p).length ≤ size) :
    (ms.foldl (fun bodies m => Function.update bodies m.1 m.2) b p).length ≤ size := by
  induction ms generalizing b with
  | nil => exact hp
  | cons m ms ih =>
    refine ih (b := Function.update b m.1 m.2)
      (fun m' hm => hnew m' (List.mem_cons_of_mem _ hm)) ?_
    by_cases he : p = m.1
    · rw [he, Function.update_self]
      exact hnew m List.mem_cons_self
    · rw [Function.update_of_ne he]
      exact hp

private theorem mem_records {size lsn : Nat} {bodies : Bodies} {history : History}
    {r : WalRecord} (hf : Fits size bodies history) (hr : r ∈ records lsn bodies history) :
    (r.kind = .mutate → r.pageId ∈ pages history) ∧ r.before.length ≤ size ∧
      r.after.length ≤ size := by
  induction history generalizing lsn bodies with
  | nil => cases hr
  | cons tx rest ih =>
    have hpages : pages (tx :: rest) = tx.pages ++ pages rest := rfl
    have hnew : ∀ m ∈ tx.mutations, m.2.length ≤ size := hf.new tx List.mem_cons_self
    rw [records, Transaction.records, List.mem_append, List.mem_append] at hr
    rcases hr with (hr | hr) | hr
    · obtain ⟨hp, hsizes⟩ := mem_mutationRecords
        (fun m hm => hf.old _ (by
          rw [hpages]
          exact List.mem_append_left _ (List.mem_map_of_mem hm)))
        hnew hr
      exact ⟨fun _ => by rw [hpages]; exact List.mem_append_left _ hp, hsizes⟩
    · unfold Transaction.endRecords at hr
      cases ho : tx.outcome <;> simp only [ho, List.mem_singleton, List.not_mem_nil] at hr
      all_goals
        subst hr
        refine ⟨?_, Nat.zero_le _, Nat.zero_le _⟩
        intro hk
        cases hk
    · have hrest : Fits size (tx.result bodies) rest := by
        refine ⟨?_, fun t ht => hf.new t (List.mem_cons_of_mem _ ht)⟩
        intro p hp
        have hold := hf.old p (by rw [hpages]; exact List.mem_append_right _ hp)
        rw [Transaction.result]
        split
        · exact foldl_update_length hnew hold
        · exact hold
      obtain ⟨hp, hsizes⟩ := ih hrest hr
      exact ⟨fun hk => by rw [hpages]; exact List.mem_append_right _ (hp hk), hsizes⟩

/-- `replay_wal` succeeds and leaves on every page the log names the body it has
after exactly the committed transactions. -/
def Restored (store : FileStore) (wal : Bytes) (bodies : Bodies) (history : History) : Prop :=
  ∃ store', replayWal (some wal) store = (.ok (), store') ∧
    ∀ p ∈ pages history, ∃ page, store'.readPage p = .ok page ∧
      page.body = committedBodies bodies history p

/-- **Replay is right exactly when the last before-images undo.** The pages the
log names may have any bodies at the crash. -/
theorem replay_restores_iff (store : FileStore) (lsn : Nat) (bodies : Bodies) (history : History)
    (wal : Bytes) (hserial : Serial history)
    (hlog : encodeLog (records lsn bodies history) = .ok wal)
    (hsize : store.pageSize ≤ FileStore.pageSizeMax)
    (hpages : ∀ p ∈ pages history, ∃ page, store.readPage p = .ok page ∧ page.pageId = p)
    (hfits : Fits store.bodySize bodies history) :
    Restored store wal bodies history ↔ UndoneByLast bodies history := by
  have hsmall : store.bodySize < 256 ^ 2 := by
    simp only [FileStore.bodySize, fileHeaderSize, FileStore.pageSizeMax] at hsize ⊢
    omega
  obtain ⟨store', hrun, hspec⟩ := replayRecords_spec
    (committedTx (records lsn bodies history)) (records lsn bodies history) store hsmall (fun r hr => by
      obtain ⟨hp, hb, ha⟩ := mem_records hfits hr
      exact ⟨fun hk => hpages _ (hp hk), hb, ha⟩)
  have hreplay : replayWal (some wal) store = (.ok (), store') := by
    simp only [replayWal, readLog_encodeLog hlog, hrun]
  rw [← lastImage_iff (committed_iff hserial lsn bodies) lsn bodies]
  constructor
  · rintro ⟨store'', hrun', hbodies⟩ p hp
    rw [hreplay, Prod.mk.injEq] at hrun'
    obtain ⟨-, rfl⟩ := hrun'
    obtain ⟨page, hread, -⟩ := hpages p hp
    obtain ⟨page', hread', hbody⟩ := hbodies p hp
    obtain ⟨image, himage⟩ := lastImage_mem (committedTx (records lsn bodies history)) lsn bodies hp
    rw [hspec p page hread, Except.ok.injEq] at hread'
    subst hread'
    rw [himage, Option.getD_some] at hbody
    rw [himage, ← hbody]
  · intro h
    refine ⟨store', hreplay, ?_⟩
    intro p hp
    obtain ⟨page, hread, -⟩ := hpages p hp
    exact ⟨_, hspec p page hread, by rw [h p hp, Option.getD_some]⟩

/-! ## Two histories -/

def logBytes (lsn : Nat) (bodies : Bodies) (history : History) : Bytes :=
  match encodeLog (records lsn bodies history) with
  | .ok wal => wal
  | .error _ => []

/-- A store of 512-byte pages with one table page, its body `body`. -/
def onePage (body : Bytes) : FileStore :=
  match FileStore.openFile [] 512 with
  | .error _ => ⟨[], 512, 0, 0⟩
  | .ok store =>
    match (allocPage store .table).2.writePage ⟨1, .table, 0, body⟩ with
    | .error _ => store
    | .ok store => store

/-- A committed transaction, then one that mutates the page once and is rolled
back: replay restores the committed body. -/
theorem replay_restores_single :
    Restored (onePage [3])
      (logBytes 1 (fun _ => [1]) [⟨1, [(1, [2])], .committed⟩, ⟨2, [(1, [3])], .rolledBack⟩])
      (fun _ => [1]) [⟨1, [(1, [2])], .committed⟩, ⟨2, [(1, [3])], .rolledBack⟩] :=
  (replay_restores_iff (onePage [3]) 1 (fun _ => [1]) _ _ ⟨by decide, by decide⟩ (by decide +kernel)
    (by decide +kernel) (fun p hp => by
      obtain rfl : p = 1 := by simpa [pages, Transaction.pages] using hp
      exact ⟨⟨1, .table, 0, [3]⟩, by decide +kernel, rfl⟩)
    ⟨by decide +kernel, by decide +kernel⟩).mpr (by decide +kernel)

/-- An unfinished transaction that mutated the page twice: the pass ends with the
body between its two mutations. -/
theorem replay_keeps_unfinished :
    encodeLog (records 1 (fun _ => [1]) [⟨1, [(1, [2]), (1, [3])], .unfinished⟩]) =
        .ok (logBytes 1 (fun _ => [1]) [⟨1, [(1, [2]), (1, [3])], .unfinished⟩]) ∧
      Serial [⟨1, [(1, [2]), (1, [3])], .unfinished⟩] ∧
      (onePage [3]).readPage 1 = .ok ⟨1, .table, 0, [3]⟩ ∧
      ¬ Restored (onePage [3]) (logBytes 1 (fun _ => [1]) [⟨1, [(1, [2]), (1, [3])], .unfinished⟩])
        (fun _ => [1]) [⟨1, [(1, [2]), (1, [3])], .unfinished⟩] := by
  refine ⟨by decide +kernel, ⟨by decide, by decide⟩, by decide +kernel, ?_⟩
  rintro ⟨store', hrun, hbodies⟩
  have hread : (replayWal (some (logBytes 1 (fun _ => [1])
      [⟨1, [(1, [2]), (1, [3])], .unfinished⟩])) (onePage [3])).2.readPage 1 =
      .ok ⟨1, .table, 0, [2]⟩ := by decide +kernel
  obtain ⟨page, hpage, hbody⟩ := hbodies 1 (by decide)
  rw [hrun, hpage, Except.ok.injEq] at hread
  subst hread
  exact absurd hbody (by decide)

end History

end TinyDB
