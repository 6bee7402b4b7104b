import TinyDB.Connections
import TinyDB.DmlStore
import TinyDB.HeapMap

/-!
# INSERT, one page access at a time

Two connections insert into one table, and each reads and writes its page when
it wants to: opening takes the shared file lock, which both can hold, and
`execute` takes no lock. A step is the part of an INSERT up to its next access
of the page. `inserts_preserved`: as long as every append writes over the page
that it read, each row of each INSERT that returned is in the table once.
-/

namespace TinyDB

open Lib FileStore

/-! ## The file lock -/

inductive LockMode where
  | shared
  | exclusive
  deriving DecidableEq, Repr

/-- `flock` on a file on which others hold locks. -/
def FileLock.acquire (held : List LockMode) : LockMode → Option (List LockMode)
  | .shared => if LockMode.exclusive ∈ held then none else some (.shared :: held)
  | .exclusive => if held = [] then some [.exclusive] else none

/-- Connections take the shared lock only, so opening one more succeeds. -/
theorem acquire_beside_connections (n : Nat) :
    FileLock.acquire (List.replicate n .shared) .shared =
      some (List.replicate (n + 1) .shared) := by
  rw [FileLock.acquire, if_neg]
  · rfl
  · intro h
    cases List.eq_of_mem_replicate h

/-! ## Steps -/

/-- Where a connection stands in its INSERT. -/
inductive InsertPhase where
  | idle
  /-- Before a tuple. -/
  | next (colNames : List String) (valuesList : List (List Value))
  /-- The row passed its checks. -/
  | checked (colNames : List String) (ordered : Row) (valuesList : List (List Value))
  /-- `append` has read the page. -/
  | read (colNames : List String) (ordered : Row) (page : Page) (valuesList : List (List Value))
  deriving DecidableEq

/-- The row that a phase is about to write is one of the schema. -/
def InsertPhase.Fits (entry : TableMeta) : InsertPhase → Prop
  | .checked _ ordered _ => ordered.length = entry.schema.length
  | .read _ ordered _ _ => ordered.length = entry.schema.length
  | _ => True

/-- The statements a connection has still to run, and the rows that the present one added. -/
structure Inserter where
  todo : List Insert
  phase : InsertPhase
  rows : List (Nat × Row)

/-- The store is what both connections share: page reads and writes use the file only.
`given` are all rows that were written, `returned` those of the INSERTs that returned. -/
structure Inserting where
  store : FileStore
  writer : Side → Inserter
  given : List (Nat × Row)
  returned : List (Nat × Row)

namespace Inserting

variable (entry : TableMeta) (constraints : Side → ColumnConstraints)

def setWriter (st : Inserting) (side : Side) (writer : Inserter) : Inserting :=
  { st with writer := Function.update st.writer side writer }

/-- The statement raises; what it wrote stays. -/
def raise (st : Inserting) (side : Side) : Inserting :=
  st.setWriter side ⟨(st.writer side).todo, .idle, []⟩

def goto (st : Inserting) (side : Side) (phase : InsertPhase) : Inserting :=
  st.setWriter side { st.writer side with phase }

/-- The second half of `append`: the row is added to the page that was read. -/
def writeRow (store : FileStore) (page : Page) (ordered : Row) : Except PyErr (Nat × FileStore) := do
  let (rowid, body) ← Heap.appendBody entry.schema ordered page.body
  let store ← store.writePage { page with body := body }
  .ok (rowid, store)

/-- One connection goes on to its next page access. -/
def step (st : Inserting) (side : Side) : Inserting :=
  match (st.writer side).phase with
  | .idle =>
    match (st.writer side).todo with
    | [] => st
    | stmt :: todo =>
      st.setWriter side ⟨todo, .next (insertColumns entry stmt.columns) stmt.values, []⟩
  | .next _ [] =>
    { st.setWriter side ⟨(st.writer side).todo, .idle, []⟩ with
      returned := st.returned ++ (st.writer side).rows }
  | .next colNames (values :: valuesList) =>
    match checkTuple entry (constraints side) colNames st.store values with
    | .error _ => st.raise side
    | .ok ordered => st.goto side (.checked colNames ordered valuesList)
  | .checked colNames ordered valuesList =>
    match st.store.readPage entry.rootPageId with
    | .error _ => st.raise side
    | .ok page => st.goto side (.read colNames ordered page valuesList)
  | .read colNames ordered page valuesList =>
    match writeRow entry st.store page ordered with
    | .error _ => st.raise side
    | .ok (rowid, store) =>
      { st.setWriter side ⟨(st.writer side).todo, .next colNames valuesList,
          (st.writer side).rows ++ [(rowid, ordered)]⟩ with
        store := store
        given := st.given ++ [(rowid, ordered)] }

def start (store : FileStore) (todo : Side → List Insert) : Inserting :=
  ⟨store, fun side => ⟨todo side, .idle, []⟩, [], []⟩

/-- A scan shows each row of each INSERT that returned once, and no rowid was given to two
rows. -/
def Preserved (st : Inserting) : Prop :=
  (∃ rows, entry.heap.scan st.store = .ok rows ∧
    ∀ row ∈ st.returned, rows.count (row.1, readBackRow row.2) = 1) ∧
  (st.given.map Prod.fst).Nodup

/-- The page that is about to be written is still the one that was read, and has room. -/
def Undisturbed (st : Inserting) (side : Side) : Prop :=
  match (st.writer side).phase with
  | .read _ ordered page _ =>
    st.store.readPage entry.rootPageId = .ok page ∧
      entry.heap.withinCapacity st.store (.append ordered) = true
  | _ => True

instance (st : Inserting) (side : Side) : Decidable (Undisturbed entry st side) := by
  unfold Undisturbed
  split <;> infer_instance

/-- A page that heap calls made of an empty one without hitting a moved row. -/
def Grown (heap : Heap) (store : FileStore) : Prop :=
  ∃ store0 ops, heap.Fresh store0 ∧
    Along heap.call (fun st op => heap.Legal st op ∧ heap.KeepsMap st op) (Heap.start store0) ops ∧
    (run heap.call (Heap.start store0) ops).store = store

/-! ## A statement that is not interrupted -/

variable {entry constraints}

/-- The two halves are `append`. -/
theorem append_eq (store : FileStore) (ordered : Row) :
    entry.heap.append store ordered =
      (store.readPage entry.rootPageId).bind fun page => writeRow entry store page ordered := rfl

/-- The steps of a statement that runs alone do what `execInsert` does. -/
theorem run_alone (side : Side) (colNames : List String) (valuesList : List (List Value))
    (st : Inserting) (hphase : (st.writer side).phase = .next colNames valuesList) :
    ∃ n, let st' := run (step entry constraints) st (List.replicate n side)
      let result := insertRows entry.heap entry (constraints side) colNames st.store valuesList
      st'.store = result.2 ∧ (st'.writer side).phase = .idle ∧
        (result.1.isOk = false → st'.returned = st.returned) ∧
        (result.1.isOk = true → ∃ rows, st'.returned = st.returned ++ ((st.writer side).rows ++ rows) ∧
          rows.length = valuesList.length) := by
  induction valuesList generalizing st with
  | nil =>
    refine ⟨1, ?_⟩
    simp only [List.replicate_one, run, List.foldl_cons, List.foldl_nil, step, hphase, insertRows,
      setWriter, Function.update_self, true_and]
    exact ⟨fun h => (by cases h), fun _ => ⟨[], by simp, rfl⟩⟩
  | cons values valuesList ih =>
    cases hc : checkTuple entry (constraints side) colNames st.store values with
    | error e =>
      refine ⟨1, ?_⟩
      have hrow : insertRow entry.heap entry (constraints side) colNames st.store values =
          .error e := by rw [insertRow_eq, hc]; rfl
      simp only [List.replicate_one, run, List.foldl_cons, List.foldl_nil, step, hphase, hc,
        insertRows, hrow, raise, setWriter, Function.update_self, true_and]
      exact ⟨fun _ => trivial, fun h => by cases h⟩
    | ok ordered =>
      have hone : step entry constraints st side =
          st.goto side (.checked colNames ordered valuesList) := by simp only [step, hphase, hc]
      cases hr : st.store.readPage entry.rootPageId with
      | error e =>
        refine ⟨2, ?_⟩
        have hrow : insertRow entry.heap entry (constraints side) colNames st.store values =
            .error e := by
          rw [insertRow_eq, hc, ok_bind, append_eq, hr]
          rfl
        simp only [show List.replicate 2 side = [side, side] from rfl, run, List.foldl_cons,
          List.foldl_nil, hone]
        simp only [step, goto, setWriter, Function.update_self, hr, raise, insertRows, hrow,
          true_and]
        exact ⟨fun _ => trivial, fun h => by cases h⟩
      | ok page =>
        have htwo : step entry constraints (st.goto side (.checked colNames ordered valuesList))
            side = (st.goto side (.checked colNames ordered valuesList)).goto side
              (.read colNames ordered page valuesList) := by
          simp only [step, goto, setWriter, Function.update_self, hr]
        cases hw : writeRow entry st.store page ordered with
        | error e =>
          refine ⟨3, ?_⟩
          have hrow : insertRow entry.heap entry (constraints side) colNames st.store values =
              .error e := by
            rw [insertRow_eq, hc, ok_bind, append_eq, hr]
            simp only [Except.bind, hw]
            rfl
          simp only [show List.replicate 3 side = [side, side, side] from rfl, run,
            List.foldl_cons, List.foldl_nil, hone, htwo]
          simp only [step, goto, setWriter, Function.update_self, hw, raise, insertRows, hrow,
            true_and]
          exact ⟨fun _ => trivial, fun h => by cases h⟩
        | ok written =>
          obtain ⟨rowid, store'⟩ := written
          have hrow : insertRow entry.heap entry (constraints side) colNames st.store values =
              .ok store' := by
            rw [insertRow_eq, hc, ok_bind, append_eq, hr]
            simp only [Except.bind, hw]
            rfl
          obtain ⟨st3, hst3⟩ : ∃ st3, st3 = step entry constraints ((st.goto side
              (.checked colNames ordered valuesList)).goto side
                (.read colNames ordered page valuesList)) side := ⟨_, rfl⟩
          have h3 := hst3
          simp only [step, goto, setWriter, Function.update_self, hw] at h3
          obtain ⟨n, hstore, hidle, herr, hok⟩ := ih st3 (by rw [h3]; simp only
            [Function.update_self])
          refine ⟨n + 3, ?_⟩
          have hrun : run (step entry constraints) st (List.replicate (n + 3) side) =
              run (step entry constraints) st3 (List.replicate n side) := by
            have hrep : List.replicate (n + 3) side =
                side :: side :: side :: List.replicate n side := rfl
            rw [hrep]
            simp only [run, List.foldl_cons, hone, htwo, ← hst3]
          simp only [h3, Function.update_self] at hstore herr hok
          simp only [hrun, insertRows, hrow]
          rw [h3] at hidle ⊢
          refine ⟨hstore, hidle, herr, fun h => ?_⟩
          obtain ⟨rows, hret, hlen⟩ := hok h
          exact ⟨(rowid, ordered) :: rows, by simpa using hret, by simp [hlen]⟩

/-! ## Both at once -/

/-- The page is a heap, and all rows given so far are in it. -/
structure Safe (entry : TableMeta) (st : Inserting) : Prop where
  heap : ∃ hs page slots, hs.store = st.store ∧ Heap.HeapInv entry.heap hs page slots ∧
    ∀ row ∈ st.given, hs.rows row.1 = some (readBackRow row.2) ∧ row.1 ∈ hs.used
  nodup : (st.given.map Prod.fst).Nodup
  current : ∀ side, ∀ row ∈ (st.writer side).rows, row ∈ st.given
  returned : ∀ row ∈ st.returned, row ∈ st.given
  fits : ∀ side, (st.writer side).phase.Fits entry

theorem Safe.preserved {st : Inserting} (h : Safe entry st) : Preserved entry st := by
  obtain ⟨hs, page, slots, hstore, hinv, hgiven⟩ := h.heap
  obtain ⟨⟨rows, hscan, hlists⟩, -⟩ := hinv.refines
  refine ⟨⟨rows, by rw [← hstore]; exact hscan, fun row hr => ?_⟩, h.nodup⟩
  have hmem : (row.1, readBackRow row.2) ∈ rows :=
    (hlists.mem_iff _ _).mpr (hgiven row (h.returned row hr)).1
  exact List.count_eq_one_of_mem hlists.nodup.of_map hmem

theorem safe_start {store : FileStore} (h : Grown entry.heap store) (todo : Side → List Insert) :
    Safe entry (start store todo) := by
  obtain ⟨store0, ops, hfresh, halong, rfl⟩ := h
  obtain ⟨page, hinv⟩ := hfresh.heapInv
  have hrun := reached_of_along (fun st => ∃ page slots, Heap.HeapInv entry.heap st page slots)
    (fun st op ⟨_, _, h⟩ hl => by
      cases op with
      | append values => exact Heap.append_keeps h hl.1
      | update r values => exact Heap.update_keeps h hl.1 hl.2
      | delete r => exact Heap.delete_keeps h hl.1 hl.2) ⟨page, [], hinv⟩ halong
  obtain ⟨page', slots', hinv'⟩ := hrun.last
  exact ⟨⟨_, page', slots', rfl, hinv', by simp [start]⟩, by simp [start], by simp [start],
    by simp [start], fun side => True.intro⟩

/-- A connection that only moves on. -/
theorem Safe.setWriter {st : Inserting} (h : Safe entry st) (side : Side) (writer : Inserter)
    (hrows : ∀ row ∈ writer.rows, row ∈ st.given) (hfits : writer.phase.Fits entry) :
    Safe entry (st.setWriter side writer) := by
  refine ⟨h.heap, h.nodup, fun other => ?_, h.returned, fun other => ?_⟩
  · by_cases he : other = side
    · subst he
      simpa only [Inserting.setWriter, Function.update_self] using hrows
    · simpa only [Inserting.setWriter, Function.update_of_ne he] using h.current other
  · by_cases he : other = side
    · subst he
      simpa only [Inserting.setWriter, Function.update_self] using hfits
    · simpa only [Inserting.setWriter, Function.update_of_ne he] using h.fits other

theorem Safe.raise {st : Inserting} (h : Safe entry st) (side : Side) :
    Safe entry (st.raise side) := h.setWriter side _ (by simp) True.intro

/-- **The write of an append** to the page that it read. -/
theorem safe_write {st : Inserting} (h : Safe entry st) {side : Side} {ordered : Row} {page : Page}
    (hread : st.store.readPage entry.rootPageId = .ok page)
    (hroom : entry.heap.withinCapacity st.store (.append ordered) = true)
    (harity : ordered.length = entry.schema.length) {rowid : Nat} {store' : FileStore}
    (hw : writeRow entry st.store page ordered = .ok (rowid, store')) (colNames : List String)
    (valuesList : List (List Value)) :
    Safe entry { st.setWriter side ⟨(st.writer side).todo, .next colNames valuesList,
        (st.writer side).rows ++ [(rowid, ordered)]⟩ with
      store := store'
      given := st.given ++ [(rowid, ordered)] } := by
  obtain ⟨hs, page0, slots, hstore, hinv, hgiven⟩ := h.heap
  have happ : entry.heap.append hs.store ordered = .ok (rowid, store') := by
    rw [hstore, append_eq, hread]
    exact hw
  have hlegal : entry.heap.Legal hs (.append ordered) := ⟨by rw [hstore]; exact hroom, harity⟩
  obtain ⟨page', slots', hinv'⟩ := Heap.append_keeps hinv hlegal
  simp only [Heap.call, happ] at hinv'
  -- the rowid is one that no row has yet
  have hnew : ∀ row ∈ st.given, row.1 ≠ rowid := by
    intro row hr he
    have hused := hinv'.used
    rw [List.nodup_append] at hused
    exact hused.2.2 row.1 (hgiven row hr).2 rowid (List.mem_singleton_self _) he
  refine ⟨⟨_, page', slots', rfl, hinv', ?_⟩, ?_, fun other => ?_, ?_, fun other => ?_⟩
  · intro row hr
    rcases List.mem_append.mp hr with hr | hr
    · obtain ⟨hrow, hu⟩ := hgiven row hr
      simp only [Function.update_of_ne (hnew row hr), List.mem_append]
      exact ⟨hrow, Or.inl hu⟩
    · rw [List.mem_singleton] at hr
      subst hr
      simp only [Function.update_self, List.mem_append, List.mem_singleton, or_true, and_self]
  · rw [List.map_append, List.nodup_append]
    refine ⟨h.nodup, List.nodup_singleton _, ?_⟩
    intro a ha b hb
    obtain ⟨row, hr, rfl⟩ := List.mem_map.mp ha
    rw [List.map_singleton, List.mem_singleton] at hb
    rw [hb]
    exact hnew row hr
  · by_cases he : other = side
    · subst he
      simp only [Inserting.setWriter, Function.update_self]
      intro row hr
      rcases List.mem_append.mp hr with hr | hr
      · exact List.mem_append_left _ (h.current other row hr)
      · exact List.mem_append_right _ hr
    · simp only [Inserting.setWriter, Function.update_of_ne he]
      exact fun row hr => List.mem_append_left _ (h.current other row hr)
  · exact fun row hr => List.mem_append_left _ (h.returned row hr)
  · by_cases he : other = side
    · subst he
      simp only [Inserting.setWriter, Function.update_self]
      exact True.intro
    · simp only [Inserting.setWriter, Function.update_of_ne he]
      exact h.fits other

/-- One step. -/
theorem safe_step {st : Inserting} {side : Side} (h : Safe entry st)
    (hcond : Undisturbed entry st side) : Safe entry (step entry constraints st side) := by
  have hfits := h.fits side
  have hrows := h.current side
  unfold Undisturbed at hcond
  unfold step
  cases hphase : (st.writer side).phase with
  | idle =>
    simp only
    cases (st.writer side).todo with
    | nil => exact h
    | cons stmt todo => exact h.setWriter side _ (by simp) True.intro
  | next colNames valuesList =>
    cases valuesList with
    | nil =>
      have hset := h.setWriter side ⟨(st.writer side).todo, .idle, []⟩ (by simp) True.intro
      refine ⟨hset.heap, hset.nodup, hset.current, ?_, hset.fits⟩
      intro row hr
      rcases List.mem_append.mp hr with hr | hr
      · exact h.returned row hr
      · exact hrows row hr
    | cons values valuesList =>
      simp only
      cases hc : checkTuple entry (constraints side) colNames st.store values with
      | error e => exact h.raise side
      | ok ordered =>
        refine h.setWriter side _ hrows ?_
        simp only [checkTuple, bind_eq_ok] at hc
        obtain ⟨ordered', hp, hc⟩ := hc
        have hlen := prepareRow_length hp
        have he : ordered' = ordered := by
          split at hc
          · simp only [bind_eq_ok, Except.ok.injEq] at hc
            obtain ⟨-, -, he⟩ := hc
            exact he
          · exact Except.ok.inj hc
        rw [← he]
        exact hlen
  | checked colNames ordered valuesList =>
    rw [hphase] at hfits
    simp only
    cases st.store.readPage entry.rootPageId with
    | error e => exact h.raise side
    | ok page => exact h.setWriter side _ hrows hfits
  | read colNames ordered page valuesList =>
    rw [hphase] at hfits
    simp only [hphase] at hcond ⊢
    cases hw : writeRow entry st.store page ordered with
    | error e => exact h.raise side
    | ok written =>
      obtain ⟨rowid, store'⟩ := written
      exact safe_write h hcond.1 hcond.2 hfits hw colNames valuesList

/-- **No row is lost** in any interleaving of the steps of two connections, as long as
every append writes over the page that it read. -/
theorem inserts_preserved (entry : TableMeta) (constraints : Side → ColumnConstraints)
    (store : FileStore) (todo : Side → List Insert) (sides : List Side)
    (hgrown : Grown entry.heap store)
    (hcond : Along (step entry constraints) (Undisturbed entry) (start store todo) sides) :
    Reached (step entry constraints) (Preserved entry) (start store todo) sides :=
  Reached.mono (fun _ => Safe.preserved)
    (reached_of_along (Safe entry) (fun _ _ => safe_step) (safe_start hgrown todo) hcond)

/-! ## Two rows -/

def insertOne (n : Int) : Insert := ⟨"t", none, [[.int n]]⟩

/-- The table t, on the page that was just allocated for it. -/
def tableT : TableMeta := { name := "t", rootPageId := 1, schema := [("a", .int)] }

def oneEach : Inserting := start Heap.newStore fun
  | .a => [insertOne 1]
  | .b => [insertOne 2]

theorem tableT_grown : Grown tableT.heap Heap.newStore :=
  ⟨Heap.newStore, [], ⟨⟨⟨1, .table, 0, []⟩, by decide +kernel, rfl, rfl⟩, by decide +kernel,
    by decide +kernel⟩, True.intro, rfl⟩

/-- The second INSERT runs while the first is between its checks and its append. -/
theorem inserts_preserved_between :
    Reached (step tableT fun _ => OrdDict.empty) (Preserved tableT) oneEach
      [.a, .a, .b, .b, .b, .b, .b, .a, .a, .a] :=
  inserts_preserved tableT (fun _ => OrdDict.empty) Heap.newStore _ _ tableT_grown
    (by decide +kernel)

/-- Both INSERTs read the page before either writes it: one row is lost. -/
theorem insert_lost : ¬ ∀ (entry : TableMeta) (constraints : Side → ColumnConstraints)
    (store : FileStore) (todo : Side → List Insert) (sides : List Side), Grown entry.heap store →
      Reached (step entry constraints) (Preserved entry) (start store todo) sides := by
  intro h
  have hlast := (h tableT (fun _ => OrdDict.empty) Heap.newStore (fun
    | .a => [insertOne 1]
    | .b => [insertOne 2]) [.a, .a, .a, .b, .b, .b, .a, .a, .b, .b] tableT_grown).last
  have htwice : ¬ ((run (step tableT fun _ => OrdDict.empty) oneEach
      [.a, .a, .a, .b, .b, .b, .a, .a, .b, .b]).given.map Prod.fst).Nodup := by decide +kernel
  exact htwice hlast.2

end Inserting
end TinyDB
