import TinyDB.Statements
import TinyDB.UpdateFrame

/-!
# Does `rows_affected` tell what happened?

`execute` reports 1 for every INSERT, and for an UPDATE or a DELETE how often the loop
called the heap. `rows_affected_iff`: the number agrees with the table exactly when the
INSERT has one tuple, and when each row that satisfies the WHERE clause is the one that
the slot search finds under its rowid.
-/

namespace TinyDB

open Lib

/-! ## Keyed lists that lose rows -/

section

variable {κ ν : Type} [DecidableEq κ]

/-- The list without the first row of each of the keys, one after the other. -/
def dropKeys (keys : List κ) (rows : List (κ × ν)) : List (κ × ν) :=
  keys.foldl (fun rows key => rows.eraseP fun row => row.1 == key) rows

theorem dropKeys_sublist (keys : List κ) (rows : List (κ × ν)) :
    (dropKeys keys rows).Sublist rows := by
  induction keys generalizing rows with
  | nil => exact List.Sublist.refl _
  | cons key keys ih => exact (ih _).trans List.eraseP_sublist

theorem mem_dropKeys_of_not_mem {keys : List κ} {rows : List (κ × ν)} {row : κ × ν}
    (hr : row ∈ rows) (hk : row.1 ∉ keys) : row ∈ dropKeys keys rows := by
  induction keys generalizing rows with
  | nil => exact hr
  | cons key keys ih =>
    rw [List.mem_cons, not_or] at hk
    apply ih _ hk.2
    rw [List.mem_eraseP_of_neg]
    · exact hr
    · simpa using hk.1

/-- What the first row of a key is. -/
theorem split_of_find? {rows : List (κ × ν)} {key : κ} {row : κ × ν}
    (h : rows.find? (fun row => row.1 == key) = some row) :
    ∃ pre post, rows = pre ++ row :: post ∧ row.1 = key ∧ key ∉ pre.map Prod.fst := by
  obtain ⟨hkey, pre, post, rfl, hpre⟩ := List.find?_eq_some_iff_append.mp h
  refine ⟨pre, post, rfl, by simpa using hkey, ?_⟩
  intro hm
  obtain ⟨t, ht, rfl⟩ := List.mem_map.mp hm
  simpa using hpre t ht

theorem eraseP_split {pre post : List (κ × ν)} (row : κ × ν) (h : row.1 ∉ pre.map Prod.fst) :
    (pre ++ row :: post).eraseP (fun t => t.1 == row.1) = pre ++ post := by
  rw [List.eraseP_append_right, List.eraseP_cons_of_pos (by simp)]
  intro t ht he
  exact h (List.mem_map.mpr ⟨t, ht, by simpa using he⟩)

theorem find?_eraseP_of_ne {rows : List (κ × ν)} {key key' : κ} (hne : key ≠ key') :
    (rows.eraseP fun row => row.1 == key').find? (fun row => row.1 == key) =
      rows.find? fun row => row.1 == key := by
  induction rows with
  | nil => rfl
  | cons row rows ih =>
    by_cases h : row.1 = key'
    · have hrow : row.1 ≠ key := fun e => hne (e.symm.trans h)
      rw [List.eraseP_cons_of_pos (by simpa using h), List.find?_cons_of_neg (by simpa using hrow)]
    · rw [List.eraseP_cons_of_neg (by simpa using h), List.find?_cons, List.find?_cons, ih]

/-- A row that is not the first of its key stays. -/
theorem mem_dropKeys {keys : List κ} {rows : List (κ × ν)} {row : κ × ν} (hn : keys.Nodup)
    (hr : row ∈ rows) (hf : rows.find? (fun t => t.1 == row.1) ≠ some row) :
    row ∈ dropKeys keys rows := by
  induction keys generalizing rows with
  | nil => exact hr
  | cons key keys ih =>
    rw [List.nodup_cons] at hn
    have hcons : dropKeys (key :: keys) rows =
        dropKeys keys (rows.eraseP fun t => t.1 == key) := rfl
    rw [hcons]
    by_cases hk : row.1 = key
    · subst hk
      apply mem_dropKeys_of_not_mem _ hn.1
      cases hfind : rows.find? (fun t => t.1 == row.1) with
      | none => exact absurd (List.find?_eq_none.mp hfind row hr) (by simp)
      | some t =>
        obtain ⟨pre, post, rfl, ht, hpre⟩ := split_of_find? hfind
        rw [← ht] at hpre ⊢
        rw [eraseP_split _ hpre]
        rcases List.mem_append.mp hr with h | h
        · exact List.mem_append_left _ h
        · rcases List.mem_cons.mp h with rfl | h
          · exact absurd hfind hf
          · exact List.mem_append_right _ h
    · apply ih hn.2
      · rw [List.mem_eraseP_of_neg]
        · exact hr
        · simpa using hk
      · rw [find?_eraseP_of_ne hk]
        exact hf

/-- Each row that is the first of its key goes, and no other. -/
theorem countP_dropKeys {p : κ × ν → Bool} {hits rows : List (κ × ν)}
    (hn : (hits.map Prod.fst).Nodup) (hp : ∀ hit ∈ hits, p hit = true)
    (hf : ∀ hit ∈ hits, rows.find? (fun row => row.1 == hit.1) = some hit) :
    (dropKeys (hits.map Prod.fst) rows).countP p + hits.length = rows.countP p := by
  induction hits generalizing rows with
  | nil => rfl
  | cons hit hits ih =>
    rw [List.map_cons, List.nodup_cons] at hn
    have hself := List.mem_cons_self (a := hit) (l := hits)
    have hcons : dropKeys ((hit :: hits).map Prod.fst) rows =
        dropKeys (hits.map Prod.fst) (rows.eraseP fun t => t.1 == hit.1) := rfl
    have hrest : ∀ t ∈ hits, (rows.eraseP fun row => row.1 == hit.1).find?
        (fun row => row.1 == t.1) = some t := by
      intro t ht
      have hne : t.1 ≠ hit.1 := fun e => hn.1 (e ▸ List.mem_map_of_mem ht)
      rw [find?_eraseP_of_ne hne]
      exact hf t (List.mem_cons_of_mem _ ht)
    have hone : (rows.eraseP fun t => t.1 == hit.1).countP p + 1 = rows.countP p := by
      obtain ⟨pre, post, rfl, -, hpre⟩ := split_of_find? (hf hit hself)
      rw [eraseP_split _ hpre, List.countP_append, List.countP_append,
        List.countP_cons_of_pos (hp hit hself), Nat.add_assoc]
    have hall := ih hn.2 (fun t ht => hp t (List.mem_cons_of_mem _ ht)) hrest
    rw [hcons, List.length_cons]
    omega

end

/-! ## Deletes of rows that were not moved -/

namespace Heap

variable {schema : Schema}

theorem firstAlive_deleteSlots (rowid rowid' : Nat) (slots : List (Slot schema)) :
    firstAlive rowid (deleteSlots rowid' slots) =
      (if rowid = rowid' then false else firstAlive rowid slots) := by
  induction slots with
  | nil => simp [deleteSlots, firstAlive]
  | cons s slots ih =>
    by_cases hs : s.rowid = rowid'
    · rw [deleteSlots, if_pos hs, firstAlive, firstAlive]
      by_cases hr : rowid = rowid'
      · rw [if_pos hr, if_pos (by rw [hr]; exact hs)]
        rfl
      · have hne : s.rowid ≠ rowid := fun e => hr (e ▸ hs)
        have hkill : s.kill.rowid ≠ rowid := hne
        rw [if_neg hr, if_neg hkill, if_neg hne]
    · rw [deleteSlots, if_neg hs, firstAlive, firstAlive, ih]
      by_cases hsr : s.rowid = rowid
      · have hr : rowid ≠ rowid' := fun e => hs (hsr.trans e)
        rw [if_pos hsr, if_neg hr, if_pos hsr]
      · rw [if_neg hsr, if_neg hsr]

theorem liveRows_deleteSlots {rowid : Nat} {slots : List (Slot schema)}
    (h : firstAlive rowid slots = true) :
    liveRows (deleteSlots rowid slots) =
      (liveRows slots).eraseP fun row => row.1 == rowid := by
  have hmem : rowid ∈ slots.map Slot.rowid := by
    by_contra hc
    rcases first_slot rowid slots with hn | ⟨before, s, after, rfl, hr, -⟩
    · have hfalse : ∀ l : List (Slot schema), (∀ s ∈ l, s.rowid ≠ rowid) →
          firstAlive rowid l = false := by
        intro l hl
        induction l with
        | nil => rfl
        | cons s l ih =>
          rw [firstAlive, if_neg (hl s (List.mem_cons_self ..))]
          exact ih fun t ht => hl t (List.mem_cons_of_mem _ ht)
      rw [hfalse slots hn] at h
      cases h
    · exact hc (by simp [hr])
  obtain ⟨before, s, after, rfl, rfl, hb⟩ := split_of_mem hmem
  rw [firstAlive_split hb rfl] at h
  have hlive : s.dead = false := by simpa using h
  have hk : s.kill.dead = true := rfl
  have hbefore : s.rowid ∉ (liveRows before).map Prod.fst := fun hm => by
    obtain ⟨t, ht, he, -⟩ := mem_liveRows hm
    exact hb t ht he
  rw [deleteSlots_split hb rfl, liveRows_dead hk, liveRows_live hlive]
  exact (eraseP_split (s.rowid, readBackRow s.values) hbefore).symm

theorem liveRows_deleteAll {rows : List (Nat × Row)} {slots : List (Slot schema)}
    (hn : (rows.map Prod.fst).Nodup) (ha : ∀ hit ∈ rows, firstAlive hit.1 slots = true) :
    liveRows (deleteAll rows slots) = dropKeys (rows.map Prod.fst) (liveRows slots) := by
  induction rows generalizing slots with
  | nil => rfl
  | cons hit rows ih =>
    rw [List.map_cons, List.nodup_cons] at hn
    have hall : deleteAll (hit :: rows) slots = deleteAll rows (deleteSlots hit.1 slots) := rfl
    rw [hall, ih hn.2, liveRows_deleteSlots (ha hit (List.mem_cons_self ..))]
    · rfl
    · intro t ht
      have hne : t.1 ≠ hit.1 := fun e => hn.1 (e ▸ List.mem_map_of_mem ht)
      rw [firstAlive_deleteSlots, if_neg hne]
      exact ha t (List.mem_cons_of_mem _ ht)

/-- Deletes lose at most a row each, and one each only if every one finds its own row. -/
theorem deleteAll_full (rows : List (Nat × Row)) (slots : List (Slot schema)) :
    (liveRows slots).length ≤ (liveRows (deleteAll rows slots)).length + rows.length ∧
      ((liveRows (deleteAll rows slots)).length + rows.length = (liveRows slots).length →
        (rows.map Prod.fst).Nodup ∧ ∀ hit ∈ rows, firstAlive hit.1 slots = true) := by
  induction rows generalizing slots with
  | nil => exact ⟨Nat.le_refl _, fun _ => ⟨List.nodup_nil, by simp⟩⟩
  | cons hit rows ih =>
    obtain ⟨hle, hfull⟩ := ih (deleteSlots hit.1 slots)
    have hall : deleteAll (hit :: rows) slots = deleteAll rows (deleteSlots hit.1 slots) := rfl
    rw [hall, List.length_cons]
    cases h : firstAlive hit.1 slots with
    | false =>
      rw [deleteSlots_dead h] at hle ⊢
      exact ⟨by omega, fun heq => absurd heq (by omega)⟩
    | true =>
      have hone := deleteSlots_live h
      refine ⟨by omega, fun heq => ?_⟩
      obtain ⟨hnd, halive⟩ := hfull (by omega)
      have hne : ∀ t ∈ rows, t.1 ≠ hit.1 := by
        intro t ht e
        have := halive t ht
        rw [firstAlive_deleteSlots, if_pos e] at this
        cases this
      refine ⟨?_, fun t ht => ?_⟩
      · rw [List.map_cons, List.nodup_cons]
        refine ⟨fun hm => ?_, hnd⟩
        obtain ⟨t, ht, e⟩ := List.mem_map.mp hm
        exact hne t ht e
      · rcases List.mem_cons.mp ht with rfl | ht
        · exact h
        · have := halive t ht
          rw [firstAlive_deleteSlots, if_neg (hne t ht)] at this
          exact this

/-- Updates of rows that were not moved keep the number of rows. -/
theorem updateAll_length {news slots : List (Slot schema)} (hd : ∀ new ∈ news, new.dead = false)
    (hr : ∀ new ∈ news, new.rowid ∈ slots.map Slot.rowid) (hn : (news.map Slot.rowid).Nodup)
    (ha : ∀ new ∈ news, firstAlive new.rowid slots = true) :
    (liveRows (updateAll news slots)).length = (liveRows slots).length := by
  induction news generalizing slots with
  | nil => rfl
  | cons new news ih =>
    rw [List.map_cons, List.nodup_cons] at hn
    have hself := List.mem_cons_self (a := new) (l := news)
    have hone := updateSlots_live (hd new hself) (hr new hself)
    rw [if_pos (ha new hself), Nat.add_zero] at hone
    have hall : updateAll (new :: news) slots = updateAll news (updateSlots new slots) := rfl
    rw [hall, ih (fun t ht => hd t (List.mem_cons_of_mem _ ht)) _ hn.2, hone]
    · intro t ht
      have hne : t.rowid ≠ new.rowid := fun e =>
        hn.1 (e ▸ List.mem_map_of_mem (f := Slot.rowid) ht)
      rw [firstAlive_updateSlots (hr t (List.mem_cons_of_mem _ ht)) hne]
      exact ha t (List.mem_cons_of_mem _ ht)
    · exact fun t ht => updateSlots_rowids new slots _ (hr t (List.mem_cons_of_mem _ ht))

end Heap

namespace Database

/-! ## The statement -/

/-- What the statement does to the rows of its table if `n` is right. -/
def Effect (entry : TableMeta) (n : Nat) (rows rows' : List (Nat × Row)) : Statement → Prop
  | .insert stmt =>
    n = stmt.values.length ∧ ∃ added, rows' = rows ++ added ∧ added.length = n
  | .update stmt =>
    n = rows.countP (satisfies entry.schema stmt.where') ∧ rows'.length = rows.length
  | .delete stmt =>
    rows'.Sublist rows ∧ rows'.length + n = rows.length ∧
      ∀ row ∈ rows', satisfies entry.schema stmt.where' row = false
  | _ => True

/-- If the statement completes, it reports a number that is right. -/
def ReportsEffect (db : Database) (entry : TableMeta) (stmt : Statement) : Prop :=
  (db.execute stmt).1.isOk = true →
    ∃ n rows, (db.execute stmt).1 = .ok (rowsAffected n) ∧
      entry.heap.scan (db.execute stmt).2.store = .ok rows ∧
      Effect entry n (db.store.rowsOf entry) rows stmt

/-- What the statement writes fits the page, and no two rows that an UPDATE writes have
one rowid. -/
def Room (db : Database) (entry : TableMeta) : Statement → Prop
  | .insert stmt => max 2 (db.store.bodyOf entry).length +
      rowsSize entry.schema (db.insertedRows entry stmt) ≤ db.store.bodySize
  | .update stmt => max 2 (db.store.bodyOf entry).length +
      updateSize entry.schema (OrdDict.ofList stmt.assignments) (db.store.bodyOf entry)
        (hits entry.schema stmt.where' (db.store.rowsOf entry)) ≤ db.store.bodySize ∧
      ((hits entry.schema stmt.where' (db.store.rowsOf entry)).map Prod.fst).Nodup
  | _ => True

/-- The statement raises, or it has one tuple, or the rows that satisfy its WHERE clause
were never moved and, for a DELETE, each is the first of its rowid. -/
def CountIsRight (db : Database) (entry : TableMeta) : Statement → Prop
  | .insert stmt =>
    insertRaises entry (db.tableConstraints stmt.table) (insertColumns entry stmt.columns)
      ((db.store.rowsOf entry).map Prod.snd) stmt.values = true ∨ stmt.values.length = 1
  | .update stmt =>
    updateRaises entry.schema (OrdDict.ofList stmt.assignments) stmt.where'
      (db.store.rowsOf entry) = true ∨
      ∀ hit ∈ hits entry.schema stmt.where' (db.store.rowsOf entry),
        entry.heap.unmoved db.store hit.1 = true
  | .delete stmt =>
    stmt.where' = none ∨
      (whereError entry.schema stmt.where' (db.store.rowsOf entry)).isSome = true ∨
      ((hits entry.schema stmt.where' (db.store.rowsOf entry)).map Prod.fst).Nodup ∧
        ∀ hit ∈ hits entry.schema stmt.where' (db.store.rowsOf entry),
          entry.heap.unmoved db.store hit.1 = true ∧
          (db.store.rowsOf entry).find? (fun row => row.1 == hit.1) = some hit
  | _ => True

theorem rowsAffected_injective {n m : Nat} (h : rowsAffected n = rowsAffected m) : n = m := by
  simpa [rowsAffected, OrdDict.set, OrdDict.empty, OrdDict.assign] using h

theorem insertWrites_length_le (entry : TableMeta) (constraints : ColumnConstraints)
    (colNames : List String) (rows : List Row) (valuesList : List (List Value)) :
    (insertWrites entry constraints colNames rows valuesList).length ≤ valuesList.length := by
  induction valuesList generalizing rows with
  | nil => exact Nat.le_refl _
  | cons values rest ih =>
    rw [insertWrites]
    split
    · exact Nat.zero_le _
    · rw [List.length_cons, List.length_cons]
      exact Nat.succ_le_succ (ih _)

/-! ## One statement each -/

section

variable {db : Database} {entry : TableMeta} {page : Page} {slots : List (Slot entry.heap.schema)}

private theorem insert_reports (stmt : Insert)
    (hg : db.catalog.getTable stmt.table = .ok entry)
    (h : Heap.HeapAt db.store entry.heap page slots) (hp : db.Room entry (.insert stmt)) :
    db.ReportsEffect entry (.insert stmt) ↔ db.CountIsRight entry (.insert stmt) := by
  obtain ⟨store', page', news, result, hexec, hres, hvals, -, hlive, hat, -⟩ :=
    execInsert_spec stmt.columns stmt.values (db.tableConstraints stmt.table) h hp
  have hstore : (db.execute (.insert stmt)).2.store = store' := by
    rw [execute_insert stmt hg, hexec]
  have hres' : (db.execute (.insert stmt)).1 = result.map fun _ => rowsAffected 1 := by
    rw [execute_insert stmt hg, hexec]
  have hmap : Heap.liveRows news = news.map fun s => (s.rowid, readBackRow s.values) := by
    rw [Heap.liveRows, ← List.filterMap_eq_map]
    apply List.filterMap_congr
    intro s hs
    simp [Slot.live?, hlive s hs]
  rw [ReportsEffect, CountIsRight, hstore, hres', Heap.scan_spec hat]
  cases result with
  | error e =>
    have hraise : insertRaises entry (db.tableConstraints stmt.table)
        (insertColumns entry stmt.columns) ((db.store.rowsOf entry).map Prod.snd) stmt.values =
        true := by
      simpa [Except.isOk, Except.toBool] using hres.symm
    exact iff_of_true (fun hok => absurd hok Bool.false_ne_true) (Or.inl hraise)
  | ok u =>
    have hraise : insertRaises entry (db.tableConstraints stmt.table)
        (insertColumns entry stmt.columns) ((db.store.rowsOf entry).map Prod.snd) stmt.values =
        false := by
      simpa [Except.isOk, Except.toBool] using hres.symm
    rw [hraise]
    constructor
    · intro hall
      obtain ⟨n, rows, hn, -, hlen, -⟩ := hall rfl
      have hone : rowsAffected 1 = rowsAffected n := Except.ok.inj hn
      exact Or.inr (hlen.symm.trans (rowsAffected_injective hone).symm)
    · rintro (hfalse | hone) -
      · cases hfalse
      · refine ⟨1, _, rfl, rfl, hone.symm, Heap.liveRows news, ?_, ?_⟩
        · rw [rowsOf_eq h, Heap.liveRows_append]
        · have hle := insertWrites_length_le entry (db.tableConstraints stmt.table)
            (insertColumns entry stmt.columns) ((db.store.rowsOf entry).map Prod.snd) stmt.values
          rw [insertRaises, decide_eq_false_iff_not, Nat.not_lt] at hraise
          rw [← hvals, List.length_map] at hle hraise
          rw [hmap, List.length_map]
          omega

private theorem update_reports (stmt : Update)
    (hg : db.catalog.getTable stmt.table = .ok entry)
    (h : Heap.HeapAt db.store entry.heap page slots) (hp : db.Room entry (.update stmt)) :
    db.ReportsEffect entry (.update stmt) ↔ db.CountIsRight entry (.update stmt) := by
  obtain ⟨hfit, hnd⟩ := hp
  obtain ⟨store', page', news, result, hexec, hres, hgive, hat, -⟩ :=
    execUpdate_spec stmt.assignments stmt.where' h hfit
  have hstore : (db.execute (.update stmt)).2.store = store' := by
    rw [execute_update stmt hg, hexec]
  have hres' : (db.execute (.update stmt)).1 = result.map rowsAffected := by
    rw [execute_update stmt hg, hexec]
  rw [ReportsEffect, CountIsRight, hstore, hres', Heap.scan_spec hat]
  cases result with
  | error e =>
    have hraise : updateRaises entry.schema (OrdDict.ofList stmt.assignments) stmt.where'
        (db.store.rowsOf entry) = true := by
      simpa [Except.isOk, Except.toBool] using hres.symm
    exact iff_of_true (fun hok => absurd hok Bool.false_ne_true) (Or.inl hraise)
  | ok n =>
    have hraise : updateRaises entry.schema (OrdDict.ofList stmt.assignments) stmt.where'
        (db.store.rowsOf entry) = false := by
      simpa [Except.isOk, Except.toBool] using hres.symm
    have hcount : n = (hits entry.schema stmt.where' (db.store.rowsOf entry)).length ∧
        whereError entry.schema stmt.where' (db.store.rowsOf entry) = none := by
      rw [execUpdate, Heap.scan_spec h] at hexec
      have hrows := writeRows_count hexec
      rw [Nat.zero_add, ← rowsOf_eq h] at hrows
      exact hrows
    have hall : updateWrites entry.schema (OrdDict.ofList stmt.assignments) stmt.where'
        (db.store.rowsOf entry) = hits entry.schema stmt.where' (db.store.rowsOf entry) := by
      apply List.takeWhile_eq_self_iff.mpr
      intro hit hh
      rw [updateRaises, Bool.or_eq_false_iff, List.any_eq_false] at hraise
      simpa using hraise.1 hit hh
    rw [hall] at hgive
    have hdead : ∀ new ∈ news, new.dead = false := fun new hn => by
      obtain ⟨hit, -, hgiven⟩ := exists_of_mem_right hgive hn
      exact hgiven.dead
    have hmem : ∀ new ∈ news, new.rowid ∈ slots.map Slot.rowid := fun new hn => by
      obtain ⟨hit, hh, hgiven⟩ := exists_of_mem_right hgive hn
      rw [hgiven.rowid]
      apply Heap.mem_rowids_of_live
      rw [← rowsOf_eq h]
      exact mem_of_mem_hits hh
    have hnews : (news.map Slot.rowid).Nodup := by
      rw [Heap.gives_rowids hgive]
      exact hnd
    have hunm : (∀ hit ∈ hits entry.schema stmt.where' (db.store.rowsOf entry),
        entry.heap.unmoved db.store hit.1 = true) ↔
        ∀ new ∈ news, Heap.firstAlive new.rowid slots = true := by
      constructor
      · intro hu new hn
        obtain ⟨hit, hh, hgiven⟩ := exists_of_mem_right hgive hn
        rw [← Heap.unmoved_eq h (hmem new hn), hgiven.rowid]
        exact hu hit hh
      · intro ha hit hh
        obtain ⟨new, hn, hgiven⟩ := exists_of_mem_left hgive hh
        rw [← hgiven.rowid, Heap.unmoved_eq h (hmem new hn)]
        exact ha new hn
    have hsat : n = (db.store.rowsOf entry).countP (satisfies entry.schema stmt.where') := by
      rw [hcount.1, hits_eq_filter hcount.2, List.countP_eq_length_filter]
    rw [hraise, hunm]
    constructor
    · intro heff
      obtain ⟨m, rows, -, hrows, -, hlen⟩ := heff rfl
      rw [Except.ok.injEq] at hrows
      rw [← hrows, rowsOf_eq h] at hlen
      exact Or.inr ((Heap.updateAll_alive hdead hmem hnews).2 hlen)
    · rintro (hfalse | halive) -
      · cases hfalse
      · refine ⟨n, _, rfl, rfl, hsat, ?_⟩
        rw [Heap.updateAll_length hdead hmem hnews halive, rowsOf_eq h]

private theorem delete_reports (stmt : Delete)
    (hg : db.catalog.getTable stmt.table = .ok entry)
    (h : Heap.HeapAt db.store entry.heap page slots) :
    db.ReportsEffect entry (.delete stmt) ↔ db.CountIsRight entry (.delete stmt) := by
  cases hw : stmt.where' with
  | none =>
    have hres : (db.execute (.delete stmt)).1.isOk = false := by
      rw [execute_delete stmt hg, execDelete, if_pos hw]
      rfl
    rw [ReportsEffect, CountIsRight, hres]
    exact iff_of_true (fun hok => absurd hok Bool.false_ne_true) (Or.inl hw)
  | some cond =>
    obtain ⟨store', page', result, hexec, hres, hat, -⟩ := execDelete_spec cond h
    have hstore : (db.execute (.delete stmt)).2.store = store' := by
      rw [execute_delete stmt hg, hw, hexec]
    have hres' : (db.execute (.delete stmt)).1 = result.map rowsAffected := by
      rw [execute_delete stmt hg, hw, hexec]
    rw [ReportsEffect, CountIsRight, hstore, hres', Heap.scan_spec hat, hw]
    cases result with
    | error e =>
      have hsome : (whereError entry.schema (some cond) (db.store.rowsOf entry)).isSome = true := by
        simpa [Except.isOk, Except.toBool] using hres.symm
      exact iff_of_true (fun hok => absurd hok Bool.false_ne_true) (Or.inr (Or.inl hsome))
    | ok n =>
      have hcount : n = (hits entry.schema (some cond) (db.store.rowsOf entry)).length ∧
          whereError entry.schema (some cond) (db.store.rowsOf entry) = none := by
        rw [execDelete, if_neg (by simp), Heap.scan_spec h] at hexec
        have hrows := writeRows_count hexec
        rw [Nat.zero_add, ← rowsOf_eq h] at hrows
        exact hrows
      obtain ⟨rfl, hdef⟩ := hcount
      rw [hdef, rowsOf_eq h]
      rw [rowsOf_eq h] at hdef
      have hfilter := hits_eq_filter hdef
      have halive : ∀ hit ∈ hits entry.schema (some cond) (Heap.liveRows slots),
          entry.heap.unmoved db.store hit.1 = Heap.firstAlive hit.1 slots := fun hit hh =>
        Heap.unmoved_eq h (Heap.mem_rowids_of_live (mem_of_mem_hits hh))
      constructor
      · intro heff
        obtain ⟨n, rows, hn, hrows, -, hlen, hnone⟩ := heff rfl
        have hcount := rowsAffected_injective (Except.ok.inj hn)
        rw [Except.ok.injEq] at hrows
        subst hcount hrows
        obtain ⟨hnd, ha⟩ := (Heap.deleteAll_full _ slots).2 hlen
        refine Or.inr (Or.inr ⟨hnd, fun hit hh => ⟨?_, ?_⟩⟩)
        · rw [halive hit hh]
          exact ha hit hh
        · by_contra hf
          have hstays := mem_dropKeys hnd (mem_of_mem_hits hh) hf
          rw [← Heap.liveRows_deleteAll hnd ha] at hstays
          rw [hfilter, List.mem_filter] at hh
          have hno := hnone hit hstays
          rw [hw, hh.2] at hno
          cases hno
      · rintro (hfalse | hfalse | ⟨hnd, hall⟩) -
        · cases hfalse
        · cases hfalse
        · have ha : ∀ hit ∈ hits entry.schema (some cond) (Heap.liveRows slots),
              Heap.firstAlive hit.1 slots = true := fun hit hh =>
            (halive hit hh).symm.trans (hall hit hh).1
          have hfind := fun hit hh => (hall hit hh).2
          refine ⟨_, _, rfl, rfl, Heap.deleteAll_sublist _ _, ?_, ?_⟩
          · have hdrop := countP_dropKeys (p := fun _ => true) hnd (fun _ _ => rfl) hfind
            rw [List.countP_true] at hdrop
            rw [Heap.liveRows_deleteAll hnd ha]
            exact hdrop
          · have hsat : ∀ hit ∈ hits entry.schema (some cond) (Heap.liveRows slots),
                satisfies entry.schema (some cond) hit = true := fun hit hh => by
              rw [hfilter, List.mem_filter] at hh
              exact hh.2
            have hdrop := countP_dropKeys hnd hsat hfind
            have hrows : (hits entry.schema (some cond) (Heap.liveRows slots)).length =
                (Heap.liveRows slots).countP (satisfies entry.schema (some cond)) := by
              rw [hfilter, List.countP_eq_length_filter]
            rw [Heap.liveRows_deleteAll hnd ha]
            have hzero : (dropKeys ((hits entry.schema (some cond) (Heap.liveRows slots)).map
                Prod.fst) (Heap.liveRows slots)).countP (satisfies entry.schema (some cond)) = 0 := by
              omega
            intro row hrow
            rw [hw]
            simpa using List.countP_eq_zero.mp hzero row hrow

end

/-- **Exactly when `rows_affected` is right.** -/
theorem rows_affected_iff (db : Database) (entry : TableMeta) (table : String) (stmt : Statement)
    (ht : stmt.target = some table) (h : db.HoldsTable table entry) (hp : db.Room entry stmt) :
    db.ReportsEffect entry stmt ↔ db.CountIsRight entry stmt := by
  obtain ⟨hg, page, slots, hat⟩ := h
  cases stmt with
  | insert stmt =>
    cases ht
    exact insert_reports stmt hg hat hp
  | update stmt =>
    cases ht
    exact update_reports stmt hg hat hp
  | delete stmt =>
    cases ht
    exact delete_reports stmt hg hat
  | createTable stmt => cases ht
  | dropTable stmt => cases ht
  | select stmt => cases ht
  | begin => cases ht
  | commit => cases ht
  | rollback => cases ht
  | checkpoint => cases ht
  | explain stmt => cases ht

/-- `DELETE FROM t WHERE a = 5`. -/
def deleteFive : Statement :=
  .delete ⟨"t", some (.binaryOp .eq (.column "a") (.sqlLiteral (.int 5) "5"))⟩

theorem rows_affected_delete : fiveRow.ReportsEffect intEntry deleteFive :=
  (rows_affected_iff fiveRow intEntry "t" deleteFive rfl
    ⟨by decide +kernel, _, _, fiveRow_heapAt⟩ trivial).mpr
    (Or.inr (Or.inr ⟨by decide +kernel, by decide +kernel⟩))

/-- `INSERT INTO t VALUES (1), (2)`. -/
def insertTwo : Insert := ⟨"t", none, [[.int 1], [.int 2]]⟩

/-- It adds two rows and reports one. -/
theorem insert_reports_one :
    intTable.HoldsTable "t" intEntry ∧ ¬ intTable.ReportsEffect intEntry (.insert insertTwo) := by
  refine ⟨intTable_holds, fun h => ?_⟩
  obtain ⟨n, rows, hn, -, hlen, -⟩ := h (by decide +kernel)
  have hok : (execInsert intTable.store intEntry insertTwo.columns insertTwo.values
      (intTable.tableConstraints insertTwo.table)).1 = .ok () := by decide +kernel
  have hone : (intTable.execute (.insert insertTwo)).1 = .ok (rowsAffected 1) := by
    rw [execute_insert insertTwo intTable_holds.1]
    simp only [hok]
    rfl
  rw [hone, Except.ok.injEq] at hn
  have hcount := rowsAffected_injective hn
  rw [← hcount] at hlen
  cases hlen

end Database
end TinyDB
