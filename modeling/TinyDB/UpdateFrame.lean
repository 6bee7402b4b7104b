import Mathlib.Data.List.TakeWhile
import TinyDB.Atomicity

/-!
# What an UPDATE changes

The rows that satisfy the WHERE clause get the assigned values, and nothing else changes:
so the statement reads. `update_frame_iff`: an UPDATE whose rows grow no longer does so
exactly when no such row was moved and the dictionary that the row goes through gives every
cell back.
-/

namespace TinyDB

open Lib

/-! ## The statement -/

/-- The row satisfies the WHERE clause. -/
def satisfies (schema : Schema) (cond : Option Expr) (row : Nat × Row) : Bool :=
  match evalWhere (rowToDict schema row.2 row.1) cond with
  | .ok b => b
  | .error _ => false

/-- The cells of a row, those of the assigned columns replaced by the coerced values. -/
def assignCells (assignments : RowDict) : Schema → Row → Except PyErr Row
  | (name, type) :: schema, cell :: cells => do
    let value ←
      match assignments.get? name with
      | some value => coerce value type
      | none => .ok cell
    let rest ← assignCells assignments schema cells
    .ok (value :: rest)
  | _, _ => .ok []

/-- What the statement is to make of a row. -/
def Assigned (schema : Schema) (assignments : RowDict) (cond : Option Expr)
    (row row' : Nat × Row) : Prop :=
  row'.1 = row.1 ∧
    if satisfies schema cond row then assignCells assignments schema row.2 = .ok row'.2
    else row'.2 = row.2

/-- `exec_update` does to the scan what the statement says, and counts it. -/
def UpdatesRows (store : FileStore) (entry : TableMeta) (assignments : List (String × Value))
    (cond : Option Expr) : Prop :=
  ∃ n store' rows, execUpdate store entry assignments cond = (.ok n, store') ∧
    entry.heap.scan store' = .ok rows ∧
    n = (store.rowsOf entry).countP (satisfies entry.schema cond) ∧
    List.Forall₂ (Assigned entry.schema (OrdDict.ofList assignments) cond)
      (store.rowsOf entry) rows

/-- The new row is not refused, and its encoding is no longer than the place of the old one. -/
def NotLonger {schema : Schema} (slots : List (Slot schema)) (assignments : RowDict)
    (hit : Nat × Row) : Prop :=
  ∃ new, encodedHit schema assignments hit = .ok new ∧
    ∃ s ∈ slots, s.live? = some hit ∧ new.length ≤ s.data.length

/-- The cells that come back: an assigned value that is not read as NULL, and a cell that
stands in the dictionary under the name of its column. -/
def cellsKept (assignments rowDict : RowDict) : Schema → Row → Bool
  | (name, type) :: schema, cell :: cells =>
    (match assignments.get? name with
      | some value =>
        match coerce value type with
        | .ok value => decide (readBack value = value)
        | .error _ => true
      | none => decide (readBack (rowDict.find name) = cell)) &&
      cellsKept assignments rowDict schema cells
  | _, _ => true

/-- The WHERE clause can be evaluated, and each row that satisfies it has its rowid for
itself, was never moved and keeps its cells. -/
structure FrameKept (store : FileStore) (entry : TableMeta) (assignments : RowDict)
    (cond : Option Expr) : Prop where
  defined : whereError entry.schema cond (store.rowsOf entry) = none
  alone : ∀ hit ∈ hits entry.schema cond (store.rowsOf entry),
    ((store.rowsOf entry).map Prod.fst).count hit.1 = 1
  unmoved : ∀ hit ∈ hits entry.schema cond (store.rowsOf entry),
    entry.heap.unmoved store hit.1 = true
  cells : ∀ hit ∈ hits entry.schema cond (store.rowsOf entry),
    cellsKept assignments (rowToDict entry.schema hit.2 hit.1) entry.schema hit.2 = true

/-! ## Cells and counts -/

section

variable {schema : Schema} {assignments rowDict : RowDict} {cond : Option Expr}

theorem hits_eq_filter {rows : List (Nat × Row)} (h : whereError schema cond rows = none) :
    hits schema cond rows = rows.filter (satisfies schema cond) := by
  induction rows with
  | nil => rfl
  | cons row rows ih =>
    obtain ⟨rowid, values⟩ := row
    simp only [whereError] at h
    rw [hits, List.filter_cons, satisfies]
    cases hc : evalWhere (rowToDict schema values rowid) cond with
    | error e =>
      rw [hc] at h
      cases h
    | ok b =>
      rw [hc] at h
      cases b with
      | true => simp [ih h]
      | false => simp [ih h]

theorem updatedValues_cells {cells new : Row} (hlen : cells.length = schema.length)
    (h : updatedValues assignments rowDict schema = .ok new) :
    assignCells assignments schema cells = .ok (readBackRow new) ↔
      cellsKept assignments rowDict schema cells = true := by
  induction schema generalizing cells new with
  | nil =>
    cases h
    exact iff_of_true rfl rfl
  | cons col schema ih =>
    obtain ⟨name, type⟩ := col
    cases cells with
    | nil => cases hlen
    | cons cell cells =>
      simp only [updatedValues, bind_eq_ok, Except.ok.injEq] at h
      obtain ⟨value, hvalue, rest, hrest, rfl⟩ := h
      have hlen' : cells.length = schema.length := Nat.succ.inj hlen
      simp only [assignCells, cellsKept, Bool.and_eq_true, ← ih hlen' hrest, readBackRow,
        List.map_cons]
      cases hget : assignments.get? name with
      | some given =>
        simp only [updatedValue, hget] at hvalue
        simp only [hvalue, bind_eq_ok, Except.ok.injEq, decide_eq_true_eq, exists_eq_left',
          List.cons.injEq]
        constructor
        · rintro ⟨_, hr, he, htail⟩
          exact ⟨he.symm, htail ▸ hr⟩
        · rintro ⟨he, hr⟩
          exact ⟨_, hr, he.symm, rfl⟩
      | none =>
        simp only [updatedValue, hget, Except.ok.injEq] at hvalue
        subst hvalue
        simp only [bind_eq_ok, Except.ok.injEq, decide_eq_true_eq, exists_eq_left', List.cons.injEq]
        constructor
        · rintro ⟨_, hr, he, htail⟩
          exact ⟨he.symm, htail ▸ hr⟩
        · rintro ⟨he, hr⟩
          exact ⟨_, hr, he.symm, rfl⟩

theorem writeHits_count {write : FileStore → Nat → RowDict → Except PyErr FileStore}
    {store store' : FileStore} {n m : Nat} {rows : List (Nat × Row)}
    (h : writeHits schema write store n rows = (.ok m, store')) : m = n + rows.length := by
  induction rows generalizing store n with
  | nil =>
    cases h
    rfl
  | cons row rows ih =>
    obtain ⟨rowid, values⟩ := row
    rw [writeHits] at h
    cases hw : write store rowid (rowToDict schema values rowid) with
    | error e =>
      rw [hw] at h
      cases h
    | ok store1 =>
      rw [hw] at h
      rw [ih h, List.length_cons]
      omega

theorem writeRows_count {write : FileStore → Nat → RowDict → Except PyErr FileStore}
    {store store' : FileStore} {n m : Nat} {rows : List (Nat × Row)}
    (h : writeRows schema cond write store n rows = (.ok m, store')) :
    m = n + (hits schema cond rows).length ∧ whereError schema cond rows = none := by
  rw [writeRows_eq] at h
  split at h
  · cases h
  · rename_i k store1 hw
    have hcount := writeHits_count hw
    split at h
    · cases h
    · rename_i hnone
      cases h
      exact ⟨hcount, hnone⟩

end

/-! ## Updates in place -/

namespace Heap

variable {schema : Schema}

/-- The row as the updates leave it. -/
def renewed (news : List (Slot schema)) (row : Nat × Row) : Nat × Row :=
  match news.find? fun new => new.rowid == row.1 with
  | some new => (row.1, readBackRow new.values)
  | none => row

theorem renewed_fst (news : List (Slot schema)) (row : Nat × Row) :
    (renewed news row).1 = row.1 := by
  unfold renewed
  split
  · rfl
  · rfl

/-- An update in place gives the row a new content where it stands. -/
theorem liveRows_updateSlots {new : Slot schema} {slots : List (Slot schema)}
    (hd : new.dead = false) (ha : firstAlive new.rowid slots = true)
    (hone : ((liveRows slots).map Prod.fst).count new.rowid = 1)
    (hfit : slotGrowth new.rowid new.enc slots = 0) :
    liveRows (updateSlots new slots) = (liveRows slots).map (renewed [new]) := by
  have hmem : new.rowid ∈ slots.map Slot.rowid := by
    have hpos : 0 < ((liveRows slots).map Prod.fst).count new.rowid := by omega
    obtain ⟨row, hrow, he⟩ := List.mem_map.mp (List.count_pos_iff.mp hpos)
    exact he ▸ mem_rowids_of_live hrow
  obtain ⟨before, s, after, rfl, hs, hb⟩ := split_of_mem hmem
  rw [firstAlive_split hb hs] at ha
  rw [slotGrowth_split hb hs] at hfit
  have hlive : s.dead = false := by simpa using ha
  have hle : new.enc.length ≤ s.data.length := by
    by_contra hc
    rw [if_neg hc] at hfit
    omega
  have hn : ({ new with pad := s.data.length - new.enc.length } : Slot schema).dead = false := hd
  rw [updateSlots_split hb hs, if_pos hle, liveRows_live hn, liveRows_live hlive]
  rw [liveRows_live hlive] at hone
  have hbefore : new.rowid ∉ (liveRows before).map Prod.fst := fun hm => by
    obtain ⟨t, ht, he, -⟩ := mem_liveRows hm
    exact hb t ht he
  have hafter : new.rowid ∉ (liveRows after).map Prod.fst := by
    simp only [List.map_append, List.map_cons, List.count_append, List.count_cons, hs, beq_self_eq_true,
      ↓reduceIte] at hone
    exact List.count_eq_zero.mp (by omega)
  have hkeep : ∀ {rows : List (Nat × Row)}, new.rowid ∉ rows.map Prod.fst →
      rows.map (renewed [new]) = rows := by
    intro rows hrows
    rw [List.map_congr_left (g := id), List.map_id]
    intro row hrow
    have hne : new.rowid ≠ row.1 := fun e => hrows (e ▸ List.mem_map_of_mem hrow)
    simp [renewed, hne]
  rw [List.map_append, List.map_cons, hkeep hbefore, hkeep hafter]
  simp [renewed, hs]

theorem liveRows_updateAll {news slots : List (Slot schema)} (hd : ∀ new ∈ news, new.dead = false)
    (hn : (news.map Slot.rowid).Nodup) (ha : ∀ new ∈ news, firstAlive new.rowid slots = true)
    (hone : ∀ new ∈ news, ((liveRows slots).map Prod.fst).count new.rowid = 1)
    (hfit : ∀ new ∈ news, slotGrowth new.rowid new.enc slots = 0) :
    liveRows (updateAll news slots) = (liveRows slots).map (renewed news) := by
  induction news generalizing slots with
  | nil =>
    rw [List.map_congr_left (g := id), List.map_id]
    · rfl
    · exact fun _ _ => rfl
  | cons new news ih =>
    simp only [List.map_cons, List.nodup_cons] at hn
    have hself := List.mem_cons_self (a := new) (l := news)
    have hstep := liveRows_updateSlots (hd new hself) (ha new hself) (hone new hself) (hfit new hself)
    have hids : (liveRows (updateSlots new slots)).map Prod.fst = (liveRows slots).map Prod.fst := by
      rw [hstep, List.map_map]
      exact List.map_congr_left fun row _ => renewed_fst _ row
    have hmem : ∀ t ∈ news, t.rowid ∈ slots.map Slot.rowid := fun t ht => by
      have hcount := hone t (List.mem_cons_of_mem _ ht)
      have hpos : 0 < ((liveRows slots).map Prod.fst).count t.rowid := by omega
      obtain ⟨row, hrow, he⟩ := List.mem_map.mp (List.count_pos_iff.mp hpos)
      exact he ▸ mem_rowids_of_live hrow
    have hne : ∀ t ∈ news, t.rowid ≠ new.rowid := fun t ht e =>
      hn.1 (e ▸ List.mem_map_of_mem (f := Slot.rowid) ht)
    have hall : updateAll (new :: news) slots = updateAll news (updateSlots new slots) := rfl
    rw [hall, ih (fun t ht => hd t (List.mem_cons_of_mem _ ht)) hn.2, hstep, List.map_map]
    · apply List.map_congr_left
      intro row _
      by_cases hr : new.rowid = row.1
      · have hnot : news.find? (fun t => t.rowid == new.rowid) = none := by
          simpa using hne
        simp [renewed, ← hr, hnot]
      · have hb : (new.rowid == row.1) = false := by simpa using hr
        simp [renewed, hb]
    · intro t ht
      rw [firstAlive_updateSlots (hmem t ht) (hne t ht)]
      exact ha t (List.mem_cons_of_mem _ ht)
    · intro t ht
      rw [hids]
      exact hone t (List.mem_cons_of_mem _ ht)
    · intro t ht
      rw [slotGrowth_updateSlots new slots _ _ (hmem t ht)]
      exact hfit t (List.mem_cons_of_mem _ ht)

end Heap

/-! ## The statement on a table -/

section

variable {store : FileStore} {entry : TableMeta} {page : Page}
  {slots : List (Slot entry.heap.schema)} {assignments : List (String × Value)}
  {cond : Option Expr}

/-- A row that stands alone, in a slot that it has not left, is updated in place. -/
theorem growth_zero {hit : Nat × Row} {enc : Bytes}
    (halone : ((Heap.liveRows slots).map Prod.fst).count hit.1 = 1)
    (halive : Heap.firstAlive hit.1 slots = true)
    (henc : encodedHit entry.schema (OrdDict.ofList assignments) hit = .ok enc)
    (hn : NotLonger slots (OrdDict.ofList assignments) hit) :
    Heap.slotGrowth hit.1 enc slots = 0 := by
  obtain ⟨new, hnew, t, ht, hlive, hle⟩ := hn
  have hsame : new = enc := by
    have : encodedHit entry.schema (OrdDict.ofList assignments) hit = .ok new := hnew
    rw [henc, Except.ok.injEq] at this
    exact this.symm
  subst hsame
  have htid : t.rowid = hit.1 ∧ t.dead = false := by
    unfold Slot.live? at hlive
    split at hlive
    · cases hlive
    · rename_i hd
      cases hlive
      exact ⟨rfl, by simpa using hd⟩
  obtain ⟨before, s, after, rfl, hs, hb⟩ :=
    Heap.split_of_mem (List.mem_map.mpr ⟨t, ht, htid.1⟩)
  rw [Heap.firstAlive_split hb hs] at halive
  have hsd : s.dead = false := by simpa using halive
  rw [Heap.slotGrowth_split hb hs]
  -- the first slot of the rowid is the one that shows the row
  have hts : t = s := by
    rw [Heap.liveRows_live hsd] at halone
    simp only [List.map_append, List.map_cons, List.count_append, List.count_cons, hs,
      beq_self_eq_true, ↓reduceIte] at halone
    rcases List.mem_append.mp ht with h | h
    · exact absurd htid.1 (hb t h)
    · rcases List.mem_cons.mp h with h | h
      · exact h
      · have hin : hit ∈ Heap.liveRows after := List.mem_filterMap.mpr ⟨t, h, hlive⟩
        have hpos := List.count_pos_iff.mpr (List.mem_map_of_mem (f := Prod.fst) hin)
        omega
  rw [if_pos (hts ▸ hle)]

/-- The hits stand alone, so no two of them have one rowid. -/
theorem hits_nodup {rows : List (Nat × Row)}
    (halone : ∀ hit ∈ hits entry.schema cond rows, (rows.map Prod.fst).count hit.1 = 1) :
    ((hits entry.schema cond rows).map Prod.fst).Nodup := by
  rw [List.nodup_iff_count_le_one]
  intro rowid
  by_cases hm : rowid ∈ (hits entry.schema cond rows).map Prod.fst
  · obtain ⟨hit, hh, rfl⟩ := List.mem_map.mp hm
    have hle := ((hits_sublist entry.schema cond rows).map Prod.fst).count_le hit.1
    rw [halone hit hh] at hle
    exact hle
  · rw [List.count_eq_zero.mpr hm]
    exact Nat.zero_le 1

theorem eq_of_alone {rows : List (Nat × Row)} {row hit : Nat × Row} (hr : row ∈ rows)
    (hh : hit ∈ rows) (he : hit.1 = row.1) (halone : (rows.map Prod.fst).count hit.1 = 1) :
    hit = row := by
  by_contra hne
  obtain ⟨pre, post, rfl⟩ := List.append_of_mem hh
  simp only [List.map_append, List.map_cons, List.count_append, List.count_cons_self] at halone
  have hrest : row.1 ∈ pre.map Prod.fst ∨ row.1 ∈ post.map Prod.fst := by
    rcases List.mem_append.mp hr with h | h
    · exact Or.inl (List.mem_map_of_mem h)
    · rcases List.mem_cons.mp h with h | h
      · exact absurd h.symm hne
      · exact Or.inr (List.mem_map_of_mem h)
  rw [← he] at hrest
  rcases hrest with h | h
  · have := List.count_pos_iff.mpr h
    omega
  · have := List.count_pos_iff.mpr h
    omega

/-- **One row.** The updates do to it what the statement says if it keeps its cells. -/
theorem assigned_renewed {news : List (Slot entry.heap.schema)} {row : Nat × Row}
    (hdef : whereError entry.schema cond (Heap.liveRows slots) = none)
    (halone : ∀ hit ∈ hits entry.schema cond (Heap.liveRows slots),
      ((Heap.liveRows slots).map Prod.fst).count hit.1 = 1)
    (hgive : List.Forall₂ (Heap.Gives (OrdDict.ofList assignments))
      (hits entry.schema cond (Heap.liveRows slots)) news)
    (hrow : row ∈ Heap.liveRows slots) :
    Assigned entry.schema (OrdDict.ofList assignments) cond row (Heap.renewed news row) ↔
      (row ∈ hits entry.schema cond (Heap.liveRows slots) →
        cellsKept (OrdDict.ofList assignments) (rowToDict entry.schema row.2 row.1) entry.schema
          row.2 = true) := by
  have hmem : row ∈ hits entry.schema cond (Heap.liveRows slots) ↔
      satisfies entry.schema cond row = true := by
    rw [hits_eq_filter hdef, List.mem_filter, and_iff_right hrow]
  rw [Assigned, and_iff_right (Heap.renewed_fst news row), hmem]
  by_cases hs : satisfies entry.schema cond row = true
  · rw [if_pos hs]
    obtain ⟨new, hn, hg⟩ := exists_of_mem_left hgive (hmem.mpr hs)
    have hnd : (news.map Slot.rowid).Nodup := by
      rw [Heap.gives_rowids hgive]
      exact hits_nodup halone
    have hfind : news.find? (fun t => t.rowid == row.1) = some new := by
      cases hf : news.find? (fun t => t.rowid == row.1) with
      | none =>
        have := List.find?_eq_none.mp hf new hn
        simp [hg.rowid] at this
      | some t =>
        have ht := List.find?_some hf
        have he : t.rowid = new.rowid := by rw [hg.rowid]; simpa using ht
        exact congrArg some (List.inj_on_of_nodup_map hnd (List.mem_of_find?_eq_some hf) hn he)
    have hlen : row.2.length = entry.schema.length := by
      obtain ⟨s, -, hlive⟩ := List.mem_filterMap.mp hrow
      unfold Slot.live? at hlive
      split at hlive
      · cases hlive
      · cases hlive
        rw [readBackRow, List.length_map]
        exact s.arity
    have hnew : Heap.renewed news row = (row.1, readBackRow new.values) := by
      rw [Heap.renewed, hfind]
    rw [hnew, updatedValues_cells hlen hg.values]
    exact ⟨fun h _ => h, fun h => h hs⟩
  · rw [if_neg hs]
    have hnone : news.find? (fun t => t.rowid == row.1) = none := by
      rw [List.find?_eq_none]
      intro new hn he
      obtain ⟨hit, hh, hg⟩ := exists_of_mem_right hgive hn
      have hid : hit.1 = row.1 := by rw [← hg.rowid]; simpa using he
      have hsame := eq_of_alone hrow (mem_of_mem_hits hh) hid (halone hit hh)
      exact hs (hmem.mp (hsame ▸ hh))
    have hnew : Heap.renewed news row = row := by rw [Heap.renewed, hnone]
    rw [hnew]
    exact iff_of_true rfl fun h => absurd h hs

theorem encodedHit_length {hit : Nat × Row} {new : Slot entry.heap.schema}
    (hg : Heap.Gives (OrdDict.ofList assignments) hit new) :
    ∃ enc, encodedHit entry.schema (OrdDict.ofList assignments) hit = .ok enc ∧
      new.enc.length = enc.length := by
  obtain ⟨enc, henc, hlen⟩ := Heap.encodeRow_rowid (n := 0) new.encoded (by decide)
  have hv : newValues entry.schema (OrdDict.ofList assignments) hit = .ok new.values := hg.values
  refine ⟨enc, ?_, hlen.symm⟩
  rw [encodedHit, hv, ok_bind]
  exact henc

/-- **The scan after the updates.** -/
theorem scan_renewed {store' : FileStore} {page' : Page} {news : List (Slot entry.heap.schema)}
    (halone : ∀ hit ∈ hits entry.schema cond (Heap.liveRows slots),
      ((Heap.liveRows slots).map Prod.fst).count hit.1 = 1)
    (halive : ∀ hit ∈ hits entry.schema cond (Heap.liveRows slots),
      Heap.firstAlive hit.1 slots = true)
    (hn : ∀ hit ∈ hits entry.schema cond (Heap.liveRows slots),
      NotLonger slots (OrdDict.ofList assignments) hit)
    (hgive : List.Forall₂ (Heap.Gives (OrdDict.ofList assignments))
      (hits entry.schema cond (Heap.liveRows slots)) news)
    (hat : Heap.HeapAt store' entry.heap page' (Heap.updateAll news slots)) :
    entry.heap.scan store' = .ok ((Heap.liveRows slots).map (Heap.renewed news)) := by
  rw [Heap.scan_spec hat, Heap.liveRows_updateAll]
  · intro new hnew
    obtain ⟨hit, -, hg⟩ := exists_of_mem_right hgive hnew
    exact hg.dead
  · rw [Heap.gives_rowids hgive]
    exact hits_nodup halone
  · intro new hnew
    obtain ⟨hit, hh, hg⟩ := exists_of_mem_right hgive hnew
    rw [hg.rowid]
    exact halive hit hh
  · intro new hnew
    obtain ⟨hit, hh, hg⟩ := exists_of_mem_right hgive hnew
    rw [hg.rowid]
    exact halone hit hh
  · intro new hnew
    obtain ⟨hit, hh, hg⟩ := exists_of_mem_right hgive hnew
    obtain ⟨enc, henc, hlen⟩ := encodedHit_length hg
    rw [hg.rowid, Heap.slotGrowth_length hlen]
    exact growth_zero (halone hit hh) (halive hit hh) henc (hn hit hh)

/-- Updates in place do not make the page grow. -/
theorem updateSize_zero {rows : List (Nat × Row)} (h : Heap.HeapAt store entry.heap page slots)
    (hm : ∀ hit ∈ rows, hit.1 ∈ slots.map Slot.rowid)
    (hz : ∀ hit ∈ rows, ∀ enc,
      encodedHit entry.schema (OrdDict.ofList assignments) hit = .ok enc →
        Heap.slotGrowth hit.1 enc slots = 0) :
    updateSize entry.schema (OrdDict.ofList assignments) page.body rows = 0 := by
  induction rows with
  | nil => rfl
  | cons hit rows ih =>
    rw [updateSize]
    cases henc : encodedHit entry.schema (OrdDict.ofList assignments) hit with
    | error e => rfl
    | ok enc =>
      have hself := List.mem_cons_self (a := hit) (l := rows)
      simp only [h.growth enc (hm hit hself), hz hit hself enc henc, Nat.zero_add]
      exact ih (fun t ht => hm t (List.mem_cons_of_mem _ ht))
        (fun t ht => hz t (List.mem_cons_of_mem _ ht))

end

/-! ## Two tables with one row -/

namespace Database

/-- `CREATE TABLE t (a INT)` and `INSERT INTO t VALUES (5)`. -/
def fiveRow : Database :=
  newDatabase [.createTable { name := "t", columns := [⟨"a", "INT", []⟩] },
    .insert ⟨"t", none, [[.int 5]]⟩]

def fiveRowSlots : List (Slot intEntry.heap.schema) :=
  [⟨false, 1, [.int 5], leBytes 8 1 ++ (leBytes 2 1 ++ (leBytes 4 8 ++ leBytes 8 5)), 0,
    by decide +kernel, rfl⟩]

theorem fiveRow_heapAt :
    Heap.HeapAt fiveRow.store intEntry.heap ⟨1, .table, 0, Heap.slotsBody fiveRowSlots⟩
      fiveRowSlots :=
  ⟨by decide +kernel, rfl, by decide +kernel, by decide +kernel, Or.inl rfl, by decide +kernel⟩

/-- `CREATE TABLE t (rowid INT, a INT)` and `INSERT INTO t VALUES (5, 1)`. -/
def rowidColumn : Database :=
  newDatabase [.createTable { name := "t", columns := [⟨"rowid", "INT", []⟩, ⟨"a", "INT", []⟩] },
    .insert ⟨"t", none, [[.int 5, .int 1]]⟩]

def rowidEntry : TableMeta :=
  { name := "t", rootPageId := 1, schema := [("rowid", .int), ("a", .int)] }

def rowidSlots : List (Slot rowidEntry.heap.schema) :=
  [⟨false, 1, [.int 5, .int 1],
    leBytes 8 1 ++ (leBytes 2 2 ++ (leBytes 4 8 ++ leBytes 8 5 ++ (leBytes 4 8 ++ leBytes 8 1))), 0,
    by decide +kernel, rfl⟩]

theorem rowidColumn_heapAt :
    Heap.HeapAt rowidColumn.store rowidEntry.heap ⟨1, .table, 0, Heap.slotsBody rowidSlots⟩
      rowidSlots :=
  ⟨by decide +kernel, rfl, by decide +kernel, by decide +kernel, Or.inl rfl, by decide +kernel⟩

end Database
end TinyDB
