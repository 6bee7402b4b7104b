import TinyDB.Dml
import TinyDB.HeapMap

/-!
# The statements on slots

What INSERT, UPDATE and DELETE do to the slots of a table. The loop of UPDATE
and DELETE splits into the WHERE clause, which picks the `hits` before the first
row on which it raises (`writeRows_eq`), and the writes of those hits. Each
statement is then a fold of one slot operation, as long as what it writes fits
the page.
-/

namespace TinyDB

open Lib

/-! ## The WHERE clause -/

/-- The rows that satisfy the WHERE clause, up to the first row on which it
raises. -/
def hits (schema : Schema) (cond : Option Expr) : List (Nat × Row) → List (Nat × Row)
  | [] => []
  | (rowid, values) :: rows =>
    match evalWhere (rowToDict schema values rowid) cond with
    | .error _ => []
    | .ok true => (rowid, values) :: hits schema cond rows
    | .ok false => hits schema cond rows

/-- What the WHERE clause raises on the rows. -/
def whereError (schema : Schema) (cond : Option Expr) : List (Nat × Row) → Option PyErr
  | [] => none
  | (rowid, values) :: rows =>
    match evalWhere (rowToDict schema values rowid) cond with
    | .error e => some e
    | .ok _ => whereError schema cond rows

/-- The loop of UPDATE and DELETE without the WHERE clause. -/
def writeHits (schema : Schema) (write : FileStore → Nat → RowDict → Except PyErr FileStore) :
    FileStore → Nat → List (Nat × Row) → Except PyErr Nat × FileStore
  | store, count, [] => (.ok count, store)
  | store, count, (rowid, values) :: rows =>
    match write store rowid (rowToDict schema values rowid) with
    | .error e => (.error e, store)
    | .ok store => writeHits schema write store (count + 1) rows

theorem mem_of_mem_hits {schema : Schema} {cond : Option Expr} {rows : List (Nat × Row)}
    {hit : Nat × Row} (h : hit ∈ hits schema cond rows) : hit ∈ rows := by
  induction rows with
  | nil => cases h
  | cons row rows ih =>
    obtain ⟨rowid, values⟩ := row
    simp only [hits] at h
    split at h
    · cases h
    · rcases List.mem_cons.mp h with rfl | h
      · exact List.mem_cons_self ..
      · exact List.mem_cons_of_mem _ (ih h)
    · exact List.mem_cons_of_mem _ (ih h)

theorem hits_sublist (schema : Schema) (cond : Option Expr) (rows : List (Nat × Row)) :
    (hits schema cond rows).Sublist rows := by
  induction rows with
  | nil => exact List.Sublist.slnil
  | cons row rows ih =>
    obtain ⟨rowid, values⟩ := row
    simp only [hits]
    split
    · exact List.nil_sublist _
    · exact ih.cons_cons _
    · exact ih.cons _

/-- **The loop is the writes of the hits, then the error of the WHERE clause.** -/
theorem writeRows_eq (schema : Schema) (cond : Option Expr)
    (write : FileStore → Nat → RowDict → Except PyErr FileStore) (store : FileStore) (n : Nat)
    (rows : List (Nat × Row)) :
    writeRows schema cond write store n rows =
      match writeHits schema write store n (hits schema cond rows) with
      | (.error e, store) => (.error e, store)
      | (.ok m, store) =>
        match whereError schema cond rows with
        | some e => (.error e, store)
        | none => (.ok m, store) := by
  induction rows generalizing store n with
  | nil => rfl
  | cons row rows ih =>
    obtain ⟨rowid, values⟩ := row
    simp only [writeRows, hits, whereError]
    cases hc : evalWhere (rowToDict schema values rowid) cond with
    | error e => rfl
    | ok b =>
      cases b with
      | false => exact ih store n
      | true =>
        simp only [writeHits]
        cases hw : write store rowid (rowToDict schema values rowid) with
        | error e => rfl
        | ok store' => exact ih store' (n + 1)

/-! ## Rows that a statement writes -/

/-- What a row takes on a page. -/
def rowSize (schema : Schema) (values : Row) : Nat :=
  match encodeRow values schema 0 with
  | .error _ => 0
  | .ok enc => enc.length + 5

def rowsSize (schema : Schema) (rows : List Row) : Nat := (rows.map (rowSize schema)).sum

/-- The values an UPDATE gives to a row of the scan. -/
def newValues (schema : Schema) (assignments : RowDict) (hit : Nat × Row) : Except PyErr Row :=
  updatedValues assignments (rowToDict schema hit.2 hit.1) schema

/-- The bytes an UPDATE makes of a row of the scan. -/
def encodedHit (schema : Schema) (assignments : RowDict) (hit : Nat × Row) : Except PyErr Bytes := do
  let values ← newValues schema assignments hit
  encodeRow values schema 0

/-- How much a page grows when the row under the rowid becomes `enc`. -/
def Heap.growth (body : Bytes) (rowid : Nat) (enc : Bytes) : Except PyErr Nat := do
  let count ← unpackUint 2 (slice body 0 2)
  let found ← findSlot rowid body count 2
  match found with
  | none => .ok 0
  | some (_, rowLen) => .ok (if enc.length < rowLen then 0 else enc.length + 5)

/-- How much the hits make the page grow, up to the first that fails its checks. -/
def updateSize (schema : Schema) (assignments : RowDict) (body : Bytes) : List (Nat × Row) → Nat
  | [] => 0
  | hit :: rest =>
    match encodedHit schema assignments hit with
    | .error _ => 0
    | .ok enc =>
      match Heap.growth body hit.1 enc with
      | .error _ => 0
      | .ok n => n + updateSize schema assignments body rest

/-- The body of the root page of a table. -/
def FileStore.bodyOf (store : FileStore) (entry : TableMeta) : Bytes :=
  match store.readPage entry.rootPageId with
  | .ok page => page.body
  | .error _ => []

/-- The rows of a table, none if its page cannot be scanned. -/
def FileStore.rowsOf (store : FileStore) (entry : TableMeta) : List (Nat × Row) :=
  match entry.heap.scan store with
  | .ok rows => rows
  | .error _ => []

namespace Heap

variable {schema : Schema}

/-! ## Slot operations -/

/-- `update`: the first slot with the rowid takes the new row if it has the room,
else it dies and the row goes to the end. -/
def updateSlots (new : Slot schema) : List (Slot schema) → List (Slot schema)
  | [] => []
  | s :: slots =>
    if s.rowid = new.rowid then
      if new.enc.length ≤ s.data.length then
        { new with pad := s.data.length - new.enc.length } :: slots
      else s.kill :: (slots ++ [new])
    else s :: updateSlots new slots

/-- `delete`: the first slot with the rowid dies. -/
def deleteSlots (rowid : Nat) : List (Slot schema) → List (Slot schema)
  | [] => []
  | s :: slots => if s.rowid = rowid then s.kill :: slots else s :: deleteSlots rowid slots

/-- How much an update makes the slots grow. -/
def slotGrowth (rowid : Nat) (enc : Bytes) : List (Slot schema) → Nat
  | [] => 0
  | s :: slots =>
    if s.rowid = rowid then if enc.length ≤ s.data.length then 0 else enc.length + 5
    else slotGrowth rowid enc slots

/-- Whether the first slot with the rowid is alive. -/
def firstAlive (rowid : Nat) : List (Slot schema) → Bool
  | [] => false
  | s :: slots => if s.rowid = rowid then !s.dead else firstAlive rowid slots

section Split

variable {before after : List (Slot schema)} {s new : Slot schema} {rowid : Nat}

theorem updateSlots_split (hb : ∀ t ∈ before, t.rowid ≠ new.rowid) (hs : s.rowid = new.rowid) :
    updateSlots new (before ++ s :: after) =
      if new.enc.length ≤ s.data.length then
        before ++ { new with pad := s.data.length - new.enc.length } :: after
      else before ++ s.kill :: after ++ [new] := by
  induction before with
  | nil =>
    simp only [List.nil_append, updateSlots, hs, ↓reduceIte]
    split <;> rfl
  | cons t before ih =>
    have ht : t.rowid ≠ new.rowid := hb t (List.mem_cons_self ..)
    simp only [List.cons_append, updateSlots, ht, ↓reduceIte,
      ih fun u hu => hb u (List.mem_cons_of_mem _ hu)]
    split <;> rfl

theorem deleteSlots_split (hb : ∀ t ∈ before, t.rowid ≠ rowid) (hs : s.rowid = rowid) :
    deleteSlots rowid (before ++ s :: after) = before ++ s.kill :: after := by
  induction before with
  | nil => simp only [List.nil_append, deleteSlots, hs, ↓reduceIte]
  | cons t before ih =>
    have ht : t.rowid ≠ rowid := hb t (List.mem_cons_self ..)
    simp only [List.cons_append, deleteSlots, ht, ↓reduceIte,
      ih fun u hu => hb u (List.mem_cons_of_mem _ hu)]

theorem slotGrowth_split (hb : ∀ t ∈ before, t.rowid ≠ rowid) (hs : s.rowid = rowid)
    (enc : Bytes) : slotGrowth rowid enc (before ++ s :: after) =
      if enc.length ≤ s.data.length then 0 else enc.length + 5 := by
  induction before with
  | nil => simp only [List.nil_append, slotGrowth, hs, ↓reduceIte]
  | cons t before ih =>
    have ht : t.rowid ≠ rowid := hb t (List.mem_cons_self ..)
    simp only [List.cons_append, slotGrowth, ht, ↓reduceIte,
      ih fun u hu => hb u (List.mem_cons_of_mem _ hu)]

theorem firstAlive_split (hb : ∀ t ∈ before, t.rowid ≠ rowid) (hs : s.rowid = rowid) :
    firstAlive rowid (before ++ s :: after) = !s.dead := by
  induction before with
  | nil => simp only [List.nil_append, firstAlive, hs, ↓reduceIte]
  | cons t before ih =>
    have ht : t.rowid ≠ rowid := hb t (List.mem_cons_self ..)
    simp only [List.cons_append, firstAlive, ht, ↓reduceIte,
      ih fun u hu => hb u (List.mem_cons_of_mem _ hu)]

end Split

/-- The slots of a rowid start with a first one. -/
theorem split_of_mem {rowid : Nat} {slots : List (Slot schema)}
    (h : rowid ∈ slots.map Slot.rowid) : ∃ before s after, slots = before ++ s :: after ∧
      s.rowid = rowid ∧ ∀ t ∈ before, t.rowid ≠ rowid := by
  rcases first_slot rowid slots with hn | ⟨before, s, after, hs, hr, hb⟩
  · obtain ⟨t, ht, he⟩ := List.mem_map.mp h
    exact absurd he (hn t ht)
  · exact ⟨before, s, after, hs, hr, hb⟩

theorem mem_rowids_of_live {slots : List (Slot schema)} {row : Nat × Row}
    (h : row ∈ liveRows slots) : row.1 ∈ slots.map Slot.rowid := by
  obtain ⟨s, hs, hr, -⟩ := mem_liveRows (List.mem_map_of_mem (f := Prod.fst) h)
  exact hr ▸ List.mem_map_of_mem (f := Slot.rowid) hs

theorem updateSlots_rowids (new : Slot schema) (slots : List (Slot schema)) :
    ∀ r ∈ slots.map Slot.rowid, r ∈ (updateSlots new slots).map Slot.rowid := by
  induction slots with
  | nil => intro r h; cases h
  | cons s slots ih =>
    intro r hr
    simp only [List.map_cons, List.mem_cons] at hr
    unfold updateSlots
    split
    · rename_i he
      split
      · rcases hr with rfl | hr
        · simp [he]
        · simp [List.mem_map.mp hr]
      · rcases hr with rfl | hr
        · simp [Slot.kill]
        · simp [List.mem_map.mp hr]
    · rcases hr with rfl | hr
      · simp
      · simp only [List.map_cons, List.mem_cons]
        exact Or.inr (ih r hr)

theorem slotGrowth_updateSlots (new : Slot schema) (slots : List (Slot schema)) (rowid : Nat)
    (enc : Bytes) (hr : rowid ∈ slots.map Slot.rowid) :
    slotGrowth rowid enc (updateSlots new slots) = slotGrowth rowid enc slots := by
  induction slots with
  | nil => cases hr
  | cons s slots ih =>
    unfold updateSlots
    split
    · rename_i he
      split
      · rename_i hle
        have hlen : ({ new with pad := s.data.length - new.enc.length } : Slot schema).data.length
            = s.data.length := by
          rw [Slot.data_length]
          exact Nat.add_sub_cancel' hle
        simp only [slotGrowth, he, hlen]
      · by_cases h : s.rowid = rowid
        · simp only [slotGrowth, Slot.kill, h, ↓reduceIte]
          rfl
        · simp only [slotGrowth, Slot.kill, h, ↓reduceIte]
          have hm : rowid ∈ slots.map Slot.rowid := by
            simp only [List.map_cons, List.mem_cons] at hr
            exact hr.resolve_left fun e => h e.symm
          obtain ⟨before, t, after, rfl, ht, hb⟩ := split_of_mem hm
          rw [List.append_assoc, List.cons_append, slotGrowth_split hb ht, slotGrowth_split hb ht]
    · by_cases h : s.rowid = rowid
      · simp only [slotGrowth, h, ↓reduceIte]
      · simp only [slotGrowth, h, ↓reduceIte]
        simp only [List.map_cons, List.mem_cons] at hr
        exact ih (hr.resolve_left fun e => h e.symm)

theorem updateSlots_length (new : Slot schema) (hp : new.pad = 0) (slots : List (Slot schema)) :
    (slotsBody (updateSlots new slots)).length =
      (slotsBody slots).length + slotGrowth new.rowid new.enc slots := by
  simp only [slotsBody_length]
  induction slots with
  | nil => rfl
  | cons s slots ih =>
    unfold updateSlots slotGrowth
    split
    · split
      · rename_i hle
        simp only [slotsBytes_cons, List.length_append, Slot.bytes_length, Slot.data_length]
        simp only [Slot.data_length] at hle
        omega
      · have hk : s.kill.data = s.data := rfl
        simp only [slotsBytes_cons, slotsBytes_append, slotsBytes_nil, List.length_append,
          Slot.bytes_length, hk, List.length_nil]
        simp only [Slot.data_length, hp]
        omega
    · simp only [slotsBytes_cons, List.length_append]
      omega

end Heap
end TinyDB
