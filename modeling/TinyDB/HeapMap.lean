import TinyDB.HeapStore
import TinyDB.Lib.Lists
import TinyDB.Lib.Run

/-!
# The heap as a map from rowid to row

What a heap is for: a map from rowids to rows. `HeapState` pairs the store with
the map its calls so far should have produced, and `Refines` says that a scan
lists that map. The search of `update` and `delete` stops at the first slot
with the rowid even when that slot is dead, which is the old place of a row that
an earlier update moved to the end. `heap_refines_iff`: a run refines the map in
every state exactly when no call hits a moved row.
-/

namespace TinyDB

open Lib

inductive HeapOp where
  | append (values : Row)
  | update (rowid : Nat) (values : Row)
  | delete (rowid : Nat)
  deriving DecidableEq, Repr

/-- The store, and beside it what a map would hold after the same calls: `rows`
the rows as the codec reads them back, `used` the rowids handed out, `raised`
whether a call on an encodable row raised. -/
structure HeapState where
  store : FileStore
  rows : Nat → Option Row
  used : List Nat
  raised : Bool

namespace Heap

def encodable (schema : Schema) (values : Row) : Bool := (encodeRow values schema 0).isOk

def call (heap : Heap) (st : HeapState) : HeapOp → HeapState
  | .append values =>
    match heap.append st.store values with
    | .ok (rowid, store) =>
      ⟨store, Function.update st.rows rowid (some (readBackRow values)), st.used ++ [rowid],
        st.raised⟩
    | .error _ => { st with raised := st.raised || encodable heap.schema values }
  | .update rowid values =>
    match heap.update st.store rowid values with
    | .ok store =>
      { st with
        store := store
        rows := Function.update st.rows rowid (some (readBackRow values)) }
    | .error _ => { st with raised := st.raised || encodable heap.schema values }
  | .delete rowid =>
    match heap.delete st.store rowid with
    | .ok store => { st with store := store, rows := Function.update st.rows rowid none }
    | .error _ => { st with raised := true }

/-- A scan lists the map, and no rowid was handed out twice. -/
def Refines (heap : Heap) (st : HeapState) : Prop :=
  (∃ rows, heap.scan st.store = .ok rows ∧ Lists rows st.rows) ∧ st.used.Nodup ∧
    st.raised = false

/-! ## Which calls are made -/

/-- The rowid is one that a scan returns now. -/
def returns (heap : Heap) (store : FileStore) (rowid : Nat) : Bool :=
  match heap.scan store with
  | .ok rows => decide (rowid ∈ rows.map Prod.fst)
  | .error _ => false

/-- The length of the body that the call is about to write. -/
def bodyAfter (heap : Heap) (store : FileStore) : HeapOp → Except PyErr Nat
  | .append values => do
    let page ← store.readPage heap.rootPageId
    let enc ← encodeRow values heap.schema 0
    .ok (max 2 page.body.length + 5 + enc.length)
  | .update rowid values => do
    let page ← store.readPage heap.rootPageId
    let count ← unpackUint 2 (slice page.body 0 2)
    let found ← findSlot rowid page.body count 2
    let enc ← encodeRow values heap.schema 0
    match found with
    | none => .ok page.body.length
    | some (_, rowLen) =>
      .ok (if enc.length < rowLen then page.body.length else page.body.length + 5 + enc.length)
  | .delete _ => do
    let page ← store.readPage heap.rootPageId
    .ok page.body.length

def withinCapacity (heap : Heap) (store : FileStore) (op : HeapOp) : Bool :=
  match heap.bodyAfter store op with
  | .ok n => decide (n ≤ store.bodySize)
  | .error _ => true

/-- Rows of the schema, rowids that a scan returns, bodies that fit the page. -/
def Legal (heap : Heap) (st : HeapState) (op : HeapOp) : Prop :=
  heap.withinCapacity st.store op = true ∧
    match op with
    | .append values => values.length = heap.schema.length
    | .update rowid values =>
      values.length = heap.schema.length ∧ heap.returns st.store rowid = true
    | .delete rowid => heap.returns st.store rowid = true

instance (heap : Heap) (st : HeapState) (op : HeapOp) : Decidable (heap.Legal st op) := by
  unfold Legal
  cases op <;> infer_instance

/-- The deleted flag of the first slot with the rowid. -/
def firstFlag (rowid : Nat) (body : Bytes) : Except PyErr (Option Bytes) := do
  let count ← unpackUint 2 (slice body 0 2)
  let found ← findSlot rowid body count 2
  .ok (found.map fun slot => slice body (slot.1 + 4) (slot.1 + 5))

/-- The first slot with the rowid is alive: no update has moved the row. -/
def unmoved (heap : Heap) (store : FileStore) (rowid : Nat) : Bool :=
  match store.readPage heap.rootPageId with
  | .ok page => firstFlag rowid page.body == .ok (some alive)
  | .error _ => false

def KeepsMap (heap : Heap) (st : HeapState) : HeapOp → Prop
  | .append _ => True
  | .update rowid values =>
    encodable heap.schema values = true → heap.unmoved st.store rowid = true
  | .delete rowid => heap.unmoved st.store rowid = true

instance (heap : Heap) (st : HeapState) (op : HeapOp) : Decidable (heap.KeepsMap st op) := by
  cases op <;> (unfold KeepsMap; infer_instance)

/-- An empty page as `alloc_page` leaves it. -/
structure Fresh (heap : Heap) (store : FileStore) : Prop where
  read : ∃ page, store.readPage heap.rootPageId = .ok page ∧ page.pageId = heap.rootPageId ∧
    page.body = []
  inFile : heap.rootPageId < store.file.length
  size : FileStore.pageSizeMin ≤ store.pageSize ∧ store.pageSize ≤ FileStore.pageSizeMax

def start (store : FileStore) : HeapState := ⟨store, fun _ => none, [], false⟩

/-! ## The invariant -/

/-- The page holds slots whose live rows are the map, with fewer rowids than
slots. -/
structure HeapInv (heap : Heap) (st : HeapState) (page : Page)
    (slots : List (Slot heap.schema)) : Prop where
  heapAt : HeapAt st.store heap page slots
  lists : Lists (liveRows slots) st.rows
  rowids : ∀ s ∈ slots, s.rowid ≤ slots.length
  used : st.used.Nodup
  used_le : ∀ r ∈ st.used, r ≤ slots.length
  raised : st.raised = false

variable {heap : Heap} {st : HeapState} {page : Page} {slots : List (Slot heap.schema)}

theorem HeapInv.refines (h : HeapInv heap st page slots) : Refines heap st :=
  ⟨⟨_, scan_spec h.heapAt, h.lists⟩, h.used, h.raised⟩

theorem Fresh.heapInv {store : FileStore} (h : Fresh heap store) :
    ∃ page, HeapInv heap (start store) page [] := by
  obtain ⟨page, hr, hid, hb⟩ := h.read
  have hs := h.size
  simp only [FileStore.pageSizeMin, FileStore.pageSizeMax] at hs
  refine ⟨page, ⟨hr, hid, h.inFile, ?_, Or.inr ⟨hb, rfl⟩, ?_⟩, Lists.nil, by simp,
    List.nodup_nil, by simp [start], rfl⟩
  · simp only [start, FileStore.bodySize, fileHeaderSize]; omega
  · simp only [start, slotsBody_length, slotsBytes_nil, List.length_nil, FileStore.bodySize,
      fileHeaderSize]
    omega

theorem encodeRow_rowid {values : Row} {schema : Schema} {r n : Nat} {enc : Bytes}
    (h : encodeRow values schema r = .ok enc) (hr : n < 256 ^ 8) :
    ∃ enc', encodeRow values schema n = .ok enc' ∧ enc'.length = enc.length := by
  simp only [encodeRow, bind_eq_ok, Except.ok.injEq, packUint_eq_ok] at h ⊢
  obtain ⟨_, ⟨-, rfl⟩, _, ⟨hc, rfl⟩, cells, hcells, rfl⟩ := h
  exact ⟨_, ⟨_, ⟨hr, rfl⟩, _, ⟨hc, rfl⟩, cells, hcells, rfl⟩, by simp⟩

theorem encodeRow_rowid_lt {values : Row} {schema : Schema} {r : Nat} {enc : Bytes}
    (h : encodeRow values schema r = .ok enc) : r < 256 ^ 8 := by
  simp only [encodeRow, bind_eq_ok, packUint_eq_ok] at h
  obtain ⟨_, ⟨hr, -⟩, -⟩ := h
  exact hr

theorem encodeRow_error {values : Row} {schema : Schema} {r : Nat}
    (h : encodable schema values = false) : ∃ e, encodeRow values schema r = .error e := by
  cases hr : encodeRow values schema r with
  | error e => exact ⟨e, rfl⟩
  | ok enc =>
    obtain ⟨enc', he, -⟩ := encodeRow_rowid hr (show 0 < 256 ^ 8 by decide)
    rw [encodable, he] at h
    cases h

theorem length_le_bytes {schema : Schema} (slots : List (Slot schema)) :
    5 * slots.length ≤ (slotsBytes slots).length := by
  induction slots with
  | nil => simp
  | cons s slots ih =>
    simp only [slotsBytes_cons, List.length_append, List.length_cons, s.bytes_length]
    omega

/-- A page has far fewer slots than a rowid or a row count can express. -/
theorem HeapAt.length_small {store : FileStore} (h : HeapAt store heap page slots) :
    slots.length < 20000 := by
  have h1 := length_le_bytes slots
  have h2 := h.fits
  have h3 := h.small
  rw [slotsBody_length] at h2
  omega

theorem HeapAt.body_length {store : FileStore} (h : HeapAt store heap page slots) :
    max 2 page.body.length = (slotsBody slots).length := by
  rcases h.represents with hb | ⟨hb, hs⟩
  · rw [hb, slotsBody_length]; omega
  · subst hs; rw [hb]; rfl

theorem liveRows_append {schema : Schema} (s t : List (Slot schema)) :
    liveRows (s ++ t) = liveRows s ++ liveRows t := by
  simp [liveRows]

theorem liveRows_live {schema : Schema} {before after : List (Slot schema)} {s : Slot schema}
    (hs : s.dead = false) : liveRows (before ++ s :: after) =
      liveRows before ++ (s.rowid, readBackRow s.values) :: liveRows after := by
  simp [liveRows, Slot.live?, hs]

theorem liveRows_dead {schema : Schema} {before after : List (Slot schema)} {s : Slot schema}
    (hs : s.dead = true) : liveRows (before ++ s :: after) = liveRows before ++ liveRows after := by
  simp [liveRows, Slot.live?, hs]

theorem mem_liveRows {schema : Schema} {slots : List (Slot schema)} {r : Nat}
    (h : r ∈ (liveRows slots).map Prod.fst) : ∃ s ∈ slots, s.rowid = r ∧ s.dead = false := by
  obtain ⟨e, he, rfl⟩ := List.mem_map.mp h
  obtain ⟨s, hs, hl⟩ := List.mem_filterMap.mp he
  unfold Slot.live? at hl
  split at hl
  · cases hl
  · rename_i hd
    cases hl
    exact ⟨s, hs, rfl, by simpa using hd⟩

/-- A rowid that a scan returns has a first slot. -/
theorem returns_split (h : HeapInv heap st page slots) {r : Nat}
    (hr : heap.returns st.store r = true) : ∃ before s after, slots = before ++ s :: after ∧
      s.rowid = r ∧ (∀ t ∈ before, t.rowid ≠ r) ∧ r ∈ (liveRows slots).map Prod.fst := by
  rw [returns, scan_spec h.heapAt] at hr
  have hm : r ∈ (liveRows slots).map Prod.fst := by simpa using hr
  obtain ⟨t, ht, htr, -⟩ := mem_liveRows hm
  rcases first_slot r slots with hn | ⟨before, s, after, hs, hsr, hb⟩
  · exact absurd htr (hn t ht)
  · exact ⟨before, s, after, hs, hsr, hb, hm⟩

theorem unmoved_iff {store : FileStore} {before after : List (Slot heap.schema)}
    {s : Slot heap.schema} (h : HeapAt store heap page (before ++ s :: after))
    (hb : ∀ t ∈ before, t.rowid ≠ s.rowid) :
    heap.unmoved store s.rowid = true ↔ s.dead = false := by
  obtain ⟨hc, hfind⟩ := findSlot_represents h.represents h.slotsFit hb
  obtain ⟨hbody, -⟩ := represents_cons h.represents h.slotsFit (by simp)
  have hflag : slice page.body
      ((leBytes 2 (before ++ s :: after).length ++ slotsBytes before).length + 4)
      ((leBytes 2 (before ++ s :: after).length ++ slotsBytes before).length + 5) = [s.flag] := by
    rw [hbody, slotsBody_split, ← List.append_assoc]
    refine slice_field _ [s.flag] _ _ 1 ?_ rfl
    simp only [List.length_append, leBytes_length]
  rw [unmoved, h.read]
  simp only [firstFlag, hc, hfind, ok_bind, Option.map_some, hflag, beq_iff_eq, Except.ok.injEq,
    Option.some.injEq, alive]
  cases hd : s.dead <;> simp [Slot.flag, hd]

/-! ## One call -/

theorem append_keeps (h : HeapInv heap st page slots) {values : Row}
    (hl : heap.Legal st (.append values)) :
    ∃ page' slots', HeapInv heap (heap.call st (.append values)) page' slots' := by
  obtain ⟨hcap, ha⟩ := hl
  have hsmall := h.heapAt.length_small
  cases he : encodable heap.schema values
  · obtain ⟨e, herr⟩ := encodeRow_error (r := slots.length + 1) he
    rw [call, append_encode_error h.heapAt herr]
    exact ⟨page, slots, h.heapAt, h.lists, h.rowids, h.used, h.used_le, by simp [he, h.raised]⟩
  · obtain ⟨enc0, he0⟩ : ∃ enc0, encodeRow values heap.schema 0 = .ok enc0 := by
      cases h0 : encodeRow values heap.schema 0 with
      | ok enc0 => exact ⟨enc0, rfl⟩
      | error e => rw [encodable, h0] at he; cases he
    obtain ⟨enc, henc, hlen⟩ := encodeRow_rowid (n := slots.length + 1) he0
      (Nat.lt_trans (Nat.succ_lt_succ hsmall) (by decide))
    have hfit : (slotsBody (slots ++
        [⟨false, slots.length + 1, values, enc, 0, henc, ha⟩])).length ≤ st.store.bodySize := by
      have hb := h.heapAt.body_length
      simp only [withinCapacity, bodyAfter, h.heapAt.read, ok_bind, he0, decide_eq_true_eq] at hcap
      rw [slotsBody_length] at hb ⊢
      simp only [slotsBytes_append, slotsBytes_cons, slotsBytes_nil, List.length_append,
        Slot.bytes_length, Slot.data_length, List.length_nil]
      omega
    obtain ⟨store', page', hcall, hat, -⟩ := append_spec h.heapAt henc ha hfit
    have hnew : slots.length + 1 ∉ (liveRows slots).map Prod.fst := by
      intro hm
      obtain ⟨s, hs, hr, -⟩ := mem_liveRows hm
      have := h.rowids s hs
      omega
    rw [call, hcall]
    refine ⟨page', _, hat, ?_, ?_, ?_, ?_, h.raised⟩
    · rw [liveRows_append]
      exact h.lists.snoc hnew
    · intro s hs
      rw [List.length_append, List.length_singleton]
      rcases List.mem_append.mp hs with hs | hs
      · exact Nat.le_succ_of_le (h.rowids s hs)
      · rw [List.mem_singleton] at hs
        simp [hs]
    · refine List.nodup_append.mpr ⟨h.used, List.nodup_singleton _, ?_⟩
      intro a hm b hb e
      rw [List.mem_singleton] at hb
      have := h.used_le a hm
      omega
    · intro r hr
      rw [List.length_append, List.length_singleton]
      rcases List.mem_append.mp hr with hr | hr
      · exact Nat.le_succ_of_le (h.used_le r hr)
      · rw [List.mem_singleton] at hr
        omega

theorem HeapInv.replaceSlots (h : HeapInv heap st page slots) {store' : FileStore} {page' : Page}
    {slots' : List (Slot heap.schema)} {rows' : Nat → Option Row}
    (hat : HeapAt store' heap page' slots') (hl : Lists (liveRows slots') rows')
    (hlen : slots.length ≤ slots'.length)
    (hr : ∀ s ∈ slots', ∃ t ∈ slots, t.rowid = s.rowid) :
    HeapInv heap { st with store := store', rows := rows' } page' slots' where
  heapAt := hat
  lists := hl
  rowids s hs := by
    obtain ⟨t, ht, e⟩ := hr s hs
    have := h.rowids t ht
    omega
  used := h.used
  used_le r hu := Nat.le_trans (h.used_le r hu) hlen
  raised := h.raised

theorem delete_keeps (h : HeapInv heap st page slots) {r : Nat}
    (hl : heap.Legal st (.delete r)) (hk : heap.KeepsMap st (.delete r)) :
    ∃ page' slots', HeapInv heap (heap.call st (.delete r)) page' slots' := by
  obtain ⟨before, s, after, rfl, rfl, hb, -⟩ := returns_split h hl.2
  have hlive := (unmoved_iff h.heapAt hb).mp hk
  obtain ⟨store', page', hcall, hat, -⟩ := delete_spec h.heapAt hb
  rw [call, hcall]
  refine ⟨page', _, h.replaceSlots hat ?_ (by simp) ?_⟩
  · have hd : s.kill.dead = true := rfl
    rw [liveRows_dead hd]
    exact (liveRows_live hlive ▸ h.lists).remove
  · intro t ht
    rcases List.mem_append.mp ht with ht | ht
    · exact ⟨t, by simp [ht], rfl⟩
    · rcases List.mem_cons.mp ht with rfl | ht
      · exact ⟨s, by simp, rfl⟩
      · exact ⟨t, by simp [ht], rfl⟩

/-- What `update` does to the slots: in place if the row fits, else at the end. -/
theorem update_cases (h : HeapAt st.store heap page slots) {before after : List (Slot heap.schema)}
    {s : Slot heap.schema} (hs : slots = before ++ s :: after)
    (hb : ∀ t ∈ before, t.rowid ≠ s.rowid) {values : Row}
    (he : encodable heap.schema values = true) (ha : values.length = heap.schema.length)
    (hcap : heap.withinCapacity st.store (.update s.rowid values) = true) :
    ∃ store' page' slots' new, heap.update st.store s.rowid values = .ok store' ∧
      HeapAt store' heap page' slots' ∧ new.dead = false ∧ new.rowid = s.rowid ∧
      new.values = values ∧
      (slots' = before ++ new :: after ∨ slots' = before ++ s.kill :: after ++ [new]) := by
  subst hs
  have hsmall := h.length_small
  obtain ⟨enc0, he0⟩ : ∃ enc0, encodeRow values heap.schema 0 = .ok enc0 := by
    cases h0 : encodeRow values heap.schema 0 with
    | ok enc0 => exact ⟨enc0, rfl⟩
    | error e => rw [encodable, h0] at he; cases he
  obtain ⟨enc, henc, hlen⟩ := encodeRow_rowid (n := s.rowid) he0 (encodeRow_rowid_lt s.encoded)
  obtain ⟨hc, hfind⟩ := findSlot_represents h.represents h.slotsFit hb
  by_cases hle : enc.length ≤ s.data.length
  · obtain ⟨store', page', hcall, hat, -⟩ := update_inPlace_spec h hb henc ha hle
    exact ⟨store', page', _, ⟨false, s.rowid, values, enc, s.data.length - enc.length, henc, ha⟩,
      hcall, hat, rfl, rfl, rfl, Or.inl rfl⟩
  · have hfit : (slotsBody (before ++ s.kill :: after ++
        [⟨false, s.rowid, values, enc, 0, henc, ha⟩])).length ≤ st.store.bodySize := by
      have hbl := h.body_length
      have hge : ¬ enc0.length < s.data.length + 1 := by omega
      simp only [withinCapacity, bodyAfter, h.read, ok_bind, hc, hfind, he0, hge, ↓reduceIte,
        decide_eq_true_eq] at hcap
      have hkill : s.kill.data = s.data := rfl
      obtain ⟨hbody, -⟩ := represents_cons h.represents h.slotsFit (by simp)
      rw [hbody, slotsBody_length] at hcap
      rw [slotsBody_length]
      simp only [slotsBytes_append, slotsBytes_cons, slotsBytes_nil, List.length_append,
        Slot.bytes_length, hkill, List.length_nil] at hcap ⊢
      simp only [Slot.data_length] at hcap ⊢
      omega
    obtain ⟨store', page', hcall, hat, -⟩ := update_grow_spec h hb henc ha (by omega) hfit
    exact ⟨store', page', _, ⟨false, s.rowid, values, enc, 0, henc, ha⟩,
      hcall, hat, rfl, rfl, rfl, Or.inr rfl⟩

theorem update_keeps (h : HeapInv heap st page slots) {r : Nat} {values : Row}
    (hl : heap.Legal st (.update r values)) (hk : heap.KeepsMap st (.update r values)) :
    ∃ page' slots', HeapInv heap (heap.call st (.update r values)) page' slots' := by
  obtain ⟨hcap, ha, hret⟩ := hl
  obtain ⟨before, s, after, rfl, rfl, hb, -⟩ := returns_split h hret
  cases he : encodable heap.schema values
  · obtain ⟨e, herr⟩ := encodeRow_error (r := s.rowid) he
    rw [call, update_encode_error h.heapAt hb herr]
    exact ⟨page, _, h.heapAt, h.lists, h.rowids, h.used, h.used_le, by simp [he, h.raised]⟩
  · have hlive := (unmoved_iff h.heapAt hb).mp (hk he)
    obtain ⟨store', page', slots', new, hcall, hat, hnd, hnr, hnv, hs'⟩ :=
      update_cases h.heapAt rfl hb he ha hcap
    have hlists := liveRows_live hlive ▸ h.lists
    rw [call, hcall]
    refine ⟨page', slots', h.replaceSlots hat ?_ ?_ ?_⟩
    · rcases hs' with rfl | rfl
      · rw [liveRows_live hnd, hnr, hnv]
        exact hlists.replace
      · have hd : s.kill.dead = true := rfl
        have hn : liveRows [new] = [(new.rowid, readBackRow new.values)] := by
          simp [liveRows, Slot.live?, hnd]
        rw [liveRows_append, liveRows_dead hd, hn, hnr, hnv]
        exact hlists.moveToEnd
    · rcases hs' with rfl | rfl
      · simp
      · simp
    · intro t ht
      have hcase : t ∈ before ∨ t ∈ after ∨ t.rowid = s.rowid := by
        rcases hs' with rfl | rfl
        · simp only [List.mem_append, List.mem_cons] at ht
          rcases ht with ht | rfl | ht
          · exact Or.inl ht
          · exact Or.inr (Or.inr hnr)
          · exact Or.inr (Or.inl ht)
        · simp only [List.mem_append, List.mem_cons, List.not_mem_nil, or_false] at ht
          rcases ht with (ht | rfl | ht) | rfl
          · exact Or.inl ht
          · exact Or.inr (Or.inr rfl)
          · exact Or.inr (Or.inl ht)
          · exact Or.inr (Or.inr hnr)
      rcases hcase with ht | ht | ht
      · exact ⟨t, by simp [ht], rfl⟩
      · exact ⟨t, by simp [ht], rfl⟩
      · exact ⟨s, by simp, ht.symm⟩

/-- A dead first slot: the row lives in a later one. -/
theorem live_after {before after : List (Slot heap.schema)} {s : Slot heap.schema}
    (hd : s.dead = true) (hb : ∀ t ∈ before, t.rowid ≠ s.rowid)
    (hm : s.rowid ∈ (liveRows (before ++ s :: after)).map Prod.fst) :
    s.rowid ∈ (liveRows after).map Prod.fst := by
  rw [liveRows_dead hd, List.map_append, List.mem_append] at hm
  rcases hm with hm | hm
  · obtain ⟨t, ht, htr, -⟩ := mem_liveRows hm
    exact absurd htr (hb t ht)
  · exact hm

/-- A call on a moved row leaves the map at once: an update shows the row twice,
a delete leaves it there. -/
theorem moved_breaks (h : HeapInv heap st page slots) {op : HeapOp} (hl : heap.Legal st op)
    (hk : ¬ heap.KeepsMap st op) : ¬ Refines heap (heap.call st op) := by
  rintro ⟨⟨rows, hscan, hlists⟩, -⟩
  cases op with
  | append values => exact hk trivial
  | delete r =>
    obtain ⟨before, s, after, rfl, rfl, hb, hm⟩ := returns_split h hl.2
    have hdead : s.dead = true := by
      have := mt (unmoved_iff h.heapAt hb).mpr hk
      simpa using this
    have hafter := live_after hdead hb hm
    obtain ⟨store', page', hcall, hat, -⟩ := delete_spec h.heapAt hb
    rw [call, hcall] at hscan hlists
    simp only [scan_spec hat, Except.ok.injEq] at hscan
    subst hscan
    have hnone := (hlists.eq_none_iff s.rowid).mp (Function.update_self ..)
    have hd : s.kill.dead = true := rfl
    rw [liveRows_dead hd, List.map_append, List.mem_append] at hnone
    exact hnone (Or.inr hafter)
  | update r values =>
    obtain ⟨hcap, ha, hret⟩ := hl
    obtain ⟨before, s, after, rfl, rfl, hb, hm⟩ := returns_split h hret
    obtain ⟨he, hk⟩ := Classical.not_imp.mp hk
    have hdead : s.dead = true := by
      have := mt (unmoved_iff h.heapAt hb).mpr hk
      simpa using this
    have hafter := live_after hdead hb hm
    obtain ⟨store', page', slots', new, hcall, hat, hnd, hnr, hnv, hs'⟩ :=
      update_cases h.heapAt rfl hb he ha hcap
    rw [call, hcall] at hscan hlists
    simp only [scan_spec hat, Except.ok.injEq] at hscan
    subst hscan
    have hnodup := hlists.nodup
    rcases hs' with rfl | rfl
    · rw [liveRows_live hnd, List.map_append, List.map_cons, List.nodup_append] at hnodup
      exact (List.nodup_cons.mp hnodup.2.1).1 (by rw [hnr]; exact hafter)
    · have hd : s.kill.dead = true := rfl
      rw [liveRows_append, List.map_append, List.nodup_append] at hnodup
      refine hnodup.2.2 s.rowid ?_ new.rowid ?_ hnr.symm
      · rw [liveRows_dead hd, List.map_append]
        exact List.mem_append_right _ hafter
      · simp [liveRows, Slot.live?, hnd]

/-! ## Runs -/

/-- **The heap refines a map exactly as long as no call hits a moved row.** -/
theorem heap_refines_iff (heap : Heap) (store : FileStore) (ops : List HeapOp)
    (hfresh : Fresh heap store) (hlegal : Along heap.call heap.Legal (start store) ops) :
    Reached heap.call heap.Refines (start store) ops ↔
      Along heap.call heap.KeepsMap (start store) ops := by
  obtain ⟨page, hinv⟩ := hfresh.heapInv
  refine reached_iff_along (L := heap.Legal) (fun st => ∃ page slots, HeapInv heap st page slots)
    (fun st ⟨_, _, h⟩ => h.refines) ?_ ?_ ⟨page, [], hinv⟩ hlegal
  · rintro st op ⟨_, _, h⟩ hl hk
    cases op with
    | append values => exact append_keeps h hl
    | update r values => exact update_keeps h hl hk
    | delete r => exact delete_keeps h hl hk
  · rintro st op ⟨_, _, h⟩ hl hk
    exact moved_breaks h hl hk

/-! ## Two runs -/

/-- A new store of 512-byte pages whose page 1 was just allocated for a table. -/
def newStore : FileStore :=
  match FileStore.openFile [] 512 with
  | .ok store => (allocPage store .table).2
  | .error _ => ⟨[], 512, 0, 0⟩

def textHeap : Heap := ⟨1, [("a", .text)]⟩

theorem textHeap_fresh : Fresh textHeap newStore where
  read := ⟨⟨1, .table, 0, []⟩, by decide +kernel, rfl, rfl⟩
  inFile := by decide +kernel
  size := by decide +kernel

/-- Appending, growing and deleting other rows stays within the condition. -/
theorem heap_refines_grow :
    Reached textHeap.call textHeap.Refines (start newStore)
      [.append [.text "a"], .append [.text "b"], .update 1 [.text "longer"], .delete 2] :=
  (heap_refines_iff textHeap newStore _ textHeap_fresh (by decide +kernel)).mpr
    (by decide +kernel)

/-- A row that outgrew its slot is updated once more: the search revives the old
slot, and a scan returns the rowid twice. -/
theorem heap_update_twice :
    Fresh textHeap newStore ∧
      Along textHeap.call textHeap.Legal (start newStore)
        [.append [.text "a"], .update 1 [.text "longer"], .update 1 [.text "c"]] ∧
      ¬ Reached textHeap.call textHeap.Refines (start newStore)
        [.append [.text "a"], .update 1 [.text "longer"], .update 1 [.text "c"]] := by
  refine ⟨textHeap_fresh, by decide +kernel, ?_⟩
  intro h
  obtain ⟨⟨rows, hscan, hlists⟩, -⟩ := h.last
  have hrows : textHeap.scan (run textHeap.call (start newStore)
      [.append [.text "a"], .update 1 [.text "longer"], .update 1 [.text "c"]]).store =
      .ok [(1, [.text "c"]), (1, [.text "longer"])] := by decide +kernel
  rw [hrows, Except.ok.injEq] at hscan
  subst hscan
  exact absurd hlists.nodup (by decide)

end Heap
end TinyDB
