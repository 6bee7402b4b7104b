import TinyDB.DmlSlots

/-!
# The statements on the store

`execInsert_spec`, `execUpdate_spec` and `execDelete_spec`: on a page that holds
slots, a statement whose rows fit the page writes exactly the rows that
`insertWrites`, `updateWrites` and `hits` list, leaves every other page alone,
and raises exactly when a row is refused or the WHERE clause raises.
-/

namespace TinyDB

open Lib

/-! ## One tuple -/

/-- The checks of a tuple, among them the scan for its key. -/
def checkTuple (entry : TableMeta) (constraints : ColumnConstraints) (colNames : List String)
    (store : FileStore) (values : List Value) : Except PyErr Row := do
  let ordered ← prepareRow entry constraints colNames values
  if pkCols constraints ≠ [] then
    checkUnique entry.heap store entry ordered (pkCols constraints)
  .ok ordered

theorem insertRow_eq (entry : TableMeta) (constraints : ColumnConstraints) (colNames : List String)
    (store : FileStore) (values : List Value) :
    insertRow entry.heap entry constraints colNames store values =
      (do
        let ordered ← checkTuple entry constraints colNames store values
        let (_, store) ← entry.heap.append store ordered
        .ok store) := by
  simp only [insertRow, checkTuple]
  cases prepareRow entry constraints colNames values with
  | error e => rfl
  | ok ordered =>
    simp only [ok_bind]
    split
    · cases checkUnique entry.heap store entry ordered (pkCols constraints) <;> rfl
    · rfl

/-! ## What is written -/

/-- The row an INSERT makes of a tuple, given the rows of the table. -/
def acceptTuple (entry : TableMeta) (constraints : ColumnConstraints) (colNames : List String)
    (rows : List Row) (values : List Value) : Except PyErr Row := do
  let ordered ← prepareRow entry constraints colNames values
  let indices := pkIndices entry.schema (pkCols constraints)
  if pkCols constraints ≠ [] ∧
      rows.any (fun row => Value.pyEqAll (keyOf indices row) (keyOf indices ordered)) = true then
    .error (.uniqueViolation (joinNames (pkCols constraints)) entry.name
      (.tuple (keyOf indices ordered)))
  else do
    let _ ← encodeRow ordered entry.schema 0
    .ok ordered

/-- The rows an INSERT adds: those of the tuples before the first that is refused. -/
def insertWrites (entry : TableMeta) (constraints : ColumnConstraints) (colNames : List String) :
    List Row → List (List Value) → List Row
  | _, [] => []
  | rows, values :: rest =>
    match acceptTuple entry constraints colNames rows values with
    | .error _ => []
    | .ok ordered =>
      ordered :: insertWrites entry constraints colNames (rows ++ [readBackRow ordered]) rest

/-- Some tuple is refused. -/
def insertRaises (entry : TableMeta) (constraints : ColumnConstraints) (colNames : List String)
    (rows : List Row) (valuesList : List (List Value)) : Bool :=
  decide ((insertWrites entry constraints colNames rows valuesList).length < valuesList.length)

/-- The hits an UPDATE writes: those before the first whose new row is refused. -/
def updateWrites (schema : Schema) (assignments : RowDict) (cond : Option Expr)
    (rows : List (Nat × Row)) : List (Nat × Row) :=
  (hits schema cond rows).takeWhile fun hit => (encodedHit schema assignments hit).isOk

/-- The new row of some hit is refused or the WHERE clause raises. -/
def updateRaises (schema : Schema) (assignments : RowDict) (cond : Option Expr)
    (rows : List (Nat × Row)) : Bool :=
  (hits schema cond rows).any (fun hit => !(encodedHit schema assignments hit).isOk) ||
    (whereError schema cond rows).isSome

namespace Heap

variable {store : FileStore} {heap : Heap} {page : Page} {slots : List (Slot heap.schema)}

/-! ## One call -/

theorem HeapAt.update (h : HeapAt store heap page slots) (new : Slot heap.schema)
    (hd : new.dead = false) (hp : new.pad = 0) (hr : new.rowid ∈ slots.map Slot.rowid)
    (hf : (slotsBody slots).length + slotGrowth new.rowid new.enc slots ≤ store.bodySize) :
    ∃ store' page', heap.update store new.rowid new.values = .ok store' ∧
      HeapAt store' heap page' (updateSlots new slots) ∧
      FileStore.SameExcept heap.rootPageId store store' := by
  obtain ⟨before, s, after, rfl, hs, hb⟩ := split_of_mem hr
  rw [← updateSlots_length new hp] at hf
  rw [updateSlots_split hb hs] at hf ⊢
  obtain ⟨dead, rowid, values, enc, pad, he, ha⟩ := new
  simp only at hd hp hs hb hf ⊢
  subst hd hp hs
  by_cases hle : enc.length ≤ s.data.length
  · rw [if_pos hle]
    exact update_inPlace_spec h hb he ha hle
  · rw [if_neg hle] at hf ⊢
    exact update_grow_spec h hb he ha (by omega) hf

theorem HeapAt.delete (h : HeapAt store heap page slots) {rowid : Nat}
    (hr : rowid ∈ slots.map Slot.rowid) :
    ∃ store' page', heap.delete store rowid = .ok store' ∧
      HeapAt store' heap page' (deleteSlots rowid slots) ∧
      FileStore.SameExcept heap.rootPageId store store' := by
  obtain ⟨before, s, after, rfl, rfl, hb⟩ := split_of_mem hr
  rw [deleteSlots_split hb rfl]
  exact delete_spec h hb

theorem HeapAt.append (h : HeapAt store heap page slots) (new : Slot heap.schema)
    (hd : new.dead = false) (hp : new.pad = 0) (hr : new.rowid = slots.length + 1)
    (hf : (slotsBody (slots ++ [new])).length ≤ store.bodySize) :
    ∃ store' page', heap.append store new.values = .ok (new.rowid, store') ∧
      HeapAt store' heap page' (slots ++ [new]) ∧
      FileStore.SameExcept heap.rootPageId store store' := by
  obtain ⟨dead, rowid, values, enc, pad, he, ha⟩ := new
  simp only at hd hp hr hf ⊢
  subst hd hp hr
  exact append_spec h he ha hf

theorem HeapAt.growth (h : HeapAt store heap page slots) {rowid : Nat} (enc : Bytes)
    (hr : rowid ∈ slots.map Slot.rowid) :
    Heap.growth page.body rowid enc = .ok (slotGrowth rowid enc slots) := by
  obtain ⟨before, s, after, rfl, rfl, hb⟩ := split_of_mem hr
  obtain ⟨hc, hfind⟩ := findSlot_represents h.represents h.slotsFit hb
  rw [slotGrowth_split hb rfl]
  simp only [Heap.growth, hc, hfind, ok_bind]
  by_cases hle : enc.length ≤ s.data.length
  · rw [if_pos hle, if_pos (by omega)]
  · rw [if_neg hle, if_neg (by omega)]

/-- An encodable row makes a slot of its own. -/
theorem exists_slot {schema : Schema} {values : Row} {enc : Bytes} (rowid : Nat)
    (he : encodeRow values schema 0 = .ok enc) (ha : values.length = schema.length)
    (hr : rowid < 256 ^ 8) : ∃ new : Slot schema, new.dead = false ∧ new.pad = 0 ∧
      new.rowid = rowid ∧ new.values = values ∧ new.enc.length = enc.length := by
  obtain ⟨enc', he', hlen⟩ := encodeRow_rowid he hr
  exact ⟨⟨false, rowid, values, enc', 0, he', ha⟩, rfl, rfl, rfl, rfl, hlen⟩

/-! ## UPDATE -/

def updateAll {schema : Schema} (news slots : List (Slot schema)) : List (Slot schema) :=
  news.foldl (fun slots new => updateSlots new slots) slots

/-- The slot is the one the UPDATE gives to the hit. -/
structure Gives {schema : Schema} (assignments : RowDict) (hit : Nat × Row) (new : Slot schema) :
    Prop where
  values : newValues schema assignments hit = .ok new.values
  rowid : new.rowid = hit.1
  dead : new.dead = false
  pad : new.pad = 0

section Gives

variable {schema : Schema} {assignments : RowDict} {rows : List (Nat × Row)}
  {news : List (Slot schema)}

theorem gives_rowids (h : List.Forall₂ (Gives assignments) rows news) :
    news.map Slot.rowid = rows.map Prod.fst := by
  induction h with
  | nil => rfl
  | cons hg _ ih => rw [List.map_cons, List.map_cons, hg.rowid, ih]

end Gives

/-- The write of UPDATE. -/
def updateWrite (heap : Heap) (assignments : RowDict) (store : FileStore) (rowid : Nat)
    (rowDict : RowDict) : Except PyErr FileStore :=
  updateRow heap assignments store rowid rowDict

theorem updatedValues_length {assignments rowDict : RowDict} {schema : Schema} {values : Row}
    (h : updatedValues assignments rowDict schema = .ok values) :
    values.length = schema.length := by
  induction schema generalizing values with
  | nil => cases h; rfl
  | cons col schema ih =>
    obtain ⟨name, t⟩ := col
    simp only [updatedValues, bind_eq_ok, Except.ok.injEq] at h
    obtain ⟨v, -, rest, hrest, rfl⟩ := h
    simp [ih hrest]

theorem isOk_iff {ε α : Type} (x : Except ε α) : x.isOk = true ↔ ∃ a, x = .ok a := by
  cases x <;> simp [Except.isOk, Except.toBool]

theorem exists_gives {schema : Schema} {assignments : RowDict} {hit : Nat × Row}
    (he : (encodedHit schema assignments hit).isOk = true) (hr : hit.1 < 256 ^ 8) :
    ∃ new : Slot schema, Gives assignments hit new ∧
      ∃ enc, encodedHit schema assignments hit = .ok enc ∧ new.enc.length = enc.length := by
  obtain ⟨enc, henc⟩ := (isOk_iff _).mp he
  have henc' := henc
  simp only [encodedHit, bind_eq_ok] at henc
  obtain ⟨values, hv, hvenc⟩ := henc
  obtain ⟨new, hd, hp, hid, hval, hlen⟩ := exists_slot hit.1 hvenc (updatedValues_length hv) hr
  exact ⟨new, ⟨by rw [hval]; exact hv, hid, hd, hp⟩, enc, henc', hlen⟩

theorem slotGrowth_length {schema : Schema} {enc enc' : Bytes} (h : enc.length = enc'.length)
    (rowid : Nat) (slots : List (Slot schema)) :
    slotGrowth rowid enc slots = slotGrowth rowid enc' slots := by
  induction slots with
  | nil => rfl
  | cons s slots ih => simp only [slotGrowth, h, ih]

theorem updateAll_rowids {schema : Schema} (news slots : List (Slot schema)) :
    ∀ r ∈ slots.map Slot.rowid, r ∈ (updateAll news slots).map Slot.rowid := by
  induction news generalizing slots with
  | nil => exact fun r hr => hr
  | cons new news ih => exact fun r hr => ih _ r (updateSlots_rowids new slots r hr)

/-- **The writes of an UPDATE.** Up to the first hit whose new row is refused. -/
theorem updateHits_spec (assignments : RowDict) (rows : List (Nat × Row)) (n : Nat)
    (h : HeapAt store heap page slots) (body : Bytes)
    (hm : ∀ hit ∈ rows, hit.1 ∈ slots.map Slot.rowid)
    (hg : ∀ hit ∈ rows, ∀ enc, Heap.growth body hit.1 enc = .ok (slotGrowth hit.1 enc slots))
    (hf : (slotsBody slots).length + updateSize heap.schema assignments body rows ≤
      store.bodySize) :
    ∃ store' page' news result,
      writeHits heap.schema (updateWrite heap assignments) store n rows = (result, store') ∧
      result.isOk = !rows.any (fun hit => !(encodedHit heap.schema assignments hit).isOk) ∧
      List.Forall₂ (Gives assignments)
        (rows.takeWhile fun hit => (encodedHit heap.schema assignments hit).isOk) news ∧
      HeapAt store' heap page' (updateAll news slots) ∧
      FileStore.SameExcept heap.rootPageId store store' := by
  induction rows generalizing store page slots n with
  | nil =>
    exact ⟨store, page, [], .ok n, rfl, rfl, List.Forall₂.nil, h, FileStore.SameExcept.refl _ _⟩
  | cons hit rows ih =>
    obtain ⟨rowid, values⟩ := hit
    have hrid := hm (rowid, values) (List.mem_cons_self ..)
    have hsmall : rowid < 256 ^ 8 := by
      obtain ⟨s, -, hs⟩ := List.mem_map.mp hrid
      have hlt := encodeRow_rowid_lt s.encoded
      rw [hs] at hlt
      exact hlt
    by_cases he : (encodedHit heap.schema assignments (rowid, values)).isOk = true
    · obtain ⟨new, hgive, enc, henc, hlen⟩ := exists_gives he hsmall
      have hid : new.rowid = rowid := hgive.rowid
      have hgrow := hg (rowid, values) (List.mem_cons_self ..) enc
      simp only [updateSize, henc, hgrow] at hf
      have hsame : slotGrowth new.rowid new.enc slots = slotGrowth rowid enc slots := by
        rw [hid]; exact slotGrowth_length hlen rowid slots
      obtain ⟨store1, page1, hu, hat1, hs1⟩ := h.update new hgive.dead hgive.pad
        (by rw [hid]; exact hrid) (by rw [hsame]; omega)
      have hsize : store1.bodySize = store.bodySize := by
        simp only [FileStore.bodySize, hs1.pageSize]
      have hm1 : ∀ hit ∈ rows, hit.1 ∈ (updateSlots new slots).map Slot.rowid := fun hit hh =>
        updateSlots_rowids new slots _ (hm hit (List.mem_cons_of_mem _ hh))
      have hg1 : ∀ hit ∈ rows, ∀ enc, Heap.growth body hit.1 enc =
          .ok (slotGrowth hit.1 enc (updateSlots new slots)) := fun hit hh enc => by
        rw [slotGrowth_updateSlots new slots hit.1 enc (hm hit (List.mem_cons_of_mem _ hh))]
        exact hg hit (List.mem_cons_of_mem _ hh) enc
      have hf1 : (slotsBody (updateSlots new slots)).length +
          updateSize heap.schema assignments body rows ≤ store1.bodySize := by
        rw [updateSlots_length new hgive.pad, hsame, hsize]; omega
      obtain ⟨store2, page2, news, result, hw, hres, hfor, hat2, hs2⟩ :=
        ih (n + 1) hat1 hm1 hg1 hf1
      have hwrite : updateWrite heap assignments store rowid
          (rowToDict heap.schema values rowid) = .ok store1 := by
        have hv := hgive.values
        simp only [newValues] at hv
        rw [updateWrite, updateRow, hv, ok_bind, ← hid]
        exact hu
      refine ⟨store2, page2, new :: news, result, ?_, ?_, ?_, hat2, hs1.trans hs2⟩
      · simp only [writeHits, hwrite]
        exact hw
      · simp only [List.any_cons, he, Bool.not_true, Bool.false_or]
        exact hres
      · simp only [List.takeWhile_cons, he, ↓reduceIte]
        exact List.Forall₂.cons hgive hfor
    · have hwrite : ∃ e, updateWrite heap assignments store rowid
          (rowToDict heap.schema values rowid) = .error e := by
        rw [updateWrite, updateRow]
        cases hv : updatedValues assignments (rowToDict heap.schema values rowid) heap.schema with
        | error e => exact ⟨e, rfl⟩
        | ok vs =>
          have hne : encodable heap.schema vs = false := by
            simp only [encodedHit, newValues, hv, ok_bind, Bool.not_eq_true] at he
            exact he
          obtain ⟨before, s, after, rfl, hs, hb⟩ := split_of_mem hrid
          obtain ⟨e, herr⟩ := encodeRow_error (r := s.rowid) hne
          refine ⟨e, ?_⟩
          have hs' : s.rowid = rowid := hs
          subst hs'
          exact update_encode_error h hb herr
      obtain ⟨e, hwrite⟩ := hwrite
      refine ⟨store, page, [], .error e, ?_, ?_, ?_, h, FileStore.SameExcept.refl _ _⟩
      · simp only [writeHits, hwrite]
      · simp only [Bool.not_eq_true] at he
        simp only [List.any_cons, he, Bool.not_false, Bool.true_or, Bool.not_true]
        rfl
      · simp only [Bool.not_eq_true] at he
        simp only [List.takeWhile_cons, he, Bool.false_eq_true, ↓reduceIte]
        exact List.Forall₂.nil

/-! ## DELETE -/

def deleteAll {schema : Schema} (rows : List (Nat × Row)) (slots : List (Slot schema)) :
    List (Slot schema) :=
  rows.foldl (fun slots hit => deleteSlots hit.1 slots) slots

theorem deleteSlots_rowids {schema : Schema} (rowid : Nat) (slots : List (Slot schema)) :
    (deleteSlots rowid slots).map Slot.rowid = slots.map Slot.rowid := by
  induction slots with
  | nil => rfl
  | cons s slots ih =>
    unfold deleteSlots
    split
    · rfl
    · simp only [List.map_cons, ih]

/-- **The writes of a DELETE.** -/
theorem deleteHits_spec (rows : List (Nat × Row)) (n : Nat) (h : HeapAt store heap page slots)
    (hm : ∀ hit ∈ rows, hit.1 ∈ slots.map Slot.rowid) :
    ∃ store' page', writeHits heap.schema (fun store rowid _ => heap.delete store rowid) store n
        rows = (.ok (n + rows.length), store') ∧
      HeapAt store' heap page' (deleteAll rows slots) ∧
      FileStore.SameExcept heap.rootPageId store store' := by
  induction rows generalizing store page slots n with
  | nil => exact ⟨store, page, rfl, h, FileStore.SameExcept.refl _ _⟩
  | cons hit rows ih =>
    obtain ⟨rowid, values⟩ := hit
    obtain ⟨store1, page1, hd, hat1, hs1⟩ := h.delete (hm (rowid, values) (List.mem_cons_self ..))
    have hm1 : ∀ hit ∈ rows, hit.1 ∈ (deleteSlots rowid slots).map Slot.rowid := fun hit hh => by
      rw [deleteSlots_rowids]
      exact hm hit (List.mem_cons_of_mem _ hh)
    obtain ⟨store2, page2, hw, hat2, hs2⟩ := ih (n + 1) hat1 hm1
    refine ⟨store2, page2, ?_, hat2, hs1.trans hs2⟩
    simp only [writeHits, hd, hw, List.length_cons]
    rw [Nat.add_right_comm, Nat.add_assoc]

end Heap

/-! ## Statements -/

section Statements

variable {store : FileStore} {entry : TableMeta} {page : Page}
  {slots : List (Slot entry.heap.schema)}

theorem bodyOf_eq (h : Heap.HeapAt store entry.heap page slots) :
    store.bodyOf entry = page.body := by
  have hr : store.readPage entry.rootPageId = .ok page := h.read
  simp only [FileStore.bodyOf, hr]

theorem rowsOf_eq (h : Heap.HeapAt store entry.heap page slots) :
    store.rowsOf entry = Heap.liveRows slots := by
  simp only [FileStore.rowsOf, Heap.scan_spec h]

theorem execUpdate_spec (assignments : List (String × Value)) (cond : Option Expr)
    (h : Heap.HeapAt store entry.heap page slots)
    (hf : max 2 (store.bodyOf entry).length + updateSize entry.schema
      (OrdDict.ofList assignments) (store.bodyOf entry)
      (hits entry.schema cond (store.rowsOf entry)) ≤ store.bodySize) :
    ∃ store' page' news result, execUpdate store entry assignments cond = (result, store') ∧
      result.isOk = !updateRaises entry.schema (OrdDict.ofList assignments) cond
        (store.rowsOf entry) ∧
      List.Forall₂ (Heap.Gives (OrdDict.ofList assignments))
        (updateWrites entry.schema (OrdDict.ofList assignments) cond (store.rowsOf entry)) news ∧
      Heap.HeapAt store' entry.heap page' (Heap.updateAll news slots) ∧
      FileStore.SameExcept entry.rootPageId store store' := by
  have hb := h.body_length
  rw [bodyOf_eq h, rowsOf_eq h] at hf
  rw [rowsOf_eq h]
  have hm : ∀ hit ∈ hits entry.schema cond (Heap.liveRows slots), hit.1 ∈ slots.map Slot.rowid :=
    fun hit hh => Heap.mem_rowids_of_live (mem_of_mem_hits hh)
  obtain ⟨store', page', news, result, hw, hres, hfor, hat, hsame⟩ :=
    Heap.updateHits_spec (OrdDict.ofList assignments)
      (hits entry.schema cond (Heap.liveRows slots)) 0 h page.body hm
      (fun hit hh enc => h.growth enc (hm hit hh)) (by rw [← hb]; exact hf)
  have hexec : execUpdate store entry assignments cond = writeRows entry.schema cond
      (Heap.updateWrite entry.heap (OrdDict.ofList assignments)) store 0 (Heap.liveRows slots) := by
    rw [execUpdate, Heap.scan_spec h]
    rfl
  rw [writeRows_eq] at hexec
  have hw' : writeHits entry.schema (Heap.updateWrite entry.heap (OrdDict.ofList assignments))
      store 0 (hits entry.schema cond (Heap.liveRows slots)) = (result, store') := hw
  rw [hw'] at hexec
  have hres' : result.isOk = !(hits entry.schema cond (Heap.liveRows slots)).any
      (fun hit => !(encodedHit entry.schema (OrdDict.ofList assignments) hit).isOk) := hres
  refine ⟨store', page', news, (execUpdate store entry assignments cond).1, ?_, ?_, hfor, hat,
    hsame⟩
  · rw [hexec]
    cases result with
    | error e => rfl
    | ok m => cases whereError entry.schema cond (Heap.liveRows slots) <;> rfl
  · rw [hexec, updateRaises, Bool.not_or, ← hres']
    cases result with
    | error e => rfl
    | ok m => cases whereError entry.schema cond (Heap.liveRows slots) <;> rfl

theorem execDelete_spec (cond : Expr) (h : Heap.HeapAt store entry.heap page slots) :
    ∃ store' page' result, execDelete store entry (some cond) = (result, store') ∧
      result.isOk = !(whereError entry.schema (some cond) (store.rowsOf entry)).isSome ∧
      Heap.HeapAt store' entry.heap page'
        (Heap.deleteAll (hits entry.schema (some cond) (store.rowsOf entry)) slots) ∧
      FileStore.SameExcept entry.rootPageId store store' := by
  rw [rowsOf_eq h]
  have hm : ∀ hit ∈ hits entry.schema (some cond) (Heap.liveRows slots),
      hit.1 ∈ slots.map Slot.rowid := fun hit hh => Heap.mem_rowids_of_live (mem_of_mem_hits hh)
  obtain ⟨store', page', hw, hat, hsame⟩ :=
    Heap.deleteHits_spec (hits entry.schema (some cond) (Heap.liveRows slots)) 0 h hm
  have hexec := writeRows_eq entry.schema (some cond)
    (fun store rowid _ => entry.heap.delete store rowid) store 0 (Heap.liveRows slots)
  have hw' : writeHits entry.schema (fun store rowid _ => entry.heap.delete store rowid) store 0
      (hits entry.schema (some cond) (Heap.liveRows slots)) = _ := hw
  rw [hw'] at hexec
  have hdel : execDelete store entry (some cond) = writeRows entry.schema (some cond)
      (fun store rowid _ => entry.heap.delete store rowid) store 0 (Heap.liveRows slots) := by
    simp only [execDelete, Heap.scan_spec h, reduceCtorEq, ↓reduceIte]
  rw [hdel, hexec]
  cases whereError entry.schema (some cond) (Heap.liveRows slots) with
  | some e => exact ⟨store', page', .error e, rfl, rfl, hat, hsame⟩
  | none => exact ⟨store', page', .ok _, rfl, rfl, hat, hsame⟩

/-! ## INSERT -/

theorem coerceColumns_length {find : String → Value} {schema : Schema} {values : Row}
    (h : coerceColumns find schema = .ok values) : values.length = schema.length := by
  induction schema generalizing values with
  | nil => cases h; rfl
  | cons col schema ih =>
    obtain ⟨name, t⟩ := col
    simp only [coerceColumns, bind_eq_ok, Except.ok.injEq] at h
    obtain ⟨v, -, rest, hrest, rfl⟩ := h
    simp [ih hrest]

theorem prepareRow_length {constraints : ColumnConstraints} {colNames : List String}
    {values : List Value} {ordered : Row}
    (h : prepareRow entry constraints colNames values = .ok ordered) :
    ordered.length = entry.schema.length := by
  simp only [prepareRow, bind_eq_ok] at h
  obtain ⟨-, -, h⟩ := h
  exact coerceColumns_length h

theorem acceptTuple_eq_ok {constraints : ColumnConstraints} {colNames : List String}
    {rows : List Row} {values : List Value} {ordered : Row} :
    acceptTuple entry constraints colNames rows values = .ok ordered ↔
      prepareRow entry constraints colNames values = .ok ordered ∧
        (pkCols constraints = [] ∨ ∀ row ∈ rows, Value.pyEqAll
          (keyOf (pkIndices entry.schema (pkCols constraints)) row)
          (keyOf (pkIndices entry.schema (pkCols constraints)) ordered) = false) ∧
        ∃ enc, encodeRow ordered entry.schema 0 = .ok enc := by
  unfold acceptTuple
  cases hp : prepareRow entry constraints colNames values with
  | error e => simp
  | ok o =>
    simp only [ok_bind, Except.ok.injEq]
    split
    · rename_i hclash
      obtain ⟨hpk, hany⟩ := hclash
      simp only [reduceCtorEq, false_iff, not_and]
      rintro rfl hk
      rcases hk with hk | hk
      · exact absurd hk hpk
      · obtain ⟨row, hrow, he⟩ := List.any_eq_true.mp hany
        rw [hk row hrow] at he
        cases he
    · rename_i hclash
      simp only [bind_eq_ok, Except.ok.injEq]
      constructor
      · rintro ⟨enc, henc, rfl⟩
        refine ⟨rfl, ?_, enc, henc⟩
        by_cases hpk : pkCols constraints = []
        · exact Or.inl hpk
        · refine Or.inr fun row hrow => ?_
          by_contra hne
          exact hclash ⟨hpk, List.any_eq_true.mpr ⟨row, hrow, by simpa using hne⟩⟩
      · rintro ⟨rfl, -, enc, henc⟩
        exact ⟨enc, henc, rfl⟩

/-- One turn of the INSERT loop: the row goes to the end of the page or the tuple is
refused and nothing is written. -/
theorem insertRow_spec (constraints : ColumnConstraints) (colNames : List String)
    (values : List Value) (h : Heap.HeapAt store entry.heap page slots)
    (hf : ∀ ordered, acceptTuple entry constraints colNames ((Heap.liveRows slots).map Prod.snd)
      values = .ok ordered →
      (Heap.slotsBody slots).length + rowSize entry.schema ordered ≤ store.bodySize) :
    match acceptTuple entry constraints colNames ((Heap.liveRows slots).map Prod.snd) values with
    | .error _ => ∃ e, insertRow entry.heap entry constraints colNames store values = .error e
    | .ok ordered => ∃ store' page' new,
        insertRow entry.heap entry constraints colNames store values = .ok store' ∧
        new.dead = false ∧ new.rowid = slots.length + 1 ∧ new.values = ordered ∧
        (Heap.slotsBody (slots ++ [new])).length =
          (Heap.slotsBody slots).length + rowSize entry.schema ordered ∧
        Heap.HeapAt store' entry.heap page' (slots ++ [new]) ∧
        FileStore.SameExcept entry.rootPageId store store' := by
  have hscan := Heap.scan_spec h
  cases hp : prepareRow entry constraints colNames values with
  | error e =>
    have ha : acceptTuple entry constraints colNames ((Heap.liveRows slots).map Prod.snd) values
        = .error e := by rw [acceptTuple, hp]; rfl
    rw [ha]
    exact ⟨e, by rw [insertRow, hp]; rfl⟩
  | ok ordered =>
    have hkey : (pkCols constraints ≠ [] → checkUnique entry.heap store entry ordered
          (pkCols constraints) = .ok ()) ↔
        (pkCols constraints = [] ∨ ∀ row ∈ (Heap.liveRows slots).map Prod.snd, Value.pyEqAll
          (keyOf (pkIndices entry.schema (pkCols constraints)) row)
          (keyOf (pkIndices entry.schema (pkCols constraints)) ordered) = false) := by
      by_cases hpk : pkCols constraints = []
      · simp [hpk]
      · simp only [hpk, ne_eq, not_false_eq_true, forall_const, false_or, checkUnique, hscan,
          ok_bind, List.mem_map, forall_exists_index, and_imp, forall_apply_eq_imp_iff₂]
        split
        · rename_i hany
          obtain ⟨row, hrow, he⟩ := List.any_eq_true.mp hany
          simp only [reduceCtorEq, false_iff, not_forall]
          exact ⟨row, hrow, by rw [he]; simp⟩
        · rename_i hany
          simp only [true_iff]
          intro row hrow
          by_contra hne
          exact hany (List.any_eq_true.mpr ⟨row, hrow, by simpa using hne⟩)
    cases ha : acceptTuple entry constraints colNames ((Heap.liveRows slots).map Prod.snd)
        values with
    | ok o =>
      obtain ⟨hpo, hk, enc, henc⟩ := acceptTuple_eq_ok.mp ha
      rw [hp, Except.ok.injEq] at hpo
      subst hpo
      have hrs : rowSize entry.schema ordered = enc.length + 5 := by rw [rowSize, henc]
      have hsmall := h.length_small
      have henc' : encodeRow ordered entry.heap.schema 0 = .ok enc := henc
      obtain ⟨new, hd, hpad, hid, hval, hlen⟩ := Heap.exists_slot (slots.length + 1) henc'
        (prepareRow_length hp) (Nat.lt_trans (Nat.succ_lt_succ hsmall) (by decide))
      have hsize : (Heap.slotsBody (slots ++ [new])).length =
          (Heap.slotsBody slots).length + rowSize entry.schema ordered := by
        simp only [hrs, Heap.slotsBody_length, Heap.slotsBytes_append, Heap.slotsBytes_cons,
          Heap.slotsBytes_nil, List.length_append, Slot.bytes_length, Slot.data_length, hlen, hpad,
          List.length_nil]
        omega
      have hfit := hf ordered ha
      obtain ⟨store', page', happ, hat, hsame⟩ := h.append new hd hpad hid (by rw [hsize]; exact hfit)
      refine ⟨store', page', new, ?_, hd, hid, hval, hsize, hat, hsame⟩
      have hcheck := hkey.mpr hk
      rw [insertRow, hp, ok_bind]
      by_cases hpk : pkCols constraints = []
      · simp only [hpk, ne_eq, not_true_eq_false, ↓reduceIte]
        rw [← hval, happ]
        rfl
      · simp only [hpk, ne_eq, not_false_eq_true, ↓reduceIte, hcheck hpk, ok_bind]
        rw [← hval, happ]
        rfl
    | error e =>
      by_cases hk : pkCols constraints = [] ∨ ∀ row ∈ (Heap.liveRows slots).map Prod.snd,
          Value.pyEqAll (keyOf (pkIndices entry.schema (pkCols constraints)) row)
          (keyOf (pkIndices entry.schema (pkCols constraints)) ordered) = false
      · have hne : Heap.encodable entry.heap.schema ordered = false := by
          cases henc : encodeRow ordered entry.schema 0 with
          | error e' =>
            have : encodeRow ordered entry.heap.schema 0 = .error e' := henc
            rw [Heap.encodable, this]
            rfl
          | ok enc =>
            have := acceptTuple_eq_ok.mpr ⟨hp, hk, enc, henc⟩
            rw [ha] at this
            cases this
        obtain ⟨e', herr⟩ := Heap.encodeRow_error (r := slots.length + 1) hne
        have happ := Heap.append_encode_error h herr
        have hcheck := hkey.mpr hk
        refine ⟨e', ?_⟩
        rw [insertRow, hp, ok_bind]
        by_cases hpk : pkCols constraints = []
        · simp only [hpk, ne_eq, not_true_eq_false, ↓reduceIte]
          rw [happ]
          rfl
        · simp only [hpk, ne_eq, not_false_eq_true, ↓reduceIte, hcheck hpk, ok_bind]
          rw [happ]
          rfl
      · have hfail := mt hkey.mp hk
        simp only [Classical.not_imp] at hfail
        obtain ⟨hpk, hfail⟩ := hfail
        cases hc : checkUnique entry.heap store entry ordered (pkCols constraints) with
        | ok u => exact absurd hc hfail
        | error e' =>
          refine ⟨e', ?_⟩
          rw [insertRow, hp, ok_bind]
          simp only [hpk, ne_eq, not_false_eq_true, ↓reduceIte, hc]
          rfl

theorem liveRows_snoc {schema : Schema} (slots : List (Slot schema)) {new : Slot schema}
    (hd : new.dead = false) :
    Heap.liveRows (slots ++ [new]) = Heap.liveRows slots ++ [(new.rowid, readBackRow new.values)] := by
  rw [Heap.liveRows_append]
  simp [Heap.liveRows, Slot.live?, hd]

theorem insertRows_spec (constraints : ColumnConstraints) (colNames : List String)
    (valuesList : List (List Value)) (h : Heap.HeapAt store entry.heap page slots)
    (hf : (Heap.slotsBody slots).length + rowsSize entry.schema (insertWrites entry constraints
      colNames ((Heap.liveRows slots).map Prod.snd) valuesList) ≤ store.bodySize) :
    ∃ store' page' news result,
      insertRows entry.heap entry constraints colNames store valuesList = (result, store') ∧
      result.isOk = !insertRaises entry constraints colNames ((Heap.liveRows slots).map Prod.snd)
        valuesList ∧
      news.map Slot.values = insertWrites entry constraints colNames
        ((Heap.liveRows slots).map Prod.snd) valuesList ∧
      news.map Slot.rowid = List.range' (slots.length + 1) news.length ∧
      (∀ new ∈ news, new.dead = false) ∧
      Heap.HeapAt store' entry.heap page' (slots ++ news) ∧
      FileStore.SameExcept entry.rootPageId store store' := by
  induction valuesList generalizing store page slots with
  | nil =>
    refine ⟨store, page, [], .ok (), rfl, rfl, rfl, rfl, by simp, ?_, FileStore.SameExcept.refl _ _⟩
    rw [List.append_nil]
    exact h
  | cons values rest ih =>
    have hone := insertRow_spec constraints colNames values h (fun ordered ha => by
      simp only [insertWrites, ha, rowsSize, List.map_cons, List.sum_cons] at hf
      omega)
    cases ha : acceptTuple entry constraints colNames ((Heap.liveRows slots).map Prod.snd)
        values with
    | error e =>
      rw [ha] at hone
      obtain ⟨e', he'⟩ := hone
      have hw : insertWrites entry constraints colNames ((Heap.liveRows slots).map Prod.snd)
          (values :: rest) = [] := by simp only [insertWrites, ha]
      refine ⟨store, page, [], .error e', by simp only [insertRows, he'], ?_, by rw [hw]; rfl, rfl,
        by simp, by rw [List.append_nil]; exact h, FileStore.SameExcept.refl _ _⟩
      rw [insertRaises, hw]
      rfl
    | ok ordered =>
      rw [ha] at hone
      obtain ⟨store1, page1, new, hrow, hd, hid, hval, hsize, hat1, hs1⟩ := hone
      have hsz : store1.bodySize = store.bodySize := by
        simp only [FileStore.bodySize, hs1.pageSize]
      have hmap : (Heap.liveRows (slots ++ [new])).map Prod.snd =
          (Heap.liveRows slots).map Prod.snd ++ [readBackRow ordered] := by
        rw [liveRows_snoc slots hd, List.map_append, hval]
        rfl
      have hf1 : (Heap.slotsBody (slots ++ [new])).length + rowsSize entry.schema
          (insertWrites entry constraints colNames ((Heap.liveRows (slots ++ [new])).map Prod.snd)
            rest) ≤ store1.bodySize := by
        simp only [insertWrites, ha, rowsSize, List.map_cons, List.sum_cons] at hf
        rw [hsize, hsz, hmap, rowsSize]
        omega
      obtain ⟨store2, page2, news, result, hrows, hres, hvals, hids, hlive, hat2, hs2⟩ := ih hat1 hf1
      rw [hmap] at hres hvals
      have hw : insertWrites entry constraints colNames ((Heap.liveRows slots).map Prod.snd)
          (values :: rest) = ordered :: insertWrites entry constraints colNames
            ((Heap.liveRows slots).map Prod.snd ++ [readBackRow ordered]) rest := by
        simp only [insertWrites, ha]
      refine ⟨store2, page2, new :: news, result, by simp only [insertRows, hrow, hrows], ?_, ?_, ?_,
        ?_, ?_, hs1.trans hs2⟩
      · rw [hres, insertRaises, insertRaises, hw]
        simp only [List.length_cons, Nat.add_lt_add_iff_right]
      · rw [hw, List.map_cons, hval, hvals]
      · rw [List.map_cons, hids, hid, List.length_append, List.length_singleton, List.length_cons,
          List.range'_succ]
      · intro t ht
        rcases List.mem_cons.mp ht with rfl | ht
        · exact hd
        · exact hlive t ht
      · rw [List.append_assoc] at hat2
        exact hat2

theorem execInsert_spec (columns : Option (List String)) (valuesList : List (List Value))
    (constraints : ColumnConstraints) (h : Heap.HeapAt store entry.heap page slots)
    (hf : max 2 (store.bodyOf entry).length + rowsSize entry.schema (insertWrites entry constraints
      (insertColumns entry columns) ((store.rowsOf entry).map Prod.snd) valuesList) ≤
      store.bodySize) :
    ∃ store' page' news result,
      execInsert store entry columns valuesList constraints = (result, store') ∧
      result.isOk = !insertRaises entry constraints (insertColumns entry columns)
        ((store.rowsOf entry).map Prod.snd) valuesList ∧
      news.map Slot.values = insertWrites entry constraints (insertColumns entry columns)
        ((store.rowsOf entry).map Prod.snd) valuesList ∧
      news.map Slot.rowid = List.range' (slots.length + 1) news.length ∧
      (∀ new ∈ news, new.dead = false) ∧
      Heap.HeapAt store' entry.heap page' (slots ++ news) ∧
      FileStore.SameExcept entry.rootPageId store store' := by
  rw [rowsOf_eq h] at hf ⊢
  rw [bodyOf_eq h, h.body_length] at hf
  exact insertRows_spec constraints (insertColumns entry columns) valuesList h hf

end Statements
end TinyDB
