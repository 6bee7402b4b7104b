import TinyDB.HeapMap

/-!
# A page that fills up

`append` makes the body one row longer and hands it to `write_page`, which cuts off
what does not fit the page but keeps the row count. `appends_keep_rows`: along every
run of appends whose bodies fit, or are too long to be written at all, each call adds
its row to those that a scan returns or raises and leaves the page.
-/

namespace TinyDB

open Lib

namespace Heap

/-- The store after a call of `append`. An exception leaves it as it is. -/
def appendStep (heap : Heap) (store : FileStore) (values : Row) : FileStore :=
  match heap.append store values with
  | .ok (_, store) => store
  | .error _ => store

/-- The call raises and leaves the page, or a scan returns the row behind those before. -/
def AppendsRow (heap : Heap) (store : FileStore) (values : Row) : Prop :=
  match heap.append store values with
  | .error _ => heap.scan (heap.appendStep store values) = heap.scan store
  | .ok (rowid, store') => ∃ rows, heap.scan store = .ok rows ∧
      heap.scan store' = .ok (rows ++ [(rowid, readBackRow values)])

/-- The row has a value for each column, and the body it makes fits the page, or is longer
than the length field of a page can say. -/
def HasRoom (heap : Heap) (store : FileStore) (values : Row) : Prop :=
  values.length = heap.schema.length ∧
    ∀ page ∈ (store.readPage heap.rootPageId).toOption,
      ∀ appended ∈ (appendBody heap.schema values page.body).toOption,
        appended.2.length ≤ store.bodySize ∨ 256 ^ 2 ≤ appended.2.length

instance (heap : Heap) (store : FileStore) (values : Row) :
    Decidable (heap.HasRoom store values) := by
  unfold HasRoom
  infer_instance

theorem AppendsRow.scans {heap : Heap} {store store' : FileStore} {values : Row} {rowid : Nat}
    (ha : heap.append store values = .ok (rowid, store')) (h : heap.AppendsRow store values) :
    ∃ rows, heap.scan store = .ok rows ∧
      heap.scan store' = .ok (rows ++ [(rowid, readBackRow values)]) := by
  simp only [AppendsRow, ha] at h
  exact h

variable {heap : Heap} {store : FileStore} {page : Page} {slots : List (Slot heap.schema)}

/-- A body too long for its length field is not written. -/
theorem append_long (h : HeapAt store heap page slots) {values : Row} {rowid : Nat} {body : Bytes}
    (ha : appendBody heap.schema values page.body = .ok (rowid, body)) (hlen : 256 ^ 2 ≤ body.length) :
    ∃ e, heap.append store values = .error e := by
  cases hw : store.writePage { page with body := body } with
  | error e => exact ⟨e, by simp only [append, h.read, ok_bind, ha, hw, error_bind]⟩
  | ok store' =>
    obtain ⟨head, hh, -⟩ := FileStore.writePage_eq_ok.mp hw
    have := (packHeader_eq_ok.mp hh).2.2.1
    simp only at this
    omega

/-- **One append.** -/
theorem append_hasRoom (h : HeapAt store heap page slots) {values : Row}
    (hr : heap.HasRoom store values) :
    (∃ page' slots', HeapAt (heap.appendStep store values) heap page' slots') ∧
      heap.AppendsRow store values := by
  have hstays : ∀ e, heap.append store values = .error e →
      (∃ page' slots', HeapAt (heap.appendStep store values) heap page' slots') ∧
        heap.AppendsRow store values := by
    intro e he
    have hstep : heap.appendStep store values = store := by simp only [appendStep, he]
    refine ⟨⟨page, slots, by rw [hstep]; exact h⟩, ?_⟩
    simp only [AppendsRow, he, hstep]
  obtain ⟨harity, hroom⟩ := hr
  cases hbody : appendBody heap.schema values page.body with
  | error e => exact hstays e (by simp only [append, h.read, ok_bind, hbody, error_bind])
  | ok appended =>
    obtain ⟨rowid, body⟩ := appended
    rcases hroom page (by rw [h.read]; rfl) (rowid, body) (by rw [hbody]; rfl) with hfit | hlong
    · cases henc : encodeRow values heap.schema (slots.length + 1) with
      | error e => exact hstays e (append_encode_error h henc)
      | ok enc =>
        have hsize : (slotsBody (slots ++
            [⟨false, slots.length + 1, values, enc, 0, henc, harity⟩])).length = body.length := by
          have hbody' := hbody
          simp only [appendBody, readCount_represents h.represents h.slotsFit, henc, ok_bind,
            bind_eq_ok, packUint_eq_ok, represents_drop h.represents, Except.ok.injEq,
            Prod.mk.injEq] at hbody'
          obtain ⟨_, ⟨-, rfl⟩, _, ⟨-, rfl⟩, -, rfl⟩ := hbody'
          simp only [slotsBody, slotsBytes_append, slotsBytes_cons, slotsBytes_nil,
            List.length_append, Slot.bytes_length, Slot.data_length, leBytes_length, alive,
            List.length_singleton, List.length_nil]
          omega
        obtain ⟨store', page', happ, hat, -⟩ := append_spec h henc harity (by rw [hsize]; exact hfit)
        refine ⟨⟨page', _, by simp only [appendStep, happ]; exact hat⟩, ?_⟩
        simp only [AppendsRow, happ]
        refine ⟨_, scan_spec h, ?_⟩
        rw [scan_spec hat, liveRows_append]
        rfl
    · obtain ⟨e, he⟩ := append_long h hbody hlong
      exact hstays e he

/-- A row for which a page of 512 bytes has no room. -/
@[irreducible] def longRow : Row := [.text (String.ofList (List.replicate 480 'a'))]

theorem longRow_length : longRow.length = textHeap.schema.length := by decide +kernel

theorem longRow_append : textHeap.append newStore longRow =
    .ok (1, textHeap.appendStep newStore longRow) := by
  decide +kernel

theorem length_slice_le (bs : Bytes) (i j : Nat) : (slice bs i j).length ≤ bs.length - i := by
  rw [slice, List.length_take, List.length_drop]
  omega

/-- A text that a scan returns stands in the body, behind the fields of its slot. -/
theorem scanSlots_text {name : String} {body : Bytes} {offset rowid : Nat} {s : String}
    (h : scanSlots [(name, .text)] body 1 offset = .ok [(rowid, [.text s])]) :
    (encodeUtf8 s).length ≤ body.length - (offset + 23) := by
  simp only [scanSlots, bind_eq_ok] at h
  obtain ⟨rowLen, -, h⟩ := h
  split at h
  · simp only [bind_eq_ok, Except.ok.injEq, List.cons.injEq, Prod.mk.injEq] at h
    obtain ⟨-, -, values, hrow, -, -, ⟨-, rfl⟩, -⟩ := h
    simp only [decodeRow, decodeCells, bind_eq_ok] at hrow
    obtain ⟨length, -, hcell⟩ := hrow
    split at hcell
    · simp at hcell
    · simp only [decode, decodeText, bind_eq_ok, Except.ok.injEq, List.cons.injEq] at hcell
      obtain ⟨value, hvalue, -, -, rfl, -⟩ := hcell
      split at hvalue
      · cases hvalue
      · simp only [bind_eq_ok, Except.ok.injEq, Value.text.injEq] at hvalue
        obtain ⟨text, htext, rfl⟩ := hvalue
        rw [decodeUtf8_eq_ok htext]
        refine (length_slice_le ..).trans ?_
        have hcell := length_slice_le ((slice body (offset + 4) (offset + 4 + rowLen)).drop 1)
          (8 + 2 + 4) (8 + 2 + 4 + length)
        have hslot := length_slice_le body (offset + 4) (offset + 4 + rowLen)
        rw [List.length_drop] at hcell
        omega
  · cases h

theorem scan_append {store' : FileStore} {values : Row} {rowid : Nat} {body : Bytes}
    (hp : store.readPage heap.rootPageId = .ok page) (hid : page.pageId = heap.rootPageId)
    (hle : heap.rootPageId ≤ store.file.length)
    (hb : appendBody heap.schema values page.body = .ok (rowid, body))
    (h : heap.append store values = .ok (rowid, store')) :
    heap.scan store' = scanBody heap.schema (body.take store.bodySize) := by
  simp only [append, hp, hb, ok_bind, bind_eq_ok, Except.ok.injEq, Prod.mk.injEq] at h
  obtain ⟨_, hw, -, rfl⟩ := h
  have hread := FileStore.readPage_writePage hw (hid.trans_le hle) heap.rootPageId
  rw [if_pos hid.symm] at hread
  rw [scan, hread, ok_bind]

/-- What the page keeps of the body with `longRow` still counts one row. -/
theorem longRow_body : ∀ appended ∈ (appendBody textHeap.schema longRow []).toOption,
    appended.1 = 1 ∧
      readCount (appended.2.take newStore.bodySize) = (1, appended.2.take newStore.bodySize) := by
  decide +kernel

theorem longRow_scan : textHeap.scan (textHeap.appendStep newStore longRow) ≠
    .ok [(1, readBackRow longRow)] := by
  intro hscan
  have happ := longRow_append
  have hpage : newStore.readPage textHeap.rootPageId = .ok ⟨1, .table, 0, []⟩ := by decide +kernel
  have hsize : newStore.bodySize < 505 := by decide +kernel
  have hutf8 : (encodeUtf8 (String.ofList (List.replicate 480 'a'))).length = 480 := by
    decide +kernel
  cases happend : appendBody textHeap.schema longRow [] with
  | error e => simp [append, hpage, happend] at happ
  | ok appended =>
    obtain ⟨rowid, body⟩ := appended
    obtain ⟨rfl, hcount⟩ := longRow_body (rowid, body) (by rw [happend]; rfl)
    have hbody := scan_append hpage rfl (by decide +kernel) happend happ
    rw [hbody, scanBody, hcount, longRow] at hscan
    have htext := scanSlots_text hscan
    rw [hutf8, List.length_take] at htext
    omega

end Heap
end TinyDB
