import TinyDB.HeapSlots

/-!
# The heap operations on the store

`HeapAt store heap slots`: the root page of the heap holds the slots. Under it
each operation of `heap.py` succeeds or fails as its body function does, keeps
the relation, and touches no page but the root (`SameExcept`).
-/

namespace TinyDB

open Lib

namespace Heap

variable {store : FileStore} {heap : Heap}

structure HeapAt (store : FileStore) (heap : Heap) (page : Page)
    (slots : List (Slot heap.schema)) : Prop where
  read : store.readPage heap.rootPageId = .ok page
  pageId : page.pageId = heap.rootPageId
  inFile : heap.rootPageId < store.file.length
  small : store.bodySize < 256 ^ 2
  represents : Represents page.body slots
  fits : (slotsBody slots).length ≤ store.bodySize

variable {page : Page} {slots slots' : List (Slot heap.schema)}

theorem HeapAt.slotsFit (h : HeapAt store heap page slots) : SlotsFit slots :=
  Nat.lt_of_le_of_lt h.fits h.small

/-- The heap after a new body went to its page. -/
theorem HeapAt.write (h : HeapAt store heap page slots)
    (hf : (slotsBody slots').length ≤ store.bodySize) :
    ∃ store', store.writePage { page with body := slotsBody slots' } = .ok store' ∧
      HeapAt store' heap { page with body := slotsBody slots' } slots' ∧
      FileStore.SameExcept heap.rootPageId store store' := by
  obtain ⟨hid, hlsn⟩ := FileStore.readPage_bounds h.read
  obtain ⟨store', hw⟩ := FileStore.writePage_ok store { page with body := slotsBody slots' }
    hid hlsn (Nat.lt_of_le_of_lt hf h.small)
  have hin : page.pageId < store.file.length := by rw [h.pageId]; exact h.inFile
  have hsame := FileStore.sameExcept_writePage hw hin
  simp only [h.pageId] at hsame
  have hsize : store'.bodySize = store.bodySize := by
    simp only [FileStore.bodySize, hsame.pageSize]
  refine ⟨store', hw, ⟨?_, h.pageId, ?_, ?_, Or.inl rfl, ?_⟩, hsame⟩
  · rw [FileStore.readPage_writePage hw (Nat.le_of_lt hin), if_pos h.pageId.symm]
    simp only [List.take_of_length_le hf]
  · rw [hsame.length]; exact h.inFile
  · rw [hsize]; exact h.small
  · rw [hsize]; exact hf

/-- A heap is untouched by writes to other pages. -/
theorem HeapAt.frame {store' : FileStore} {pid : Nat} (h : HeapAt store heap page slots)
    (hs : FileStore.SameExcept pid store store') (hne : heap.rootPageId ≠ pid) :
    HeapAt store' heap page slots := by
  have hsize : store'.bodySize = store.bodySize := by simp only [FileStore.bodySize, hs.pageSize]
  exact ⟨by rw [hs.readPage hne]; exact h.read, h.pageId, by rw [hs.length]; exact h.inFile,
    by rw [hsize]; exact h.small, h.represents, by rw [hsize]; exact h.fits⟩

theorem scan_spec (h : HeapAt store heap page slots) : heap.scan store = .ok (liveRows slots) := by
  simp only [scan, h.read, ok_bind, scanBody_represents h.represents h.slotsFit]

theorem append_spec (h : HeapAt store heap page slots) {values : Row} {enc : Bytes}
    (he : encodeRow values heap.schema (slots.length + 1) = .ok enc)
    (ha : values.length = heap.schema.length)
    (hf : (slotsBody (slots ++ [⟨false, slots.length + 1, values, enc, 0, he, ha⟩])).length
      ≤ store.bodySize) :
    ∃ store' page', heap.append store values = .ok (slots.length + 1, store') ∧
      HeapAt store' heap page' (slots ++ [⟨false, slots.length + 1, values, enc, 0, he, ha⟩]) ∧
      FileStore.SameExcept heap.rootPageId store store' := by
  have hb := appendBody_represents h.represents h.slotsFit he ha (Nat.lt_of_le_of_lt hf h.small)
  obtain ⟨store', hw, hat, hsame⟩ := h.write hf
  exact ⟨store', _, by simp only [append, h.read, ok_bind, hb, hw], hat, hsame⟩

theorem append_encode_error (h : HeapAt store heap page slots) {values : Row} {e : PyErr}
    (he : encodeRow values heap.schema (slots.length + 1) = .error e) :
    heap.append store values = .error e := by
  simp only [append, h.read, ok_bind, appendBody, readCount_represents h.represents h.slotsFit, he,
    error_bind]

section FirstSlot

variable {before after : List (Slot heap.schema)} {s : Slot heap.schema}

theorem delete_spec (h : HeapAt store heap page (before ++ s :: after))
    (hb : ∀ t ∈ before, t.rowid ≠ s.rowid) :
    ∃ store' page', heap.delete store s.rowid = .ok store' ∧
      HeapAt store' heap page' (before ++ s.kill :: after) ∧
      FileStore.SameExcept heap.rootPageId store store' := by
  have hd := deleteBody_represents h.represents h.slotsFit hb
  have hlen : (slotsBody (before ++ s.kill :: after)).length =
      (slotsBody (before ++ s :: after)).length := by
    rw [← set_dead, List.length_set]
  obtain ⟨store', hw, hat, hsame⟩ := h.write (by rw [hlen]; exact h.fits)
  exact ⟨store', _, by simp only [delete, h.read, ok_bind, hd, writeBack, hw], hat, hsame⟩

theorem update_inPlace_spec (h : HeapAt store heap page (before ++ s :: after))
    (hb : ∀ t ∈ before, t.rowid ≠ s.rowid) {values : Row} {enc : Bytes}
    (he : encodeRow values heap.schema s.rowid = .ok enc)
    (ha : values.length = heap.schema.length) (hle : enc.length ≤ s.data.length) :
    ∃ store' page', heap.update store s.rowid values = .ok store' ∧
      HeapAt store' heap page' (before ++
        ⟨false, s.rowid, values, enc, s.data.length - enc.length, he, ha⟩ :: after) ∧
      FileStore.SameExcept heap.rootPageId store store' := by
  have hu := updateBody_inPlace h.represents h.slotsFit hb he ha hle
  have hlen : (slotsBody (before ++
      ⟨false, s.rowid, values, enc, s.data.length - enc.length, he, ha⟩ :: after)).length =
      (slotsBody (before ++ s :: after)).length := by
    simp only [slotsBody_length, slotsBytes_append, slotsBytes_cons, List.length_append,
      Slot.bytes_length]
    simp only [Slot.data, List.length_append, zeros_length]
    rw [s.data_length] at hle
    omega
  obtain ⟨store', hw, hat, hsame⟩ := h.write (by rw [hlen]; exact h.fits)
  exact ⟨store', _, by simp only [update, h.read, ok_bind, hu, writeBack, hw], hat, hsame⟩

theorem update_grow_spec (h : HeapAt store heap page (before ++ s :: after))
    (hb : ∀ t ∈ before, t.rowid ≠ s.rowid) {values : Row} {enc : Bytes}
    (he : encodeRow values heap.schema s.rowid = .ok enc)
    (ha : values.length = heap.schema.length) (hlt : s.data.length < enc.length)
    (hf : (slotsBody (before ++ s.kill :: after ++
      [⟨false, s.rowid, values, enc, 0, he, ha⟩])).length ≤ store.bodySize) :
    ∃ store' page', heap.update store s.rowid values = .ok store' ∧
      HeapAt store' heap page' (before ++ s.kill :: after ++
        [⟨false, s.rowid, values, enc, 0, he, ha⟩]) ∧
      FileStore.SameExcept heap.rootPageId store store' := by
  have hu := updateBody_grow h.represents h.slotsFit hb he ha hlt
    (Nat.lt_of_le_of_lt hf h.small)
  obtain ⟨store', hw, hat, hsame⟩ := h.write hf
  exact ⟨store', _, by simp only [update, h.read, ok_bind, hu, writeBack, hw], hat, hsame⟩

theorem update_encode_error (h : HeapAt store heap page (before ++ s :: after))
    (hb : ∀ t ∈ before, t.rowid ≠ s.rowid) {values : Row} {e : PyErr}
    (he : encodeRow values heap.schema s.rowid = .error e) :
    heap.update store s.rowid values = .error e := by
  simp only [update, h.read, ok_bind,
    updateBody_encode_error h.represents h.slotsFit hb he, error_bind]

end FirstSlot
end Heap
end TinyDB
