import TinyDB.Types

/-!
# Pages and the file store

`storage.py`: the page header, `FileStore` over a file of fixed-size pages, and
page allocation with the free list threaded through the bodies of free pages.
The file is the list of its raw pages; what the process holds in memory
(`pageCount`, `freeHead`) is kept beside it, so a crash keeps `file` and loses
the rest. `readPage_writePage` is the one rule later modules use to read what a
write left behind.
-/

namespace TinyDB

open Lib

/-- `FILE_HEADER_SIZE`. -/
def fileHeaderSize : Nat := 11

/-- `FILE_HEADER_MAGIC`, the bytes of `TINYDB` and two zeros. -/
def fileHeaderMagic : Bytes := [84, 73, 78, 89, 68, 66, 0, 0]

inductive PageType where
  | free
  | header
  | table
  | index
  | overflow
  deriving DecidableEq, Repr

namespace PageType

def toByte : PageType → UInt8
  | .free => 0
  | .header => 1
  | .table => 2
  | .index => 3
  | .overflow => 4

def ofByte (b : UInt8) : Except PyErr PageType :=
  if b = 0 then .ok .free
  else if b = 1 then .ok .header
  else if b = 2 then .ok .table
  else if b = 3 then .ok .index
  else if b = 4 then .ok .overflow
  else .error .valueError

@[simp] theorem ofByte_toByte (t : PageType) : ofByte t.toByte = .ok t := by
  cases t <;> rfl

end PageType

structure Page where
  pageId : Nat
  pageType : PageType
  lsn : Nat
  body : Bytes
  deriving DecidableEq, Repr

def packHeader (pageId : Nat) (pageType : PageType) (lsn bodyLen : Nat) : Except PyErr Bytes := do
  let id ← packUint 4 pageId
  let lsn ← packUint 4 lsn
  let len ← packUint 2 bodyLen
  .ok (id ++ ([pageType.toByte] ++ (lsn ++ len)))

def unpackHeader (raw : Bytes) : Except PyErr (Nat × PageType × Nat × Nat) := do
  let head := slice raw 0 fileHeaderSize
  let pageId ← unpackUint 4 (slice head 0 4)
  let pageTypeValue ← unpackUint 1 (slice head 4 5)
  let lsn ← unpackUint 4 (slice head 5 9)
  let bodyLen ← unpackUint 2 (slice head 9 11)
  let pageType ← PageType.ofByte (UInt8.ofNat pageTypeValue)
  .ok (pageId, pageType, lsn, bodyLen)

/-- `_pad_body`: fill or cut the body to `page_size - FILE_HEADER_SIZE`. -/
def padBody (body : Bytes) (pageSize : Nat) : Bytes :=
  let bodySize := pageSize - fileHeaderSize
  if bodySize ≤ body.length then body.take bodySize else body ++ zeros (bodySize - body.length)

structure FileStore where
  file : List Bytes
  pageSize : Nat
  pageCount : Nat
  freeHead : Nat
  deriving DecidableEq, Repr

/-- `os.pwrite` of one raw page; a gap before it reads as zeros. -/
def pwritePage (pageSize : Nat) (file : List Bytes) (pageId : Nat) (raw : Bytes) : List Bytes :=
  if pageId < file.length then file.set pageId raw
  else file ++ (List.replicate (pageId - file.length) (zeros pageSize) ++ [raw])

namespace FileStore

def pageSizeMin : Nat := 512
def pageSizeMax : Nat := 65536

/-- Bytes of a page that its body can use. -/
def bodySize (store : FileStore) : Nat := store.pageSize - fileHeaderSize

/-- `os.pwrite(self._fd, raw, page_id * self.page_size)`. -/
def pwrite (store : FileStore) (pageId : Nat) (raw : Bytes) : FileStore :=
  { store with file := pwritePage store.pageSize store.file pageId raw }

/-- `_raw_read`; nothing is read past the end of the file. -/
def rawRead (store : FileStore) (pageId : Nat) : Bytes := store.file.getD pageId []

def readPage (store : FileStore) (pageId : Nat) : Except PyErr Page := do
  let raw := store.rawRead pageId
  let (pid, pageType, lsn, bodyLen) ← unpackHeader raw
  .ok ⟨pid, pageType, lsn, slice raw fileHeaderSize (fileHeaderSize + bodyLen)⟩

def writePage (store : FileStore) (page : Page) : Except PyErr FileStore := do
  let head ← packHeader page.pageId page.pageType page.lsn page.body.length
  let raw := head ++ padBody page.body store.pageSize
  .ok (store.pwrite page.pageId raw)

/-- `_FILE_META_STRUCT.pack(FILE_HEADER_MAGIC, page_size, free_head)`. -/
def packMeta (pageSize freeHead : Nat) : Except PyErr Bytes := do
  let size ← packUint 4 pageSize
  let head ← packUint 4 freeHead
  .ok (fileHeaderMagic ++ (size ++ head))

/-- The part of `FileStore.open` before the WAL is replayed. -/
def openFile (file : List Bytes) (pageSize : Nat) : Except PyErr FileStore :=
  if ¬ (pageSizeMin ≤ pageSize ∧ pageSize ≤ pageSizeMax) then .error .valueError
  else if file.isEmpty then do
    let headerBody ← packMeta pageSize 0
    let head ← packHeader 0 .header 0 headerBody.length
    .ok ⟨[head ++ padBody headerBody pageSize], pageSize, 1, 0⟩
  else do
    let raw := file.getD 0 []
    let (_, pageType, _, _) ← unpackHeader raw
    if pageType ≠ .header then .error (.runtimeError "corrupt header page")
    else
      let body := raw.drop fileHeaderSize
      let magic := slice body 0 8
      let readPageSize ← unpackUint 4 (slice body 8 12)
      let freeHead ← unpackUint 4 (slice body 12 16)
      if magic ≠ fileHeaderMagic then .error (.runtimeError "bad file magic")
      else if readPageSize ≠ pageSize then .error (.runtimeError "page_size mismatch")
      else .ok ⟨file, pageSize, file.length, freeHead⟩

/-- `_flush_free_head`: the first 16 bytes of the header body are rewritten, the
catalog behind them stays. -/
def flushFreeHead (store : FileStore) : Except PyErr FileStore := do
  let page ← store.readPage 0
  let body := page.body ++ zeros (16 - page.body.length)
  let fileMeta ← packMeta store.pageSize store.freeHead
  let body := setSlice body 0 16 fileMeta
  let head ← packHeader 0 .header 0 body.length
  let raw := head ++ padBody body store.pageSize
  .ok (store.pwrite 0 raw)

end FileStore

/-- The free page at the head of the list if there is one, else a new page at
the end of the file. In-memory fields change before the page is written. -/
def allocPage (store : FileStore) (pageType : PageType) : Except PyErr Nat × FileStore :=
  if store.freeHead ≠ 0 then
    let pid := store.freeHead
    let raw := store.rawRead pid
    match unpackUint 4 (slice raw fileHeaderSize (fileHeaderSize + 4)) with
    | .error e => (.error e, store)
    | .ok next =>
      let store := { store with freeHead := next }
      match store.writePage ⟨pid, pageType, 0, []⟩ with
      | .error e => (.error e, store)
      | .ok store => (.ok pid, store)
  else
    let pid := store.pageCount
    let store := { store with pageCount := store.pageCount + 1 }
    match store.writePage ⟨pid, pageType, 0, []⟩ with
    | .error e => (.error e, store)
    | .ok store => (.ok pid, store)

def freePage (store : FileStore) (pageId : Nat) : Except PyErr FileStore :=
  if pageId = 0 then .error .valueError
  else do
    let nextHead ← packUint 4 store.freeHead
    let head ← packHeader pageId .free 0 nextHead.length
    let raw := head ++ padBody nextHead store.pageSize
    .ok { store.pwrite pageId raw with freeHead := pageId }

/-! ## Reading back what was written -/

theorem packHeader_eq_ok {pageId : Nat} {t : PageType} {lsn len : Nat} {bs : Bytes} :
    packHeader pageId t lsn len = .ok bs ↔
      pageId < 256 ^ 4 ∧ lsn < 256 ^ 4 ∧ len < 256 ^ 2 ∧
        bs = leBytes 4 pageId ++ ([t.toByte] ++ (leBytes 4 lsn ++ leBytes 2 len)) := by
  simp only [packHeader, bind_eq_ok, packUint_eq_ok, Except.ok.injEq]
  constructor
  · rintro ⟨_, ⟨h1, rfl⟩, _, ⟨h2, rfl⟩, _, ⟨h3, rfl⟩, rfl⟩
    exact ⟨h1, h2, h3, rfl⟩
  · rintro ⟨h1, h2, h3, rfl⟩
    exact ⟨_, ⟨h1, rfl⟩, _, ⟨h2, rfl⟩, _, ⟨h3, rfl⟩, rfl⟩

theorem packHeader_length {pageId : Nat} {t : PageType} {lsn len : Nat} {bs : Bytes}
    (h : packHeader pageId t lsn len = .ok bs) : bs.length = fileHeaderSize := by
  obtain ⟨-, -, -, rfl⟩ := packHeader_eq_ok.mp h
  simp [fileHeaderSize]

@[simp] theorem padBody_length (body : Bytes) (pageSize : Nat) :
    (padBody body pageSize).length = pageSize - fileHeaderSize := by
  unfold padBody
  simp only
  split
  · rw [List.length_take]; omega
  · rw [List.length_append, zeros_length]; omega

theorem take_padBody (body : Bytes) (pageSize : Nat) :
    (padBody body pageSize).take body.length = body.take (pageSize - fileHeaderSize) := by
  unfold padBody
  simp only
  split
  · rename_i h
    rw [List.take_take, Nat.min_eq_right h]
  · rename_i h
    rw [List.take_append_of_le_length (Nat.le_refl _), List.take_length,
      List.take_of_length_le (by omega)]

theorem unpackHeader_packHeader {pageId : Nat} {t : PageType} {lsn len : Nat} {head : Bytes}
    (h : packHeader pageId t lsn len = .ok head) (rest : Bytes) :
    unpackHeader (head ++ rest) = .ok (pageId, t, lsn, len) := by
  have hs : slice (head ++ rest) 0 fileHeaderSize = head := by
    rw [← packHeader_length h]
    exact slice_append_left head rest
  obtain ⟨h1, h2, h3, rfl⟩ := packHeader_eq_ok.mp h
  have e1 : slice (leBytes 4 pageId ++ ([t.toByte] ++ (leBytes 4 lsn ++ leBytes 2 len))) 0 4
      = leBytes 4 pageId := by
    simpa using slice_append_left (leBytes 4 pageId) _
  have e2 : slice (leBytes 4 pageId ++ ([t.toByte] ++ (leBytes 4 lsn ++ leBytes 2 len))) 4 5
      = [t.toByte] := slice_field (leBytes 4 pageId) [t.toByte] _ 4 1 (by simp) rfl
  have e3 : slice (leBytes 4 pageId ++ ([t.toByte] ++ (leBytes 4 lsn ++ leBytes 2 len))) 5 9
      = leBytes 4 lsn := by
    rw [← List.append_assoc]
    exact slice_field (leBytes 4 pageId ++ [t.toByte]) (leBytes 4 lsn) _ 5 4 (by simp) (by simp)
  have e4 : slice (leBytes 4 pageId ++ ([t.toByte] ++ (leBytes 4 lsn ++ leBytes 2 len))) 9 11
      = leBytes 2 len := by
    rw [← List.append_assoc, ← List.append_assoc]
    simpa using slice_field (leBytes 4 pageId ++ [t.toByte] ++ leBytes 4 lsn) (leBytes 2 len) []
      9 2 (by simp) (by simp)
  have ht : unpackUint 1 [t.toByte] = .ok t.toByte.toNat := by cases t <;> rfl
  simp only [unpackHeader, hs, e1, e2, e3, e4, unpackUint_leBytes h1, unpackUint_leBytes h2,
    unpackUint_leBytes h3, ht, ok_bind, UInt8.ofNat_toNat, PageType.ofByte_toByte]

/-- A raw page as `write_page` lays it out reads back as the page, its body cut
to what a page holds. -/
theorem readPage_raw {store : FileStore} {pid : Nat} {page : Page} {head : Bytes}
    (hh : packHeader page.pageId page.pageType page.lsn page.body.length = .ok head)
    (hr : store.rawRead pid = head ++ padBody page.body store.pageSize) :
    store.readPage pid = .ok { page with body := page.body.take store.bodySize } := by
  have hl := packHeader_length hh
  have hb : slice (head ++ padBody page.body store.pageSize) fileHeaderSize
      (fileHeaderSize + page.body.length) = page.body.take store.bodySize := by
    rw [← hl, slice, List.drop_left, Nat.add_sub_cancel_left, take_padBody]
    rfl
  simp only [FileStore.readPage, hr, unpackHeader_packHeader hh, ok_bind, hb]

theorem getD_pwritePage (pageSize : Nat) (file : List Bytes) (pid i : Nat) (raw : Bytes)
    (h : pid ≤ file.length) :
    (pwritePage pageSize file pid raw).getD i [] = if i = pid then raw else file.getD i [] := by
  unfold pwritePage
  by_cases hlt : pid < file.length
  · rw [if_pos hlt]
    by_cases hi : i = pid
    · subst hi
      simp [hlt]
    · rw [if_neg hi]
      have hi' : pid ≠ i := fun e => hi e.symm
      simp [List.getD_eq_getElem?_getD, hi']
  · have he : pid = file.length := by omega
    subst he
    rw [if_neg hlt, Nat.sub_self]
    by_cases hi : i = file.length
    · subst hi
      simp
    · rw [if_neg hi]
      simp only [List.replicate_zero, List.nil_append, List.getD_eq_getElem?_getD]
      rcases Nat.lt_or_gt_of_ne hi with hlt | hgt
      · rw [List.getElem?_append_left hlt]
      · rw [List.getElem?_eq_none (by simp; omega), List.getElem?_eq_none (by omega)]

theorem length_pwritePage (pageSize : Nat) (file : List Bytes) (pid : Nat) (raw : Bytes)
    (h : pid ≤ file.length) :
    (pwritePage pageSize file pid raw).length = max file.length (pid + 1) := by
  unfold pwritePage
  by_cases hlt : pid < file.length
  · rw [if_pos hlt, List.length_set]; omega
  · rw [if_neg hlt]
    simp only [List.length_append, List.length_replicate, List.length_singleton]
    omega

namespace FileStore

theorem rawRead_pwrite (store : FileStore) (pid i : Nat) (raw : Bytes)
    (h : pid ≤ store.file.length) :
    (store.pwrite pid raw).rawRead i = if i = pid then raw else store.rawRead i :=
  getD_pwritePage store.pageSize store.file pid i raw h

theorem readPage_congr {store store' : FileStore} {i : Nat}
    (h : store'.rawRead i = store.rawRead i) : store'.readPage i = store.readPage i := by
  simp only [readPage, h]

theorem writePage_eq_ok {store store' : FileStore} {page : Page} :
    store.writePage page = .ok store' ↔
      ∃ head, packHeader page.pageId page.pageType page.lsn page.body.length = .ok head ∧
        store' = store.pwrite page.pageId (head ++ padBody page.body store.pageSize) := by
  simp only [writePage, bind_eq_ok, Except.ok.injEq]
  exact ⟨fun ⟨h, h1, h2⟩ => ⟨h, h1, h2.symm⟩, fun ⟨h, h1, h2⟩ => ⟨h, h1, h2.symm⟩⟩

/-- `write_page` goes through when the header fields fit. -/
theorem writePage_ok (store : FileStore) (page : Page) (hid : page.pageId < 256 ^ 4)
    (hlsn : page.lsn < 256 ^ 4) (hlen : page.body.length < 256 ^ 2) :
    ∃ store', store.writePage page = .ok store' := by
  exact ⟨_, writePage_eq_ok.mpr ⟨_, packHeader_eq_ok.mpr ⟨hid, hlsn, hlen, rfl⟩, rfl⟩⟩

/-- **Read after write.** -/
theorem readPage_writePage {store store' : FileStore} {page : Page}
    (h : store.writePage page = .ok store') (hid : page.pageId ≤ store.file.length) (i : Nat) :
    store'.readPage i =
      if i = page.pageId then .ok { page with body := page.body.take store.bodySize }
      else store.readPage i := by
  obtain ⟨head, hh, rfl⟩ := writePage_eq_ok.mp h
  by_cases hi : i = page.pageId
  · rw [if_pos hi]
    exact readPage_raw hh (by rw [rawRead_pwrite _ _ _ _ hid, if_pos hi]; rfl)
  · rw [if_neg hi]
    exact readPage_congr (by rw [rawRead_pwrite _ _ _ _ hid, if_neg hi])

/-- The stores differ at most in page `pid`. -/
structure SameExcept (pid : Nat) (store store' : FileStore) : Prop where
  pageSize : store'.pageSize = store.pageSize
  pageCount : store'.pageCount = store.pageCount
  freeHead : store'.freeHead = store.freeHead
  length : store'.file.length = store.file.length
  rawRead : ∀ i, i ≠ pid → store'.rawRead i = store.rawRead i

theorem SameExcept.refl (pid : Nat) (store : FileStore) : SameExcept pid store store :=
  ⟨rfl, rfl, rfl, rfl, fun _ _ => rfl⟩

theorem SameExcept.trans {pid : Nat} {s t u : FileStore} (h : SameExcept pid s t)
    (h' : SameExcept pid t u) : SameExcept pid s u :=
  ⟨h'.pageSize.trans h.pageSize, h'.pageCount.trans h.pageCount, h'.freeHead.trans h.freeHead,
    h'.length.trans h.length, fun i hi => (h'.rawRead i hi).trans (h.rawRead i hi)⟩

theorem SameExcept.readPage {pid : Nat} {s t : FileStore} (h : SameExcept pid s t) {i : Nat}
    (hi : i ≠ pid) : t.readPage i = s.readPage i :=
  readPage_congr (h.rawRead i hi)

theorem sameExcept_pwrite {store : FileStore} {pid : Nat} (raw : Bytes)
    (h : pid < store.file.length) : SameExcept pid store (store.pwrite pid raw) where
  pageSize := rfl
  pageCount := rfl
  freeHead := rfl
  length := by
    have := length_pwritePage store.pageSize store.file pid raw (Nat.le_of_lt h)
    simp only [pwrite, this]
    omega
  rawRead i hi := by rw [rawRead_pwrite _ _ _ _ (Nat.le_of_lt h), if_neg hi]

theorem sameExcept_writePage {store store' : FileStore} {page : Page}
    (h : store.writePage page = .ok store') (hid : page.pageId < store.file.length) :
    SameExcept page.pageId store store' := by
  obtain ⟨head, -, rfl⟩ := writePage_eq_ok.mp h
  exact sameExcept_pwrite _ hid

private theorem unpackUint_lt {k n : Nat} {raw : Bytes} (h : unpackUint k raw = .ok n) :
    n < 256 ^ k := by
  unfold unpackUint at h
  split at h
  · rename_i hl
    cases h
    rw [← hl]
    exact leNat_lt raw
  · cases h

/-- The fields of a page that was read fit the header. -/
theorem readPage_bounds {store : FileStore} {pid : Nat} {page : Page}
    (h : store.readPage pid = .ok page) : page.pageId < 256 ^ 4 ∧ page.lsn < 256 ^ 4 := by
  simp only [readPage, unpackHeader, bind_eq_ok, Except.ok.injEq] at h
  obtain ⟨_, ⟨id, hid, _, _, lsn, hlsn, _, _, _, _, rfl⟩, rfl⟩ := h
  exact ⟨unpackUint_lt hid, unpackUint_lt hlsn⟩

/-- Nothing can be read past the end of the file. -/
theorem readPage_lt {store : FileStore} {pid : Nat} {page : Page}
    (h : store.readPage pid = .ok page) : pid < store.file.length := by
  by_contra hge
  have hraw : store.rawRead pid = [] := by
    rw [rawRead, List.getD_eq_getElem?_getD, List.getElem?_eq_none (by omega)]
    rfl
  rw [readPage, hraw] at h
  cases h

end FileStore

/-! ## Writing any page -/

namespace FileStore

/-- No page of the file is longer than a page. -/
structure Sized (store : FileStore) : Prop where
  size : pageSizeMin ≤ store.pageSize ∧ store.pageSize ≤ pageSizeMax
  raw : ∀ raw ∈ store.file, raw.length ≤ store.pageSize

/-- The fields fit the page header and the body fits a page. -/
structure Fits (store : FileStore) (page : Page) : Prop where
  pageId : page.pageId < 256 ^ 4
  lsn : page.lsn < 256 ^ 4
  body : page.body.length ≤ store.bodySize

variable {store store' : FileStore} {page : Page} {pageId : Nat}

theorem getD_pwritePage_self (pageSize : Nat) (file : List Bytes) (pid : Nat) (raw : Bytes) :
    (pwritePage pageSize file pid raw).getD pid [] = raw := by
  rw [pwritePage]
  split
  · rename_i hlt
    simp [hlt]
  · rename_i hge
    have hlen : (file ++ List.replicate (pid - file.length) (zeros pageSize)).length = pid := by
      simp only [List.length_append, List.length_replicate]
      omega
    rw [← List.append_assoc, List.getD_eq_getElem?_getD,
      List.getElem?_append_right (Nat.le_of_eq hlen), hlen, Nat.sub_self]
    rfl

/-- Other pages of the file stay, also when the file grows over a gap. -/
theorem getD_pwritePage_of_ne (pageSize : Nat) (file : List Bytes) {pid i : Nat} (raw : Bytes)
    (hi : i < file.length) (hne : i ≠ pid) :
    (pwritePage pageSize file pid raw).getD i [] = file.getD i [] := by
  rw [pwritePage, List.getD_eq_getElem?_getD, List.getD_eq_getElem?_getD]
  split
  · rw [List.getElem?_set_ne hne.symm]
  · rw [List.getElem?_append_left hi]

theorem mem_pwritePage {pageSize : Nat} {file : List Bytes} {pid : Nat} {raw other : Bytes}
    (h : other ∈ pwritePage pageSize file pid raw) :
    other ∈ file ∨ other = zeros pageSize ∨ other = raw := by
  rw [pwritePage] at h
  split at h
  · rcases List.mem_or_eq_of_mem_set h with hin | heq
    · exact Or.inl hin
    · exact Or.inr (Or.inr heq)
  · rcases List.mem_append.mp h with hin | hnew
    · exact Or.inl hin
    · rcases List.mem_append.mp hnew with hgap | hraw
      · exact Or.inr (Or.inl (List.eq_of_mem_replicate hgap))
      · exact Or.inr (Or.inr (List.mem_singleton.mp hraw))

theorem Sized.bodySize_lt (h : store.Sized) : store.bodySize < 256 ^ 2 := by
  have hsize := h.size.2
  simp only [pageSizeMax] at hsize
  simp only [bodySize, fileHeaderSize]
  omega

theorem Sized.writePage (h : store.Sized) (hw : store.writePage page = .ok store') :
    store'.Sized ∧ store'.bodySize = store.bodySize := by
  obtain ⟨head, hhead, rfl⟩ := writePage_eq_ok.mp hw
  refine ⟨⟨h.size, fun raw hraw => ?_⟩, rfl⟩
  rcases mem_pwritePage hraw with hin | rfl | rfl
  · exact h.raw raw hin
  · exact Nat.le_of_eq (zeros_length _)
  · have hmin := h.size.1
    simp only [pageSizeMin] at hmin
    show (head ++ padBody page.body store.pageSize).length ≤ store.pageSize
    rw [List.length_append, packHeader_length hhead, padBody_length]
    simp only [fileHeaderSize]
    omega

/-- A page that fits is written, and read back as it is. -/
theorem Fits.writePage (h : store.Fits page) (hs : store.Sized) :
    ∃ store', store.writePage page = .ok store' ∧ store'.readPage page.pageId = .ok page := by
  obtain ⟨store', hw⟩ := writePage_ok store page h.pageId h.lsn
    (Nat.lt_of_le_of_lt h.body hs.bodySize_lt)
  refine ⟨store', hw, ?_⟩
  obtain ⟨head, hhead, rfl⟩ := writePage_eq_ok.mp hw
  have hraw : (store.pwrite page.pageId (head ++ padBody page.body store.pageSize)).rawRead
      page.pageId = head ++ padBody page.body store.pageSize := getD_pwritePage_self _ _ _ _
  have hbody : page.body.take store.bodySize = page.body := List.take_of_length_le h.body
  rw [readPage_raw hhead hraw]
  exact congrArg Except.ok (congrArg (Page.mk page.pageId page.pageType page.lsn) hbody)

/-- What could be read under another number still can. -/
theorem readPage_writePage_of_ne {found : Page} (hw : store.writePage page = .ok store')
    (hr : store.readPage pageId = .ok found) (hne : pageId ≠ page.pageId) :
    store'.readPage pageId = .ok found := by
  obtain ⟨head, -, rfl⟩ := writePage_eq_ok.mp hw
  rw [← hr]
  exact readPage_congr (getD_pwritePage_of_ne _ _ _ (readPage_lt hr) hne)

/-- A page that was read fits. -/
theorem Sized.fits (h : store.Sized) (hr : store.readPage pageId = .ok page) : store.Fits page := by
  obtain ⟨hid, hlsn⟩ := readPage_bounds hr
  have hlt := readPage_lt hr
  refine ⟨hid, hlsn, ?_⟩
  simp only [readPage, bind_eq_ok, Except.ok.injEq] at hr
  obtain ⟨⟨pid, t, lsn, bodyLen⟩, -, rfl⟩ := hr
  have hraw : (store.rawRead pageId).length ≤ store.pageSize := by
    rw [rawRead, List.getD_eq_getElem?_getD, List.getElem?_eq_getElem hlt]
    exact h.raw _ (List.getElem_mem hlt)
  simp only [slice, List.length_take, List.length_drop, bodySize]
  omega

end FileStore

end TinyDB
