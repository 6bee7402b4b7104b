import TinyDB.Storage

/-!
# Sound stores and the free list

`FileStore.Readable`: every page of the file can be read and carries its own number.
`FileStore.Sound`: the page count of the store is that of the file, unless it ran past
the largest page number. Free pages form a chain through the first four bytes of their bodies,
`FreeList`. `allocPage_spec` and `freePage_spec` say what the two operations
do to the list; all other pages keep their bytes.
-/

namespace TinyDB

open Lib

namespace FileStore

structure Readable (store : FileStore) : Prop where
  size : pageSizeMin ≤ store.pageSize ∧ store.pageSize ≤ pageSizeMax
  raw : ∀ i < store.file.length, (store.rawRead i).length = store.pageSize
  page : ∀ i < store.file.length, ∃ page, store.readPage i = .ok page ∧ page.pageId = i

structure Sound (store : FileStore) : Prop extends Readable store where
  count : store.file.length = min store.pageCount (256 ^ 4)

variable {store store' : FileStore}

theorem Readable.bodySize_lt (h : store.Readable) :
    20 < store.bodySize ∧ store.bodySize < 256 ^ 2 := by
  have hs := h.size
  simp only [pageSizeMin, pageSizeMax] at hs
  simp only [bodySize, fileHeaderSize]
  omega

/-- Page numbers fit their header field. -/
theorem Readable.id_lt (h : store.Readable) {i : Nat} (hi : i < store.file.length) :
    i < 256 ^ 4 := by
  obtain ⟨page, hr, hid⟩ := h.page i hi
  rw [← hid]
  exact (readPage_bounds hr).1

theorem Readable.body_le (h : store.Readable) {i : Nat} {page : Page}
    (hi : i < store.file.length) (hr : store.readPage i = .ok page) :
    page.body.length ≤ store.bodySize := by
  simp only [readPage, bind_eq_ok, Except.ok.injEq] at hr
  obtain ⟨⟨pid, t, lsn, bodyLen⟩, -, rfl⟩ := hr
  have hlen := h.raw i hi
  simp only [slice, List.length_take, List.length_drop, hlen, bodySize]
  omega

theorem Readable.pageId (h : store.Readable) {i : Nat} {page : Page}
    (hr : store.readPage i = .ok page) : page.pageId = i := by
  obtain ⟨page', hr', hid⟩ := h.page i (readPage_lt hr)
  rw [hr, Except.ok.injEq] at hr'
  rw [hr', hid]

/-- Only the file and the page size matter. -/
theorem Readable.congr (h : store.Readable) (hf : store'.file = store.file)
    (hs : store'.pageSize = store.pageSize) : store'.Readable := by
  have hraw : ∀ i, store'.rawRead i = store.rawRead i := fun i => by rw [rawRead, hf]; rfl
  refine ⟨by rw [hs]; exact h.size, fun i hi => ?_, fun i hi => ?_⟩
  · rw [hraw, hs]
    exact h.raw i (by rw [← hf]; exact hi)
  · rw [readPage_congr (hraw i)]
    exact h.page i (by rw [← hf]; exact hi)

theorem packHeader_append_length {page : Page} {head : Bytes}
    (hh : packHeader page.pageId page.pageType page.lsn page.body.length = .ok head)
    (hs : pageSizeMin ≤ store.pageSize) :
    (head ++ padBody page.body store.pageSize).length = store.pageSize := by
  rw [List.length_append, packHeader_length hh, padBody_length]
  simp only [pageSizeMin] at hs
  simp only [fileHeaderSize]
  omega

/-- Writing a page of the file, or the one behind its end, under its own number. -/
theorem Readable.write (h : store.Readable) (page : Page) (hid : page.pageId ≤ store.file.length)
    (hw : store.writePage page = .ok store') : store'.Readable := by
  have hread := readPage_writePage hw hid
  obtain ⟨head, hh, rfl⟩ := writePage_eq_ok.mp hw
  have hlen := length_pwritePage store.pageSize store.file page.pageId
    (head ++ padBody page.body store.pageSize) hid
  refine ⟨h.size, ?_, ?_⟩
  · intro i hi
    rw [rawRead_pwrite _ _ _ _ hid]
    split
    · exact packHeader_append_length hh h.size.1
    · simp only [pwrite, hlen] at hi
      exact h.raw i (by omega)
  · intro i hi
    rw [hread i]
    split
    · rename_i he
      exact ⟨_, rfl, he.symm⟩
    · simp only [pwrite, hlen] at hi
      exact h.page i (by omega)

theorem Sound.write (h : store.Sound) {page : Page} (hid : page.pageId < store.file.length)
    (hw : store.writePage page = .ok store') : store'.Sound := by
  have hsame := sameExcept_writePage hw hid
  exact ⟨h.toReadable.write page (Nat.le_of_lt hid) hw, by rw [hsame.length, hsame.pageCount, h.count]⟩

/-! ## The chain -/

/-- The page that a free page links to. -/
def nextFree (store : FileStore) (pid : Nat) : Nat :=
  leNat (slice (store.rawRead pid) fileHeaderSize (fileHeaderSize + 4))

/-- The free pages from `head` on, in the order they are handed out. -/
def FreeChain (store : FileStore) : Nat → List Nat → Prop
  | head, [] => head = 0
  | head, p :: ps =>
    head = p ∧ p ≠ 0 ∧ p < store.file.length ∧ FreeChain store (store.nextFree p) ps

theorem FreeChain.congr {head : Nat} {ps : List Nat} (h : FreeChain store head ps)
    (hc : store.file.length ≤ store'.file.length)
    (hr : ∀ p ∈ ps, store'.rawRead p = store.rawRead p) : FreeChain store' head ps := by
  induction ps generalizing head with
  | nil => exact h
  | cons p ps ih =>
    obtain ⟨he, h0, hlt, hrest⟩ := h
    refine ⟨he, h0, Nat.lt_of_lt_of_le hlt hc, ?_⟩
    have hn : store'.nextFree p = store.nextFree p := by
      simp only [nextFree, hr p (List.mem_cons_self ..)]
    rw [hn]
    exact ih hrest fun q hq => hr q (List.mem_cons_of_mem _ hq)

theorem FreeChain.mem {head : Nat} {ps : List Nat} (h : FreeChain store head ps) {p : Nat}
    (hp : p ∈ ps) : p ≠ 0 ∧ p < store.file.length := by
  induction ps generalizing head with
  | nil => cases hp
  | cons q ps ih =>
    obtain ⟨-, h0, hlt, hrest⟩ := h
    rcases List.mem_cons.mp hp with rfl | hp
    · exact ⟨h0, hlt⟩
    · exact ih hrest hp

/-- The list from a member on is a chain too. -/
theorem FreeChain.suffix {head : Nat} {a b : List Nat} {p : Nat}
    (h : FreeChain store head (a ++ p :: b)) : FreeChain store p (p :: b) := by
  induction a generalizing head with
  | nil => exact ⟨rfl, h.2⟩
  | cons q a ih => exact ih h.2.2.2

theorem FreeChain.unique {head : Nat} {a b : List Nat} (ha : FreeChain store head a)
    (hb : FreeChain store head b) : a = b := by
  induction a generalizing head b with
  | nil =>
    cases b with
    | nil => rfl
    | cons q b => exact absurd (hb.1.symm.trans ha) hb.2.1
  | cons p a ih =>
    cases b with
    | nil => exact absurd (ha.1.symm.trans hb) ha.2.1
    | cons q b =>
      have hpq : p = q := ha.1.symm.trans hb.1
      subst hpq
      rw [ih ha.2.2.2 hb.2.2.2]

/-- The pages are the free list of the store: each is linked to the next through the
first four bytes of its body. -/
structure FreeList (store : FileStore) (ps : List Nat) : Prop where
  chain : FreeChain store store.freeHead ps
  nodup : ps.Nodup
  linked : ∀ p ∈ ps, ∃ page, store.readPage p = .ok page ∧ 4 ≤ page.body.length

theorem FreeList.mem {ps : List Nat} (h : FreeList store ps) {p : Nat} (hp : p ∈ ps) :
    p ≠ 0 ∧ p < store.file.length := h.chain.mem hp

/-- Free pages that keep their bytes stay the free list. -/
theorem FreeList.congr {ps : List Nat} (h : FreeList store ps)
    (hc : store.file.length ≤ store'.file.length) (hf : store'.freeHead = store.freeHead)
    (hr : ∀ p ∈ ps, store'.rawRead p = store.rawRead p) : FreeList store' ps where
  chain := by
    rw [hf]
    exact h.chain.congr hc hr
  nodup := h.nodup
  linked := by
    intro p hp
    rw [readPage_congr (hr p hp)]
    exact h.linked p hp

end FileStore

/-! ## Allocation -/

open FileStore

private theorem unpackUint_four {raw : Bytes} {n : Nat} (h : raw.length = n) (hn : 15 ≤ n) :
    unpackUint 4 (slice raw fileHeaderSize (fileHeaderSize + 4)) =
      .ok (leNat (slice raw fileHeaderSize (fileHeaderSize + 4))) := by
  have hl : (slice raw fileHeaderSize (fileHeaderSize + 4)).length = 4 := by
    simp only [slice, fileHeaderSize, List.length_take, List.length_drop]
    omega
  rw [unpackUint, if_pos hl]

private theorem sound_withHead {store : FileStore} (h : store.Sound) (n : Nat) :
    ({ store with freeHead := n } : FileStore).Sound := ⟨h.toReadable.congr rfl rfl, h.count⟩

/-- What `alloc_page` leaves: a page of its own with an empty body. -/
structure Allocated (store store' : FileStore) (t : PageType) (pid : Nat) : Prop where
  sound : store'.Sound
  pageSize : store'.pageSize = store.pageSize
  read : store'.readPage pid = .ok ⟨pid, t, 0, []⟩
  pos : pid ≠ 0
  lt : pid < store'.file.length
  grows : store.file.length ≤ store'.file.length
  frame : ∀ i, i ≠ pid → store'.rawRead i = store.rawRead i

/-- The page is the first of the free list or the one behind the end of the file. There
is none when the free list is empty and the page numbers are used up. -/
theorem allocPage_spec {store : FileStore} (h : store.Sound) (t : PageType) {ps : List Nat}
    (hl : FreeList store ps) (hpos : 0 < store.file.length) :
    (∃ pid store', allocPage store t = (.ok pid, store') ∧ Allocated store store' t pid ∧
      FreeList store' (ps.drop 1) ∧
      ((∃ rest, ps = pid :: rest ∧ store'.pageCount = store.pageCount) ∨
        (ps = [] ∧ pid = store.pageCount ∧ store'.pageCount = store.pageCount + 1))) ∨
    (ps = [] ∧ 256 ^ 4 ≤ store.pageCount ∧
      ∃ e, allocPage store t = (.error e, { store with pageCount := store.pageCount + 1 })) := by
  have hsz := h.size
  simp only [pageSizeMin] at hsz
  cases ps with
  | cons p rest =>
    obtain ⟨⟨hhead, h0, hlt, hrest⟩, hn, hlinked⟩ := hl
    obtain ⟨hp, hn⟩ := List.nodup_cons.mp hn
    have hid := h.id_lt hlt
    have hnext := unpackUint_four (h.raw p hlt) (by omega)
    obtain ⟨store', hw⟩ := writePage_ok { store with freeHead := store.nextFree p }
      ⟨p, t, 0, []⟩ hid (by simp) (by simp)
    have hs := (sound_withHead h (store.nextFree p)).write hlt hw
    have hsame := sameExcept_writePage hw hlt
    have hread := readPage_writePage hw (Nat.le_of_lt hlt) p
    rw [if_pos rfl, List.take_nil] at hread
    have hframe : ∀ q ∈ rest, store'.rawRead q = store.rawRead q := fun q hq =>
      hsame.rawRead q fun e => hp (by rw [← show q = p from e]; exact hq)
    refine Or.inl ⟨p, store', ?_, ⟨hs, hsame.pageSize, hread, h0, ?_, ?_, hsame.rawRead⟩,
      ⟨?_, hn, ?_⟩, Or.inl ⟨rest, rfl, hsame.pageCount⟩⟩
    · have hw' := hw
      simp only [nextFree] at hw'
      simp only [allocPage, hhead, ne_eq, h0, not_false_eq_true, ↓reduceIte, hnext, hw']
    · rw [hsame.length]; exact hlt
    · rw [hsame.length]
    · rw [hsame.freeHead]
      exact FreeChain.congr hrest (Nat.le_of_eq hsame.length.symm) hframe
    · intro q hq
      rw [readPage_congr (hframe q hq)]
      exact hlinked q (List.mem_cons_of_mem _ hq)
  | nil =>
    have hhead : store.freeHead = 0 := hl.chain
    have hnot : ¬ store.freeHead ≠ 0 := by rw [hhead]; simp
    let grown : FileStore := { store with pageCount := store.pageCount + 1 }
    rcases Nat.lt_or_ge store.pageCount (256 ^ 4) with hmax | hmax
    · obtain ⟨store', hw⟩ := writePage_ok grown ⟨store.pageCount, t, 0, []⟩ hmax (by simp) (by simp)
      have hlen0 : store.file.length = store.pageCount := by rw [h.count]; omega
      have hle : store.pageCount ≤ store.file.length := Nat.le_of_eq hlen0.symm
      have hread := readPage_writePage hw hle
      have hgrown : grown.Readable := h.toReadable.congr rfl rfl
      have hs' : store'.Readable := hgrown.write _ hle hw
      obtain ⟨head, hh, hst⟩ := writePage_eq_ok.mp hw
      have hraw : ∀ i, i ≠ store.pageCount → store'.rawRead i = store.rawRead i := fun i hi => by
        rw [hst, rawRead_pwrite grown store.pageCount i _ hle, if_neg hi]
        rfl
      have hcount : store'.pageCount = store.pageCount + 1 := by rw [hst]; rfl
      have hlen : store'.file.length = store.pageCount + 1 := by
        have := length_pwritePage store.pageSize store.file store.pageCount
          (head ++ padBody [] store.pageSize) hle
        rw [hst]
        simp only [pwrite, grown, this, hlen0]
        omega
      refine Or.inl ⟨store.pageCount, store', ?_, ⟨⟨hs', ?_⟩, by rw [hst]; rfl, ?_, ?_, ?_, ?_, hraw⟩,
        ⟨?_, List.nodup_nil, by simp⟩, Or.inr ⟨rfl, rfl, hcount⟩⟩
      · simp only [allocPage, hnot, ↓reduceIte]
        rw [show grown.writePage ⟨store.pageCount, t, 0, []⟩ = .ok store' from hw]
      · rw [hlen, hcount]
        omega
      · rw [hread, if_pos rfl, List.take_nil]
      · omega
      · omega
      · omega
      · rw [hst]
        exact hhead
    · refine Or.inr ⟨rfl, hmax, .structError, ?_⟩
      have hfail : packUint 4 store.pageCount = .error .structError := if_neg (by omega)
      simp only [allocPage, hnot, ↓reduceIte, writePage, packHeader, hfail, error_bind]

/-- `free_page` puts the page in front of the list. -/
theorem freePage_spec {store : FileStore} (h : store.Sound) {pid : Nat} {ps : List Nat}
    (hl : FreeList store ps) (h0 : pid ≠ 0) (hlt : pid < store.file.length) (hn : pid ∉ ps) :
    ∃ store', freePage store pid = .ok store' ∧ store'.Sound ∧
      store'.pageSize = store.pageSize ∧ store'.pageCount = store.pageCount ∧
      store'.file.length = store.file.length ∧ FreeList store' (pid :: ps) ∧
      ∀ i, i ≠ pid → store'.rawRead i = store.rawRead i := by
  have hid := h.id_lt hlt
  have hhead : store.freeHead < 256 ^ 4 := by
    cases ps with
    | nil => rw [show store.freeHead = 0 from hl.chain]; decide
    | cons p ps => rw [hl.chain.1]; exact h.id_lt hl.chain.2.2.1
  obtain ⟨store1, hw⟩ := writePage_ok store ⟨pid, .free, 0, leBytes 4 store.freeHead⟩ hid
    (by simp) (by simp)
  have hs := h.write hlt hw
  have hsame := sameExcept_writePage hw hlt
  have hbig := h.bodySize_lt.1
  have hread := readPage_writePage hw (Nat.le_of_lt hlt) pid
  obtain ⟨head, hh, hst⟩ := writePage_eq_ok.mp hw
  have hfree : freePage store pid = .ok { store1 with freeHead := pid } := by
    simp only [freePage, h0, ↓reduceIte, packUint_ok hhead, ok_bind]
    have hh' : packHeader pid .free 0 (leBytes 4 store.freeHead).length = .ok head := hh
    rw [hh', ok_bind, hst]
  have hframe : ∀ q ∈ ps, store1.rawRead q = store.rawRead q := fun q hq =>
    hsame.rawRead q fun e => hn (by rw [← show q = pid from e]; exact hq)
  refine ⟨_, hfree, sound_withHead hs pid, hsame.pageSize, hsame.pageCount, hsame.length,
    ⟨⟨rfl, h0, by rw [← hsame.length] at hlt; exact hlt, ?_⟩,
      List.nodup_cons.mpr ⟨hn, hl.nodup⟩, ?_⟩, hsame.rawRead⟩
  · have hraw : store1.rawRead pid = head ++ padBody (leBytes 4 store.freeHead) store.pageSize := by
      rw [hst, rawRead_pwrite _ _ _ _ (Nat.le_of_lt hlt), if_pos rfl]
    have hnext : ({ store1 with freeHead := pid } : FileStore).nextFree pid = store.freeHead := by
      have hpad : padBody (leBytes 4 store.freeHead) store.pageSize =
          leBytes 4 store.freeHead ++ zeros (store.bodySize - 4) := by
        have hnot : ¬ store.pageSize - fileHeaderSize ≤ 4 := by
          simp only [bodySize] at hbig
          omega
        simp only [padBody, leBytes_length, hnot, ↓reduceIte, bodySize]
      have hlen := packHeader_length hh
      have hf : slice (head ++ (leBytes 4 store.freeHead ++ zeros (store.bodySize - 4)))
          fileHeaderSize (fileHeaderSize + 4) = leBytes 4 store.freeHead :=
        slice_field head _ _ _ 4 hlen.symm (leBytes_length ..).symm
      change leNat (slice (store1.rawRead pid) fileHeaderSize (fileHeaderSize + 4)) = _
      rw [hraw, hpad, hf, leNat_leBytes _ _ hhead]
    rw [hnext]
    exact FreeChain.congr hl.chain (Nat.le_of_eq hsame.length.symm) hframe
  · intro q hq
    rcases List.mem_cons.mp hq with rfl | hq
    · refine ⟨_, by rw [if_pos rfl] at hread; exact hread, ?_⟩
      simp only [List.length_take, leBytes_length]
      omega
    · obtain ⟨page, hp, h4⟩ := hl.linked q hq
      exact ⟨page, by rw [← hp]; exact readPage_congr (hframe q hq), h4⟩

end TinyDB
