import TinyDB.Reopen
import TinyDB.Lib.Run

/-!
# Pages allocated and freed

Runs of `alloc_page`, `free_page` and `write_page` on a store that is closed and opened again in
between, with the pages in use and the free pages kept beside it.
`pages_of_legal`: no page is handed out twice, the page freed last comes back first, and the
chain of free pages is the list of them.
-/

namespace TinyDB

open Lib FileStore

inductive PageCall where
  | alloc (pageType : PageType)
  | free (pageId : Nat)
  | write (page : Page)
  | reopen
  deriving DecidableEq, Repr

/-- A store with the pages in use, and the free pages from the one freed last on. -/
structure PageRun where
  store : FileStore
  allocated : List Nat
  freed : List Nat
  deriving DecidableEq

/-- A clean `close`, then `open` with the same page size. -/
def FileStore.reopen (store : FileStore) : Except PyErr FileStore := do
  let closed ← store.flushFreeHead
  openStore closed.file none closed.pageSize

theorem length_openFile_nil {pageSize : Nat} {store : FileStore}
    (h : openFile [] pageSize = .ok store) : store.file.length = 1 := by
  simp only [openFile] at h
  split at h
  · cases h
  · simp only [List.isEmpty_nil, ↓reduceIte, bind_eq_ok, Except.ok.injEq] at h
    obtain ⟨_, -, _, -, rfl⟩ := h
    rfl

theorem Header.frame {store store' : FileStore} {head : Nat} {body : Bytes}
    (h : Header store head body) {pageId : Nat} (hpos : pageId ≠ 0)
    (hsize : store'.pageSize = store.pageSize)
    (hr : ∀ i, i ≠ pageId → store'.rawRead i = store.rawRead i) : Header store' head body :=
  h.congr hsize (hr 0 (Ne.symm hpos))

namespace PageRun

def step (s : PageRun) : PageCall → PageRun
  | .alloc pageType =>
    match allocPage s.store pageType with
    | (.ok pageId, store) => ⟨store, pageId :: s.allocated, s.freed.filter fun p => p ≠ pageId⟩
    | (.error _, store) => { s with store }
  | .free pageId =>
    match freePage s.store pageId with
    | .ok store => ⟨store, s.allocated.filter fun p => p ≠ pageId, pageId :: s.freed⟩
    | .error _ => s
  | .write page =>
    match s.store.writePage page with
    | .ok store => { s with store }
    | .error _ => s
  | .reopen =>
    match s.store.reopen with
    | .ok store => { s with store }
    | .error _ => s

/-- Pages are freed and written while they are in use. -/
def Legal (s : PageRun) : PageCall → Prop
  | .free pageId => pageId ∈ s.allocated
  | .write page => page.pageId ∈ s.allocated
  | _ => True

instance (s : PageRun) (call : PageCall) : Decidable (s.Legal call) := by
  cases call <;> unfold Legal <;> infer_instance

/-- A new page is neither the header page nor in use, and the page freed last before the file
grows; freeing and reopening go through. -/
def Serves (s : PageRun) : PageCall → Prop
  | .alloc pageType =>
    (∀ pageId store, allocPage s.store pageType = (.ok pageId, store) →
      pageId ≠ 0 ∧ pageId ∉ s.allocated) ∧
    ∀ last rest, s.freed = last :: rest → ∃ store, allocPage s.store pageType = (.ok last, store) ∧
      store.file.length = s.store.file.length
  | .free pageId => ∃ store, freePage s.store pageId = .ok store
  | .write _ => True
  | .reopen => ∃ store, s.store.reopen = .ok store

/-- The chain from the head visits each free page once and ends, and every page behind the
header page is either in use or free. -/
structure Chained (s : PageRun) : Prop where
  chain : FreeChain s.store s.store.freeHead s.freed
  once : s.freed.Nodup
  apart : ∀ pageId ∈ s.freed, pageId ∉ s.allocated
  all : ∀ pageId, pageId ∈ s.allocated ∨ pageId ∈ s.freed ↔
    pageId ≠ 0 ∧ pageId < s.store.file.length

/-! ## What every call keeps -/

structure Kept (s : PageRun) : Prop where
  sound : s.store.Sound
  header : ∃ head body, Header s.store head body
  free : FreeList s.store s.freed
  apart : ∀ pageId ∈ s.freed, pageId ∉ s.allocated
  all : ∀ pageId, pageId ∈ s.allocated ∨ pageId ∈ s.freed ↔
    pageId ≠ 0 ∧ pageId < s.store.file.length

variable {s : PageRun}

theorem Kept.chained (h : s.Kept) : s.Chained := ⟨h.free.chain, h.free.nodup, h.apart, h.all⟩

theorem Kept.file_pos (h : s.Kept) : 0 < s.store.file.length := by
  obtain ⟨head, body, hheader⟩ := h.header
  exact hheader.file_pos

theorem Kept.freeHead_lt (h : s.Kept) : s.store.freeHead < 256 ^ 4 := by
  have hchain := h.free.chain
  cases hf : s.freed with
  | nil =>
    rw [hf] at hchain
    rw [show s.store.freeHead = 0 from hchain]
    decide
  | cons p ps =>
    rw [hf] at hchain
    rw [hchain.1]
    exact h.sound.id_lt hchain.2.2.1

/-- **`alloc_page`.** -/
theorem Kept.alloc (h : s.Kept) (pageType : PageType) :
    (s.step (.alloc pageType)).Kept ∧ s.Serves (.alloc pageType) := by
  obtain ⟨head, body, hheader⟩ := h.header
  rcases allocPage_spec h.sound pageType h.free h.file_pos with
    ⟨pageId, store, halloc, ha, hlist, hfrom⟩ | ⟨hnil, hmax, e, halloc⟩
  · have hnew : pageId ∉ s.allocated := by
      rcases hfrom with ⟨rest, hfreed, -⟩ | ⟨hnil, hcount, -⟩
      · exact h.apart pageId (hfreed ▸ List.mem_cons_self ..)
      · intro hin
        have hlt := ((h.all pageId).mp (Or.inl hin)).2
        have hlen := h.sound.count
        omega
    have hlength : ∀ other, other ≠ 0 ∧ other < store.file.length ↔
        other = pageId ∨ other ≠ 0 ∧ other < s.store.file.length := by
      intro other
      have hpos := ha.pos
      have hlt := ha.lt
      have hlen := h.sound.count
      have hlen' := ha.sound.count
      rcases hfrom with ⟨rest, hfreed, hcount⟩ | ⟨-, hid, hcount⟩
      · have hin := (h.free.mem (hfreed ▸ List.mem_cons_self .. : pageId ∈ s.freed)).2
        omega
      · omega
    have hrest : s.freed.filter (fun p => p ≠ pageId) = s.freed.drop 1 := by
      rcases hfrom with ⟨rest, hfreed, -⟩ | ⟨hnil, -⟩
      · have hnodup := h.free.nodup
        rw [hfreed, List.nodup_cons] at hnodup
        have hkeep : rest.filter (fun p => p ≠ pageId) = rest := by
          refine List.filter_eq_self.mpr fun p hp => decide_eq_true ?_
          rintro rfl
          exact hnodup.1 hp
        rw [hfreed, List.filter_cons_of_neg (by simp), hkeep]
        rfl
      · rw [hnil]
        rfl
    refine ⟨?_, fun pageId' store' halloc' => ?_, fun last rest hfreed => ?_⟩
    · simp only [PageRun.step, halloc]
      refine ⟨ha.sound, ⟨head, body, hheader.frame ha.pos ha.pageSize ha.frame⟩, ?_, ?_, ?_⟩
      · exact hrest.symm ▸ hlist
      · intro p hp
        obtain ⟨hin, hne⟩ := List.mem_filter.mp hp
        rw [List.mem_cons, not_or]
        exact ⟨of_decide_eq_true hne, h.apart p hin⟩
      · intro p
        rw [hlength p, ← h.all p, List.mem_cons, List.mem_filter, decide_eq_true_eq]
        by_cases hp : p = pageId <;> simp [hp]
    · rw [halloc, Prod.mk.injEq, Except.ok.injEq] at halloc'
      obtain ⟨rfl, rfl⟩ := halloc'
      exact ⟨ha.pos, hnew⟩
    · rcases hfrom with ⟨rest', hfreed', hcount⟩ | ⟨hnil, -⟩
      · obtain ⟨rfl, rfl⟩ := List.cons.inj (hfreed.symm.trans hfreed')
        refine ⟨store, halloc, ?_⟩
        rw [ha.sound.count, h.sound.count, hcount]
      · rw [hnil] at hfreed
        cases hfreed
  · refine ⟨?_, fun pageId store halloc' => ?_, fun last rest hfreed => ?_⟩
    · simp only [PageRun.step, halloc]
      refine ⟨⟨h.sound.toReadable.congr rfl rfl, ?_⟩, ⟨head, body, hheader.congr rfl rfl⟩,
        h.free.congr (Nat.le_refl _) rfl fun _ _ => rfl, h.apart, h.all⟩
      have hlen := h.sound.count
      show s.store.file.length = min (s.store.pageCount + 1) (256 ^ 4)
      omega
    · rw [halloc, Prod.mk.injEq] at halloc'
      cases halloc'.1
    · rw [hnil] at hfreed
      cases hfreed

/-- **`free_page`.** -/
theorem Kept.freed (h : s.Kept) {pageId : Nat} (hin : pageId ∈ s.allocated) :
    (s.step (.free pageId)).Kept ∧ s.Serves (.free pageId) := by
  obtain ⟨head, body, hheader⟩ := h.header
  obtain ⟨hpos, hlt⟩ := (h.all pageId).mp (Or.inl hin)
  have hnot : pageId ∉ s.freed := fun hfreed => h.apart pageId hfreed hin
  obtain ⟨store, hfree, hsound, hsize, hcount, hlen, hlist, hframe⟩ :=
    freePage_spec h.sound h.free hpos hlt hnot
  refine ⟨?_, store, hfree⟩
  simp only [PageRun.step, hfree]
  refine ⟨hsound, ⟨head, body, hheader.frame hpos hsize hframe⟩, hlist, fun p hp hal => ?_,
    fun p => ?_⟩
  · obtain ⟨hal, hne⟩ := List.mem_filter.mp hal
    rcases List.mem_cons.mp hp with rfl | hp
    · exact of_decide_eq_true hne rfl
    · exact h.apart p hp hal
  · rw [hlen, ← h.all p, List.mem_cons, List.mem_filter, decide_eq_true_eq]
    by_cases hp : p = pageId <;> simp [hp, hin]

/-- **`write_page`** to a page in use. -/
theorem Kept.write (h : s.Kept) {page : Page} (hin : page.pageId ∈ s.allocated) :
    (s.step (.write page)).Kept := by
  simp only [PageRun.step]
  cases hw : s.store.writePage page with
  | error e => exact h
  | ok store =>
    obtain ⟨head, body, hheader⟩ := h.header
    obtain ⟨hpos, hlt⟩ := (h.all page.pageId).mp (Or.inl hin)
    have hsame := sameExcept_writePage hw hlt
    refine ⟨h.sound.write hlt hw, ⟨head, body, hheader.frame hpos hsame.pageSize hsame.rawRead⟩,
      h.free.congr (Nat.le_of_eq hsame.length.symm) hsame.freeHead fun p hp => ?_, h.apart,
      fun p => ?_⟩
    · refine hsame.rawRead p ?_
      rintro rfl
      exact h.apart _ hp hin
    · show _ ↔ p ≠ 0 ∧ p < store.file.length
      rw [hsame.length]
      exact h.all p

/-- **Closing and opening.** -/
theorem Kept.reopen (h : s.Kept) : (s.step .reopen).Kept ∧ s.Serves .reopen := by
  obtain ⟨head, body, hheader⟩ := h.header
  obtain ⟨closed, body', hflush, hclosed, hsound, hsame, -⟩ :=
    flushFreeHead_spec hheader h.sound h.file_pos h.freeHead_lt
  have hopen : s.store.reopen = .ok (opened closed s.store.freeHead) := by
    simp only [FileStore.reopen, hflush, ok_bind, openStore,
      openFile_spec hclosed hsound hclosed.file_pos]
    rfl
  refine ⟨?_, _, hopen⟩
  simp only [PageRun.step, hopen]
  refine ⟨⟨hsound.toReadable.congr rfl rfl, ?_⟩, ⟨_, body', hclosed.congr rfl rfl⟩,
    h.free.congr (Nat.le_of_eq hsame.length.symm) rfl fun p hp => ?_, h.apart, fun p => ?_⟩
  · have hcount := hsound.count
    show closed.file.length = min closed.file.length (256 ^ 4)
    omega
  · exact hsame.rawRead p (h.free.mem hp).1
  · show _ ↔ p ≠ 0 ∧ p < closed.file.length
    rw [hsame.length]
    exact h.all p

theorem Kept.step {call : PageCall} (h : s.Kept) (hl : s.Legal call) :
    (s.step call).Kept ∧ s.Serves call := by
  cases call with
  | alloc pageType => exact h.alloc pageType
  | free pageId => exact h.freed hl
  | write page => exact ⟨h.write hl, trivial⟩
  | reopen => exact h.reopen

theorem kept_new {pageSize : Nat} {store : FileStore} (h : openStore [] none pageSize = .ok store) :
    (⟨store, [], []⟩ : PageRun).Kept := by
  simp only [openStore, replayWal, bind_eq_ok, Except.ok.injEq] at h
  obtain ⟨_, hopen, rfl⟩ := h
  obtain ⟨body, hheader, hsound, -, hfree, -⟩ := openFile_nil hopen
  refine ⟨hsound, ⟨0, body, hheader⟩, ⟨hfree, List.nodup_nil, fun _ hp => (by cases hp)⟩,
    fun _ hp => (by cases hp), fun p => ?_⟩
  have hlen := length_openFile_nil hopen
  show p ∈ [] ∨ p ∈ [] ↔ p ≠ 0 ∧ p < _
  rw [hlen]
  simp only [List.not_mem_nil, or_self, false_iff]
  omega

/-- **The pages of a store.** In every run from a new file in which pages in use are freed and
written, each call serves right and every state is chained. -/
theorem pages_of_legal (pageSize : Nat) (store : FileStore)
    (hopen : openStore [] none pageSize = .ok store) (calls : List PageCall)
    (hl : Along PageRun.step Legal ⟨store, [], []⟩ calls) :
    Reached PageRun.step Chained ⟨store, [], []⟩ calls ∧
      Along PageRun.step Serves ⟨store, [], []⟩ calls :=
  ⟨(reached_of_along Kept (fun _ _ h hl => (h.step hl).1) (kept_new hopen) hl).mono
      fun _ h => h.chained,
    along_of_along Kept (fun _ _ h hl => h.step hl) (kept_new hopen) hl⟩

/-- A new file with pages of 512 bytes. -/
def newFile : FileStore :=
  match openStore [] none 512 with
  | .ok store => store
  | .error _ => ⟨[], 512, 0, 0⟩

/-- Two pages freed, and handed out again after the store was opened again. -/
theorem pages_reused :
    Reached PageRun.step Chained ⟨newFile, [], []⟩ [.alloc .table, .alloc .index, .free 1, .free 2,
        .reopen, .alloc .table, .write ⟨2, .table, 7, [1]⟩, .alloc .table, .alloc .table] ∧
      Along PageRun.step Serves ⟨newFile, [], []⟩ [.alloc .table, .alloc .index, .free 1, .free 2,
        .reopen, .alloc .table, .write ⟨2, .table, 7, [1]⟩, .alloc .table, .alloc .table] :=
  pages_of_legal 512 newFile (by decide +kernel) _ (by decide +kernel)

example : (run PageRun.step ⟨newFile, [], []⟩ [.alloc .table, .alloc .index, .free 1, .free 2,
    .reopen, .alloc .table]).allocated = [2] := by decide +kernel

end PageRun

end TinyDB
