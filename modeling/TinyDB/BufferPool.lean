import TinyDB.Storage
import TinyDB.Lib.OrdDict
import TinyDB.Lib.Run

/-!
# The buffer pool

`BufferPool` and `PageHandle` of `storage.py`. An entry that is replaced or evicted lives on as
long as a handle refers to it, so the pool keeps the number of an entry among all that were
made, and a handle is such a number. A hit leaves an entry where it stands in the dictionary:
`evictsRight_of_tracked` says when the first page that is not pinned is the right one to evict.
-/

namespace TinyDB

open Lib

/-! ## The pool -/

/-- `_PoolEntry`, with the key under which the pool made it. -/
structure PoolEntry where
  key : Nat
  page : Page
  dirty : Bool
  pins : Nat
  deriving DecidableEq, Repr

structure BufferPool where
  store : FileStore
  capacity : Nat
  entries : OrdDict Nat Nat
  made : List PoolEntry
  deriving DecidableEq

/-- The calls on a pool and on its handles; `change` is an assignment to fields of `handle.page`. -/
inductive PoolCall where
  | get (pageId : Nat)
  | put (page : Page)
  | flushAll
  | pin (handle : Nat)
  | unpin (handle : Nat)
  | markDirty (handle : Nat)
  | change (handle : Nat) (pageType : PageType) (lsn : Nat) (body : Bytes)
  deriving DecidableEq, Repr

namespace BufferPool

def new (store : FileStore) (capacity : Nat) : BufferPool := ⟨store, capacity, OrdDict.empty, []⟩

/-- `_has`. -/
def has (pool : BufferPool) (pageId : Nat) : Bool := pool.entries.contains pageId

def isPinned (pool : BufferPool) (handle : Nat) : Bool :=
  match pool.made[handle]? with
  | some entry => decide (0 < entry.pins)
  | none => false

/-- The first entry in the order of the dictionary that is not pinned. -/
def victim (pool : BufferPool) : Option (Nat × Nat) :=
  pool.entries.entries.find? fun e => !pool.isPinned e.2

def full (pool : BufferPool) : Prop := pool.capacity ≤ pool.entries.entries.length

instance (pool : BufferPool) : Decidable pool.full := inferInstanceAs (Decidable (_ ≤ _))

/-- `if entry.dirty: self._store.write_page(entry.page)`. -/
def writeBack (pool : BufferPool) (handle : Nat) : Except PyErr FileStore :=
  match pool.made[handle]? with
  | some entry => if entry.dirty then pool.store.writePage entry.page else .ok pool.store
  | none => .ok pool.store

def evictIfFull (pool : BufferPool) : Except PyErr BufferPool :=
  if pool.full then
    match pool.victim with
    | none => .error (.runtimeError "buffer pool full: all pages pinned")
    | some (pageId, handle) => do
      let store ← pool.writeBack handle
      .ok { pool with store, entries := pool.entries.erase pageId }
  else .ok pool

/-- Put a new entry in and hand out its handle. -/
def add (pool : BufferPool) (entry : PoolEntry) : Except PyErr Nat × BufferPool :=
  (.ok pool.made.length,
    { pool with entries := pool.entries.set entry.key pool.made.length,
                made := pool.made ++ [entry] })

def get (pool : BufferPool) (pageId : Nat) : Except PyErr Nat × BufferPool :=
  match pool.entries.get? pageId with
  | some handle => (.ok handle, pool)
  | none =>
    match pool.evictIfFull with
    | .error e => (.error e, pool)
    | .ok pool =>
      match pool.store.readPage pageId with
      | .error e => (.error e, pool)
      | .ok page => pool.add ⟨pageId, page, false, 0⟩

def put (pool : BufferPool) (page : Page) : Except PyErr Nat × BufferPool :=
  match pool.evictIfFull with
  | .error e => (.error e, pool)
  | .ok pool => pool.add ⟨page.pageId, page, true, 0⟩

/-- Change the entry behind a handle. -/
def onEntry (pool : BufferPool) (handle : Nat) (f : PoolEntry → PoolEntry) : BufferPool :=
  { pool with made := pool.made.modify handle f }

def flushEntries (pool : BufferPool) : List Nat → Except PyErr Unit × BufferPool
  | [] => (.ok (), pool)
  | handle :: handles =>
    match pool.writeBack handle with
    | .error e => (.error e, pool)
    | .ok store =>
      flushEntries ({ pool with store }.onEntry handle fun entry => { entry with dirty := false })
        handles

/-- `flush_all`. -/
def flushAll (pool : BufferPool) : Except PyErr Unit × BufferPool :=
  pool.flushEntries pool.entries.values

/-- One call; the result is the handle that it returns, if it returns one. -/
def call (pool : BufferPool) : PoolCall → Except PyErr (Option Nat) × BufferPool
  | .get pageId =>
    let (handle, pool) := pool.get pageId
    (handle.map some, pool)
  | .put page =>
    let (handle, pool) := pool.put page
    (handle.map some, pool)
  | .flushAll =>
    let (done, pool) := pool.flushAll
    (done.map fun _ => none, pool)
  | .pin handle => (.ok none, pool.onEntry handle fun entry => { entry with pins := entry.pins + 1 })
  | .unpin handle =>
    (.ok none, pool.onEntry handle fun entry => { entry with pins := entry.pins - 1 })
  | .markDirty handle => (.ok none, pool.onEntry handle fun entry => { entry with dirty := true })
  | .change handle pageType lsn body =>
    (.ok none, pool.onEntry handle fun entry =>
      { entry with page := { entry.page with pageType, lsn, body } })

end BufferPool

/-! ## The statement -/

/-- A pool that is watched: when a page was last got or put. -/
structure UsedPool where
  pool : BufferPool
  clock : Nat
  lastUse : Nat → Nat

namespace UsedPool

def new (store : FileStore) (capacity : Nat) : UsedPool := ⟨BufferPool.new store capacity, 0, fun _ => 0⟩

/-- The page that a call gets or puts. -/
def usedBy : PoolCall → Option Nat
  | .get pageId => some pageId
  | .put page => some page.pageId
  | _ => none

/-- One call, and its page is used now if it returns. -/
def step (s : UsedPool) (call : PoolCall) : UsedPool :=
  match s.pool.call call, usedBy call with
  | (.ok _, pool), some pageId => ⟨pool, s.clock + 1, Function.update s.lastUse pageId s.clock⟩
  | (_, pool), _ => { s with pool }

/-- A handle of the page is pinned. -/
def Pinned (s : UsedPool) (pageId : Nat) : Prop :=
  ∃ entry ∈ s.pool.made, entry.key = pageId ∧ 0 < entry.pins

/-- No more pages than fit, pinned pages resident, and the page that the next eviction takes is
the least recently used one of those that are not pinned. -/
structure EvictsRight (s : UsedPool) : Prop where
  bounded : s.pool.entries.entries.length ≤ s.pool.capacity
  resident : ∀ pageId, s.Pinned pageId → s.pool.has pageId = true
  oldest : s.pool.full → ∀ pageId handle, s.pool.victim = some (pageId, handle) →
    ¬ s.Pinned pageId ∧ ∀ other, s.pool.has other = true → ¬ s.Pinned other → other ≠ pageId →
      s.lastUse pageId < s.lastUse other

/-- A resident page is got or put only while it is the last one in the dictionary, put only when
it is not pinned or makes room for itself, and pins go to resident entries. -/
def Tracked (s : UsedPool) : PoolCall → Prop
  | .get pageId => s.pool.has pageId = true → s.pool.entries.keys.getLast? = some pageId
  | .put page => ∀ handle, s.pool.entries.get? page.pageId = some handle →
      (s.pool.entries.keys.getLast? = some page.pageId ∧ s.pool.isPinned handle = false) ∨
        s.pool.full ∧ s.pool.victim = some (page.pageId, handle)
  | .pin handle => ∀ entry, s.pool.made[handle]? = some entry →
      s.pool.entries.get? entry.key = some handle
  | _ => True

end UsedPool

/-! ## What the calls do to the entries -/

namespace BufferPool

/-- Each key leads to an entry made for it, and pinned entries are in the dictionary. -/
structure Sound (pool : BufferPool) : Prop where
  bounded : pool.entries.entries.length ≤ pool.capacity
  made : ∀ key handle, pool.entries.get? key = some handle →
    ∃ entry, pool.made[handle]? = some entry ∧ entry.key = key
  pinned : ∀ handle entry, pool.made[handle]? = some entry → 0 < entry.pins →
    pool.entries.get? entry.key = some handle

variable {pool pool' : BufferPool} {handle pageId : Nat} {entry : PoolEntry}

theorem evictIfFull_cases (h : pool.evictIfFull = .ok pool') : (¬ pool.full ∧ pool' = pool) ∨
    pool.full ∧ ∃ pageId handle store, pool.victim = some (pageId, handle) ∧
      pool.writeBack handle = .ok store ∧
      pool' = { pool with store, entries := pool.entries.erase pageId } := by
  rw [evictIfFull] at h
  split at h
  · rename_i hfull
    split at h
    · cases h
    · rename_i pageId handle hvictim
      simp only [bind_eq_ok, Except.ok.injEq] at h
      obtain ⟨store, hstore, rfl⟩ := h
      exact Or.inr ⟨hfull, pageId, handle, store, hvictim, hstore, rfl⟩
  · rename_i hfull
    cases h
    exact Or.inl ⟨hfull, rfl⟩

/-- The victim is in the dictionary and not pinned, those before it are. -/
theorem victim_spec (h : pool.victim = some (pageId, handle)) :
    pool.isPinned handle = false ∧ ∃ front back,
      pool.entries.entries = front ++ (pageId, handle) :: back ∧
      ∀ e ∈ front, pool.isPinned e.2 = true := by
  rw [victim, List.find?_eq_some_iff_append] at h
  obtain ⟨hfree, front, back, hsplit, hfront⟩ := h
  refine ⟨by simpa using hfree, front, back, hsplit, fun e he => ?_⟩
  simpa using hfront e he

theorem get?_victim (h : pool.victim = some (pageId, handle)) :
    pool.entries.get? pageId = some handle := by
  obtain ⟨-, front, back, hsplit, -⟩ := victim_spec h
  rw [OrdDict.get?_eq_some_iff, hsplit]
  exact List.mem_append_right _ (List.mem_cons_self ..)

theorem isPinned_eq_true : pool.isPinned handle = true ↔
    ∃ entry, pool.made[handle]? = some entry ∧ 0 < entry.pins := by
  rw [isPinned]
  cases pool.made[handle]? with
  | none => simp
  | some entry => simp

theorem keys_evictIfFull (h : pool.evictIfFull = .ok pool') :
    pool'.entries.keys.Sublist pool.entries.keys := by
  rcases evictIfFull_cases h with ⟨-, rfl⟩ | ⟨-, _, _, _, -, -, rfl⟩
  · exact List.Sublist.refl _
  · exact (OrdDict.remove_sublist _ _).map Prod.fst

/-- There is room after an eviction. -/
theorem Sound.evictIfFull (h : pool.Sound) (hpos : 0 < pool.capacity)
    (he : pool.evictIfFull = .ok pool') :
    pool'.Sound ∧ pool'.entries.entries.length < pool'.capacity ∧
      pool'.capacity = pool.capacity := by
  rcases evictIfFull_cases he with ⟨hfull, rfl⟩ | ⟨-, pageId, handle, store, hvictim, -, rfl⟩
  · exact ⟨h, Nat.lt_of_not_le hfull, rfl⟩
  · obtain ⟨hfree, -⟩ := victim_spec hvictim
    have hin := get?_victim hvictim
    have hlen := OrdDict.length_erase hin
    have hbounded := h.bounded
    refine ⟨⟨?_, fun key n hget => ?_, fun n entry hn hpins => ?_⟩, ?_, rfl⟩
    · show (pool.entries.erase pageId).entries.length ≤ pool.capacity
      omega
    · rw [OrdDict.get?_erase] at hget
      split at hget
      · cases hget
      · exact h.made key n hget
    · have hget := h.pinned n entry hn hpins
      rw [OrdDict.get?_erase, if_neg]
      · exact hget
      · rintro rfl
        rw [hin, Option.some.injEq] at hget
        subst hget
        have hpinned : pool.isPinned handle = true := isPinned_eq_true.mpr ⟨entry, hn, hpins⟩
        rw [hpinned] at hfree
        cases hfree
    · show (pool.entries.erase pageId).entries.length < pool.capacity
      omega

/-- A new entry may take the place of one that is not pinned. -/
theorem Sound.add (h : pool.Sound) (hroom : pool.entries.entries.length < pool.capacity)
    (hpins : entry.pins = 0)
    (hold : ∀ old, pool.entries.get? entry.key = some old → pool.isPinned old = false) :
    (pool.add entry).2.Sound := by
  refine ⟨?_, fun key n hget => ?_, fun n e hn hpos => ?_⟩
  · have hlen := OrdDict.length_set_le pool.entries entry.key pool.made.length
    show (pool.entries.set entry.key pool.made.length).entries.length ≤ pool.capacity
    omega
  · have hget' : (pool.entries.set entry.key pool.made.length).get? key = some n := hget
    rw [OrdDict.get?_set] at hget'
    split at hget'
    · rename_i hkey
      rw [Option.some.injEq] at hget'
      subst hget'
      exact ⟨entry, List.getElem?_concat_length, hkey⟩
    · obtain ⟨e, he, hkey⟩ := h.made key n hget'
      have hlt := (List.getElem?_eq_some_iff.mp he).1
      exact ⟨e, (List.getElem?_append_left hlt).trans he, hkey⟩
  · have hn' : (pool.made ++ [entry])[n]? = some e := hn
    show (pool.entries.set entry.key pool.made.length).get? e.key = some n
    rcases Nat.lt_or_ge n pool.made.length with hlt | hge
    · rw [List.getElem?_append_left hlt] at hn'
      have hget := h.pinned n e hn' hpos
      rw [OrdDict.get?_set, if_neg]
      · exact hget
      · intro hkey
        have hfree := hold n (hkey ▸ hget)
        rw [isPinned_eq_true.mpr ⟨e, hn', hpos⟩] at hfree
        cases hfree
    · rw [List.getElem?_append_right hge] at hn'
      obtain ⟨hz, he⟩ := List.getElem?_eq_some_iff.mp hn'
      rw [List.getElem_singleton] at he
      subst he
      omega

theorem getElem?_onEntry (pool : BufferPool) (handle : Nat) (f : PoolEntry → PoolEntry) (n : Nat) :
    (pool.onEntry handle f).made[n]? =
      if handle = n then pool.made[n]?.map f else pool.made[n]? := by
  show (pool.made.modify handle f)[n]? = _
  rw [List.getElem?_modify]
  split
  · rfl
  · exact Option.map_id'

theorem Sound.onEntry {f : PoolEntry → PoolEntry} (h : pool.Sound)
    (hkey : ∀ entry, (f entry).key = entry.key)
    (hf : ∀ entry, pool.made[handle]? = some entry → 0 < (f entry).pins →
      0 < entry.pins ∨ pool.entries.get? entry.key = some handle) :
    (pool.onEntry handle f).Sound := by
  refine ⟨h.bounded, fun key n hget => ?_, fun n e hn hpos => ?_⟩
  · obtain ⟨entry, hentry, rfl⟩ := h.made key n hget
    rw [getElem?_onEntry, hentry]
    split
    · exact ⟨f entry, rfl, hkey entry⟩
    · exact ⟨entry, rfl, rfl⟩
  · show pool.entries.get? e.key = some n
    rw [getElem?_onEntry] at hn
    split at hn
    · rename_i hhandle
      subst hhandle
      obtain ⟨entry, hentry, rfl⟩ := Option.map_eq_some_iff.mp hn
      rw [hkey]
      rcases hf entry hentry hpos with hpins | hget
      · exact h.pinned _ entry hentry hpins
      · exact hget
    · exact h.pinned n e hn hpos

end BufferPool

/-! ## The order of use -/

namespace UsedPool

/-- The dictionary stands in the order of use. -/
structure InOrder (s : UsedPool) : Prop where
  positive : 0 < s.pool.capacity
  sound : s.pool.Sound
  order : s.pool.entries.keys.Pairwise fun a b => s.lastUse a < s.lastUse b
  past : ∀ key ∈ s.pool.entries.keys, s.lastUse key < s.clock

variable {s : UsedPool} {pool : BufferPool}

theorem InOrder.withPool (h : s.InOrder) (hcapacity : pool.capacity = s.pool.capacity)
    (hsound : pool.Sound) (hkeys : pool.entries.keys.Sublist s.pool.entries.keys) :
    InOrder { s with pool } :=
  ⟨hcapacity ▸ h.positive, hsound, h.order.sublist hkeys, fun key hin => h.past key (hkeys.subset hin)⟩

/-- A page that is last in the dictionary may be used. -/
theorem InOrder.use (h : s.InOrder) (pageId : Nat) (hcapacity : pool.capacity = s.pool.capacity)
    (hsound : pool.Sound) {front : List Nat} (hkeys : pool.entries.keys = front ++ [pageId])
    (hfront : front.Sublist s.pool.entries.keys) :
    InOrder ⟨pool, s.clock + 1, Function.update s.lastUse pageId s.clock⟩ := by
  have hnodup : pool.entries.keys.Nodup := pool.entries.nodup
  rw [hkeys, List.nodup_append] at hnodup
  have hne : ∀ key ∈ front, key ≠ pageId := fun key hin =>
    hnodup.2.2 key hin pageId (List.mem_singleton_self _)
  have hsame : ∀ key ∈ front, Function.update s.lastUse pageId s.clock key = s.lastUse key :=
    fun key hin => Function.update_of_ne (hne key hin) _ _
  have hpast : ∀ key ∈ front, s.lastUse key < s.clock := fun key hin =>
    h.past key (hfront.subset hin)
  refine ⟨hcapacity ▸ h.positive, hsound, ?_, fun key hin => ?_⟩
  · show pool.entries.keys.Pairwise _
    rw [hkeys, List.pairwise_append]
    refine ⟨(h.order.sublist hfront).imp_of_mem fun ha hb hab => ?_, List.pairwise_singleton _ _,
      fun a ha b hb => ?_⟩
    · show Function.update s.lastUse pageId s.clock _ < Function.update s.lastUse pageId s.clock _
      rwa [hsame _ ha, hsame _ hb]
    · show Function.update s.lastUse pageId s.clock a < Function.update s.lastUse pageId s.clock b
      rw [List.mem_singleton.mp hb, Function.update_self, hsame a ha]
      exact hpast a ha
  · show Function.update s.lastUse pageId s.clock key < s.clock + 1
    have hin' : key ∈ front ++ [pageId] := hkeys ▸ hin
    rcases List.mem_append.mp hin' with hf | hk
    · rw [hsame key hf]
      exact (hpast key hf).trans (Nat.lt_succ_self _)
    · rw [List.mem_singleton.mp hk, Function.update_self]
      exact Nat.lt_succ_self _

/-- In order, the pool evicts right. -/
theorem InOrder.evictsRight (h : s.InOrder) : s.EvictsRight := by
  have hpinned : ∀ pageId, s.Pinned pageId → ∃ handle, s.pool.entries.get? pageId = some handle ∧
      s.pool.isPinned handle = true := by
    rintro _ ⟨entry, hentry, rfl, hpins⟩
    obtain ⟨handle, hhandle⟩ := List.getElem?_of_mem hentry
    exact ⟨handle, h.sound.pinned handle entry hhandle hpins,
      BufferPool.isPinned_eq_true.mpr ⟨entry, hhandle, hpins⟩⟩
  have hunpinned : ∀ {pageId handle}, s.pool.entries.get? pageId = some handle →
      s.pool.isPinned handle = true → s.Pinned pageId := by
    intro pageId handle hget hpin
    obtain ⟨entry, hentry, hpins⟩ := BufferPool.isPinned_eq_true.mp hpin
    obtain ⟨entry', hentry', hkey⟩ := h.sound.made pageId handle hget
    rw [hentry, Option.some.injEq] at hentry'
    subst hentry'
    exact ⟨entry, List.mem_of_getElem? hentry, hkey, hpins⟩
  refine ⟨h.sound.bounded, fun pageId hp => ?_, fun _ pageId handle hvictim => ⟨fun hp => ?_, ?_⟩⟩
  · obtain ⟨handle, hget, -⟩ := hpinned pageId hp
    rw [BufferPool.has, OrdDict.contains, hget]
    rfl
  · obtain ⟨handle', hget, hpin⟩ := hpinned pageId hp
    rw [BufferPool.get?_victim hvictim, Option.some.injEq] at hget
    subst hget
    rw [(BufferPool.victim_spec hvictim).1] at hpin
    cases hpin
  · intro other hother hfree hne
    obtain ⟨-, front, back, hsplit, hfront⟩ := BufferPool.victim_spec hvictim
    rw [BufferPool.has, OrdDict.contains, Option.isSome_iff_exists] at hother
    obtain ⟨n, hget⟩ := hother
    have hin := (OrdDict.get?_eq_some_iff _ _ _).mp hget
    rw [hsplit] at hin
    -- what stands before the victim is pinned, so the other page stands behind it
    have hback : (other, n) ∈ back := by
      rcases List.mem_append.mp hin with hf | hb
      · exact absurd (hunpinned hget (hfront _ hf)) hfree
      · rcases List.mem_cons.mp hb with he | hb
        · exact absurd (Prod.mk.inj he).1 hne
        · exact hb
    have horder := h.order
    rw [OrdDict.keys, hsplit, List.map_append, List.map_cons] at horder
    exact (List.pairwise_cons.mp (List.pairwise_append.mp horder).2.1).1 other
      (List.mem_map_of_mem hback)

/-- A call that only changes an entry. -/
theorem InOrder.onEntry (h : s.InOrder) (handle : Nat) (f : PoolEntry → PoolEntry)
    (hkey : ∀ entry, (f entry).key = entry.key)
    (hf : ∀ entry, s.pool.made[handle]? = some entry → 0 < (f entry).pins →
      0 < entry.pins ∨ s.pool.entries.get? entry.key = some handle) :
    InOrder { s with pool := s.pool.onEntry handle f } :=
  h.withPool rfl (h.sound.onEntry hkey hf) (List.Sublist.refl _)

theorem InOrder.flushEntries (h : s.InOrder) (handles : List Nat) :
    InOrder { s with pool := (s.pool.flushEntries handles).2 } := by
  induction handles generalizing s with
  | nil => exact h
  | cons handle handles ih =>
    rw [BufferPool.flushEntries]
    cases s.pool.writeBack handle with
    | error e => exact h
    | ok store =>
      have hstore : InOrder { s with pool := { s.pool with store } } :=
        h.withPool rfl ⟨h.sound.bounded, h.sound.made, h.sound.pinned⟩ (List.Sublist.refl _)
      exact ih (hstore.onEntry handle (fun entry => { entry with dirty := false }) (fun _ => rfl)
        fun _ _ hpins => Or.inl hpins)

/-- A new entry for a page that is not resident, or is the last one. -/
theorem InOrder.add (h : s.InOrder) (entry : PoolEntry) (hsound : pool.Sound)
    (hroom : pool.entries.entries.length < pool.capacity) (hcapacity : pool.capacity = s.pool.capacity)
    (hkeys : pool.entries.keys.Sublist s.pool.entries.keys)
    (hpins : entry.pins = 0)
    (hold : ∀ old, pool.entries.get? entry.key = some old → pool.isPinned old = false ∧
      pool.entries.keys.getLast? = some entry.key) :
    InOrder ⟨(pool.add entry).2, s.clock + 1, Function.update s.lastUse entry.key s.clock⟩ := by
  have hadded := hsound.add hroom hpins fun old hget => (hold old hget).1
  have hassign : (pool.add entry).2.entries.keys =
      if entry.key ∈ pool.entries.keys then pool.entries.keys else pool.entries.keys ++ [entry.key] :=
    OrdDict.keys_assign entry.key pool.made.length pool.entries.entries
  by_cases hin : entry.key ∈ pool.entries.keys
  · obtain ⟨old, hget⟩ := Option.isSome_iff_exists.mp ((OrdDict.contains_iff _ _).mpr hin)
    obtain ⟨front, hsplit⟩ := List.getLast?_eq_some_iff.mp (hold old hget).2
    have hfront : front.Sublist s.pool.entries.keys :=
      (hsplit ▸ List.sublist_append_left front [entry.key]).trans hkeys
    refine h.use entry.key hcapacity hadded ?_ hfront
    rw [hassign, if_pos hin, hsplit]
  · refine h.use entry.key hcapacity hadded ?_ hkeys
    rw [hassign, if_neg hin]

/-- A page that stays resident when the pool makes room is still the last one. -/
theorem Tracked.put {page : Page} (ht : s.Tracked (.put page)) (he : s.pool.evictIfFull = .ok pool)
    {old : Nat} (hold : pool.entries.get? page.pageId = some old) :
    pool.isPinned old = false ∧ pool.entries.keys.getLast? = some page.pageId := by
  rcases BufferPool.evictIfFull_cases he with ⟨hroom, rfl⟩ | ⟨-, key, handle, store, hvictim, -, rfl⟩
  · rcases ht old hold with ⟨hlast, hfree⟩ | ⟨hfull, -⟩
    · exact ⟨hfree, hlast⟩
    · exact absurd hfull hroom
  · have hold' : (s.pool.entries.erase key).get? page.pageId = some old := hold
    rw [OrdDict.get?_erase] at hold'
    split at hold'
    · cases hold'
    · rename_i hne
      rcases ht old hold' with ⟨hlast, hfree⟩ | ⟨-, hself⟩
      · exact ⟨hfree, OrdDict.getLast?_erase hlast hne⟩
      · rw [hvictim, Option.some.injEq, Prod.mk.injEq] at hself
        exact absurd hself.1 hne

/-- **One call.** -/
theorem InOrder.step {call : PoolCall} (h : s.InOrder) (ht : s.Tracked call) :
    (s.step call).InOrder := by
  cases call with
  | get pageId =>
    simp only [UsedPool.step, BufferPool.call, BufferPool.get, usedBy]
    cases hget : s.pool.entries.get? pageId with
    | some handle =>
      have hhas : s.pool.has pageId = true := by rw [BufferPool.has, OrdDict.contains, hget]; rfl
      obtain ⟨front, hsplit⟩ := List.getLast?_eq_some_iff.mp (ht hhas)
      exact h.use pageId rfl h.sound hsplit (hsplit ▸ List.sublist_append_left front [pageId])
    | none =>
      cases he : s.pool.evictIfFull with
      | error e => exact h
      | ok pool =>
        obtain ⟨hsound, hroom, hcapacity⟩ := h.sound.evictIfFull h.positive he
        have hkeys := BufferPool.keys_evictIfFull he
        cases hread : pool.store.readPage pageId with
        | error e =>
          simp only [hread]
          exact h.withPool hcapacity hsound hkeys
        | ok page =>
          simp only [hread]
          refine h.add ⟨pageId, page, false, 0⟩ hsound hroom hcapacity hkeys rfl ?_
          intro old hold
          rw [OrdDict.get?_eq_none_iff] at hget
          have hin := (OrdDict.contains_iff _ _).mp (Option.isSome_iff_exists.mpr ⟨old, hold⟩)
          exact absurd (hkeys.subset hin) hget
  | put page =>
    simp only [UsedPool.step, BufferPool.call, BufferPool.put, usedBy]
    cases he : s.pool.evictIfFull with
    | error e => exact h
    | ok pool =>
      obtain ⟨hsound, hroom, hcapacity⟩ := h.sound.evictIfFull h.positive he
      have hkeys := BufferPool.keys_evictIfFull he
      exact h.add ⟨page.pageId, page, true, 0⟩ hsound hroom hcapacity hkeys rfl
        fun old hold => Tracked.put ht he hold
  | flushAll =>
    have hflushed := h.flushEntries s.pool.entries.values
    simp only [UsedPool.step, BufferPool.call, BufferPool.flushAll, usedBy]
    cases (s.pool.flushEntries s.pool.entries.values).1 <;> exact hflushed
  | pin handle => exact h.onEntry handle _ (fun _ => rfl) fun entry hentry _ => Or.inr (ht entry hentry)
  | unpin handle =>
    exact h.onEntry handle _ (fun _ => rfl) fun entry _ hpins => Or.inl (Nat.lt_of_lt_of_le hpins (Nat.sub_le _ _))
  | markDirty handle => exact h.onEntry handle _ (fun _ => rfl) fun _ _ hpins => Or.inl hpins
  | change handle pageType lsn body => exact h.onEntry handle _ (fun _ => rfl) fun _ _ hpins => Or.inl hpins

theorem inOrder_new (store : FileStore) {capacity : Nat} (h : 0 < capacity) :
    InOrder (new store capacity) :=
  ⟨h, ⟨Nat.zero_le _, nofun, nofun⟩, List.Pairwise.nil, fun _ hin => absurd hin List.not_mem_nil⟩

/-- **When the least recently used page goes.** In every run whose calls are tracked the pool
evicts right in every state. -/
theorem evictsRight_of_tracked (store : FileStore) (capacity : Nat) (hpos : 0 < capacity)
    (calls : List PoolCall) (h : Along step Tracked (new store capacity) calls) :
    Reached step EvictsRight (new store capacity) calls :=
  (reached_of_along InOrder (fun _ _ hs ht => hs.step ht) (inOrder_new store hpos) h).mono
    fun _ hs => hs.evictsRight

/-! ## Two pages -/

/-- `FileStore.open` of a new file with pages of 512 bytes. -/
def headerOnly : FileStore :=
  ⟨[[0, 0, 0, 0, 1, 0, 0, 0, 0, 16, 0] ++
    padBody (fileHeaderMagic ++ [0, 2, 0, 0, 0, 0, 0, 0]) 512], 512, 1, 0⟩

example : FileStore.openFile [] 512 = .ok headerOnly := by decide +kernel

def tablePage (pageId : Nat) : Page := ⟨pageId, .table, 0, []⟩

theorem evictsRight_two : Reached step EvictsRight (new headerOnly 2)
    [.put (tablePage 1), .put (tablePage 2), .get 2, .put (tablePage 3)] := by
  refine evictsRight_of_tracked headerOnly 2 (by decide) _ ⟨?_, ?_, fun _ => rfl, ?_, trivial⟩
  all_goals rintro _ ⟨⟩

/-- Page 1 is got again and is evicted for page 3 all the same. -/
theorem evicts_recent :
    ¬ EvictsRight (run step (new headerOnly 2) [.put (tablePage 1), .put (tablePage 2), .get 1]) ∧
      (run step (new headerOnly 2)
        [.put (tablePage 1), .put (tablePage 2), .get 1, .put (tablePage 3)]).pool.entries.keys =
          [2, 3] := by
  refine ⟨fun h => ?_, by decide +kernel⟩
  obtain ⟨-, holdest⟩ := h.oldest (by decide +kernel) 1 0 (by decide +kernel)
  have hfree : ∀ entry ∈ (run step (new headerOnly 2)
      [.put (tablePage 1), .put (tablePage 2), .get 1]).pool.made, entry.pins = 0 := by decide +kernel
  have hlt := holdest 2 (by decide +kernel) ?_ (by decide)
  · exact absurd hlt (by decide +kernel)
  · rintro ⟨entry, hentry, -, hpins⟩
    rw [hfree entry hentry] at hpins
    exact absurd hpins (Nat.lt_irrefl 0)

end UsedPool

end TinyDB
