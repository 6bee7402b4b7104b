import TinyDB.BufferPool

/-!
# What a buffer pool keeps

The contents of the pages behind a `BufferPool`: a resident entry, or else the page in the
store. A replaced or evicted entry can still be changed through an old handle, and such a change
goes nowhere; a body longer than a page is cut when it is written back.
`keepsWrites_of_careful`: in every run that avoids both, no write is lost.
-/

namespace TinyDB

open Lib

namespace BufferPool

theorem bodySize_evictIfFull {pool pool' : BufferPool} (h : pool.evictIfFull = .ok pool') :
    pool'.store.bodySize = pool.store.bodySize := by
  rcases evictIfFull_cases h with ⟨-, rfl⟩ | ⟨-, _, handle, store, -, hw, rfl⟩
  · rfl
  · rw [writeBack] at hw
    split at hw
    · split at hw
      · obtain ⟨_, -, rfl⟩ := FileStore.writePage_eq_ok.mp hw
        rfl
      · cases hw
        rfl
    · cases hw
      rfl

end BufferPool

/-! ## The statement -/

/-- A pool with the content last put or written for each page, and the handles whose changes
have not been marked dirty. -/
structure WrittenPool where
  pool : BufferPool
  latest : Nat → Option Page
  unmarked : List Nat

namespace BufferPool

/-- The resident entry if there is one, else the page in the store. -/
def content (pool : BufferPool) (pageId : Nat) : Option Page :=
  match pool.entries.get? pageId with
  | some handle => pool.made[handle]?.map PoolEntry.page
  | none => (pool.store.readPage pageId).toOption

end BufferPool

namespace WrittenPool

def new (store : FileStore) (capacity : Nat) : WrittenPool :=
  ⟨BufferPool.new store capacity, fun pageId => (store.readPage pageId).toOption, []⟩

/-- One call, and what it writes. -/
def step (s : WrittenPool) (call : PoolCall) : WrittenPool :=
  let pool := (s.pool.call call).2
  match call with
  | .put page =>
    match (s.pool.call call).1 with
    | .ok _ => ⟨pool, Function.update s.latest page.pageId (some page), s.unmarked⟩
    | .error _ => { s with pool }
  | .change handle _ _ _ =>
    match pool.made[handle]? with
    | some entry =>
      ⟨pool, Function.update s.latest entry.key (some entry.page), handle :: s.unmarked⟩
    | none => { s with pool }
  | .markDirty handle => { s with pool, unmarked := s.unmarked.filter fun h => h ≠ handle }
  | _ => { s with pool }

/-- Changes are made while the handle is pinned, and marked before it is unpinned and before
everything is flushed. -/
def Bracketed (s : WrittenPool) : PoolCall → Prop
  | .change handle _ _ _ => s.pool.isPinned handle = true
  | .unpin handle => handle ∉ s.unmarked
  | .flushAll => ∀ pageId handle, s.pool.entries.get? pageId = some handle → handle ∉ s.unmarked
  | _ => True

/-- No write is lost. -/
def KeepsWrites (s : WrittenPool) : Prop :=
  ∀ pageId page, s.latest pageId = some page → s.pool.content pageId = some page

/-- After `flush_all` the store holds every page. -/
def FlushStores (s : WrittenPool) (call : PoolCall) : Prop :=
  call = .flushAll → ∀ pageId page, s.latest pageId = some page →
    (s.step call).pool.store.readPage pageId = .ok page

/-- Pages put and changed fit; a change goes to the resident entry of its page, and only a page
that was read under its own number is changed or marked. -/
def Careful (s : WrittenPool) : PoolCall → Prop
  | .put page => s.pool.store.Fits page
  | .change handle _ lsn body => ∀ entry, s.pool.made[handle]? = some entry →
      s.pool.entries.get? entry.key = some handle ∧ entry.page.pageId = entry.key ∧
        lsn < 256 ^ 4 ∧ body.length ≤ s.pool.store.bodySize
  | .markDirty handle => ∀ entry, s.pool.made[handle]? = some entry →
      s.pool.entries.get? entry.key = some handle → entry.page.pageId = entry.key
  | _ => True

/-! ## What every careful call keeps -/

/-- An entry in the dictionary: it fits, and when nothing is to be written the store holds it. -/
structure Kept (s : WrittenPool) (handle : Nat) (entry : PoolEntry) : Prop where
  fits : s.pool.store.Fits entry.page
  own : entry.dirty = true ∨ handle ∈ s.unmarked → entry.page.pageId = entry.key
  clean : entry.dirty = false → handle ∉ s.unmarked →
    s.pool.store.readPage entry.key = .ok entry.page
  latest : ∀ page, s.latest entry.key = some page → entry.page = page

structure Coherent (s : WrittenPool) : Prop where
  sized : s.pool.store.Sized
  made : ∀ key handle, s.pool.entries.get? key = some handle →
    ∃ entry, s.pool.made[handle]? = some entry ∧ entry.key = key ∧ s.Kept handle entry
  stored : ∀ key page, s.pool.entries.get? key = none → s.latest key = some page →
    s.pool.store.readPage key = .ok page
  held : ∀ handle ∈ s.unmarked, ∃ entry, s.pool.made[handle]? = some entry ∧ 0 < entry.pins

variable {s : WrittenPool} {pool : BufferPool} {handle key : Nat} {entry : PoolEntry}

theorem Coherent.keepsWrites (h : s.Coherent) : s.KeepsWrites := by
  intro key page hlatest
  rw [BufferPool.content]
  cases hget : s.pool.entries.get? key with
  | none =>
    simp only [h.stored key page hget hlatest]
    rfl
  | some handle =>
    obtain ⟨entry, hentry, rfl, hkept⟩ := h.made key handle hget
    simp only [hentry, Option.map_some, hkept.latest page hlatest]

theorem coherent_new {store : FileStore} (h : store.Sized) (capacity : Nat) :
    (new store capacity).Coherent := by
  refine ⟨h, nofun, fun key page _ hlatest => ?_, fun _ hin => absurd hin List.not_mem_nil⟩
  have hread : (store.readPage key).toOption = some page := hlatest
  show store.readPage key = .ok page
  cases hr : store.readPage key with
  | error e =>
    rw [hr] at hread
    cases hread
  | ok found =>
    rw [hr] at hread
    cases hread
    rfl

/-- A resident entry is written back to its own page. -/
theorem Coherent.writeBack (h : s.Coherent) (hget : s.pool.entries.get? key = some handle)
    (hmarked : handle ∉ s.unmarked) :
    ∃ entry store, s.pool.made[handle]? = some entry ∧ entry.key = key ∧
      s.pool.writeBack handle = .ok store ∧ store.readPage key = .ok entry.page ∧
      s.Kept handle entry ∧ Coherent { s with pool := { s.pool with store } } := by
  obtain ⟨entry, hentry, rfl, hkept⟩ := h.made key handle hget
  have hwritten : ∃ store, s.pool.writeBack handle = .ok store ∧
      store.readPage entry.key = .ok entry.page ∧ store.Sized ∧
      store.bodySize = s.pool.store.bodySize ∧ ∀ other page, other ≠ entry.key →
        s.pool.store.readPage other = .ok page → store.readPage other = .ok page := by
    rw [BufferPool.writeBack, hentry]
    by_cases hdirty : entry.dirty = true
    · have hown := hkept.own (Or.inl hdirty)
      obtain ⟨store, hwrite, hread⟩ := hkept.fits.writePage h.sized
      obtain ⟨hsized, hbody⟩ := h.sized.writePage hwrite
      refine ⟨store, by simp only [hdirty, if_true, hwrite], hown ▸ hread, hsized, hbody, ?_⟩
      intro other page hne hr
      exact FileStore.readPage_writePage_of_ne hwrite hr (hown ▸ hne)
    · refine ⟨s.pool.store, by simp only [hdirty]; rfl, ?_, h.sized, rfl, fun _ _ _ hr => hr⟩
      exact hkept.clean (Bool.not_eq_true _ ▸ hdirty) hmarked
  obtain ⟨store, hw, hread, hsized, hbody, hother⟩ := hwritten
  refine ⟨entry, store, hentry, rfl, hw, hread, hkept, hsized, fun k n hn => ?_,
    fun k page hk hlatest => ?_, h.held⟩
  · obtain ⟨e, he, rfl, hk⟩ := h.made k n hn
    refine ⟨e, he, rfl, ⟨hk.fits.pageId, hk.fits.lsn, ?_⟩, hk.own, fun hc hm => ?_, hk.latest⟩
    · exact hk.fits.body.trans (Nat.le_of_eq hbody.symm)
    · show store.readPage e.key = .ok e.page
      by_cases hne : e.key = entry.key
      · have hn' : s.pool.entries.get? e.key = some n := hn
        rw [hne, hget, Option.some.injEq] at hn'
        subst hn'
        obtain rfl := Option.some.inj (hentry.symm.trans he)
        exact hread
      · exact hother _ _ hne (hk.clean hc hm)
  · refine hother k page ?_ (h.stored k page hk hlatest)
    rintro rfl
    rw [show s.pool.entries.get? entry.key = none from hk] at hget
    cases hget

/-- **Eviction.** The page that goes is in the store. -/
theorem Coherent.evictIfFull (h : s.Coherent) (he : s.pool.evictIfFull = .ok pool) :
    Coherent { s with pool } := by
  rcases BufferPool.evictIfFull_cases he with ⟨-, rfl⟩ | ⟨-, key, handle, store, hvictim, hw, rfl⟩
  · exact h
  · obtain ⟨hfree, -⟩ := BufferPool.victim_spec hvictim
    have hmarked : handle ∉ s.unmarked := by
      intro hin
      obtain ⟨entry, hentry, hpins⟩ := h.held handle hin
      rw [BufferPool.isPinned_eq_true.mpr ⟨entry, hentry, hpins⟩] at hfree
      cases hfree
    obtain ⟨entry, store', hentry, rfl, hw', hread, hkept, hs⟩ :=
      h.writeBack (BufferPool.get?_victim hvictim) hmarked
    obtain rfl : store' = store := Except.ok.inj (hw'.symm.trans hw)
    refine ⟨hs.sized, fun other n hother => ?_, fun other page hother hlatest => ?_, h.held⟩
    · have hother' : (s.pool.entries.erase entry.key).get? other = some n := hother
      rw [OrdDict.get?_erase] at hother'
      split at hother'
      · cases hother'
      · obtain ⟨e, hn, hkey, hk⟩ := hs.made other n hother'
        exact ⟨e, hn, hkey, hk.fits, hk.own, hk.clean, hk.latest⟩
    · have hother' : (s.pool.entries.erase entry.key).get? other = none := hother
      rw [OrdDict.get?_erase] at hother'
      split at hother'
      · rename_i heq
        subst heq
        rw [← hkept.latest page hlatest]
        exact hread
      · exact hs.stored other page hother' hlatest

/-- **A new entry**, read from the store or put. -/
theorem Coherent.add (h : s.Coherent) (entry : PoolEntry) {latest : Nat → Option Page}
    (hkept : Kept ⟨(s.pool.add entry).2, latest, s.unmarked⟩ s.pool.made.length entry)
    (hlatest : ∀ key, key ≠ entry.key → latest key = s.latest key) :
    Coherent ⟨(s.pool.add entry).2, latest, s.unmarked⟩ := by
  have hold : ∀ {n e}, s.pool.made[n]? = some e → (s.pool.made ++ [entry])[n]? = some e :=
    fun hn => (List.getElem?_append_left (List.getElem?_eq_some_iff.mp hn).1).trans hn
  refine ⟨h.sized, fun key n hget => ?_, fun key page hget hpage => ?_, fun n hin => ?_⟩
  · have hget' : (s.pool.entries.set entry.key s.pool.made.length).get? key = some n := hget
    rw [OrdDict.get?_set] at hget'
    split at hget'
    · rename_i hkey
      obtain rfl := Option.some.inj hget'
      exact ⟨entry, List.getElem?_concat_length, hkey, hkept⟩
    · rename_i hne
      obtain ⟨e, hn, rfl, hk⟩ := h.made key n hget'
      refine ⟨e, hold hn, rfl, hk.fits, hk.own, hk.clean, fun page hpage => hk.latest page ?_⟩
      exact (hlatest e.key fun heq => hne heq.symm) ▸ hpage
  · have hget' : (s.pool.entries.set entry.key s.pool.made.length).get? key = none := hget
    rw [OrdDict.get?_set] at hget'
    split at hget'
    · cases hget'
    · rename_i hne
      exact h.stored key page hget' ((hlatest key fun heq => hne heq.symm) ▸ hpage)
  · obtain ⟨e, hn, hpins⟩ := h.held n hin
    exact ⟨e, hold hn, hpins⟩

/-- **A changed entry.** -/
theorem Coherent.onEntry (h : s.Coherent) (f : PoolEntry → PoolEntry)
    {latest : Nat → Option Page} {unmarked : List Nat} (hkey : ∀ entry, (f entry).key = entry.key)
    (hkept : ∀ entry, s.pool.made[handle]? = some entry →
      s.pool.entries.get? entry.key = some handle → s.Kept handle entry →
      Kept ⟨s.pool.onEntry handle f, latest, unmarked⟩ handle (f entry))
    (hlatest : ∀ key, s.pool.entries.get? key ≠ some handle → latest key = s.latest key)
    (hunmarked : ∀ n, n ≠ handle → (n ∈ unmarked ↔ n ∈ s.unmarked))
    (hheld : handle ∈ unmarked →
      ∃ entry, s.pool.made[handle]? = some entry ∧ 0 < (f entry).pins) :
    Coherent ⟨s.pool.onEntry handle f, latest, unmarked⟩ := by
  refine ⟨h.sized, fun key n hget => ?_, fun key page hget hpage => ?_, fun n hin => ?_⟩
  · obtain ⟨e, hn, rfl, hk⟩ := h.made key n hget
    show ∃ entry, (s.pool.onEntry handle f).made[n]? = some entry ∧ _
    rw [BufferPool.getElem?_onEntry, hn]
    by_cases hhandle : handle = n
    · subst hhandle
      rw [if_pos rfl]
      exact ⟨f e, rfl, hkey e, hkept e hn hget hk⟩
    · rw [if_neg hhandle]
      have hsame := hunmarked n (Ne.symm hhandle)
      refine ⟨e, rfl, rfl, hk.fits, fun ho => hk.own (ho.imp_right hsame.mp), fun hc hm => ?_, ?_⟩
      · exact hk.clean hc (mt hsame.mpr hm)
      · intro page hpage
        refine hk.latest page (hlatest e.key ?_ ▸ hpage)
        rw [show s.pool.entries.get? e.key = some n from hget]
        exact fun heq => hhandle (Option.some.inj heq).symm
  · have hget' : s.pool.entries.get? key = none := hget
    refine h.stored key page hget' (hlatest key ?_ ▸ hpage)
    rw [hget']
    exact nofun
  · show ∃ entry, (s.pool.onEntry handle f).made[n]? = some entry ∧ _
    rw [BufferPool.getElem?_onEntry]
    by_cases hhandle : handle = n
    · subst hhandle
      obtain ⟨e, hn, hpins⟩ := hheld hin
      exact ⟨f e, by rw [if_pos rfl, hn]; rfl, hpins⟩
    · rw [if_neg hhandle]
      exact h.held n ((hunmarked n (Ne.symm hhandle)).mp hin)

/-- Flushing resident entries writes them all back. -/
theorem Coherent.flushEntries (h : s.Coherent) (handles : List Nat)
    (hresident : ∀ n ∈ handles, ∃ key, s.pool.entries.get? key = some n)
    (hmarked : ∀ n ∈ handles, n ∉ s.unmarked) :
    Coherent { s with pool := (s.pool.flushEntries handles).2 } ∧
      (s.pool.flushEntries handles).2.entries = s.pool.entries ∧
      ∀ n entry, (s.pool.flushEntries handles).2.made[n]? = some entry → entry.dirty = true →
        n ∉ handles ∧ ∃ entry', s.pool.made[n]? = some entry' ∧ entry'.dirty = true := by
  induction handles generalizing s with
  | nil => exact ⟨h, rfl, fun n entry hn hd => ⟨List.not_mem_nil, entry, hn, hd⟩⟩
  | cons handle handles ih =>
    obtain ⟨key, hget⟩ := hresident handle (List.mem_cons_self ..)
    have hm := hmarked handle (List.mem_cons_self ..)
    obtain ⟨entry, store, hentry, rfl, hw, hread, -, hs⟩ := h.writeBack hget hm
    have hclean : Coherent ⟨({ s.pool with store } : BufferPool).onEntry handle
        fun entry => { entry with dirty := false }, s.latest, s.unmarked⟩ := by
      refine hs.onEntry _ (fun _ => rfl) (fun e he _ hk => ?_) (fun _ _ => rfl)
        (fun _ _ => Iff.rfl) (fun hin => absurd hin hm)
      obtain rfl := Option.some.inj (hentry.symm.trans he)
      exact ⟨hk.fits, fun ho => hk.own (ho.imp_left nofun), fun _ _ => hread, hk.latest⟩
    obtain ⟨hend, hentries, hdirty⟩ := ih hclean
      (fun n hn => hresident n (List.mem_cons_of_mem _ hn))
      (fun n hn => hmarked n (List.mem_cons_of_mem _ hn))
    simp only [BufferPool.flushEntries, hw]
    refine ⟨hend, hentries, fun n e hn hd => ?_⟩
    obtain ⟨hnot, e', hn', hd'⟩ := hdirty n e hn hd
    rw [BufferPool.getElem?_onEntry] at hn'
    split at hn'
    · obtain ⟨old, -, rfl⟩ := Option.map_eq_some_iff.mp hn'
      cases hd'
    · rename_i hne
      exact ⟨fun hin => (List.mem_cons.mp hin).elim (Ne.symm hne) hnot, e', hn', hd'⟩

theorem mem_values {n : Nat} : n ∈ s.pool.entries.values ↔
    ∃ key, s.pool.entries.get? key = some n := by
  rw [OrdDict.mem_values]
  exact exists_congr fun key => (OrdDict.get?_eq_some_iff _ _ _).symm

/-- **`flush_all`.** -/
theorem Coherent.flushAll (h : s.Coherent) (hb : s.Bracketed .flushAll) :
    (s.step .flushAll).Coherent ∧ s.FlushStores .flushAll := by
  obtain ⟨hend, hentries, hdirty⟩ := h.flushEntries s.pool.entries.values
    (fun n hn => mem_values.mp hn) fun n hn => by
      obtain ⟨key, hget⟩ := mem_values.mp hn
      exact hb key n hget
  refine ⟨hend, fun _ key page hlatest => ?_⟩
  show (s.pool.flushEntries s.pool.entries.values).2.store.readPage key = .ok page
  cases hget : s.pool.entries.get? key with
  | none => exact hend.stored key page ((congrArg (OrdDict.get? · key) hentries).trans hget) hlatest
  | some n =>
    obtain ⟨entry, hn, rfl, hkept⟩ := hend.made key n ((congrArg (OrdDict.get? · key) hentries).trans hget)
    rw [← hkept.latest page hlatest]
    refine hkept.clean ?_ (hb entry.key n hget)
    by_contra hd
    exact (hdirty n entry hn ((Bool.not_eq_false _).mp hd)).1 (mem_values.mpr ⟨_, hget⟩)

theorem Coherent.get (h : s.Coherent) (pageId : Nat) : (s.step (.get pageId)).Coherent := by
  show Coherent { s with pool := (s.pool.get pageId).2 }
  rw [BufferPool.get]
  split
  · exact h
  · rename_i hget
    split
    · exact h
    · rename_i pool he
      have hs := h.evictIfFull he
      split
      · exact hs
      · rename_i page hread
        refine Coherent.add hs ⟨pageId, page, false, 0⟩ ⟨hs.sized.fits hread, ?_, ?_, ?_⟩
          fun _ _ => rfl
        · rintro (hd | hin)
          · cases hd
          · obtain ⟨e, hn, -⟩ := hs.held _ hin
            exact absurd (List.getElem?_eq_some_iff.mp hn).1 (Nat.lt_irrefl _)
        · exact fun _ _ => hread
        · intro page' hlatest
          have hnone : pool.entries.get? pageId = none := by
            rw [OrdDict.get?_eq_none_iff] at hget ⊢
            exact fun hin => hget ((BufferPool.keys_evictIfFull he).subset hin)
          exact Except.ok.inj (hread.symm.trans (hs.stored pageId page' hnone hlatest))

theorem Coherent.put (h : s.Coherent) {page : Page} (hc : s.Careful (.put page)) :
    (s.step (.put page)).Coherent := by
  simp only [WrittenPool.step, BufferPool.call, BufferPool.put]
  cases he : s.pool.evictIfFull with
  | error e => exact h
  | ok pool =>
    have hs := h.evictIfFull he
    have hbody : pool.store.bodySize = s.pool.store.bodySize := BufferPool.bodySize_evictIfFull he
    refine Coherent.add hs ⟨page.pageId, page, true, 0⟩
      ⟨?_, fun _ => rfl, fun h => (by cases h), ?_⟩ ?_
    · exact ⟨hc.pageId, hc.lsn, hc.body.trans (Nat.le_of_eq hbody.symm)⟩
    · intro page' hlatest
      have hlatest' : Function.update s.latest page.pageId (some page) page.pageId = some page' :=
        hlatest
      rw [Function.update_self, Option.some.injEq] at hlatest'
      exact hlatest'
    · exact fun key hne => Function.update_of_ne hne _ _

theorem Coherent.change (h : s.Coherent) {pageType : PageType} {lsn : Nat} {body : Bytes}
    (hb : s.Bracketed (.change handle pageType lsn body))
    (hc : s.Careful (.change handle pageType lsn body)) :
    (s.step (.change handle pageType lsn body)).Coherent := by
  obtain ⟨entry, hentry, hpins⟩ := BufferPool.isPinned_eq_true.mp hb
  obtain ⟨hget, hown, hlsn, hbody⟩ := hc entry hentry
  have hmade := BufferPool.getElem?_onEntry s.pool handle
    (fun entry => { entry with page := { entry.page with pageType, lsn, body } }) handle
  rw [if_pos rfl, hentry] at hmade
  simp only [WrittenPool.step, BufferPool.call, hmade, Option.map_some]
  refine h.onEntry _ (fun _ => rfl) (fun e he hget' hk => ?_) (fun key hne => ?_) (fun n hne => ?_)
    fun _ => ⟨entry, hentry, hpins⟩
  · obtain rfl := Option.some.inj (hentry.symm.trans he)
    refine ⟨⟨hk.fits.pageId, hlsn, hbody⟩, fun _ => hown, fun _ hm => ?_, fun page hlatest => ?_⟩
    · exact absurd (List.mem_cons_self ..) hm
    · have hlatest' : Function.update s.latest entry.key
          (some { entry.page with pageType, lsn, body }) entry.key = some page := hlatest
      rw [Function.update_self, Option.some.injEq] at hlatest'
      exact hlatest'
  · refine Function.update_of_ne ?_ _ _
    rintro rfl
    exact hne hget
  · rw [List.mem_cons, or_iff_right hne]

theorem Coherent.markDirty (h : s.Coherent) (hc : s.Careful (.markDirty handle)) :
    (s.step (.markDirty handle)).Coherent := by
  refine h.onEntry _ (fun _ => rfl) (fun e he hget hk => ?_) (fun _ _ => rfl) (fun n hne => ?_) ?_
  · exact ⟨hk.fits, fun _ => hc e he hget, nofun, hk.latest⟩
  · rw [List.mem_filter, decide_eq_true hne, and_iff_left rfl]
  · intro hin
    exact absurd rfl (of_decide_eq_true (List.mem_filter.mp hin).2)

/-- **One call.** -/
theorem Coherent.step {call : PoolCall} (h : s.Coherent) (hb : s.Bracketed call)
    (hc : s.Careful call) : (s.step call).Coherent ∧ s.FlushStores call := by
  cases call with
  | get pageId => exact ⟨h.get pageId, nofun⟩
  | put page => exact ⟨h.put hc, nofun⟩
  | flushAll => exact h.flushAll hb
  | pin handle =>
    refine ⟨h.onEntry _ (fun _ => rfl) (fun e _ _ hk => ?_) (fun _ _ => rfl) (fun _ _ => Iff.rfl)
      fun hin => ?_, nofun⟩
    · exact ⟨hk.fits, hk.own, hk.clean, hk.latest⟩
    · obtain ⟨e, he, -⟩ := h.held handle hin
      exact ⟨e, he, Nat.succ_pos _⟩
  | unpin handle =>
    refine ⟨h.onEntry _ (fun _ => rfl) (fun e _ _ hk => ?_) (fun _ _ => rfl) (fun _ _ => Iff.rfl)
      fun hin => absurd hin hb, nofun⟩
    exact ⟨hk.fits, hk.own, hk.clean, hk.latest⟩
  | markDirty handle => exact ⟨h.markDirty hc, nofun⟩
  | change handle pageType lsn body => exact ⟨h.change hb hc, nofun⟩

/-- **No write is lost.** In every run whose changes are bracketed and careful each page has the
content last written in every state, and the store has it after every `flush_all`. -/
theorem keepsWrites_of_careful (store : FileStore) (hs : store.Sized) (capacity : Nat)
    (calls : List PoolCall) (hb : Along WrittenPool.step Bracketed (new store capacity) calls)
    (hc : Along WrittenPool.step Careful (new store capacity) calls) :
    Reached WrittenPool.step KeepsWrites (new store capacity) calls ∧
      Along WrittenPool.step FlushStores (new store capacity) calls := by
  have hboth := hb.and hc
  refine ⟨?_, ?_⟩
  · exact (reached_of_along Coherent (fun _ _ h hp => (h.step hp.1 hp.2).1)
      (coherent_new hs capacity) hboth).mono fun _ h => h.keepsWrites
  · exact along_of_along Coherent (fun _ _ h hp => h.step hp.1 hp.2) (coherent_new hs capacity) hboth

/-! ## A change through an old handle -/

open UsedPool

theorem sized_headerOnly : headerOnly.Sized := ⟨by decide, by decide +kernel⟩

theorem keepsWrites_evicted :
    Reached WrittenPool.step KeepsWrites (new headerOnly 1) [.put (tablePage 1), .pin 0,
        .change 0 .table 5 [1, 2, 3], .markDirty 0, .unpin 0, .put (tablePage 2), .flushAll] ∧
      Along WrittenPool.step FlushStores (new headerOnly 1) [.put (tablePage 1), .pin 0,
        .change 0 .table 5 [1, 2, 3], .markDirty 0, .unpin 0, .put (tablePage 2), .flushAll] := by
  refine keepsWrites_of_careful headerOnly sized_headerOnly 1 _ ?_ ?_
  · refine ⟨trivial, trivial, rfl, trivial, List.not_mem_nil, trivial, ?_, trivial⟩
    exact fun _ _ _ => List.not_mem_nil
  · refine ⟨⟨by decide, by decide, by decide⟩, trivial, ?_, ?_, trivial,
      ⟨by decide, by decide, by decide⟩, trivial, trivial⟩
    · rintro _ ⟨⟩
      decide +kernel
    · rintro _ ⟨⟩ -
      decide +kernel

/-- Page 1 is put a second time while the handle of the first is pinned: what is written through
that handle is gone. -/
theorem loses_write_replaced :
    Along WrittenPool.step Bracketed (new headerOnly 2) [.put (tablePage 1), .pin 0,
        .put (tablePage 1), .change 0 .table 5 [1, 2, 3], .markDirty 0] ∧
      ¬ KeepsWrites (run WrittenPool.step (new headerOnly 2) [.put (tablePage 1), .pin 0,
        .put (tablePage 1), .change 0 .table 5 [1, 2, 3], .markDirty 0]) := by
  refine ⟨⟨trivial, trivial, trivial, rfl, trivial, trivial⟩, fun h => ?_⟩
  exact absurd (h 1 ⟨1, .table, 5, [1, 2, 3]⟩ (by decide +kernel)) (by decide +kernel)

end WrittenPool

end TinyDB
