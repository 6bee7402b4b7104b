import TinyDB.Replay

/-!
# Interrupted recovery

A page that `replay_wal` writes keeps the first nine bytes of its header, the page
id, type and LSN, and gets the length and the body of the image. The image that
stays is the last one of the log, so a replay that was cut off after any number of
writes and is run again ends in the store of one whole replay.
-/

namespace TinyDB

open Lib FileStore

/-! ## A crash during recovery -/

/-- The first `k` page writes of the second loop of `replay_wal`. -/
def replayFirst (committed : List Nat) : Nat → List WalRecord → FileStore → FileStore
  | 0, _, store => store
  | _ + 1, [], store => store
  | k + 1, r :: records, store =>
    if r.kind = .mutate then
      match store.readPage r.pageId with
      | .error _ => store
      | .ok page =>
        let body := if r.txId ∈ committed then r.after else r.before
        match store.writePage { page with body := body } with
        | .error _ => store
        | .ok store => replayFirst committed k records store
    else replayFirst committed (k + 1) records store

/-- The store that a crash leaves after `k` page writes of `replay_wal`. -/
def crashedReplay (k : Nat) (wal : Option Bytes) (store : FileStore) : FileStore :=
  match wal with
  | none => store
  | some bytes =>
    match readLog bytes with
    | .error _ => store
    | .ok records => replayFirst (committedTx records) k records store

/-- The page has its place in the file and a header that can be read. -/
def HoldsPage (store : FileStore) (p : Nat) : Prop :=
  ∃ page, store.readPage p = .ok page ∧ page.pageId = p

/-- Some mutation of the records names the page. -/
def Named (records : List WalRecord) (p : Nat) : Prop :=
  ∃ r ∈ records, r.kind = .mutate ∧ r.pageId = p

/-- The writes before a crash are those of a replay of a prefix of the records. -/
theorem replayFirst_prefix (committed : List Nat) (k : Nat) (records : List WalRecord)
    (store : FileStore) :
    ∃ done rest, records = done ++ rest ∧
      replayFirst committed k records store = (replayRecords committed done store).2 := by
  induction records generalizing k store with
  | nil => exact ⟨[], [], rfl, by cases k <;> rfl⟩
  | cons r records ih =>
    cases k with
    | zero => exact ⟨[], r :: records, rfl, rfl⟩
    | succ k =>
      by_cases hk : r.kind = .mutate
      · cases hread : store.readPage r.pageId with
        | error e =>
          refine ⟨[r], records, rfl, ?_⟩
          simp only [replayFirst, replayRecords, hk, hread, ↓reduceIte]
        | ok page =>
          cases hw : store.writePage
              { page with body := if r.txId ∈ committed then r.after else r.before } with
          | error e =>
            refine ⟨[r], records, rfl, ?_⟩
            simp only [replayFirst, replayRecords, hk, hread, hw, ↓reduceIte]
          | ok store1 =>
            obtain ⟨done, rest, rfl, hrun⟩ := ih k store1
            refine ⟨r :: done, rest, rfl, ?_⟩
            simp only [replayFirst, replayRecords, hk, hread, hw, hrun, ↓reduceIte]
      · obtain ⟨done, rest, rfl, hrun⟩ := ih (k + 1) store
        refine ⟨r :: done, rest, rfl, ?_⟩
        simp only [replayFirst, replayRecords, hk, hrun, ↓reduceIte]

/-! ## Raw pages -/

/-- A raw page with the length and the body of another image. -/
def withBody (pageSize : Nat) (raw image : Bytes) : Bytes :=
  raw.take 9 ++ (leBytes 2 image.length ++ padBody image pageSize)

theorem PageType.toByte_of_ofByte {b : UInt8} {t : PageType} (h : PageType.ofByte b = .ok t) :
    t.toByte = b := by
  unfold PageType.ofByte at h
  split_ifs at h with h0 h1 h2 h3 h4 <;> cases h <;> symm <;> assumption

/-- The part of a header in front of the length. -/
theorem take_of_unpackHeader {raw : Bytes} {pid lsn len : Nat} {t : PageType}
    (h : unpackHeader raw = .ok (pid, t, lsn, len)) :
    pid < 256 ^ 4 ∧ lsn < 256 ^ 4 ∧
      raw.take 9 = leBytes 4 pid ++ ([t.toByte] ++ leBytes 4 lsn) := by
  simp only [unpackHeader, slice_slice _ fileHeaderSize _ _ (show 4 ≤ fileHeaderSize by decide),
    slice_slice _ fileHeaderSize _ _ (show 5 ≤ fileHeaderSize by decide),
    slice_slice _ fileHeaderSize _ _ (show 9 ≤ fileHeaderSize by decide), bind_eq_ok,
    unpackUint_eq_ok, Except.ok.injEq, Prod.mk.injEq] at h
  obtain ⟨_, ⟨hl1, rfl⟩, _, ⟨hl2, rfl⟩, _, ⟨hl3, rfl⟩, _, -, u, ht, rfl, rfl, rfl, -⟩ := h
  have htype : [u.toByte] = slice raw 4 5 := by
    obtain ⟨b, hb⟩ := List.length_eq_one_iff.mp hl2
    rw [hb] at ht ⊢
    rw [PageType.toByte_of_ofByte ht]
    simp [leNat]
  have hnine : raw.take 9 = slice raw 0 9 := by simp [slice]
  have hid := leBytes_leNat (slice raw 0 4)
  have hlsn := leBytes_leNat (slice raw 5 9)
  have hid' := leNat_lt (slice raw 0 4)
  have hlsn' := leNat_lt (slice raw 5 9)
  rw [hl1] at hid hid'
  rw [hl3] at hlsn hlsn'
  refine ⟨hid', hlsn', ?_⟩
  rw [hid, hlsn, htype, hnine, slice_append (by omega) (by omega),
    slice_append (by omega) (by omega)]

/-- What replay makes of a raw page whose header can be read. -/
theorem withBody_spec (pageSize : Nat) {raw image : Bytes} {pid lsn len : Nat} {t : PageType}
    (h : unpackHeader raw = .ok (pid, t, lsn, len)) (himage : image.length < 256 ^ 2) :
    (∃ head, packHeader pid t lsn image.length = .ok head ∧
      head ++ padBody image pageSize = withBody pageSize raw image) ∧
      unpackHeader (withBody pageSize raw image) = .ok (pid, t, lsn, image.length) := by
  obtain ⟨hid, hlsn, htake⟩ := take_of_unpackHeader h
  have hhead : packHeader pid t lsn image.length =
      .ok (leBytes 4 pid ++ ([t.toByte] ++ (leBytes 4 lsn ++ leBytes 2 image.length))) :=
    packHeader_eq_ok.mpr ⟨hid, hlsn, himage, rfl⟩
  have hraw : leBytes 4 pid ++ ([t.toByte] ++ (leBytes 4 lsn ++ leBytes 2 image.length)) ++
      padBody image pageSize = withBody pageSize raw image := by
    rw [withBody, htake]
    simp only [List.append_assoc]
  refine ⟨⟨_, hhead, hraw⟩, ?_⟩
  rw [← hraw]
  exact unpackHeader_packHeader hhead _

/-- The image of the last write is the one that stays. -/
theorem withBody_withBody {pageSize : Nat} {raw image : Bytes} (other : Bytes)
    (h : 9 ≤ raw.length) :
    withBody pageSize (withBody pageSize raw other) image = withBody pageSize raw image := by
  have hlen : (raw.take 9).length = 9 := by rw [List.length_take]; omega
  rw [withBody, withBody, List.take_left' hlen]
  rfl

/-! ## One whole pass -/

theorem readPage_eq_ok {store : FileStore} {p : Nat} {page : Page} :
    store.readPage p = .ok page ↔ ∃ len, unpackHeader (store.rawRead p) =
      .ok (page.pageId, page.pageType, page.lsn, len) ∧
        page.body = slice (store.rawRead p) fileHeaderSize (fileHeaderSize + len) := by
  simp only [readPage, bind_eq_ok, Except.ok.injEq]
  constructor
  · rintro ⟨⟨pid, t, lsn, len⟩, hu, rfl⟩
    exact ⟨len, hu, rfl⟩
  · rintro ⟨len, hu, hb⟩
    refine ⟨_, hu, ?_⟩
    rw [← hb]

/-- The raw page after the pass: the last image of the page, if there is one. -/
def imagedRaw (pageSize : Nat) (image : Option Bytes) (raw : Bytes) : Bytes :=
  (image.map (withBody pageSize raw)).getD raw

/-- The store with the last image of every page. -/
def imaged (committed : List Nat) (records : List WalRecord) (store : FileStore) : FileStore :=
  { store with file := store.file.mapIdx fun p raw =>
      imagedRaw store.pageSize (lastImage committed p records) raw }

theorem imaged_rawRead (committed : List Nat) (records : List WalRecord) {store : FileStore}
    {p : Nat} (hp : p < store.file.length) : (imaged committed records store).rawRead p =
      imagedRaw store.pageSize (lastImage committed p records) (store.rawRead p) := by
  simp [imaged, rawRead, List.getD_eq_getElem?_getD, hp]

/-- Two stores over one pair of counters with the same raw pages. -/
private theorem fileStore_ext {a b : FileStore} (hsize : a.pageSize = b.pageSize)
    (hcount : a.pageCount = b.pageCount) (hhead : a.freeHead = b.freeHead)
    (hlen : a.file.length = b.file.length)
    (hraw : ∀ p < a.file.length, a.rawRead p = b.rawRead p) : a = b := by
  obtain ⟨fa, sa, ca, ha⟩ := a
  obtain ⟨fb, sb, cb, hb⟩ := b
  obtain rfl : sa = sb := hsize
  obtain rfl : ca = cb := hcount
  obtain rfl : ha = hb := hhead
  have hf : fa = fb := by
    refine List.ext_getElem hlen fun p hp hp' => ?_
    have hr := hraw p hp
    simpa [rawRead, List.getD_eq_getElem?_getD, hp, show p < fb.length from hp'] using hr
  rw [hf]

/-- The page whose raw bytes got an image reads as before with the image as its body. -/
theorem readPage_withBody {store store' : FileStore} {p : Nat} {page : Page} {image : Bytes}
    (h : store.readPage p = .ok page) (himage : image.length < 256 ^ 2)
    (hraw : store'.rawRead p = withBody store'.pageSize (store.rawRead p) image) :
    store'.readPage p = .ok { page with body := image.take store'.bodySize } := by
  obtain ⟨len, hu, -⟩ := readPage_eq_ok.mp h
  obtain ⟨⟨head, hhead, he⟩, -⟩ := withBody_spec store'.pageSize hu himage
  exact @readPage_raw store' p { page with body := image } head hhead (by rw [hraw, he])

theorem nine_le_rawRead {store : FileStore} {p : Nat} {page : Page}
    (h : store.readPage p = .ok page) : 9 ≤ (store.rawRead p).length := by
  obtain ⟨len, hu, -⟩ := readPage_eq_ok.mp h
  have htake := congrArg List.length (take_of_unpackHeader hu).2.2
  simp only [List.length_take, List.length_append, leBytes_length, List.length_singleton] at htake
  omega

/-- One write of the pass, as raw bytes. -/
theorem writePage_image {store : FileStore} {p : Nat} {page : Page} {image : Bytes}
    (h : store.readPage p = .ok page) (hid : page.pageId = p) (himage : image.length < 256 ^ 2) :
    store.writePage { page with body := image } =
      .ok (store.pwrite p (withBody store.pageSize (store.rawRead p) image)) := by
  obtain ⟨len, hu, -⟩ := readPage_eq_ok.mp h
  obtain ⟨⟨head, hhead, he⟩, -⟩ := withBody_spec store.pageSize hu himage
  refine writePage_eq_ok.mpr ⟨head, hhead, ?_⟩
  rw [he, hid]

/-- Every image of the records has a length that fits the header of a page. -/
def SmallImages (records : List WalRecord) : Prop :=
  ∀ r ∈ records, r.before.length < 256 ^ 2 ∧ r.after.length < 256 ^ 2

theorem lastImage_small {committed : List Nat} {p : Nat} {records : List WalRecord} {image : Bytes}
    (hs : SmallImages records) (h : lastImage committed p records = some image) :
    image.length < 256 ^ 2 := by
  induction records with
  | nil => cases h
  | cons r records ih =>
    rw [lastImage] at h
    cases hl : lastImage committed p records with
    | some body =>
      rw [hl] at h
      exact ih (fun r' h' => hs r' (List.mem_cons_of_mem _ h')) (by rw [hl]; exact h)
    | none =>
      rw [hl] at h
      obtain ⟨-, himage⟩ := Option.ite_none_right_eq_some.mp h
      cases himage
      split
      · exact (hs r List.mem_cons_self).2
      · exact (hs r List.mem_cons_self).1

theorem named_of_lastImage {committed : List Nat} {p : Nat} {records : List WalRecord}
    {image : Bytes} (h : lastImage committed p records = some image) : Named records p := by
  induction records with
  | nil => cases h
  | cons r records ih =>
    rw [lastImage] at h
    cases hl : lastImage committed p records with
    | some body =>
      obtain ⟨r', hr, hk⟩ := ih (by rw [hl] at h ⊢; exact h)
      exact ⟨r', List.mem_cons_of_mem _ hr, hk⟩
    | none =>
      rw [hl] at h
      obtain ⟨hr, -⟩ := Option.ite_none_right_eq_some.mp h
      exact ⟨r, List.mem_cons_self, hr⟩

theorem holdsPage_imaged {committed : List Nat} {records : List WalRecord} {store : FileStore}
    {p : Nat} (hs : SmallImages records) (h : HoldsPage store p) :
    HoldsPage (imaged committed records store) p := by
  obtain ⟨page, hread, hid⟩ := h
  have hraw := imaged_rawRead committed records (readPage_lt hread)
  cases hl : lastImage committed p records with
  | none =>
    rw [hl] at hraw
    exact ⟨page, by rw [readPage_congr hraw]; exact hread, hid⟩
  | some image =>
    rw [hl] at hraw
    exact ⟨_, readPage_withBody hread (lastImage_small hs hl) hraw, hid⟩

theorem imaged_nil (committed : List Nat) (store : FileStore) :
    imaged committed [] store = store := by
  refine fileStore_ext (by rfl) (by rfl) (by rfl) (by simp [imaged]) ?_
  intro p hp
  exact imaged_rawRead committed [] (by simpa [imaged] using hp)

/-- **One whole pass.** Every page gets its last image, on the raw bytes. -/
theorem replayRecords_imaged (committed : List Nat) {records : List WalRecord} {store : FileStore}
    (hs : SmallImages records) (hholds : ∀ p, Named records p → HoldsPage store p) :
    replayRecords committed records store = (.ok (), imaged committed records store) := by
  induction records generalizing store with
  | nil =>
    rw [imaged_nil]
    rfl
  | cons r records ih =>
    have hrest : SmallImages records := fun r' h => hs r' (List.mem_cons_of_mem _ h)
    by_cases hk : r.kind = .mutate
    · obtain ⟨page, hread, hid⟩ := hholds r.pageId ⟨r, List.mem_cons_self, hk, rfl⟩
      have hlt := readPage_lt hread
      have himage : (if r.txId ∈ committed then r.after else r.before).length < 256 ^ 2 := by
        split
        · exact (hs r List.mem_cons_self).2
        · exact (hs r List.mem_cons_self).1
      have hw := writePage_image hread hid himage
      have hraw := fun i => rawRead_pwrite store r.pageId i (withBody store.pageSize
        (store.rawRead r.pageId) (if r.txId ∈ committed then r.after else r.before))
        (Nat.le_of_lt hlt)
      have hlen := (sameExcept_pwrite (withBody store.pageSize (store.rawRead r.pageId)
        (if r.txId ∈ committed then r.after else r.before)) hlt).length
      rw [replayRecords, if_pos hk, hread]
      simp only [hw]
      rw [ih hrest ?_]
      · congr 1
        refine fileStore_ext (by rfl) (by rfl) (by rfl) (by simp [imaged, hlen]) ?_
        intro p hp
        have hp' : p < store.file.length := by simpa [imaged, hlen] using hp
        rw [imaged_rawRead _ _ (by rw [hlen]; exact hp'), imaged_rawRead _ _ hp', hraw, lastImage]
        by_cases he : p = r.pageId
        · subst he
          rw [if_pos rfl]
          cases lastImage committed r.pageId records with
          | none => simp [imagedRaw, hk]
          | some image => exact withBody_withBody _ (nine_le_rawRead hread)
        · have hne : ¬ r.pageId = p := fun h => he h.symm
          rw [if_neg he]
          cases lastImage committed p records with
          | none => simp [imagedRaw, hne]
          | some image => rfl
      · intro p hp
        obtain ⟨r', hr, hk', rfl⟩ := hp
        obtain ⟨page', hread', hid'⟩ := hholds r'.pageId ⟨r', List.mem_cons_of_mem _ hr, hk', rfl⟩
        by_cases he : r'.pageId = r.pageId
        · rw [HoldsPage, he]
          exact ⟨_, readPage_withBody hread himage (by rw [hraw, if_pos rfl]; rfl), hid⟩
        · have hsame := (hraw r'.pageId).trans (if_neg he)
          exact ⟨page', by rw [readPage_congr hsame]; exact hread', hid'⟩
    · rw [replayRecords, if_neg hk, ih hrest fun p hp => ?_]
      · congr 1
        refine fileStore_ext (by rfl) (by rfl) (by rfl) (by simp [imaged]) ?_
        intro p hp
        have hp' : p < store.file.length := by simpa [imaged] using hp
        rw [imaged_rawRead _ _ hp', imaged_rawRead _ _ hp', lastImage]
        cases lastImage committed p records with
        | none => simp [hk]
        | some image => rfl
      · obtain ⟨r', hr, hk'⟩ := hp
        exact hholds p ⟨r', List.mem_cons_of_mem _ hr, hk'⟩

/-- A pass over a prefix of the records does not show after a pass over all of them. -/
theorem imaged_imaged (committed : List Nat) (done rest : List WalRecord) {store : FileStore}
    (hholds : ∀ p, Named (done ++ rest) p → HoldsPage store p) :
    imaged committed (done ++ rest) (imaged committed done store) =
      imaged committed (done ++ rest) store := by
  refine fileStore_ext (by rfl) (by rfl) (by rfl) (by simp [imaged]) ?_
  intro p hp
  have hp' : p < store.file.length := by simpa [imaged] using hp
  rw [imaged_rawRead _ _ (by simpa [imaged] using hp'), imaged_rawRead _ _ hp',
    imaged_rawRead _ _ hp', lastImage_append]
  cases hr : lastImage committed p rest with
  | some image =>
    obtain ⟨r, hmem, hk⟩ := named_of_lastImage hr
    obtain ⟨page, hread, -⟩ := hholds p ⟨r, List.mem_append_right _ hmem, hk⟩
    cases lastImage committed p done with
    | none => rfl
    | some other => exact withBody_withBody _ (nine_le_rawRead hread)
  | none =>
    cases hd : lastImage committed p done with
    | none => rfl
    | some image =>
      obtain ⟨r, hmem, hk⟩ := named_of_lastImage hd
      obtain ⟨page, hread, -⟩ := hholds p ⟨r, List.mem_append_left _ hmem, hk⟩
      exact withBody_withBody _ (nine_le_rawRead hread)

/-! ## The images of a log -/

private theorem decodeBody_small {body : Bytes} {r : WalRecord} (h : decodeBody body = .ok r) :
    r.before.length < 256 ^ 2 ∧ r.after.length < 256 ^ 2 := by
  simp only [decodeBody, bind_eq_ok, unpackUint_eq_ok, Except.ok.injEq] at h
  obtain ⟨_, -, _, -, _, -, _, -, n, ⟨hn, rfl⟩, m, ⟨hm, rfl⟩, _, -, rfl⟩ := h
  have hn' := leNat_lt (slice (body.drop 11) 0 2)
  have hm' := leNat_lt (slice (body.drop 11) 2 4)
  rw [hn] at hn'
  rw [hm] at hm'
  constructor
  · exact Nat.lt_of_le_of_lt (slice_length_le _ _ _) (by simpa using hn')
  · exact Nat.lt_of_le_of_lt (slice_length_le _ _ _) (by rwa [Nat.add_sub_cancel_left])

private theorem decodeRecord_small {raw : Bytes} {r : WalRecord} (h : decodeRecord raw = .ok r) :
    r.before.length < 256 ^ 2 ∧ r.after.length < 256 ^ 2 := by
  unfold decodeRecord at h
  split_ifs at h
  simp only [bind_eq_ok] at h
  obtain ⟨_, -, _, -, h⟩ := h
  split_ifs at h
  simp only [bind_eq_ok] at h
  obtain ⟨_, -, h⟩ := h
  split_ifs at h
  exact decodeBody_small h

private theorem scanRecords_small {n : Nat} {bytes : Bytes} {records : List WalRecord}
    (h : scanRecords n bytes = .ok records) : SmallImages records := by
  induction n generalizing bytes records with
  | zero =>
    cases h
    exact fun r hr => absurd hr List.not_mem_nil
  | succ n ih =>
    simp only [scanRecords] at h
    split_ifs at h
    · cases h
      exact fun r hr => absurd hr List.not_mem_nil
    · simp only [bind_eq_ok, Except.ok.injEq] at h
      obtain ⟨_, -, r, hr, rest, hrest, rfl⟩ := h
      intro r' hr'
      rcases List.mem_cons.mp hr' with rfl | hr'
      · exact decodeRecord_small hr
      · exact ih hrest r' hr'

/-- The records that `replay_wal` goes over. -/
def loggedRecords (wal : Option Bytes) : List WalRecord :=
  match wal with
  | none => []
  | some bytes =>
    match readLog bytes with
    | .error _ => []
    | .ok records => records

theorem loggedRecords_small (wal : Option Bytes) : SmallImages (loggedRecords wal) := by
  cases wal with
  | none => exact fun r hr => absurd hr List.not_mem_nil
  | some bytes =>
    cases hr : readLog bytes with
    | error e =>
      simp only [loggedRecords, hr]
      exact fun r hr => absurd hr List.not_mem_nil
    | ok records =>
      simp only [loggedRecords, hr]
      exact scanRecords_small hr

/-! ## Recovery -/

/-- The pages that the log names are in the store. -/
def HoldsNamed (wal : Option Bytes) (store : FileStore) : Prop :=
  ∀ p, Named (loggedRecords wal) p → HoldsPage store p

/-- A replay leaves the last images; a log that cannot be read ends it before any write. -/
theorem replayWal_imaged {wal : Option Bytes} {store : FileStore} (h : HoldsNamed wal store) :
    (replayWal wal store).2 =
      imaged (committedTx (loggedRecords wal)) (loggedRecords wal) store := by
  have hsmall := loggedRecords_small wal
  unfold HoldsNamed at h
  cases wal with
  | none => exact (imaged_nil _ _).symm
  | some bytes =>
    cases hr : readLog bytes with
    | error e =>
      simp only [replayWal, loggedRecords, hr]
      exact (imaged_nil _ _).symm
    | ok records =>
      simp only [replayWal, loggedRecords, hr] at hsmall h ⊢
      rw [replayRecords_imaged _ hsmall h]

/-- A crash leaves the images of a prefix of the records. -/
theorem crashedReplay_imaged {wal : Option Bytes} {store : FileStore} (h : HoldsNamed wal store)
    (k : Nat) :
    ∃ done rest, loggedRecords wal = done ++ rest ∧
      crashedReplay k wal store = imaged (committedTx (loggedRecords wal)) done store := by
  have hsmall := loggedRecords_small wal
  unfold HoldsNamed at h
  cases wal with
  | none => exact ⟨[], [], rfl, (imaged_nil _ _).symm⟩
  | some bytes =>
    cases hr : readLog bytes with
    | error e =>
      simp only [crashedReplay, loggedRecords, hr]
      exact ⟨[], [], rfl, (imaged_nil _ _).symm⟩
    | ok records =>
      simp only [crashedReplay, loggedRecords, hr] at hsmall h ⊢
      obtain ⟨done, rest, rfl, hrun⟩ := replayFirst_prefix (committedTx records) k records store
      refine ⟨done, rest, rfl, ?_⟩
      rw [hrun, replayRecords_imaged _ (fun r hr => hsmall r (List.mem_append_left _ hr))
        fun p hp => h p ?_]
      obtain ⟨r, hr, hk⟩ := hp
      exact ⟨r, List.mem_append_left _ hr, hk⟩

/-- After as many writes as there are records the replay is through. -/
theorem replayFirst_all (committed : List Nat) {k : Nat} {records : List WalRecord}
    (h : records.length ≤ k) (store : FileStore) :
    replayFirst committed k records store = (replayRecords committed records store).2 := by
  induction records generalizing k store with
  | nil => cases k <;> rfl
  | cons r records ih =>
    cases k with
    | zero => exact absurd h (by simp)
    | succ k =>
      have hle : records.length ≤ k := by simpa using h
      by_cases hk : r.kind = .mutate
      · simp only [replayFirst, replayRecords, hk, ↓reduceIte]
        cases store.readPage r.pageId with
        | error e => rfl
        | ok page =>
          cases hw : store.writePage
              { page with body := if r.txId ∈ committed then r.after else r.before } with
          | error e => simp only [hw]
          | ok store1 => simpa only [hw] using ih hle store1
      · simp only [replayFirst, replayRecords, hk, ↓reduceIte]
        exact ih (Nat.le_succ_of_le hle) store

theorem crashedReplay_all (wal : Option Bytes) (store : FileStore) :
    crashedReplay (loggedRecords wal).length wal store = (replayWal wal store).2 := by
  cases wal with
  | none => rfl
  | some bytes =>
    cases hr : readLog bytes with
    | error e => simp only [crashedReplay, replayWal, hr]
    | ok records =>
      simp only [crashedReplay, replayWal, loggedRecords, hr]
      exact replayFirst_all _ (Nat.le_refl _) store

/-- Recovery from the log can be cut off and repeated. -/
structure Repeatable (wal : Option Bytes) (store : FileStore) : Prop where
  /-- A whole replay after a crash behind any number of page writes. -/
  resumed : ∀ k, replayWal wal (crashedReplay k wal store) = replayWal wal store
  repeated : replayWal wal (replayWal wal store).2 = replayWal wal store
  finished : (∀ bytes, wal = some bytes → ∃ records, readLog bytes = .ok records) →
    (replayWal wal store).1 = .ok ()
  /-- The body of a named page is decided by the log. -/
  bodies : ∀ p, Named (loggedRecords wal) p → ∃ image page,
    lastImage (committedTx (loggedRecords wal)) p (loggedRecords wal) = some image ∧
      (replayWal wal store).2.readPage p = .ok page ∧ page.body = image.take store.bodySize
  others : ∀ p, ¬ Named (loggedRecords wal) p →
    (replayWal wal store).2.rawRead p = store.rawRead p ∧
      ∀ k, (crashedReplay k wal store).rawRead p = store.rawRead p
  headers : ∀ p page, store.readPage p = .ok page →
    (∃ body, (replayWal wal store).2.readPage p = .ok { page with body := body }) ∧
      ∀ k, ∃ body, (crashedReplay k wal store).readPage p = .ok { page with body := body }

/-- The pass can be run on what a crash left. -/
private theorem replayWal_crashed {wal : Option Bytes} {store : FileStore}
    (h : HoldsNamed wal store) (k : Nat) :
    replayWal wal (crashedReplay k wal store) = replayWal wal store := by
  obtain ⟨done, rest, hrec, hcrash⟩ := crashedReplay_imaged h k
  have hsmall := loggedRecords_small wal
  have hstay : HoldsNamed wal (crashedReplay k wal store) := by
    intro p hp
    rw [hcrash]
    refine holdsPage_imaged (fun r hr => hsmall r ?_) (h p hp)
    rw [hrec]
    exact List.mem_append_left _ hr
  have hstore : (replayWal wal (crashedReplay k wal store)).2 = (replayWal wal store).2 := by
    rw [replayWal_imaged hstay, replayWal_imaged h, hcrash]
    generalize hcom : committedTx (loggedRecords wal) = committed
    unfold HoldsNamed at h
    rw [hrec] at h ⊢
    exact imaged_imaged committed done rest h
  have hresult : (replayWal wal (crashedReplay k wal store)).1 = (replayWal wal store).1 := by
    unfold HoldsNamed at h hstay
    cases wal with
    | none => rfl
    | some bytes =>
      cases hr : readLog bytes with
      | error e => simp only [replayWal, hr]
      | ok records =>
        simp only [loggedRecords, hr] at hsmall h hstay
        simp only [replayWal, hr]
        rw [replayRecords_imaged _ hsmall h, replayRecords_imaged _ hsmall hstay]
  exact Prod.ext hresult hstore

theorem lastImage_of_named (committed : List Nat) {p : Nat} {records : List WalRecord}
    (h : Named records p) : ∃ image, lastImage committed p records = some image := by
  obtain ⟨r, hr, hk⟩ := h
  obtain ⟨before, after, rfl⟩ := List.append_of_mem hr
  rw [lastImage_append, lastImage]
  cases lastImage committed p after with
  | some image => exact ⟨image, rfl⟩
  | none =>
    simp only [if_pos hk, Option.some_or]
    exact ⟨_, rfl⟩

/-- **Recovery is repeatable.** For every log and every store that holds the pages it names. -/
theorem replay_repeatable (wal : Option Bytes) (store : FileStore) (h : HoldsNamed wal store) :
    Repeatable wal store := by
  have hsmall := loggedRecords_small wal
  have hsmall' : ∀ {done rest}, loggedRecords wal = done ++ rest → SmallImages done := by
    intro done rest hrec r hr
    apply hsmall r
    rw [hrec]
    exact List.mem_append_left _ hr
  have hothers : ∀ k p, ¬ Named (loggedRecords wal) p →
      (crashedReplay k wal store).rawRead p = store.rawRead p := by
    intro k p hp
    obtain ⟨done, rest, hrec, hcrash⟩ := crashedReplay_imaged h k
    rw [hcrash]
    by_cases hlt : p < store.file.length
    · rw [imaged_rawRead _ _ hlt]
      cases hl : lastImage (committedTx (loggedRecords wal)) p done with
      | none => rfl
      | some image =>
        obtain ⟨r, hr, hk⟩ := named_of_lastImage hl
        exact absurd ⟨r, by rw [hrec]; exact List.mem_append_left _ hr, hk⟩ hp
    · have hge := Nat.le_of_not_lt hlt
      simp [rawRead, List.getD_eq_getElem?_getD, imaged, hge]
  have hheaders : ∀ k p page, store.readPage p = .ok page →
      ∃ body, (crashedReplay k wal store).readPage p = .ok { page with body := body } := by
    intro k p page hread
    obtain ⟨done, rest, hrec, hcrash⟩ := crashedReplay_imaged h k
    rw [hcrash]
    have hraw := imaged_rawRead (committedTx (loggedRecords wal)) done (readPage_lt hread)
    cases hl : lastImage (committedTx (loggedRecords wal)) p done with
    | none =>
      rw [hl] at hraw
      exact ⟨page.body, by rw [readPage_congr hraw]; exact hread⟩
    | some image =>
      rw [hl] at hraw
      exact ⟨_, readPage_withBody hread (lastImage_small (hsmall' hrec) hl) hraw⟩
  constructor
  · exact replayWal_crashed h
  · have hr := replayWal_crashed h (loggedRecords wal).length
    rwa [crashedReplay_all] at hr
  · intro hread
    unfold HoldsNamed at h
    cases wal with
    | none => rfl
    | some bytes =>
      obtain ⟨records, hr⟩ := hread bytes rfl
      simp only [loggedRecords, hr] at hsmall h
      simp only [replayWal, hr]
      rw [replayRecords_imaged _ hsmall h]
  · intro p hp
    obtain ⟨image, hl⟩ := lastImage_of_named (committedTx (loggedRecords wal)) hp
    obtain ⟨page, hread, -⟩ := h p hp
    have hraw := imaged_rawRead (committedTx (loggedRecords wal)) (loggedRecords wal)
      (readPage_lt hread)
    rw [hl] at hraw
    refine ⟨image, { page with body := image.take store.bodySize }, hl, ?_, rfl⟩
    rw [replayWal_imaged h]
    exact readPage_withBody hread (lastImage_small hsmall hl) hraw
  · intro p hp
    refine ⟨?_, fun k => hothers k p hp⟩
    rw [← crashedReplay_all]
    exact hothers _ p hp
  · intro p page hread
    refine ⟨?_, fun k => hheaders k p page hread⟩
    rw [← crashedReplay_all]
    exact hheaders _ p page hread

/-- A page that one transaction commits and the next one leaves behind. -/
def recoveryHistory : List WalRecord :=
  [⟨1, 1, .mutate, 1, [1], [2, 2]⟩, ⟨2, 1, .txCommit, 0, [], []⟩, ⟨3, 2, .mutate, 1, [2, 2], [3]⟩]

def recoveryLog : Option Bytes := (encodeLog recoveryHistory).toOption

def recoveryStore : FileStore :=
  let raw := leBytes 4 1 ++ ([PageType.table.toByte] ++ (leBytes 4 7 ++ (leBytes 2 0 ++ zeros 501)))
  ⟨[zeros 512, raw], 512, 2, 0⟩

theorem replay_repeatable_undo : Repeatable recoveryLog recoveryStore := by
  apply replay_repeatable
  have hlog : loggedRecords recoveryLog = recoveryHistory := by decide +kernel
  have hpage : HoldsPage recoveryStore 1 := ⟨⟨1, .table, 7, []⟩, by decide +kernel, rfl⟩
  intro p hp
  rw [hlog] at hp
  obtain ⟨r, hr, hk, rfl⟩ := hp
  simp only [recoveryHistory, List.mem_cons, List.not_mem_nil, or_false] at hr
  obtain rfl | rfl | rfl := hr
  · exact hpage
  · cases hk
  · exact hpage

end TinyDB
