import TinyDB.CloseReopen
import TinyDB.Lib.DictRel

/-!
# Where the rows of a table lie

A CREATE TABLE takes the first free page or the next one of the file, so the page of a
table depends on everything that happened before. No statement shows it. `Shows`: two
databases have the same tables in the same order, each with the same body on a page of
its own. `results_shows`: then every list of statements returns and raises the same on both.
-/

namespace TinyDB

open Lib FileStore

/-! ## Tables on their pages -/

/-- Every table has a page of its own, which is neither the header page nor free. -/
structure Lodged (store : FileStore) (catalog : Catalog) (ps : List Nat) : Prop where
  sound : store.Sound
  header : ∃ head body, Header store head body
  free : FreeList store ps
  roots : (catalog.entries.values.map TableMeta.rootPageId).Nodup
  root : ∀ e ∈ catalog.entries.values,
    e.rootPageId ≠ 0 ∧ e.rootPageId < store.file.length ∧ e.rootPageId ∉ ps

theorem Intact.lodged {store : FileStore} {catalog : Catalog} {head : Nat} {body : Bytes}
    {ps : List Nat} (h : Intact store catalog head body ps) : Lodged store catalog ps :=
  ⟨h.sound, ⟨head, body, h.header⟩, h.free, h.owns.roots, h.owns.root⟩

section

variable {store store' : FileStore} {catalog : Catalog} {ps : List Nat} {name : String}
  {entry : TableMeta}

theorem Lodged.mem (hg : catalog.entries.get? name = some entry) :
    entry ∈ catalog.entries.values :=
  OrdDict.mem_values.mpr ⟨name, (OrdDict.get?_eq_some_iff _ _ _).mp hg⟩

/-- No two tables share a page. -/
theorem Lodged.root_inj (h : Lodged store catalog ps) {other : String} {entry' : TableMeta}
    (hg : catalog.entries.get? name = some entry) (hg' : catalog.entries.get? other = some entry')
    (hr : entry.rootPageId = entry'.rootPageId) : name = other := by
  have hroots : (catalog.entries.entries.map fun e => e.2.rootPageId).Nodup := by
    have h' := h.roots
    rwa [OrdDict.values, List.map_map] at h'
  exact congrArg Prod.fst (List.inj_on_of_nodup_map hroots
    ((OrdDict.get?_eq_some_iff _ _ _).mp hg) ((OrdDict.get?_eq_some_iff _ _ _).mp hg') hr)

/-- A write to the page of a table. -/
theorem Lodged.writesOnly (h : Lodged store catalog ps) {pid : Nat}
    (hw : WritesOnly pid store store') (h0 : pid ≠ 0) (hp : pid ∉ ps) :
    Lodged store' catalog ps where
  sound := sameExcept_sound h.sound hw.same hw.readable
  header := by
    obtain ⟨head, body, hh⟩ := h.header
    exact ⟨head, body, hh.congr hw.same.pageSize (hw.same.rawRead 0 fun e => h0 e.symm)⟩
  free := h.free.congr (Nat.le_of_eq hw.same.length.symm) hw.same.freeHead fun p hm =>
    hw.same.rawRead p fun e => hp (e ▸ hm)
  roots := h.roots
  root := by
    rw [hw.same.length]
    exact h.root

/-- A write of the catalog. -/
theorem Lodged.flush (h : Lodged store catalog ps) (hf : catalog.flush store = .ok store') :
    Lodged store' catalog ps ∧ SameExcept 0 store store' := by
  obtain ⟨head, body, hh⟩ := h.header
  cases he : encodeCatalog catalog.entries.values with
  | error e =>
    simp only [Catalog.flush, he, error_bind, reduceCtorEq] at hf
  | ok raw =>
    rcases Nat.lt_or_ge (catalogOffset + 4 + raw.length) (256 ^ 2) with hlt | hge
    · obtain ⟨store1, tail, hflush, hh', hs', hsame⟩ :=
        flush_spec catalog hh h.sound hh.file_pos he hlt
      rw [hflush, Except.ok.injEq] at hf
      subst hf
      refine ⟨⟨hs', ⟨_, _, hh'⟩, ?_, h.roots, ?_⟩, hsame⟩
      · exact h.free.congr (Nat.le_of_eq hsame.length.symm) hsame.freeHead fun p hm =>
          hsame.rawRead p (h.free.mem hm).1
      · rw [hsame.length]
        exact h.root
    · rw [flush_large catalog hh he hge] at hf
      cases hf

/-- A new table on the page that was allocated for it. -/
theorem Lodged.alloc (h : Lodged store catalog ps)
    (hroom : ps ≠ [] ∨ store.pageCount < 256 ^ 4) (hnew : catalog.entries.get? name = none)
    (columns : Schema) :
    ∃ pid store', allocPage store .table = (.ok pid, store') ∧
      Allocated store store' .table pid ∧ (∀ e ∈ catalog.entries.values, e.rootPageId ≠ pid) ∧
      (pid ∈ ps ∨ store.file.length ≤ pid) ∧
      Lodged store' ⟨catalog.entries.set name { name, rootPageId := pid, schema := columns }⟩
        (ps.drop 1) := by
  obtain ⟨head, body, hh⟩ := h.header
  rcases allocPage_spec h.sound .table h.free hh.file_pos with
    ⟨pid, store', halloc, hal, hfree, hplace⟩ | ⟨hnone, hmax, -⟩
  swap
  · exact absurd hroom (not_or.mpr ⟨not_not_intro hnone, by omega⟩)
  have hother : ∀ e ∈ catalog.entries.values, e.rootPageId ≠ pid := by
    intro e he hr
    obtain ⟨-, hlt, hfr⟩ := h.root e he
    rcases hplace with ⟨rest, rfl, -⟩ | ⟨-, hpid, -⟩
    · exact hfr (by rw [hr]; exact List.mem_cons_self ..)
    · have hcount := h.sound.count
      omega
  have hvals := OrdDict.set_new_values catalog.entries name
    { name, rootPageId := pid, schema := columns } hnew
  have hfresh : pid ∈ ps ∨ store.file.length ≤ pid := by
    rcases hplace with ⟨rest, rfl, -⟩ | ⟨-, hpid, -⟩
    · exact Or.inl (List.mem_cons_self ..)
    · have hcount := h.sound.count
      omega
  refine ⟨pid, store', halloc, hal, hother, hfresh, hal.sound, ⟨head, body,
    hh.congr hal.pageSize (hal.frame 0 fun e => hal.pos e.symm)⟩, hfree, ?_, ?_⟩
  · rw [hvals, List.map_append, List.nodup_append]
    refine ⟨h.roots, List.nodup_singleton _, ?_⟩
    intro a ha b hb
    obtain ⟨e, he, rfl⟩ := List.mem_map.mp ha
    rw [List.map_singleton, List.mem_singleton] at hb
    rw [hb]
    exact hother e he
  · intro e he
    rw [hvals, List.mem_append, List.mem_singleton] at he
    rcases he with he | rfl
    · obtain ⟨h0, hlt, hfr⟩ := h.root e he
      exact ⟨h0, Nat.lt_of_lt_of_le hlt hal.grows, fun hm => hfr (List.mem_of_mem_drop hm)⟩
    · refine ⟨hal.pos, hal.lt, ?_⟩
      rcases hplace with ⟨rest, rfl, -⟩ | ⟨rfl, -⟩
      · exact (List.nodup_cons.mp h.free.nodup).1
      · exact List.not_mem_nil

/-- A table that goes, and its page on the free list. -/
theorem Lodged.release (h : Lodged store catalog ps) (hg : catalog.entries.get? name = some entry) :
    ∃ store', freePage store entry.rootPageId = .ok store' ∧
      store'.pageSize = store.pageSize ∧ store'.pageCount = store.pageCount ∧
      (∀ i, i ≠ entry.rootPageId → store'.rawRead i = store.rawRead i) ∧
      (∀ e ∈ (catalog.entries.erase name).values, e.rootPageId ≠ entry.rootPageId) ∧
      Lodged store' ⟨catalog.entries.erase name⟩ (entry.rootPageId :: ps) := by
  obtain ⟨h0, hlt, hfr⟩ := h.root entry (Lodged.mem hg)
  obtain ⟨head, body, hh⟩ := h.header
  obtain ⟨store', hfreed, hs', hsize, hcount, hlen, hfree, hframe⟩ :=
    freePage_spec h.sound h.free h0 hlt hfr
  have hsub : (catalog.entries.erase name).values.Sublist catalog.entries.values :=
    (OrdDict.remove_sublist name catalog.entries.entries).map Prod.snd
  have hother : ∀ e ∈ (catalog.entries.erase name).values, e.rootPageId ≠ entry.rootPageId := by
    intro e he hr
    obtain ⟨k, hk⟩ := OrdDict.mem_values.mp he
    rw [OrdDict.mem_erase] at hk
    exact hk.1 (h.root_inj ((OrdDict.get?_eq_some_iff _ _ _).mpr hk.2) hg hr)
  refine ⟨store', hfreed, hsize, hcount, hframe, hother, hs', ⟨head, body, hh.congr hsize
    (hframe 0 fun e => h0 e.symm)⟩, hfree, h.roots.sublist (hsub.map _), fun e he => ?_⟩
  obtain ⟨h0', hlt', hfr'⟩ := h.root e (hsub.subset he)
  refine ⟨h0', by rw [hlen]; exact hlt', ?_⟩
  rw [List.mem_cons, not_or]
  exact ⟨hother e he, hfr'⟩

end

/-! ## The same body on two pages -/

/-- Page `q` of `t` has the body of page `p` of `s`. -/
def SameBody (s t : FileStore) (p q : Nat) : Prop :=
  ∃ a b, s.readPage p = .ok a ∧ t.readPage q = .ok b ∧ b.body = a.body

/-- The same table, perhaps on another page. -/
structure Moved (s t : FileStore) (e e' : TableMeta) : Prop where
  entry : e' = e.onPage e'.rootPageId
  body : SameBody s t e.rootPageId e'.rootPageId

section

variable {s t s' t' : FileStore} {p q : Nat} {e e' : TableMeta}

theorem SameBody.congr (h : SameBody s t p q) (hs : s'.rawRead p = s.rawRead p)
    (ht : t'.rawRead q = t.rawRead q) : SameBody s' t' p q := by
  obtain ⟨a, b, ha, hb, hab⟩ := h
  exact ⟨a, b, (readPage_congr hs).trans ha, (readPage_congr ht).trans hb, hab⟩

theorem Moved.congr (h : Moved s t e e') (hs : s'.rawRead e.rootPageId = s.rawRead e.rootPageId)
    (ht : t'.rawRead e'.rootPageId = t.rawRead e'.rootPageId) : Moved s' t' e e' :=
  ⟨h.entry, h.body.congr hs ht⟩

theorem Moved.schema (h : Moved s t e e') : e'.schema = e.schema := by rw [h.entry]; rfl

theorem Moved.name (h : Moved s t e e') : e'.name = e.name := by rw [h.entry]; rfl

theorem Moved.trans {u : FileStore} {e'' : TableMeta} (h : Moved s t e e') (h' : Moved t u e' e'') :
    Moved s u e e'' := by
  obtain ⟨a, b, ha, hb, hab⟩ := h.body
  obtain ⟨b', c, hb', hc, hbc⟩ := h'.body
  obtain rfl := Except.ok.inj (hb.symm.trans hb')
  exact ⟨by rw [h'.entry, h.entry]; rfl, a, c, ha, hc, hbc.trans hab⟩

theorem Moved.scan (h : Moved s t e e') : e'.heap.scan t = e.heap.scan s := by
  obtain ⟨a, b, ha, hb, hab⟩ := h.body
  have ha' : s.readPage e.heap.rootPageId = .ok a := ha
  have hb' : t.readPage e'.heap.rootPageId = .ok b := hb
  have hschema : e'.heap.schema = e.heap.schema := h.schema
  simp only [Heap.scan, ha', hb', ok_bind, hab, hschema]

/-- The two stores of a statement that writes one table: since the start only its page changed,
on either side, and the two bodies agree. -/
structure Beside (s₀ t₀ : FileStore) (p q : Nat) (s t : FileStore) : Prop where
  left : WritesOnly p s₀ s
  right : WritesOnly q t₀ t
  pageSize : t.pageSize = s.pageSize
  body : SameBody s t p q

theorem writePage_long {page : Page} (hid : page.pageId < 256 ^ 4) (hlsn : page.lsn < 256 ^ 4)
    (hbody : 256 ^ 2 ≤ page.body.length) : s.writePage page = .error .structError := by
  have hlen : packUint 2 page.body.length = .error .structError := if_neg (by omega)
  simp only [writePage, packHeader, packUint_ok hid, packUint_ok hlsn, hlen, ok_bind, error_bind]

/-- The same body is written over both pages. -/
theorem Beside.rewrite {s₀ t₀ : FileStore} (h : Beside s₀ t₀ p q s t) {a b : Page}
    (ha : s.readPage p = .ok a) (hb : t.readPage q = .ok b) (body : Bytes) :
    Lockstep (Beside s₀ t₀ p q) (s.writePage { a with body := body })
      (t.writePage { b with body := body }) := by
  obtain ⟨hida, hlsna⟩ := readPage_bounds ha
  obtain ⟨hidb, hlsnb⟩ := readPage_bounds hb
  rcases Nat.lt_or_ge body.length (256 ^ 2) with hlt | hge
  · obtain ⟨s', hs'⟩ := writePage_ok s { a with body := body } hida hlsna hlt
    obtain ⟨t', ht'⟩ := writePage_ok t { b with body := body } hidb hlsnb hlt
    have hpa := h.left.readable.pageId ha
    have hpb := h.right.readable.pageId hb
    have hreads := readPage_writePage hs'
      (by simp only [hpa]; exact Nat.le_of_lt (readPage_lt ha)) p
    have hreadt := readPage_writePage ht'
      (by simp only [hpb]; exact Nat.le_of_lt (readPage_lt hb)) q
    rw [if_pos hpa.symm] at hreads
    rw [if_pos hpb.symm] at hreadt
    have hleft := writesOnly_writePage h.left.readable ha hs'
    have hright := writesOnly_writePage h.right.readable hb ht'
    have hsize : t.bodySize = s.bodySize := by simp only [bodySize, h.pageSize]
    rw [hs', ht']
    exact Lockstep.ok ⟨h.left.trans hleft, h.right.trans hright,
      by rw [hright.same.pageSize, hleft.same.pageSize, h.pageSize],
      _, _, hreads, hreadt, by simp only [hsize]⟩
  · have hs : s.writePage { a with body := body } = .error .structError :=
      writePage_long hida hlsna hge
    have ht : t.writePage { b with body := body } = .error .structError :=
      writePage_long hidb hlsnb hge
    rw [hs, ht]
    exact Lockstep.error _

theorem Beside.writeBack {s₀ t₀ : FileStore} (h : Beside s₀ t₀ p q s t) {a b : Page}
    (ha : s.readPage p = .ok a) (hb : t.readPage q = .ok b) (body : Option Bytes) :
    Lockstep (Beside s₀ t₀ p q) (Heap.writeBack s a body) (Heap.writeBack t b body) := by
  cases body with
  | none => exact Lockstep.ok h
  | some body => exact h.rewrite ha hb body

theorem paired_beside (s₀ t₀ : FileStore) (entry : TableMeta) (root : Nat) :
    Paired (Beside s₀ t₀ entry.rootPageId root) entry root where
  scan s t h := (⟨rfl, h.body⟩ : Moved s t entry (entry.onPage root)).scan
  append s t values h := by
    obtain ⟨a, b, ha, hb, hab⟩ := h.body
    have ha' : s.readPage entry.heap.rootPageId = .ok a := ha
    have hb' : t.readPage (entry.onPage root).heap.rootPageId = .ok b := hb
    simp only [Heap.append, ha', hb', ok_bind, hab]
    refine Lockstep.bind_same _ fun appended _ => ?_
    exact (h.rewrite ha hb appended.2).bind fun _ _ hst => Lockstep.ok hst
  update s t rowid values h := by
    obtain ⟨a, b, ha, hb, hab⟩ := h.body
    have ha' : s.readPage entry.heap.rootPageId = .ok a := ha
    have hb' : t.readPage (entry.onPage root).heap.rootPageId = .ok b := hb
    simp only [Heap.update, ha', hb', ok_bind, hab]
    exact Lockstep.bind_same _ fun body _ => h.writeBack ha hb body
  delete s t rowid h := by
    obtain ⟨a, b, ha, hb, hab⟩ := h.body
    have ha' : s.readPage entry.heap.rootPageId = .ok a := ha
    have hb' : t.readPage (entry.onPage root).heap.rootPageId = .ok b := hb
    simp only [Heap.delete, ha', hb', ok_bind, hab]
    exact Lockstep.bind_same _ fun body _ => h.writeBack ha hb body

end

/-! ## CREATE TABLE and DROP TABLE -/

/-- Two stores with catalogs that have the same tables, perhaps on other pages. -/
structure Placed (s : FileStore) (c : Catalog) (t : FileStore) (d : Catalog) : Prop where
  pageSize : t.pageSize = s.pageSize
  tables : OrdDict.Rel (Moved s t) c.entries d.entries
  left : ∃ ps, Lodged s c ps
  right : ∃ ps, Lodged t d ps

section

variable {s t : FileStore} {c d : Catalog} {name : String}

/-- A table is in neither catalog or in both. -/
theorem Placed.find (h : Placed s c t d) (name : String) :
    (c.entries.get? name = none ∧ d.entries.get? name = none) ∨
      ∃ e e', c.entries.get? name = some e ∧ d.entries.get? name = some e' ∧ Moved s t e e' :=
  h.tables.get? name

theorem Placed.getTable (h : Placed s c t d) (name : String) :
    Lockstep (Moved s t) (c.getTable name) (d.getTable name) := by
  rcases h.find name with ⟨hc, hd⟩ | ⟨e, e', hc, hd, hm⟩
  · simp only [Catalog.getTable, hc, hd]
    exact Lockstep.error _
  · simp only [Catalog.getTable, hc, hd]
    exact Lockstep.ok hm

/-- A root page number takes four bytes, whatever it is. -/
theorem encodeEntries_moved {es es' : List TableMeta}
    (h : List.Forall₂ (fun e e' => e' = e.onPage e'.rootPageId ∧ e.rootPageId < 256 ^ 4 ∧
      e'.rootPageId < 256 ^ 4) es es') :
    Lockstep (fun a b : Bytes => b.length = a.length) (encodeEntries es) (encodeEntries es') := by
  induction h with
  | nil => exact Lockstep.ok rfl
  | @cons e e' es es' he _ ih =>
    obtain ⟨hmoved, hlt, hlt'⟩ := he
    have hone : Lockstep (fun a b : Bytes => b.length = a.length)
        (encodeEntry e) (encodeEntry e') := by
      have hname : e'.name = e.name := by rw [hmoved]; rfl
      have hschema : e'.schema = e.schema := by rw [hmoved]; rfl
      simp only [encodeEntry, hname, hschema, packUint_ok hlt, packUint_ok hlt', ok_bind]
      refine Lockstep.bind_same _ fun bytes _ => Lockstep.bind_same _ fun count _ =>
        Lockstep.bind_same _ fun columns _ => Lockstep.ok ?_
      simp only [List.length_append, leBytes_length]
    exact hone.bind fun a b hab => ih.bind fun a' b' hab' => Lockstep.ok (by
      rw [List.length_append, List.length_append, hab, hab'])

theorem encodeCatalog_moved {es es' : List TableMeta}
    (h : List.Forall₂ (fun e e' => e' = e.onPage e'.rootPageId ∧ e.rootPageId < 256 ^ 4 ∧
      e'.rootPageId < 256 ^ 4) es es') :
    Lockstep (fun a b : Bytes => b.length = a.length) (encodeCatalog es) (encodeCatalog es') := by
  rw [encodeCatalog, encodeCatalog, ← h.length_eq]
  exact Lockstep.bind_same _ fun count _ => (encodeEntries_moved h).bind fun a b hab =>
    Lockstep.ok (by rw [List.length_append, List.length_append, hab])

theorem Lodged.root_lt {ps : List Nat} (h : Lodged s c ps) {e : TableMeta}
    (he : e ∈ c.entries.values) : e.rootPageId < 256 ^ 4 := h.sound.id_lt (h.root e he).2.1

theorem Placed.values (h : Placed s c t d) :
    List.Forall₂ (fun e e' => e' = e.onPage e'.rootPageId ∧ e.rootPageId < 256 ^ 4 ∧
      e'.rootPageId < 256 ^ 4) c.entries.values d.entries.values := by
  obtain ⟨ps, hs⟩ := h.left
  obtain ⟨qs, ht⟩ := h.right
  refine OrdDict.Rel.values (h.tables.imp fun k v w hv hw hm => ?_)
  exact ⟨hm.entry, hs.root_lt (OrdDict.mem_values.mpr ⟨k, hv⟩),
    ht.root_lt (OrdDict.mem_values.mpr ⟨k, hw⟩)⟩

/-- The catalog is written on both sides or on neither. -/
theorem Placed.flush (h : Placed s c t d) :
    Lockstep (fun s' t' => Placed s' c t' d) (c.flush s) (d.flush t) := by
  obtain ⟨ps, hs⟩ := h.left
  obtain ⟨qs, ht⟩ := h.right
  obtain ⟨head, body, hh⟩ := hs.header
  obtain ⟨head', body', hh'⟩ := ht.header
  have hboth : Lockstep (fun _ _ => True) (c.flush s) (d.flush t) := by
    have hraw := encodeCatalog_moved h.values
    generalize hx : encodeCatalog c.entries.values = x at hraw
    generalize hy : encodeCatalog d.entries.values = y at hraw
    cases hraw with
    | error e =>
      simp only [Catalog.flush, hx, hy, error_bind]
      exact Lockstep.error e
    | @ok a b hab =>
      rcases Nat.lt_or_ge (catalogOffset + 4 + a.length) (256 ^ 2) with hlt | hge
      · obtain ⟨s', _, hfs, -⟩ := flush_spec c hh hs.sound hh.file_pos hx hlt
        obtain ⟨t', _, hft, -⟩ := flush_spec d hh' ht.sound hh'.file_pos hy (by rw [hab]; exact hlt)
        rw [hfs, hft]
        exact Lockstep.ok trivial
      · rw [flush_large c hh hx hge, flush_large d hh' hy (by rw [hab]; exact hge), hab]
        exact Lockstep.error _
  refine hboth.with fun s' t' hfs hft _ => ?_
  obtain ⟨hs', hsame⟩ := hs.flush hfs
  obtain ⟨ht', hsame'⟩ := ht.flush hft
  refine ⟨by rw [hsame'.pageSize, hsame.pageSize, h.pageSize], h.tables.imp fun k v w hv hw hm => ?_,
    ⟨ps, hs'⟩, qs, ht'⟩
  exact hm.congr (hsame.rawRead _ (hs.root v (OrdDict.mem_values.mpr ⟨k, hv⟩)).1)
    (hsame'.rawRead _ (ht.root w (OrdDict.mem_values.mpr ⟨k, hw⟩)).1)

/-- The same result, and tables that are placed alike. -/
def PlacedOutcome (x y : Except PyErr Unit × Catalog × FileStore) : Prop :=
  y.1 = x.1 ∧ Placed x.2.2 x.2.1 y.2.2 y.2.1

/-- The last step of CREATE TABLE and of DROP TABLE. -/
private theorem Placed.flushed (h : Placed s c t d) :
    PlacedOutcome
      (match c.flush s with
        | .error e => (.error e, c, s)
        | .ok s => (.ok (), c, s) : Except PyErr Unit × Catalog × FileStore)
      (match d.flush t with
        | .error e => (.error e, d, t)
        | .ok t => (.ok (), d, t)) := by
  have hflush := h.flush
  generalize c.flush s = x at hflush
  generalize d.flush t = y at hflush
  cases hflush with
  | ok hst => exact ⟨rfl, hst⟩
  | error e => exact ⟨rfl, h⟩

theorem Placed.createTable (h : Placed s c t d) (hs : s.pageCount < 256 ^ 4)
    (ht : t.pageCount < 256 ^ 4) (name : String) (columns : Schema) :
    PlacedOutcome (c.createTable s name columns) (d.createTable t name columns) := by
  rcases h.find name with ⟨hc, hd⟩ | ⟨e, e', hc, hd, -⟩
  swap
  · have hhas : c.entries.contains name = true := by rw [OrdDict.contains, hc]; rfl
    have hhas' : d.entries.contains name = true := by rw [OrdDict.contains, hd]; rfl
    simp only [Catalog.createTable, hhas, hhas', ↓reduceIte]
    exact ⟨rfl, h⟩
  have hhas : c.entries.contains name = false := by rw [OrdDict.contains, hc]; rfl
  have hhas' : d.entries.contains name = false := by rw [OrdDict.contains, hd]; rfl
  obtain ⟨ps, hl⟩ := h.left
  obtain ⟨qs, hr⟩ := h.right
  obtain ⟨pid, s', hallocs, hals, hothers, -, hl'⟩ := hl.alloc (Or.inr hs) hc columns
  obtain ⟨qid, t', halloct, halt, hothert, -, hr'⟩ := hr.alloc (Or.inr ht) hd columns
  simp only [Catalog.createTable, hhas, hhas', Bool.false_eq_true, ↓reduceIte, hallocs, halloct]
  refine Placed.flushed ⟨by rw [halt.pageSize, hals.pageSize, h.pageSize], ?_, ⟨_, hl'⟩, _, hr'⟩
  refine OrdDict.Rel.set (h.tables.imp fun k v w hv hw hm => ?_) name
    ⟨rfl, _, _, hals.read, halt.read, rfl⟩
  exact hm.congr (hals.frame _ (hothers v (OrdDict.mem_values.mpr ⟨k, hv⟩)))
    (halt.frame _ (hothert w (OrdDict.mem_values.mpr ⟨k, hw⟩)))

theorem Placed.dropTable (h : Placed s c t d) (name : String) :
    PlacedOutcome (c.dropTable s name) (d.dropTable t name) := by
  rcases h.find name with ⟨hc, hd⟩ | ⟨e, e', hc, hd, -⟩
  · simp only [Catalog.dropTable, hc, hd]
    exact ⟨rfl, h⟩
  obtain ⟨ps, hl⟩ := h.left
  obtain ⟨qs, hr⟩ := h.right
  obtain ⟨s', hfs, hsizes, -, hframes, hothers, hl'⟩ := hl.release hc
  obtain ⟨t', hft, hsizet, -, hframet, hothert, hr'⟩ := hr.release hd
  simp only [Catalog.dropTable, hc, hd, hfs, hft]
  refine Placed.flushed ⟨by rw [hsizet, hsizes, h.pageSize], ?_, ⟨_, hl'⟩, _, hr'⟩
  refine (OrdDict.Rel.erase h.tables name).imp fun k v w hv hw hm => ?_
  exact hm.congr (hframes _ (hothers v (OrdDict.mem_values.mpr ⟨k, hv⟩)))
    (hframet _ (hothert w (OrdDict.mem_values.mpr ⟨k, hw⟩)))

theorem Placed.dropTables (h : Placed s c t d) (names : List String) :
    PlacedOutcome (dropTables c s names) (dropTables d t names) := by
  induction names generalizing s c t d with
  | nil => exact ⟨rfl, h⟩
  | cons name names ih =>
    have hone := h.dropTable name
    simp only [TinyDB.dropTables]
    generalize c.dropTable s name = x at hone
    generalize d.dropTable t name = y at hone
    obtain ⟨result, c', s'⟩ := x
    obtain ⟨result', d', t'⟩ := y
    obtain ⟨rfl, hplaced⟩ := hone
    cases result' with
    | error e => exact ⟨rfl, hplaced⟩
    | ok u => exact ih hplaced

end

/-! ## SELECT and EXPLAIN -/

section

variable {s t : FileStore} {c d : Catalog}

theorem Placed.findColumnType (h : Placed s c t d) (name : String) (table : Option String) :
    findColumnType d name table = findColumnType c name table := by
  cases table with
  | none => rfl
  | some table =>
    have htable := h.getTable table
    simp only [TinyDB.findColumnType]
    generalize c.getTable table = x at htable ⊢
    generalize d.getTable table = y at htable ⊢
    cases htable with
    | ok hm => simp only [hm.schema]
    | error e => rfl

theorem Placed.checkJoin (h : Placed s c t d) (join : JoinClause) :
    checkJoinTypeCompatibility join d = checkJoinTypeCompatibility join c := by
  have htype : ∀ e, columnTypeOf d e = columnTypeOf c e := by
    intro e
    cases e with
    | column name => rfl
    | qualifiedColumn table name =>
      cases table with
      | none => rfl
      | some table => exact h.findColumnType name (some table)
    | _ => rfl
  simp only [checkJoinTypeCompatibility, htype]

theorem Moved.scanTable {e e' : TableMeta} (h : Moved s t e e') :
    scanTable t e' = scanTable s e := by
  have hscan : Heap.scan ⟨e'.rootPageId, e.schema⟩ t = Heap.scan ⟨e.rootPageId, e.schema⟩ s := by
    have hmoved := h.scan
    rwa [TableMeta.heap, h.schema] at hmoved
  simp only [TinyDB.scanTable, h.schema, hscan]

theorem Placed.joinAll (h : Placed s c t d) (joins : List JoinClause) (rows : List RowDict) :
    joinAll t d rows joins = joinAll s c rows joins := by
  induction joins generalizing rows with
  | nil => rfl
  | cons join joins ih =>
    have hone : execNestedLoopJoin t d rows join = execNestedLoopJoin s c rows join := by
      have htable := h.getTable (resolveTableName join)
      simp only [execNestedLoopJoin]
      generalize c.getTable (resolveTableName join) = x at htable ⊢
      generalize d.getTable (resolveTableName join) = y at htable ⊢
      cases htable with
      | ok hm => simp only [ok_bind, hm.scanTable, hm.schema]
      | error e => rfl
    simp only [TinyDB.joinAll, h.checkJoin, hone, ih]

theorem Placed.ambiguousColumns (h : Placed s c t d) (tables : List String) :
    ambiguousColumns d tables = ambiguousColumns c tables := by
  unfold TinyDB.ambiguousColumns
  generalize (([], []) : List String × List String) = seen
  induction tables generalizing seen with
  | nil => rfl
  | cons table tables ih =>
    rw [List.foldl_cons, List.foldl_cons, ih]
    have htable := h.getTable table
    generalize c.getTable table = x at htable ⊢
    generalize d.getTable table = y at htable ⊢
    cases htable with
    | ok hm => simp only [hm.schema]
    | error e => rfl

theorem Placed.execSelect (h : Placed s c t d) {e e' : TableMeta} (hm : Moved s t e e')
    (stmt : Select) (project : Bool) :
    execSelect t d e' stmt project = execSelect s c e stmt project := by
  have hscan : Heap.scan ⟨e'.rootPageId, e.schema⟩ t = Heap.scan ⟨e.rootPageId, e.schema⟩ s := by
    have hmoved := hm.scan
    rwa [TableMeta.heap, hm.schema] at hmoved
  simp only [TinyDB.execSelect, execSingleTable, execJoinPath, hm.scanTable, hm.schema, hm.name,
    hscan, h.ambiguousColumns, h.joinAll]

theorem Placed.planScan (h : Placed s c t d) (table : String) (cond : Option Expr) :
    IndexPlanner.planScan table cond d = IndexPlanner.planScan table cond c := by
  have htable := h.getTable table
  simp only [IndexPlanner.planScan]
  generalize c.getTable table = x at htable ⊢
  generalize d.getTable table = y at htable ⊢
  cases htable with
  | ok hm =>
    rw [hm.entry]
    rfl
  | error e => rfl

theorem Placed.planSelect (h : Placed s c t d) (stmt : Select) :
    IndexPlanner.planSelect stmt d = IndexPlanner.planSelect stmt c := by
  have hjoin : ∀ left join,
      IndexPlanner.planJoin left join d = IndexPlanner.planJoin left join c := by
    intro left join
    have htable := h.getTable join.table
    simp only [IndexPlanner.planJoin, h.planScan]
    generalize c.getTable join.table = x at htable ⊢
    generalize d.getTable join.table = y at htable ⊢
    cases htable with
    | ok hm =>
      rw [hm.entry]
      rfl
    | error e => rfl
  have hjoins : ∀ joins root,
      IndexPlanner.planJoins d root joins = IndexPlanner.planJoins c root joins := by
    intro joins
    induction joins with
    | nil => exact fun _ => rfl
    | cons join joins ih =>
      intro root
      simp only [IndexPlanner.planJoins, hjoin, ih]
  simp only [IndexPlanner.planSelect, h.planScan, hjoins]

end

/-! ## Whole databases -/

/-- The second database shows the tables of the first and judges rows by the same constraints.
Those of a `stale` name may differ as long as no table has it. -/
structure Shows (stale : List String) (db db' : Database) : Prop where
  placed : Placed db.store db.catalog db'.store db'.catalog
  constraints : ∀ table, db.catalog.entries.contains table = true ∨ table ∉ stale →
    db'.constraints.get? table = db.constraints.get? table

section

variable {stale : List String} {db db' : Database}

theorem Shows.tables (h : Shows stale db db') : db'.listTables = db.listTables :=
  h.placed.tables.keys

theorem Shows.tableRows (h : Shows stale db db') (table : String) :
    db'.tableRows table = db.tableRows table := by
  have htable := h.placed.getTable table
  simp only [Database.tableRows]
  generalize db.catalog.getTable table = x at htable ⊢
  generalize db'.catalog.getTable table = y at htable ⊢
  cases htable with
  | ok hm => exact hm.scan
  | error e => rfl

/-- One table was written on both sides. -/
theorem Shows.written (h : Shows stale db db') {table : String} {e e' : TableMeta}
    (hg : db.catalog.entries.get? table = some e) (hg' : db'.catalog.entries.get? table = some e')
    {s t : FileStore} (hst : Beside db.store db'.store e.rootPageId e'.rootPageId s t) :
    Shows stale { db with store := s } { db' with store := t } := by
  obtain ⟨ps, hl⟩ := h.placed.left
  obtain ⟨qs, hr⟩ := h.placed.right
  obtain ⟨h0, -, hp⟩ := hl.root e (Lodged.mem hg)
  obtain ⟨h0', -, hq⟩ := hr.root e' (Lodged.mem hg')
  refine ⟨⟨hst.pageSize, h.placed.tables.imp fun k v w hv hw hm => ?_,
    ⟨ps, hl.writesOnly hst.left h0 hp⟩, qs, hr.writesOnly hst.right h0' hq⟩, h.constraints⟩
  have hv' := (OrdDict.get?_eq_some_iff _ _ _).mpr hv
  have hw' := (OrdDict.get?_eq_some_iff _ _ _).mpr hw
  by_cases hk : k = table
  · subst hk
    obtain rfl : v = e := Option.some.inj (hv'.symm.trans hg)
    obtain rfl : w = e' := Option.some.inj (hw'.symm.trans hg')
    exact ⟨hm.entry, hst.body⟩
  · exact hm.congr (hst.left.same.rawRead _ fun he => hk (hl.root_inj hv' hg he))
      (hst.right.same.rawRead _ fun he => hk (hr.root_inj hw' hg' he))

theorem Shows.beside (h : Shows stale db db') {e e' : TableMeta}
    (hm : Moved db.store db'.store e e') :
    Beside db.store db'.store e.rootPageId e'.rootPageId db.store db'.store := by
  obtain ⟨ps, hl⟩ := h.placed.left
  obtain ⟨qs, hr⟩ := h.placed.right
  exact ⟨WritesOnly.refl _ hl.sound.toReadable, WritesOnly.refl _ hr.sound.toReadable,
    h.placed.pageSize, hm.body⟩

/-- One statement on one table, on the two sides. -/
private theorem Shows.outcome (h : Shows stale db db') {table : String} {e e' : TableMeta}
    (hg : db.catalog.entries.get? table = some e) (hg' : db'.catalog.entries.get? table = some e')
    {α : Type} {x y : Except PyErr α × FileStore} (f : α → Database.Result)
    (hxy : OutcomeBy (Beside db.store db'.store e.rootPageId e'.rootPageId) x y) :
    y.1.map f = x.1.map f ∧ Shows stale { db with store := x.2 } { db' with store := y.2 } :=
  ⟨by rw [hxy.1], h.written hg hg' hxy.2⟩

private theorem Shows.dml (h : Shows stale db db') {table : String} {e e' : TableMeta}
    (hg : db.catalog.entries.get? table = some e) (hm : Moved db.store db'.store e e') :
    Paired (Beside db.store db'.store e.rootPageId e'.rootPageId) e e'.rootPageId ∧
      Beside db.store db'.store e.rootPageId e'.rootPageId db.store db'.store ∧
      db'.tableConstraints table = db.tableConstraints table := by
  have hcon := h.constraints table (Or.inl (by rw [OrdDict.contains, hg]; rfl))
  exact ⟨paired_beside _ _ e _, h.beside hm, by simp only [Database.tableConstraints, hcon]⟩

theorem Shows.dispatchSelect (h : Shows stale db db') (stmt : Select) :
    db'.dispatchSelect stmt = db.dispatchSelect stmt := by
  have htable := h.placed.getTable stmt.table
  simp only [Database.dispatchSelect]
  generalize db.catalog.getTable stmt.table = x at htable ⊢
  generalize db'.catalog.getTable stmt.table = y at htable ⊢
  cases htable with
  | ok hm => simp only [ok_bind, h.placed.execSelect hm]
  | error e => rfl

theorem Shows.execExplain (h : Shows stale db db') (stmt : Statement) :
    Database.execExplain db'.catalog stmt = Database.execExplain db.catalog stmt := by
  cases stmt with
  | select stmt => simp only [Database.execExplain, h.placed.planSelect]
  | _ => rfl

end

/-! ## One statement -/

theorem writePage_pageCount {s s' : FileStore} {page : Page} (h : s.writePage page = .ok s') :
    s'.pageCount = s.pageCount := by
  obtain ⟨head, -, rfl⟩ := writePage_eq_ok.mp h
  rfl

theorem flush_keeps_pageCount {s s' : FileStore} {c : Catalog} (h : c.flush s = .ok s') :
    s'.pageCount = s.pageCount := by
  simp only [Catalog.flush, bind_eq_ok] at h
  obtain ⟨raw, -, page, -, body, -, hw⟩ := h
  exact writePage_pageCount hw

theorem allocPage_pageCount (s : FileStore) (type : PageType) :
    (allocPage s type).2.pageCount ≤ s.pageCount + 1 := by
  unfold allocPage
  simp only
  split
  · split
    · exact Nat.le_succ _
    · split
      · exact Nat.le_succ _
      · rename_i hw
        rw [writePage_pageCount hw]
        exact Nat.le_succ _
  · split
    · exact Nat.le_refl _
    · rename_i hw
      rw [writePage_pageCount hw]

/-- A CREATE TABLE adds its own name and no other, and at most one page. -/
theorem createTable_adds (s : FileStore) (c : Catalog) (name : String) (columns : Schema) :
    (c.createTable s name columns).2.2.pageCount ≤ s.pageCount + 1 ∧
      ∀ table, table ≠ name →
        (c.createTable s name columns).2.1.entries.contains table = c.entries.contains table := by
  unfold Catalog.createTable
  split
  · exact ⟨Nat.le_succ _, fun _ _ => rfl⟩
  · have halloc := allocPage_pageCount s .table
    generalize allocPage s .table = x at halloc ⊢
    rcases x with ⟨e | pid, s1⟩
    · exact ⟨halloc, fun _ _ => rfl⟩
    · have hset : ∀ table, table ≠ name → ∀ entry : TableMeta,
          (c.entries.set name entry).contains table = c.entries.contains table := by
        intro table hne entry
        simp only [OrdDict.contains, OrdDict.get?_set, hne.symm, ↓reduceIte]
      simp only
      split
      · exact ⟨halloc, fun table hne => hset table hne _⟩
      · rename_i s2 hflush
        rw [flush_keeps_pageCount hflush]
        exact ⟨halloc, fun table hne => hset table hne _⟩

theorem dropTable_removes (s : FileStore) (c : Catalog) (name : String) :
    (c.dropTable s name).2.2.pageCount = s.pageCount ∧
      ∀ table, (c.dropTable s name).2.1.entries.contains table = true →
        c.entries.contains table = true := by
  have herase : ∀ table, (c.entries.erase name).contains table = true →
      c.entries.contains table = true := by
    intro table h
    rw [OrdDict.contains_iff] at h ⊢
    exact (OrdDict.remove_sublist name c.entries.entries).map Prod.fst |>.subset h
  unfold Catalog.dropTable
  cases c.entries.get? name with
  | none => exact ⟨rfl, fun _ h => h⟩
  | some entry =>
    simp only
    split
    · exact ⟨rfl, herase⟩
    · rename_i s1 hfree
      have hcount : s1.pageCount = s.pageCount := by
        simp only [freePage] at hfree
        split at hfree
        · cases hfree
        · simp only [bind_eq_ok, Except.ok.injEq] at hfree
          obtain ⟨_, -, _, -, rfl⟩ := hfree
          rfl
      split
      · exact ⟨hcount, herase⟩
      · rename_i s2 hflush
        exact ⟨(flush_keeps_pageCount hflush).trans hcount, herase⟩

theorem dropTables_removes (s : FileStore) (c : Catalog) (names : List String) :
    (dropTables c s names).2.2.pageCount = s.pageCount ∧
      ∀ table, (dropTables c s names).2.1.entries.contains table = true →
        c.entries.contains table = true := by
  induction names generalizing s c with
  | nil => exact ⟨rfl, fun _ h => h⟩
  | cons name names ih =>
    have hone := dropTable_removes s c name
    simp only [dropTables]
    generalize c.dropTable s name = x at hone ⊢
    rcases x with ⟨e | u, d, t⟩
    · exact hone
    · obtain ⟨hcount, hrest⟩ := ih t d
      exact ⟨hcount.trans hone.1, fun table h => hone.2 table (hrest table h)⟩

/-- A statement adds at most one page. -/
theorem execute_pageCount {db : Database} (h : db.store.Readable) (stmt : Statement) :
    (db.execute stmt).2.store.pageCount ≤ db.store.pageCount + 1 := by
  cases stmt with
  | createTable stmt =>
    rw [Database.execute_createTable]
    simp only [execCreateTable]
    cases resolveColumns stmt.columns with
    | error e => exact Nat.le_succ _
    | ok columns => exact (createTable_adds db.store db.catalog stmt.name columns).1
  | dropTable stmt =>
    rw [Database.execute_dropTable]
    exact Nat.le_succ_of_le (Nat.le_of_eq (dropTables_removes _ _ _).1)
  | insert stmt =>
    cases hg : db.catalog.getTable stmt.table with
    | error e =>
      simp only [Database.execute, Database.dispatch, Database.dispatchInsert, hg]
      exact Nat.le_succ _
    | ok entry =>
      rw [Database.execute_insert stmt hg]
      exact Nat.le_succ_of_le
        (Nat.le_of_eq (writesOnly_execInsert h entry _ _ _).same.pageCount)
  | update stmt =>
    cases hg : db.catalog.getTable stmt.table with
    | error e =>
      simp only [Database.execute, Database.dispatch, Database.dispatchUpdate, hg]
      exact Nat.le_succ _
    | ok entry =>
      rw [Database.execute_update stmt hg]
      exact Nat.le_succ_of_le (Nat.le_of_eq (writesOnly_execUpdate h entry _ _).same.pageCount)
  | delete stmt =>
    cases hg : db.catalog.getTable stmt.table with
    | error e =>
      simp only [Database.execute, Database.dispatch, Database.dispatchDelete, hg]
      exact Nat.le_succ _
    | ok entry =>
      rw [Database.execute_delete stmt hg]
      exact Nat.le_succ_of_le (Nat.le_of_eq (writesOnly_execDelete h entry _).same.pageCount)
  | begin =>
    simp only [Database.execute, Database.dispatch, Database.dispatchBegin]
    cases db.tx.begin <;> exact Nat.le_succ _
  | _ => exact Nat.le_succ _

def createOf : Statement → Option CreateTable
  | .createTable create => some create
  | _ => none

/-- A CREATE TABLE of a stale name that raises leaves no new table behind. -/
def CreatesCleanly (stale : List String) (db : Database) (stmt : Statement) : Prop :=
  ∀ create ∈ createOf stmt, create.name ∈ stale →
    (db.execute stmt).1.isOk = true ∨ (db.execute stmt).2.listTables = db.listTables

instance CreatesCleanly.instDecidable (stale : List String) (db : Database) (stmt : Statement) :
    Decidable (CreatesCleanly stale db stmt) := by
  unfold CreatesCleanly
  infer_instance

section

variable {stale : List String} {db db' : Database}

/-- A table that is there after a statement was there before or is the one it creates. -/
theorem contains_execute (db : Database) (stmt : Statement) {table : String}
    (h : (db.execute stmt).2.catalog.entries.contains table = true) :
    db.catalog.entries.contains table = true ∨ ∃ create ∈ createOf stmt, create.name = table := by
  by_cases hname : ∃ create ∈ createOf stmt, create.name = table
  · exact Or.inr hname
  refine Or.inl ?_
  rcases db.execute_cases stmt with ⟨store, he⟩ | ⟨create, rfl⟩ | ⟨drop, rfl⟩ | ⟨-, tx, he⟩ | rfl
  · rwa [he] at h
  · have hne : table ≠ create.name := fun he => hname ⟨create, rfl, he.symm⟩
    rw [Database.execute_createTable] at h
    simp only [execCreateTable] at h
    cases hcols : resolveColumns create.columns with
    | error e => rwa [hcols] at h
    | ok columns =>
      rw [hcols] at h
      rwa [(createTable_adds db.store db.catalog create.name columns).2 table hne] at h
  · rw [Database.execute_dropTable] at h
    exact (dropTables_removes _ _ _).2 table h
  · rwa [he] at h
  · exact h

/-- The constraints that matter stay the same. -/
theorem Shows.constraints_execute (h : Shows stale db db') {stmt : Statement}
    (hres : (db'.execute stmt).1 = (db.execute stmt).1) (hclean : CreatesCleanly stale db stmt)
    (table : String)
    (ht : (db.execute stmt).2.catalog.entries.contains table = true ∨ table ∉ stale) :
    (db'.execute stmt).2.constraints.get? table = (db.execute stmt).2.constraints.get? table := by
  rw [TinyDB.constraints_execute, TinyDB.constraints_execute, hres]
  by_cases hnew : ∃ create ∈ createOf stmt, create.name = table
  · obtain ⟨create, hcreate, rfl⟩ := hnew
    cases stmt with
    | createTable stmt =>
      obtain rfl : stmt = create := Option.some.inj hcreate
      simp only
      split
      · rfl
      · rename_i hnot
        refine h.constraints _ ?_
        by_cases hstale : stmt.name ∈ stale
        · refine Or.inl ?_
          have hok : ¬ (db.execute (.createTable stmt)).1.isOk = true :=
            fun hok => hnot ⟨hok, trivial⟩
          have hsame : (db.execute (.createTable stmt)).2.catalog.entries.keys =
              db.catalog.entries.keys := (hclean stmt rfl hstale).resolve_left hok
          have hafter := ht.resolve_right (not_not_intro hstale)
          rw [OrdDict.contains_iff] at hafter ⊢
          rwa [hsame] at hafter
        · exact Or.inr hstale
    | _ => cases hcreate
  · have hold := h.constraints table (ht.imp_left fun ha =>
      (contains_execute db stmt ha).resolve_right hnew)
    cases stmt with
    | createTable stmt =>
      have hne : ¬ stmt.name = table := fun he => hnew ⟨stmt, rfl, he⟩
      simpa only [hne, and_false, ↓reduceIte] using hold
    | _ => exact hold

/-- What a statement does to the tables, on the two sides. -/
private theorem Shows.step (h : Shows stale db db') (hroom : db.store.pageCount < 256 ^ 4)
    (hroom' : db'.store.pageCount < 256 ^ 4) (stmt : Statement)
    (hbegin : stmt = .begin → db'.tx.anyActive = db.tx.anyActive) :
    (db'.execute stmt).1 = (db.execute stmt).1 ∧
      Placed (db.execute stmt).2.store (db.execute stmt).2.catalog (db'.execute stmt).2.store
        (db'.execute stmt).2.catalog := by
  have hplaced := h.placed
  have hwrite : ∀ table, (∃ e, db.catalog.getTable table = .error e ∧
      db'.catalog.getTable table = .error e) ∨
      ∃ e e', db.catalog.entries.get? table = some e ∧ db'.catalog.entries.get? table = some e' ∧
        db.catalog.getTable table = .ok e ∧ db'.catalog.getTable table = .ok e' ∧
        Moved db.store db'.store e e' := by
    intro table
    rcases hplaced.find table with ⟨hc, hd⟩ | ⟨e, e', hc, hd, hm⟩
    · exact Or.inl ⟨.tableNotFound table, by simp only [Catalog.getTable, hc],
        by simp only [Catalog.getTable, hd]⟩
    · exact Or.inr ⟨e, e', hc, hd, getTable_eq_ok.mpr hc, getTable_eq_ok.mpr hd, hm⟩
  cases stmt with
  | createTable stmt =>
    have hout : PlacedOutcome (execCreateTable db.catalog db.store stmt)
        (execCreateTable db'.catalog db'.store stmt) := by
      simp only [execCreateTable]
      cases resolveColumns stmt.columns with
      | error e => exact ⟨rfl, hplaced⟩
      | ok columns => exact hplaced.createTable hroom hroom' stmt.name columns
    rw [Database.execute_createTable, Database.execute_createTable]
    exact ⟨by simp only [hout.1], hout.2⟩
  | dropTable stmt =>
    have hout := hplaced.dropTables stmt.names
    rw [Database.execute_dropTable, Database.execute_dropTable]
    exact ⟨by simp only [hout.1], hout.2⟩
  | insert stmt =>
    rcases hwrite stmt.table with ⟨e, hg, hg'⟩ | ⟨e, e', hc, hd, hg, hg', hm⟩
    · simp only [Database.execute, Database.dispatch, Database.dispatchInsert, hg, hg']
      exact ⟨trivial, hplaced⟩
    · obtain ⟨hpair, hbeside, hcon⟩ := h.dml hc hm
      have hout := hpair.execInsert hbeside stmt.columns stmt.values (db.tableConstraints stmt.table)
      rw [← hm.entry] at hout
      rw [Database.execute_insert stmt hg, Database.execute_insert stmt hg', hcon]
      obtain ⟨hres, hshows⟩ := h.outcome hc hd (fun _ => Database.rowsAffected 1) hout
      exact ⟨hres, hshows.placed⟩
  | update stmt =>
    rcases hwrite stmt.table with ⟨e, hg, hg'⟩ | ⟨e, e', hc, hd, hg, hg', hm⟩
    · simp only [Database.execute, Database.dispatch, Database.dispatchUpdate, hg, hg']
      exact ⟨trivial, hplaced⟩
    · obtain ⟨hpair, hbeside, -⟩ := h.dml hc hm
      have hout := hpair.execUpdate hbeside stmt.assignments stmt.where'
      rw [← hm.entry] at hout
      rw [Database.execute_update stmt hg, Database.execute_update stmt hg']
      obtain ⟨hres, hshows⟩ := h.outcome hc hd Database.rowsAffected hout
      exact ⟨hres, hshows.placed⟩
  | delete stmt =>
    rcases hwrite stmt.table with ⟨e, hg, hg'⟩ | ⟨e, e', hc, hd, hg, hg', hm⟩
    · simp only [Database.execute, Database.dispatch, Database.dispatchDelete, hg, hg']
      exact ⟨trivial, hplaced⟩
    · obtain ⟨hpair, hbeside, -⟩ := h.dml hc hm
      have hout := hpair.execDelete hbeside stmt.where'
      rw [← hm.entry] at hout
      rw [Database.execute_delete stmt hg, Database.execute_delete stmt hg']
      obtain ⟨hres, hshows⟩ := h.outcome hc hd Database.rowsAffected hout
      exact ⟨hres, hshows.placed⟩
  | select stmt =>
    simp only [Database.execute, Database.dispatch, h.dispatchSelect]
    exact ⟨trivial, hplaced⟩
  | explain stmt =>
    simp only [Database.execute, Database.dispatch, h.execExplain]
    exact ⟨trivial, hplaced⟩
  | begin =>
    simp only [Database.execute, Database.dispatch, Database.dispatchBegin, TxManager.begin,
      hbegin rfl]
    cases db.tx.anyActive with
    | true => exact ⟨rfl, hplaced⟩
    | false => exact ⟨rfl, hplaced⟩
  | _ => exact ⟨rfl, hplaced⟩

/-- **A statement does the same on both sides** and leaves them alike. -/
theorem execute_shows (h : Shows stale db db') (hroom : db.store.pageCount < 256 ^ 4)
    (hroom' : db'.store.pageCount < 256 ^ 4) {stmt : Statement}
    (hbegin : stmt = .begin → db'.tx.anyActive = db.tx.anyActive)
    (hclean : CreatesCleanly stale db stmt) :
    (db'.execute stmt).1 = (db.execute stmt).1 ∧
      Shows stale (db.execute stmt).2 (db'.execute stmt).2 := by
  obtain ⟨hres, hplaced⟩ := h.step hroom hroom' stmt hbegin
  exact ⟨hres, hplaced, h.constraints_execute hres hclean⟩

/-- Whether a transaction is open stays the same on both sides. -/
theorem active_execute (h : db'.tx.anyActive = db.tx.anyActive) (stmt : Statement) :
    (db'.execute stmt).2.tx.anyActive = (db.execute stmt).2.tx.anyActive := by
  by_cases hb : stmt = .begin
  · subst hb
    cases hact : db.tx.anyActive with
    | true => rw [db.execute_begin_active hact, db'.execute_begin_active (h.trans hact), h]
    | false => rw [db.execute_begin hact, db'.execute_begin (h.trans hact)]
  · rw [db.execute_tx stmt hb, db'.execute_tx stmt hb, h]

end

/-! ## Runs -/

/-- No CREATE TABLE of a stale name leaves a table behind when it raises. -/
def CleanRun (stale : List String) : Database → List Statement → Prop
  | _, [] => True
  | db, stmt :: stmts => CreatesCleanly stale db stmt ∧ CleanRun stale (db.execute stmt).2 stmts

instance CleanRun.instDecidable (stale : List String) :
    ∀ db stmts, Decidable (CleanRun stale db stmts)
  | _, [] => isTrue True.intro
  | db, stmt :: stmts =>
    @instDecidableAnd _ _ _ (CleanRun.instDecidable stale (db.execute stmt).2 stmts)

section

variable {stale : List String} {db db' : Database}

theorem cleanRun_nil (db : Database) (stmts : List Statement) : CleanRun [] db stmts := by
  induction stmts generalizing db with
  | nil => exact True.intro
  | cons stmt stmts ih => exact ⟨fun _ _ hm => absurd hm List.not_mem_nil, ih _⟩

theorem results_shows (h : Shows stale db db') {stmts : List Statement}
    (hbegin : .begin ∈ stmts → db'.tx.anyActive = db.tx.anyActive)
    (hroom : db.store.pageCount + stmts.length ≤ 256 ^ 4)
    (hroom' : db'.store.pageCount + stmts.length ≤ 256 ^ 4) (hclean : CleanRun stale db stmts) :
    db'.results stmts = db.results stmts ∧
      Shows stale (db.executeAll stmts) (db'.executeAll stmts) := by
  induction stmts generalizing db db' with
  | nil => exact ⟨rfl, h⟩
  | cons stmt stmts ih =>
    obtain ⟨hone, hrest⟩ := hclean
    rw [List.length_cons] at hroom hroom'
    obtain ⟨ps, hl⟩ := h.placed.left
    obtain ⟨qs, hr⟩ := h.placed.right
    obtain ⟨hres, hshows⟩ := execute_shows h (by omega) (by omega)
      (fun hb => hbegin (hb ▸ List.mem_cons_self ..)) hone
    have hcount := execute_pageCount hl.sound.toReadable stmt
    have hcount' := execute_pageCount hr.sound.toReadable stmt
    obtain ⟨hresults, hend⟩ := ih hshows
      (fun hb => active_execute (hbegin (List.mem_cons_of_mem _ hb)) stmt) (by omega) (by omega)
      hrest
    exact ⟨by rw [Database.results, Database.results, hres, hresults], hend⟩

end

/-! ## Databases that were made in different ways -/

/-- The tables in order, without their page numbers: what the catalog says and the body. -/
def Database.contents (db : Database) : List (String × TableMeta × Except PyErr Bytes) :=
  db.catalog.entries.entries.map fun e =>
    (e.1, e.2.onPage 0, (db.store.readPage e.2.rootPageId).map Page.body)

theorem rel_of_contents {db db' : Database} {ps qs : List Nat}
    (hl : Lodged db.store db.catalog ps) (hr : Lodged db'.store db'.catalog qs)
    (h : db'.contents = db.contents) :
    OrdDict.Rel (Moved db.store db'.store) db.catalog.entries db'.catalog.entries := by
  have hpairs : OrdDict.Rel (fun e e' => e'.onPage 0 = e.onPage 0 ∧
      (db'.store.readPage e'.rootPageId).map Page.body =
        (db.store.readPage e.rootPageId).map Page.body)
      db.catalog.entries db'.catalog.entries := by
    have hall := List.forall₂_eq_eq_eq ▸ h.symm
    rw [Database.contents, Database.contents, List.forall₂_map_left_iff,
      List.forall₂_map_right_iff] at hall
    refine hall.imp fun a b hab => ?_
    simp only [Prod.mk.injEq] at hab
    exact ⟨hab.1.symm, hab.2.1.symm, hab.2.2.symm⟩
  refine hpairs.imp fun k v w hv hw hvw => ?_
  obtain ⟨hentry, hbody⟩ := hvw
  obtain ⟨a, ha, -⟩ := hl.sound.page _ (hl.root v (OrdDict.mem_values.mpr ⟨k, hv⟩)).2.1
  obtain ⟨b, hb, -⟩ := hr.sound.page _ (hr.root w (OrdDict.mem_values.mpr ⟨k, hw⟩)).2.1
  rw [ha, hb] at hbody
  refine ⟨?_, a, b, ha, hb, Except.ok.inj hbody⟩
  calc w = (w.onPage 0).onPage w.rootPageId := rfl
    _ = (v.onPage 0).onPage w.rootPageId := by rw [hentry]
    _ = v.onPage w.rootPageId := rfl

/-- **Where the tables lie is not observed.** After whatever statements two connections ran on
files of their own, if the tables have the same contents then every later list of statements
returns and raises the same on both, and the tables have the same rows at the end. -/
theorem placement_unobserved (pageSize : Nat) (db : Database) (stmts stmts' later : List Statement)
    (stale : List String) (hopen : Database.openDatabase ⟨[], none⟩ pageSize = .ok db)
    (hcontents : (db.executeAll stmts').contents = (db.executeAll stmts).contents)
    (hconstraints : ∀ table, (db.executeAll stmts).catalog.entries.contains table = true ∨
      table ∉ stale →
      (db.executeAll stmts').constraints.get? table = (db.executeAll stmts).constraints.get? table)
    (hactive : (db.executeAll stmts').tx.anyActive = (db.executeAll stmts).tx.anyActive)
    (hroom : (db.executeAll stmts).store.pageCount + later.length ≤ 256 ^ 4)
    (hroom' : (db.executeAll stmts').store.pageCount + later.length ≤ 256 ^ 4)
    (hclean : CleanRun stale (db.executeAll stmts) later) :
    (db.executeAll stmts').results later = (db.executeAll stmts).results later ∧
      ((db.executeAll stmts').executeAll later).listTables =
        ((db.executeAll stmts).executeAll later).listTables ∧
      ∀ table, ((db.executeAll stmts').executeAll later).tableRows table =
        ((db.executeAll stmts).executeAll later).tableRows table := by
  have hleft := alone_executeAll (alone_new hopen) stmts
  have hright := alone_executeAll (alone_new hopen) stmts'
  obtain ⟨head, body, ps, hl⟩ := hleft.intact
  obtain ⟨head', body', qs, hr⟩ := hright.intact
  have hplaced : Placed (db.executeAll stmts).store (db.executeAll stmts).catalog
      (db.executeAll stmts').store (db.executeAll stmts').catalog :=
    ⟨by rw [hright.pageSize, hleft.pageSize], rel_of_contents hl.lodged hr.lodged hcontents,
      ⟨ps, hl.lodged⟩, qs, hr.lodged⟩
  obtain ⟨hresults, hend⟩ := results_shows (⟨hplaced, hconstraints⟩ : Shows stale _ _)
    (fun _ => hactive) hroom hroom' hclean
  exact ⟨hresults, hend.tables, hend.tableRows⟩

/-- A table before and after another one, which was dropped, then rows and a new table. -/
theorem placement_unobserved_drop :
    let create : String → Statement := fun name => .createTable ⟨name, [⟨"a", "INT", []⟩], false⟩
    let later : List Statement :=
      [.insert ⟨"t", none, [[.int 1]]⟩, create "u", .insert ⟨"u", none, [[.int 2]]⟩]
    ((Database.newDatabase []).executeAll
        [create "x", create "t", .dropTable ⟨["x"], false⟩]).results later =
      ((Database.newDatabase []).executeAll [create "t"]).results later := by
  intro create later
  refine (placement_unobserved 512 (Database.newDatabase []) [create "t"]
    [create "x", create "t", .dropTable ⟨["x"], false⟩] later ["x"] (by decide +kernel)
    (by decide +kernel) ?_ (by decide +kernel) (by decide +kernel) (by decide +kernel)
    (by decide +kernel)).1
  intro table htable
  have hne : table ≠ "x" := by
    rintro rfl
    revert htable
    decide +kernel
  have herase : ((Database.newDatabase []).executeAll
      [create "x", create "t", .dropTable ⟨["x"], false⟩]).constraints.erase "x" =
      ((Database.newDatabase []).executeAll [create "t"]).constraints := by decide +kernel
  rw [← herase, OrdDict.get?_erase, if_neg hne.symm]

end TinyDB
