import TinyDB.IndexSize

/-!
# Index nodes on pages

`_write_node` and `_read_node` of `index.py`: a node is laid out in the body of an index page,
its keys behind their tags and lengths. `readNode_writeNode`: what fits a page is read back as
it was written, keys of all types included.
-/

namespace TinyDB

open Lib

namespace BPlusTree

/-! ## Reading a node -/

/-- `_decode_key`: the key at `offset` and the offset behind it. -/
def decodeKey (body : Bytes) (offset : Nat) : Except PyErr (Value × Nat) := do
  let tag ← unpackUint 1 (slice body offset (offset + 1))
  let length ← unpackUint 2 (slice body (offset + 1) (offset + 1 + 2))
  let payload := slice body (offset + 1 + 2) (offset + 1 + 2 + length)
  let offset := offset + 1 + 2 + length
  if tag = 2 then do
    let bits ← unpackUint 8 payload
    .ok (.float ⟨UInt64.ofNat bits⟩, offset)
  else if tag = 4 then do .ok (.bool (← decodeBool payload), offset)
  else if tag = 3 then do .ok (.text (← decodeUtf8 payload), offset)
  else .ok (.int (leInt payload), offset)

/-- The loop over the keys, each with its reference, and the offset behind them. -/
def decodeEntries (width : Nat) (body : Bytes) :
    Nat → Nat → Except PyErr (List Value × List Nat × Nat)
  | 0, offset => .ok ([], [], offset)
  | n + 1, offset => do
    let (key, offset) ← decodeKey body offset
    let ref ← unpackUint width (slice body offset (offset + width))
    let (keys, refs, offset) ← decodeEntries width body n (offset + width)
    .ok (key :: keys, ref :: refs, offset)

/-- `_read_node` on the body of its page. -/
def decodeNode (pageId : Nat) (body : Bytes) : Except PyErr (Node Value) := do
  let isLeaf ← unpackUint 1 (slice body 0 1)
  let keyCount ← unpackUint 2 (slice body 1 3)
  if isLeaf = 1 then do
    let (keys, values, offset) ← decodeEntries 8 body keyCount 3
    if offset + 8 ≤ body.length then do
      let nextLeaf ← unpackUint 8 (slice body offset (offset + 8))
      .ok ⟨pageId, true, keys, values, [], nextLeaf⟩
    else .ok ⟨pageId, true, keys, values, [], 0⟩
  else do
    let first ← unpackUint 4 (slice body 3 7)
    let (keys, children, _) ← decodeEntries 4 body keyCount 7
    .ok ⟨pageId, false, keys, [], first :: children, 0⟩

end BPlusTree

open BPlusTree

namespace FileStore

/-- `_write_node`. -/
def writeNode (store : FileStore) (node : Node Value) : Except PyErr FileStore := do
  let body ← encodeNode (fun key => key) node
  store.writePage ⟨node.pageId, .index, 0, body⟩

/-- `_read_node`. -/
def readNode (store : FileStore) (pageId : Nat) : Except PyErr (Node Value) := do
  let page ← store.readPage pageId
  decodeNode pageId page.body

end FileStore

namespace BPlusTree

/-! ## What can be written -/

/-- The keys that have an encoding. -/
def KeyFits : Value → Prop
  | .null => False
  | .int i => int64Min ≤ i ∧ i ≤ int64Max
  | .float _ => True
  | .bool _ => True
  | .text s => (encodeUtf8 s).length < 256 ^ 2

/-- The bytes of an encoded key. -/
def keySize : Value → Nat
  | .null => 3
  | .int _ => 11
  | .float _ => 11
  | .bool _ => 4
  | .text s => 3 + (encodeUtf8 s).length

/-- A leaf has a rowid for each key, an inner node a child more than keys; references fit their
fields, and the fields of the other kind are empty. -/
structure Shaped (node : Node Value) : Prop where
  leaf : node.isLeaf = true → node.values.length = node.keys.length ∧
    (∀ rowid ∈ node.values, rowid < 256 ^ 8) ∧ node.nextLeaf < 256 ^ 8 ∧ node.children = []
  inner : node.isLeaf = false → node.children.length = node.keys.length + 1 ∧
    (∀ child ∈ node.children, child < 256 ^ 4) ∧ node.values = [] ∧ node.nextLeaf = 0

/-- The bytes of an encoded node. -/
def nodeSize (node : Node Value) : Nat :=
  if node.isLeaf then 3 + (node.keys.map fun key => keySize key + 8).sum + 8
  else 7 + (node.keys.map fun key => keySize key + 4).sum

theorem keyPayload_ok {key : Value} (h : KeyFits key) :
    ∃ tag payload, keyPayload key = .ok (tag, payload) ∧ keySize key = 3 + payload.length ∧
      payload.length < 256 ^ 2 := by
  cases key with
  | null => cases h
  | int i =>
    have hrange : ¬ (i < int64Min ∨ int64Max < i) := fun ho =>
      ho.elim (Int.not_lt_of_ge h.1) (Int.not_lt_of_ge h.2)
    refine ⟨1, leBytesInt 8 i, if_neg hrange, ?_, ?_⟩
    · rw [leBytesInt_length]
      rfl
    · rw [leBytesInt_length]
      decide
  | float f =>
    refine ⟨2, leBytes 8 f.bits.toNat, rfl, ?_, ?_⟩
    · rw [leBytes_length]
      rfl
    · rw [leBytes_length]
      decide
  | bool b => exact ⟨4, [if b then 1 else 0], rfl, rfl, by simp⟩
  | text s => exact ⟨3, encodeUtf8 s, rfl, rfl, h⟩

theorem encodeKey_ok {key : Value} (h : KeyFits key) :
    ∃ raw, encodeKey key = .ok raw ∧ raw.length = keySize key := by
  obtain ⟨tag, payload, hpayload, hsize, hlt⟩ := keyPayload_ok h
  refine ⟨tag :: (leBytes 2 payload.length ++ payload), ?_, ?_⟩
  · simp only [encodeKey, hpayload, packUint_ok hlt, ok_bind]
  · rw [hsize, List.length_cons, List.length_append, leBytes_length]
    omega

theorem encodeEntries_ok {width : Nat} {keys : List Value} {refs : List Nat}
    (hlen : refs.length = keys.length) (hkeys : ∀ key ∈ keys, KeyFits key)
    (hrefs : ∀ ref ∈ refs, ref < 256 ^ width) :
    ∃ raw, encodeEntries width (fun key => key) keys refs = .ok raw ∧
      raw.length = (keys.map fun key => keySize key + width).sum := by
  induction keys generalizing refs with
  | nil => exact ⟨[], rfl, rfl⟩
  | cons key keys ih =>
    cases refs with
    | nil => cases hlen
    | cons ref refs =>
      obtain ⟨encoded, hencoded, hsize⟩ := encodeKey_ok (hkeys key List.mem_cons_self)
      obtain ⟨rest, hrest, hsum⟩ := ih (Nat.succ.inj hlen)
        (fun k hk => hkeys k (List.mem_cons_of_mem _ hk))
        fun r hr => hrefs r (List.mem_cons_of_mem _ hr)
      have href := packUint_ok (hrefs ref List.mem_cons_self)
      refine ⟨encoded ++ (leBytes width ref ++ rest), ?_, ?_⟩
      · simp only [encodeEntries, hencoded, href, hrest, ok_bind]
      · rw [List.length_append, List.length_append, leBytes_length, hsize, hsum, List.map_cons,
          List.sum_cons, Nat.add_assoc]

/-! ## The round trip -/

theorem decodeKey_encodeKey {key : Value} {raw : Bytes} (h : encodeKey key = .ok raw)
    (a c : Bytes) : decodeKey (a ++ (raw ++ c)) a.length = .ok (key, a.length + raw.length) := by
  simp only [encodeKey, bind_eq_ok, packUint_eq_ok, Except.ok.injEq] at h
  obtain ⟨⟨tag, payload⟩, hpayload, _, ⟨hlt, rfl⟩, rfl⟩ := h
  have h1 : slice (a ++ (tag :: (leBytes 2 payload.length ++ payload) ++ c)) a.length
      (a.length + 1) = [tag] :=
    slice_field a [tag] (leBytes 2 payload.length ++ payload ++ c) _ 1 rfl rfl
  have h2 : slice (a ++ (tag :: (leBytes 2 payload.length ++ payload) ++ c)) (a.length + 1)
      (a.length + 1 + 2) = leBytes 2 payload.length := by
    have := slice_field (a ++ [tag]) (leBytes 2 payload.length) (payload ++ c) (a.length + 1) 2
      (by simp) (by simp)
    simpa using this
  have h3 : slice (a ++ (tag :: (leBytes 2 payload.length ++ payload) ++ c)) (a.length + 1 + 2)
      (a.length + 1 + 2 + payload.length) = payload := by
    have := slice_field (a ++ ([tag] ++ leBytes 2 payload.length)) payload c (a.length + 1 + 2)
      payload.length (by simp) rfl
    simpa using this
  have htag : unpackUint 1 [tag] = .ok tag.toNat := by
    rw [unpackUint_eq_ok]
    exact ⟨rfl, by simp [leNat]⟩
  have hlen : (tag :: (leBytes 2 payload.length ++ payload)).length = 1 + 2 + payload.length := by
    rw [List.length_cons, List.length_append, leBytes_length]
    omega
  rw [decodeKey, h1, htag, ok_bind, h2, unpackUint_leBytes hlt, ok_bind, h3, hlen]
  simp only [Nat.add_assoc]
  cases key with
  | null => cases hpayload
  | int i =>
    rw [keyPayload] at hpayload
    split at hpayload
    · cases hpayload
    · rename_i hrange
      cases hpayload
      have hback : leInt (leBytesInt 8 i) = i := by
        simp only [int64Min, int64Max, not_or, Int.not_lt] at hrange
        apply leInt_leBytesInt <;> omega
      rw [hback]
      rfl
  | float f =>
    cases hpayload
    have hbits : unpackUint 8 (leBytes 8 f.bits.toNat) = .ok f.bits.toNat :=
      unpackUint_leBytes f.bits.toNat_lt
    rw [hbits]
    simp only [ok_bind, UInt64.ofNat_toNat]
    rfl
  | bool b =>
    cases hpayload
    cases b <;> rfl
  | text s =>
    cases hpayload
    rw [decodeUtf8_encodeUtf8]
    rfl

theorem decodeEntries_encodeEntries {width : Nat} {keys : List Value} {refs : List Nat}
    {raw : Bytes} (h : encodeEntries width (fun key => key) keys refs = .ok raw)
    (hlen : refs.length = keys.length) (a c : Bytes) :
    decodeEntries width (a ++ (raw ++ c)) keys.length a.length =
      .ok (keys, refs, a.length + raw.length) := by
  induction keys generalizing refs raw a with
  | nil =>
    cases h
    rw [List.length_eq_zero_iff.mp hlen]
    rfl
  | cons key keys ih =>
    cases refs with
    | nil => cases hlen
    | cons ref refs =>
      simp only [encodeEntries, bind_eq_ok, packUint_eq_ok, Except.ok.injEq] at h
      obtain ⟨encoded, hencoded, _, ⟨hlt, rfl⟩, rest, hrest, rfl⟩ := h
      have h1 := decodeKey_encodeKey hencoded a (leBytes width ref ++ (rest ++ c))
      have h2 : slice (a ++ (encoded ++ (leBytes width ref ++ (rest ++ c))))
          (a.length + encoded.length) (a.length + encoded.length + width) = leBytes width ref := by
        rw [← List.append_assoc]
        exact slice_field (a ++ encoded) (leBytes width ref) (rest ++ c) _ width (by simp) (by simp)
      have h3 := ih hrest (Nat.succ.inj hlen) (a ++ (encoded ++ leBytes width ref))
      simp only [List.append_assoc, List.length_append, leBytes_length, ← Nat.add_assoc] at h1 h2 h3 ⊢
      simp only [List.length_cons, decodeEntries, h1, ok_bind, h2, unpackUint_leBytes hlt, h3]

/-- The two fields in front of a node. -/
theorem decodeNode_head (flag : UInt8) {n : Nat} (hn : n < 256 ^ 2) (rest : Bytes) :
    unpackUint 1 (slice (flag :: (leBytes 2 n ++ rest)) 0 1) = .ok flag.toNat ∧
      unpackUint 2 (slice (flag :: (leBytes 2 n ++ rest)) 1 3) = .ok n := by
  constructor
  · rw [unpackUint_eq_ok]
    exact ⟨rfl, by simp [slice, leNat]⟩
  · rw [show slice (flag :: (leBytes 2 n ++ rest)) 1 3 = leBytes 2 n from
      slice_field [flag] (leBytes 2 n) rest 1 2 rfl (leBytes_length ..).symm]
    exact unpackUint_leBytes hn

theorem decodeNode_leaf {pageId nextLeaf : Nat} {keys : List Value} {values : List Nat}
    {entries : Bytes} (hcount : keys.length < 256 ^ 2) (hlen : values.length = keys.length)
    (hnext : nextLeaf < 256 ^ 8)
    (hentries : encodeEntries 8 (fun key => key) keys values = .ok entries) :
    decodeNode pageId (1 :: (leBytes 2 keys.length ++ (entries ++ leBytes 8 nextLeaf))) =
      .ok ⟨pageId, true, keys, values, [], nextLeaf⟩ := by
  obtain ⟨hflag, hkeys⟩ := decodeNode_head 1 hcount (entries ++ leBytes 8 nextLeaf)
  have hback := decodeEntries_encodeEntries hentries hlen (1 :: leBytes 2 keys.length)
    (leBytes 8 nextLeaf)
  rw [List.cons_append, List.length_cons, leBytes_length] at hback
  have hlast : slice (1 :: (leBytes 2 keys.length ++ (entries ++ leBytes 8 nextLeaf)))
      (3 + entries.length) (3 + entries.length + 8) = leBytes 8 nextLeaf := by
    have hfield := slice_field (1 :: (leBytes 2 keys.length ++ entries)) (leBytes 8 nextLeaf) []
      (3 + entries.length) 8 (by simp; omega) (leBytes_length ..).symm
    simpa using hfield
  have hsize : 3 + entries.length + 8 ≤
      (1 :: (leBytes 2 keys.length ++ (entries ++ leBytes 8 nextLeaf))).length := by
    simp only [List.length_cons, List.length_append, leBytes_length]
    omega
  have hone : (1 : UInt8).toNat = 1 := rfl
  simp only [decodeNode, hflag, hkeys, ok_bind, hone, if_true, hback, if_pos hsize, hlast,
    unpackUint_leBytes hnext]

theorem decodeNode_inner {pageId first : Nat} {keys : List Value} {children : List Nat}
    {entries : Bytes} (hcount : keys.length < 256 ^ 2) (hlen : children.length = keys.length)
    (hfirst : first < 256 ^ 4)
    (hentries : encodeEntries 4 (fun key => key) keys children = .ok entries) :
    decodeNode pageId (0 :: (leBytes 2 keys.length ++ (leBytes 4 first ++ entries))) =
      .ok ⟨pageId, false, keys, [], first :: children, 0⟩ := by
  obtain ⟨hflag, hkeys⟩ := decodeNode_head 0 hcount (leBytes 4 first ++ entries)
  have hback := decodeEntries_encodeEntries hentries hlen
    (0 :: (leBytes 2 keys.length ++ leBytes 4 first)) []
  rw [List.append_nil, List.cons_append, List.append_assoc, List.length_cons, List.length_append,
    leBytes_length, leBytes_length] at hback
  have hchild : slice (0 :: (leBytes 2 keys.length ++ (leBytes 4 first ++ entries))) 3 7 =
      leBytes 4 first :=
    slice_field (0 :: leBytes 2 keys.length) (leBytes 4 first) entries 3 4
      (by rw [List.length_cons, leBytes_length]) (leBytes_length ..).symm
  have hzero : ¬ (0 : UInt8).toNat = 1 := by decide
  simp only [decodeNode, hflag, hkeys, ok_bind, if_neg hzero, hchild, unpackUint_leBytes hfirst,
    hback]

/-- The layout of either kind of node is read back. -/
theorem decodeNode_encodeNode {node : Node Value} (hshape : Shaped node)
    (hkeys : ∀ key ∈ node.keys, KeyFits key) (hcount : node.keys.length < 256 ^ 2) :
    ∃ raw, encodeNode (fun key => key) node = .ok raw ∧ raw.length = nodeSize node ∧
      decodeNode node.pageId raw = .ok node := by
  obtain ⟨pageId, isLeaf, keys, values, children, nextLeaf⟩ := node
  cases isLeaf with
  | true =>
    obtain ⟨hlen, hvalues, hnext, rfl⟩ := hshape.leaf rfl
    obtain ⟨entries, hentries, hsize⟩ := encodeEntries_ok hlen hkeys hvalues
    refine ⟨_, ?_, ?_, decodeNode_leaf hcount hlen hnext hentries⟩
    · simp only [encodeNode, packUint_ok hcount, packUint_ok hnext, hentries, ok_bind, if_true]
    · simp only [nodeSize, if_true, List.length_cons, List.length_append, leBytes_length, hsize]
      omega
  | false =>
    obtain ⟨hlen, hchildren, rfl, rfl⟩ := hshape.inner rfl
    cases children with
    | nil => cases hlen
    | cons first children =>
      have hfirst := hchildren first List.mem_cons_self
      obtain ⟨entries, hentries, hsize⟩ := encodeEntries_ok (Nat.succ.inj hlen) hkeys
        fun child hchild => hchildren child (List.mem_cons_of_mem _ hchild)
      refine ⟨_, ?_, ?_, decodeNode_inner hcount (Nat.succ.inj hlen) hfirst hentries⟩
      · simp only [encodeNode, packUint_ok hcount, packUint_ok hfirst, hentries, ok_bind,
          Bool.false_eq_true, if_false]
      · simp only [nodeSize, Bool.false_eq_true, if_false, List.length_cons, List.length_append,
          leBytes_length, hsize]
        omega

/-- A page holds fewer keys than the count field can say. -/
theorem length_le_nodeSize (node : Node Value) : node.keys.length ≤ nodeSize node := by
  have hsum : ∀ width, 0 < width → ∀ keys : List Value,
      keys.length ≤ (keys.map fun key => keySize key + width).sum := by
    intro width hpos keys
    induction keys with
    | nil => exact Nat.le_refl _
    | cons key keys ih =>
      rw [List.length_cons, List.map_cons, List.sum_cons]
      omega
  rw [nodeSize]
  split
  · have := hsum 8 (by decide) node.keys
    omega
  · have := hsum 4 (by decide) node.keys
    omega

/-- **Nodes on pages.** Every node that fits the body of a page is read back as it was
written. -/
theorem readNode_writeNode (store : FileStore) (hstore : store.Sized) (node : Node Value)
    (hid : node.pageId < 256 ^ 4) (hshape : Shaped node)
    (hkeys : ∀ key ∈ node.keys, KeyFits key) (hfits : nodeSize node ≤ store.bodySize) :
    ∃ store', store.writeNode node = .ok store' ∧ store'.readNode node.pageId = .ok node := by
  have hcount : node.keys.length < 256 ^ 2 :=
    Nat.lt_of_le_of_lt ((length_le_nodeSize node).trans hfits) hstore.bodySize_lt
  obtain ⟨raw, hraw, hsize, hback⟩ := decodeNode_encodeNode hshape hkeys hcount
  have hpage : store.Fits ⟨node.pageId, .index, 0, raw⟩ :=
    ⟨hid, by simp, hsize.trans_le hfits⟩
  obtain ⟨store', hwrite, hread⟩ := hpage.writePage hstore
  refine ⟨store', ?_, ?_⟩
  · rw [FileStore.writeNode, hraw]
    exact hwrite
  · have hread' : store'.readPage node.pageId = .ok ⟨node.pageId, .index, 0, raw⟩ := hread
    rw [FileStore.readNode, hread']
    exact hback

/-- A leaf with a key of each type. -/
def fourKeys : Node Value :=
  ⟨3, true, [.bool true, .float ⟨0x7FF8000000000000⟩, .int (-5), .text "é"], [7, 0, 1, 2], [], 9⟩

theorem readNode_fourKeys : ∃ store',
    FileStore.writeNode ⟨[zeros 512], 512, 1, 0⟩ fourKeys = .ok store' ∧
      store'.readNode 3 = .ok fourKeys := by
  refine readNode_writeNode _ ⟨by decide, ?_⟩ fourKeys (by decide) ⟨fun _ => ?_, nofun⟩ ?_ ?_
  · intro raw hraw
    rw [List.mem_singleton.mp hraw, zeros_length]
  · exact ⟨rfl, by decide, by decide, rfl⟩
  · simp only [fourKeys, List.forall_mem_cons]
    exact ⟨trivial, trivial, ⟨by decide, by decide⟩, show (encodeUtf8 "é").length < 256 ^ 2 by decide, nofun⟩
  · decide

end BPlusTree

end TinyDB
