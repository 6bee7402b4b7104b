import TinyDB.IndexMap
import TinyDB.Lib.Run
import TinyDB.Types

/-!
# How large nodes get

Splits and rebalancing keep every leaf between `minKeys` and `order`. A root
over leaves is never split, though, so it has no bound: `nodes_bounded_iff` says
that nodes keep their bounds along a run exactly as long as no insert splits a
leaf below a root that is full.
-/

namespace TinyDB.BPlusTree

open Lib

variable {κ : Type} [LinearOrder κ]

/-! ## Nodes of a tree -/

/-- The root, and what the links from it lead to. -/
inductive OnTree (tree : BPlusTree κ) : Node κ → Prop where
  | root (node : Node κ) : tree.readNode tree.rootPageId = some node → OnTree tree node
  | child (parent node : Node κ) (c : Nat) : OnTree tree parent → parent.isLeaf = false →
    c ∈ parent.children → tree.readNode c = some node → OnTree tree node

/-- No node has more than `order` keys, no leaf but the root fewer than `minKeys`. -/
def NodesBounded (tree : BPlusTree κ) : Prop :=
  ∀ node, tree.OnTree node → node.keys.length ≤ tree.order ∧
    (node.isLeaf = true → node.pageId ≠ tree.rootPageId → tree.minKeys ≤ node.keys.length)

/-- The call does not split a leaf whose parent has `order` keys already. -/
def RootHasRoom (tree : BPlusTree κ) : TreeOp κ → Prop
  | .insert key _ => ∀ leaf parent i path,
    tree.findLeafWithPath key = some (leaf, (parent, i) :: path) →
      key ∈ leaf.keys ∨ leaf.keys.length < tree.order ∨ parent.keys.length < tree.order
  | .delete _ => True

/-- One call; there is no tree left once one raised. -/
def treeStep (tree : Option (BPlusTree κ)) (op : TreeOp κ) : Option (BPlusTree κ) :=
  tree.bind fun tree => tree.call op

/-! ## Counts -/

/-- The number of keys in the leaves of a tree with room in its root. -/
structure Filled (order : Nat) (counts : List Nat) : Prop where
  room : counts.length ≤ order + 1
  most : ∀ n ∈ counts, n ≤ order
  least : counts.length ≠ 1 → ∀ n ∈ counts, max 1 (order / 2) ≤ n

theorem splitCounts_bounds {order n m : Nat} (ho : 1 ≤ order) (hn : n ≤ order)
    (hm : m ∈ splitCounts order (n + 1)) : m ≤ order ∧ (order ≤ n → max 1 (order / 2) ≤ m) := by
  unfold splitCounts at hm
  split at hm
  · rw [List.mem_singleton] at hm
    omega
  · simp only [List.mem_cons, List.not_mem_nil, or_false] at hm
    omega

theorem Filled.split {order n : Nat} {a b : List Nat} (ho : 1 ≤ order)
    (h : Filled order (a ++ n :: b))
    (hroom : n < order ∨ a.length + b.length + 2 ≤ order + 1) :
    Filled order (a ++ (splitCounts order (n + 1) ++ b)) := by
  have hn : n ≤ order := h.most n (by simp)
  have hlen := h.room
  rw [List.length_append, List.length_cons] at hlen
  refine ⟨?_, ?_, ?_⟩
  · unfold splitCounts
    split <;> simp only [List.length_append, List.length_cons, List.length_nil] <;> omega
  · intro m hm
    simp only [List.mem_append] at hm
    rcases hm with hm | hm | hm
    · exact h.most m (by simp [hm])
    · exact (splitCounts_bounds ho hn hm).1
    · exact h.most m (by simp [hm])
  · intro hone m hm
    have hold : a ≠ [] ∨ b ≠ [] → max 1 (order / 2) ≤ n ∧
        ∀ k ∈ a ++ b, max 1 (order / 2) ≤ k := by
      intro hab
      have hmany : (a ++ n :: b).length ≠ 1 := by
        rw [List.length_append, List.length_cons]
        rcases hab with hab | hab <;>
        · have := List.length_pos_iff.mpr hab
          omega
      refine ⟨h.least hmany n (by simp), fun k hk => h.least hmany k ?_⟩
      simp only [List.mem_append, List.mem_cons] at hk ⊢
      tauto
    simp only [List.mem_append] at hm
    rcases hm with hm | hm | hm
    · exact (hold (Or.inl (List.ne_nil_of_mem hm))).2 m (List.mem_append_left _ hm)
    · by_cases hfull : order ≤ n
      · exact (splitCounts_bounds ho hn hm).2 hfull
      · rw [splitCounts, if_pos (by omega)] at hone hm
        rw [List.mem_singleton] at hm
        simp only [List.length_append, List.length_cons, List.length_nil] at hone
        have hab : a ≠ [] ∨ b ≠ [] := by
          by_contra hnone
          rw [not_or, not_not, not_not] at hnone
          rw [hnone.1, hnone.2] at hone
          exact hone rfl
        have := (hold hab).1
        omega
    · exact (hold (Or.inr (List.ne_nil_of_mem hm))).2 m (List.mem_append_right _ hm)

/-- Replacing a stretch of counts by another one with the same bounds. -/
theorem Filled.replace {order : Nat} (a old new b : List Nat)
    (h : Filled order (a ++ (old ++ b)))
    (hlen : new.length ≤ old.length) (hmost : ∀ n ∈ new, n ≤ order)
    (hleast : (a ++ (old ++ b)).length ≠ 1 → ∀ n ∈ new, max 1 (order / 2) ≤ n) :
    Filled order (a ++ (new ++ b)) := by
  have hroom := h.room
  simp only [List.length_append] at hroom
  refine ⟨?_, ?_, ?_⟩
  · simp only [List.length_append]
    omega
  · intro n hn
    simp only [List.mem_append] at hn
    rcases hn with hn | hn | hn
    · exact h.most n (by simp [hn])
    · exact hmost n hn
    · exact h.most n (by simp [hn])
  · intro hone n hn
    by_cases hold : (a ++ (old ++ b)).length = 1
    · have hlen' : (a ++ (new ++ b)).length ≤ 1 := by
        simp only [List.length_append] at hold ⊢
        omega
      have hpos := List.length_pos_iff.mpr (List.ne_nil_of_mem hn)
      omega
    · simp only [List.mem_append] at hn
      rcases hn with hn | hn | hn
      · exact h.least hold n (by simp [hn])
      · exact hleast hold n hn
      · exact h.least hold n (by simp [hn])

theorem Filled.shrunk {order : Nat} {counts counts' : List Nat} (ho : 1 ≤ order)
    (h : Filled order counts) (hs : Shrunk (max 1 (order / 2)) counts counts') :
    Filled order counts' := by
  cases hs with
  | same => exact h
  | root n =>
    have hn := h.most (n + 1) (by simp)
    refine Filled.replace [] [n + 1] [n] [] h (Nat.le_refl _) ?_ ?_
    · intro m hm
      rw [List.mem_singleton] at hm
      omega
    · exact fun hone => absurd rfl hone
  | enough a n b hle =>
    have hn := h.most (n + 1) (by simp)
    refine Filled.replace a [n + 1] [n] b h (Nat.le_refl _) ?_ ?_
    · intro m hm
      rw [List.mem_singleton] at hm
      omega
    · intro _ m hm
      rw [List.mem_singleton] at hm
      omega
  | borrowLeft a x n b hlt hsmall =>
    have hx := h.most x (by simp)
    have hn := h.most (n + 1) (by simp)
    have hmany : (a ++ x :: (n + 1) :: b).length ≠ 1 := by
      simp only [List.length_append, List.length_cons]
      omega
    have hnl := h.least hmany (n + 1) (by simp)
    refine Filled.replace a [x, n + 1] [x - 1, n + 1] b h (Nat.le_refl _) ?_ ?_
    · intro m hm
      simp only [List.mem_cons, List.not_mem_nil, or_false] at hm
      omega
    · intro _ m hm
      simp only [List.mem_cons, List.not_mem_nil, or_false] at hm
      omega
  | mergeLeft a x n b hle hsmall =>
    have hmany : (a ++ x :: (n + 1) :: b).length ≠ 1 := by
      simp only [List.length_append, List.length_cons]
      omega
    have hxl := h.least hmany x (by simp)
    refine Filled.replace a [x, n + 1] [x + n] b h (by simp) ?_ ?_
    · intro m hm
      rw [List.mem_singleton] at hm
      omega
    · intro _ m hm
      rw [List.mem_singleton] at hm
      omega
  | borrowRight n x b hlt hsmall =>
    have hx := h.most x (by simp)
    have hn := h.most (n + 1) (by simp)
    have hnl := h.least (by simp) (n + 1) (by simp)
    refine Filled.replace [] [n + 1, x] [n + 1, x - 1] b h (Nat.le_refl _) ?_ ?_
    · intro m hm
      simp only [List.mem_cons, List.not_mem_nil, or_false] at hm
      omega
    · intro _ m hm
      simp only [List.mem_cons, List.not_mem_nil, or_false] at hm
      omega
  | mergeRight n x b hle hsmall =>
    have hxl := h.least (by simp) x (by simp)
    refine Filled.replace [] [n + 1, x] [n + x] b h (by simp) ?_ ?_
    · intro m hm
      rw [List.mem_singleton] at hm
      omega
    · intro _ m hm
      rw [List.mem_singleton] at hm
      omega

/-! ## The bounds of a tree -/

section

variable {tree : BPlusTree κ} {leaves : List (Leaf κ)}

omit [LinearOrder κ] in
private theorem chain_node {nodes : Nat → Option (Node κ)} {leaves : List (Leaf κ)} {last : Nat}
    (h : Chain nodes leaves last) {l : Leaf κ} (hl : l ∈ leaves) :
    ∃ next, nodes l.page = some (l.node next) := by
  induction leaves with
  | nil => cases hl
  | cons l' leaves ih =>
    rcases List.mem_cons.mp hl with rfl | hl
    · exact ⟨_, h.1⟩
    · exact ih h.2 hl

/-- A node of the tree is a leaf of it, or the root over the leaves. -/
theorem Stands.node (h : Stands tree leaves) {node : Node κ} (hn : tree.OnTree node) :
    (∃ l ∈ leaves, ∃ next, node = l.node next ∧ (leaves.length = 1 → l.page = tree.rootPageId)) ∨
      (node.isLeaf = false ∧ node.keys.length + 1 = leaves.length ∧
        node.children = leaves.map Leaf.page) := by
  rcases h with ⟨l, h, rfl⟩ | ⟨seps, h, hne⟩
  · have hleaf : node = l.node 0 := by
      induction hn with
      | root node hread =>
        rw [readNode, NodeStore.readNode, h.root, Option.some.injEq] at hread
        exact hread.symm
      | child parent node c _ hinner _ _ ih =>
        rw [ih] at hinner
        cases hinner
    exact Or.inl ⟨l, List.mem_singleton_self l, 0, hleaf, fun _ => h.page⟩
  · have hlen : leaves.length ≠ 1 := by
      have hpos := List.length_pos_iff.mpr hne
      have := h.count
      omega
    induction hn with
    | root node hread =>
      rw [readNode, NodeStore.readNode, h.root, Option.some.injEq] at hread
      subst hread
      exact Or.inr ⟨rfl, h.count.symm, rfl⟩
    | child parent node c _ hinner hc hread ih =>
      rcases ih with ⟨l, -, next, rfl, -⟩ | ⟨-, -, hchildren⟩
      · cases hinner
      · rw [hchildren] at hc
        obtain ⟨l, hl, rfl⟩ := List.mem_map.mp hc
        obtain ⟨next, hnode⟩ := chain_node h.chain hl
        rw [readNode, NodeStore.readNode, hnode, Option.some.injEq] at hread
        exact Or.inl ⟨l, hl, next, hread.symm, fun hone => absurd hone hlen⟩

/-- **The bounds of the nodes are those of the counts.** -/
theorem nodesBounded_of_filled (h : Stands tree leaves)
    (hf : Filled tree.order (keyCounts leaves)) : tree.NodesBounded := by
  intro node hn
  rcases h.node hn with ⟨l, hl, next, rfl, hroot⟩ | ⟨hinner, hcount, -⟩
  · have hm : l.keys.length ∈ keyCounts leaves := List.mem_map_of_mem hl
    refine ⟨hf.most _ hm, fun _ hpage => hf.least ?_ _ hm⟩
    rw [keyCounts, List.length_map]
    exact fun hone => hpage (hroot hone)
  · have hroom := hf.room
    rw [keyCounts, List.length_map] at hroom
    refine ⟨by omega, fun hleaf => ?_⟩
    rw [hinner] at hleaf
    cases hleaf

/-- A root over too many leaves has too many keys. -/
theorem not_nodesBounded (h : Stands tree leaves) (ho : 1 ≤ tree.order)
    (hbig : tree.order + 1 < leaves.length) : ¬ tree.NodesBounded := by
  intro hb
  rcases h with ⟨l, -, rfl⟩ | ⟨seps, h, -⟩
  · rw [List.length_singleton] at hbig
    omega
  · have hle : seps.length ≤ tree.order := (hb _ (OnTree.root _ h.root)).1
    have := h.count
    omega

end

/-! ## Runs -/

/-- A tree of the order whose leaves are filled. -/
def SizeInv (order : Nat) (s : Option (BPlusTree κ)) : Prop :=
  ∃ tree leaves m, s = some tree ∧ tree.order = order ∧ Stands tree leaves ∧
    Lists (entriesOf leaves) m ∧ Filled order (keyCounts leaves)

section

variable {order : Nat} {s : Option (BPlusTree κ)} {op : TreeOp κ}

theorem sizeInv_bounded (h : SizeInv order s) : ∃ tree, s = some tree ∧ tree.NodesBounded := by
  obtain ⟨tree, leaves, m, rfl, rfl, hs, -, hf⟩ := h
  exact ⟨tree, rfl, nodesBounded_of_filled hs hf⟩

/-- A call that leaves room in the root keeps the bounds. -/
theorem sizeInv_step (ho : 1 ≤ order) (h : SizeInv order s)
    (hc : ∀ tree ∈ s, tree.RootHasRoom op) : SizeInv order (treeStep s op) := by
  obtain ⟨tree, leaves, m, rfl, rfl, hs, hm, hf⟩ := h
  cases op with
  | insert key rowid =>
    obtain ⟨tree', leaves', leaf, path, hcall, hs', ho', hm', hg⟩ := insert_spec hs hm key rowid
    refine ⟨tree', leaves', _, hcall, ho', hs', hm', ?_⟩
    obtain ⟨a, b, hcounts, hcounts'⟩ := hg.counts
    rw [hcounts] at hf
    rw [hcounts']
    by_cases hin : key ∈ leaf.keys
    · rw [if_pos hin]
      exact hf
    · rw [if_neg hin]
      refine hf.split ho ?_
      have hlen : leaves.length = a.length + b.length + 1 := by
        have := congrArg List.length hcounts
        simp only [keyCounts, List.length_map, List.length_append, List.length_cons] at this
        omega
      rcases hg.root with ⟨-, hone⟩ | ⟨root, i, hpath, hroot⟩
      · omega
      · have hfind := hg.found
        rw [hpath] at hfind
        rcases hc tree rfl leaf root i [] hfind with hk | hk | hk
        · exact absurd hk hin
        · exact Or.inl hk
        · omega
  | delete key =>
    obtain ⟨tree', leaves', hcall, hs', ho', hm', hshrunk⟩ := delete_spec hs hm key
    exact ⟨tree', leaves', _, hcall, ho', hs', hm', hf.shrunk ho hshrunk⟩

/-- A call that splits a leaf below a full root breaks the bound of the root. -/
theorem sizeInv_break (ho : 1 ≤ order) (h : SizeInv order s)
    (hc : ¬ ∀ tree ∈ s, tree.RootHasRoom op) :
    ¬ ∃ tree, treeStep s op = some tree ∧ tree.NodesBounded := by
  obtain ⟨tree, leaves, m, rfl, rfl, hs, hm, hf⟩ := h
  rintro ⟨after, hafter, hbounded⟩
  refine hc fun t ht => ?_
  rw [Option.mem_some_iff] at ht
  subst ht
  cases op with
  | delete key => trivial
  | insert key rowid =>
    intro leaf parent i path hfind
    by_contra hfull
    simp only [not_or, Nat.not_lt] at hfull
    obtain ⟨hin, hleaf, hparent⟩ := hfull
    obtain ⟨tree', leaves', leaf', path', hcall, hs', ho', -, hg⟩ := insert_spec hs hm key rowid
    have hsame : treeStep (some tree) (.insert key rowid) = some tree' := hcall
    rw [hsame, Option.some.injEq] at hafter
    subst hafter
    have hfound := hg.found
    rw [hfind, Option.some.injEq, Prod.mk.injEq] at hfound
    obtain ⟨rfl, rfl⟩ := hfound
    obtain ⟨a, b, hcounts, hcounts'⟩ := hg.counts
    rw [if_neg hin, splitCounts, if_neg (by omega)] at hcounts'
    have hlen := congrArg List.length hcounts
    have hlen' := congrArg List.length hcounts'
    simp only [keyCounts, List.length_map, List.length_append, List.length_cons,
      List.length_nil] at hlen hlen'
    rcases hg.root with ⟨hpath, -⟩ | ⟨root, j, hpath, hroot⟩
    · cases hpath
    · simp only [List.cons.injEq, Prod.mk.injEq] at hpath
      obtain ⟨⟨rfl, -⟩, -⟩ := hpath
      exact not_nodesBounded hs' (by rw [ho']; exact ho) (by rw [ho']; omega) hbounded

end

/-! ## Node pages -/

/-- The tag and the payload of a key. -/
def keyPayload : Value → Except PyErr (UInt8 × Bytes)
  | .bool b => .ok (4, [if b then 1 else 0])
  | .int i =>
    if i < int64Min ∨ int64Max < i then .error .overflowError else .ok (1, leBytesInt 8 i)
  | .float f => .ok (2, leBytes 8 f.bits.toNat)
  | .text s => .ok (3, encodeUtf8 s)
  | .null => .error .typeError

/-- `_encode_key`. -/
def encodeKey (key : Value) : Except PyErr Bytes := do
  let (tag, payload) ← keyPayload key
  let length ← packUint 2 payload.length
  .ok (tag :: (length ++ payload))

/-- The loop over `zip(node.keys, refs)`; a reference is a rowid or a child page. -/
def encodeEntries (width : Nat) (key : κ → Value) : List κ → List Nat → Except PyErr Bytes
  | k :: keys, r :: refs => do
    let encoded ← encodeKey (key k)
    let ref ← packUint width r
    let rest ← encodeEntries width key keys refs
    .ok (encoded ++ (ref ++ rest))
  | _, _ => .ok []

/-- The body that `_write_node` builds. -/
def encodeNode (key : κ → Value) (node : Node κ) : Except PyErr Bytes := do
  let count ← packUint 2 node.keys.length
  if node.isLeaf then
    let entries ← encodeEntries 8 key node.keys node.values
    let next ← packUint 8 node.nextLeaf
    .ok (1 :: (count ++ (entries ++ next)))
  else
    match node.children with
    | [] => .error .indexError
    | first :: children => do
      let first ← packUint 4 first
      let entries ← encodeEntries 4 key node.keys children
      .ok (0 :: (count ++ (first ++ entries)))

omit [LinearOrder κ] in
theorem encodeEntries_length {width : Nat} {key : κ → Int} {keys : List κ} {refs : List Nat}
    {raw : Bytes} (h : encodeEntries width (fun k => .int (key k)) keys refs = .ok raw) :
    raw.length ≤ keys.length * (11 + width) := by
  induction keys generalizing refs raw with
  | nil =>
    cases h
    exact Nat.zero_le _
  | cons k keys ih =>
    cases refs with
    | nil =>
      cases h
      exact Nat.zero_le _
    | cons r refs =>
      simp only [encodeEntries, encodeKey, keyPayload, bind_eq_ok, Except.ok.injEq] at h
      obtain ⟨encoded, ⟨⟨tag, payload⟩, hpayload, length, hlength, rfl⟩, ref, href, rest, hrest,
        rfl⟩ := h
      split at hpayload
      · cases hpayload
      · cases hpayload
        obtain ⟨-, rfl⟩ := packUint_eq_ok.mp hlength
        obtain ⟨-, rfl⟩ := packUint_eq_ok.mp href
        have := ih hrest
        simp only [List.length_append, List.length_cons, leBytes_length, leBytesInt_length]
        rw [Nat.add_mul, Nat.one_mul]
        omega

omit [LinearOrder κ] in
/-- With INT keys a node of at most 64 keys is not cut by a page of 4096 bytes. -/
theorem encodeNode_fits {key : κ → Int} {node : Node κ} {raw : Bytes}
    (hn : node.keys.length ≤ 64) (h : encodeNode (fun k => .int (key k)) node = .ok raw) :
    raw <+: padBody raw 4096 := by
  have hlen : raw.length < 4096 - fileHeaderSize := by
    simp only [encodeNode, bind_eq_ok] at h
    obtain ⟨count, hcount, h⟩ := h
    obtain ⟨-, rfl⟩ := packUint_eq_ok.mp hcount
    split at h
    · simp only [bind_eq_ok, Except.ok.injEq] at h
      obtain ⟨entries, hentries, next, hnext, rfl⟩ := h
      obtain ⟨-, rfl⟩ := packUint_eq_ok.mp hnext
      have := encodeEntries_length hentries
      simp only [List.length_append, List.length_cons, leBytes_length, fileHeaderSize]
      omega
    · split at h
      · cases h
      · simp only [bind_eq_ok, Except.ok.injEq] at h
        obtain ⟨first, hfirst, entries, hentries, rfl⟩ := h
        obtain ⟨-, rfl⟩ := packUint_eq_ok.mp hfirst
        have := encodeEntries_length hentries
        simp only [List.length_append, List.length_cons, leBytes_length, fileHeaderSize]
        omega
  rw [padBody, if_neg (Nat.not_le_of_lt hlen)]
  exact List.prefix_append _ _

/-- No page of the tree is cut, when its keys are INTs and pages have 4096 bytes. -/
def NodesWhole (tree : BPlusTree κ) : Prop :=
  ∀ (key : κ → Int) (node : Node κ) (raw : Bytes), tree.OnTree node →
    encodeNode (fun k => .int (key k)) node = .ok raw → raw <+: padBody raw 4096

/-- **Nodes keep their bounds exactly as long as the root has room,** and with the default
order they are then written whole. -/
theorem nodes_bounded_iff (store : NodeStore κ) (order : Nat) (ops : List (TreeOp κ))
    (hstore : Pages store []) (ho : 2 ≤ order) :
    (Reached treeStep (fun s => ∃ tree, s = some tree ∧ tree.NodesBounded)
        (some (create store order)) ops ↔
      Along treeStep (fun s op => ∀ tree ∈ s, tree.RootHasRoom op)
        (some (create store order)) ops) ∧
    (order = 64 → Along treeStep (fun s op => ∀ tree ∈ s, tree.RootHasRoom op)
        (some (create store order)) ops →
      Reached treeStep (fun s => ∃ tree, s = some tree ∧ tree.NodesWhole)
        (some (create store order)) ops) := by
  have hstart : SizeInv order (some (create store order)) := by
    refine ⟨create store order, _, _, rfl, rfl, create_stands store order hstore, Lists.nil, ?_⟩
    simp only [keyCounts, List.map_cons, List.map_nil, Leaf.keys, List.length_nil]
    exact ⟨by simp, by simp, by simp⟩
  refine ⟨reached_iff_along (L := fun _ _ => True) (SizeInv order) (fun _ => sizeInv_bounded)
    (fun _ _ hs _ hc => sizeInv_step (by omega) hs hc)
    (fun _ _ hs _ hc => sizeInv_break (by omega) hs hc) hstart (Along.trivial _ _), ?_⟩
  rintro rfl halong
  refine Reached.mono ?_ (reached_of_along (SizeInv 64)
    (fun _ _ hs hc => sizeInv_step (by omega) hs hc) hstart halong)
  rintro s hs
  obtain ⟨tree, leaves, m, rfl, hot, hstands, -, hf⟩ := hs
  refine ⟨tree, rfl, fun key node raw hnode henc => encodeNode_fits ?_ henc⟩
  have hle := (nodesBounded_of_filled hstands (by rw [hot]; exact hf) node hnode).1
  rw [hot] at hle
  exact hle

theorem nodes_bounded_iff_sample :
    (Reached treeStep (fun s => ∃ tree, s = some tree ∧ tree.NodesBounded)
        (some (create newNodeStore 2)) sampleCalls ↔
      Along treeStep (fun s op => ∀ tree ∈ s, tree.RootHasRoom op)
        (some (create newNodeStore 2)) sampleCalls) ∧
    (2 = 64 → Along treeStep (fun s op => ∀ tree ∈ s, tree.RootHasRoom op)
        (some (create newNodeStore 2)) sampleCalls →
      Reached treeStep (fun s => ∃ tree, s = some tree ∧ tree.NodesWhole)
        (some (create newNodeStore 2)) sampleCalls) :=
  nodes_bounded_iff newNodeStore 2 sampleCalls ⟨by decide, by decide, by decide⟩ (by decide)

/-- Ascending keys: every split gives the root one more separator. -/
def ascendingCalls : List (TreeOp Nat) :=
  [.insert 1 10, .insert 2 20, .insert 3 30, .insert 4 40, .insert 5 50]

/-- Five inserts give a root of order 2 three keys. -/
theorem root_overflows :
    ¬ ∀ (store : NodeStore Nat) (order : Nat) (ops : List (TreeOp Nat)), Pages store [] →
      2 ≤ order → Reached treeStep (fun s => ∃ tree, s = some tree ∧ tree.NodesBounded)
        (some (create store order)) ops := by
  intro h
  obtain ⟨tree, hrun, hbounded⟩ := (h newNodeStore 2 ascendingCalls
    ⟨by decide, by decide, by decide⟩ (by decide)).last
  have hroot : (run treeStep (some (create newNodeStore 2)) ascendingCalls).bind (fun tree =>
      (tree.readNode tree.rootPageId).map fun node =>
        decide (node.keys.length ≤ tree.order)) = some false := by decide +kernel
  rw [hrun, Option.bind_some, Option.map_eq_some_iff] at hroot
  obtain ⟨node, hread, hbig⟩ := hroot
  exact of_decide_eq_false hbig (hbounded node (OnTree.root node hread)).1

end TinyDB.BPlusTree
