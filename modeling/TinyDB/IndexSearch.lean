import TinyDB.IndexLevel
import TinyDB.Lib.Lists

/-!
# Searching the index

A descent ends in the leaf the key belongs to: everything to its left is below
the key, everything to its right above. From there `seek` looks at one leaf and
`range` follows the leaf chain; `full_scan` starts at the first leaf. Over the
entries a tree holds they are a lookup, a filter and the list itself.
-/

namespace TinyDB.BPlusTree

open Lib

variable {κ : Type} [LinearOrder κ]

section Descent

variable {tree : BPlusTree κ} {key : κ} {left : List (Leaf κ × κ)} {l : Leaf κ}
  {right : List (κ × Leaf κ)}

theorem Focus.root (h : Focus tree key left l right) :
    tree.readNode tree.rootPageId = some (rootNode tree.rootPageId
      (left.map Prod.snd ++ right.map Prod.fst) (left.map Prod.fst ++ l :: right.map Prod.snd)) :=
  h.level.root

theorem Focus.leaf (h : Focus tree key left l right) :
    tree.readNode l.page = some (l.node (headPage (right.map Prod.snd) 0)) :=
  (Chain.append.mp h.level.chain).2.1

omit [LinearOrder κ] in
theorem rootNode_child (left : List (Leaf κ × κ)) (l : Leaf κ) (right : List (κ × Leaf κ))
    (rootPageId : Nat) (seps : List κ) :
    (rootNode rootPageId seps (left.map Prod.fst ++ l :: right.map Prod.snd)).children[left.length]? =
      some l.page := by
  simp [rootNode]

theorem Focus.fuel (h : Focus tree key left l right) : right.length + 2 < tree.fuel := by
  have := h.level.pages.length_lt
  simp only [List.length_cons, List.length_map, List.length_append] at this
  rw [BPlusTree.fuel]
  omega

theorem Focus.findLeaf (h : Focus tree key left l right) :
    tree.findLeaf key = some (l.node (headPage (right.map Prod.snd) 0)) := by
  obtain ⟨n, hn⟩ : ∃ n, tree.fuel = n + 2 := ⟨tree.fuel - 2, by have := h.fuel; omega⟩
  have hidx : childIndex (rootNode tree.rootPageId (left.map Prod.snd ++ right.map Prod.fst)
    (left.map Prod.fst ++ l :: right.map Prod.snd)).keys key = left.length := h.index
  have hroot : (rootNode tree.rootPageId (left.map Prod.snd ++ right.map Prod.fst)
    (left.map Prod.fst ++ l :: right.map Prod.snd)).isLeaf = false := rfl
  have hleaf : (l.node (headPage (right.map Prod.snd) 0)).isLeaf = true := rfl
  simp only [BPlusTree.findLeaf, h.root, hn, descend, hroot, Bool.false_eq_true, if_false, hidx,
    rootNode_child, h.leaf, hleaf, if_true, Option.bind_eq_bind, Option.bind_some]

theorem Focus.findLeafWithPath (h : Focus tree key left l right) :
    tree.findLeafWithPath key = some (l.node (headPage (right.map Prod.snd) 0),
      [(rootNode tree.rootPageId (left.map Prod.snd ++ right.map Prod.fst)
        (left.map Prod.fst ++ l :: right.map Prod.snd), left.length)]) := by
  obtain ⟨n, hn⟩ : ∃ n, tree.fuel = n + 2 := ⟨tree.fuel - 2, by have := h.fuel; omega⟩
  have hidx : childIndex (rootNode tree.rootPageId (left.map Prod.snd ++ right.map Prod.fst)
    (left.map Prod.fst ++ l :: right.map Prod.snd)).keys key = left.length := h.index
  have hroot : (rootNode tree.rootPageId (left.map Prod.snd ++ right.map Prod.fst)
    (left.map Prod.fst ++ l :: right.map Prod.snd)).isLeaf = false := rfl
  have hleaf : (l.node (headPage (right.map Prod.snd) 0)).isLeaf = true := rfl
  simp only [BPlusTree.findLeafWithPath, h.root, hn, descendWithPath, hroot, Bool.false_eq_true,
    if_false, hidx, rootNode_child, h.leaf, hleaf, if_true, Option.bind_eq_bind, Option.bind_some]

theorem Single.fuel {l : Leaf κ} (h : Single tree l) : 1 < tree.fuel := h.pages.length_lt

theorem Single.findLeaf {l : Leaf κ} (h : Single tree l) (key : κ) :
    tree.findLeaf key = some (l.node 0) := by
  obtain ⟨n, hn⟩ : ∃ n, tree.fuel = n + 1 := ⟨tree.fuel - 1, by have := h.fuel; omega⟩
  have hroot : tree.readNode tree.rootPageId = some (l.node 0) := h.root
  have hleaf : (l.node 0).isLeaf = true := rfl
  simp only [BPlusTree.findLeaf, hroot, hn, descend, hleaf, if_true, Option.bind_eq_bind,
    Option.bind_some]

theorem Single.findLeafWithPath {l : Leaf κ} (h : Single tree l) (key : κ) :
    tree.findLeafWithPath key = some (l.node 0, []) := by
  obtain ⟨n, hn⟩ : ∃ n, tree.fuel = n + 1 := ⟨tree.fuel - 1, by have := h.fuel; omega⟩
  have hroot : tree.readNode tree.rootPageId = some (l.node 0) := h.root
  have hleaf : (l.node 0).isLeaf = true := rfl
  simp only [BPlusTree.findLeafWithPath, hroot, hn, descendWithPath, hleaf, if_true,
    Option.bind_eq_bind, Option.bind_some]

end Descent

/-! ## What a query sees -/

/-- The leaf of a key, with the entries before it and the leaves behind it. -/
structure Found (tree : BPlusTree κ) (key : κ) (before : List (κ × Nat)) (l : Leaf κ)
    (right : List (Leaf κ)) : Prop where
  find : tree.findLeaf key = some (l.node (headPage right 0))
  chain : Chain tree.store.nodes right 0
  pages : ∀ r ∈ right, r.page ≠ 0
  fuel : right.length < tree.fuel
  below : ∀ e ∈ before, e.1 < key
  above : ∀ e ∈ entriesOf right, key < e.1

theorem Holds.found {tree : BPlusTree κ} {entries : List (κ × Nat)} (h : Holds tree entries)
    (key : κ) :
    ∃ before l right, Found tree key before l right ∧
      entries = before ++ (l.entries ++ entriesOf right) := by
  rcases h with ⟨l, h, rfl⟩ | ⟨seps, leaves, h, rfl⟩
  · refine ⟨[], l, [], ⟨h.findLeaf key, trivial, by simp, ?_, by simp, by simp [entriesOf]⟩,
      by simp [entriesOf]⟩
    exact Nat.lt_trans Nat.zero_lt_one h.fuel
  · obtain ⟨left, l, right, hf, rfl⟩ := h.exists_focus key
    refine ⟨entriesOf (left.map Prod.fst), l, right.map Prod.snd, ⟨hf.findLeaf,
      (Chain.append.mp hf.level.chain).2.2, ?_, ?_, ?_, ?_⟩, ?_⟩
    · intro r hr
      have hb := hf.level.pages.bounds r.page (by
        simp only [List.map_append, List.map_cons, List.cons_append, List.mem_cons,
          List.mem_append]
        exact Or.inr (Or.inl (Or.inr (Or.inr (List.mem_map_of_mem hr)))))
      exact Nat.pos_iff_ne_zero.mp hb.1
    · have := hf.fuel
      rw [List.length_map]
      omega
    · exact fun e he => hf.left_before _ (mem_leftTokens he)
    · exact fun e he => hf.before_right _ (mem_rightTokens he)
    · simp [entriesOf]

/-! ## The queries -/

theorem seek_spec {tree : BPlusTree κ} {entries : List (κ × Nat)} {m : κ → Option Nat}
    (h : Holds tree entries) (hm : Lists entries m) (key : κ) :
    tree.seek key = some (m key).toList := by
  obtain ⟨before, l, right, hf, rfl⟩ := h.found key
  have hkeys : (l.node (headPage right 0)).keys = l.entries.map Prod.fst := rfl
  have hvalues : (l.node (headPage right 0)).values = l.entries.map Prod.snd := rfl
  simp only [seek, hf.find, Option.bind_eq_bind, Option.bind_some, hkeys, hvalues]
  cases hi : (l.entries.map Prod.fst).findIdx? (· = key) with
  | none =>
    have hnone : m key = none := by
      rw [hm.eq_none_iff, List.map_append, List.map_append, List.mem_append, List.mem_append]
      rintro (hb | hl | ha)
      · obtain ⟨e, he, hek⟩ := List.mem_map.mp hb
        exact absurd hek (ne_of_lt (hf.below e he))
      · have := List.findIdx?_eq_none_iff.mp hi key hl
        simp at this
      · obtain ⟨e, he, hek⟩ := List.mem_map.mp ha
        exact absurd hek (ne_of_gt (hf.above e he))
    rw [hnone]
    rfl
  | some i =>
    obtain ⟨hlt, hk, -⟩ := List.findIdx?_eq_some_iff_getElem.mp hi
    have hlt' : i < l.entries.length := by simpa using hlt
    have hkey : l.entries[i].1 = key := by simpa using hk
    have hsome : m key = some l.entries[i].2 := by
      rw [← hm.mem_iff, ← hkey]
      exact List.mem_append_right _ (List.mem_append_left _ (List.getElem_mem hlt'))
    simp [hsome, hlt']

/-- The rowids of the entries in a range. -/
def rowidsIn (lo hi : κ) (inclusive : Bool) (entries : List (κ × Nat)) : List Nat :=
  (entries.filter fun e => keyInRange lo hi inclusive e.1).map Prod.snd

theorem rowidsIn_append (lo hi : κ) (inclusive : Bool) (a b : List (κ × Nat)) :
    rowidsIn lo hi inclusive (a ++ b) = rowidsIn lo hi inclusive a ++ rowidsIn lo hi inclusive b := by
  simp [rowidsIn]

/-- Nothing is in range where all keys miss it. -/
theorem rowidsIn_eq_nil {lo hi : κ} {inclusive : Bool} {entries : List (κ × Nat)}
    (h : ∀ e ∈ entries, e.1 < lo ∨ hi < e.1) : rowidsIn lo hi inclusive entries = [] := by
  have hnone : entries.filter (fun e => keyInRange lo hi inclusive e.1) = [] := by
    rw [List.filter_eq_nil_iff]
    intro e he
    have hout := h e he
    cases inclusive with
    | true =>
      simp only [keyInRange, if_true, decide_eq_true_eq, not_and_or, not_le]
      exact hout
    | false =>
      simp only [keyInRange, Bool.false_eq_true, if_false, decide_eq_true_eq, not_and_or, not_lt]
      exact hout.imp le_of_lt le_of_lt
  rw [rowidsIn, hnone, List.map_nil]

private theorem keyInRange_le {lo hi key : κ} {inclusive : Bool}
    (h : keyInRange lo hi inclusive key = true) : ¬ hi < key := by
  cases inclusive with
  | true =>
    simp only [keyInRange, if_true, decide_eq_true_eq] at h
    exact not_lt.mpr h.2
  | false =>
    simp only [keyInRange, Bool.false_eq_true, if_false, decide_eq_true_eq] at h
    exact not_lt.mpr (le_of_lt h.2)

/-- In a leaf with ascending keys the loop takes the rowids in range, and ends
early iff some key is above `hi`. -/
private theorem rangeLeaf_spec (lo hi : κ) (inclusive : Bool) {entries : List (κ × Nat)}
    (h : (entries.map Prod.fst).Pairwise (· < ·)) :
    rangeLeaf lo hi inclusive (entries.map Prod.fst) (entries.map Prod.snd) =
      some (rowidsIn lo hi inclusive entries, entries.any fun e => decide (hi < e.1)) := by
  induction entries with
  | nil => rfl
  | cons e entries ih =>
    rw [List.map_cons, List.pairwise_cons] at h
    have hrest := ih h.2
    simp only [List.map_cons, rangeLeaf, List.head?_cons, List.tail_cons, hrest,
      Option.bind_eq_bind, Option.bind_some, List.any_cons]
    by_cases hin : keyInRange lo hi inclusive e.1 = true
    · simp [hin, keyInRange_le hin, rowidsIn]
    · by_cases hgt : hi < e.1
      · have hout : rowidsIn lo hi inclusive (e :: entries) = [] := by
          refine rowidsIn_eq_nil ?_
          intro e' he'
          rcases List.mem_cons.mp he' with rfl | he'
          · exact Or.inr hgt
          · exact Or.inr (lt_trans hgt (h.1 _ (List.mem_map_of_mem he')))
        simp [hin, hgt, hout]
      · simp [hin, hgt, rowidsIn]

private theorem rangeChain_spec {tree : BPlusTree κ} (lo hi : κ) (inclusive : Bool)
    {l : Leaf κ} {right : List (Leaf κ)} (hchain : Chain tree.store.nodes right 0)
    (hpages : ∀ r ∈ right, r.page ≠ 0)
    (hord : ((l.entries ++ entriesOf right).map Prod.fst).Pairwise (· < ·)) {n : Nat}
    (hn : right.length < n) :
    tree.rangeChain lo hi inclusive n (l.node (headPage right 0)) =
      some (rowidsIn lo hi inclusive (l.entries ++ entriesOf right)) := by
  induction right generalizing l n with
  | nil =>
    cases n with
    | zero => cases hn
    | succ n =>
      have hl : (l.entries.map Prod.fst).Pairwise (· < ·) := by simpa [entriesOf] using hord
      have hleaf := rangeLeaf_spec lo hi inclusive hl
      simp [rangeChain, Leaf.node, Leaf.keys, Leaf.values, hleaf, headPage, entriesOf]
  | cons r right ih =>
    cases n with
    | zero => cases hn
    | succ n =>
      rw [List.map_append, List.pairwise_append] at hord
      obtain ⟨hl, hr, hlr⟩ := hord
      have hleaf := rangeLeaf_spec lo hi inclusive hl
      have hnext : (l.node (headPage (r :: right) 0)).nextLeaf = r.page := rfl
      have hread : tree.readNode r.page = some (r.node (headPage right 0)) := hchain.1
      have hrest := ih hchain.2 (fun r' h => hpages r' (List.mem_cons_of_mem _ h)) hr
        (Nat.lt_of_succ_lt_succ hn)
      have hkeys : (l.node (headPage (r :: right) 0)).keys = l.entries.map Prod.fst := rfl
      have hvalues : (l.node (headPage (r :: right) 0)).values = l.entries.map Prod.snd := rfl
      have hentries : entriesOf (r :: right) = r.entries ++ entriesOf right := rfl
      simp only [rangeChain, hkeys, hvalues, hleaf, Option.bind_eq_bind, Option.bind_some, hnext,
        hread, hrest, hpages r List.mem_cons_self, or_false]
      by_cases hany : l.entries.any (fun e => decide (hi < e.1)) = true
      · -- the keys of the leaves behind are above `hi` too
        obtain ⟨e, he, hgt⟩ := List.any_eq_true.mp hany
        have hnone : rowidsIn lo hi inclusive (entriesOf (r :: right)) = [] := by
          refine rowidsIn_eq_nil fun e' he' => Or.inr ?_
          exact lt_trans (of_decide_eq_true hgt)
            (hlr _ (List.mem_map_of_mem he) _ (List.mem_map_of_mem he'))
        rw [if_pos hany, rowidsIn_append, hnone, List.append_nil]
      · rw [if_neg hany, hentries, rowidsIn_append lo hi inclusive l.entries]

theorem range_spec {tree : BPlusTree κ} {entries : List (κ × Nat)} (h : Holds tree entries)
    (lo hi : κ) (inclusive : Bool) :
    tree.range lo hi inclusive = some (rowidsIn lo hi inclusive entries) := by
  have hord := h.pairwise
  obtain ⟨before, l, right, hf, rfl⟩ := h.found lo
  rw [List.map_append, List.pairwise_append] at hord
  have hbelow : rowidsIn lo hi inclusive before = [] :=
    rowidsIn_eq_nil fun e he => Or.inl (hf.below e he)
  simp only [range, hf.find, Option.bind_eq_bind, Option.bind_some,
    rangeChain_spec lo hi inclusive hf.chain hf.pages hord.2.1 hf.fuel]
  rw [rowidsIn_append lo hi inclusive before, hbelow, List.nil_append]

omit [LinearOrder κ] in
private theorem scanChain_spec {tree : BPlusTree κ} {l : Leaf κ} {right : List (Leaf κ)}
    (hchain : Chain tree.store.nodes right 0) (hpages : ∀ r ∈ right, r.page ≠ 0) {n : Nat}
    (hn : right.length < n) :
    tree.scanChain n (l.node (headPage right 0)) =
      some ((l.entries ++ entriesOf right).map Prod.snd) := by
  induction right generalizing l n with
  | nil =>
    cases n with
    | zero => cases hn
    | succ n => simp [scanChain, Leaf.node, Leaf.values, headPage, entriesOf]
  | cons r right ih =>
    cases n with
    | zero => cases hn
    | succ n =>
      have hnext : (l.node (headPage (r :: right) 0)).nextLeaf = r.page := rfl
      have hread : tree.readNode r.page = some (r.node (headPage right 0)) := hchain.1
      have hrest := ih (l := r) hchain.2 (fun r' h => hpages r' (List.mem_cons_of_mem _ h))
        (Nat.lt_of_succ_lt_succ hn)
      have hvalues : (l.node (headPage (r :: right) 0)).values = l.entries.map Prod.snd := rfl
      simp only [scanChain, hnext, hpages r List.mem_cons_self, if_false, hread,
        Option.bind_eq_bind, Option.bind_some, hrest, hvalues]
      simp [entriesOf]

theorem fullScan_spec {tree : BPlusTree κ} {entries : List (κ × Nat)} (h : Holds tree entries) :
    tree.fullScan = some (entries.map Prod.snd) := by
  rcases h with ⟨l, h, rfl⟩ | ⟨seps, leaves, h, rfl⟩
  · obtain ⟨n, hn⟩ : ∃ n, tree.fuel = n + 1 := ⟨tree.fuel - 1, by have := h.fuel; omega⟩
    have hroot : tree.readNode tree.rootPageId = some (l.node 0) := h.root
    simp [fullScan, hroot, hn, firstLeaf, Leaf.node, scanChain, Leaf.values]
  · have hlt := h.pages.length_lt
    obtain ⟨n, hn⟩ : ∃ n, tree.fuel = n + 2 := by
      refine ⟨tree.store.pageCount - 2, ?_⟩
      have := h.count
      rw [List.length_cons, List.length_map] at hlt
      rw [fuel]
      omega
    cases leaves with
    | nil => cases h.count
    | cons l right =>
      have hroot : tree.readNode tree.rootPageId =
          some ⟨tree.rootPageId, false, seps, [], (l :: right).map Leaf.page, 0⟩ := h.root
      have hleaf : tree.readNode l.page = some (l.node (headPage right 0)) := h.chain.1
      have hfirst : tree.firstLeaf (n + 2)
          ⟨tree.rootPageId, false, seps, [], (l :: right).map Leaf.page, 0⟩ =
          some (l.node (headPage right 0)) := by
        have hl : (l.node (headPage right 0)).isLeaf = true := rfl
        simp only [firstLeaf, Bool.false_eq_true, if_false, List.map_cons, hleaf, hl, if_true,
          Option.bind_eq_bind, Option.bind_some]
      have hpages : ∀ r ∈ right, r.page ≠ 0 := by
        intro r hr
        have hb := h.pages.bounds r.page (List.mem_append_left _ (List.mem_cons_of_mem _
          (List.mem_map_of_mem (List.mem_cons_of_mem _ hr))))
        exact Nat.pos_iff_ne_zero.mp hb.1
      have hfuel : right.length < n + 2 := by
        rw [List.length_cons, List.length_map, List.length_cons] at hlt
        rw [fuel] at hn
        omega
      simp only [fullScan, hroot, Option.bind_eq_bind, Option.bind_some, hn, hfirst,
        scanChain_spec h.chain.2 hpages hfuel]
      rfl

end TinyDB.BPlusTree
