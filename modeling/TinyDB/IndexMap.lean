import TinyDB.IndexSearch

/-!
# The index is a sorted map

`insert` and `delete` edit one leaf; that step changes the map. The split or the
rebalancing that may follow keeps the entries and only cuts the level anew.
`Level.edit` is the one place where a stretch of leaves is exchanged: the chain
is spliced, the order and the pages of the new level are given.
-/

namespace TinyDB.BPlusTree

open Lib

variable {κ : Type}

/-! ## Edits at a split point -/

section Edits

variable {α : Type} (a b : List α) (x y : α)

private theorem insertIdx_split : (a ++ b).insertIdx a.length x = a ++ x :: b := by
  induction a with
  | nil => rfl
  | cons e a ih => simp only [List.cons_append, List.length_cons, List.insertIdx_succ_cons, ih]

private theorem setAt_split : setAt (a ++ x :: b) a.length y = some (a ++ y :: b) := by
  simp [setAt]

private theorem popAt_split : popAt (a ++ x :: b) a.length = some (a ++ b) := by
  simp [popAt, List.eraseIdx_append_of_length_le]

end Edits

/-- The entry a search for its key finds. -/
private theorem exists_entry [DecidableEq κ] {entries : List (κ × Nat)} {key : κ} {i : Nat}
    (h : (entries.map Prod.fst).findIdx? (· = key) = some i) :
    ∃ pre v post, entries = pre ++ (key, v) :: post ∧ pre.length = i := by
  obtain ⟨hlt, hk, -⟩ := List.findIdx?_eq_some_iff_getElem.mp h
  have hi : i < entries.length := by simpa using hlt
  have hkey : entries[i].1 = key := by simpa using hk
  refine ⟨entries.take i, entries[i].2, entries.drop (i + 1), ?_, ?_⟩
  · rw [← hkey, Prod.mk.eta, ← List.drop_eq_getElem_cons hi, List.take_append_drop]
  · rw [List.length_take, Nat.min_eq_left (Nat.le_of_lt hi)]

/-- The two halves of a leaf, the upper one on page `p`. -/
private def lower (l : Leaf κ) (mid : Nat) : Leaf κ := ⟨l.page, l.entries.take mid⟩

private def upper (l : Leaf κ) (mid p : Nat) : Leaf κ := ⟨p, l.entries.drop mid⟩

/-- Cutting a leaf in two. -/
private theorem splitNode_leaf (l : Leaf κ) (next mid newPageId : Nat) :
    splitNode (l.node next) mid newPageId =
      ((lower l mid).node newPageId, (upper l mid newPageId).node next) := by
  simp [splitNode, lower, upper, Leaf.node, Leaf.keys, Leaf.values]

/-- An inner root is never split. -/
private theorem splitRoot_inner {tree : BPlusTree κ} {node : Node κ}
    (hr : tree.readNode tree.rootPageId = some node)
    (hn : node.isLeaf = false) : tree.splitRoot = some tree := by
  simp [splitRoot, hr, hn]

private theorem entriesOf_focus (left : List (Leaf κ × κ)) (l : Leaf κ)
    (right : List (κ × Leaf κ)) :
    entriesOf (left.map Prod.fst ++ l :: right.map Prod.snd) =
      entriesOf (left.map Prod.fst) ++ (l.entries ++ entriesOf (right.map Prod.snd)) := by
  simp [entriesOf]

/-- Two neighbours seen from the leaves next to them. -/
private theorem tokens_pair (left : List (Leaf κ × κ)) (u w : Leaf κ) (s : κ)
    (right : List (κ × Leaf κ)) :
    tokens (left.map Prod.fst ++ u :: w :: right.map Prod.snd)
      (left.map Prod.snd ++ s :: right.map Prod.fst) =
      leftTokens left ++ (u.tokens ++ .sep s :: (w.tokens ++ rightTokens right)) := by
  have := tokens_focus left u ((s, w) :: right)
  simpa [rightTokens] using this

/-! ## Order -/

section Order

variable [LinearOrder κ]

/-- The search keeps the keys before `lo` at most, those from `hi` on above the key. -/
private theorem bisectLoop_spec {keys : List κ} (hsorted : keys.Pairwise (· < ·)) (key : κ)
    (n lo hi : Nat) (hlo : ∀ k ∈ keys.take lo, k ≤ key) (hhi : ∀ k ∈ keys.drop hi, key < k)
    (hle : lo ≤ hi) (hlen : hi ≤ keys.length) (hn : hi - lo ≤ n) :
    bisectLoop keys key n lo hi ≤ keys.length ∧
      (∀ k ∈ keys.take (bisectLoop keys key n lo hi), k ≤ key) ∧
      ∀ k ∈ keys.drop (bisectLoop keys key n lo hi), key < k := by
  induction n generalizing lo hi with
  | zero =>
    obtain rfl : lo = hi := by omega
    exact ⟨hlen, hlo, hhi⟩
  | succ n ih =>
    rw [bisectLoop]
    by_cases hlt : lo < hi
    · have hmid : (lo + hi) / 2 < keys.length := by omega
      rw [if_pos hlt]
      simp only [List.getElem?_eq_getElem hmid]
      by_cases hk : keys[(lo + hi) / 2] ≤ key
      · rw [if_pos hk]
        refine ih _ _ ?_ hhi (by omega) hlen (by omega)
        intro k hkm
        rw [List.take_add_one, List.getElem?_eq_getElem hmid] at hkm
        rcases List.mem_append.mp hkm with hkm | hkm
        · have hpre := List.pairwise_append.mp
            ((List.take_append_drop ((lo + hi) / 2) keys).symm ▸ hsorted)
          have hin : keys[(lo + hi) / 2] ∈ keys.drop ((lo + hi) / 2) := by
            rw [List.drop_eq_getElem_cons hmid]
            exact List.mem_cons_self
          exact le_trans (le_of_lt (hpre.2.2 k hkm _ hin)) hk
        · rw [Option.toList_some, List.mem_singleton] at hkm
          rw [hkm]
          exact hk
      · rw [if_neg hk]
        refine ih _ _ hlo ?_ (by omega) (by omega) (by omega)
        intro k hkm
        have hgt := not_le.mp hk
        rw [List.drop_eq_getElem_cons hmid] at hkm
        rcases List.mem_cons.mp hkm with rfl | hkm
        · exact hgt
        · have hpost := List.pairwise_append.mp
            ((List.take_append_drop ((lo + hi) / 2) keys).symm ▸ hsorted)
          have htail := hpost.2.1
          rw [List.drop_eq_getElem_cons hmid] at htail
          exact lt_trans hgt ((List.pairwise_cons.mp htail).1 k hkm)
    · rw [if_neg hlt]
      obtain rfl : lo = hi := by omega
      exact ⟨hlen, hlo, hhi⟩

/-- Where a key that is not in a leaf goes. -/
private theorem exists_gap {entries : List (κ × Nat)} {key : κ}
    (h : (entries.map Prod.fst).Pairwise (· < ·)) (hk : key ∉ entries.map Prod.fst) :
    ∃ pre post, entries = pre ++ post ∧ bisectRight (entries.map Prod.fst) key = pre.length ∧
      (∀ e ∈ pre, e.1 < key) ∧ ∀ e ∈ post, key < e.1 := by
  obtain ⟨hle, hlo, hhi⟩ := bisectLoop_spec h key (entries.map Prod.fst).length 0
    (entries.map Prod.fst).length (by simp) (by rw [List.drop_length]; simp) (Nat.zero_le _)
    (Nat.le_refl _) (Nat.le_refl _)
  rw [← bisectRight] at hle hlo hhi
  rw [List.length_map] at hle
  refine ⟨entries.take _, entries.drop _, (List.take_append_drop _ _).symm,
    (by rw [List.length_take, Nat.min_eq_left hle]), ?_, ?_⟩
  · intro e he
    refine lt_of_le_of_ne (hlo e.1 ?_) ?_
    · rw [← List.map_take]
      exact List.mem_map_of_mem he
    · rintro rfl
      exact hk (List.mem_map_of_mem (List.mem_of_mem_take he))
  · intro e he
    refine hhi e.1 ?_
    rw [← List.map_drop]
    exact List.mem_map_of_mem he

/-- A token between all that is before and all that is behind it may stand there. -/
private theorem pairwise_middle {α : Type} {R : α → α → Prop} {a b : List α} {x : α}
    (h : (a ++ b).Pairwise R) (ha : ∀ t ∈ a, R t x) (hb : ∀ t ∈ b, R x t) :
    (a ++ x :: b).Pairwise R := by
  obtain ⟨h1, h2, h3⟩ := List.pairwise_append.mp h
  refine List.pairwise_append.mpr ⟨h1, List.pairwise_cons.mpr ⟨hb, h2⟩, ?_⟩
  intro t ht u hu
  rcases List.mem_cons.mp hu with rfl | hu
  · exact ha t ht
  · exact h3 t ht u hu

/-- A separator may be put before any key, of the key's value. -/
private theorem pairwise_sep {a b : List (Token κ)} {k : κ}
    (h : (a ++ .key k :: b).Pairwise Token.Before) :
    (a ++ .sep k :: .key k :: b).Pairwise Token.Before := by
  obtain ⟨-, h2, h3⟩ := List.pairwise_append.mp h
  refine pairwise_middle h ?_ ?_
  · intro t ht
    have hb := h3 t ht _ List.mem_cons_self
    cases t <;> exact hb
  · intro t ht
    rcases List.mem_cons.mp ht with rfl | ht
    · exact le_refl k
    · have hb := (List.pairwise_cons.mp h2).1 t ht
      cases t <;> exact le_of_lt hb

/-! ## Exchanging a stretch of leaves -/

variable {tree tree' : BPlusTree κ} {seps seps' : List κ} {a b : List (Leaf κ)}

/-- Pages of the leaves outside a stretch are neither the root nor in it. -/
private theorem Level.apart (old : List (Leaf κ)) (h : Level tree seps (a ++ (old ++ b)))
    {l : Leaf κ} (hl : l ∈ a ∨ l ∈ b) :
    l.page ≠ tree.rootPageId ∧ ∀ o ∈ old, l.page ≠ o.page := by
  have hn := h.pages.owned_nodup
  rw [List.nodup_cons] at hn
  obtain ⟨hroot, hn⟩ := hn
  have hmem : l ∈ a ++ (old ++ b) := by
    simp only [List.mem_append]
    exact hl.elim Or.inl fun h => Or.inr (Or.inr h)
  refine ⟨fun he => hroot (he ▸ List.mem_map_of_mem hmem), ?_⟩
  intro o ho he
  simp only [List.map_append] at hn
  obtain ⟨-, hnb, hna⟩ := List.nodup_append.mp hn
  rcases hl with hl | hl
  · exact hna _ (List.mem_map_of_mem hl) _
      (List.mem_append_left _ (List.mem_map_of_mem ho)) he
  · exact (List.nodup_append.mp hnb).2.2 _ (List.mem_map_of_mem ho) _ (List.mem_map_of_mem hl)
      he.symm

private theorem Level.edit (old new : List (Leaf κ)) (h : Level tree seps (a ++ (old ++ b)))
    (hroot : tree'.store.nodes tree'.rootPageId =
      some (rootNode tree'.rootPageId seps' (a ++ (new ++ b))))
    (hcount : (a ++ (new ++ b)).length = seps'.length + 1)
    (hframe : ∀ l, l ∈ a ∨ l ∈ b → tree'.store.nodes l.page = tree.store.nodes l.page)
    (hnew : Chain tree'.store.nodes new (headPage b 0))
    (hhead : a = [] ∨ headPage new (headPage b 0) = headPage old (headPage b 0))
    (hord : (tokens (a ++ (new ++ b)) seps').Pairwise Token.Before)
    (hpages : Pages tree'.store (tree'.rootPageId :: (a ++ (new ++ b)).map Leaf.page)) :
    Level tree' seps' (a ++ (new ++ b)) := by
  refine ⟨hroot, hcount, ?_, hord, hpages⟩
  have hc := h.chain
  rw [Chain.append, Chain.append, headPage_append] at hc ⊢
  obtain ⟨ha, -, hb⟩ := hc
  refine ⟨?_, hnew, hb.congr fun l hl => hframe l (Or.inr hl)⟩
  rcases hhead with rfl | he
  · trivial
  · rw [he]
    exact ha.congr fun l hl => hframe l (Or.inl hl)

/-! ## One leaf -/

variable {left : List (Leaf κ × κ)} {l l' : Leaf κ} {right : List (κ × Leaf κ)} {m : κ → Option Nat}
  {key : κ}

private theorem Level.leaf_ne_root {leaves : List (Leaf κ)} (h : Level tree seps leaves)
    (hl : l ∈ leaves) : l.page ≠ tree.rootPageId := by
  intro he
  exact (List.nodup_cons.mp h.pages.owned_nodup).1 (he ▸ List.mem_map_of_mem hl)

/-- The same level with other entries in one leaf. -/
private theorem Level.writeLeaf
    (h : Level tree seps (left.map Prod.fst ++ l :: right.map Prod.snd))
    (hseps : seps = left.map Prod.snd ++ right.map Prod.fst) (hpage : l'.page = l.page)
    (hord : (leftTokens left ++ (l'.tokens ++ rightTokens right)).Pairwise Token.Before) :
    Level (tree.writeNode (l'.node (headPage (right.map Prod.snd) 0))) seps
      (left.map Prod.fst ++ l' :: right.map Prod.snd) := by
  have hl := h.leaf_ne_root (l := l) (by simp)
  have hmap : (left.map Prod.fst ++ l' :: right.map Prod.snd).map Leaf.page =
      (left.map Prod.fst ++ l :: right.map Prod.snd).map Leaf.page := by simp [hpage]
  refine Level.edit [l] [l'] h ?_ ?_ ?_ ?_ (Or.inr ?_) ?_ ?_
  · have hr := h.root
    rw [rootNode, ← hmap] at hr
    simp only [writeNode, NodeStore.writeNode_nodes, Leaf.node, hpage, hl.symm, if_false]
    exact hr
  · simpa using h.count
  · intro x hx
    have hne := (Level.apart [l] h hx).2 l List.mem_cons_self
    simp only [writeNode, NodeStore.writeNode_nodes, Leaf.node, hpage, hne, if_false]
  · refine ⟨?_, trivial⟩
    simp only [writeNode, NodeStore.writeNode_nodes, Leaf.node, if_true, headPage]
  · exact hpage
  · simp only [List.singleton_append, hseps, tokens_focus]
    exact hord
  · have hp := h.pages
    rw [← hmap] at hp
    exact hp.writeNode _

/-! ## Splitting -/

/-- The separator a cut produces may stand between the two halves. -/
private theorem split_tokens {l : Leaf κ} {mid : Nat} {sep : κ} {x y : List (Token κ)}
    (hsep : l.keys[mid]? = some sep) (p : Nat) (h : (x ++ (l.tokens ++ y)).Pairwise Token.Before) :
    (x ++ ((lower l mid).tokens ++ .sep sep :: ((upper l mid p).tokens ++ y))).Pairwise
      Token.Before := by
  obtain ⟨hlt, hk⟩ := List.getElem?_eq_some_iff.mp hsep
  have hlow : (lower l mid).tokens = (l.keys.take mid).map .key := by
    simp [lower, Leaf.tokens, Leaf.keys]
  have hhigh : (upper l mid p).tokens = .key sep :: (l.keys.drop (mid + 1)).map .key := by
    rw [upper, Leaf.tokens, Leaf.keys, List.map_drop, ← Leaf.keys, List.drop_eq_getElem_cons hlt,
      hk, List.map_cons]
  have hall : l.tokens = (l.keys.take mid).map .key ++
      .key sep :: (l.keys.drop (mid + 1)).map .key := by
    rw [Leaf.tokens, ← List.map_cons, ← hk, ← List.drop_eq_getElem_cons hlt, ← List.map_append,
      List.take_append_drop]
  rw [hall, List.append_assoc, ← List.append_assoc] at h
  rw [hlow, hhigh, ← List.append_assoc]
  exact pairwise_sep h

/-- The level after the two halves of `l` and the new root were written. -/
private theorem Level.split
    (h : Level tree (left.map Prod.snd ++ right.map Prod.fst)
      (left.map Prod.fst ++ l :: right.map Prod.snd))
    {p mid : Nat} {store : NodeStore κ} {sep : κ} (hp : tree.store.allocPage = (p, store))
    (hsep : l.keys[mid]? = some sep) :
    Level ⟨((store.writeNode ((lower l mid).node p)).writeNode
        ((upper l mid p).node (headPage (right.map Prod.snd) 0))).writeNode
        (rootNode tree.rootPageId (left.map Prod.snd ++ sep :: right.map Prod.fst)
          (left.map Prod.fst ++ (lower l mid :: upper l mid p :: right.map Prod.snd))),
        tree.rootPageId, tree.order⟩ (left.map Prod.snd ++ sep :: right.map Prod.fst)
        (left.map Prod.fst ++ (lower l mid :: upper l mid p :: right.map Prod.snd)) := by
  have halloc := h.pages.alloc
  have hfresh := h.pages.alloc_not_mem
  have hframe := fun q hq => h.pages.alloc_nodes (p := q) hq
  rw [hp] at halloc hfresh hframe
  have hmem : ∀ x ∈ left.map Prod.fst ++ l :: right.map Prod.snd, x.page ∈ tree.rootPageId ::
      (left.map Prod.fst ++ l :: right.map Prod.snd).map Leaf.page :=
    fun x hx => List.mem_cons_of_mem _ (List.mem_map_of_mem hx)
  have hpl : l.page ≠ p := fun he => hfresh (he ▸ hmem l (by simp))
  have hpr : tree.rootPageId ≠ p := fun he => hfresh (he ▸ List.mem_cons_self)
  have hlr := h.leaf_ne_root (l := l) (by simp)
  refine Level.edit [l] [lower l mid, upper l mid p] h ?_ ?_ ?_ ?_ (Or.inr rfl) ?_ ?_
  · exact Function.update_self _ _ _
  · have := h.count
    simp only [List.length_append, List.length_cons, List.length_map, List.length_nil] at this ⊢
    omega
  · intro x hx
    obtain ⟨hxr, hxl⟩ := Level.apart [l] h hx
    have hin := hmem x (by
      simp only [List.mem_append, List.mem_cons]
      exact hx.elim Or.inl fun hr => Or.inr (Or.inr hr))
    have hxp : x.page ≠ p := fun he => hfresh (he ▸ hin)
    simp only [NodeStore.writeNode_nodes, Leaf.node, rootNode, lower, upper, hxr, hxp,
      hxl l List.mem_cons_self, if_false]
    exact hframe _ hin
  · refine ⟨?_, ?_, trivial⟩
    · simp only [NodeStore.writeNode_nodes, Leaf.node, rootNode, lower, upper, hlr, hpl,
        if_false, if_true, headPage]
    · simp only [NodeStore.writeNode_nodes, Leaf.node, rootNode, upper, hpr.symm, if_false, if_true,
        headPage]
  · have hord := h.ordered
    rw [tokens_focus] at hord
    have hview := tokens_focus (left ++ [(lower l mid, sep)]) (upper l mid p) right
    simp only [List.map_append, List.map_cons, List.map_nil, List.append_assoc,
      List.singleton_append] at hview
    simp only [List.cons_append, List.nil_append]
    rw [hview]
    have hnew := split_tokens hsep p hord
    simpa [leftTokens] using hnew
  · have hperm : ((tree.rootPageId :: ((left.map Prod.fst).map Leaf.page ++ [l.page])) ++
        p :: (right.map Prod.snd).map Leaf.page).Perm (p :: ((tree.rootPageId ::
        ((left.map Prod.fst).map Leaf.page ++ [l.page])) ++
        (right.map Prod.snd).map Leaf.page)) := List.perm_middle
    have hpages := halloc.perm (by simpa using hperm.symm)
    refine ((Pages.writeNode ?_ _).writeNode _).writeNode _
    simpa [lower, upper] using hpages

/-- The keys of a leaf after a split, if it needs one. -/
def splitCounts (order n : Nat) : List Nat := if n ≤ order then [n] else [n / 2, n - n / 2]

omit [LinearOrder κ] in
private theorem keyCounts_halves (l : Leaf κ) (p : Nat) (h : ¬ l.keys.length ≤ tree.order) :
    keyCounts [lower l (l.keys.length / 2), upper l (l.keys.length / 2) p] =
      splitCounts tree.order l.keys.length := by
  rw [splitCounts, if_neg h]
  simp only [keyCounts, List.map_cons, List.map_nil, lower, upper, Leaf.keys, List.length_take,
    List.length_drop, List.length_map]
  rw [Nat.min_eq_left (Nat.div_le_self _ _)]

private theorem split_spec
    (h : Level tree (left.map Prod.snd ++ right.map Prod.fst)
      (left.map Prod.fst ++ l :: right.map Prod.snd))
    (hne : left.map Prod.snd ++ right.map Prod.fst ≠ []) :
    ∃ tree' leaves', splitAndPropagate [(rootNode tree.rootPageId
        (left.map Prod.snd ++ right.map Prod.fst)
        (left.map Prod.fst ++ l :: right.map Prod.snd), left.length)] tree = some tree' ∧
      Stands tree' leaves' ∧ tree'.order = tree.order ∧
      entriesOf leaves' = entriesOf (left.map Prod.fst ++ l :: right.map Prod.snd) ∧
      keyCounts leaves' = keyCounts (left.map Prod.fst) ++
        (splitCounts tree.order l.keys.length ++ keyCounts (right.map Prod.snd)) := by
  have hleaf : tree.readNode l.page = some (l.node (headPage (right.map Prod.snd) 0)) :=
    (Chain.append.mp h.chain).2.1
  have hnode : (l.node (headPage (right.map Prod.snd) 0)).keys = l.keys := rfl
  by_cases hsmall : l.keys.length ≤ tree.order
  · refine ⟨tree, _, ?_, Or.inr ⟨_, h, hne⟩, rfl, rfl, ?_⟩
    · simp [splitAndPropagate, rootNode_child, hleaf, hnode, hsmall]
    · simp [keyCounts, splitCounts, hsmall]
  · obtain ⟨sep, hsep⟩ : ∃ sep, l.keys[l.keys.length / 2]? = some sep :=
      ⟨_, List.getElem?_eq_getElem (by omega)⟩
    cases hp : tree.store.allocPage with
    | mk p store =>
      have hlevel := h.split hp hsep
      have hkeys : (rootNode tree.rootPageId (left.map Prod.snd ++ right.map Prod.fst)
          (left.map Prod.fst ++ l :: right.map Prod.snd)).keys.insertIdx left.length sep =
          left.map Prod.snd ++ sep :: right.map Prod.fst := by
        have := insertIdx_split (left.map Prod.snd) (right.map Prod.fst) sep
        rwa [List.length_map] at this
      have hchildren : (rootNode tree.rootPageId (left.map Prod.snd ++ right.map Prod.fst)
          (left.map Prod.fst ++ l :: right.map Prod.snd)).children.insertIdx (left.length + 1) p =
          (left.map Prod.fst ++ (lower l (l.keys.length / 2) ::
            upper l (l.keys.length / 2) p :: right.map Prod.snd)).map Leaf.page := by
        have := insertIdx_split ((left.map Prod.fst ++ [l]).map Leaf.page)
          ((right.map Prod.snd).map Leaf.page) p
        simpa [rootNode, lower, upper] using this
      have hcut := splitNode_leaf l (headPage (right.map Prod.snd) 0) (l.keys.length / 2) p
      refine ⟨_, _, ?_, Or.inr ⟨_, hlevel, by simp⟩, rfl, ?_, ?_⟩
      · have hinner := splitRoot_inner hlevel.root rfl
        simp only [splitAndPropagate, rootNode_child, Option.bind_eq_bind, Option.bind_some, hleaf,
          hnode, hsmall, if_false, hsep, hp, hcut, hkeys, hchildren]
        split
        · exact hinner
        · rfl
      · have hcat : (lower l (l.keys.length / 2)).entries ++
            (upper l (l.keys.length / 2) p).entries = l.entries := List.take_append_drop _ _
        simp [entriesOf, ← hcat]
      · rw [← keyCounts_halves l p hsmall]
        simp [keyCounts]

/-- The level of two leaves that a split of the root makes. -/
private theorem Single.split (h : Single tree l) {p r mid : Nat} {store store' : NodeStore κ}
    {sep : κ} (hp : tree.store.allocPage = (p, store))
    (hr : ((store.writeNode ((lower l mid).node p)).writeNode
      ((upper l mid p).node 0)).allocPage = (r, store')) (hsep : l.keys[mid]? = some sep) :
    Level ⟨store'.writeNode (rootNode r [sep] [lower l mid, upper l mid p]), r, tree.order⟩ [sep]
      [lower l mid, upper l mid p] := by
  have halloc := h.pages.alloc
  rw [hp] at halloc
  have hwritten := (halloc.writeNode ((lower l mid).node p)).writeNode ((upper l mid p).node 0)
  have halloc' := hwritten.alloc
  have hframe := fun q hq => hwritten.alloc_nodes (p := q) hq
  rw [hr] at halloc' hframe
  have hn := halloc'.owned_nodup
  simp only [List.nodup_cons, List.mem_cons, not_or, List.not_mem_nil, or_false] at hn
  obtain ⟨⟨hrp, hrroot⟩, hproot, -⟩ := hn
  have hlow : l.page ≠ p := by
    rw [h.page]
    exact fun he => hproot he.symm
  have hlowr : l.page ≠ r := by
    rw [h.page]
    exact fun he => hrroot he.symm
  refine ⟨Function.update_self _ _ _, rfl, ⟨?_, ?_, trivial⟩, ?_, ?_⟩
  · have hread := hframe l.page (by simp [h.page])
    simp only [NodeStore.writeNode_nodes, rootNode, lower, upper, Leaf.node, hlowr, hlow, if_false,
      if_true, headPage] at hread ⊢
    exact hread
  · have hread := hframe p (by simp)
    have hpr : p ≠ r := fun he => hrp he.symm
    simp only [NodeStore.writeNode_nodes, rootNode, upper, Leaf.node, hpr, if_false, if_true,
      headPage] at hread ⊢
    exact hread
  · have hord := h.ordered
    have hnew := split_tokens (x := []) (y := []) hsep p (by simpa using hord)
    simpa [tokens] using hnew
  · refine Pages.writeNode (halloc'.perm ?_) _
    simp only [List.map_cons, List.map_nil, lower, upper, h.page]
    exact (List.Perm.swap _ _ _).cons r

private theorem splitRoot_spec (h : Single tree l) :
    ∃ tree' leaves', tree.splitRoot = some tree' ∧ Stands tree' leaves' ∧
      tree'.order = tree.order ∧ entriesOf leaves' = l.entries ∧
      keyCounts leaves' = splitCounts tree.order l.keys.length := by
  have hroot : tree.readNode tree.rootPageId = some (l.node 0) := h.root
  have hleaf : (l.node 0).isLeaf = true := rfl
  have hnode : (l.node 0).keys = l.keys := rfl
  by_cases hsmall : l.keys.length ≤ tree.order
  · refine ⟨tree, [l], by simp [splitRoot, hroot, hleaf, hnode, hsmall], Or.inl ⟨l, h, rfl⟩, rfl,
      by simp [entriesOf], ?_⟩
    simp [keyCounts, splitCounts, hsmall]
  · obtain ⟨sep, hsep⟩ : ∃ sep, l.keys[l.keys.length / 2]? = some sep :=
      ⟨_, List.getElem?_eq_getElem (by omega)⟩
    cases hp : tree.store.allocPage with
    | mk p store =>
      cases hr : ((store.writeNode ((lower l (l.keys.length / 2)).node p)).writeNode
          ((upper l (l.keys.length / 2) p).node 0)).allocPage with
      | mk r store' =>
        refine ⟨_, _, ?_, Or.inr ⟨_, h.split hp hr hsep, by simp⟩, rfl, ?_,
          keyCounts_halves l p hsmall⟩
        · simp only [splitRoot, hroot, Option.bind_eq_bind, Option.bind_some, hleaf, not_true,
            hnode, hsmall, or_self, if_false, hsep, hp, splitNode_leaf, hr]
          rfl
        · have hcat : (lower l (l.keys.length / 2)).entries ++
              (upper l (l.keys.length / 2) p).entries = l.entries := List.take_append_drop _ _
          simp [entriesOf, ← hcat]

/-! ## Inserting -/

/-- `l'` is the leaf `l` with the mapping of the key set. -/
private structure LeafInsert (l l' : Leaf κ) (key : κ) (rowid : Nat) : Prop where
  page : l'.page = l.page
  count : l'.keys.length = if key ∈ l.keys then l.keys.length else l.keys.length + 1
  lists : ∀ before after (m : κ → Option Nat), Lists (before ++ (l.entries ++ after)) m →
    key ∉ before.map Prod.fst → key ∉ after.map Prod.fst →
      Lists (before ++ (l'.entries ++ after)) (Function.update m key (some rowid))
  result : ∀ (tree : BPlusTree κ) next path,
    tree.findLeafWithPath key = some (l.node next, path) →
      tree.insert key rowid =
        if key ∉ l.keys ∧ tree.order < l'.keys.length then
          splitAndPropagate path (tree.writeNode (l'.node next))
        else some (tree.writeNode (l'.node next))

private theorem insert_found {pre post : List (κ × Nat)} {v : Nat}
    (hl : l.entries = pre ++ (key, v) :: post)
    (hi : l.keys.findIdx? (· = key) = some pre.length) (rowid : Nat) :
    LeafInsert l ⟨l.page, pre ++ (key, rowid) :: post⟩ key rowid where
  page := rfl
  count := by
    have hin : key ∈ l.keys := by simp [Leaf.keys, hl]
    rw [if_pos hin]
    simp [Leaf.keys, hl]
  lists := by
    intro before after m hm _ _
    rw [hl, List.append_assoc, ← List.append_assoc] at hm
    rw [List.append_assoc, ← List.append_assoc]
    exact hm.replace
  result := by
    intro tree next path hfind
    have hin : key ∈ l.keys := by simp [Leaf.keys, hl]
    rw [if_neg fun h => h.1 hin]
    have hkeys : l.keys = (pre ++ (key, rowid) :: post).map Prod.fst := by
      simp [Leaf.keys, hl]
    have hvalues : setAt l.values pre.length rowid =
        some ((pre ++ (key, rowid) :: post).map Prod.snd) := by
      have := setAt_split (pre.map Prod.snd) (post.map Prod.snd) v rowid
      simpa [Leaf.values, hl] using this
    have hnkeys : (l.node next).keys = l.keys := rfl
    have hnvalues : (l.node next).values = l.values := rfl
    simp only [insert, hfind, Option.bind_eq_bind, Option.bind_some, hnkeys, hnvalues, hi, hvalues]
    simp only [Leaf.node, hkeys]
    rfl

private theorem insert_new {pre post : List (κ × Nat)} (hl : l.entries = pre ++ post)
    (hi : l.keys.findIdx? (· = key) = none) (hb : bisectRight l.keys key = pre.length)
    (hnot : key ∉ l.keys) (rowid : Nat) :
    LeafInsert l ⟨l.page, pre ++ (key, rowid) :: post⟩ key rowid where
  page := rfl
  count := by
    rw [if_neg hnot]
    simp [Leaf.keys, hl, Nat.add_assoc]
  lists := by
    intro before after m hm hbefore hafter
    rw [hl, List.append_assoc, ← List.append_assoc] at hm
    rw [List.append_assoc, List.cons_append, ← List.append_assoc]
    refine hm.insert ?_
    rw [Leaf.keys, hl, List.map_append, List.mem_append, not_or] at hnot
    simp only [List.map_append, List.mem_append, not_or]
    exact ⟨⟨hbefore, hnot.1⟩, hnot.2, hafter⟩
  result := by
    intro tree next path hfind
    have hkeys : l.keys.insertIdx pre.length key =
        (pre ++ (key, rowid) :: post).map Prod.fst := by
      have := insertIdx_split (pre.map Prod.fst) (post.map Prod.fst) key
      simpa [Leaf.keys, hl] using this
    have hvalues : l.values.insertIdx pre.length rowid =
        (pre ++ (key, rowid) :: post).map Prod.snd := by
      have := insertIdx_split (pre.map Prod.snd) (post.map Prod.snd) rowid
      simpa [Leaf.values, hl] using this
    have hnkeys : (l.node next).keys = l.keys := rfl
    have hnvalues : (l.node next).values = l.values := rfl
    simp only [insert, hfind, Option.bind_eq_bind, Option.bind_some, hnkeys, hnvalues, hi, hb,
      hkeys, hvalues, hnot, not_false_eq_true, true_and]
    rfl

/-- Setting the mapping of a key that belongs into the leaf. -/
private theorem exists_leafInsert (key : κ) (rowid : Nat) (x y : List (Token κ))
    (hord : (x ++ (l.tokens ++ y)).Pairwise Token.Before)
    (hx : ∀ t ∈ x, t.Before (.key key)) (hy : ∀ t ∈ y, (Token.key key).Before t) :
    ∃ l', LeafInsert l l' key rowid ∧ (x ++ (l'.tokens ++ y)).Pairwise Token.Before := by
  have hsorted := keys_pairwise (List.pairwise_append.mp (List.pairwise_append.mp hord).2.1).1
  cases hi : l.keys.findIdx? (· = key) with
  | some i =>
    obtain ⟨pre, v, post, hl, rfl⟩ := exists_entry hi
    refine ⟨_, insert_found hl hi rowid, ?_⟩
    have htokens : (Leaf.mk l.page (pre ++ (key, rowid) :: post)).tokens = l.tokens := by
      simp [Leaf.tokens, Leaf.keys, hl]
    rw [htokens]
    exact hord
  | none =>
    have hnot : key ∉ l.keys := by
      intro hk
      have := List.findIdx?_eq_none_iff.mp hi key hk
      simp at this
    obtain ⟨pre, post, hl, hb, hlow, hhigh⟩ := exists_gap hsorted hnot
    refine ⟨_, insert_new hl hi hb hnot rowid, ?_⟩
    have hold : l.tokens = pre.map (.key ∘ Prod.fst) ++ post.map (.key ∘ Prod.fst) := by
      simp [Leaf.tokens, Leaf.keys, hl]
    have hnew : (Leaf.mk l.page (pre ++ (key, rowid) :: post)).tokens =
        pre.map (.key ∘ Prod.fst) ++ .key key :: post.map (.key ∘ Prod.fst) := by
      simp [Leaf.tokens, Leaf.keys]
    rw [hold, List.append_assoc, ← List.append_assoc] at hord
    rw [hnew, List.append_assoc, List.cons_append, ← List.append_assoc]
    refine pairwise_middle hord ?_ ?_
    · intro t ht
      rcases List.mem_append.mp ht with ht | ht
      · exact hx t ht
      · obtain ⟨e, he, rfl⟩ := List.mem_map.mp ht
        exact hlow e he
    · intro t ht
      rcases List.mem_append.mp ht with ht | ht
      · obtain ⟨e, he, rfl⟩ := List.mem_map.mp ht
        exact hhigh e he
      · exact hy t ht

/-- A leaf root with other entries. -/
private theorem Single.writeLeaf (h : Single tree l) (hpage : l'.page = l.page)
    (hord : l'.tokens.Pairwise Token.Before) : Single (tree.writeNode (l'.node 0)) l' where
  page := hpage.trans h.page
  root := by
    have he : tree.rootPageId = (l'.node 0).pageId := (hpage.trans h.page).symm
    simp only [writeNode, NodeStore.writeNode_nodes, he, if_true]
  ordered := hord
  pages := h.pages.writeNode _

private theorem Focus.not_left (h : Focus tree key left l right) :
    key ∉ (entriesOf (left.map Prod.fst)).map Prod.fst := by
  intro hk
  obtain ⟨e, he, rfl⟩ := List.mem_map.mp hk
  exact lt_irrefl _ (h.left_before _ (mem_leftTokens he))

private theorem Focus.not_right (h : Focus tree key left l right) :
    key ∉ (entriesOf (right.map Prod.snd)).map Prod.fst := by
  intro hk
  obtain ⟨e, he, rfl⟩ := List.mem_map.mp hk
  exact lt_irrefl _ (h.before_right _ (mem_rightTokens he))

private theorem Focus.seps_ne_nil (hf : Focus tree key left l right)
    (h : Level tree seps (left.map Prod.fst ++ l :: right.map Prod.snd)) (hne : seps ≠ []) :
    left.map Prod.snd ++ right.map Prod.fst ≠ [] := by
  intro he
  have hcount := hf.level.count
  rw [h.count, he, List.length_nil, Nat.zero_add, Nat.add_eq_right, List.length_eq_zero_iff]
    at hcount
  exact hne hcount

/-- Where an insert goes, and the number of keys in the leaves before and after it. -/
structure Grown (tree : BPlusTree κ) (key : κ) (leaf : Node κ) (path : Path κ)
    (leaves leaves' : List (Leaf κ)) : Prop where
  found : tree.findLeafWithPath key = some (leaf, path)
  root : (path = [] ∧ leaves.length = 1) ∨
    ∃ root i, path = [(root, i)] ∧ root.keys.length + 1 = leaves.length
  counts : ∃ before after, keyCounts leaves = before ++ leaf.keys.length :: after ∧
    keyCounts leaves' = before ++ ((if key ∈ leaf.keys then [leaf.keys.length]
      else splitCounts tree.order (leaf.keys.length + 1)) ++ after)

theorem insert_spec {leaves : List (Leaf κ)} (h : Stands tree leaves)
    (hm : Lists (entriesOf leaves) m) (key : κ) (rowid : Nat) :
    ∃ tree' leaves' leaf path, tree.insert key rowid = some tree' ∧ Stands tree' leaves' ∧
      tree'.order = tree.order ∧ Lists (entriesOf leaves') (Function.update m key (some rowid)) ∧
      Grown tree key leaf path leaves leaves' := by
  rcases h with ⟨l, h, rfl⟩ | ⟨seps, h, hne⟩
  · obtain ⟨l', hi, hord⟩ := exists_leafInsert key rowid [] []
      (by simpa using h.ordered) (by simp) (by simp)
    have hs := h.writeLeaf hi.page (by simpa using hord)
    have hl := hi.lists [] [] m (by simpa [entriesOf] using hm) (by simp) (by simp)
    rw [List.nil_append, List.append_nil] at hl
    have hfind := h.findLeafWithPath key
    have hresult := hi.result tree 0 [] hfind
    have hcount := hi.count
    by_cases hsplit : key ∉ l.keys ∧ tree.order < l'.keys.length
    · obtain ⟨tree', leaves', htree, hstands, ho, hentries, hcounts⟩ := splitRoot_spec hs
      rw [if_pos hsplit] at hresult
      rw [if_neg hsplit.1] at hcount
      refine ⟨tree', leaves', _, _, hresult.trans htree, hstands, ho, by rw [hentries]; exact hl,
        hfind, Or.inl ⟨rfl, rfl⟩, [], [], rfl, ?_⟩
      have hkeys : (l.node 0).keys = l.keys := rfl
      rw [hcounts, hkeys, if_neg hsplit.1, ← hcount]
      simp [writeNode]
    · rw [if_neg hsplit] at hresult
      refine ⟨_, [l'], _, _, hresult, Or.inl ⟨l', hs, rfl⟩, rfl, by simpa [entriesOf] using hl,
        hfind, Or.inl ⟨rfl, rfl⟩, [], [], rfl, ?_⟩
      have hkeys : (l.node 0).keys = l.keys := rfl
      rw [hkeys]
      by_cases hin : key ∈ l.keys
      · rw [if_pos hin] at hcount ⊢
        simp [keyCounts, hcount]
      · rw [if_neg hin] at hcount ⊢
        have hle : l'.keys.length ≤ tree.order := Nat.le_of_not_lt fun hlt => hsplit ⟨hin, hlt⟩
        simp [keyCounts, splitCounts, ← hcount, hle]
  · obtain ⟨left, l, right, hf, rfl⟩ := h.exists_focus key
    have hne' := hf.seps_ne_nil h hne
    have hold := hf.level.ordered
    rw [tokens_focus] at hold
    obtain ⟨l', hi, hord⟩ := exists_leafInsert key rowid _ _ hold hf.left_before hf.before_right
    have hw := hf.level.writeLeaf rfl hi.page hord
    rw [entriesOf_focus] at hm
    have hl := hi.lists _ _ m hm hf.not_left hf.not_right
    rw [← entriesOf_focus] at hl
    have hfind := hf.findLeafWithPath
    have hresult := hi.result tree _ _ hfind
    have hcount := hi.count
    have hroot : ∃ root i, [(rootNode tree.rootPageId (left.map Prod.snd ++ right.map Prod.fst)
        (left.map Prod.fst ++ l :: right.map Prod.snd), left.length)] = [(root, i)] ∧
        root.keys.length + 1 = (left.map Prod.fst ++ l :: right.map Prod.snd).length :=
      ⟨_, _, rfl, hf.level.count.symm⟩
    have hcounts : keyCounts (left.map Prod.fst ++ l :: right.map Prod.snd) =
        keyCounts (left.map Prod.fst) ++ l.keys.length :: keyCounts (right.map Prod.snd) := by
      simp [keyCounts]
    by_cases hsplit : key ∉ l.keys ∧ tree.order < l'.keys.length
    · obtain ⟨tree', leaves', htree, hstands, ho, hentries, hcounts'⟩ := split_spec hw hne'
      rw [if_pos hsplit] at hresult
      rw [if_neg hsplit.1] at hcount
      refine ⟨tree', leaves', _, _, hresult.trans ?_, hstands, ho, by rw [hentries]; exact hl,
        hfind, Or.inr hroot, _, _, hcounts, ?_⟩
      · rw [← htree]
        simp [rootNode, hi.page, writeNode]
      · have hkeys : (l.node (headPage (right.map Prod.snd) 0)).keys = l.keys := rfl
        rw [hcounts', hkeys, if_neg hsplit.1, ← hcount]
        rfl
    · rw [if_neg hsplit] at hresult
      refine ⟨_, _, _, _, hresult, Or.inr ⟨_, hw, hne'⟩, rfl, hl, hfind, Or.inr hroot, _, _,
        hcounts, ?_⟩
      have hkeys : (l.node (headPage (right.map Prod.snd) 0)).keys = l.keys := rfl
      rw [hkeys]
      by_cases hin : key ∈ l.keys
      · rw [if_pos hin] at hcount ⊢
        simp [keyCounts, hcount]
      · rw [if_neg hin] at hcount ⊢
        have hle : l'.keys.length ≤ tree.order := Nat.le_of_not_lt fun hlt => hsplit ⟨hin, hlt⟩
        simp [keyCounts, splitCounts, ← hcount, hle]

/-! ## Rebalancing -/

variable {u w g : Leaf κ} {s : κ}

/-- A root without separators gives way to its only leaf. -/
private theorem Level.shrink {leaves : List (Leaf κ)} (h : Level tree seps leaves) :
    Stands (tree.maybeShrinkRoot (rootNode tree.rootPageId seps leaves)) leaves ∧
      (tree.maybeShrinkRoot (rootNode tree.rootPageId seps leaves)).order = tree.order := by
  cases leaves with
  | nil => cases h.count
  | cons l leaves =>
    cases seps with
    | cons s seps =>
      have he : tree.maybeShrinkRoot (rootNode tree.rootPageId (s :: seps) (l :: leaves)) = tree := by
        simp [maybeShrinkRoot, rootNode]
      rw [he]
      exact ⟨Or.inr ⟨_, h, List.cons_ne_nil _ _⟩, rfl⟩
    | nil =>
      obtain rfl : leaves = [] := by
        have := h.count
        simpa using this
      have he : tree.maybeShrinkRoot (rootNode tree.rootPageId [] [l]) =
          ⟨tree.store.freePage tree.rootPageId, l.page, tree.order⟩ := by
        simp [maybeShrinkRoot, rootNode, freePage]
      rw [he]
      refine ⟨Or.inl ⟨l, ⟨rfl, ?_, ?_, h.pages.freePage⟩, rfl⟩, rfl⟩
      · have hne := h.leaf_ne_root List.mem_cons_self
        simp only [NodeStore.freePage_nodes, hne, if_false]
        exact h.chain.1
      · simpa [tokens] using h.ordered

private theorem Level.pair
    (h : Level tree seps (left.map Prod.fst ++ u :: w :: right.map Prod.snd)) :
    u.page ≠ w.page ∧ u.page ≠ tree.rootPageId ∧ w.page ≠ tree.rootPageId := by
  refine ⟨?_, h.leaf_ne_root (by simp), h.leaf_ne_root (by simp)⟩
  have hn := h.pages.owned_nodup
  simp only [List.map_append, List.map_cons] at hn
  have hpair := (List.nodup_append.mp (List.nodup_cons.mp hn).2).2.1
  exact fun he => (List.nodup_cons.mp hpair).1 (he ▸ List.mem_cons_self)

/-- The level after the entries of two neighbours were dealt out anew. -/
private theorem Level.redistribute (left : List (Leaf κ × κ)) (u' w' : Leaf κ) (sep : κ)
    (h : Level tree (left.map Prod.snd ++ s :: right.map Prod.fst)
      (left.map Prod.fst ++ u :: w :: right.map Prod.snd))
    (hu : u'.page = u.page) (hw : w'.page = w.page)
    (hall : u'.entries ++ w'.entries = u.entries ++ w.entries) (hsep : w'.keys.head? = some sep) :
    Level ⟨((tree.store.writeNode (u'.node w.page)).writeNode
        (w'.node (headPage (right.map Prod.snd) 0))).writeNode
        (rootNode tree.rootPageId (left.map Prod.snd ++ sep :: right.map Prod.fst)
          (left.map Prod.fst ++ u' :: w' :: right.map Prod.snd)), tree.rootPageId, tree.order⟩
      (left.map Prod.snd ++ sep :: right.map Prod.fst)
      (left.map Prod.fst ++ u' :: w' :: right.map Prod.snd) := by
  obtain ⟨huw, hur, hwr⟩ := h.pair
  refine Level.edit [u, w] [u', w'] h ?_ ?_ ?_ ?_ (Or.inr hu) ?_ ?_
  · exact Function.update_self _ _ _
  · simpa using h.count
  · intro x hx
    obtain ⟨hxr, hxo⟩ := Level.apart [u, w] h hx
    have hxu := hxo u (by simp)
    have hxw := hxo w (by simp)
    simp only [NodeStore.writeNode_nodes, Leaf.node, rootNode, hu, hw, hxr, hxu, hxw, if_false]
  · refine ⟨?_, ?_, trivial⟩
    · simp only [NodeStore.writeNode_nodes, Leaf.node, rootNode, hu, hw, hur, huw, if_false,
        if_true, headPage]
    · simp only [NodeStore.writeNode_nodes, Leaf.node, rootNode, hw, hwr, if_false, if_true,
        headPage]
  · have hord := h.ordered
    rw [tokens_pair] at hord
    have hcat : u'.tokens ++ w'.tokens = u.tokens ++ w.tokens := by
      simp only [Leaf.tokens, Leaf.keys, ← List.map_append, hall]
    obtain ⟨rest, hrest⟩ : ∃ rest, w'.tokens = .key sep :: rest := by
      obtain ⟨keys, hkeys⟩ := List.head?_eq_some_iff.mp hsep
      exact ⟨keys.map .key, by rw [Leaf.tokens, hkeys, List.map_cons]⟩
    -- the old separator goes, the new one comes before the key it equals
    have hold : (leftTokens left ++ (u.tokens ++ (w.tokens ++ rightTokens right))).Pairwise
        Token.Before := by
      refine hord.sublist ?_
      exact (List.Sublist.refl _).append ((List.Sublist.refl _).append (List.sublist_cons_self _ _))
    rw [← List.append_assoc u.tokens, ← hcat, List.append_assoc, hrest, List.cons_append,
      ← List.append_assoc] at hold
    simp only [List.cons_append, List.nil_append]
    rw [tokens_pair, hrest, List.cons_append, ← List.append_assoc]
    exact pairwise_sep hold
  · have hmap : (left.map Prod.fst ++ ([u', w'] ++ right.map Prod.snd)).map Leaf.page =
        (left.map Prod.fst ++ u :: w :: right.map Prod.snd).map Leaf.page := by simp [hu, hw]
    have hp := h.pages
    rw [← hmap] at hp
    exact ((hp.writeNode _).writeNode _).writeNode _

/-- The level after `g` took over the entries of two neighbours and the page `q`
of the other one was freed. -/
private theorem Level.merge (left : List (Leaf κ × κ)) (g : Leaf κ)
    (h : Level tree (left.map Prod.snd ++ s :: right.map Prod.fst)
      (left.map Prod.fst ++ u :: w :: right.map Prod.snd))
    (hg : g.entries = u.entries ++ w.entries) {q : Nat}
    (hpages : g.page = u.page ∧ q = w.page ∨ left = [] ∧ g.page = w.page ∧ q = u.page) :
    Level ⟨((tree.store.writeNode (g.node (headPage (right.map Prod.snd) 0))).freePage q).writeNode
        (rootNode tree.rootPageId (left.map Prod.snd ++ right.map Prod.fst)
          (left.map Prod.fst ++ g :: right.map Prod.snd)), tree.rootPageId, tree.order⟩
      (left.map Prod.snd ++ right.map Prod.fst) (left.map Prod.fst ++ g :: right.map Prod.snd) := by
  obtain ⟨huw, hu, hw⟩ := h.pair
  have hgq : g.page ≠ q := by
    rcases hpages with ⟨hp, hq⟩ | ⟨-, hp, hq⟩
    · rw [hp, hq]
      exact huw
    · rw [hp, hq]
      exact huw.symm
  have hgr : g.page ≠ tree.rootPageId := by
    rcases hpages with ⟨hp, -⟩ | ⟨-, hp, -⟩
    · rw [hp]
      exact hu
    · rw [hp]
      exact hw
  refine Level.edit [u, w] [g] h ?_ ?_ ?_ ?_ ?_ ?_ ?_
  · exact Function.update_self _ _ _
  · have := h.count
    simp only [List.length_append, List.length_cons, List.length_map, List.length_nil] at this ⊢
    omega
  · intro x hx
    obtain ⟨hxr, hxo⟩ := Level.apart [u, w] h hx
    have hxu := hxo u (by simp)
    have hxw := hxo w (by simp)
    have hxg : x.page ≠ g.page ∧ x.page ≠ q := by
      rcases hpages with ⟨hp, hq⟩ | ⟨-, hp, hq⟩
      · rw [hp, hq]
        exact ⟨hxu, hxw⟩
      · rw [hp, hq]
        exact ⟨hxw, hxu⟩
    simp only [NodeStore.writeNode_nodes, NodeStore.freePage_nodes, Leaf.node, rootNode, hxr,
      hxg.1, hxg.2, if_false]
  · refine ⟨?_, trivial⟩
    simp only [NodeStore.writeNode_nodes, NodeStore.freePage_nodes, Leaf.node, rootNode, hgr, hgq,
      if_false, if_true, headPage]
  · rcases hpages with ⟨hp, -⟩ | ⟨rfl, -⟩
    · exact Or.inr hp
    · exact Or.inl rfl
  · have hord := h.ordered
    rw [tokens_pair] at hord
    simp only [List.singleton_append, tokens_focus]
    have htokens : g.tokens = u.tokens ++ w.tokens := by
      simp [Leaf.tokens, Leaf.keys, hg]
    rw [htokens, List.append_assoc]
    refine hord.sublist ?_
    exact (List.Sublist.refl _).append ((List.Sublist.refl _).append (List.sublist_cons_self _ _))
  · have hperm : (tree.rootPageId :: (left.map Prod.fst ++ u :: w :: right.map Prod.snd).map
        Leaf.page).Perm (q :: tree.rootPageId ::
          (left.map Prod.fst ++ ([g] ++ right.map Prod.snd)).map Leaf.page) := by
      simp only [List.map_append, List.map_cons, List.cons_append, List.nil_append]
      rcases hpages with ⟨hp, hq⟩ | ⟨rfl, hp, hq⟩
      · rw [hp, hq]
        have hmiddle : ((tree.rootPageId :: ((left.map Prod.fst).map Leaf.page ++ [u.page])) ++
            w.page :: (right.map Prod.snd).map Leaf.page).Perm (w.page :: ((tree.rootPageId ::
            ((left.map Prod.fst).map Leaf.page ++ [u.page])) ++
            (right.map Prod.snd).map Leaf.page)) := List.perm_middle
        simpa using hmiddle
      · rw [hp, hq]
        exact List.Perm.swap _ _ _
    exact Pages.writeNode (Pages.freePage ((h.pages.perm hperm).writeNode _)) _

private theorem redistributeLeft_spec
    (h : Level tree (left.map Prod.snd ++ s :: right.map Prod.fst)
      (left.map Prod.fst ++ u :: w :: right.map Prod.snd)) (hu : u.keys ≠ []) :
    ∃ tree' leaves', tree.redistributeLeft (rootNode tree.rootPageId
        (left.map Prod.snd ++ s :: right.map Prod.fst)
        (left.map Prod.fst ++ u :: w :: right.map Prod.snd)) (left.length + 1)
        (u.node w.page) (w.node (headPage (right.map Prod.snd) 0)) = some tree' ∧
      Stands tree' leaves' ∧ tree'.order = tree.order ∧
      entriesOf leaves' = entriesOf (left.map Prod.fst ++ u :: w :: right.map Prod.snd) ∧
      keyCounts leaves' = keyCounts (left.map Prod.fst) ++
        (u.keys.length - 1) :: (w.keys.length + 1) :: keyCounts (right.map Prod.snd) := by
  have hne : u.entries ≠ [] := by
    intro he
    exact hu (by rw [Leaf.keys, he, List.map_nil])
  obtain ⟨ue, ⟨k, v⟩, hue⟩ := List.eq_nil_or_concat u.entries |>.resolve_left hne
  rw [List.concat_eq_append] at hue
  have hlevel := h.redistribute left ⟨u.page, ue⟩ ⟨w.page, (k, v) :: w.entries⟩ k rfl rfl
    (by rw [hue, List.append_assoc, List.singleton_append]) rfl
  refine ⟨_, _, ?_, Or.inr ⟨_, hlevel, by simp⟩, rfl, ?_, ?_⟩
  · have hset : setAt (left.map Prod.snd ++ s :: right.map Prod.fst) left.length k =
        some (left.map Prod.snd ++ k :: right.map Prod.fst) := by
      have := setAt_split (left.map Prod.snd) (right.map Prod.fst) s k
      rwa [List.length_map] at this
    simp [redistributeLeft, Leaf.node, Leaf.keys, Leaf.values, hue, rootNode, hset, writeNode]
  · simp [entriesOf, hue]
  · simp [keyCounts, Leaf.keys, hue]

private theorem redistributeRight_spec
    (h : Level tree (s :: right.map Prod.fst) (u :: w :: right.map Prod.snd))
    (hw : 1 < w.keys.length) :
    ∃ tree' leaves', tree.redistributeRight (rootNode tree.rootPageId (s :: right.map Prod.fst)
        (u :: w :: right.map Prod.snd)) 0 (u.node w.page)
        (w.node (headPage (right.map Prod.snd) 0)) = some tree' ∧
      Stands tree' leaves' ∧ tree'.order = tree.order ∧
      entriesOf leaves' = entriesOf (u :: w :: right.map Prod.snd) ∧
      keyCounts leaves' =
        (u.keys.length + 1) :: (w.keys.length - 1) :: keyCounts (right.map Prod.snd) := by
  obtain ⟨⟨k, v⟩, ⟨k', v'⟩, we, hwe⟩ : ∃ e e' we, w.entries = e :: e' :: we := by
    cases hw' : w.entries with
    | nil => simp [Leaf.keys, hw'] at hw
    | cons e rest =>
      cases rest with
      | nil => simp [Leaf.keys, hw'] at hw
      | cons e' rest => exact ⟨e, e', rest, rfl⟩
  have hlevel := Level.redistribute [] ⟨u.page, u.entries ++ [(k, v)]⟩ ⟨w.page, (k', v') :: we⟩ k' h
    rfl rfl (by simp [hwe]) rfl
  refine ⟨_, _, ?_, Or.inr ⟨_, hlevel, by simp⟩, rfl, ?_, ?_⟩
  · simp [redistributeRight, Leaf.node, Leaf.keys, Leaf.values, hwe, rootNode, setAt, writeNode]
  · simp [entriesOf, hwe]
  · simp [keyCounts, Leaf.keys, hwe]

private theorem mergeIntoLeft_spec
    (h : Level tree (left.map Prod.snd ++ s :: right.map Prod.fst)
      (left.map Prod.fst ++ u :: w :: right.map Prod.snd)) :
    ∃ tree' leaves', tree.mergeIntoLeft (rootNode tree.rootPageId
        (left.map Prod.snd ++ s :: right.map Prod.fst)
        (left.map Prod.fst ++ u :: w :: right.map Prod.snd)) (left.length + 1)
        (u.node w.page) (w.node (headPage (right.map Prod.snd) 0)) = some tree' ∧
      Stands tree' leaves' ∧ tree'.order = tree.order ∧
      entriesOf leaves' = entriesOf (left.map Prod.fst ++ u :: w :: right.map Prod.snd) ∧
      keyCounts leaves' = keyCounts (left.map Prod.fst) ++
        (u.keys.length + w.keys.length) :: keyCounts (right.map Prod.snd) := by
  have hlevel := h.merge left ⟨u.page, u.entries ++ w.entries⟩ rfl (Or.inl ⟨rfl, rfl⟩)
  have hkeys : popAt (left.map Prod.snd ++ s :: right.map Prod.fst) left.length =
      some (left.map Prod.snd ++ right.map Prod.fst) := by
    have := popAt_split (left.map Prod.snd) (right.map Prod.fst) s
    rwa [List.length_map] at this
  have hchildren : popAt ((left.map Prod.fst ++ u :: w :: right.map Prod.snd).map Leaf.page)
      (left.length + 1) = some ((left.map Prod.fst ++
        ⟨u.page, u.entries ++ w.entries⟩ :: right.map Prod.snd).map Leaf.page) := by
    have := popAt_split ((left.map Prod.fst ++ [u]).map Leaf.page)
      ((right.map Prod.snd).map Leaf.page) w.page
    simpa using this
  refine ⟨_, _, ?_, hlevel.shrink.1, hlevel.shrink.2, by simp [entriesOf],
    by simp [keyCounts, Leaf.keys]⟩
  simp only [mergeIntoLeft, dropChild, Leaf.node, rootNode, if_true, Nat.add_sub_cancel, hkeys,
    hchildren, Option.bind_eq_bind, Option.bind_some]
  simp only [Leaf.keys, Leaf.values, List.map_append]
  rfl

private theorem mergeIntoRight_spec
    (h : Level tree (s :: right.map Prod.fst) (u :: w :: right.map Prod.snd)) :
    ∃ tree' leaves', tree.mergeIntoRight (rootNode tree.rootPageId (s :: right.map Prod.fst)
        (u :: w :: right.map Prod.snd)) 0 (u.node w.page)
        (w.node (headPage (right.map Prod.snd) 0)) = some tree' ∧
      Stands tree' leaves' ∧ tree'.order = tree.order ∧
      entriesOf leaves' = entriesOf (u :: w :: right.map Prod.snd) ∧
      keyCounts leaves' = (u.keys.length + w.keys.length) :: keyCounts (right.map Prod.snd) := by
  have hlevel := Level.merge [] ⟨w.page, u.entries ++ w.entries⟩ h rfl
    (Or.inr ⟨rfl, rfl, rfl⟩)
  refine ⟨_, _, ?_, hlevel.shrink.1, hlevel.shrink.2, by simp [entriesOf],
    by simp [keyCounts, Leaf.keys]⟩
  simp only [mergeIntoRight, dropChild, Leaf.node, rootNode, if_true, popAt, List.length_cons,
    List.map_cons, Nat.succ_pos, List.eraseIdx_cons_zero, Option.bind_eq_bind, Option.bind_some,
    Leaf.keys, Leaf.values, List.map_append]
  rfl

/-- The number of keys in the leaves before and after a delete. A leaf left with fewer than
`least` keys borrows one from the leaf to its left, or takes the place of both; the first
leaf turns to the right. -/
inductive Shrunk (least : Nat) : List Nat → List Nat → Prop where
  | same (counts : List Nat) : Shrunk least counts counts
  | root (n : Nat) : Shrunk least [n + 1] [n]
  | enough (a : List Nat) (n : Nat) (b : List Nat) :
    least ≤ n → Shrunk least (a ++ (n + 1) :: b) (a ++ n :: b)
  | borrowLeft (a : List Nat) (x n : Nat) (b : List Nat) : least < x →
    n < least → Shrunk least (a ++ x :: (n + 1) :: b) (a ++ (x - 1) :: (n + 1) :: b)
  | mergeLeft (a : List Nat) (x n : Nat) (b : List Nat) : x ≤ least →
    n < least → Shrunk least (a ++ x :: (n + 1) :: b) (a ++ (x + n) :: b)
  | borrowRight (n x : Nat) (b : List Nat) : least < x →
    n < least → Shrunk least ((n + 1) :: x :: b) ((n + 1) :: (x - 1) :: b)
  | mergeRight (n x : Nat) (b : List Nat) : x ≤ least →
    n < least → Shrunk least ((n + 1) :: x :: b) ((n + x) :: b)

/-- Rebalancing the leaf `l`, which lost a key, keeps the entries. -/
private theorem rebalance_spec
    (h : Level tree (left.map Prod.snd ++ right.map Prod.fst)
      (left.map Prod.fst ++ l :: right.map Prod.snd))
    (hne : left.map Prod.snd ++ right.map Prod.fst ≠ []) (hsmall : l.keys.length < tree.minKeys) :
    ∃ tree' leaves', tree.rebalance [(rootNode tree.rootPageId
        (left.map Prod.snd ++ right.map Prod.fst)
        (left.map Prod.fst ++ l :: right.map Prod.snd), left.length)] = some tree' ∧
      Stands tree' leaves' ∧ tree'.order = tree.order ∧
      entriesOf leaves' = entriesOf (left.map Prod.fst ++ l :: right.map Prod.snd) ∧
      Shrunk tree.minKeys (keyCounts (left.map Prod.fst) ++
        (l.keys.length + 1) :: keyCounts (right.map Prod.snd)) (keyCounts leaves') := by
  have hchain := Chain.append.mp h.chain
  have hleaf : tree.readNode l.page = some (l.node (headPage (right.map Prod.snd) 0)) := hchain.2.1
  have hkeys : (l.node (headPage (right.map Prod.snd) 0)).keys = l.keys := rfl
  have hbig : ¬ tree.minKeys ≤ l.keys.length := Nat.not_le_of_lt hsmall
  rcases List.eq_nil_or_concat left with rfl | ⟨left, ⟨u, s⟩, rfl⟩
  · cases right with
    | nil => exact absurd rfl hne
    | cons e right =>
      obtain ⟨s, w⟩ := e
      have hnext : tree.readNode w.page = some (w.node (headPage (right.map Prod.snd) 0)) :=
        hchain.2.2.1
      have hwkeys : (w.node (headPage (right.map Prod.snd) 0)).keys = w.keys := rfl
      have hchildren : (rootNode tree.rootPageId (s :: right.map Prod.fst)
          (l :: w :: right.map Prod.snd)).children =
          l.page :: w.page :: (right.map Prod.snd).map Leaf.page := rfl
      simp only [List.map_nil, List.nil_append, List.map_cons, List.length_nil] at h hleaf hkeys ⊢
      simp only [rebalance, hchildren, List.getElem?_cons_zero, List.getElem?_cons_succ,
        Option.bind_eq_bind, Option.bind_some, hleaf, hkeys, hbig, if_false, Nat.lt_irrefl,
        List.length_cons, hnext, hwkeys]
      rw [if_pos (by omega)]
      split
      · rename_i hlt
        have hmin : 1 ≤ tree.minKeys := Nat.le_max_left _ _
        obtain ⟨tree', leaves', ht, hs, ho, he, hc⟩ := redistributeRight_spec h (by omega)
        refine ⟨tree', leaves', ht, hs, ho, he, ?_⟩
        rw [hc]
        exact Shrunk.borrowRight _ _ _ hlt hsmall
      · rename_i hle
        obtain ⟨tree', leaves', ht, hs, ho, he, hc⟩ := mergeIntoRight_spec h
        refine ⟨tree', leaves', ht, hs, ho, he, ?_⟩
        rw [hc]
        exact Shrunk.mergeRight _ _ _ (Nat.le_of_not_lt hle) hsmall
  · rw [List.concat_eq_append] at h hchain ⊢
    simp only [List.map_append, List.map_cons, List.map_nil, List.append_assoc,
      List.singleton_append, List.length_append, List.length_singleton] at h hchain ⊢
    have hprev : tree.readNode u.page = some (u.node l.page) :=
      (Chain.append.mp h.chain).2.1
    have hukeys : (u.node l.page).keys = u.keys := rfl
    have hchild : (rootNode tree.rootPageId (left.map Prod.snd ++ s :: right.map Prod.fst)
        (left.map Prod.fst ++ u :: l :: right.map Prod.snd)).children[left.length + 1]? =
        some l.page := by
      have := rootNode_child (left ++ [(u, s)]) l right
        tree.rootPageId (left.map Prod.snd ++ s :: right.map Prod.fst)
      simpa using this
    have hbefore : (rootNode tree.rootPageId (left.map Prod.snd ++ s :: right.map Prod.fst)
        (left.map Prod.fst ++ u :: l :: right.map Prod.snd)).children[left.length]? =
        some u.page := by
      simp [rootNode]
    have hcounts : keyCounts (left.map Prod.fst ++ [u]) ++
        (l.keys.length + 1) :: keyCounts (right.map Prod.snd) =
        keyCounts (left.map Prod.fst) ++
          u.keys.length :: (l.keys.length + 1) :: keyCounts (right.map Prod.snd) := by
      simp [keyCounts]
    simp only [rebalance, hchild, Option.bind_eq_bind, Option.bind_some, hleaf, hkeys, hbig,
      if_false, Nat.succ_pos, if_true, Nat.add_sub_cancel, hbefore, hprev, hukeys]
    rw [hcounts]
    split
    · rename_i hlt
      have hu : u.keys ≠ [] := by
        intro he
        rw [he] at hlt
        cases hlt
      obtain ⟨tree', leaves', ht, hs, ho, he, hc⟩ := redistributeLeft_spec h hu
      refine ⟨tree', leaves', ht, hs, ho, he, ?_⟩
      rw [hc]
      exact Shrunk.borrowLeft _ _ _ _ hlt hsmall
    · rename_i hle
      obtain ⟨tree', leaves', ht, hs, ho, he, hc⟩ := mergeIntoLeft_spec h
      refine ⟨tree', leaves', ht, hs, ho, he, ?_⟩
      rw [hc]
      exact Shrunk.mergeLeft _ _ _ _ (Nat.le_of_not_lt hle) hsmall

/-! ## Deleting -/

/-- `l'` is the leaf `l` without the key. -/
private structure LeafDelete (l l' : Leaf κ) (key : κ) : Prop where
  page : l'.page = l.page
  tokens : l'.tokens.Sublist l.tokens
  lists : ∀ before after (m : κ → Option Nat), Lists (before ++ (l.entries ++ after)) m →
    key ∉ before.map Prod.fst → key ∉ after.map Prod.fst →
      Lists (before ++ (l'.entries ++ after)) (Function.update m key none)
  result : ∀ (tree : BPlusTree κ) next path,
    tree.findLeafWithPath key = some (l.node next, path) →
      l' = l ∧ tree.delete key = some tree ∨
        l'.keys.length + 1 = l.keys.length ∧ tree.delete key =
          if l'.keys.length < tree.minKeys ∧ l.page ≠ tree.rootPageId then
            (tree.writeNode (l'.node next)).rebalance path
          else some (tree.writeNode (l'.node next))

private theorem exists_leafDelete (l : Leaf κ) (key : κ) : ∃ l', LeafDelete l l' key := by
  cases hi : l.keys.findIdx? (· = key) with
  | none =>
    refine ⟨l, ⟨rfl, List.Sublist.refl _, ?_, ?_⟩⟩
    · intro before after m hm hbefore hafter
      have hnot : key ∉ l.keys := by
        intro hk
        have := List.findIdx?_eq_none_iff.mp hi key hk
        simp at this
      have hnone : m key = none := by
        rw [hm.eq_none_iff]
        simp only [List.map_append, List.mem_append, not_or]
        exact ⟨hbefore, hnot, hafter⟩
      rwa [← hnone, Function.update_eq_self]
    · intro tree next path hfind
      have hkeys : (l.node next).keys = l.keys := rfl
      exact Or.inl ⟨rfl, by
        simp only [delete, hfind, Option.bind_eq_bind, Option.bind_some, hkeys, hi]⟩
  | some i =>
    obtain ⟨pre, v, post, hl, rfl⟩ := exists_entry hi
    refine ⟨⟨l.page, pre ++ post⟩, ⟨rfl, ?_, ?_, ?_⟩⟩
    · simp only [Leaf.tokens, Leaf.keys, hl]
      refine (List.Sublist.map _ ?_).map _
      exact (List.Sublist.refl _).append (List.sublist_cons_self _ _)
    · intro before after m hm _ _
      rw [hl, List.append_assoc, ← List.append_assoc] at hm
      rw [List.append_assoc, ← List.append_assoc]
      exact hm.remove
    · intro tree next path hfind
      refine Or.inr ⟨by simp [Leaf.keys, hl, Nat.add_assoc], ?_⟩
      have hkeys : popAt l.keys pre.length = some ((pre ++ post).map Prod.fst) := by
        have := popAt_split (pre.map Prod.fst) (post.map Prod.fst) key
        simpa [Leaf.keys, hl] using this
      have hvalues : popAt l.values pre.length = some ((pre ++ post).map Prod.snd) := by
        have := popAt_split (pre.map Prod.snd) (post.map Prod.snd) v
        simpa [Leaf.values, hl] using this
      have hnkeys : (l.node next).keys = l.keys := rfl
      have hnvalues : (l.node next).values = l.values := rfl
      simp only [delete, hfind, Option.bind_eq_bind, Option.bind_some, hnkeys, hnvalues, hi, hkeys,
        hvalues]
      rfl

theorem delete_spec {leaves : List (Leaf κ)} (h : Stands tree leaves)
    (hm : Lists (entriesOf leaves) m) (key : κ) :
    ∃ tree' leaves', tree.delete key = some tree' ∧ Stands tree' leaves' ∧
      tree'.order = tree.order ∧ Lists (entriesOf leaves') (Function.update m key none) ∧
      Shrunk tree.minKeys (keyCounts leaves) (keyCounts leaves') := by
  rcases h with ⟨l, h, rfl⟩ | ⟨seps, h, hne⟩
  · obtain ⟨l', hd⟩ := exists_leafDelete l key
    have hs := h.writeLeaf hd.page (h.ordered.sublist hd.tokens)
    have hl := hd.lists [] [] m (by simpa [entriesOf] using hm) (by simp) (by simp)
    have hone : entriesOf [l'] = [] ++ (l'.entries ++ []) := by simp [entriesOf]
    rw [← hone] at hl
    rcases hd.result tree 0 [] (h.findLeafWithPath key) with ⟨rfl, he⟩ | ⟨hcount, he⟩
    · exact ⟨tree, [l'], he, Or.inl ⟨l', h, rfl⟩, rfl, hl, Shrunk.same _⟩
    · rw [if_neg (by simp [h.page])] at he
      refine ⟨_, [l'], he, Or.inl ⟨l', hs, rfl⟩, rfl, hl, ?_⟩
      simp only [keyCounts, List.map_cons, List.map_nil, ← hcount]
      exact Shrunk.root _
  · obtain ⟨left, l, right, hf, rfl⟩ := h.exists_focus key
    have hne' := hf.seps_ne_nil h hne
    obtain ⟨l', hd⟩ := exists_leafDelete l key
    have hord := hf.level.ordered
    rw [tokens_focus] at hord
    have hw := hf.level.writeLeaf rfl hd.page (hord.sublist
      ((List.Sublist.refl _).append (hd.tokens.append (List.Sublist.refl _))))
    rw [entriesOf_focus] at hm
    have hl := hd.lists _ _ m hm hf.not_left hf.not_right
    rw [← entriesOf_focus] at hl
    rcases hd.result tree _ _ hf.findLeafWithPath with ⟨rfl, he⟩ | ⟨hcount, he⟩
    · exact ⟨tree, _, he, Or.inr ⟨_, hf.level, hne'⟩, rfl, hl, Shrunk.same _⟩
    · have hcounts : keyCounts (left.map Prod.fst ++ l :: right.map Prod.snd) =
          keyCounts (left.map Prod.fst) ++
            (l'.keys.length + 1) :: keyCounts (right.map Prod.snd) := by
        simp [keyCounts, ← hcount]
      rw [hcounts]
      split at he
      · rename_i hsmall
        obtain ⟨tree', leaves', hreb, hstands, ho, hentries, hshrunk⟩ :=
          rebalance_spec hw hne' hsmall.1
        refine ⟨tree', leaves', he.trans ?_, hstands, ho, by rw [hentries]; exact hl, hshrunk⟩
        rw [← hreb]
        simp [rootNode, hd.page, writeNode]
      · rename_i hbig
        refine ⟨_, _, he, Or.inr ⟨_, hw, hne'⟩, rfl, hl, ?_⟩
        have hpage := hf.level.leaf_ne_root (l := l) (by simp)
        have hle : tree.minKeys ≤ l'.keys.length :=
          Nat.le_of_not_lt fun hlt => hbig ⟨hlt, hpage⟩
        have hafter : keyCounts (left.map Prod.fst ++ l' :: right.map Prod.snd) =
            keyCounts (left.map Prod.fst) ++ l'.keys.length :: keyCounts (right.map Prod.snd) := by
          simp [keyCounts]
        rw [hafter]
        exact Shrunk.enough _ _ _ hle

/-! ## Runs -/

inductive TreeOp (κ : Type) where
  | insert (key : κ) (rowid : Nat)
  | delete (key : κ)

/-- One call on the tree. -/
def call (tree : BPlusTree κ) : TreeOp κ → Option (BPlusTree κ)
  | .insert key rowid => tree.insert key rowid
  | .delete key => tree.delete key

/-- One call on a map. -/
def mapCall (m : κ → Option Nat) : TreeOp κ → κ → Option Nat
  | .insert key rowid => Function.update m key (some rowid)
  | .delete key => Function.update m key none

/-- The last rowid inserted for each key and not deleted since. -/
def mapOf (ops : List (TreeOp κ)) : κ → Option Nat := ops.foldl mapCall fun _ => none

/-- The queries answer as the map `m`, in ascending order of the keys. -/
def IsSortedMap (tree : BPlusTree κ) (m : κ → Option Nat) : Prop :=
  ∃ entries : List (κ × Nat), (entries.map Prod.fst).Pairwise (· < ·) ∧ Lists entries m ∧
    tree.fullScan = some (entries.map Prod.snd) ∧ (∀ key, tree.seek key = some (m key).toList) ∧
    ∀ lo hi inclusive, tree.range lo hi inclusive = some (rowidsIn lo hi inclusive entries)

theorem create_stands (store : NodeStore κ) (order : Nat) (h : Pages store []) :
    Stands (create store order) [⟨(create store order).rootPageId, []⟩] := by
  refine Or.inl ⟨⟨(create store order).rootPageId, []⟩, ⟨rfl, ?_, List.Pairwise.nil, ?_⟩, rfl⟩
  · exact Function.update_self _ _ _
  · exact h.alloc.writeNode _

private theorem call_spec {leaves : List (Leaf κ)} (h : Stands tree leaves)
    (hm : Lists (entriesOf leaves) m) (op : TreeOp κ) :
    ∃ tree' leaves', tree.call op = some tree' ∧ Stands tree' leaves' ∧
      Lists (entriesOf leaves') (mapCall m op) := by
  cases op with
  | insert key rowid =>
    obtain ⟨tree', leaves', -, -, hcall, hs, -, hl, -⟩ := insert_spec h hm key rowid
    exact ⟨tree', leaves', hcall, hs, hl⟩
  | delete key =>
    obtain ⟨tree', leaves', hcall, hs, -, hl, -⟩ := delete_spec h hm key
    exact ⟨tree', leaves', hcall, hs, hl⟩

theorem calls_spec (ops : List (TreeOp κ)) {leaves : List (Leaf κ)}
    (h : Stands tree leaves) (hm : Lists (entriesOf leaves) m) :
    ∃ tree' leaves', ops.foldlM call tree = some tree' ∧ Stands tree' leaves' ∧
      Lists (entriesOf leaves') (ops.foldl mapCall m) := by
  induction ops generalizing tree leaves m with
  | nil => exact ⟨tree, leaves, rfl, h, hm⟩
  | cons op ops ih =>
    obtain ⟨tree₁, leaves₁, hcall, h₁, hm₁⟩ := call_spec h hm op
    obtain ⟨tree', leaves', hcalls, h', hm'⟩ := ih h₁ hm₁
    refine ⟨tree', leaves', ?_, h', hm'⟩
    rw [List.foldlM_cons, hcall]
    exact hcalls

/-- **The tree is a sorted map.** For every order and every sequence of calls. -/
theorem tree_sorted_map (store : NodeStore κ) (order : Nat) (ops : List (TreeOp κ))
    (hstore : Pages store []) :
    ∃ tree, ops.foldlM call (create store order) = some tree ∧ IsSortedMap tree (mapOf ops) := by
  obtain ⟨tree, leaves, hcalls, hs, hm⟩ := calls_spec ops (create_stands store order hstore)
    Lists.nil
  have h := hs.holds
  exact ⟨tree, hcalls, entriesOf leaves, h.pairwise, hm, fullScan_spec h, fun key => seek_spec h hm key,
    fun lo hi inclusive => range_spec h lo hi inclusive⟩

end Order

/-- A file of which only the header page is in use. -/
def newNodeStore : NodeStore Nat := ⟨fun _ => none, [], 1⟩

/-- Keys that make a tree of order 2 split, borrow, merge and shrink. -/
def sampleCalls : List (TreeOp Nat) :=
  [.insert 1 10, .insert 2 20, .insert 3 30, .insert 4 40, .insert 2 21, .delete 1, .delete 3,
    .insert 5 50, .delete 4]

theorem tree_sorted_map_sample :
    ∃ tree, sampleCalls.foldlM call (create newNodeStore 2) = some tree ∧
      IsSortedMap tree (mapOf sampleCalls) :=
  tree_sorted_map newNodeStore 2 sampleCalls ⟨by decide, by decide, by decide⟩

example : (sampleCalls.foldlM call (create newNodeStore 2)).bind (fun tree => tree.range 0 5 true) =
    some [21, 50] := by decide +kernel

end TinyDB.BPlusTree
