import Mathlib.Data.Finset.Card
import TinyDB.Index

/-!
# The level of leaves

The tree is a leaf, or a root over a level of leaves: a root that overflows is
only split when it is a leaf, so no third level comes to be. A level is a list
of leaves and the separators between them. Its keys and separators, read off
from left to right as tokens, are ordered pairwise; every edit of the tree
replaces a stretch of one or two leaves, so the order of the new level is a
fact about lists. `Pages` says which pages the tree owns and that the allocator
will not hand them out.
-/

namespace TinyDB.BPlusTree

variable {κ : Type}

structure Leaf (κ : Type) where
  page : Nat
  entries : List (κ × Nat)

namespace Leaf

def keys (l : Leaf κ) : List κ := l.entries.map Prod.fst

def values (l : Leaf κ) : List Nat := l.entries.map Prod.snd

/-- The node of a leaf whose right neighbour is on page `next`. -/
def node (l : Leaf κ) (next : Nat) : Node κ := ⟨l.page, true, l.keys, l.values, [], next⟩

end Leaf

/-! ## The leaf chain -/

/-- The node of a root over leaves. -/
def rootNode (rootPageId : Nat) (seps : List κ) (leaves : List (Leaf κ)) : Node κ :=
  ⟨rootPageId, false, seps, [], leaves.map Leaf.page, 0⟩

/-- The page the chain of `leaves` starts on, when `last` follows it. -/
def headPage (leaves : List (Leaf κ)) (last : Nat) : Nat :=
  match leaves with
  | [] => last
  | l :: _ => l.page

/-- The leaves stand on their pages, each with the page of the next. -/
def Chain (nodes : Nat → Option (Node κ)) : List (Leaf κ) → Nat → Prop
  | [], _ => True
  | l :: leaves, last =>
    nodes l.page = some (l.node (headPage leaves last)) ∧ Chain nodes leaves last

section Chain

variable {nodes nodes' : Nat → Option (Node κ)} {a b : List (Leaf κ)} {last : Nat}

@[simp] theorem headPage_append : headPage (a ++ b) last = headPage a (headPage b last) := by
  cases a <;> rfl

theorem Chain.append : Chain nodes (a ++ b) last ↔
    Chain nodes a (headPage b last) ∧ Chain nodes b last := by
  induction a with
  | nil => simp [Chain]
  | cons l a ih => simp only [List.cons_append, Chain, headPage_append, ih, and_assoc]

theorem Chain.congr (h : Chain nodes a last) (he : ∀ l ∈ a, nodes' l.page = nodes l.page) :
    Chain nodes' a last := by
  induction a with
  | nil => trivial
  | cons l a ih =>
    refine ⟨?_, ih h.2 fun l' hl => he l' (List.mem_cons_of_mem _ hl)⟩
    rw [he l List.mem_cons_self]
    exact h.1

end Chain

/-! ## Tokens -/

/-- A key of a leaf or a separator of the root. -/
inductive Token (κ : Type) where
  | key (k : κ)
  | sep (s : κ)

namespace Token

/-- The order from left to right: a separator bounds the keys before it strictly
and those behind it weakly. -/
def Before [LinearOrder κ] : Token κ → Token κ → Prop
  | .key a, .key b => a < b
  | .key a, .sep s => a < s
  | .sep s, .key b => s ≤ b
  | .sep s, .sep t => s ≤ t

def key? : Token κ → Option κ
  | .key k => some k
  | .sep _ => none

end Token

def Leaf.tokens (l : Leaf κ) : List (Token κ) := l.keys.map .key

/-- A level read from left to right. -/
def tokens : List (Leaf κ) → List κ → List (Token κ)
  | [], seps => seps.map .sep
  | l :: leaves, [] => l.tokens ++ tokens leaves []
  | l :: leaves, s :: seps => l.tokens ++ .sep s :: tokens leaves seps

def leftTokens (left : List (Leaf κ × κ)) : List (Token κ) :=
  left.flatMap fun e => e.1.tokens ++ [.sep e.2]

def rightTokens (right : List (κ × Leaf κ)) : List (Token κ) :=
  right.flatMap fun e => .sep e.1 :: e.2.tokens

/-- A level seen from one of its leaves. -/
theorem tokens_focus (left : List (Leaf κ × κ)) (l : Leaf κ) (right : List (κ × Leaf κ)) :
    tokens (left.map Prod.fst ++ l :: right.map Prod.snd) (left.map Prod.snd ++ right.map Prod.fst) =
      leftTokens left ++ (l.tokens ++ rightTokens right) := by
  induction left with
  | nil =>
    induction right generalizing l with
    | nil => simp [tokens, leftTokens, rightTokens]
    | cons e right ih =>
      have := ih e.2
      simp only [List.map_nil, List.nil_append, leftTokens, List.flatMap_nil] at this ⊢
      simp [tokens, rightTokens, this]
  | cons e left ih =>
    simp only [List.map_cons, List.cons_append, tokens, ih, leftTokens, List.flatMap_cons,
      List.append_assoc, List.nil_append]

def entriesOf (leaves : List (Leaf κ)) : List (κ × Nat) := leaves.flatMap Leaf.entries

private theorem tokens_key? (l : Leaf κ) :
    l.tokens.filterMap Token.key? = l.entries.map Prod.fst := by
  have hc : Token.key? ∘ Token.key = (some : κ → Option κ) := rfl
  rw [Leaf.tokens, List.filterMap_map, hc, List.filterMap_some, Leaf.keys]

private theorem tokens_keys (leaves : List (Leaf κ)) (seps : List κ) :
    (tokens leaves seps).filterMap Token.key? = (entriesOf leaves).map Prod.fst := by
  induction leaves generalizing seps with
  | nil => simp [tokens, entriesOf, List.filterMap_map, Token.key?, Function.comp_def]
  | cons l leaves ih =>
    cases seps with
    | nil => simp [tokens, tokens_key?, ih, entriesOf]
    | cons s seps =>
      have hs : (Token.sep s).key? = none := rfl
      simp [tokens, tokens_key?, hs, ih, entriesOf]

theorem mem_leftTokens {left : List (Leaf κ × κ)} {e : κ × Nat}
    (h : e ∈ entriesOf (left.map Prod.fst)) : Token.key e.1 ∈ leftTokens left := by
  obtain ⟨l, hl, he⟩ := List.mem_flatMap.mp h
  obtain ⟨p, hp, rfl⟩ := List.mem_map.mp hl
  refine List.mem_flatMap.mpr ⟨p, hp, List.mem_append_left _ ?_⟩
  exact List.mem_map_of_mem (List.mem_map_of_mem he)

theorem mem_rightTokens {right : List (κ × Leaf κ)} {e : κ × Nat}
    (h : e ∈ entriesOf (right.map Prod.snd)) : Token.key e.1 ∈ rightTokens right := by
  obtain ⟨l, hl, he⟩ := List.mem_flatMap.mp h
  obtain ⟨p, hp, rfl⟩ := List.mem_map.mp hl
  refine List.mem_flatMap.mpr ⟨p, hp, List.mem_cons_of_mem _ ?_⟩
  exact List.mem_map_of_mem (List.mem_map_of_mem he)

/-- The leaf with index `i`, its left and its right. -/
theorem exists_focus {leaves : List (Leaf κ)} {seps : List κ}
    (h : leaves.length = seps.length + 1) {i : Nat} (hi : i ≤ seps.length) :
    ∃ (left : List (Leaf κ × κ)) (l : Leaf κ) (right : List (κ × Leaf κ)), left.length = i ∧
      leaves = left.map Prod.fst ++ l :: right.map Prod.snd ∧
      seps = left.map Prod.snd ++ right.map Prod.fst := by
  induction i generalizing leaves seps with
  | zero =>
    cases leaves with
    | nil => simp at h
    | cons l leaves =>
      have hl : leaves.length = seps.length := by simpa using h
      refine ⟨[], l, seps.zip leaves, rfl, ?_, ?_⟩
      · simp [List.map_snd_zip, hl]
      · simp [List.map_fst_zip, hl]
  | succ i ih =>
    cases leaves with
    | nil => simp at h
    | cons a leaves =>
      cases seps with
      | nil => simp at hi
      | cons s seps =>
        have hcount : leaves.length = seps.length + 1 := by simpa using h
        obtain ⟨left, l, right, hlen, hleaves, hseps⟩ := ih hcount (by simpa using hi)
        refine ⟨(a, s) :: left, l, right, by simp [hlen], ?_, ?_⟩
        · simp [hleaves]
        · simp [hseps]

/-! ## Pages -/

end TinyDB.BPlusTree

namespace TinyDB.NodeStore

variable {κ : Type}

theorem writeNode_nodes (store : NodeStore κ) (node : Node κ) (p : Nat) :
    (store.writeNode node).nodes p = if p = node.pageId then some node else store.nodes p :=
  Function.update_apply _ _ _ _

theorem freePage_nodes (store : NodeStore κ) (q p : Nat) :
    (store.freePage q).nodes p = if p = q then none else store.nodes p :=
  Function.update_apply _ _ _ _

end TinyDB.NodeStore

namespace TinyDB.BPlusTree

variable {κ : Type}

/-- The tree owns the pages `owned`; none of them is free, and neither they nor
the free pages include page 0 or lie beyond the end of the file. -/
structure Pages (store : NodeStore κ) (owned : List Nat) : Prop where
  nodup : (owned ++ store.free).Nodup
  bounds : ∀ p ∈ owned ++ store.free, 0 < p ∧ p < store.pageCount
  header : 0 < store.pageCount

namespace Pages

variable {store : NodeStore κ} {owned owned' : List Nat} {p : Nat}

theorem perm (h : Pages store owned) (hp : owned.Perm owned') : Pages store owned' where
  nodup := (hp.append_right _).nodup_iff.mp h.nodup
  bounds p hm := h.bounds p ((hp.append_right _).mem_iff.mpr hm)
  header := h.header

theorem writeNode (h : Pages store owned) (node : Node κ) : Pages (store.writeNode node) owned :=
  ⟨h.nodup, h.bounds, h.header⟩

theorem owned_nodup (h : Pages store owned) : owned.Nodup := (List.nodup_append.mp h.nodup).1

/-- A page that `alloc_page` hands out belongs to the tree from then on. -/
theorem alloc (h : Pages store owned) :
    Pages store.allocPage.2 (store.allocPage.1 :: owned) := by
  unfold NodeStore.allocPage
  cases hf : store.free with
  | nil =>
    have hn := h.nodup
    have hb := h.bounds
    rw [hf, List.append_nil] at hn hb
    refine ⟨?_, ?_, Nat.succ_pos _⟩
    · simp only [List.append_nil, List.nodup_cons]
      exact ⟨fun hm => Nat.lt_irrefl _ (hb _ hm).2, hn⟩
    · intro p hp
      simp only [List.append_nil, List.mem_cons] at hp
      rcases hp with rfl | hp
      · exact ⟨h.header, Nat.lt_succ_self _⟩
      · exact ⟨(hb p hp).1, Nat.lt_succ_of_lt (hb p hp).2⟩
  | cons q free =>
    have hperm : (q :: owned ++ free).Perm (owned ++ store.free) := by
      rw [hf]
      exact List.perm_middle.symm
    exact ⟨hperm.nodup_iff.mpr h.nodup, fun p hp => h.bounds p (hperm.mem_iff.mp hp), h.header⟩

theorem alloc_not_mem (h : Pages store owned) : store.allocPage.1 ∉ owned :=
  (List.nodup_cons.mp h.alloc.owned_nodup).1

theorem alloc_nodes (h : Pages store owned) (hp : p ∈ owned) :
    store.allocPage.2.nodes p = store.nodes p := by
  have hne : p ≠ store.allocPage.1 := fun he => h.alloc_not_mem (he ▸ hp)
  unfold NodeStore.allocPage at hne ⊢
  cases hf : store.free with
  | nil =>
    rw [hf] at hne
    exact Function.update_of_ne hne _ _
  | cons q free =>
    rw [hf] at hne
    exact Function.update_of_ne hne _ _

theorem freePage (h : Pages store (p :: owned)) : Pages (store.freePage p) owned := by
  have hperm : (owned ++ p :: store.free).Perm (p :: owned ++ store.free) := List.perm_middle
  exact ⟨hperm.nodup_iff.mpr h.nodup, fun q hq => h.bounds q (hperm.mem_iff.mp hq), h.header⟩

/-- No loop over distinct pages of the tree is longer than the file. -/
theorem length_lt (h : Pages store owned) : owned.length < store.pageCount := by
  have hsub : owned.toFinset ⊆ Finset.Ioo 0 store.pageCount := by
    intro p hp
    have hm : p ∈ owned := List.mem_toFinset.mp hp
    exact Finset.mem_Ioo.mpr (h.bounds p (List.mem_append_left _ hm))
  have hcard := Finset.card_le_card hsub
  rw [List.toFinset_card_of_nodup h.owned_nodup, Nat.card_Ioo] at hcard
  have := h.header
  omega

end Pages
/-! ## The invariant -/

section Invariant

variable [LinearOrder κ]

/-- The root is the leaf `l`. -/
structure Single (tree : BPlusTree κ) (l : Leaf κ) : Prop where
  page : l.page = tree.rootPageId
  root : tree.store.nodes tree.rootPageId = some (l.node 0)
  ordered : l.tokens.Pairwise Token.Before
  pages : Pages tree.store [tree.rootPageId]

/-- The root stands over a level of leaves. -/
structure Level (tree : BPlusTree κ) (seps : List κ) (leaves : List (Leaf κ)) : Prop where
  root : tree.store.nodes tree.rootPageId = some (rootNode tree.rootPageId seps leaves)
  count : leaves.length = seps.length + 1
  chain : Chain tree.store.nodes leaves 0
  ordered : (tokens leaves seps).Pairwise Token.Before
  pages : Pages tree.store (tree.rootPageId :: leaves.map Leaf.page)

/-- The tree holds the entries, in this order. -/
def Holds (tree : BPlusTree κ) (entries : List (κ × Nat)) : Prop :=
  (∃ l, Single tree l ∧ entries = l.entries) ∨
    ∃ seps leaves, Level tree seps leaves ∧ entries = entriesOf leaves

/-- The leaves of the tree, left to right; a root over them has a separator. -/
def Stands (tree : BPlusTree κ) (leaves : List (Leaf κ)) : Prop :=
  (∃ l, Single tree l ∧ leaves = [l]) ∨ ∃ seps, Level tree seps leaves ∧ seps ≠ []

theorem Stands.holds {tree : BPlusTree κ} {leaves : List (Leaf κ)} (h : Stands tree leaves) :
    Holds tree (entriesOf leaves) := by
  rcases h with ⟨l, h, rfl⟩ | ⟨seps, h, -⟩
  · exact Or.inl ⟨l, h, by simp [entriesOf]⟩
  · exact Or.inr ⟨seps, leaves, h, rfl⟩

/-- The number of keys in each leaf. -/
def keyCounts {κ : Type} (leaves : List (Leaf κ)) : List Nat := leaves.map fun l => l.keys.length

theorem keys_pairwise {l : Leaf κ} (h : l.tokens.Pairwise Token.Before) :
    l.keys.Pairwise (· < ·) := by
  rw [Leaf.tokens, List.pairwise_map] at h
  exact h

/-- The keys of a level ascend strictly. -/
theorem entries_pairwise {leaves : List (Leaf κ)} {seps : List κ}
    (h : (tokens leaves seps).Pairwise Token.Before) :
    ((entriesOf leaves).map Prod.fst).Pairwise (· < ·) := by
  rw [← tokens_keys leaves seps, List.pairwise_filterMap]
  refine h.imp ?_
  rintro (a | a) (b | b) hab k ⟨⟩ k' ⟨⟩
  exact hab

theorem Holds.pairwise {tree : BPlusTree κ} {entries : List (κ × Nat)} (h : Holds tree entries) :
    (entries.map Prod.fst).Pairwise (· < ·) := by
  rcases h with ⟨l, h, rfl⟩ | ⟨seps, leaves, h, rfl⟩
  · exact keys_pairwise h.ordered
  · exact entries_pairwise h.ordered

/-! ## The leaf a key belongs to -/

/-- `_child_index` passes over the separators up to the key and stops at one above it. -/
private theorem childIndex_spec (seps : List κ) (key : κ) :
    childIndex seps key ≤ seps.length ∧ (∀ s ∈ seps.take (childIndex seps key), s ≤ key) ∧
      ∀ s ∈ (seps.drop (childIndex seps key)).head?, key < s := by
  induction seps with
  | nil => simp [childIndex]
  | cons s seps ih =>
    unfold childIndex at ih ⊢
    rw [List.findIdx_cons]
    by_cases hs : key < s
    · simp [hs]
    · simp only [hs, decide_false, cond_false, List.length_cons, List.take_succ_cons,
        List.drop_succ_cons, List.mem_cons, forall_eq_or_imp]
      exact ⟨Nat.succ_le_succ ih.1, ⟨not_lt.mp hs, ih.2.1⟩, ih.2.2⟩

/-- A key between the separators next to a leaf lies between all tokens to its
left and all tokens to its right. -/
private theorem between_of_seps {left : List (Leaf κ × κ)} {l : Leaf κ}
    {right : List (κ × Leaf κ)} {key : κ}
    (h : (leftTokens left ++ (l.tokens ++ rightTokens right)).Pairwise Token.Before)
    (hl : ∀ e ∈ left, e.2 ≤ key) (hr : ∀ s ∈ (right.map Prod.fst).head?, key < s) :
    (∀ t ∈ leftTokens left, t.Before (.key key)) ∧
      ∀ t ∈ rightTokens right, (Token.key key).Before t := by
  obtain ⟨hleft, hrest, -⟩ := List.pairwise_append.mp h
  constructor
  · intro t ht
    obtain ⟨e, he, hte⟩ := List.mem_flatMap.mp ht
    have hchunk : (e.1.tokens ++ [Token.sep e.2]).Pairwise Token.Before :=
      (List.pairwise_flatMap.mp hleft).1 e he
    rcases List.mem_append.mp hte with hk | hs
    · have hlt := (List.pairwise_append.mp hchunk).2.2 t hk _ List.mem_cons_self
      obtain ⟨k, -, rfl⟩ := List.mem_map.mp hk
      exact lt_of_lt_of_le hlt (hl e he)
    · rw [List.mem_singleton.mp hs]
      exact hl e he
  · intro t ht
    cases right with
    | nil => cases ht
    | cons e right =>
      have hlt : key < e.1 := hr e.1 rfl
      have htail := (List.pairwise_append.mp hrest).2.1
      rw [rightTokens, List.flatMap_cons, List.cons_append] at htail ht
      rcases List.mem_cons.mp ht with rfl | ht
      · exact hlt
      · have hb := (List.pairwise_cons.mp htail).1 t ht
        cases t with
        | key k => exact lt_of_lt_of_le hlt hb
        | sep s => exact lt_of_lt_of_le hlt hb

/-- A level opened at the leaf a key belongs to. -/
structure Focus (tree : BPlusTree κ) (key : κ) (left : List (Leaf κ × κ)) (l : Leaf κ)
    (right : List (κ × Leaf κ)) : Prop where
  level : Level tree (left.map Prod.snd ++ right.map Prod.fst)
    (left.map Prod.fst ++ l :: right.map Prod.snd)
  index : childIndex (left.map Prod.snd ++ right.map Prod.fst) key = left.length
  left_before : ∀ t ∈ leftTokens left, t.Before (.key key)
  before_right : ∀ t ∈ rightTokens right, (Token.key key).Before t

theorem Level.exists_focus {tree : BPlusTree κ} {seps : List κ} {leaves : List (Leaf κ)}
    (h : Level tree seps leaves) (key : κ) :
    ∃ left l right, Focus tree key left l right ∧
      leaves = left.map Prod.fst ++ l :: right.map Prod.snd := by
  obtain ⟨hle, hl, hr⟩ := childIndex_spec seps key
  obtain ⟨left, l, right, hlen, hleaves, hseps⟩ := BPlusTree.exists_focus h.count hle
  have hlen' : (left.map Prod.snd).length = childIndex seps key := by rw [List.length_map, hlen]
  have htake : seps.take (childIndex seps key) = left.map Prod.snd := by
    rw [← hlen', hseps, List.take_left]
  have hdrop : seps.drop (childIndex seps key) = right.map Prod.fst := by
    rw [← hlen', hseps, List.drop_left]
  rw [htake] at hl
  rw [hdrop] at hr
  have hord := h.ordered
  rw [hleaves, hseps, tokens_focus] at hord
  obtain ⟨hb, ha⟩ := between_of_seps hord (fun e he => hl e.2 (List.mem_map_of_mem he)) hr
  subst hleaves hseps
  exact ⟨left, l, right, ⟨h, hlen.symm, hb, ha⟩, rfl⟩

end Invariant
end TinyDB.BPlusTree
