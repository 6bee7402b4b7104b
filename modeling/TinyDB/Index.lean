import TinyDB.Storage

/-!
# The B+ tree index

`index.py` over a store of nodes: `nodes p` is the node last written to page
`p`, `none` when the page holds none, and pages come from the free list or the
end of the file as `alloc_page` hands them out. `path` holds the inner nodes a
descent went through, the last one first, each with the index of the child
taken. A call that raises, or a loop that reads more pages than there are,
gives `none`.
-/

namespace TinyDB

/-- `l[i] = x`. -/
def setAt {α : Type} (l : List α) (i : Nat) (x : α) : Option (List α) :=
  if i < l.length then some (l.set i x) else none

/-- `l.pop(i)`. -/
def popAt {α : Type} (l : List α) (i : Nat) : Option (List α) :=
  if i < l.length then some (l.eraseIdx i) else none

structure Node (κ : Type) where
  pageId : Nat
  isLeaf : Bool
  keys : List κ
  values : List Nat
  children : List Nat
  nextLeaf : Nat
  deriving DecidableEq, Repr

/-- The pages of a file as the index sees them. -/
structure NodeStore (κ : Type) where
  nodes : Nat → Option (Node κ)
  free : List Nat
  pageCount : Nat

namespace NodeStore

variable {κ : Type}

def readNode (store : NodeStore κ) (pageId : Nat) : Option (Node κ) := store.nodes pageId

def writeNode (store : NodeStore κ) (node : Node κ) : NodeStore κ :=
  { store with nodes := Function.update store.nodes node.pageId (some node) }

/-- `alloc_page`: the page comes with an empty body, which is no node. -/
def allocPage (store : NodeStore κ) : Nat × NodeStore κ :=
  match store.free with
  | p :: free => (p, ⟨Function.update store.nodes p none, free, store.pageCount⟩)
  | [] =>
    (store.pageCount,
      ⟨Function.update store.nodes store.pageCount none, [], store.pageCount + 1⟩)

def freePage (store : NodeStore κ) (pageId : Nat) : NodeStore κ :=
  ⟨Function.update store.nodes pageId none, pageId :: store.free, store.pageCount⟩

end NodeStore

structure BPlusTree (κ : Type) where
  store : NodeStore κ
  rootPageId : Nat
  order : Nat

namespace BPlusTree

variable {κ : Type}

abbrev Path (κ : Type) := List (Node κ × Nat)

/-- `_min_keys`. -/
def minKeys (tree : BPlusTree κ) : Nat := max 1 (tree.order / 2)

def readNode (tree : BPlusTree κ) (pageId : Nat) : Option (Node κ) := tree.store.readNode pageId

def writeNode (tree : BPlusTree κ) (node : Node κ) : BPlusTree κ :=
  { tree with store := tree.store.writeNode node }

def freePage (tree : BPlusTree κ) (pageId : Nat) : BPlusTree κ :=
  { tree with store := tree.store.freePage pageId }

def create (store : NodeStore κ) (order : Nat) : BPlusTree κ :=
  let (rootPageId, store) := store.allocPage
  ⟨store.writeNode ⟨rootPageId, true, [], [], [], 0⟩, rootPageId, order⟩

variable [LinearOrder κ]

/-! ## Searching -/

/-- `_child_index`. -/
def childIndex (keys : List κ) (key : κ) : Nat := keys.findIdx fun sep => decide (key < sep)

/-- The loop of `_bisect_right`; the window shrinks in every round. -/
def bisectLoop (keys : List κ) (key : κ) : Nat → Nat → Nat → Nat
  | 0, lo, _ => lo
  | n + 1, lo, hi =>
    if lo < hi then
      let mid := (lo + hi) / 2
      match keys[mid]? with
      | none => lo
      | some k => if k ≤ key then bisectLoop keys key n (mid + 1) hi else bisectLoop keys key n lo mid
    else lo

/-- `_bisect_right`. -/
def bisectRight (keys : List κ) (key : κ) : Nat := bisectLoop keys key keys.length 0 keys.length

/-- The loop of `_find_leaf`. -/
def descend (tree : BPlusTree κ) (key : κ) : Nat → Node κ → Option (Node κ)
  | 0, _ => none
  | n + 1, node =>
    if node.isLeaf then some node
    else do
      let child ← node.children[childIndex node.keys key]?
      tree.descend key n (← tree.readNode child)

/-- A bound on the pages a loop can read. -/
def fuel (tree : BPlusTree κ) : Nat := tree.store.pageCount

def findLeaf (tree : BPlusTree κ) (key : κ) : Option (Node κ) := do
  tree.descend key tree.fuel (← tree.readNode tree.rootPageId)

/-- The loop of `_find_leaf_with_path`. -/
def descendWithPath (tree : BPlusTree κ) (key : κ) :
    Nat → Node κ → Path κ → Option (Node κ × Path κ)
  | 0, _, _ => none
  | n + 1, node, path =>
    if node.isLeaf then some (node, path)
    else do
      let childIdx := childIndex node.keys key
      let child ← node.children[childIdx]?
      tree.descendWithPath key n (← tree.readNode child) ((node, childIdx) :: path)

def findLeafWithPath (tree : BPlusTree κ) (key : κ) : Option (Node κ × Path κ) := do
  tree.descendWithPath key tree.fuel (← tree.readNode tree.rootPageId) []

def seek (tree : BPlusTree κ) (key : κ) : Option (List Nat) := do
  let leaf ← tree.findLeaf key
  match leaf.keys.findIdx? (· = key) with
  | none => some []
  | some i => some [← leaf.values[i]?]

/-- `_key_in_range`. -/
def keyInRange (lo hi : κ) (inclusive : Bool) (key : κ) : Bool :=
  if inclusive then decide (lo ≤ key ∧ key ≤ hi) else decide (lo < key ∧ key < hi)

/-- The loop of `range` over one leaf: the rowids taken, and whether a key above
`hi` ended the search. -/
def rangeLeaf (lo hi : κ) (inclusive : Bool) : List κ → List Nat → Option (List Nat × Bool)
  | [], _ => some ([], false)
  | key :: keys, values =>
    if keyInRange lo hi inclusive key then do
      let value ← values.head?
      let (rowids, ended) ← rangeLeaf lo hi inclusive keys values.tail
      some (value :: rowids, ended)
    else if hi < key then some ([], true)
    else rangeLeaf lo hi inclusive keys values.tail

/-- The loop of `range` over the leaf chain. -/
def rangeChain (tree : BPlusTree κ) (lo hi : κ) (inclusive : Bool) :
    Nat → Node κ → Option (List Nat)
  | 0, _ => none
  | n + 1, leaf => do
    let (rowids, ended) ← rangeLeaf lo hi inclusive leaf.keys leaf.values
    if ended ∨ leaf.nextLeaf = 0 then some rowids
    else do
      let more ← tree.rangeChain lo hi inclusive n (← tree.readNode leaf.nextLeaf)
      some (rowids ++ more)

def range (tree : BPlusTree κ) (lo hi : κ) (inclusive : Bool) : Option (List Nat) := do
  tree.rangeChain lo hi inclusive tree.fuel (← tree.findLeaf lo)

/-- The descent of `full_scan` along the first children. -/
def firstLeaf (tree : BPlusTree κ) : Nat → Node κ → Option (Node κ)
  | 0, _ => none
  | n + 1, node =>
    if node.isLeaf then some node
    else
      match node.children with
      | [] => some node
      | child :: _ => do tree.firstLeaf n (← tree.readNode child)

/-- The loop of `full_scan` over the leaf chain. -/
def scanChain (tree : BPlusTree κ) : Nat → Node κ → Option (List Nat)
  | 0, _ => none
  | n + 1, node =>
    if node.nextLeaf = 0 then some node.values
    else do
      let more ← tree.scanChain n (← tree.readNode node.nextLeaf)
      some (node.values ++ more)

def fullScan (tree : BPlusTree κ) : Option (List Nat) := do
  let first ← tree.firstLeaf tree.fuel (← tree.readNode tree.rootPageId)
  tree.scanChain tree.fuel first

/-! ## Splitting -/

/-- `child` is cut at `mid`; the upper part goes to page `newPageId`. -/
def splitNode (child : Node κ) (mid newPageId : Nat) : Node κ × Node κ :=
  if child.isLeaf then
    ({ child with keys := child.keys.take mid, values := child.values.take mid,
                  nextLeaf := newPageId },
      ⟨newPageId, true, child.keys.drop mid, child.values.drop mid, [], child.nextLeaf⟩)
  else
    ({ child with keys := child.keys.take mid, children := child.children.take (mid + 1) },
      ⟨newPageId, false, child.keys.drop (mid + 1), [], child.children.drop (mid + 1), 0⟩)

/-- `_split_and_propagate([])`: only a leaf root is split. -/
def splitRoot (tree : BPlusTree κ) : Option (BPlusTree κ) := do
  let child ← tree.readNode tree.rootPageId
  if ¬ child.isLeaf ∨ child.keys.length ≤ tree.order then some tree
  else
    let mid := child.keys.length / 2
    let sepKey ← child.keys[mid]?
    let (newPageId, store) := tree.store.allocPage
    let (child, newNode) := splitNode child mid newPageId
    let store := (store.writeNode child).writeNode newNode
    let (newRootId, store) := store.allocPage
    let newRoot := ⟨newRootId, false, [sepKey], [], [child.pageId, newPageId], 0⟩
    some { tree with store := store.writeNode newRoot, rootPageId := newRootId }

/-- `_split_and_propagate`. -/
def splitAndPropagate : Path κ → BPlusTree κ → Option (BPlusTree κ)
  | [], tree => tree.splitRoot
  | (parent, childIdx) :: path, tree => do
    let child ← tree.readNode (← parent.children[childIdx]?)
    if child.keys.length ≤ tree.order then some tree
    else
      let mid := child.keys.length / 2
      let sepKey ← child.keys[mid]?
      let (newPageId, store) := tree.store.allocPage
      let (child, newNode) := splitNode child mid newPageId
      let store := (store.writeNode child).writeNode newNode
      let parent := { parent with keys := parent.keys.insertIdx childIdx sepKey,
                                  children := parent.children.insertIdx (childIdx + 1) newPageId }
      let tree := { tree with store := store.writeNode parent }
      if tree.order < parent.keys.length then splitAndPropagate path tree else some tree

def insert (tree : BPlusTree κ) (key : κ) (rowid : Nat) : Option (BPlusTree κ) := do
  let (node, path) ← tree.findLeafWithPath key
  match node.keys.findIdx? (· = key) with
  | some i => do
    let values ← setAt node.values i rowid
    some (tree.writeNode { node with values := values })
  | none =>
    let idx := bisectRight node.keys key
    let node := { node with keys := node.keys.insertIdx idx key,
                            values := node.values.insertIdx idx rowid }
    let tree := tree.writeNode node
    if tree.order < node.keys.length then splitAndPropagate path tree else some tree

/-! ## Rebalancing -/

def redistributeLeft (tree : BPlusTree κ) (parent : Node κ) (childIdx : Nat)
    (left node : Node κ) : Option (BPlusTree κ) := do
  let key ← left.keys.getLast?
  if node.isLeaf then
    let value ← left.values.getLast?
    let node := { node with keys := key :: node.keys, values := value :: node.values }
    let left := { left with keys := left.keys.dropLast, values := left.values.dropLast }
    let seps ← setAt parent.keys (childIdx - 1) key
    let parent := { parent with keys := seps }
    some (((tree.writeNode left).writeNode node).writeNode parent)
  else
    let sep ← parent.keys[childIdx - 1]?
    let child ← left.children.getLast?
    let node := { node with keys := sep :: node.keys, children := child :: node.children }
    let left := { left with keys := left.keys.dropLast, children := left.children.dropLast }
    let seps ← setAt parent.keys (childIdx - 1) key
    let parent := { parent with keys := seps }
    some (((tree.writeNode left).writeNode node).writeNode parent)

def redistributeRight (tree : BPlusTree κ) (parent : Node κ) (childIdx : Nat)
    (node right : Node κ) : Option (BPlusTree κ) := do
  let key ← right.keys.head?
  if node.isLeaf then
    let value ← right.values.head?
    let sep ← right.keys.tail.head?
    let node := { node with keys := node.keys ++ [key], values := node.values ++ [value] }
    let right := { right with keys := right.keys.tail, values := right.values.tail }
    let seps ← setAt parent.keys childIdx sep
    let parent := { parent with keys := seps }
    some (((tree.writeNode node).writeNode right).writeNode parent)
  else
    let sep ← parent.keys[childIdx]?
    let child ← right.children.head?
    let node := { node with keys := node.keys ++ [sep], children := node.children ++ [child] }
    let right := { right with keys := right.keys.tail, children := right.children.tail }
    let seps ← setAt parent.keys childIdx key
    let parent := { parent with keys := seps }
    some (((tree.writeNode node).writeNode right).writeNode parent)

def maybeShrinkRoot (tree : BPlusTree κ) (parent : Node κ) : BPlusTree κ :=
  match parent.children with
  | newRoot :: _ =>
    if parent.pageId = tree.rootPageId ∧ parent.keys = [] then
      { tree.freePage parent.pageId with rootPageId := newRoot }
    else tree
  | [] => tree

/-- The end both merges share: the page of `node` is freed, `parent` loses it and
the separator `sepIdx`. A parent that is now too small is not rebalanced:
`_rebalance([])` does nothing. -/
def dropChild (tree : BPlusTree κ) (parent : Node κ) (sepIdx childIdx : Nat) (node : Node κ) :
    Option (BPlusTree κ) := do
  let tree := tree.freePage node.pageId
  let keys ← popAt parent.keys sepIdx
  let children ← popAt parent.children childIdx
  let parent := { parent with keys := keys, children := children }
  some ((tree.writeNode parent).maybeShrinkRoot parent)

def mergeIntoLeft (tree : BPlusTree κ) (parent : Node κ) (childIdx : Nat) (left node : Node κ) :
    Option (BPlusTree κ) :=
  if node.isLeaf then
    let left := { left with keys := left.keys ++ node.keys, values := left.values ++ node.values,
                            nextLeaf := node.nextLeaf }
    (tree.writeNode left).dropChild parent (childIdx - 1) childIdx node
  else do
    let sep ← parent.keys[childIdx - 1]?
    let left := { left with keys := left.keys ++ (sep :: node.keys),
                            children := left.children ++ node.children }
    (tree.writeNode left).dropChild parent (childIdx - 1) childIdx node

def mergeIntoRight (tree : BPlusTree κ) (parent : Node κ) (childIdx : Nat) (node right : Node κ) :
    Option (BPlusTree κ) :=
  if node.isLeaf then
    let right := { right with keys := node.keys ++ right.keys,
                              values := node.values ++ right.values }
    (tree.writeNode right).dropChild parent childIdx childIdx node
  else do
    let sep ← parent.keys[childIdx]?
    let right := { right with keys := sep :: (node.keys ++ right.keys),
                              children := node.children ++ right.children }
    (tree.writeNode right).dropChild parent childIdx childIdx node

/-- `_rebalance`. -/
def rebalance (tree : BPlusTree κ) : Path κ → Option (BPlusTree κ)
  | [] => some tree
  | (parent, childIdx) :: _ => do
    let node ← tree.readNode (← parent.children[childIdx]?)
    if tree.minKeys ≤ node.keys.length then some tree
    else if 0 < childIdx then
      let left ← tree.readNode (← parent.children[childIdx - 1]?)
      if tree.minKeys < left.keys.length then tree.redistributeLeft parent childIdx left node
      else tree.mergeIntoLeft parent childIdx left node
    else if childIdx + 1 < parent.children.length then
      let right ← tree.readNode (← parent.children[childIdx + 1]?)
      if tree.minKeys < right.keys.length then tree.redistributeRight parent childIdx node right
      else tree.mergeIntoRight parent childIdx node right
    else some tree

def delete (tree : BPlusTree κ) (key : κ) : Option (BPlusTree κ) := do
  let (node, path) ← tree.findLeafWithPath key
  match node.keys.findIdx? (· = key) with
  | none => some tree
  | some i => do
    let keys ← popAt node.keys i
    let values ← popAt node.values i
    let node := { node with keys := keys, values := values }
    let tree := tree.writeNode node
    if node.keys.length < tree.minKeys ∧ node.pageId ≠ tree.rootPageId then tree.rebalance path
    else some tree

end BPlusTree
end TinyDB
