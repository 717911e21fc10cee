/-
The prefix tree shared by the workers (`xabe-cache/src/radix.rs`).

Its nodes are keyed by the chained hash of a block, so that a node stands for a
whole prefix.  Parent and children links serve eviction only; a lookup follows
the query's own hashes.

The order in which a hash map is walked is a parameter of an eviction, because
it decides between equally old candidates.  Token ends are computed as a
release build computes them.
-/
import Mathlib.Data.List.AList
import Mathlib.Data.Finset.Basic
import Llmxabe.Cache.Pool
import Llmxabe.Sched.Request

/-! ### Updating one entry of a map -/

section Modify

variable {α β : Type} [DecidableEq α]

/-- Change the value of a key that is present. -/
def AList.modify (f : β → β) (a : α) (s : AList fun _ : α => β) : AList fun _ : α => β :=
  match s.lookup a with
  | some b => s.insert a (f b)
  | none => s

theorem AList.lookup_modify (f : β → β) (a : α) (s : AList fun _ : α => β) :
    (s.modify f a).lookup a = (s.lookup a).map f := by
  rw [modify]
  split
  · rename_i b hb
    rw [lookup_insert, hb]
    rfl
  · rename_i hb
    rw [hb]
    rfl

theorem AList.lookup_modify_ne {f : β → β} {a a' : α} {s : AList fun _ : α => β} (hne : a' ≠ a) :
    (s.modify f a).lookup a' = s.lookup a' := by
  rw [modify]
  split
  · exact lookup_insert_ne hne
  · rfl

/-- An update that keeps a field keeps it everywhere. -/
theorem AList.lookup_modify_map {γ : Type} {f : β → β} {g : β → γ} (hg : ∀ b, g (f b) = g b)
    (a a' : α) (s : AList fun _ : α => β) :
    ((s.modify f a).lookup a').map g = (s.lookup a').map g := by
  by_cases hne : a' = a
  · rw [hne, lookup_modify, Option.map_map]
    exact congrArg (fun h => (s.lookup a).map h) (funext hg)
  · rw [lookup_modify_ne hne]

end Modify

/-- The chained hash that names a prefix. -/
abbrev BlockHash := ℕ

/-- The slot of a recurrent state. -/
abbrev GdnSlot := BlockId

/-- Parent of the first block of a sequence. -/
def rootHash : BlockHash := 0

/-- A node that an eviction removed. -/
structure EvictedPrefix where
  hash : BlockHash
  block : BlockId
  deriving DecidableEq, Repr

/-- One block of a prefix being inserted. -/
structure PrefixBlock where
  hash : BlockHash
  block : BlockId
  gdnSnapshot : Option GdnSlot
  deriving DecidableEq, Repr

/-- A cached block behind its parent. -/
structure Node where
  parent : BlockHash
  children : Finset BlockHash
  block : BlockId
  tokenEnd : ℕ
  gdnSnapshot : Option GdnSlot
  refCount : ℕ
  pinned : Bool
  /-- The clock when the last reference was released. -/
  lastUsed : ℕ
  deriving DecidableEq

/-- The cached prefixes; `clock` stamps the releases. -/
structure RadixTree where
  blockSize : ℕ
  nodes : AList fun _ : BlockHash => Node
  rootChildren : Finset BlockHash
  clock : ℕ

/-- What a lookup finds. -/
structure PrefixMatch where
  matchedHash : Option BlockHash
  matchedTokens : ℕ
  blocks : List BlockId
  gdnSnapshot : Option GdnSlot
  gdnSnapshotHash : Option BlockHash
  gdnMatchedTokens : ℕ
  deriving DecidableEq, Repr

/-- The order in which the keys of a map are walked. -/
structure WalkOrder where
  walk : List BlockHash → List BlockHash
  perm : ∀ keys, (walk keys).Perm keys

namespace RadixTree

/-- Nothing cached. -/
def new (blockSize : ℕ) : RadixTree := ⟨blockSize, ∅, ∅, 0⟩

/-! ### Insertion -/

/-- Add a node that is not there yet. -/
def insertNode (parent : BlockHash) (tokenEnd : ℕ) (pb : PrefixBlock) (t : RadixTree) :
    RadixTree :=
  if (t.nodes.lookup pb.hash).isSome then t
  else
    let nodes := t.nodes.insert pb.hash {
      parent
      children := ∅
      block := pb.block
      tokenEnd
      gdnSnapshot := pb.gdnSnapshot
      refCount := 0
      pinned := false
      lastUsed := 0 }
    if parent = rootHash then { t with nodes, rootChildren := insert pb.hash t.rootChildren }
    else { t with
      nodes := nodes.modify (fun n => { n with children := insert pb.hash n.children }) parent }

/-- Insert blocks below `parent`, the first of which begins at `tokenStart`. -/
def insertFrom : BlockHash → ℕ → List PrefixBlock → RadixTree → RadixTree
  | _, _, [], t => t
  | parent, tokenStart, pb :: blocks, t =>
    let tokenEnd := (addU32 tokenStart t.blockSize).val
    insertFrom pb.hash tokenEnd blocks (t.insertNode parent tokenEnd pb)

/-- Insert a prefix with its cached blocks; nodes already there stay as they
are. -/
def insertPrefix (blocks : List PrefixBlock) (t : RadixTree) : RadixTree :=
  t.insertFrom rootHash 0 blocks

/-! ### Lookup -/

/-- Extend a match by one node. -/
def extendMatch (result : PrefixMatch) (h : BlockHash) (node : Node) : PrefixMatch where
  matchedHash := some h
  matchedTokens := node.tokenEnd
  blocks := result.blocks ++ [node.block]
  gdnSnapshot := if node.gdnSnapshot.isSome then node.gdnSnapshot else result.gdnSnapshot
  gdnSnapshotHash := if node.gdnSnapshot.isSome then some h else result.gdnSnapshotHash
  gdnMatchedTokens := if node.gdnSnapshot.isSome then node.tokenEnd else result.gdnMatchedTokens

/-- Walk the cached blocks as far as they go. -/
def matchFrom (t : RadixTree) : List BlockHash → PrefixMatch → PrefixMatch
  | [], result => result
  | h :: hashes, result =>
    match t.nodes.lookup h with
    | none => result
    | some node => matchFrom t hashes (extendMatch result h node)

/-- Longest prefix match. -/
def matchPrefix (t : RadixTree) (hashes : List BlockHash) : PrefixMatch :=
  t.matchFrom hashes ⟨none, 0, [], none, none, 0⟩

/-! ### References and pins -/

/-- Update every node along a chain. -/
def onChain (f : Node → Node) (hashes : List BlockHash) (t : RadixTree) : RadixTree :=
  { t with nodes := hashes.foldl (fun nodes h => nodes.modify f h) t.nodes }

/-- A reference more on each node of a chain. -/
def incrRefChain (hashes : List BlockHash) (t : RadixTree) : RadixTree :=
  t.onChain (fun n => { n with refCount := n.refCount + 1 }) hashes

/-- Decrement with saturation; a node whose last reference goes is stamped. -/
def decrRefChain (hashes : List BlockHash) (t : RadixTree) : RadixTree :=
  let clock := t.clock + 1
  onChain (fun n => { n with
    refCount := n.refCount - 1
    lastUsed := if n.refCount - 1 = 0 then clock else n.lastUsed }) hashes { t with clock }

/-- Keep the nodes of a chain from eviction. -/
def pinChain (hashes : List BlockHash) (t : RadixTree) : RadixTree :=
  t.onChain (fun n => { n with pinned := true }) hashes

/-- Let them be evicted again. -/
def unpinChain (hashes : List BlockHash) (t : RadixTree) : RadixTree :=
  t.onChain (fun n => { n with pinned := false }) hashes

/-! ### Eviction -/

/-- An eviction may take this node. -/
def evictable (n : Node) : Bool := decide (n.children = ∅ ∧ n.refCount = 0 ∧ n.pinned = false)

/-- The least recently used node an eviction may take. -/
def candidate (order : WalkOrder) (t : RadixTree) : Option (BlockHash × Node) :=
  ((order.walk t.nodes.keys).filterMap fun h =>
    ((t.nodes.lookup h).filter evictable).map (h, ·)).argmin (·.2.lastUsed)

/-- Take a node out, and unlink it from its parent. -/
def removeNode (h : BlockHash) (node : Node) (t : RadixTree) : RadixTree :=
  let nodes := t.nodes.erase h
  if node.parent = rootHash then { t with nodes, rootChildren := t.rootChildren.erase h }
  else { t with
    nodes := nodes.modify (fun n => { n with children := n.children.erase h }) node.parent }

/-- Evict up to so many unreferenced leaves, oldest first. -/
def evictUnreferencedEntries (order : WalkOrder) : ℕ → RadixTree → RadixTree × List EvictedPrefix
  | 0, t => (t, [])
  | maxNodes + 1, t =>
    match t.candidate order with
    | none => (t, [])
    | some (h, node) =>
      let rest := evictUnreferencedEntries order maxNodes (t.removeNode h node)
      (rest.1, ⟨h, node.block⟩ :: rest.2)

end RadixTree

/-- A call that changes the tree. -/
inductive RadixOp where
  | insert (blocks : List PrefixBlock)
  | incrRefChain (hashes : List BlockHash)
  | decrRefChain (hashes : List BlockHash)
  | pinChain (hashes : List BlockHash)
  | unpinChain (hashes : List BlockHash)
  | evict (order : WalkOrder) (maxNodes : ℕ)
