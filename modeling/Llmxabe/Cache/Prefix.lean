/-
The structure of the prefix tree.

The contents of a block are whatever the hash is taken of; `U` holds the
prefixes in use, whose names do not collide.  `RadixTree.Sound` says that every
node stands for one of them, hangs below its parent and ends where its prefix
ends.  Insertion and eviction of one node keep it, and every other call leaves
the shape of the tree alone.

`RadixTree.Matches` describes a lookup, `RadixTree.Evictions` an eviction, and
`radix_structure` brings them together for every sequence of calls.
-/
import Llmxabe.Lib.HashChain
import Llmxabe.Lib.Run
import Llmxabe.Cache.Radix

variable {α : Type}

/-- The part of a node that references and pins do not touch. -/
def Node.shape (n : Node) : BlockHash × Finset BlockHash × ℕ := (n.parent, n.children, n.tokenEnd)

/-- A node apart from its children. -/
def Node.bare (n : Node) : Node := { n with children := ∅ }

namespace RadixTree

/-- Every node stands for a prefix, below its parent. -/
structure Sound (hash : BlockHash → α → BlockHash) (U : Set (List α)) (t : RadixTree) : Prop where
  named : ∀ {h : BlockHash} {n : Node}, t.nodes.lookup h = some n → ∃ xs x, xs ++ [x] ∈ U ∧
    h = chainHash hash rootHash (xs ++ [x]) ∧ n.parent = chainHash hash rootHash xs ∧
    (xs = [] ∨ (t.nodes.lookup n.parent).isSome) ∧ n.tokenEnd = (xs.length + 1) * t.blockSize
  children : ∀ {h : BlockHash} {n : Node}, t.nodes.lookup h = some n →
    ∀ c, c ∈ n.children ↔ (t.nodes.lookup c).map Node.parent = some h
  rootChildren : ∀ c, c ∈ t.rootChildren ↔ (t.nodes.lookup c).map Node.parent = some rootHash

section Sound

variable {hash : BlockHash → α → BlockHash} {U : Set (List α)} {t t' : RadixTree}

theorem Sound.new (blockSize : ℕ) : (new blockSize).Sound hash U := by
  refine ⟨fun h => ?_, fun h => ?_, fun c => ?_⟩
  · cases h
  · cases h
  · exact ⟨fun h => absurd h (Finset.notMem_empty c), fun h => by cases h⟩

/-- Soundness is a matter of shape. -/
theorem Sound.of_shape (hs : t.Sound hash U) (hblock : t'.blockSize = t.blockSize)
    (hroot : t'.rootChildren = t.rootChildren)
    (hshape : ∀ h, (t'.nodes.lookup h).map Node.shape = (t.nodes.lookup h).map Node.shape) :
    t'.Sound hash U := by
  have hparent : ∀ h, (t'.nodes.lookup h).map Node.parent = (t.nodes.lookup h).map Node.parent := by
    intro h
    have heq := congrArg (Option.map Prod.fst) (hshape h)
    rw [Option.map_map, Option.map_map] at heq
    exact heq
  have hold : ∀ {h : BlockHash} {n : Node}, t'.nodes.lookup h = some n →
      ∃ m, t.nodes.lookup h = some m ∧ m.shape = n.shape := by
    intro h n hn
    have heq := hshape h
    rw [hn, Option.map_some, eq_comm, Option.map_eq_some_iff] at heq
    exact heq
  refine ⟨fun {h n} hn => ?_, fun {h n} hn c => ?_, fun c => ?_⟩
  · obtain ⟨m, hm, hmn⟩ := hold hn
    simp only [Node.shape, Prod.mk.injEq] at hmn
    obtain ⟨xs, x, hU, rfl, hpar, hpresent, hend⟩ := hs.named hm
    refine ⟨xs, x, hU, rfl, hmn.1 ▸ hpar, hpresent.imp id fun h => ?_, ?_⟩
    · rw [← hmn.1, ← Option.isSome_map (f := Node.parent), hparent, Option.isSome_map]
      exact h
    · rw [← hmn.2.2, hend, hblock]
  · obtain ⟨m, hm, hmn⟩ := hold hn
    simp only [Node.shape, Prod.mk.injEq] at hmn
    rw [← hmn.2.1, hs.children hm, hparent]
  · rw [hroot, hs.rootChildren, hparent]

theorem onChain_shape {f : Node → Node} (hf : ∀ n, (f n).shape = n.shape) (h : BlockHash) :
    ∀ (hashes : List BlockHash) (nodes : AList fun _ : BlockHash => Node),
      ((hashes.foldl (fun nodes h => nodes.modify f h) nodes).lookup h).map Node.shape
        = (nodes.lookup h).map Node.shape := by
  intro hashes
  induction hashes with
  | nil => exact fun _ => rfl
  | cons h' hashes ih =>
    intro nodes
    rw [List.foldl_cons, ih, AList.lookup_modify_map hf]

theorem Sound.onChain (hs : t.Sound hash U) {f : Node → Node} (hf : ∀ n, (f n).shape = n.shape)
    (hashes : List BlockHash) : (t.onChain f hashes).Sound hash U :=
  hs.of_shape rfl rfl fun h => onChain_shape hf h hashes t.nodes

/-- No node is named like the root. -/
theorem Sound.lookup_root (hU : CollisionFree hash rootHash U) (hs : t.Sound hash U) :
    t.nodes.lookup rootHash = none := by
  rcases hroot : t.nodes.lookup rootHash with _ | n
  · rfl
  · obtain ⟨xs, x, hmem, heq, -⟩ := hs.named hroot
    exact absurd heq.symm (hU.ne_root hmem)

/-- What a node below a name says of that name. -/
theorem Sound.parent_present (hU : CollisionFree hash rootHash U) (hs : t.Sound hash U)
    {h : BlockHash} {xs : List α} (hxs : xs ∈ U) (hne : xs ≠ [])
    (hparent : (t.nodes.lookup h).map Node.parent = some (chainHash hash rootHash xs)) :
    (t.nodes.lookup (chainHash hash rootHash xs)).isSome := by
  obtain ⟨n, hn, hpar⟩ := Option.map_eq_some_iff.mp hparent
  obtain ⟨ys, y, hmem, -, hpar', hpresent, -⟩ := hs.named hn
  rw [← hpar]
  refine hpresent.resolve_left fun hnil => hne ?_
  refine hU.eq_nil hxs ?_
  rw [← hpar, hpar', hnil]
  rfl

end Sound

/-! ### One node more -/

section Insert

variable {hash : BlockHash → α → BlockHash} {U : Set (List α)} {t : RadixTree}
  {xs : List α} {x : α} {pb : PrefixBlock} {tokenEnd : ℕ}

theorem insertNode_blockSize (parent : BlockHash) :
    (t.insertNode parent tokenEnd pb).blockSize = t.blockSize := by
  rw [insertNode]
  split
  · rfl
  · simp only
    split
    · rfl
    · rfl

theorem insertNode_of_present {parent : BlockHash} (h : (t.nodes.lookup pb.hash).isSome) :
    t.insertNode parent tokenEnd pb = t := by
  rw [insertNode, if_pos h]

/-- The nodes after a vacant one has been filled. -/
theorem insertNode_lookup {parent : BlockHash} (hvacant : t.nodes.lookup pb.hash = none)
    (hne : pb.hash ≠ parent) :
    (t.insertNode parent tokenEnd pb).nodes.lookup pb.hash
        = some ⟨parent, ∅, pb.block, tokenEnd, pb.gdnSnapshot, 0, false, 0⟩ ∧
      (parent ≠ rootHash → (t.insertNode parent tokenEnd pb).nodes.lookup parent
        = (t.nodes.lookup parent).map fun n => { n with children := insert pb.hash n.children }) ∧
      (∀ h, h ≠ pb.hash → (h ≠ parent ∨ parent = rootHash) →
        (t.insertNode parent tokenEnd pb).nodes.lookup h = t.nodes.lookup h) ∧
      (t.insertNode parent tokenEnd pb).rootChildren
        = if parent = rootHash then insert pb.hash t.rootChildren else t.rootChildren := by
  rw [insertNode, hvacant]
  simp only [Option.isSome_none, Bool.false_eq_true, if_false]
  by_cases hroot : parent = rootHash
  · rw [if_pos hroot, if_pos hroot]
    exact ⟨AList.lookup_insert _, fun h => absurd hroot h,
      fun h hh _ => AList.lookup_insert_ne hh, rfl⟩
  · rw [if_neg hroot, if_neg hroot]
    refine ⟨?_, fun _ => ?_, fun h hh hparent => ?_, rfl⟩
    · simp only
      rw [AList.lookup_modify_ne hne, AList.lookup_insert]
    · simp only
      rw [AList.lookup_modify, AList.lookup_insert_ne (Ne.symm hne)]
    · simp only
      rw [AList.lookup_modify_ne (hparent.resolve_right hroot), AList.lookup_insert_ne hh]

/-- The node is there afterwards, whoever put it there. -/
theorem insertNode_there (parent : BlockHash) :
    ((t.insertNode parent tokenEnd pb).nodes.lookup pb.hash).isSome := by
  by_cases hpresent : (t.nodes.lookup pb.hash).isSome
  · rw [insertNode_of_present hpresent]
    exact hpresent
  · rw [insertNode, if_neg hpresent]
    simp only
    split
    · simp only
      rw [AList.lookup_insert]
      rfl
    · simp only
      by_cases hne : pb.hash = parent
      · rw [hne, AList.lookup_modify, AList.lookup_insert]
        rfl
      · rw [AList.lookup_modify_ne hne, AList.lookup_insert]
        rfl

/-- Apart from its children a node stays as it was. -/
theorem insertNode_bare {parent : BlockHash} {h : BlockHash}
    (hvacant : t.nodes.lookup pb.hash = none) (hne : pb.hash ≠ parent) (hh : h ≠ pb.hash) :
    ((t.insertNode parent tokenEnd pb).nodes.lookup h).map Node.bare
      = (t.nodes.lookup h).map Node.bare := by
  obtain ⟨-, hparent, hother, -⟩ := @insertNode_lookup t pb tokenEnd parent hvacant hne
  by_cases hp : h = parent ∧ parent ≠ rootHash
  · rw [hp.1, hparent hp.2, Option.map_map]
    rfl
  · rw [hother h hh (by tauto)]

theorem insertNode_sound (hU : CollisionFree hash rootHash U) (hs : t.Sound hash U)
    (hmem : xs ++ [x] ∈ U) (hhash : pb.hash = chainHash hash rootHash (xs ++ [x]))
    (hpresent : xs = [] ∨ (t.nodes.lookup (chainHash hash rootHash xs)).isSome)
    (hend : tokenEnd = (xs.length + 1) * t.blockSize) :
    (t.insertNode (chainHash hash rootHash xs) tokenEnd pb).Sound hash U := by
  rcases hvacant : t.nodes.lookup pb.hash with _ | m
  swap
  · rw [insertNode_of_present (by rw [hvacant]; rfl)]
    exact hs
  -- a new node; its name is not its parent's, since prefixes in `U` have names of their own
  have hxs : xs ∈ U := hU.of_concat hmem
  have hne : pb.hash ≠ chainHash hash rootHash xs := by
    intro heq
    have hsame := hU.injOn hmem hxs (hhash.symm.trans heq)
    have hlength := congrArg List.length hsame
    rw [List.length_append, List.length_singleton] at hlength
    omega
  obtain ⟨hnew, hparent, hother, hrootChildren⟩ :=
    @insertNode_lookup t pb tokenEnd (chainHash hash rootHash xs) hvacant hne
  have hbare : ∀ h, h ≠ pb.hash → _ := fun h hh =>
    @insertNode_bare t pb tokenEnd (chainHash hash rootHash xs) h hvacant hne hh
  set t' := t.insertNode (chainHash hash rootHash xs) tokenEnd pb with ht'
  have hblock : t'.blockSize = t.blockSize := insertNode_blockSize _
  have hparents : ∀ h, (t'.nodes.lookup h).map Node.parent
      = if h = pb.hash then some (chainHash hash rootHash xs)
        else (t.nodes.lookup h).map Node.parent := by
    intro h
    by_cases hh : h = pb.hash
    · rw [if_pos hh, hh, hnew]
      rfl
    · have heq := congrArg (Option.map Node.parent) (hbare h hh)
      rw [Option.map_map, Option.map_map] at heq
      rw [if_neg hh]
      exact heq
  have hmono : ∀ h, (t.nodes.lookup h).isSome → (t'.nodes.lookup h).isSome := by
    intro h hsome
    rw [← Option.isSome_map (f := Node.parent), hparents]
    split
    · rfl
    · rw [Option.isSome_map]
      exact hsome
  -- nothing hangs below a vacant name
  have hleaf : ∀ c, (t.nodes.lookup c).map Node.parent ≠ some pb.hash := by
    intro c hc
    have hsome := hs.parent_present hU hmem (by simp) (hhash ▸ hc)
    rw [← hhash, hvacant] at hsome
    cases hsome
  refine ⟨fun {h n} hn => ?_, fun {h n} hn c => ?_, fun c => ?_⟩
  -- every node is named by a prefix: the new one by `xs ++ [x]`, the others as before
  · by_cases hh : h = pb.hash
    · subst hh
      rw [hnew, Option.some.injEq] at hn
      subst hn
      exact ⟨xs, x, hmem, hhash, rfl, hpresent.imp id (hmono _), hend.trans (by rw [hblock])⟩
    · have heq := hbare h hh
      rw [hn, Option.map_some, eq_comm, Option.map_eq_some_iff] at heq
      obtain ⟨m, hm, hmn⟩ := heq
      obtain ⟨ys, y, hymem, rfl, hpar, hpres, hyend⟩ := hs.named hm
      have hparent' : n.parent = m.parent := (congrArg Node.parent hmn).symm
      have hend' : n.tokenEnd = m.tokenEnd := (congrArg Node.tokenEnd hmn).symm
      refine ⟨ys, y, hymem, rfl, hparent'.trans hpar, hpres.imp id fun h => ?_, ?_⟩
      · rw [hparent']
        exact hmono _ h
      · rw [hend', hyend, hblock]
  -- children: the new node has none, its parent gains it, nobody else changes
  · rw [hparents]
    by_cases hh : h = pb.hash
    · subst hh
      rw [hnew, Option.some.injEq] at hn
      subst hn
      refine ⟨fun h => absurd h (Finset.notMem_empty c), fun h => ?_⟩
      split at h
      · exact absurd (Option.some.inj h).symm hne
      · exact absurd h (hleaf c)
    · by_cases hp : h = chainHash hash rootHash xs
      · have hroot : chainHash hash rootHash xs ≠ rootHash := by
          intro hroot
          rw [hp, hroot] at hn
          have hnone : t'.nodes.lookup rootHash = none := by
            rw [hother rootHash (by rw [hhash]; exact (hU.ne_root hmem).symm) (Or.inr hroot)]
            exact hs.lookup_root hU
          rw [hnone] at hn
          cases hn
        rw [hp, hparent hroot, Option.map_eq_some_iff] at hn
        obtain ⟨m, hm, rfl⟩ := hn
        rw [hp]
        simp only [Finset.mem_insert]
        rw [hs.children hm]
        by_cases hc : c = pb.hash
        · simp [hc]
        · simp [hc]
      · rw [hother h hh (Or.inl hp)] at hn
        rw [hs.children hn]
        split
        · rename_i hc
          constructor
          · intro hcl
            rw [hc, hvacant] at hcl
            cases hcl
          · intro hcl
            exact absurd (Option.some.inj hcl).symm hp
        · rfl
  -- and so for the children of the root, which is not a node
  · rw [hrootChildren, hparents]
    by_cases hc : c = pb.hash
    · rw [if_pos hc]
      split
      · rename_i hroot
        rw [hroot, hc]
        exact ⟨fun _ => rfl, fun _ => Finset.mem_insert_self _ _⟩
      · rename_i hroot
        rw [hs.rootChildren, hc, hvacant]
        exact ⟨fun h => (by cases h), fun h => absurd (Option.some.inj h) hroot⟩
    · rw [if_neg hc]
      split
      · rw [Finset.mem_insert, hs.rootChildren]
        exact ⟨fun h => h.resolve_left hc, Or.inr⟩
      · exact hs.rootChildren c

theorem insertFrom_sound (hU : CollisionFree hash rootHash U) :
    ∀ {blocks : List PrefixBlock} {ys xs : List α} {t : RadixTree}, t.Sound hash U →
      xs ++ ys ∈ U → blocks.map (·.hash) = chainHashes hash (chainHash hash rootHash xs) ys →
      (xs = [] ∨ (t.nodes.lookup (chainHash hash rootHash xs)).isSome) →
      (xs ++ ys).length * t.blockSize < 2 ^ 32 →
      (t.insertFrom (chainHash hash rootHash xs) (xs.length * t.blockSize) blocks).Sound hash U ∧
        (t.insertFrom (chainHash hash rootHash xs) (xs.length * t.blockSize) blocks).blockSize
          = t.blockSize := by
  intro blocks
  induction blocks with
  | nil => exact fun hs _ _ _ _ => ⟨hs, rfl⟩
  | cons pb blocks ih =>
    intro ys xs t hs hmem hhashes hpresent hfits
    rcases ys with _ | ⟨y, ys⟩
    · cases hhashes
    · rw [List.map_cons, chainHashes, ← @chainHash_concat _ _ hash rootHash, List.cons.injEq]
        at hhashes
      obtain ⟨hhash, hrest⟩ := hhashes
      rw [List.append_cons] at hmem hfits
      have hlength : (xs ++ [y]).length = xs.length + 1 := List.length_append
      have hend : (addU32 (xs.length * t.blockSize) t.blockSize).val
          = (xs.length + 1) * t.blockSize := by
        rw [addU32_val, ← Nat.succ_mul, Nat.mod_eq_of_lt]
        refine lt_of_le_of_lt (Nat.mul_le_mul_right _ ?_) hfits
        rw [List.length_append, hlength]
        exact Nat.le_add_right _ _
      have hone := insertNode_sound hU hs (hU.of_append hmem) hhash hpresent hend
      have hblock := @insertNode_blockSize t pb
        (addU32 (xs.length * t.blockSize) t.blockSize).val (chainHash hash rootHash xs)
      have hthere : ((t.insertNode (chainHash hash rootHash xs)
          (addU32 (xs.length * t.blockSize) t.blockSize).val pb).nodes.lookup
            (chainHash hash rootHash (xs ++ [y]))).isSome := by
        rw [← hhash]
        exact insertNode_there _
      obtain ⟨hsound, hsize⟩ := ih hone hmem hrest (Or.inr hthere) (by rw [hblock]; exact hfits)
      rw [hblock, hlength, ← hend, ← hhash] at hsound hsize
      exact ⟨hsound, hsize⟩

theorem insertPrefix_sound (hU : CollisionFree hash rootHash U) {blocks : List PrefixBlock}
    (hs : t.Sound hash U) (hmem : xs ∈ U)
    (hhashes : blocks.map (·.hash) = chainHashes hash rootHash xs)
    (hfits : xs.length * t.blockSize < 2 ^ 32) :
    (t.insertPrefix blocks).Sound hash U ∧ (t.insertPrefix blocks).blockSize = t.blockSize := by
  have h := @insertFrom_sound α hash U hU blocks xs [] t hs hmem hhashes (Or.inl rfl) hfits
  rw [List.length_nil, Nat.zero_mul] at h
  exact h

end Insert

/-! ### One leaf less -/

section Remove

variable {hash : BlockHash → α → BlockHash} {U : Set (List α)} {t : RadixTree} {h : BlockHash}
  {node : Node}

/-- What an eviction takes is a node it may take, and none is older. -/
theorem candidate_spec {order : WalkOrder} (hc : t.candidate order = some (h, node)) :
    t.nodes.lookup h = some node ∧ evictable node ∧
      ∀ h' n', t.nodes.lookup h' = some n' → evictable n' → node.lastUsed ≤ n'.lastUsed := by
  rw [candidate] at hc
  have hmem := List.argmin_mem hc
  obtain ⟨h', hwalk, hnode⟩ := List.mem_filterMap.mp hmem
  obtain ⟨n', hn', heq⟩ := Option.map_eq_some_iff.mp hnode
  obtain ⟨rfl, rfl⟩ := Prod.mk.inj heq
  rw [Option.filter_eq_some_iff] at hn'
  refine ⟨hn'.1, hn'.2, fun h' n hn hev => ?_⟩
  refine List.le_of_mem_argmin (f := fun q : BlockHash × Node => q.2.lastUsed) (a := (h', n)) ?_ hc
  refine List.mem_filterMap.mpr ⟨h', (order.perm _).mem_iff.mpr ?_, ?_⟩
  · rw [← AList.mem_keys, ← AList.lookup_isSome, hn]
    rfl
  · rw [hn, Option.filter_some, if_pos hev]
    rfl

/-- The nodes after one has been taken out. -/
theorem removeNode_lookup (hne : h ≠ node.parent) :
    (t.removeNode h node).nodes.lookup h = none ∧
      (node.parent ≠ rootHash → (t.removeNode h node).nodes.lookup node.parent
        = (t.nodes.lookup node.parent).map fun n => { n with children := n.children.erase h }) ∧
      (∀ h', h' ≠ h → (h' ≠ node.parent ∨ node.parent = rootHash) →
        (t.removeNode h node).nodes.lookup h' = t.nodes.lookup h') ∧
      (t.removeNode h node).rootChildren
        = (if node.parent = rootHash then t.rootChildren.erase h else t.rootChildren) ∧
      (t.removeNode h node).blockSize = t.blockSize := by
  rw [removeNode]
  by_cases hroot : node.parent = rootHash
  · rw [if_pos hroot, if_pos hroot]
    exact ⟨AList.lookup_erase _ _, fun h => absurd hroot h,
      fun h' hh _ => AList.lookup_erase_ne hh, rfl, rfl⟩
  · rw [if_neg hroot, if_neg hroot]
    refine ⟨?_, fun _ => ?_, fun h' hh hparent => ?_, rfl, rfl⟩
    · simp only
      rw [AList.lookup_modify_ne hne, AList.lookup_erase]
    · simp only
      rw [AList.lookup_modify, AList.lookup_erase_ne (Ne.symm hne)]
    · simp only
      rw [AList.lookup_modify_ne (hparent.resolve_right hroot), AList.lookup_erase_ne hh]

/-- A node is not its own parent. -/
theorem Sound.ne_parent (hU : CollisionFree hash rootHash U) (hs : t.Sound hash U)
    (hn : t.nodes.lookup h = some node) : h ≠ node.parent := by
  obtain ⟨xs, x, hmem, rfl, hpar, -⟩ := hs.named hn
  intro heq
  have hsame := hU.injOn hmem (hU.of_concat hmem) (heq.trans hpar)
  have hlength := congrArg List.length hsame
  rw [List.length_append, List.length_singleton] at hlength
  omega

theorem removeNode_bare {h' : BlockHash} (hne : h ≠ node.parent) :
    ((t.removeNode h node).nodes.lookup h').map Node.bare
      = if h' = h then none else (t.nodes.lookup h').map Node.bare := by
  obtain ⟨hgone, hparent, hother, -, -⟩ := @removeNode_lookup t h node hne
  by_cases hh : h' = h
  · rw [if_pos hh, hh, hgone]
    rfl
  · rw [if_neg hh]
    by_cases hp : h' = node.parent ∧ node.parent ≠ rootHash
    · rw [hp.1, hparent hp.2, Option.map_map]
      rfl
    · rw [hother h' hh (by tauto)]

theorem removeNode_sound (hU : CollisionFree hash rootHash U) (hs : t.Sound hash U)
    (hn : t.nodes.lookup h = some node) (hleaf : node.children = ∅) :
    (t.removeNode h node).Sound hash U := by
  have hne := hs.ne_parent hU hn
  obtain ⟨hgone, hparent, hother, hrootChildren, hblock⟩ := @removeNode_lookup t h node hne
  have hbare : ∀ h', _ := fun h' => @removeNode_bare t h node h' hne
  set t' := t.removeNode h node with ht'
  have hparents : ∀ h', (t'.nodes.lookup h').map Node.parent
      = if h' = h then none else (t.nodes.lookup h').map Node.parent := by
    intro h'
    have heq := congrArg (Option.map Node.parent) (hbare h')
    rw [Option.map_map] at heq
    refine heq.trans ?_
    split
    · rfl
    · rw [Option.map_map]
      rfl
  -- nothing hangs below a leaf
  have hbelow : ∀ c, (t.nodes.lookup c).map Node.parent ≠ some h := by
    intro c hc
    rw [← hs.children hn, hleaf] at hc
    exact Finset.notMem_empty c hc
  refine ⟨fun {h' n} hn' => ?_, fun {h' n} hn' c => ?_, fun c => ?_⟩
  -- a node that stays keeps its name, and its parent stays, which the leaf is not
  · have hh : h' ≠ h := by
      rintro rfl
      rw [hgone] at hn'
      cases hn'
    have heq := hbare h'
    rw [if_neg hh, hn', Option.map_some, eq_comm, Option.map_eq_some_iff] at heq
    obtain ⟨m, hm, hmn⟩ := heq
    have hparent' : n.parent = m.parent := (congrArg Node.parent hmn).symm
    have hend' : n.tokenEnd = m.tokenEnd := (congrArg Node.tokenEnd hmn).symm
    obtain ⟨ys, y, hymem, rfl, hpar, hpres, hyend⟩ := hs.named hm
    refine ⟨ys, y, hymem, rfl, hparent'.trans hpar, hpres.imp id fun hsome => ?_, ?_⟩
    · rw [hparent', ← Option.isSome_map (f := Node.parent), hparents, if_neg, Option.isSome_map]
      · exact hsome
      · rintro heq
        exact hbelow (chainHash hash rootHash (ys ++ [y])) (by rw [hm, ← heq]; rfl)
    · rw [hend', hyend, hblock]
  -- children: only the parent of the leaf loses one
  · have hh : h' ≠ h := by
      rintro rfl
      rw [hgone] at hn'
      cases hn'
    rw [hparents]
    by_cases hp : h' = node.parent
    · have hroot : node.parent ≠ rootHash := by
        intro hroot
        rw [hp, hroot] at hn'
        have hnone : t'.nodes.lookup rootHash = none := by
          rw [hother rootHash (hroot ▸ hne.symm) (Or.inr hroot)]
          exact hs.lookup_root hU
        rw [hnone] at hn'
        cases hn'
      rw [hp, hparent hroot, Option.map_eq_some_iff] at hn'
      obtain ⟨m, hm, rfl⟩ := hn'
      simp only [Finset.mem_erase]
      rw [hs.children hm, hp]
      by_cases hc : c = h
      · simp [hc]
      · simp [hc]
    · rw [hother h' hh (Or.inl hp)] at hn'
      rw [hs.children hn']
      split
      · rename_i hc
        rw [hc, hn, Option.map_some, Option.some.injEq]
        exact ⟨fun heq => absurd heq.symm hp, fun heq => (by cases heq)⟩
      · rfl
  -- and so for the children of the root
  · rw [hrootChildren, hparents]
    by_cases hc : c = h
    · rw [if_pos hc]
      refine ⟨fun hmem => ?_, fun heq => (by cases heq)⟩
      split at hmem
      · rw [hc] at hmem
        exact absurd hmem (Finset.notMem_erase h _)
      · rename_i hroot
        rw [hs.rootChildren, hc, hn] at hmem
        exact absurd (Option.some.inj hmem) hroot
    · rw [if_neg hc]
      split
      · rw [Finset.mem_erase, hs.rootChildren]
        exact ⟨fun hmem => hmem.2, fun hmem => ⟨hc, hmem⟩⟩
      · exact hs.rootChildren c

end Remove

/-! ### A whole eviction -/

/-- An eviction that returned these entries. -/
structure Evictions (t : RadixTree) (evicted : List EvictedPrefix) (t' : RadixTree) : Prop where
  /-- Each node goes at most once. -/
  nodup : (evicted.map (·.hash)).Nodup
  /-- What goes is what is returned; the rest stays but for its children. -/
  kept : ∀ h, (t'.nodes.lookup h).map Node.bare
    = if h ∈ evicted.map (·.hash) then none else (t.nodes.lookup h).map Node.bare
  /-- A node that goes has no reference, no pin and no child left. -/
  taken : ∀ i e, evicted[i]? = some e → ∃ n, t.nodes.lookup e.hash = some n ∧
    n.block = e.block ∧ n.refCount = 0 ∧ n.pinned = false ∧
    ∀ c ∈ n.children, c ∈ (evicted.take i).map (·.hash)

section Evict

variable {hash : BlockHash → α → BlockHash} {U : Set (List α)} {t : RadixTree}

theorem evict_spec (hU : CollisionFree hash rootHash U) (order : WalkOrder) :
    ∀ (maxNodes : ℕ) {t : RadixTree}, t.Sound hash U →
      let r := t.evictUnreferencedEntries order maxNodes
      r.1.Sound hash U ∧ r.1.blockSize = t.blockSize ∧ r.2.length ≤ maxNodes ∧
        t.Evictions r.2 r.1 := by
  intro maxNodes
  induction maxNodes with
  | zero =>
    intro t hs
    exact ⟨hs, rfl, le_rfl, List.nodup_nil, fun h => (if_neg List.not_mem_nil).symm,
      fun i e he => (by cases he)⟩
  | succ maxNodes ih =>
    intro t hs
    rw [evictUnreferencedEntries]
    rcases hc : t.candidate order with _ | ⟨h, node⟩
    -- nothing may be evicted: the list ends short of its bound
    · exact ⟨hs, rfl, Nat.zero_le _, List.nodup_nil, fun h => (if_neg List.not_mem_nil).symm,
        fun i e he => (by cases he)⟩
    · obtain ⟨hn, hev, -⟩ := candidate_spec hc
      simp only [evictable, decide_eq_true_eq] at hev
      have hne := hs.ne_parent hU hn
      obtain ⟨hgone, hparent, hother, -, hblock⟩ := @removeNode_lookup t h node hne
      obtain ⟨hsound, hsize, hlength, hnodup, hkept, htaken⟩ :=
        ih (removeNode_sound hU hs hn hev.1)
      simp only
      set rest := (t.removeNode h node).evictUnreferencedEntries order maxNodes with hrest
      -- the node that goes first is gone, so it does not come up again
      have hfresh : h ∉ rest.2.map (·.hash) := by
        intro hmem
        obtain ⟨e, he, heq⟩ := List.mem_map.mp hmem
        obtain ⟨i, hi⟩ := List.mem_iff_getElem?.mp he
        obtain ⟨n, hlook, -⟩ := htaken i e hi
        rw [heq, hgone] at hlook
        cases hlook
      refine ⟨hsound, hsize.trans hblock, Nat.succ_le_succ hlength,
        List.nodup_cons.mpr ⟨hfresh, hnodup⟩, fun h' => ?_, fun i e he => ?_⟩
      -- what stays is what neither this step nor the rest of the call removes
      · rw [hkept, removeNode_bare hne, List.map_cons]
        by_cases hh : h' = h
        · rw [if_pos hh, ite_self, if_pos (hh ▸ List.mem_cons_self)]
        · rw [if_neg hh]
          refine if_congr ?_ rfl rfl
          rw [List.mem_cons]
          exact ⟨Or.inr, fun hmem => hmem.resolve_left hh⟩
      · rcases i with _ | i
        -- the first one to go: a leaf, by the choice of the candidate
        · rw [List.getElem?_cons_zero, Option.some.injEq] at he
          subst he
          refine ⟨node, hn, rfl, hev.2.1, hev.2.2, fun c hc => ?_⟩
          rw [hev.1] at hc
          exact absurd hc (Finset.notMem_empty c)
        · rw [List.getElem?_cons_succ] at he
          -- a later one was here already; its children are those it has then, or the first one
          obtain ⟨n, hlook, hbl, href, hpin, hch⟩ := htaken i e he
          rw [List.take_succ_cons, List.map_cons]
          by_cases hp : e.hash = node.parent ∧ node.parent ≠ rootHash
          · -- the parent of the node that went first
            rw [hp.1, hparent hp.2, Option.map_eq_some_iff] at hlook
            obtain ⟨m, hm, rfl⟩ := hlook
            refine ⟨m, hp.1 ▸ hm, hbl, href, hpin, fun c hc => ?_⟩
            by_cases hch' : c = h
            · exact hch' ▸ List.mem_cons_self
            · exact List.mem_cons_of_mem _ (hch c (Finset.mem_erase.mpr ⟨hch', hc⟩))
          · have heh : e.hash ≠ h := by
              rintro heq
              rw [heq, hgone] at hlook
              cases hlook
            rw [hother e.hash heh (by tauto)] at hlook
            exact ⟨n, hlook, hbl, href, hpin, fun c hc => List.mem_cons_of_mem _ (hch c hc)⟩

end Evict

/-! ### A lookup -/

/-- The prefix is in the tree. -/
def Cached (hash : BlockHash → α → BlockHash) (t : RadixTree) (xs : List α) : Prop :=
  xs = [] ∨ (t.nodes.lookup (chainHash hash rootHash xs)).isSome

/-- The snapshot annotated at the end of a prefix. -/
def snapshotAt (hash : BlockHash → α → BlockHash) (t : RadixTree) (xs : List α) : Option GdnSlot :=
  (t.nodes.lookup (chainHash hash rootHash xs)).bind (·.gdnSnapshot)

/-- The result names the deepest snapshot of the first `n` prefixes. -/
def Deepest (hash : BlockHash → α → BlockHash) (t : RadixTree) (xs : List α) (n : ℕ)
    (r : PrefixMatch) : Prop :=
  ((∀ k < n, t.snapshotAt hash (xs.take (k + 1)) = none) ∧
      r.gdnSnapshot = none ∧ r.gdnSnapshotHash = none ∧ r.gdnMatchedTokens = 0) ∨
    ∃ k < n, ∃ slot, t.snapshotAt hash (xs.take (k + 1)) = some slot ∧
      r.gdnSnapshot = some slot ∧
      r.gdnSnapshotHash = some (chainHash hash rootHash (xs.take (k + 1))) ∧
      r.gdnMatchedTokens = (k + 1) * t.blockSize ∧
      ∀ j, k < j → j < n → t.snapshotAt hash (xs.take (j + 1)) = none

/-- The result of looking a prefix up whose first `n` blocks are cached. -/
structure Matches (hash : BlockHash → α → BlockHash) (t : RadixTree) (xs : List α) (n : ℕ)
    (r : PrefixMatch) : Prop where
  le_length : n ≤ xs.length
  /-- They are the longest cached prefix. -/
  cached : ∀ k ≤ xs.length, t.Cached hash (xs.take k) ↔ k ≤ n
  blocks : r.blocks.map some = (List.range n).map fun k =>
    (t.nodes.lookup (chainHash hash rootHash (xs.take (k + 1)))).map Node.block
  matchedTokens : r.matchedTokens = n * t.blockSize
  matchedHash : r.matchedHash = if n = 0 then none else some (chainHash hash rootHash (xs.take n))
  deepest : t.Deepest hash xs n r

section Match

variable {hash : BlockHash → α → BlockHash} {U : Set (List α)} {t t' : RadixTree} {xs : List α}
  {n : ℕ} {r : PrefixMatch}

theorem matchFrom_concat (h : BlockHash) :
    ∀ (hashes : List BlockHash) (r : PrefixMatch), t.matchFrom (hashes ++ [h]) r
      = if ∀ h' ∈ hashes, (t.nodes.lookup h').isSome then
          match t.nodes.lookup h with
          | none => t.matchFrom hashes r
          | some node => extendMatch (t.matchFrom hashes r) h node
        else t.matchFrom hashes r := by
  intro hashes
  induction hashes with
  | nil =>
    intro r
    rw [if_pos fun h' hmem => absurd hmem List.not_mem_nil]
    rfl
  | cons h' hashes ih =>
    intro r
    rw [List.cons_append, matchFrom, matchFrom]
    rcases hn : t.nodes.lookup h' with _ | node
    · rw [if_neg fun hall => ?_]
      have hsome := hall h' List.mem_cons_self
      rw [hn] at hsome
      cases hsome
    · simp only
      rw [ih]
      refine if_congr ?_ rfl rfl
      rw [List.forall_mem_cons, hn]
      exact ⟨fun hall => ⟨rfl, hall⟩, fun hall => hall.2⟩

theorem Sound.cached_of_concat (hU : CollisionFree hash rootHash U) (hs : t.Sound hash U) {x : α}
    (hmem : xs ++ [x] ∈ U) (hc : t.Cached hash (xs ++ [x])) : t.Cached hash xs := by
  have hsome := hc.resolve_left (by simp)
  obtain ⟨n, hn⟩ := Option.isSome_iff_exists.mp hsome
  obtain ⟨ys, y, hymem, heq, hpar, hpresent, -⟩ := hs.named hn
  obtain ⟨rfl, -⟩ := hU.concat_inj hmem hymem heq
  rw [hpar] at hpresent
  exact hpresent

/-- The tree is closed under prefixes. -/
theorem Sound.cached_take (hU : CollisionFree hash rootHash U) (hs : t.Sound hash U) :
    ∀ {xs : List α}, xs ∈ U → t.Cached hash xs → ∀ k, t.Cached hash (xs.take k) := by
  intro xs
  induction xs using List.reverseRecOn with
  | nil =>
    intro _ _ k
    rw [List.take_nil]
    exact Or.inl rfl
  | append_singleton xs x ih =>
    intro hmem hc k
    rcases Nat.lt_or_ge xs.length k with hk | hk
    · rw [List.take_of_length_le (by rw [List.length_append]; exact hk)]
      exact hc
    · rw [List.take_append_of_le_length hk]
      exact ih (hU.of_concat hmem) (hs.cached_of_concat hU hmem hc) k

theorem Matches.all_present (hm : t.Matches hash xs n r) :
    (∀ h ∈ chainHashes hash rootHash xs, (t.nodes.lookup h).isSome) ↔ n = xs.length := by
  constructor
  · intro hall
    refine le_antisymm hm.le_length ((hm.cached _ le_rfl).mp ?_)
    rw [List.take_length]
    rcases List.eq_nil_or_concat xs with rfl | ⟨ys, y, rfl⟩
    · exact Or.inl rfl
    · rw [List.concat_eq_append] at hall ⊢
      refine Or.inr (hall _ ?_)
      rw [chainHashes_concat]
      exact List.mem_append_right _ List.mem_cons_self
  · rintro rfl h hmem
    obtain ⟨k, hk, rfl⟩ := mem_chainHashes.mp hmem
    refine ((hm.cached (k + 1) hk).mpr hk).resolve_left fun hnil => ?_
    have hlength := congrArg List.length hnil
    rw [List.length_take, List.length_nil] at hlength
    omega

/-- A block the tree does not hold changes nothing. -/
theorem Matches.concat_of_absent {x : α} (hm : t.Matches hash xs n r)
    (habsent : ¬t.Cached hash (xs ++ [x])) : t.Matches hash (xs ++ [x]) n r := by
  have hle := hm.le_length
  have htake : ∀ k < n, (xs ++ [x]).take (k + 1) = xs.take (k + 1) :=
    fun k hk => List.take_append_of_le_length (by omega)
  refine ⟨?_, fun k hk => ?_, ?_, hm.matchedTokens, ?_, ?_⟩
  · rw [List.length_append]
    exact hle.trans (Nat.le_add_right _ _)
  · rw [List.length_append, List.length_singleton] at hk
    rcases Nat.lt_or_ge xs.length k with hlt | hle'
    · rw [List.take_of_length_le (by rw [List.length_append, List.length_singleton]; omega)]
      exact ⟨fun h => absurd h habsent, fun h => by omega⟩
    · rw [List.take_append_of_le_length hle', hm.cached k hle']
  · rw [hm.blocks]
    refine List.map_congr_left fun k hk => ?_
    rw [htake k (List.mem_range.mp hk)]
  · rw [hm.matchedHash, List.take_append_of_le_length hle]
  · rcases hm.deepest with ⟨hnone, hr⟩ | ⟨k, hk, slot, hslot, hr, hhash, htokens, hafter⟩
    · exact Or.inl ⟨fun k hk => (htake k hk).symm ▸ hnone k hk, hr⟩
    · refine Or.inr ⟨k, hk, slot, ?_, hr, ?_, htokens, fun j hj hjn => ?_⟩
      · rw [htake k hk]
        exact hslot
      · rw [htake k hk]
        exact hhash
      · rw [htake j hjn]
        exact hafter j hj hjn

/-- A block the tree holds extends the match. -/
theorem Matches.concat_of_present {x : α} {node : Node} (hm : t.Matches hash xs xs.length r)
    (hn : t.nodes.lookup (chainHash hash rootHash (xs ++ [x])) = some node)
    (hend : node.tokenEnd = (xs.length + 1) * t.blockSize) :
    t.Matches hash (xs ++ [x]) (xs.length + 1)
      (extendMatch r (chainHash hash rootHash (xs ++ [x])) node) := by
  have htake : ∀ k < xs.length, (xs ++ [x]).take (k + 1) = xs.take (k + 1) :=
    fun k hk => List.take_append_of_le_length hk
  have hwhole : (xs ++ [x]).take (xs.length + 1) = xs ++ [x] :=
    List.take_of_length_le (by rw [List.length_append, List.length_singleton])
  have hcached : t.Cached hash (xs ++ [x]) := Or.inr (by rw [hn]; rfl)
  refine ⟨?_, fun k hk => ?_, ?_, hend, ?_, ?_⟩
  · rw [List.length_append, List.length_singleton]
  · rw [List.length_append, List.length_singleton] at hk
    refine ⟨fun _ => hk, fun _ => ?_⟩
    -- the cached beginnings are those of the match, and the one just found
    rcases Nat.lt_or_ge xs.length k with hlt | hle
    · obtain rfl : k = xs.length + 1 := by omega
      rw [hwhole]
      exact hcached
    · rw [List.take_append_of_le_length hle]
      exact (hm.cached k hle).mpr hle
  · rw [extendMatch, List.map_append, hm.blocks, List.range_succ, List.map_append]
    refine congrArg₂ (· ++ ·) (List.map_congr_left fun k hk => ?_) ?_
    · rw [htake k (List.mem_range.mp hk)]
    · rw [List.map_singleton, List.map_singleton, hwhole, hn]
      rfl
  · rw [if_neg (Nat.succ_ne_zero _), hwhole]
    rfl
  -- the deepest snapshot: the new node's if it has one, else what it was
  · rcases hsnap : node.gdnSnapshot with _ | slot
    · have hlast : t.snapshotAt hash (xs ++ [x]) = none := by
        rw [snapshotAt, hn]
        exact hsnap
      have hupto : ∀ j < xs.length + 1, j < xs.length ∨ j = xs.length := fun j hj => by omega
      rcases hm.deepest with ⟨hnone, hr⟩ | ⟨k, hk, slot, hslot, hr, hhash, htokens, hafter⟩
      · refine Or.inl ⟨fun k hk => ?_, ?_⟩
        · rcases hupto k hk with hk | rfl
          · rw [htake k hk]
            exact hnone k hk
          · rw [hwhole]
            exact hlast
        · simp only [extendMatch, hsnap, Option.isSome_none, Bool.false_eq_true, if_false]
          exact hr
      · refine Or.inr ⟨k, Nat.lt_succ_of_lt hk, slot, ?_, ?_, ?_, ?_, fun j hj hjn => ?_⟩
        · rw [htake k hk]
          exact hslot
        · simp only [extendMatch, hsnap, Option.isSome_none, Bool.false_eq_true, if_false]
          exact hr
        · rw [htake k hk]
          simp only [extendMatch, hsnap, Option.isSome_none, Bool.false_eq_true, if_false]
          exact hhash
        · simp only [extendMatch, hsnap, Option.isSome_none, Bool.false_eq_true, if_false]
          exact htokens
        · rcases hupto j hjn with hj' | rfl
          · rw [htake j hj']
            exact hafter j hj hj'
          · rw [hwhole]
            exact hlast
    · refine Or.inr ⟨xs.length, Nat.lt_succ_self _, slot, ?_, ?_, ?_, ?_, fun j hj hjn => by omega⟩
      · rw [hwhole, snapshotAt, hn]
        exact hsnap
      · simp only [extendMatch, hsnap, Option.isSome_some, if_true]
      · simp only [extendMatch, hsnap, Option.isSome_some, if_true, hwhole]
      · simp only [extendMatch, hsnap, Option.isSome_some, if_true]
        exact hend

/-- A lookup finds the longest cached prefix. -/
theorem matchPrefix_matches (hU : CollisionFree hash rootHash U) (hs : t.Sound hash U) :
    ∀ {xs : List α}, xs ∈ U →
      ∃ n, t.Matches hash xs n (t.matchPrefix (chainHashes hash rootHash xs)) := by
  intro xs
  induction xs using List.reverseRecOn with
  | nil =>
    intro _
    refine ⟨0, le_rfl, fun k hk => ?_, rfl, (Nat.zero_mul _).symm, rfl,
      Or.inl ⟨fun k hk => absurd hk (Nat.not_lt_zero k), rfl, rfl, rfl⟩⟩
    rw [List.take_nil]
    exact ⟨fun _ => hk, fun _ => Or.inl rfl⟩
  | append_singleton xs x ih =>
    intro hmem
    obtain ⟨n, hm⟩ := ih (hU.of_concat hmem)
    rw [matchPrefix] at hm ⊢
    rw [chainHashes_concat, matchFrom_concat]
    by_cases hall : ∀ h ∈ chainHashes hash rootHash xs, (t.nodes.lookup h).isSome
    · rw [if_pos hall]
      obtain rfl := hm.all_present.mp hall
      rcases hn : t.nodes.lookup (chainHash hash rootHash (xs ++ [x])) with _ | node
      · refine ⟨xs.length, hm.concat_of_absent fun hc => ?_⟩
        have hsome := hc.resolve_left (by simp)
        rw [hn] at hsome
        cases hsome
      · obtain ⟨ys, y, hymem, heq, -, -, hend⟩ := hs.named hn
        obtain ⟨rfl, -⟩ := hU.concat_inj hmem hymem heq
        exact ⟨xs.length + 1, hm.concat_of_present hn hend⟩
    · rw [if_neg hall]
      refine ⟨n, hm.concat_of_absent fun hc => hall (hm.all_present.mpr ?_)⟩
      refine le_antisymm hm.le_length ((hm.cached _ le_rfl).mp ?_)
      rw [List.take_length]
      exact hs.cached_of_concat hU hmem hc

end Match

/-! ### Lookups after an eviction -/

section Unchanged

variable {hash : BlockHash → α → BlockHash} {U : Set (List α)} {t t' : RadixTree} {xs : List α}

/-- Two trees that hold the same first nodes, and neither the next one, answer
alike. -/
theorem matchFrom_congr {h : BlockHash} {post : List BlockHash}
    (hpost : post.head? = some h → t.nodes.lookup h = none ∧ t'.nodes.lookup h = none)
    (hnext : post = [] ∨ post.head? = some h) :
    ∀ (pre : List BlockHash) (r : PrefixMatch),
      (∀ h ∈ pre, (t.nodes.lookup h).isSome ∧
        (t'.nodes.lookup h).map Node.bare = (t.nodes.lookup h).map Node.bare) →
      t'.matchFrom (pre ++ post) r = t.matchFrom (pre ++ post) r := by
  intro pre
  induction pre with
  | nil =>
    intro r _
    rcases post with _ | ⟨h', post⟩
    · rfl
    · have hhead := hnext.resolve_left (List.cons_ne_nil _ _)
      obtain ⟨habsent, habsent'⟩ := hpost hhead
      obtain rfl : h' = h := Option.some.inj hhead
      rw [List.nil_append, matchFrom, matchFrom, habsent, habsent']
  | cons h' pre ih =>
    intro r hpre
    obtain ⟨hsome, hbare⟩ := hpre h' List.mem_cons_self
    obtain ⟨n, hn⟩ := Option.isSome_iff_exists.mp hsome
    rw [hn, Option.map_some, Option.map_eq_some_iff] at hbare
    obtain ⟨n', hn', heq⟩ := hbare
    have hextend : extendMatch r h' n'.bare = extendMatch r h' n.bare := by rw [heq]
    rw [List.cons_append, matchFrom, matchFrom, hn, hn']
    simp only
    rw [show extendMatch r h' n' = extendMatch r h' n from hextend]
    exact ih _ fun h hmem => hpre h (List.mem_cons_of_mem _ hmem)

/-- An eviction does not change the lookup of a chain whose match ends at a
node that stays. -/
theorem Evictions.matchPrefix_eq {evicted : List EvictedPrefix}
    (hU : CollisionFree hash rootHash U) (hs : t.Sound hash U) (hs' : t'.Sound hash U)
    (he : t.Evictions evicted t') (hxs : xs ∈ U)
    (hstays : ∀ h, (t.matchPrefix (chainHashes hash rootHash xs)).matchedHash = some h →
      h ∉ evicted.map (·.hash)) :
    t'.matchPrefix (chainHashes hash rootHash xs)
      = t.matchPrefix (chainHashes hash rootHash xs) := by
  obtain ⟨n, hm⟩ := matchPrefix_matches hU hs hxs
  have hle := hm.le_length
  have hpresent : ∀ k, 0 < k → k ≤ n →
      (t.nodes.lookup (chainHash hash rootHash (xs.take k))).isSome := by
    intro k hpos hk
    refine ((hm.cached k (hk.trans hle)).mpr hk).resolve_left fun hnil => ?_
    have hlength := congrArg List.length hnil
    rw [List.length_take, List.length_nil] at hlength
    omega
  -- the block at the match's end is still there, and with it those in front of it
  have hstill : t'.Cached hash (xs.take n) := by
    rcases Nat.eq_zero_or_pos n with rfl | hpos
    · exact Or.inl rfl
    · have hgone := hstays _ (by rw [hm.matchedHash, if_neg (Nat.ne_of_gt hpos)])
      have hkept := he.kept (chainHash hash rootHash (xs.take n))
      rw [if_neg hgone] at hkept
      refine Or.inr ?_
      rw [← Option.isSome_map (f := Node.bare), hkept, Option.isSome_map]
      exact hpresent n hpos le_rfl
  have hsplit : chainHashes hash rootHash xs = chainHashes hash rootHash (xs.take n)
      ++ chainHashes hash (chainHash hash rootHash (xs.take n)) (xs.drop n) := by
    rw [← chainHashes_append, List.take_append_drop]
  rw [hsplit]
  refine matchFrom_congr (h := chainHash hash rootHash (xs.take (n + 1))) (fun hhead => ?_) ?_ _ _
    fun h hmem => ?_
  · -- the first block that is not cached
    -- it is not cached afterwards either
    have hlt : n < xs.length := by
      by_contra hge
      rw [List.drop_of_length_le (Nat.not_lt.mp hge)] at hhead
      cases hhead
    have hnone : t.nodes.lookup (chainHash hash rootHash (xs.take (n + 1))) = none := by
      rw [← Option.not_isSome_iff_eq_none]
      intro hsome
      exact Nat.not_succ_le_self n ((hm.cached (n + 1) hlt).mp (Or.inr hsome))
    have hkept := he.kept (chainHash hash rootHash (xs.take (n + 1)))
    rw [hnone, Option.map_none, ite_self, Option.map_eq_none_iff] at hkept
    exact ⟨hnone, hkept⟩
  -- behind the match the walk stops at the next block, if there is one
  · rcases Nat.lt_or_ge n xs.length with hlt | hge
    · refine Or.inr ?_
      rw [List.drop_eq_getElem_cons hlt, chainHashes, ← @chainHash_concat _ _ hash rootHash,
        List.take_concat_get']
      rfl
    · rw [List.drop_of_length_le hge]
      exact Or.inl rfl
  -- within the match each node keeps what a lookup reads
  · obtain ⟨k, hk, rfl⟩ := mem_chainHashes.mp hmem
    rw [List.length_take, Nat.min_eq_left hle] at hk
    have hcached := hs'.cached_take hU (hU.take hxs n) hstill (k + 1)
    rw [List.take_take, Nat.min_eq_left hk] at hcached ⊢
    have hsome := hpresent (k + 1) (Nat.succ_pos k) hk
    refine ⟨hsome, ?_⟩
    have hsome' := hcached.resolve_left fun hnil => by
      have hlength := congrArg List.length hnil
      rw [List.length_take, List.length_nil] at hlength
      omega
    rw [← Option.isSome_map (f := Node.bare), he.kept] at hsome'
    rw [he.kept]
    split
    · rename_i hin
      rw [if_pos hin] at hsome'
      cases hsome'
    · rfl

end Unchanged

/-! ### Every sequence of calls -/

/-- The calls of a run.  What is inserted is a prefix in use, named by its own
chain, with positions that fit their type. -/
inductive Call (hash : BlockHash → α → BlockHash) (U : Set (List α)) :
    RadixTree → RadixOp → RadixTree → Prop where
  | insert {t : RadixTree} {xs : List α} {blocks : List PrefixBlock} : xs ∈ U →
      blocks.map (·.hash) = chainHashes hash rootHash xs → xs.length * t.blockSize < 2 ^ 32 →
      Call hash U t (.insert blocks) (t.insertPrefix blocks)
  | incrRefChain (t : RadixTree) (hashes : List BlockHash) :
      Call hash U t (.incrRefChain hashes) (t.incrRefChain hashes)
  | decrRefChain (t : RadixTree) (hashes : List BlockHash) :
      Call hash U t (.decrRefChain hashes) (t.decrRefChain hashes)
  | pinChain (t : RadixTree) (hashes : List BlockHash) :
      Call hash U t (.pinChain hashes) (t.pinChain hashes)
  | unpinChain (t : RadixTree) (hashes : List BlockHash) :
      Call hash U t (.unpinChain hashes) (t.unpinChain hashes)
  | evict (t : RadixTree) (order : WalkOrder) (maxNodes : ℕ) :
      Call hash U t (.evict order maxNodes) (t.evictUnreferencedEntries order maxNodes).1

section Runs

variable {hash : BlockHash → α → BlockHash} {U : Set (List α)} {t t' : RadixTree}

theorem Call.sound {op : RadixOp} (hU : CollisionFree hash rootHash U) (hs : t.Sound hash U)
    (h : Call hash U t op t') : t'.Sound hash U ∧ t'.blockSize = t.blockSize := by
  cases h with
  | insert hmem hhashes hfits => exact insertPrefix_sound hU hs hmem hhashes hfits
  | incrRefChain hashes => exact ⟨hs.onChain (by intro n; rfl) hashes, rfl⟩
  | decrRefChain hashes =>
    have hclock : ({ t with clock := t.clock + 1 } : RadixTree).Sound hash U :=
      hs.of_shape rfl rfl fun _ => rfl
    exact ⟨hclock.onChain (by intro n; rfl) hashes, rfl⟩
  | pinChain hashes => exact ⟨hs.onChain (by intro n; rfl) hashes, rfl⟩
  | unpinChain hashes => exact ⟨hs.onChain (by intro n; rfl) hashes, rfl⟩
  | evict order maxNodes =>
    obtain ⟨hsound, hsize, -⟩ := evict_spec hU order maxNodes hs
    exact ⟨hsound, hsize⟩

theorem run_sound {blockSize : ℕ} {ops : List RadixOp} (hU : CollisionFree hash rootHash U)
    (h : Run (Call hash U) (new blockSize) ops t) : t.Sound hash U ∧ t.blockSize = blockSize :=
  h.invariant (P := fun t => t.Sound hash U ∧ t.blockSize = blockSize)
    ⟨Sound.new blockSize, rfl⟩ fun hs hcall =>
      ⟨(hcall.sound hU hs.1).1, (hcall.sound hU hs.1).2.trans hs.2⟩

/-- After every sequence of calls the tree is sound, a lookup finds the longest
cached prefix with its deepest snapshot, and an eviction takes what it returns
and nothing a remaining match needs. -/
theorem radix_structure {blockSize : ℕ} {ops : List RadixOp}
    (hU : CollisionFree hash rootHash U) (h : Run (Call hash U) (new blockSize) ops t) :
    t.Sound hash U ∧
      (∀ xs ∈ U, ∃ n, t.Matches hash xs n (t.matchPrefix (chainHashes hash rootHash xs))) ∧
      ∀ order maxNodes,
        let r := t.evictUnreferencedEntries order maxNodes
        r.2.length ≤ maxNodes ∧ t.Evictions r.2 r.1 ∧
          ∀ xs ∈ U, (∀ h, (t.matchPrefix (chainHashes hash rootHash xs)).matchedHash = some h →
              h ∉ r.2.map (·.hash)) →
            r.1.matchPrefix (chainHashes hash rootHash xs)
              = t.matchPrefix (chainHashes hash rootHash xs) := by
  obtain ⟨hs, -⟩ := run_sound hU h
  refine ⟨hs, fun xs hxs => matchPrefix_matches hU hs hxs, fun order maxNodes => ?_⟩
  obtain ⟨hsound, -, hlength, hevictions⟩ := evict_spec hU order maxNodes hs
  exact ⟨hlength, hevictions, fun xs hxs hstays =>
    hevictions.matchPrefix_eq hU hs hsound hxs hstays⟩

end Runs

/-! ### A tree with a fork -/

/-- A hash for blocks of one digit. -/
def digitHash (h : BlockHash) (x : ℕ) : BlockHash := 10 * h + x + 1

/-- Two prompts that share their first block, and every beginning of either. -/
def forkPrefixes : List (List ℕ) := [[], [1], [1, 2], [1, 3]]

theorem forkPrefixes_collisionFree :
    CollisionFree digitHash rootHash {xs | xs ∈ forkPrefixes} := by
  have hclosed : ∀ ys ∈ forkPrefixes, ys.dropLast ∈ forkPrefixes := by decide
  have hinj : ∀ xs ∈ forkPrefixes, ∀ ys ∈ forkPrefixes,
      chainHash digitHash rootHash xs = chainHash digitHash rootHash ys → xs = ys := by decide
  refine ⟨List.mem_cons_self, fun {xs x} h => ?_, fun xs hxs ys hys h => hinj xs hxs ys hys h⟩
  have hdrop := hclosed _ h
  rw [List.dropLast_concat] at hdrop
  exact hdrop

/-- The keys as they come. -/
def insertionOrder : WalkOrder := ⟨id, fun _ => List.Perm.refl _⟩

/-- The second prefix shares its first block with the first. -/
theorem radix_structure_witness : ∃ t,
    Run (Call digitHash {xs | xs ∈ forkPrefixes}) (new 4)
        [.insert [⟨2, 7, none⟩, ⟨23, 8, some 0⟩], .insert [⟨2, 7, none⟩, ⟨24, 9, none⟩]] t ∧
      (t.evictUnreferencedEntries insertionOrder 1).2 = [⟨24, 9⟩] ∧
      (t.evictUnreferencedEntries insertionOrder 1).1.matchPrefix [2, 23]
        = ⟨some 23, 8, [7, 8], some 0, some 23, 8⟩ := by
  have hfirst : Call digitHash {xs | xs ∈ forkPrefixes} (new 4)
      (.insert [⟨2, 7, none⟩, ⟨23, 8, some 0⟩])
      ((new 4).insertPrefix [⟨2, 7, none⟩, ⟨23, 8, some 0⟩]) :=
    .insert (show [1, 2] ∈ forkPrefixes by decide) rfl (by decide)
  have hsecond : Call digitHash {xs | xs ∈ forkPrefixes}
      ((new 4).insertPrefix [⟨2, 7, none⟩, ⟨23, 8, some 0⟩])
      (.insert [⟨2, 7, none⟩, ⟨24, 9, none⟩])
      (((new 4).insertPrefix [⟨2, 7, none⟩, ⟨23, 8, some 0⟩]).insertPrefix
        [⟨2, 7, none⟩, ⟨24, 9, none⟩]) :=
    .insert (show [1, 3] ∈ forkPrefixes by decide) rfl (by decide)
  have hrun := Run.cons hfirst (Run.single hsecond)
  obtain ⟨-, -, hevict⟩ := radix_structure forkPrefixes_collisionFree hrun
  obtain ⟨-, -, hmatch⟩ := hevict insertionOrder 1
  refine ⟨_, hrun, by decide, ?_⟩
  refine (hmatch [1, 2] (by decide) fun h hh => ?_).trans (by decide)
  obtain rfl : 23 = h := Option.some.inj hh
  decide

end RadixTree
