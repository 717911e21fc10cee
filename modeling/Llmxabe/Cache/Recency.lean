/-
Whether an eviction takes the node that has been idle longest
(`xabe-cache/src/radix.rs`).

A history carries, beside the tree, when each node was last used: the call that
inserted it, or the latest call that released it.  The tree stamps a node when
its last reference goes and leaves a node just inserted at stamp zero, so the
stamps agree with the last uses of the nodes released since their insertion
(`History.Stamped`), and a node never released counts as the oldest of all.
-/
import Llmxabe.Cache.Prefix

/-! ### What an update does to one node -/

section Fold

variable {α β : Type} [DecidableEq α]

theorem AList.lookup_foldl_modify (f : β → β) (a : α) :
    ∀ (as : List α) (s : AList fun _ : α => β),
      (as.foldl (fun s a' => s.modify f a') s).lookup a = (s.lookup a).map f^[as.count a]
  | [], s => by rw [List.foldl_nil, List.count_nil, Function.iterate_zero, Option.map_id]; rfl
  | a' :: as, s => by
    rw [List.foldl_cons, AList.lookup_foldl_modify f a as]
    by_cases ha : a' = a
    · rw [ha, AList.lookup_modify, Option.map_map, List.count_cons_self,
        Function.iterate_succ]
    · rw [AList.lookup_modify_ne (Ne.symm ha), List.count_cons_of_ne ha]

end Fold

/-- The counter and the clock of a node. -/
def Node.stamp (n : Node) : ℕ × ℕ := (n.refCount, n.lastUsed)

namespace RadixTree

/-- What the eviction compares two nodes by. -/
def stampOf (t : RadixTree) (h : BlockHash) : Option (ℕ × ℕ) :=
  (t.nodes.lookup h).map Node.stamp

section Stamps

variable {t : RadixTree} {h : BlockHash}

theorem insertNode_stampOf (parent : BlockHash) (tokenEnd : ℕ) (pb : PrefixBlock) :
    (t.insertNode parent tokenEnd pb).stampOf h
      = if h = pb.hash then some ((t.stampOf h).getD (0, 0)) else t.stampOf h := by
  by_cases hpresent : (t.nodes.lookup pb.hash).isSome
  · rw [insertNode_of_present hpresent]
    split
    · rename_i hh
      obtain ⟨node, hnode⟩ := Option.isSome_iff_exists.mp hpresent
      rw [stampOf, hh, hnode]
      rfl
    · rfl
  · have hvacant := Option.not_isSome_iff_eq_none.mp hpresent
    have hfilled : ∀ n : Node, n.stamp = (0, 0) →
        ((t.nodes.insert pb.hash n).lookup h).map Node.stamp
          = if h = pb.hash then some ((t.stampOf h).getD (0, 0)) else t.stampOf h := by
      intro n hn
      split
      · rename_i hh
        rw [stampOf, hh, hvacant, AList.lookup_insert, Option.map_some, hn]
        rfl
      · rename_i hh
        rw [AList.lookup_insert_ne hh]
        rfl
    rw [insertNode, if_neg hpresent]
    simp only
    split
    · exact hfilled _ rfl
    · refine (AList.lookup_modify_map ?_ parent h _).trans (hfilled _ rfl)
      intro n
      rfl

/-- An insertion keeps the nodes already there, and starts the others
unreferenced at stamp zero. -/
theorem insertFrom_stampOf (h : BlockHash) :
    ∀ (blocks : List PrefixBlock) (parent : BlockHash) (tokenStart : ℕ) (t : RadixTree),
      (t.insertFrom parent tokenStart blocks).stampOf h
        = if h ∈ blocks.map (·.hash) then some ((t.stampOf h).getD (0, 0)) else t.stampOf h
  | [], _, _, t => by rw [insertFrom, List.map_nil, if_neg List.not_mem_nil]
  | pb :: blocks, parent, tokenStart, t => by
    rw [insertFrom, insertFrom_stampOf h blocks, insertNode_stampOf, List.map_cons]
    by_cases hh : h = pb.hash
    · rw [if_pos hh, if_pos (List.mem_cons.mpr (Or.inl hh)), Option.getD_some, ite_self]
    · rw [if_neg hh]
      simp only [List.mem_cons, hh, false_or]

theorem insertFrom_clock :
    ∀ (blocks : List PrefixBlock) (parent : BlockHash) (tokenStart : ℕ) (t : RadixTree),
      (t.insertFrom parent tokenStart blocks).clock = t.clock
  | [], _, _, _ => rfl
  | pb :: blocks, parent, tokenStart, t => by
    rw [insertFrom, insertFrom_clock blocks, insertNode]
    split
    · rfl
    · simp only
      split
      · rfl
      · rfl

theorem onChain_stampOf (f : Node → Node) (hashes : List BlockHash) :
    (t.onChain f hashes).stampOf h
      = (t.nodes.lookup h).map fun n => (f^[hashes.count h] n).stamp := by
  rw [stampOf, onChain]
  simp only
  rw [AList.lookup_foldl_modify, Option.map_map]
  rfl

/-- An update after which a node is unreferenced only if it was before, with
the same stamp. -/
theorem onChain_kept {f : Node → Node} (hf : ∀ n c, (f n).stamp = (0, c) → n.stamp = (0, c))
    (hashes : List BlockHash) {c : ℕ} (hst : (t.onChain f hashes).stampOf h = some (0, c)) :
    t.stampOf h = some (0, c) := by
  rw [onChain_stampOf] at hst
  obtain ⟨node, hnode, hstamp⟩ := Option.map_eq_some_iff.mp hst
  rw [stampOf, hnode, Option.map_some]
  have hback : ∀ (k : ℕ) (n : Node), (f^[k] n).stamp = (0, c) → n.stamp = (0, c) := by
    intro k
    induction k with
    | zero => exact fun _ hn => hn
    | succ k ih =>
      intro n hn
      rw [Function.iterate_succ_apply] at hn
      exact hf n c (ih _ hn)
  rw [hback _ node hstamp]

/-- Releasing a node so many times. -/
theorem release_iterate (clock : ℕ) (n : Node) :
    ∀ k : ℕ, ((fun n : Node => { n with
        refCount := n.refCount - 1
        lastUsed := if n.refCount - 1 = 0 then clock else n.lastUsed })^[k] n).stamp
      = (n.refCount - k, if n.refCount - k = 0 ∧ k ≠ 0 then clock else n.lastUsed)
  | 0 => by simp [Node.stamp]
  | k + 1 => by
    have ih := release_iterate clock n k
    rw [Function.iterate_succ_apply']
    simp only [Node.stamp, Prod.mk.injEq] at ih ⊢
    rw [ih.1, ih.2]
    refine ⟨by omega, ?_⟩
    by_cases hzero : n.refCount - k - 1 = 0
    · rw [if_pos hzero, if_pos (by omega)]
    · rw [if_neg hzero, if_neg (by omega), if_neg (by omega)]

theorem removeNode_stampOf (h' : BlockHash) (node : Node) :
    (t.removeNode h' node).stampOf h = if h = h' then none else t.stampOf h := by
  have herased : ((t.nodes.erase h').lookup h).map Node.stamp
      = if h = h' then none else t.stampOf h := by
    split
    · rename_i hh
      rw [hh, AList.lookup_erase]
      rfl
    · rename_i hh
      rw [AList.lookup_erase_ne hh]
      rfl
  rw [removeNode]
  split
  · exact herased
  · refine (AList.lookup_modify_map ?_ node.parent h _).trans herased
    intro n
    rfl

/-- An eviction takes nodes out and changes the stamp of none. -/
theorem evict_stampOf (order : WalkOrder) (h : BlockHash) :
    ∀ (maxNodes : ℕ) (t : RadixTree) {st : ℕ × ℕ},
      (t.evictUnreferencedEntries order maxNodes).1.stampOf h = some st → t.stampOf h = some st
  | 0, _, _, hst => hst
  | maxNodes + 1, t, st, hst => by
    rw [evictUnreferencedEntries] at hst
    split at hst
    · exact hst
    · have hrest := evict_stampOf order h maxNodes _ hst
      rw [removeNode_stampOf] at hrest
      split at hrest
      · cases hrest
      · exact hrest

theorem evict_clock (order : WalkOrder) :
    ∀ (maxNodes : ℕ) (t : RadixTree),
      (t.evictUnreferencedEntries order maxNodes).1.clock = t.clock
  | 0, _ => rfl
  | maxNodes + 1, t => by
    rw [evictUnreferencedEntries]
    split
    · rfl
    · rename_i h node _
      refine (evict_clock order maxNodes _).trans ?_
      rw [removeNode]
      split
      · rfl
      · rfl

end Stamps

/-! ### One removal after another -/

/-- What an eviction takes in its turn is the candidate of the tree as the
removals before it left it. -/
theorem evict_getElem (order : WalkOrder) :
    ∀ (maxNodes k : ℕ) (t : RadixTree) {e : EvictedPrefix},
      (t.evictUnreferencedEntries order maxNodes).2[k]? = some e →
        k < maxNodes ∧
          ∃ node, (t.evictUnreferencedEntries order k).1.candidate order = some (e.hash, node)
  | 0, _, _, _, he => by
    rw [evictUnreferencedEntries, List.getElem?_nil] at he
    cases he
  | maxNodes + 1, k, t, e, he => by
    rw [evictUnreferencedEntries] at he
    cases hc : t.candidate order with
    | none =>
      rw [hc] at he
      simp at he
    | some hn =>
      obtain ⟨h, node⟩ := hn
      rw [hc] at he
      cases k with
      | zero =>
        rw [List.getElem?_cons_zero] at he
        cases he
        exact ⟨Nat.succ_pos _, node, hc⟩
      | succ k =>
        rw [List.getElem?_cons_succ] at he
        obtain ⟨hlt, hnode⟩ := evict_getElem order maxNodes k _ he
        refine ⟨Nat.succ_lt_succ hlt, ?_⟩
        rw [evictUnreferencedEntries, hc]
        exact hnode

/-- Walk one node before the others. -/
def startingAt (h : BlockHash) : WalkOrder where
  walk keys := if h ∈ keys then h :: keys.erase h else keys
  perm keys := by
    split
    · rename_i hmem
      exact (List.perm_cons_erase hmem).symm
    · exact List.Perm.refl _

/-- A node at stamp zero is taken by the walk that reaches it first. -/
theorem candidate_startingAt {t : RadixTree} {h : BlockHash} {node : Node}
    (hn : t.nodes.lookup h = some node) (hev : evictable node) (hzero : node.lastUsed = 0) :
    t.candidate (startingAt h) = some (h, node) := by
  have hmem : h ∈ t.nodes.keys := by
    rw [← AList.mem_keys, ← AList.lookup_isSome, hn]
    rfl
  rw [candidate]
  have hwalk : (startingAt h).walk t.nodes.keys = h :: t.nodes.keys.erase h := if_pos hmem
  rw [hwalk, List.filterMap_cons, hn, Option.filter_some, if_pos hev, Option.map_some]
  simp only
  rw [List.argmin_cons]
  cases List.argmin (fun q : BlockHash × Node => q.2.lastUsed) _ with
  | none => rfl
  | some c => exact if_neg (by rw [hzero]; exact Nat.not_lt_zero _)

end RadixTree

/-! ### The tree with its history -/

/-- A tree, how many calls were made, and when each node was last used. -/
structure History where
  tree : RadixTree
  time : ℕ
  /-- The call that inserted the node, or the latest one that released it. -/
  lastUse : BlockHash → ℕ
  /-- Released since its insertion. -/
  released : BlockHash → Bool

namespace RadixTree

/-- The tree after a call. -/
def apply (t : RadixTree) : RadixOp → RadixTree
  | .insert blocks => t.insertPrefix blocks
  | .incrRefChain hashes => t.incrRefChain hashes
  | .decrRefChain hashes => t.decrRefChain hashes
  | .pinChain hashes => t.pinChain hashes
  | .unpinChain hashes => t.unpinChain hashes
  | .evict order maxNodes => (t.evictUnreferencedEntries order maxNodes).1

/-- A call inserts a node that was not there. -/
def inserts (t : RadixTree) (h : BlockHash) : RadixOp → Bool
  | .insert blocks => decide (h ∈ blocks.map (·.hash)) && (t.nodes.lookup h).isNone
  | _ => false

end RadixTree

/-- A call releases a node. -/
def RadixOp.releases (h : BlockHash) : RadixOp → Bool
  | .decrRefChain hashes => decide (h ∈ hashes)
  | _ => false

namespace History

/-- An empty tree that nobody has called. -/
def new (blockSize : ℕ) : History := ⟨.new blockSize, 0, fun _ => 0, fun _ => false⟩

/-- The observer's record after a call. -/
def step (s : History) (op : RadixOp) : History where
  tree := s.tree.apply op
  time := s.time + 1
  lastUse h := if s.tree.inserts h op || op.releases h then s.time + 1 else s.lastUse h
  released h := (s.released h && !s.tree.inserts h op) || op.releases h

/-- The history of a sequence of calls. -/
def after (blockSize : ℕ) (ops : List RadixOp) : History := ops.foldl step (new blockSize)

/-- An eviction may take this node next. -/
def Candidate (s : History) (h : BlockHash) : Prop :=
  ∃ node, s.tree.nodes.lookup h = some node ∧ RadixTree.evictable node

/-- Of the nodes an eviction may take, none has been idle longer. -/
def Oldest (s : History) (h : BlockHash) : Prop :=
  s.Candidate h ∧ ∀ h', s.Candidate h' → s.lastUse h ≤ s.lastUse h'

/-- Every removal of an eviction takes a node that has been idle longest, among
those that may go once the removals before it are done. -/
def EvictsOldest (s : History) (order : WalkOrder) (maxNodes : ℕ) : Prop :=
  ∀ k e, (s.tree.evictUnreferencedEntries order maxNodes).2[k]? = some e →
    (s.step (.evict order k)).Oldest e.hash

/-- No node still waiting for its first release was used after another node
that may go. -/
def Settled (s : History) : Prop :=
  ∀ h h', s.Candidate h → s.Candidate h' → s.released h = false → s.lastUse h ≤ s.lastUse h'

/-! ### Stamps and last uses -/

/-- Among the unreferenced nodes, the stamps order those released as their last
uses do, and the others are at stamp zero. -/
structure Stamped (s : History) : Prop where
  fresh : ∀ {h c}, s.tree.stampOf h = some (0, c) → s.released h = false → c = 0
  bound : ∀ {h c}, s.tree.stampOf h = some (0, c) → s.released h = true →
    0 < c ∧ c ≤ s.tree.clock ∧ s.lastUse h ≤ s.time
  order : ∀ {h h' c c'}, s.tree.stampOf h = some (0, c) → s.tree.stampOf h' = some (0, c') →
    s.released h = true → s.released h' = true → (c ≤ c' ↔ s.lastUse h ≤ s.lastUse h')

section Stamped

variable {s s' : History}

theorem Stamped.new (blockSize : ℕ) : (History.new blockSize).Stamped := by
  have hnone : ∀ h, (History.new blockSize).tree.stampOf h = none := fun h => rfl
  refine ⟨fun hst => ?_, fun hst => ?_, fun hst => ?_⟩
  all_goals
    rw [hnone] at hst
    cases hst

/-- A call after which each unreferenced node is as it was, or is new, or has
just been released. -/
theorem Stamped.of_each (hs : s.Stamped) (htime : s'.time = s.time + 1)
    (hclock : s.tree.clock ≤ s'.tree.clock)
    (heach : ∀ {h c}, s'.tree.stampOf h = some (0, c) →
      (s.tree.stampOf h = some (0, c) ∧ s'.lastUse h = s.lastUse h ∧ s'.released h = s.released h) ∨
      (c = 0 ∧ s'.released h = false) ∨
      (c = s.tree.clock + 1 ∧ s'.tree.clock = s.tree.clock + 1 ∧ s'.lastUse h = s.time + 1 ∧
        s'.released h = true)) :
    s'.Stamped := by
  refine ⟨fun {h c} hst hrel => ?_, fun {h c} hst hrel => ?_,
    fun {h h' c c'} hst hst' hrel hrel' => ?_⟩
  · obtain ⟨hold, -, hsame⟩ | ⟨hzero, -⟩ | ⟨-, -, -, hnow⟩ := heach hst
    · exact hs.fresh hold (hsame.symm.trans hrel)
    · exact hzero
    · rw [hrel] at hnow
      cases hnow
  · obtain ⟨hold, huse, hsame⟩ | ⟨-, hnew⟩ | ⟨hc, hnow, huse, -⟩ := heach hst
    · have hbound := hs.bound hold (hsame.symm.trans hrel)
      omega
    · rw [hrel] at hnew
      cases hnew
    · omega
  · obtain ⟨hold, huse, hsame⟩ | ⟨-, hnew⟩ | ⟨hc, hnow, huse, -⟩ := heach hst
    · have hbound := hs.bound hold (hsame.symm.trans hrel)
      obtain ⟨hold', huse', hsame'⟩ | ⟨-, hnew'⟩ | ⟨hc', hnow', huse', -⟩ := heach hst'
      · rw [huse, huse']
        exact hs.order hold hold' (hsame.symm.trans hrel) (hsame'.symm.trans hrel')
      · rw [hrel'] at hnew'
        cases hnew'
      · -- released now, after the other
        exact ⟨fun _ => by omega, fun _ => by omega⟩
    · rw [hrel] at hnew
      cases hnew
    · obtain ⟨hold', huse', hsame'⟩ | ⟨-, hnew'⟩ | ⟨hc', hnow', huse', -⟩ := heach hst'
      · have hbound' := hs.bound hold' (hsame'.symm.trans hrel')
        exact ⟨fun hle => by omega, fun hle => by omega⟩
      · rw [hrel'] at hnew'
        cases hnew'
      · -- released by the same call
        exact ⟨fun _ => by omega, fun _ => by omega⟩

/-- An update along a chain that releases nothing and frees no node. -/
theorem Stamped.of_kept (hs : s.Stamped) {op : RadixOp} (hins : ∀ h, s.tree.inserts h op = false)
    (hrel : ∀ h, op.releases h = false) (hclock : s.tree.clock ≤ (s.tree.apply op).clock)
    (hkept : ∀ {h c}, (s.tree.apply op).stampOf h = some (0, c) → s.tree.stampOf h = some (0, c)) :
    (s.step op).Stamped := by
  refine hs.of_each rfl hclock fun {h c} hst => Or.inl ⟨hkept hst, ?_, ?_⟩
  · rw [step]
    simp only
    rw [hins, hrel]
    rfl
  · rw [step]
    simp only
    rw [hins, hrel, Bool.not_false, Bool.and_true, Bool.or_false]

theorem Stamped.insert (hs : s.Stamped) (blocks : List PrefixBlock) :
    (s.step (.insert blocks)).Stamped := by
  have hclock : (s.tree.insertPrefix blocks).clock = s.tree.clock :=
    RadixTree.insertFrom_clock blocks _ _ _
  refine hs.of_each rfl hclock.ge fun {h c} hst => ?_
  have hstamp := RadixTree.insertFrom_stampOf h blocks rootHash 0 s.tree
  have hafter : (s.tree.insertFrom rootHash 0 blocks).stampOf h = some (0, c) := hst
  rw [hafter] at hstamp
  by_cases hnew : s.tree.inserts h (.insert blocks) = true
  · refine Or.inr (Or.inl ⟨?_, ?_⟩)
    · rw [RadixTree.inserts, Bool.and_eq_true, decide_eq_true_iff, Option.isNone_iff_eq_none] at hnew
      rw [if_pos hnew.1, RadixTree.stampOf, hnew.2] at hstamp
      exact (Prod.mk.inj (Option.some.inj hstamp)).2
    · rw [step]
      simp only
      rw [hnew, Bool.not_true, Bool.and_false]
      rfl
  · rw [Bool.not_eq_true] at hnew
    refine Or.inl ⟨?_, ?_, ?_⟩
    · by_cases hmem : h ∈ blocks.map (·.hash)
      · rw [RadixTree.inserts, decide_eq_true hmem, Bool.true_and, Option.isNone_eq_false_iff,
          Option.isSome_iff_exists] at hnew
        obtain ⟨node, hnode⟩ := hnew
        rw [if_pos hmem] at hstamp
        rw [RadixTree.stampOf, hnode] at hstamp ⊢
        exact hstamp.symm
      · rw [if_neg hmem] at hstamp
        exact hstamp.symm
    · rw [step]
      simp only
      rw [hnew]
      rfl
    · rw [step]
      simp only
      rw [hnew, Bool.not_false, Bool.and_true]
      exact Bool.or_false _

theorem Stamped.decr (hs : s.Stamped) (hashes : List BlockHash) :
    (s.step (.decrRefChain hashes)).Stamped := by
  refine hs.of_each rfl (Nat.le_succ _) fun {h c} hst => ?_
  have hafter : (s.tree.decrRefChain hashes).stampOf h = some (0, c) := hst
  rw [RadixTree.decrRefChain, RadixTree.onChain_stampOf] at hafter
  obtain ⟨node, hnode, hstamp⟩ := Option.map_eq_some_iff.mp hafter
  rw [RadixTree.release_iterate] at hstamp
  obtain ⟨hzero, hc⟩ := Prod.mk.inj hstamp
  by_cases hmem : h ∈ hashes
  · have hcount : hashes.count h ≠ 0 := (List.count_pos_iff.mpr hmem).ne'
    rw [if_pos ⟨hzero, hcount⟩] at hc
    refine Or.inr (Or.inr ⟨hc.symm, rfl, ?_, ?_⟩)
    · rw [step]
      simp only
      rw [RadixOp.releases, decide_eq_true hmem, Bool.or_true]
      rfl
    · rw [step]
      simp only
      rw [RadixOp.releases, decide_eq_true hmem, Bool.or_true]
  · have hcount : hashes.count h = 0 := List.count_eq_zero.mpr hmem
    rw [hcount] at hzero hc
    refine Or.inl ⟨?_, ?_, ?_⟩
    · rw [RadixTree.stampOf]
      have hbefore : s.tree.nodes.lookup h = some node := hnode
      rw [hbefore, Option.map_some, Node.stamp, ← hc]
      rw [Nat.sub_zero] at hzero
      rw [hzero, if_neg (by omega)]
    · rw [step]
      simp only
      rw [RadixOp.releases, decide_eq_false hmem]
      rfl
    · rw [step]
      simp only
      rw [RadixOp.releases, decide_eq_false hmem, Bool.or_false]
      exact Bool.and_true _

theorem Stamped.step (hs : s.Stamped) (op : RadixOp) : (s.step op).Stamped := by
  cases op with
  | insert blocks => exact hs.insert blocks
  | decrRefChain hashes => exact hs.decr hashes
  | incrRefChain hashes =>
    refine hs.of_kept (fun _ => rfl) (fun _ => rfl) le_rfl fun {h c} hst => ?_
    refine RadixTree.onChain_kept (fun n c hn => ?_) hashes hst
    -- a count that has just been raised is not zero
    exact absurd (Prod.mk.inj hn).1 (Nat.succ_ne_zero _)
  | pinChain hashes =>
    refine hs.of_kept (fun _ => rfl) (fun _ => rfl) le_rfl fun {h c} hst => ?_
    have hafter : (s.tree.pinChain hashes).stampOf h = some (0, c) := hst
    exact RadixTree.onChain_kept (f := fun n => { n with pinned := true })
      (fun _ _ hn => hn) hashes hafter
  | unpinChain hashes =>
    refine hs.of_kept (fun _ => rfl) (fun _ => rfl) le_rfl fun {h c} hst => ?_
    have hafter : (s.tree.unpinChain hashes).stampOf h = some (0, c) := hst
    exact RadixTree.onChain_kept (f := fun n => { n with pinned := false })
      (fun _ _ hn => hn) hashes hafter
  | evict order maxNodes =>
    refine hs.of_kept (fun _ => rfl) (fun _ => rfl) (RadixTree.evict_clock order maxNodes _).ge
      fun {h c} hst => RadixTree.evict_stampOf order h maxNodes _ hst

theorem after_stamped (blockSize : ℕ) (ops : List RadixOp) : (after blockSize ops).Stamped := by
  rw [after]
  induction ops using List.reverseRecOn with
  | nil => exact Stamped.new blockSize
  | append_singleton ops op ih =>
    rw [List.foldl_append]
    exact ih.step op

end Stamped

/-! ### What an eviction takes -/

section Evict

variable {s : History}

theorem Candidate.stampOf {h : BlockHash} (hc : s.Candidate h) :
    ∃ node, s.tree.nodes.lookup h = some node ∧ RadixTree.evictable node ∧
      s.tree.stampOf h = some (0, node.lastUsed) := by
  obtain ⟨node, hnode, hev⟩ := hc
  refine ⟨node, hnode, hev, ?_⟩
  rw [RadixTree.evictable, decide_eq_true_iff] at hev
  rw [RadixTree.stampOf, hnode, Option.map_some, Node.stamp, hev.2.1]

/-- With the unreleased nodes oldest, an eviction takes one that has been idle
longest. -/
theorem Stamped.oldest (hs : s.Stamped) (hsettled : s.Settled) {order : WalkOrder} {h : BlockHash}
    {node : Node} (hc : s.tree.candidate order = some (h, node)) : s.Oldest h := by
  obtain ⟨hnode, hev, hleast⟩ := RadixTree.candidate_spec hc
  refine ⟨⟨node, hnode, hev⟩, fun h' hc' => ?_⟩
  obtain ⟨node', hnode', hev', hst'⟩ := hc'.stampOf
  obtain ⟨node₁, hnode₁, -, hst⟩ := Candidate.stampOf (s := s) ⟨node, hnode, hev⟩
  have hle := hleast h' node' hnode' hev'
  cases hrel : s.released h with
  | false => exact hsettled h h' ⟨node, hnode, hev⟩ hc' hrel
  | true =>
    have hbound := hs.bound hst hrel
    rw [Option.some.inj (hnode.symm.trans hnode₁)] at hle
    cases hrel' : s.released h' with
    | false =>
      -- a node not released since its insertion would have been taken first
      have hzero := hs.fresh hst' hrel'
      omega
    | true => exact (hs.order hst hst' hrel hrel').mp hle

/-- If every walk takes a node that has been idle longest, no unreleased node
was used after another. -/
theorem Stamped.settled (hs : s.Stamped)
    (h : ∀ order, s.EvictsOldest order 1) : s.Settled := by
  intro a b ha hb hrel
  obtain ⟨node, hnode, hev, hst⟩ := ha.stampOf
  have hcand := RadixTree.candidate_startingAt hnode hev (hs.fresh hst hrel)
  have htaken : (s.tree.evictUnreferencedEntries (RadixTree.startingAt a) 1).2[0]?
      = some ⟨a, node.block⟩ := by
    rw [RadixTree.evictUnreferencedEntries, hcand]
    rfl
  obtain ⟨-, holdest⟩ := h (RadixTree.startingAt a) 0 _ htaken
  exact holdest b hb

/-- After every history of calls: the node an eviction takes next, whatever the
walk, has been idle longest if and only if no node awaiting its first release
was used after another that may go; and an eviction that finds this before each
removal takes the oldest each time. -/
theorem evicts_oldest_iff (blockSize : ℕ) (ops : List RadixOp) :
    ((∀ order, (after blockSize ops).EvictsOldest order 1) ↔ (after blockSize ops).Settled) ∧
      ∀ order maxNodes,
        (∀ k < maxNodes, ((after blockSize ops).step (.evict order k)).Settled) →
          (after blockSize ops).EvictsOldest order maxNodes := by
  have hs := after_stamped blockSize ops
  have hcall : ∀ order maxNodes,
      (∀ k < maxNodes, ((after blockSize ops).step (.evict order k)).Settled) →
        (after blockSize ops).EvictsOldest order maxNodes := by
    intro order maxNodes hsettled k e he
    obtain ⟨hlt, node, hc⟩ := RadixTree.evict_getElem order maxNodes k _ he
    exact (hs.step (.evict order k)).oldest (hsettled k hlt) hc
  refine ⟨⟨hs.settled, fun hsettled order => hcall order 1 fun k hk => ?_⟩, hcall⟩
  obtain rfl : k = 0 := by omega
  intro h h' hc hc' hrel
  have hsame : ((after blockSize ops).step (.evict order 0)).released h
      = (after blockSize ops).released h := (Bool.or_false _).trans (Bool.and_true _)
  exact hsettled h h' hc hc' (hsame.symm.trans hrel)

end Evict

/-! ### A chain published after another was released -/

/-- The first chain is used and released, then the second is published. -/
def laterChain : List RadixOp :=
  [.insert [⟨1, 0, none⟩], .incrRefChain [1], .decrRefChain [1], .insert [⟨2, 1, none⟩]]

/-- The eviction that follows takes the second. -/
theorem published_evicted_first :
    (after 4 laterChain).lastUse 1 < (after 4 laterChain).lastUse 2 ∧
      ((after 4 laterChain).tree.evictUnreferencedEntries RadixTree.insertionOrder 1).2
        = [⟨2, 1⟩] ∧
      ¬ (after 4 laterChain).EvictsOldest RadixTree.insertionOrder 1 := by
  have htaken : ((after 4 laterChain).tree.evictUnreferencedEntries RadixTree.insertionOrder 1).2
      = [⟨2, 1⟩] := by decide
  have hlater : (after 4 laterChain).lastUse 1 < (after 4 laterChain).lastUse 2 := by decide
  refine ⟨hlater, htaken, fun hoh => ?_⟩
  obtain ⟨-, holdest⟩ := hoh 0 ⟨2, 1⟩ (by rw [htaken]; rfl)
  have hle := holdest 1 ⟨_, rfl, by decide⟩
  exact absurd hle (Nat.not_le.mpr hlater)

end History
