/-
The reference counts of the shared tree under every interleaving (`xabe-engine/src/engine.rs`).

A block is held once for each time it stands in a record, in the chain a handler has counted
and not yet recorded, and in a record that was taken out and is still to be released
(`Engine.held`).  No count exceeds its holds (`ref_counts`).  A block may be evicted between
the match of a request and its count, and is then held without being counted; in the runs in
which every chain that is counted is whole, the counts are exact and a block that is held
stays in the tree.
-/
import Llmxabe.Cache.Engine

namespace RadixTree

variable {t : RadixTree} {h : BlockHash}

/-- The references a node has. -/
def refCountOf (t : RadixTree) (h : BlockHash) : Option ℕ := (t.stampOf h).map Prod.fst

theorem refCountOf_eq : t.refCountOf h = (t.nodes.lookup h).map Node.refCount := by
  rw [refCountOf, stampOf, Option.map_map]
  rfl

theorem insertPrefix_refCountOf (blocks : List PrefixBlock) :
    (t.insertPrefix blocks).refCountOf h =
      if h ∈ blocks.map (·.hash) then some ((t.refCountOf h).getD 0) else t.refCountOf h := by
  rw [refCountOf, insertPrefix, insertFrom_stampOf, refCountOf]
  split
  · cases t.stampOf h with
    | none => rfl
    | some st => rfl
  · rfl

theorem incrRefChain_refCountOf (hashes : List BlockHash) :
    (t.incrRefChain hashes).refCountOf h = (t.refCountOf h).map (· + hashes.count h) := by
  have hiterate : ∀ (k : ℕ) (n : Node),
      ((fun n : Node => { n with refCount := n.refCount + 1 })^[k] n).refCount = n.refCount + k := by
    intro k
    induction k with
    | zero => exact fun n => rfl
    | succ k ih =>
      intro n
      rw [Function.iterate_succ_apply, ih]
      dsimp only
      omega
  rw [refCountOf, incrRefChain, onChain_stampOf, refCountOf_eq, Option.map_map, Option.map_map]
  refine congrArg (fun f => (t.nodes.lookup h).map f) (funext fun n => ?_)
  exact hiterate _ n

theorem decrRefChain_refCountOf (hashes : List BlockHash) :
    (t.decrRefChain hashes).refCountOf h = (t.refCountOf h).map (· - hashes.count h) := by
  rw [refCountOf, decrRefChain, onChain_stampOf, refCountOf_eq, Option.map_map, Option.map_map]
  refine congrArg (fun f => (t.nodes.lookup h).map f) (funext fun n => ?_)
  exact congrArg Prod.fst (release_iterate _ n _)

theorem evict_refCountOf (order : WalkOrder) (maxNodes : ℕ) {k : ℕ}
    (hk : (t.evictUnreferencedEntries order maxNodes).1.refCountOf h = some k) :
    t.refCountOf h = some k := by
  obtain ⟨st, hst, rfl⟩ := Option.map_eq_some_iff.mp hk
  rw [refCountOf, evict_stampOf order h maxNodes t hst]
  rfl

/-- An eviction takes unreferenced nodes only. -/
theorem evict_keeps (order : WalkOrder) (maxNodes : ℕ) {t : RadixTree} {k : ℕ} (hpos : 0 < k)
    (hk : t.refCountOf h = some k) :
    (t.evictUnreferencedEntries order maxNodes).1.refCountOf h = some k := by
  induction maxNodes generalizing t with
  | zero => exact hk
  | succ maxNodes ih =>
    rw [evictUnreferencedEntries]
    split
    · exact hk
    · rename_i h' node hc
      refine ih ?_
      have hne : h ≠ h' := by
        rintro rfl
        obtain ⟨hlookup, hev, -⟩ := candidate_spec hc
        rw [refCountOf_eq, hlookup] at hk
        simp only [evictable, decide_eq_true_eq] at hev
        have : node.refCount = k := Option.some.inj hk
        omega
      rw [refCountOf, removeNode_stampOf, if_neg hne]
      exact hk

end RadixTree

section Entries

variable {α β : Type} [DecidableEq α]

/-- An entry of a map, and the map without it. -/
theorem AList.erase_split {m : AList fun _ : α => β} {a : α} {b : β} (h : m.lookup a = some b) :
    ∃ before after, m.entries = before ++ ⟨a, b⟩ :: after ∧ (m.erase a).entries = before ++ after := by
  have hkey : a ∈ m.entries.keys := AList.lookup_isSome.mp (Option.isSome_iff_exists.mpr ⟨b, h⟩)
  obtain ⟨found, before, after, -, hentries, herase⟩ := List.exists_of_kerase hkey
  have hfound : m.lookup a = some found := by
    rw [← Option.mem_def, AList.mem_lookup_iff, hentries]
    exact List.mem_append_right _ List.mem_cons_self
  obtain rfl : b = found := Option.some.inj (h.symm.trans hfound)
  exact ⟨before, after, hentries, herase⟩

end Entries

/-- How often a block stands in the chain that is counted and not recorded. -/
def Placing.counts : Placing → BlockHash → ℕ
  | counted _ _ hashes, h => hashes.count h
  | _, _ => 0

namespace Engine

/-- How often a block stands in the records. -/
def recordedCount (s : Engine) (h : BlockHash) : ℕ :=
  (s.requestRefs.entries.map fun entry => entry.2.count h).sum

/-- How often a block stands in records that are being released. -/
def releasingCount (s : Engine) (h : BlockHash) : ℕ := (s.releasing.map (·.count h)).sum

/-- How often a block is held. -/
def held (s : Engine) (h : BlockHash) : ℕ :=
  s.placing.counts h + s.recordedCount h + s.releasingCount h

/-- A request has a record only once it is placed. -/
structure Keyed (s : Engine) : Prop where
  recorded : ∀ key, s.sessions key = none → s.requestRefs.lookup key = none
  placed : ∀ key, s.placing.key? = some key → s.sessions key ≠ none
  unrecorded : ∀ key chain hashes, s.placing = .admitted key chain hashes ∨
    s.placing = .counted key chain hashes → s.requestRefs.lookup key = none

section Steps

variable {hashBlock : BlockHash → List ℕ → BlockHash} {mix : ℕ → ℕ → ℕ} {blockSize : ℕ}
  {s s' : Engine} {l : Action} {h : BlockHash}

theorem keyed_start : Keyed (start blockSize) where
  recorded _ _ := rfl
  placed _ h := by cases h
  unrecorded _ _ _ h := by rcases h with h | h <;> cases h

theorem stepped_eq_none {w : WorkerId} {generated : List (ℕ × Token)}
    {sessions : RequestKey → Option Session} {key : RequestKey} :
    stepped w generated sessions key = none ↔ sessions key = none :=
  Option.map_eq_none_iff

/-- An action that records nothing and admits nothing. -/
theorem Keyed.of_same (hkeyed : Keyed s)
    (hsessions : ∀ key, s'.sessions key = none → s.sessions key = none)
    (hrefs : s'.requestRefs = s.requestRefs)
    (hplacing : s'.placing = s.placing ∨ s'.placing.key? = none) : Keyed s' where
  recorded key h := by
    rw [hrefs]
    exact hkeyed.recorded key (hsessions key h)
  placed key h := by
    rcases hplacing with hsame | hnone
    · rw [hsame] at h
      exact fun hkey => hkeyed.placed key h (hsessions key hkey)
    · rw [hnone] at h
      cases h
  unrecorded key chain hashes h := by
    rw [hrefs]
    rcases hplacing with hsame | hnone
    · rw [hsame] at h
      exact hkeyed.unrecorded key chain hashes h
    · rcases h with h | h <;> simp [h, Placing.key?, Placing.chain?] at hnone

theorem Keyed.step (hkeyed : Keyed s) (hstep : Step hashBlock mix blockSize s l s') : Keyed s' := by
  cases hstep with
  -- the request has a session from here on, and nothing recorded for it yet
  | @place req snapshot referenced key hplacing hnew =>
    have hother : ∀ key', Function.update s.sessions key (some ⟨req, [], snapshot⟩) key' = none →
        s.sessions key' = none := by
      intro key' h
      rcases eq_or_ne key' key with rfl | hne
      · exact hnew
      · rwa [Function.update_of_ne hne] at h
    refine ⟨fun key' h => hkeyed.recorded key' (hother key' h), fun key' h => ?_, fun key' _ _ h => ?_⟩
    · obtain rfl : key = key' := Option.some.inj h
      simp
    · have hkey : key = key' := by rcases h with h | h <;> cases h; rfl
      exact hkeyed.recorded key' (hkey ▸ hnew)
  -- counted, but not recorded: the key is still without a record
  | @count key chain hashes hplacing =>
    refine ⟨hkeyed.recorded, fun key' h => hkeyed.placed key' (by rw [hplacing]; exact h), ?_⟩
    intro key' chain' hashes' h
    have hkey : key = key' := by rcases h with h | h <;> cases h; rfl
    exact hkeyed.unrecorded key' chain hashes (hkey ▸ .inl hplacing)
  | @skip key chain hplacing =>
    refine ⟨hkeyed.recorded, fun key' h => hkeyed.placed key' (by rw [hplacing]; exact h), ?_⟩
    intro key' chain' hashes' h
    rcases h with h | h <;> cases h
  -- the record belongs to the request that was just placed
  | @record key chain hashes hplacing =>
    have hsession := hkeyed.placed key (by rw [hplacing]; rfl)
    refine ⟨fun key' h => ?_, fun key' h => hkeyed.placed key' (by rw [hplacing]; exact h), ?_⟩
    · have hne : key' ≠ key := by
        rintro rfl
        exact hsession h
      rw [AList.lookup_insert_ne hne]
      exact hkeyed.recorded key' h
    · intro key' chain' hashes' h
      rcases h with h | h <;> cases h
  | step => exact hkeyed.of_same (fun _ h => stepped_eq_none.mp h) rfl (.inl rfl)
  -- a record taken out leaves none behind
  | @unrecord key hashes hrecord =>
    have herase : ∀ key', s.requestRefs.lookup key' = none →
        (s.requestRefs.erase key).lookup key' = none := by
      intro key' h
      rcases eq_or_ne key' key with rfl | hne
      · exact AList.lookup_erase _ _
      · rw [AList.lookup_erase_ne hne, h]
    exact ⟨fun key' h => herase key' (hkeyed.recorded key' h), hkeyed.placed,
      fun key' chain' hashes' h => herase key' (hkeyed.unrecorded key' chain' hashes' h)⟩
  | matchPrefix => exact hkeyed.of_same (fun _ h => h) rfl (.inr rfl)
  | take => exact hkeyed.of_same (fun _ h => h) rfl (.inr rfl)
  | takeNone => exact hkeyed.of_same (fun _ h => h) rfl (.inr rfl)
  | score => exact hkeyed.of_same (fun _ h => h) rfl (.inr rfl)
  | refuse => exact hkeyed.of_same (fun _ h => h) rfl (.inr rfl)
  | name => exact hkeyed.of_same (fun _ h => h) rfl (.inr rfl)
  | _ => exact hkeyed.of_same (fun _ h => h) rfl (.inl rfl)

/-- What an action does to the tree, and to what is held. -/
inductive Refers (s : Engine) (l : Action) (s' : Engine) : Prop
  | same (htree : s'.tree = s.tree) (hheld : ∀ h, s'.held h = s.held h)
  | count (key : RequestKey) (chain : SequenceChain) (hashes : List BlockHash)
      (hlabel : l = .count) (hplacing : s.placing = .admitted key chain hashes)
      (htree : s'.tree = s.tree.incrRefChain hashes)
      (hheld : ∀ h, s'.held h = s.held h + hashes.count h)
  | insert (blocks : List PrefixBlock) (htree : s'.tree = s.tree.insertPrefix blocks)
      (hheld : ∀ h, s'.held h = s.held h)
  | evict (order : WalkOrder) (excess : ℕ)
      (htree : s'.tree = (s.tree.evictUnreferencedEntries order excess).1)
      (hheld : ∀ h, s'.held h = s.held h)
  | release (hashes : List BlockHash) (htree : s'.tree = s.tree.decrRefChain hashes)
      (hheld : ∀ h, s.held h = s'.held h + hashes.count h)

theorem held_congr (hrefs : s'.requestRefs = s.requestRefs) (hreleasing : s'.releasing = s.releasing)
    (hplacing : s'.placing.counts h = s.placing.counts h) : s'.held h = s.held h := by
  rw [held, held, recordedCount, recordedCount, releasingCount, releasingCount, hrefs, hreleasing,
    hplacing]

theorem Keyed.refers (hkeyed : Keyed s) (hstep : Step hashBlock mix blockSize s l s') :
    Refers s l s' := by
  cases hstep with
  | matchPrefix hplacing => exact .same rfl fun h => held_congr rfl rfl (by rw [hplacing]; rfl)
  | take hplacing => exact .same rfl fun h => held_congr rfl rfl (by rw [hplacing]; rfl)
  | takeNone hplacing => exact .same rfl fun h => held_congr rfl rfl (by rw [hplacing]; rfl)
  | score held hplacing => exact .same rfl fun h => held_congr rfl rfl (by rw [hplacing]; rfl)
  | refuse hplacing => exact .same rfl fun h => held_congr rfl rfl (by rw [hplacing]; rfl)
  | place hplacing hnew => exact .same rfl fun h => held_congr rfl rfl (by rw [hplacing]; rfl)
  | @count key chain hashes hplacing hsome =>
    refine .count key chain hashes rfl hplacing rfl fun h => ?_
    simp only [held, hplacing, Placing.counts, recordedCount, releasingCount]
    omega
  | skip hplacing => exact .same rfl fun h => held_congr rfl rfl (by rw [hplacing]; rfl)
  | @record key chain hashes hplacing =>
    have hfresh : key ∉ s.requestRefs := by
      rw [← AList.lookup_eq_none]
      exact hkeyed.unrecorded key chain hashes (.inr hplacing)
    refine .same rfl fun h => ?_
    simp only [held, hplacing, Placing.counts, recordedCount, releasingCount,
      AList.entries_insert_of_notMem hfresh, List.map_cons, List.sum_cons, Nat.zero_add]
  | name hplacing => exact .same rfl fun h => held_congr rfl rfl (by rw [hplacing]; rfl)
  | insert => exact .insert _ rfl fun h => held_congr rfl rfl rfl
  | evict order excess => exact .evict order excess rfl fun h => held_congr rfl rfl rfl
  | @unrecord key hashes hrecord =>
    refine .same rfl fun h => ?_
    obtain ⟨before, after, hentries, herase⟩ := AList.erase_split hrecord
    simp only [held, recordedCount, releasingCount, hentries, herase, List.map_append,
      List.map_cons, List.sum_append, List.sum_cons]
    omega
  | @release before after hashes hreleasing =>
    refine .release hashes rfl fun h => ?_
    simp only [held, recordedCount, releasingCount, hreleasing, List.map_append, List.map_cons,
      List.sum_append, List.sum_cons]
    omega
  | _ => exact .same rfl fun h => held_congr rfl rfl rfl

/-- No block is counted more often than it is held. -/
def Counted (s : Engine) : Prop := ∀ h k, s.tree.refCountOf h = some k → k ≤ s.held h

/-- A block in the tree is counted as often as it is held, and one that is held is there. -/
def Exact (s : Engine) : Prop :=
  ∀ h, (∀ k, s.tree.refCountOf h = some k → k = s.held h) ∧
    (0 < s.held h → s.tree.refCountOf h ≠ none)

theorem counted_start : Counted (start blockSize) := by
  intro h k hk
  cases hk

theorem exact_start : Exact (start blockSize) := by
  intro h
  have hnone : (start blockSize).tree.refCountOf h = none := rfl
  refine ⟨fun k hk => by simp [hnone] at hk, fun hpos => absurd hpos ?_⟩
  simp [held, start, Placing.counts, recordedCount, releasingCount]

theorem Counted.step (hcounted : Counted s) (hrefers : Refers s l s') : Counted s' := by
  intro h k hk
  cases hrefers with
  | same htree hheld =>
    rw [hheld]
    exact hcounted h k (htree ▸ hk)
  | count key chain hashes hlabel hplacing htree hheld =>
    rw [htree, RadixTree.incrRefChain_refCountOf, Option.map_eq_some_iff] at hk
    obtain ⟨k₀, hk₀, rfl⟩ := hk
    rw [hheld]
    exact Nat.add_le_add_right (hcounted h k₀ hk₀) _
  | insert blocks htree hheld =>
    rw [hheld]
    rw [htree, RadixTree.insertPrefix_refCountOf] at hk
    split at hk
    · cases hbefore : s.tree.refCountOf h with
      | none =>
        rw [hbefore] at hk
        obtain rfl : 0 = k := Option.some.inj hk
        exact Nat.zero_le _
      | some k₀ =>
        rw [hbefore] at hk
        exact hcounted h k (hbefore.trans hk)
    · exact hcounted h k hk
  | evict order excess htree hheld =>
    rw [hheld]
    exact hcounted h k (RadixTree.evict_refCountOf order excess (htree ▸ hk))
  | release hashes htree hheld =>
    rw [htree, RadixTree.decrRefChain_refCountOf, Option.map_eq_some_iff] at hk
    obtain ⟨k₀, hk₀, rfl⟩ := hk
    have hle := hcounted h k₀ hk₀
    rw [hheld] at hle
    omega

theorem Exact.step (hexact : Exact s) (hrefers : Refers s l s')
    (hwhole : Whole s l) : Exact s' := by
  intro h
  obtain ⟨hcount, hthere⟩ := hexact h
  cases hrefers with
  -- neither the counts nor the holders change
  | same htree hheld =>
    rw [htree, hheld]
    exact ⟨hcount, hthere⟩
  | count key chain hashes hlabel hplacing htree hheld =>
    have hpresent : 0 < s.held h + hashes.count h → s.tree.refCountOf h ≠ none := by
      -- the request holds each of its blocks, and by `Whole` the tree has them all
      intro hpos
      by_cases hmem : h ∈ hashes
      · rw [RadixTree.refCountOf_eq, Ne, Option.map_eq_none_iff]
        exact hwhole key chain hashes hlabel hplacing h hmem
      · rw [List.count_eq_zero_of_not_mem hmem] at hpos
        exact hthere hpos
    rw [htree, RadixTree.incrRefChain_refCountOf, hheld]
    refine ⟨fun k hk => ?_, fun hpos => by simpa using hpresent hpos⟩
    obtain ⟨k₀, hk₀, rfl⟩ := Option.map_eq_some_iff.mp hk
    rw [hcount k₀ hk₀]
  | insert blocks htree hheld =>
    rw [htree, RadixTree.insertPrefix_refCountOf, hheld]
    split
    · refine ⟨fun k hk => ?_, fun _ => Option.some_ne_none _⟩
      -- a node inserted starts at no references, and nobody held its block
      cases hbefore : s.tree.refCountOf h with
      | none =>
        rw [hbefore] at hk
        obtain rfl : 0 = k := Option.some.inj hk
        by_contra hne
        exact hthere (Nat.pos_of_ne_zero (Ne.symm hne)) hbefore
      | some k₀ =>
        rw [hbefore] at hk
        exact hcount k (hbefore.trans hk)
    · exact ⟨hcount, hthere⟩
  | evict order excess htree hheld =>
    rw [htree, hheld]
    refine ⟨fun k hk => hcount k (RadixTree.evict_refCountOf order excess hk), fun hpos => ?_⟩
    obtain ⟨k, hk⟩ := Option.ne_none_iff_exists'.mp (hthere hpos)
    -- a block that is held has references, so the eviction keeps it
    have hk' : 0 < k := hcount k hk ▸ hpos
    rw [RadixTree.evict_keeps order excess hk' hk]
    exact Option.some_ne_none _
  -- both sides lose what the record counted
  | release hashes htree hheld =>
    rw [htree, RadixTree.decrRefChain_refCountOf]
    refine ⟨fun k hk => ?_, fun hpos => ?_⟩
    · obtain ⟨k₀, hk₀, rfl⟩ := Option.map_eq_some_iff.mp hk
      have := hcount k₀ hk₀
      have := hheld h
      omega
    · have := hheld h
      simpa using hthere (by omega)

variable {ls : List Action}

/-- In every interleaving no block is counted more often than it is held; where every chain
that is counted stands whole in the tree the counts are exact, and a block that is held has
not been evicted. -/
theorem ref_counts (hrun : Run (Step hashBlock mix blockSize) (start blockSize) ls s) :
    (∀ h k, s.tree.refCountOf h = some k → k ≤ s.held h) ∧
      (Run (StepUnder hashBlock mix blockSize Whole) (start blockSize) ls s →
        ∀ h, (∀ k, s.tree.refCountOf h = some k → k = s.held h) ∧
          (0 < s.held h → s.tree.refCountOf h ≠ none)) := by
  constructor
  · exact (hrun.invariant (P := fun s => Keyed s ∧ Counted s) ⟨keyed_start, counted_start⟩
      fun h hstep => ⟨h.1.step hstep, h.2.step (h.1.refers hstep)⟩).2
  · intro hwhole
    exact (hwhole.invariant (P := fun s => Keyed s ∧ Exact s) ⟨keyed_start, exact_start⟩
      fun h hstep => ⟨h.1.step hstep.1, h.2.step (h.1.refers hstep.1) hstep.2⟩).2

end Steps

/-- A prefix that a second request is placed on is held once. -/
theorem ref_counts_witness : ∃ ls s, s.held (pairHash 0 [7, 8]) = 1 ∧
    (∀ h k, s.tree.refCountOf h = some k → k ≤ s.held h) ∧
      (Run (StepUnder pairHash Nat.pair 2 Whole) (start 2) ls s →
        ∀ h, (∀ k, s.tree.refCountOf h = some k → k = s.held h) ∧
          (0 < s.held h → s.tree.refCountOf h ≠ none)) := by
  obtain ⟨ls, s, hrun, ⟨chain, hplacing⟩, hrefs, hreleasing, -⟩ := second_counted
  refine ⟨ls, s, ?_, ref_counts (hrun.mono fun h => h.1)⟩
  rw [held, recordedCount, releasingCount, hplacing, hrefs, hreleasing]
  rfl

end Engine
