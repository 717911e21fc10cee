/-
When the drafters' caches have no holes.

A chain covers every position that is committed as long as one of its drafts is
not taken (`Chained.filled`).  If the target takes them all, the position of the
last draft is committed without ever having been fed to the head, and no later
step goes back to it.

* `executeDrafted_sound`: a step keeps the caches filled; within it a sequence that
  has just finished is excused, as it is gone at the end;
* `draft_caches_filled`: as long as no full chain is taken whole, the caches of the
  chain are filled in every reachable state; those of the blocks always are.
-/
import Llmxabe.Lib.Run
import Llmxabe.Runtime.DraftChain
import Llmxabe.Runtime.Lockstep

variable {Row κ σ : Type}

/-! ### The caches through a step -/

section Step

variable {kind : Drafter} {M : Target Row κ σ} {cfg : RuntimeConfig} {o : DraftOracle}
  {arena : RequestId → ℕ → Bool} {io : StepOracle} {decodes : List RequestId}
  {s s' : Drafted κ σ} {log : StepLog}

/-- Each cache belongs to a drafting sequence of text, and holds what that
sequence has consumed.  Inside a step a finished sequence is excused. -/
def Drafted.Sound (inside : Prop) (s : Drafted κ σ) : Prop :=
  ∀ id seq cache, s.seqs.lookup id = some seq → s.caches id = some cache →
    seq.drafting = true ∧ seq.images = [] ∧
      (inside ∧ seq.finished ∨ SlotCache.Filled (contextRows seq.history) cache)

/-- The chain of a sequence drafts all it may, nothing of it is cut off, and the
target takes it whole. -/
structure ChainTaken (M : Target Row κ σ) (cfg : RuntimeConfig) (o : DraftOracle) (id : RequestId)
    (seq : RuntimeSequence κ σ) (pending : Token) : Prop where
  sure : ∀ j < cfg.drafts, o.unsure id j = false
  uncut : (seq.withDraft cfg (sampledTokens o id cfg.drafts)).draft
    = sampledTokens o id cfg.drafts
  taken : TakesWhole M cfg seq pending (sampledTokens o id cfg.drafts)

/-- No scheduled chain is taken whole. -/
def ChainsSpared (M : Target Row κ σ) (cfg : RuntimeConfig) (o : DraftOracle)
    (decodes : List RequestId) (s : Drafted κ σ) : Prop :=
  ∀ id ∈ decodes, ∀ seq pending, s.seqs.lookup id = some seq → (s.caches id).isSome →
    seq.nextToken = some pending → ¬ChainTaken M cfg o id seq pending

/-- A chain that is not taken whole has been fed every token it commits. -/
theorem Chained.filled {seq seq' : RuntimeSequence κ σ} {pending : Token} {cache : DraftCache}
    {id : RequestId} {r' : ChainRow} {n k : ℕ} (hfilled : SlotCache.Filled (contextRows seq.history) cache)
    (hchained : Chained o ⟨id, seq.position, pending, true, [], cache⟩ n r')
    (hend : n = cfg.drafts ∨ 0 < n ∧ r'.active = false)
    (hk : k ≤ (seq.withDraft cfg r'.draft).draft.length)
    (hhistory : seq'.history = seq.history
      ++ (pending :: (seq.withDraft cfg r'.draft).draft.take k).map Input.token)
    (hwhole : k = (seq.withDraft cfg r'.draft).draft.length → ¬seq'.finished →
      TakesWhole M cfg seq pending (seq.withDraft cfg r'.draft).draft)
    (hspared : ¬ChainTaken M cfg o id seq pending) (hopen : ¬seq'.finished) :
    SlotCache.Filled (contextRows seq'.history) r'.cache := by
  obtain ⟨m, hm, hdraft, hsure, hactive⟩ := hchained.draft
  simp only at hdraft hsure
  have hpre : (seq.withDraft cfg r'.draft).draft <+: sampledTokens o id m :=
    hdraft ▸ (withDraft_within seq r'.draft).trans (List.take_prefix _ _)
  have hle : (seq.withDraft cfg r'.draft).draft.length ≤ m := by
    have hlen := hpre.length_le
    rwa [sampledTokens_length] at hlen
  have htake : (seq.withDraft cfg r'.draft).draft.take k = sampledTokens o id k := by
    obtain ⟨rest, hrest⟩ := hpre
    rw [← sampledTokens_take id (hk.trans hle), ← hrest, List.take_append_of_le_length hk]
  -- only a chain that drafts all it may and is taken whole commits more than it was fed
  have hfed : k + 1 ≤ n := by
    rcases hend with hall | ⟨-, hidle⟩
    · by_contra hlt
      have hkm : k = m := by omega
      have hmn : m = cfg.drafts := by omega
      have heq : (seq.withDraft cfg r'.draft).draft = sampledTokens o id cfg.drafts := by
        rw [← hmn, ← hkm, ← htake, List.take_of_length_le (by omega)]
      refine hspared ⟨hmn ▸ hsure, ?_, ?_⟩
      · rw [← hmn, ← hdraft, heq, hdraft, hmn]
      · rw [← heq]
        exact hwhole (by omega) hopen
    · have hne : m ≠ n := by
        intro heq
        rw [hactive.mpr heq] at hidle
        cases hidle
      omega
  -- the cache holds the old rows, and behind them what the chain was fed
  have hwritten : SlotCache.Filled
      (contextRows seq.history ++ contextRows ((fedTokens o id pending n).map Input.token))
      r'.cache := by
    rw [hchained.cache]
    have hbase : seq.position = (contextRows seq.history).length := by
      rw [contextRows_length]
      rfl
    simp only [hbase]
    exact hfilled.write
  refine hwritten.of_prefix ?_
  rw [hhistory, contextRows_append, List.prefix_append_right_inj, htake, ← fedTokens_succ]
  exact ((fedTokens_mono id pending hfed).map _).map _

/-- A scheduled sequence with a cache takes part, and commits through a verify
pass. -/
theorem decodesDrafted_scheduled (hbuilt : cfg.BuiltToDraft) (hs : s.Sound False)
    (h : decodesDrafted kind M cfg o arena decodes s = .ok (s', log)) {id : RequestId}
    {seq' : RuntimeSequence κ σ} (hid : id ∈ decodes) (hseq' : s'.seqs.lookup id = some seq')
    (hcache : (s.caches id).isSome) :
    ∃ seq cache pending r' k, s.seqs.lookup id = some seq ∧ s.caches id = some cache ∧
      seq.nextToken = some pending ∧
      (kind.draft cfg o decodes s).find? (·.id = id) = some r' ∧
      DraftsFrom kind cfg o ⟨id, seq.position, pending, true, [], cache⟩ r' ∧
      seq'.drafting = seq.drafting ∧ seq'.images = seq.images ∧
      k ≤ (seq.withDraft cfg r'.draft).draft.length ∧
      seq'.history = seq.history
        ++ (pending :: (seq.withDraft cfg r'.draft).draft.take k).map Input.token ∧
      (k = (seq.withDraft cfg r'.draft).draft.length → ¬seq'.finished →
        TakesWhole M cfg seq pending (seq.withDraft cfg r'.draft).draft) := by
  obtain ⟨cache, hcache⟩ := Option.isSome_iff_exists.mp hcache
  obtain ⟨-, hwide, verified, hpath, hin, -⟩ := executeDecodes_on (decodesDrafted_execute h)
  obtain ⟨seq, after, hseq, hafter, hshare⟩ := hin id hid
  obtain rfl : after = seq' := Option.some.inj (hafter.symm.trans hseq')
  obtain ⟨hdrafting, -, -⟩ := hs id seq cache hseq hcache
  have hverified : verified = true :=
    hpath (hbuilt.verify _ (List.length_pos_of_mem hid) hwide) id hid seq hseq hdrafting
  subst hverified
  obtain ⟨pending, hpending⟩ : ∃ pending, seq.nextToken = some pending := by
    rcases hnone : seq.nextToken with _ | pending
    · have hstuck : (seq.withDraft cfg
          (proposalOf (kind.draft cfg o decodes s) id)).nextToken = none := hnone
      rw [DecodePath, if_pos rfl, verifySequence, hstuck] at hshare
      cases hshare
    · exact ⟨pending, rfl⟩
  have hrow : chainRow s id = some ⟨id, seq.position, pending, true, [], cache⟩ := by
    rw [chainRow, hseq, hcache]
    simp only [hpending, Option.map_some]
  rcases kind.draft_find cfg o s hid with ⟨hnone, -⟩ | ⟨r, r', hr, hfind, hfrom⟩
  · rw [hrow] at hnone
    cases hnone
  · obtain rfl := Option.some.inj (hr.symm.trans hrow)
    have hproposal : proposalOf (kind.draft cfg o decodes s) id = r'.draft := by
      rw [proposalOf, hfind]
      rfl
    simp only [hproposal] at hshare
    rw [DecodePath, if_pos rfl] at hshare
    have hpending' : (seq.withDraft cfg r'.draft).nextToken = some pending := hpending
    obtain ⟨hdrafts, k, hk, hhistory, hwhole⟩ := verifySequence_commits hpending'
      (withDraft_length_le.trans hfrom.length_le) hshare
    exact ⟨seq, cache, pending, r', k, hseq, hcache, hpending, hfind, hfrom, hdrafts,
      (verifySequence_progress hshare).1.images, hk, hhistory,
      fun hall hopen => ⟨(hwhole hall hopen).chosen, (hwhole hall hopen).unarmed,
        (hwhole hall hopen).goesOn, (hwhole hall hopen).budget⟩⟩

theorem decodesDrafted_caches (h : decodesDrafted kind M cfg o arena decodes s = .ok (s', log)) :
    s'.caches = match kind with
      | .mtp => cachesAfter (kind.draft cfg o decodes s) s.caches
      | .dflash =>
        if cfg.verifyBuilt decodes.length then
          committedContext cfg (proposalOf (kind.draft cfg o decodes s)) decodes s.seqs s'.seqs
            (cachesAfter (kind.draft cfg o decodes s) s.caches)
        else cachesAfter (kind.draft cfg o decodes s) s.caches := by
  rw [decodesDrafted] at h
  simp only at h
  split at h
  · cases h
  · simp only [Except.ok.injEq, Prod.mk.injEq] at h
    obtain ⟨rfl, -⟩ := h
    cases kind with
    | mtp => rfl
    | dflash => rfl

/-- Nobody else's cache is touched. -/
theorem decodesDrafted_idle (h : decodesDrafted kind M cfg o arena decodes s = .ok (s', log))
    {id : RequestId} (hid : id ∉ decodes) :
    s'.seqs.lookup id = s.seqs.lookup id ∧ s'.caches id = s.caches id := by
  obtain ⟨-, -, -, -, -, hout⟩ := executeDecodes_on (decodesDrafted_execute h)
  refine ⟨(hout id hid).1, ?_⟩
  have hafter : cachesAfter (kind.draft cfg o decodes s) s.caches id = s.caches id := by
    rw [cachesAfter, kind.draft_idle hid]
  rw [decodesDrafted_caches h]
  cases kind with
  | mtp => exact hafter
  | dflash =>
    simp only
    split
    · rw [committedContext, if_neg hid]
      exact hafter
    · exact hafter

theorem decodesDrafted_cache (h : decodesDrafted kind M cfg o arena decodes s = .ok (s', log))
    {id : RequestId} (hcache : (s'.caches id).isSome) : (s.caches id).isSome := by
  by_cases hid : id ∈ decodes
  · have hafter : (cachesAfter (kind.draft cfg o decodes s) s.caches id).isSome →
        (s.caches id).isSome := by
      rw [cachesAfter]
      rcases kind.draft_find cfg o s hid with ⟨-, hnone⟩ | ⟨r, r', hr, hfind, -⟩
      · rw [hnone]
        exact fun h => h
      · rw [hfind]
        intro _
        rw [chainRow] at hr
        split at hr
        · rename_i hsome
          rw [hsome]
          rfl
        · cases hr
    rw [decodesDrafted_caches h] at hcache
    cases kind with
    | mtp => exact hafter hcache
    | dflash =>
      simp only at hcache
      split at hcache
      · rw [committedContext, if_pos hid] at hcache
        split at hcache
        · exact hafter (by simpa using hcache)
        · exact hafter hcache
      · exact hafter hcache
  · rwa [← (decodesDrafted_idle h hid).2]

theorem Drafted.Sound.strict (hs : s.Sound False) {id : RequestId} {seq : RuntimeSequence κ σ}
    {cache : DraftCache} (hseq : s.seqs.lookup id = some seq) (hcache : s.caches id = some cache) :
    seq.drafting = true ∧ seq.images = [] ∧
      SlotCache.Filled (contextRows seq.history) cache := by
  obtain ⟨hdrafting, himages, hfilled⟩ := hs id seq cache hseq hcache
  exact ⟨hdrafting, himages, hfilled.resolve_left fun hfalse => hfalse.1⟩

/-- The decode half keeps the caches of the chain sound if none is taken
whole. -/
theorem decodesDrafted_sound_mtp (hbuilt : cfg.BuiltToDraft) (hs : s.Sound False)
    (hspared : ChainsSpared M cfg o decodes s)
    (h : decodesDrafted .mtp M cfg o arena decodes s = .ok (s', log)) : s'.Sound True := by
  intro id seq' cache' hseq' hcache'
  by_cases hid : id ∈ decodes
  · obtain ⟨seq, cache, pending, r', k, hseq, hcache, hpending, hfind, ⟨n, -, hchained, hend⟩,
      hdrafts, himages, hk, hhistory, hwhole⟩ := decodesDrafted_scheduled hbuilt hs h hid hseq'
        (decodesDrafted_cache h (by rw [hcache']; rfl))
    obtain ⟨hdrafting, hnone, hfilled⟩ := hs.strict hseq hcache
    have hstored : cache' = r'.cache := by
      rw [decodesDrafted_caches h] at hcache'
      simp only [cachesAfter, hfind, Option.some.injEq] at hcache'
      exact hcache'.symm
    refine ⟨hdrafts.trans hdrafting, himages.trans hnone, ?_⟩
    by_cases hfin : seq'.finished
    · exact Or.inl ⟨trivial, hfin⟩
    · rw [hstored]
      exact Or.inr (hchained.filled hfilled hend hk hhistory hwhole
        (hspared id hid seq pending hseq (by rw [hcache]; rfl) hpending) hfin)
  · obtain ⟨hsame, hkept⟩ := decodesDrafted_idle h hid
    obtain ⟨hdrafting, hnone, hfilled⟩ := hs.strict (hsame ▸ hseq') (hkept ▸ hcache')
    exact ⟨hdrafting, hnone, Or.inr hfilled⟩

/-- The decode half always keeps the caches of the blocks sound. -/
theorem decodesDrafted_sound_dflash (hbuilt : cfg.BuiltToDraft) (hs : s.Sound False)
    (h : decodesDrafted .dflash M cfg o arena decodes s = .ok (s', log)) : s'.Sound True := by
  intro id seq' cache' hseq' hcache'
  by_cases hid : id ∈ decodes
  · obtain ⟨seq, cache, pending, r', k, hseq, hcache, hpending, hfind, ⟨hdraft, hblock⟩,
      hdrafts, himages, hk, hhistory, -⟩ := decodesDrafted_scheduled hbuilt hs h hid hseq'
        (decodesDrafted_cache h (by rw [hcache']; rfl))
    obtain ⟨hdrafting, hnone, hfilled⟩ := hs.strict hseq hcache
    have hwindow : (seq.withDraft cfg r'.draft).draft.length ≤ cfg.window - 1 := by
      refine withDraft_length_le.trans ?_
      rw [hdraft, List.length_take]
      exact Nat.min_le_left _ _
    have hgrown : seq'.position - seq.position = k + 1 := by
      rw [RuntimeSequence.position, RuntimeSequence.position, hhistory, List.length_append,
        List.length_map, List.length_cons, List.length_take_of_le hk]
      omega
    have hstored : cache' = r'.cache.write seq.position (contextRows
        ((pending :: (seq.withDraft cfg r'.draft).draft.take k).map Input.token)) := by
      have hwide := (executeDecodes_on (decodesDrafted_execute h)).2.1
      have hverify := hbuilt.verify _ (List.length_pos_of_mem hid) hwide
      have hproposal : proposalOf (Drafter.dflash.draft cfg o decodes s) id = r'.draft := by
        rw [proposalOf, hfind]
        rfl
      rw [decodesDrafted_caches h] at hcache'
      simp only [hverify, if_true, committedContext, if_pos hid, hseq, hseq', cachesAfter, hfind,
        Option.map_some, Option.some.injEq, injectContext, hpending, hproposal, hgrown] at hcache'
      rw [← hcache', verifyIds_take hk hwindow]
    refine ⟨hdrafts.trans hdrafting, himages.trans hnone, Or.inr ?_⟩
    have hbase : seq.position = (contextRows seq.history).length := by
      rw [contextRows_length]
      rfl
    rw [hstored, hhistory, contextRows_append, hbase]
    refine SlotCache.Filled.write (hfilled.congr fun p hp => ?_)
    rw [hblock, hbase, SlotCache.write_of_lt hp]
  · obtain ⟨hsame, hkept⟩ := decodesDrafted_idle h hid
    obtain ⟨hdrafting, hnone, hfilled⟩ := hs.strict (hsame ▸ hseq') (hkept ▸ hcache')
    exact ⟨hdrafting, hnone, Or.inr hfilled⟩

/-- Catching up over a grant is writing its rows. -/
theorem catchUp_write :
    ∀ {fuel position : ℕ} {work : List Token} {cache : DraftCache}, work.length ≤ fuel →
      catchUp cfg fuel position work cache
        = cache.write position (contextRows (work.map Input.token)) := by
  intro fuel
  induction fuel with
  | zero =>
    intro position work cache hfuel
    rw [List.length_eq_zero_iff.mp (Nat.le_zero.mp hfuel)]
    exact SlotCache.write_nil.symm
  | succ fuel ih =>
    intro position work cache hfuel
    rw [catchUp]
    split
    · rename_i hnil
      rw [hnil]
      exact SlotCache.write_nil.symm
    · rename_i hne
      have hlen : 0 < work.length := List.length_pos_iff.mpr hne
      have hpos := @choosePrefillWidth_pos cfg position work.length
      have hle := @choosePrefillWidth_le cfg position work.length hlen
      simp only
      set width := choosePrefillWidth cfg position work.length
      have hpiece : position + width
          = position + (contextRows ((work.take width).map Input.token)).length := by
        rw [contextRows_length, List.length_map, List.length_take_of_le hle]
      rw [ih (by rw [List.length_drop]; omega), hpiece, SlotCache.write_write,
        ← contextRows_append, ← List.map_append, List.take_append_drop]

theorem inputsFrom_text (index : ℕ) (tokens : List Token) :
    inputsFrom [] index tokens = tokens.map Input.token := by
  induction tokens generalizing index with
  | nil => rfl
  | cons token tokens ih =>
    rw [inputsFrom, ih]
    rfl

theorem prefillPiece_drafting {granted : Bool} {piece : List Token} {seq : RuntimeSequence κ σ} :
    (prefillPiece M cfg granted piece seq).1.drafting = seq.drafting := by
  rw [prefillPiece]
  simp only
  split
  · split
    · rw [retain_drafting]
    · rw [retain_drafting]
  · rfl

/-- A sequence of text consumes the granted tokens themselves. -/
theorem prefillPieces_text {id : RequestId} :
    ∀ {fuel : ℕ} {work : List Token} {seq : RuntimeSequence κ σ}, work.length ≤ fuel →
      seq.images = [] →
      (prefillPieces M cfg io id fuel work seq).1.history
          = seq.history ++ work.map Input.token ∧
        (prefillPieces M cfg io id fuel work seq).1.drafting = seq.drafting := by
  intro fuel
  induction fuel with
  | zero =>
    intro work seq hfuel _
    rw [List.length_eq_zero_iff.mp (Nat.le_zero.mp hfuel)]
    exact ⟨(List.append_nil _).symm, rfl⟩
  | succ fuel ih =>
    intro work seq hfuel himages
    rw [prefillPieces]
    split
    · rename_i hnil
      rw [hnil]
      exact ⟨(List.append_nil _).symm, rfl⟩
    · have hpos := @choosePrefillWidth_pos cfg seq.position work.length
      simp only
      set width := choosePrefillWidth cfg seq.position work.length
      obtain ⟨hframe, -, -⟩ :=
        @prefillPiece_framed _ _ _ M cfg (io.arena id (seq.position + width)) (work.take width) seq
      obtain ⟨hhistory, hdrafting⟩ := @ih (work.drop width) _ (by rw [List.length_drop]; omega)
        (hframe.images.trans himages)
      refine ⟨?_, hdrafting.trans prefillPiece_drafting⟩
      rw [hhistory, prefillPiece_history, himages, inputsFrom_text, List.append_assoc,
        ← List.map_append, List.take_append_drop]

theorem prefillSequence_text {id : RequestId} {tokens : ℕ} {seq seq' : RuntimeSequence κ σ}
    (himages : seq.images = [])
    (h : prefillSequence M cfg io id tokens seq = .ok (seq', log)) :
    seq'.history = seq.history
        ++ ((seq.prompt.drop seq.prefilled).take tokens).map Input.token ∧
      seq'.drafting = seq.drafting ∧ seq'.images = [] ∧ (seq.finished → seq'.finished) := by
  rw [prefillSequence] at h
  simp only at h
  split at h
  · cases h
  · set work := (seq.prompt.drop seq.prefilled).take tokens
    obtain ⟨hhistory, hdrafting⟩ := @prefillPieces_text _ _ _ M cfg io id work.length work seq
      le_rfl himages
    obtain ⟨hframe, -, hemitted, -⟩ :=
      @prefillPieces_progress _ _ _ M cfg io id work.length work seq le_rfl
    have hfinished : seq.finished →
        seq.maxOutput ≤ (prefillPieces M cfg io id work.length work seq).1.emitted := by
      intro hfin
      rw [hemitted]
      exact hfin
    split at h
    · split at h
      · cases h
      · split at h
        · simp only [Except.ok.injEq, Prod.mk.injEq] at h
          obtain ⟨rfl, -⟩ := h
          exact ⟨hhistory, hdrafting, hframe.images.trans himages, fun _ => le_refl _⟩
        · simp only [Except.ok.injEq, Prod.mk.injEq] at h
          obtain ⟨rfl, -⟩ := h
          refine ⟨hhistory, hdrafting, hframe.images.trans himages, fun hfin => ?_⟩
          rw [RuntimeSequence.finished]
          simp only [hframe.maxOutput]
          exact Nat.le_succ_of_le (hfinished hfin)
    · simp only [Except.ok.injEq, Prod.mk.injEq] at h
      obtain ⟨rfl, -⟩ := h
      refine ⟨hhistory, hdrafting, hframe.images.trans himages, fun hfin => ?_⟩
      rw [RuntimeSequence.finished]
      simp only [hframe.maxOutput]
      exact hfinished hfin

theorem prefillDrafted_sound {inside : Prop} {item : PrefillItem} (hs : s.Sound inside)
    (h : prefillDrafted M cfg io item s = .ok (s', log)) : s'.Sound inside := by
  rw [prefillDrafted] at h
  rcases hexec : executePrefill M cfg io item.id item.tokens s.seqs with e | ⟨seqs, log'⟩
  · rw [hexec] at h
    cases h
  · rw [hexec] at h
    simp only [Except.ok.injEq, Prod.mk.injEq] at h
    obtain ⟨rfl, -⟩ := h
    rw [executePrefill] at hexec
    rcases hseq : s.seqs.lookup item.id with _ | seq
    · rw [hseq] at hexec
      cases hexec
    · rw [hseq] at hexec
      simp only at hexec
      rcases hone : prefillSequence M cfg io item.id item.tokens seq with e | ⟨after, log₁⟩
      · rw [hone] at hexec
        cases hexec
      · rw [hone] at hexec
        simp only [Except.ok.injEq, Prod.mk.injEq] at hexec
        obtain ⟨rfl, -⟩ := hexec
        intro id seq' cache' hseq' hcache'
        simp only at hseq' hcache'
        by_cases hid : id = item.id
        · subst hid
          rw [AList.lookup_insert, Option.some.injEq] at hseq'
          subst hseq'
          rw [if_pos rfl, hseq] at hcache'
          obtain ⟨cache, hcache, rfl⟩ := Option.map_eq_some_iff.mp hcache'
          obtain ⟨hdrafting, himages, hfilled⟩ := hs item.id seq cache hseq hcache
          obtain ⟨hhistory, hsame, htext, hfin⟩ := prefillSequence_text himages hone
          refine ⟨hsame.trans hdrafting, htext, ?_⟩
          rcases hfilled with ⟨hinside, hover⟩ | hfilled
          · exact Or.inl ⟨hinside, hfin hover⟩
          · refine Or.inr ?_
            have hbase : seq.position = (contextRows seq.history).length := by
              rw [contextRows_length]
              rfl
            rw [catchUp_write le_rfl, hhistory, contextRows_append, hbase]
            exact hfilled.write
        · rw [AList.lookup_insert_ne hid] at hseq'
          rw [if_neg hid] at hcache'
          exact hs id seq' cache' hseq' hcache'

theorem prefillsDrafted_sound {inside : Prop} :
    ∀ {items : List PrefillItem} {s s' : Drafted κ σ} {log : StepLog}, s.Sound inside →
      prefillsDrafted M cfg io items s = .ok (s', log) → s'.Sound inside := by
  intro items
  induction items with
  | nil =>
    intro s s' log hs h
    simp only [prefillsDrafted, Except.ok.injEq, Prod.mk.injEq] at h
    exact h.1 ▸ hs
  | cons item items ih =>
    intro s s' log hs h
    rw [prefillsDrafted] at h
    rcases hone : prefillDrafted M cfg io item s with e | ⟨s₁, log₁⟩
    · rw [hone] at h
      cases h
    · rw [hone] at h
      simp only at h
      rcases hrest : prefillsDrafted M cfg io items s₁ with e | ⟨s₂, log₂⟩
      · rw [hrest] at h
        cases h
      · rw [hrest] at h
        simp only [Except.ok.injEq, Prod.mk.injEq] at h
        exact h.1 ▸ ih (prefillDrafted_sound hs hone) hrest

/-- A step leaves the caches sound: the sequences excused inside of it are gone
at its end. -/
theorem executeDrafted_sound {scheduled : BatchDescription} {done : RuntimeStep}
    (hdecodes : ∀ {s₁ log₁},
      decodesDrafted kind M cfg o arena (scheduled.decodes.map (·.id)) s = .ok (s₁, log₁) →
      s₁.Sound True)
    (h : executeDrafted kind M cfg o arena scheduled s = .ok (s', done)) : s'.Sound False := by
  rw [executeDrafted] at h
  simp only at h
  rcases hone : decodesDrafted kind M cfg o arena (scheduled.decodes.map (·.id)) s
    with e | ⟨s₁, log₁⟩
  · rw [hone] at h
    cases h
  · rw [hone] at h
    simp only at h
    split at h
    · cases h
    · rename_i s₂ log₂ hprefills
      simp only [Except.ok.injEq, Prod.mk.injEq] at h
      obtain ⟨rfl, -⟩ := h
      intro id seq cache hseq hcache
      simp only at hseq hcache
      rw [eraseAll_lookup] at hseq
      by_cases hgone : id ∈ finishedIds s₂.seqs
      · rw [if_pos hgone] at hseq
        cases hseq
      · rw [if_neg hgone] at hseq hcache
        obtain ⟨hdrafting, himages, hfilled⟩ :=
          prefillsDrafted_sound (hdecodes hone) hprefills id seq cache hseq hcache
        refine ⟨hdrafting, himages, Or.inr (hfilled.resolve_left fun hover => ?_)⟩
        exact hgone (finishedIds_spec.mpr ⟨seq, hseq, hover.2⟩)

theorem admitSequence_spec {p : PendingSequence κ σ} {seqs seqs' : Sequences κ σ}
    (h : admitSequence cfg p seqs = .ok seqs') :
    ∃ seq, seqs' = seqs.insert p.request.id seq ∧ seq.history = [] ∧ seq.images = p.images ∧
      seq.drafting = (cfg.draftHead && p.images.isEmpty) := by
  rw [admitSequence] at h
  split at h
  · cases h
  · split at h
    · cases h
    · split at h
      · cases h
      · split at h
        · cases h
        · simp only [Except.ok.injEq] at h
          exact ⟨_, h.symm, rfl, rfl, rfl⟩

theorem admitPending_sound {p : PendingSequence κ σ} {seqs : Sequences κ σ} (hs : s.Sound False)
    (h : admitPending cfg p s.seqs = .ok seqs) :
    Drafted.Sound False ⟨seqs, fun id =>
      if id = p.request.id then admittedCache cfg p else s.caches id⟩ := by
  intro id seq cache hseq hcache
  simp only at hseq hcache
  rw [admitPending] at h
  by_cases hid : id = p.request.id
  · rw [if_pos hid, admittedCache] at hcache
    split at hcache
    · rename_i hfresh
      simp only [Option.some.injEq] at hcache
      subst hcache
      rw [Bool.and_eq_true, Bool.and_eq_true, Option.isNone_iff_eq_none] at hfresh
      rw [hfresh.2] at h
      obtain ⟨seq', rfl, hhistory, himages, hdrafting⟩ := admitSequence_spec h
      rw [hid, AList.lookup_insert, Option.some.injEq] at hseq
      subst hseq
      refine ⟨?_, ?_, Or.inr ?_⟩
      · rw [hdrafting, hfresh.1.1, hfresh.1.2]
        rfl
      · rw [himages]
        exact List.isEmpty_iff.mp hfresh.1.2
      · rw [hhistory]
        exact SlotCache.Filled.nil
    · cases hcache
  · rw [if_neg hid] at hcache
    refine hs id seq cache ?_ hcache
    rcases hsnap : p.snapshot with _ | snapshot
    · rw [hsnap] at h
      obtain ⟨seq', rfl, -⟩ := admitSequence_spec h
      rwa [AList.lookup_insert_ne hid] at hseq
    · rw [hsnap] at h
      simp only at h
      split at h
      · cases h
      · split at h
        · cases h
        · rename_i seqs₁ haccepted
          obtain ⟨seq', rfl, -⟩ := admitSequence_spec haccepted
          simp only [AList.lookup_insert, Except.ok.injEq] at h
          subst h
          rwa [AList.lookup_insert_ne hid, AList.lookup_insert_ne hid] at hseq

theorem removed_sound (hs : s.Sound False) (id : RequestId) :
    Drafted.Sound False ⟨s.seqs.erase id, fun id' => if id' = id then none else s.caches id'⟩ := by
  intro id' seq cache hseq hcache
  simp only at hseq hcache
  by_cases hid : id' = id
  · rw [if_pos hid] at hcache
    cases hcache
  · rw [if_neg hid] at hcache
    rw [AList.lookup_erase_ne hid] at hseq
    exact hs id' seq cache hseq hcache

end Step

/-! ### The caches through a session -/

namespace SpeculativeSession

variable {M : Target Row κ σ} {d : ℕ} {sampled : ℕ → Token} {s : SpeculativeSession}

theorem draftFrom_spec (draftPos : ℕ) :
    ∀ (fuel i : ℕ) (tok : Token) (cache : DraftCache),
      (draftFrom sampled draftPos fuel i tok cache).1
          = (List.range fuel).map (fun j => sampled (i + j)) ∧
        (draftFrom sampled draftPos fuel i tok cache).2
          = cache.write (draftPos + i) (contextRows
            (((tok :: (draftFrom sampled draftPos fuel i tok cache).1).take fuel).map
              Input.token)) := by
  intro fuel
  induction fuel with
  | zero => exact fun i tok cache => ⟨rfl, SlotCache.write_nil.symm⟩
  | succ fuel ih =>
    intro i tok cache
    obtain ⟨hdrafts, hcache⟩ := ih (i + 1) (sampled i)
      (cache.write (draftPos + i) [.context (.token tok)])
    refine ⟨?_, ?_⟩
    · rw [draftFrom, List.range_succ_eq_map, List.map_cons, List.map_map]
      simp only [hdrafts, Nat.add_zero, List.cons.injEq, true_and]
      refine List.map_congr_left fun j _ => ?_
      rw [Function.comp_apply, Nat.succ_eq_add_one, Nat.add_right_comm, Nat.add_assoc]
    · rw [draftFrom]
      simp only [List.take_succ_cons]
      rw [hcache, ← Nat.add_assoc]
      exact @SlotCache.write_write _ _ _ [DraftRow.context (.token tok)] _

/-- The draft head is at the target's position, and has seen what it has. -/
structure Sound (s : SpeculativeSession) : Prop where
  position : s.draftPos = s.history.length
  filled : SlotCache.Filled (contextRows s.history) s.cache

/-- The target does not take all drafts of a round. -/
def Spared (M : Target Row κ σ) (d : ℕ) (sampled : ℕ → Token) (s : SpeculativeSession) : Prop :=
  (decideChain M d s.history s.idLast ⟨none, none⟩).1 ≠ (List.range d).map sampled

theorem new_sound {prompt : List Token} (h : new M prompt = some s) : s.Sound := by
  rw [new] at h
  split at h
  · cases h
  · simp only [Option.some.injEq] at h
    subst h
    refine ⟨(List.length_map _).symm, ?_⟩
    exact (SlotCache.Filled.nil : SlotCache.Filled [] SlotCache.empty).write

theorem step_sound (hs : s.Sound) (hspared : s.Spared M d sampled) :
    (s.step M d sampled).Sound := by
  obtain ⟨hdrafts, hcache⟩ := @draftFrom_spec sampled s.draftPos d 0 s.idLast s.cache
  rw [step]
  simp only [draft]
  set drafts := (draftFrom sampled s.draftPos d 0 s.idLast s.cache).1 with hdef
  have hlen : drafts.length = d := by rw [hdrafts, List.length_map, List.length_range]
  set predicted := fun i =>
    M.logits (s.history ++ ((s.idLast :: drafts).take (i + 1)).map Input.token) with hpredicted
  have hrows : RowsFor M predicted 0 s.history s.idLast drafts := by
    intro i _
    rw [hpredicted]
    simp only [Nat.zero_add, List.take_succ_cons]
  obtain ⟨n, hn, hchain, htaken⟩ :=
    deviceAccept_chain (c := ⟨none, none⟩) rfl drafts 0 s.history s.idLast hrows
  have hemitted : (deviceAccept M predicted 0 drafts).length = n + 1 := by
    have hfst := congrArg (fun p => p.1.length) hchain
    simpa only [decideChain_length] using hfst
  -- if all drafts are taken, they are the target's own
  have hchosen : (decideChain M n s.history s.idLast ⟨none, none⟩).1 = drafts.take n := by
    rw [← htaken, List.dropLast_eq_take, hemitted, Nat.add_sub_cancel, ← decideChain_take n 1,
      ← hchain]
  have hlt : n < d := by
    refine lt_of_le_of_ne (hlen ▸ hn) fun heq => hspared ?_
    rw [← heq, hchosen, List.take_of_length_le (by omega), hdrafts, heq]
    simp only [Nat.zero_add]
  rw [hemitted, Nat.add_sub_cancel]
  refine ⟨?_, ?_⟩
  · simp only [List.length_append, List.length_map, hs.position]
    rw [List.length_take_of_le (by rw [List.length_cons]; omega)]
    omega
  · have hbase : s.draftPos + 0 = (contextRows s.history).length := by
      rw [contextRows_length, ← hs.position, Nat.add_zero]
    simp only
    rw [hcache, hbase, contextRows_append]
    refine SlotCache.Filled.of_prefix hs.filled.write ?_
    rw [List.prefix_append_right_inj]
    exact ((List.take_prefix_take_left hlt).map _).map _

end SpeculativeSession

/-! ### Whole runs -/

section Runs

variable {M : Target Row κ σ} {cfg : RuntimeConfig}

/-- Every slot before a sequence's position was last written for the input the
sequence consumed there. -/
def Drafted.Filled (s : Drafted κ σ) : Prop :=
  ∀ id seq cache, s.seqs.lookup id = some seq → s.caches id = some cache →
    SlotCache.Filled (contextRows seq.history) cache

/-- What a step of the chain has to avoid. -/
def Drafted.Spared (M : Target Row κ σ) (cfg : RuntimeConfig) (s : Drafted κ σ) :
    DraftEvent κ σ → Prop
  | .step o _ scheduled => ChainsSpared M cfg o (scheduled.decodes.map (·.id)) s
  | _ => True

theorem step_sound {kind : Drafter} {s s' : Drafted κ σ} {e : DraftEvent κ σ}
    (hbuilt : cfg.BuiltToDraft) (hspared : kind = .mtp → s.Spared M cfg e) (hs : s.Sound False)
    (h : s.step kind M cfg e = .ok s') : s'.Sound False := by
  cases e with
  | accept p =>
    rw [Drafted.step] at h
    rcases haccepted : admitPending cfg p s.seqs with err | seqs
    · rw [haccepted] at h
      cases h
    · rw [haccepted] at h
      cases h
      exact admitPending_sound hs haccepted
  | step o arena scheduled =>
    rw [Drafted.step] at h
    rcases hexec : executeDrafted kind M cfg o arena scheduled s with err | ⟨s₁, done⟩
    · rw [hexec] at h
      cases h
    · rw [hexec] at h
      cases h
      refine executeDrafted_sound (fun hone => ?_) hexec
      cases kind with
      | mtp => exact decodesDrafted_sound_mtp hbuilt hs (hspared rfl) hone
      | dflash => exact decodesDrafted_sound_dflash hbuilt hs hone
  | remove id =>
    cases h
    exact removed_sound hs id

theorem start_sound : (Drafted.start : Drafted κ σ).Sound False :=
  fun _ _ _ hseq _ => by cases hseq

theorem Drafted.Sound.all_filled {s : Drafted κ σ} (hs : s.Sound False) : s.Filled :=
  fun _ _ _ hseq hcache => (hs.strict hseq hcache).2.2

/-- No reachable cache has a hole, as long as no chain is taken whole.  A block's
context is always written. -/
theorem draft_caches_filled (hbuilt : cfg.BuiltToDraft) :
    (∀ events s, Run (fun s e s' => s.Spared M cfg e ∧ s.step .mtp M cfg e = .ok s')
      Drafted.start events s → s.Filled) ∧
    (∀ events s, Run (fun s e s' => s.step .dflash M cfg e = .ok s') Drafted.start events s →
      s.Filled) ∧
    ∀ d prompt first draws s, SpeculativeSession.new M prompt = some first →
      Run (fun s sampled s' => s.Spared M d sampled ∧ s.step M d sampled = s') first draws s →
      s.draftPos = s.history.length ∧ SlotCache.Filled (contextRows s.history) s.cache := by
  refine ⟨fun events s hrun => ?_, fun events s hrun => ?_, fun d prompt first draws s hnew hrun => ?_⟩
  · refine Drafted.Sound.all_filled (hrun.invariant (P := Drafted.Sound False) start_sound ?_)
    intro a b e ha hstep
    exact step_sound hbuilt (fun _ => hstep.1) ha hstep.2
  · refine Drafted.Sound.all_filled (hrun.invariant (P := Drafted.Sound False) start_sound ?_)
    intro a b e ha hstep
    exact step_sound hbuilt (fun hkind => by cases hkind) ha hstep
  · have hsound : s.Sound := by
      refine hrun.invariant (P := SpeculativeSession.Sound)
        (SpeculativeSession.new_sound hnew) ?_
      rintro a b sampled ha ⟨hspared, rfl⟩
      exact SpeculativeSession.step_sound ha hspared
    exact ⟨hsound.position, hsound.filled⟩

end Runs

/-! ### A chain that is taken whole -/

/-- With a draft head, nothing retained. -/
def chainConfig : RuntimeConfig := { tallyConfig with draftHead := true, retentionInterval := 0 }

theorem chainConfig_built : chainConfig.BuiltToDraft := ⟨by decide, fun _ _ _ => rfl⟩

/-- A prompt of one token. -/
def chainRequest : PendingSequence Unit Unit where
  request := { id := 0, promptTokens := 1, maxOutputTokens := 8 }
  prompt := [7]
  images := []
  snapshot := none
  sampler := none
  constraint := none

/-- A prompt of one token and a step whose chain samples these tokens. -/
def chainEvents (draft : ℕ → Token) : List (DraftEvent Unit Unit) :=
  let o : DraftOracle := ⟨fun _ => draft, fun _ _ => false, fun _ => []⟩
  [.accept chainRequest, .step o (fun _ _ => true) { prefills := [⟨0, 1⟩], decodes := [] },
    .step o (fun _ _ => true) { prefills := [], decodes := [⟨0, 0⟩] }]

/-- The state after the first `n` events. -/
def chainState (draft : ℕ → Token) (n : ℕ) : Drafted Unit Unit :=
  match ((chainEvents draft).take n).foldlM (Drafted.step .mtp tallyTarget chainConfig)
    Drafted.start with
  | .ok s => s
  | .error _ => Drafted.start

/-- One of two drafts is taken, and the cache is filled. -/
theorem draft_caches_witness :
    (chainState (fun _ => 2) 3).Filled ∧
      ((chainState (fun _ => 2) 3).seqs.lookup 0).map (·.history)
        = some [.token 7, .token 1, .token 2] ∧
      ((chainState (fun _ => 2) 3).caches 0).map (· 2) = some (some (.context (.token 2))) := by
  refine ⟨(@draft_caches_filled _ _ _ tallyTarget _ chainConfig_built).1 (chainEvents fun _ => 2) _
    ?_, by decide, by decide⟩
  refine Run.snoc (t := chainState (fun _ => 2) 2) (Run.snoc (t := chainState (fun _ => 2) 1)
    (Run.single ⟨trivial, rfl⟩) ⟨fun id hid => absurd hid List.not_mem_nil, rfl⟩) ⟨?_, rfl⟩
  intro id hid seq pending hseq _ hpending htaken
  cases List.mem_singleton.mp hid
  cases hseq
  cases hpending
  exact absurd htaken.taken.chosen (by decide)

/-- Both drafts are taken: the position of the second is committed, and its slot
is still unwritten when the next chain starts.  A session does the same. -/
theorem taken_chain_leaves_hole :
    (∃ events s, Run (fun s e s' => s.step .mtp tallyTarget chainConfig e = .ok s') Drafted.start
        events s ∧
      (s.seqs.lookup 0).map (fun seq => (seq.position, decide seq.finished)) = some (4, false) ∧
      (s.caches 0).map (· 3) = some none) ∧
    (SpeculativeSession.new tallyTarget [7]).map (fun first =>
        ((first.step tallyTarget 2 fun j => j + 2).draftPos,
          (first.step tallyTarget 2 fun j => j + 2).cache 3))
      = some (4, none) := by
  refine ⟨⟨chainEvents fun j => j + 2, chainState (fun j => j + 2) 3, ?_, by decide, by decide⟩,
    by decide⟩
  exact Run.snoc (t := chainState (fun j => j + 2) 2) (Run.snoc (t := chainState (fun j => j + 2) 1)
    (Run.single rfl) rfl) rfl
