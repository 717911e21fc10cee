/-
What a draft chain has fed its head, and what a verify pass commits.

A chain of `n` rounds feeds its head the pending token and all drafts but the
last (`Chained`).  All participants run the same number of rounds
(`mtpRounds_rounds`), those below the gate only for the sake of the others.

A verify pass commits the pending token and a beginning of the draft
(`verifySequence_commits`), the whole of it only if the target takes it whole:
`TakesWhole` says so from the state before the step.
-/
import Llmxabe.Runtime.Drafting
import Llmxabe.Runtime.Speculation

variable {Row κ σ : Type}

/-! ### The rounds of a chain -/

section Chain

variable (o : DraftOracle)

/-- The token fed to the head in a round. -/
def fedToken (id : RequestId) (pending : Token) : ℕ → Token
  | 0 => pending
  | j + 1 => o.sampled id j

/-- The tokens drafted in the first rounds. -/
def sampledTokens (id : RequestId) (m : ℕ) : List Token := (List.range m).map (o.sampled id)

/-- The tokens fed in the first rounds. -/
def fedTokens (id : RequestId) (pending : Token) (n : ℕ) : List Token :=
  (List.range n).map (fedToken o id pending)

/-- Any number of rounds. -/
def ChainRow.rounds : ℕ → ℕ → ChainRow → ChainRow
  | _, 0, r => r
  | j, n + 1, r => rounds (j + 1) n (r.round o j)

/-- A participant after `j` rounds. -/
structure Chained (r₀ : ChainRow) (j : ℕ) (r : ChainRow) : Prop where
  id : r.id = r₀.id
  base : r.base = r₀.base
  tok : r.tok = fedToken o r₀.id r₀.tok j
  cache : r.cache = r₀.cache.write r₀.base
    (contextRows ((fedTokens o r₀.id r₀.tok j).map Input.token))
  draft : ∃ m ≤ j, r.draft = sampledTokens o r₀.id m ∧ (∀ i < m, o.unsure r₀.id i = false) ∧
    (r.active = true ↔ m = j)

variable {o}

@[simp] theorem fedTokens_length (id : RequestId) (pending : Token) (n : ℕ) :
    (fedTokens o id pending n).length = n := by
  rw [fedTokens, List.length_map, List.length_range]

@[simp] theorem sampledTokens_length (id : RequestId) (m : ℕ) :
    (sampledTokens o id m).length = m := by
  rw [sampledTokens, List.length_map, List.length_range]

@[simp] theorem contextRows_length (inputs : List Input) :
    (contextRows inputs).length = inputs.length := List.length_map _

theorem contextRows_append (inputs more : List Input) :
    contextRows (inputs ++ more) = contextRows inputs ++ contextRows more := List.map_append

/-- Behind the pending token the drafts are fed, one round late. -/
theorem fedTokens_succ (id : RequestId) (pending : Token) (n : ℕ) :
    fedTokens o id pending (n + 1) = pending :: sampledTokens o id n := by
  rw [fedTokens, List.range_succ_eq_map, List.map_cons, List.map_map]
  rfl

theorem sampledTokens_take (id : RequestId) {k m : ℕ} (h : k ≤ m) :
    (sampledTokens o id m).take k = sampledTokens o id k := by
  rw [sampledTokens, ← List.map_take, List.take_range, Nat.min_eq_left h]
  rfl

theorem fedTokens_mono (id : RequestId) (pending : Token) {k n : ℕ} (h : k ≤ n) :
    fedTokens o id pending k <+: fedTokens o id pending n := by
  rw [fedTokens, fedTokens, ← Nat.min_eq_left h, ← List.take_range]
  exact (List.take_prefix _ _).map _

theorem Chained.start {r : ChainRow} (hactive : r.active = true) (hdraft : r.draft = []) :
    Chained o r 0 r where
  id := rfl
  base := rfl
  tok := rfl
  cache := SlotCache.write_nil.symm
  draft := ⟨0, le_rfl, hdraft, fun i hi => absurd hi (Nat.not_lt_zero i), by simp [hactive]⟩

theorem Chained.round {r₀ r : ChainRow} {j : ℕ} (h : Chained o r₀ j r) :
    Chained o r₀ (j + 1) (r.round o j) where
  id := h.id
  base := h.base
  tok := by
    show o.sampled r.id j = _
    rw [h.id]
    rfl
  cache := by
    have hlen : r₀.base + j = r₀.base
        + (contextRows ((fedTokens o r₀.id r₀.tok j).map Input.token)).length := by
      rw [contextRows_length, List.length_map, fedTokens_length]
    show r.cache.write (r.base + j) [.context (.token r.tok)] = _
    rw [h.cache, h.base, h.tok, hlen, SlotCache.write_write, fedTokens, fedTokens,
      List.range_succ, List.map_append, List.map_append, contextRows_append]
    rfl
  draft := by
    obtain ⟨m, hm, hdraft, hsure, hactive⟩ := h.draft
    have hround : (r.round o j).draft
        = if (r.active && !o.unsure r.id j) = true then r.draft ++ [o.sampled r.id j]
          else r.draft := rfl
    have hstays : (r.round o j).active = (r.active && !o.unsure r.id j) := rfl
    rw [hround, hstays]
    by_cases hgo : (r.active && !o.unsure r.id j) = true
    · rw [if_pos hgo, hgo]
      rw [Bool.and_eq_true, Bool.not_eq_true'] at hgo
      have hmj : m = j := hactive.mp hgo.1
      subst hmj
      refine ⟨m + 1, le_rfl, ?_, fun i hi => ?_, iff_of_true rfl rfl⟩
      · rw [hdraft, h.id, sampledTokens, sampledTokens, List.range_succ, List.map_append]
        rfl
      · rcases Nat.lt_succ_iff_lt_or_eq.mp hi with hi | rfl
        · exact hsure i hi
        · exact h.id ▸ hgo.2
    · rw [if_neg hgo]
      exact ⟨m, Nat.le_succ_of_le hm, hdraft, hsure, iff_of_false hgo (by omega)⟩

theorem Chained.rounds :
    ∀ {n j : ℕ} {r₀ r : ChainRow}, Chained o r₀ j r → Chained o r₀ (j + n) (r.rounds o j n) := by
  intro n
  induction n with
  | zero => exact fun h => h
  | succ n ih =>
    intro j r₀ r h
    have hrest := ih h.round
    rwa [Nat.add_right_comm, Nat.add_assoc] at hrest

/-- All participants run the same number of rounds: all there are, unless after
one of them nobody proposes any more. -/
theorem mtpRounds_rounds :
    ∀ (fuel j : ℕ) (rows : List ChainRow), ∃ n ≤ fuel,
      mtpRounds o fuel j rows = rows.map (·.rounds o j n) ∧
        (n = fuel ∨ 0 < n ∧ ∀ r ∈ rows, (r.rounds o j n).active = false) := by
  intro fuel
  induction fuel with
  | zero => exact fun j rows => ⟨0, le_rfl, (List.map_id' _).symm, Or.inl rfl⟩
  | succ fuel ih =>
    intro j rows
    rw [mtpRounds]
    split
    · obtain ⟨n, hn, hrows, hend⟩ := ih (j + 1) (rows.map (·.round o j))
      refine ⟨n + 1, Nat.succ_le_succ hn, ?_, ?_⟩
      · rw [hrows, List.map_map]
        rfl
      · rcases hend with rfl | ⟨hpos, hidle⟩
        · exact Or.inl rfl
        · exact Or.inr ⟨Nat.succ_pos n, fun r hr => hidle _ (List.mem_map_of_mem hr)⟩
    · rename_i hidle
      refine ⟨1, Nat.succ_le_succ (Nat.zero_le _), rfl, Or.inr ⟨Nat.one_pos, fun r hr => ?_⟩⟩
      rw [← Bool.not_eq_true]
      intro hact
      exact hidle (List.any_eq_true.mpr ⟨_, List.mem_map_of_mem hr, hact⟩)

theorem rounds_id : ∀ {n j : ℕ} {r : ChainRow}, (r.rounds o j n).id = r.id := by
  intro n
  induction n with
  | zero => exact rfl
  | succ n ih => exact fun {j r} => @ih (j + 1) (r.round o j)

end Chain

/-! ### Who takes part -/

section Rows

variable {s : Drafted κ σ} {decodes : List RequestId} {id : RequestId}

theorem chainRow_id {r : ChainRow} (h : chainRow s id = some r) : r.id = id := by
  rw [chainRow] at h
  split at h
  · obtain ⟨tok, -, rfl⟩ := Option.map_eq_some_iff.mp h
    rfl
  · cases h

theorem find?_filterMap_id {f : RequestId → Option ChainRow}
    (hf : ∀ {a r}, f a = some r → r.id = a) :
    ∀ decodes : List RequestId,
      (decodes.filterMap f).find? (·.id = id) = if id ∈ decodes then f id else none := by
  intro decodes
  induction decodes with
  | nil => rfl
  | cons a decodes ih =>
    rcases ha : f a with _ | r
    · rw [List.filterMap_cons_none ha, ih]
      by_cases hid : id = a
      · subst hid
        rw [ha, ite_self, ite_self]
      · simp only [List.mem_cons, hid, false_or]
    · rw [List.filterMap_cons_some ha]
      by_cases hid : id = a
      · subst hid
        rw [List.find?_cons_of_pos (by simp [hf ha]), if_pos List.mem_cons_self, ha]
      · rw [List.find?_cons_of_neg (by simp [hf ha, Ne.symm hid]), ih]
        simp only [List.mem_cons, hid, false_or]

/-- A request's row, once every row has been worked on. -/
theorem chainRows_find (decodes : List RequestId) (s : Drafted κ σ) (id : RequestId)
    {g : ChainRow → ChainRow} (hg : ∀ r, (g r).id = r.id) :
    ((chainRows decodes s).map g).find? (·.id = id)
      = if id ∈ decodes then (chainRow s id).map g else none := by
  have hsame : ((fun r : ChainRow => decide (r.id = id)) ∘ g) = fun r => decide (r.id = id) := by
    funext r
    simp [hg r]
  rw [List.find?_map, hsame, chainRows, find?_filterMap_id chainRow_id]
  split
  · rfl
  · rfl

end Rows

/-! ### What a verify pass commits -/

section Verify

variable {M : Target Row κ σ} {cfg : RuntimeConfig} {io : StepOracle} {id : RequestId}

/-- The target takes a whole draft and the sequence goes on: every token of it
is the one plain decode decides, no constraint arms on the way, and neither an
end-of-turn nor the output budget ends the sequence. -/
structure TakesWhole (M : Target Row κ σ) (cfg : RuntimeConfig) (seq : RuntimeSequence κ σ)
    (pending : Token) (draft : List Token) : Prop where
  chosen : (decideChain M draft.length seq.history pending seq.choice).1 = draft
  unarmed : ∀ j < draft.length,
    ¬((decideChain M j seq.history pending seq.choice).2.isMasking M = false ∧
      (decideChain M (j + 1) seq.history pending seq.choice).2.isMasking M = true)
  goesOn : ∀ t ∈ (decideChain M (draft.length + 1) seq.history pending seq.choice).1,
    cfg.eosToken ≠ some t
  budget : seq.emitted + (draft.length + 1) < seq.maxOutput

theorem decideChain_take :
    ∀ (m n : ℕ) (history : List Input) (pending : Token) (c : Choice κ σ),
      (decideChain M (m + n) history pending c).1.take m = (decideChain M m history pending c).1 := by
  intro m
  induction m with
  | zero => exact fun _ _ _ _ => rfl
  | succ m ih =>
    intro n history pending c
    rw [Nat.add_right_comm, decideChain, decideChain]
    simp only [List.take_succ_cons, ih]

/-- Without a constraint a chain of decisions never arms one. -/
theorem decideChain_device {c : Choice κ σ} (hhost : c.choosesOnTheHost = false) :
    ∀ (n : ℕ) (history : List Input) (pending : Token),
      (decideChain M n history pending c).2.isMasking M = false := by
  have hnone : c.constraint = none := by
    rw [Choice.choosesOnTheHost, Bool.or_eq_false_iff] at hhost
    simpa using hhost.2
  intro n
  induction n with
  | zero =>
    intro history pending
    simp [decideChain, Choice.isMasking, hnone]
  | succ n ih =>
    intro history pending
    have hsame : (c.decideRow M (M.logits (history ++ [.token pending]))).2 = c := by
      rw [Choice.decideRow, hhost, if_neg Bool.false_ne_true, Choice.observe_none hnone]
    rw [decideChain]
    simp only [hsame, ih]

/-- A window that is taken whole arms no constraint on the way. -/
theorem hostAccept_unarmed {row : ℕ → Row} :
    ∀ (draft : List Token) (j : ℕ) (history : List Input) (pending : Token) (c : Choice κ σ),
      c.choosesOnTheHost = true → RowsFor M row j history pending draft →
      (hostAccept M row j draft c).1.length = draft.length + 1 →
      ∀ i < draft.length, ¬((decideChain M i history pending c).2.isMasking M = false ∧
        (decideChain M (i + 1) history pending c).2.isMasking M = true) := by
  intro draft
  induction draft with
  | nil => exact fun _ _ _ _ _ _ _ i hi => absurd hi (Nat.not_lt_zero i)
  | cons drafted draft ih =>
    intro j history pending c hhost hrows hlen i hi
    have hdecide : c.decideRow M (M.logits (history ++ [.token pending]))
        = ((c.choose M (row j)).1,
            (c.choose M (row j)).2.observe M (c.choose M (row j)).1) := by
      rw [Choice.decideRow, if_pos hhost, hrows.head]
    simp only [hostAccept] at hlen
    split at hlen
    · simp at hlen
    · rename_i hgo
      rw [not_or, not_not] at hgo
      cases i with
      | zero =>
        simp only [decideChain, hdecide]
        exact hgo.2
      | succ i =>
        have hhost' : ((c.choose M (row j)).2.observe M
            (c.choose M (row j)).1).choosesOnTheHost = true := by
          rcases c with ⟨sampler, constraint⟩
          cases sampler with
          | none => simpa [Choice.choosesOnTheHost, Choice.choose, Choice.observe] using hhost
          | some s => simp [Choice.choosesOnTheHost, Choice.choose, Choice.observe]
        have hrest := ih (j + 1) (history ++ [.token pending]) (c.choose M (row j)).1 _ hhost'
          (hgo.1 ▸ hrows.tail) (by simpa using hlen) i (by simpa using hi)
        rw [decideChain, hdecide]
        simp only
        rw [decideChain, hdecide]
        exact hrest

theorem truncateAtEos_miss {eos : Option Token} {ts : List Token}
    (h : (truncateAtEos eos ts).2 = false) : ∀ t ∈ ts, eos ≠ some t := by
  induction ts with
  | nil => exact fun t ht => absurd ht List.not_mem_nil
  | cons a ts ih =>
    rw [truncateAtEos_cons] at h
    split at h
    · cases h
    · rename_i hne
      intro t ht
      rcases List.mem_cons.mp ht with rfl | ht
      · exact hne
      · exact ih h t ht

/-- A verify pass commits the pending token and a beginning of the draft; all
of it, for a sequence that goes on, only if the target takes it whole. -/
theorem verifySequence_commits {seq seq' : RuntimeSequence κ σ} {pending : Token} {log : StepLog}
    (hpending : seq.nextToken = some pending) (hwindow : seq.draft.length ≤ cfg.window - 1)
    (hok : verifySequence M cfg io id seq = .ok (seq', log)) :
    seq'.drafting = seq.drafting ∧ ∃ k ≤ seq.draft.length,
      seq'.history = seq.history ++ (pending :: seq.draft.take k).map Input.token ∧
      (k = seq.draft.length → ¬seq'.finished → TakesWhole M cfg seq pending seq.draft) := by
  rw [verifySequence, hpending] at hok
  simp only at hok
  have hrows : RowsFor M (fun j => M.logits (seq.history
      ++ ((verifyIds cfg.window pending seq.draft).take (j + 1)).map Input.token)) 0
      seq.history pending seq.draft := by
    intro i hi
    simp only [Nat.zero_add]
    rw [verifyIds_take hi hwindow]
  -- the target accepts `n` drafted tokens, and they are what it would have decided itself
  obtain ⟨n, hn, haccept, hdraft⟩ := acceptance (c := seq.choice) hrows
  -- the host stops accepting where a constraint begins to mask
  have hunarmed : n = seq.draft.length → ∀ i < seq.draft.length,
      ¬((decideChain M i seq.history pending seq.choice).2.isMasking M = false ∧
        (decideChain M (i + 1) seq.history pending seq.choice).2.isMasking M = true) := by
    rintro rfl
    by_cases hhost : seq.choice.choosesOnTheHost = true
    · rw [if_pos hhost] at haccept
      refine hostAccept_unarmed seq.draft 0 seq.history pending seq.choice hhost hrows ?_
      rw [haccept, decideChain_length]
    · rw [Bool.not_eq_true] at hhost
      intro i _ harms
      have hmasks := harms.2
      rw [decideChain_device hhost] at hmasks
      exact Bool.false_ne_true hmasks
  rw [haccept] at hok
  set chain := decideChain M (n + 1) seq.history pending seq.choice with hchain
  have hlength : chain.1.length = n + 1 := decideChain_length _ _ _ _
  rcases hcut : truncateAtEos cfg.eosToken chain.1 with ⟨emit, hit⟩
  -- the end token cuts the emission, but leaves a token
  have hne : emit ≠ [] := by
    have hcut_ne := truncateAtEos_ne_nil cfg.eosToken (List.length_pos_iff.mp
      (show 0 < chain.1.length by omega))
    rwa [hcut] at hcut_ne
  have hpre : emit <+: chain.1 := by
    have hcut_pre := truncateAtEos_prefix cfg.eosToken chain.1
    rwa [hcut] at hcut_pre
  have hle : emit.length ≤ n + 1 := hlength ▸ hpre.length_le
  obtain ⟨k, hk⟩ : ∃ k, emit.length = k + 1 :=
    ⟨emit.length - 1, by have := List.length_pos_iff.mpr hne; omega⟩
  rw [hcut] at hok
  simp only [Except.ok.injEq, Prod.mk.injEq] at hok
  obtain ⟨rfl, -⟩ := hok
  refine ⟨by simp only [retain_drafting], k, by omega, ?_, fun hall hopen => ?_⟩
  · simp only [retain_history]
    rw [hk, verifyIds_take (by omega) hwindow]
  -- all of the draft is committed: nothing was cut, so the target took it whole
  · have hnall : n = seq.draft.length := by omega
    have hhit : hit = false := by
      rw [← Bool.not_eq_true]
      intro hhit
      exact hopen (by simp [RuntimeSequence.finished, hhit])
    have hmiss := truncateAtEos_miss (show (truncateAtEos cfg.eosToken chain.1).2 = false by
      rw [hcut, hhit])
    refine ⟨?_, hunarmed hnall, ?_, ?_⟩
    · rw [← hnall, ← decideChain_take n 1, ← hchain, ← List.take_of_length_le (le_of_eq hnall.symm),
        ← hdraft, List.dropLast_eq_take, hlength, Nat.add_sub_cancel]
    · rw [← hnall]
      exact hmiss
    · rw [RuntimeSequence.finished, not_le] at hopen
      simpa [hhit, hk, hall] using hopen

end Verify

/-! ### What drafting makes of a row -/

section Draft

variable {kind : Drafter} {cfg : RuntimeConfig} {o : DraftOracle} {decodes : List RequestId}
  {s : Drafted κ σ} {id : RequestId} {r r' : ChainRow}

/-- A row before and after drafting. -/
def DraftsFrom (kind : Drafter) (cfg : RuntimeConfig) (o : DraftOracle) (r r' : ChainRow) : Prop :=
  match kind with
  | .mtp => ∃ n ≤ cfg.drafts, Chained o r n r' ∧
      (n = cfg.drafts ∨ 0 < n ∧ r'.active = false)
  | .dflash => r'.draft = (o.block r.id).take cfg.drafts ∧
      r'.cache = r.cache.write r.base (List.replicate (cfg.drafts + 1) .query)

theorem chainRow_fresh (h : chainRow s id = some r) : r.active = true ∧ r.draft = [] := by
  rw [chainRow] at h
  split at h
  · obtain ⟨tok, -, rfl⟩ := Option.map_eq_some_iff.mp h
    exact ⟨rfl, rfl⟩
  · cases h

/-- Whoever takes part has drafted, and nobody else. -/
theorem Drafter.draft_find (kind : Drafter) (cfg : RuntimeConfig) (o : DraftOracle)
    (s : Drafted κ σ) (hid : id ∈ decodes) :
    (chainRow s id = none ∧ (kind.draft cfg o decodes s).find? (·.id = id) = none) ∨
      ∃ r r', chainRow s id = some r ∧
        (kind.draft cfg o decodes s).find? (·.id = id) = some r' ∧ DraftsFrom kind cfg o r r' := by
  cases kind with
  | mtp =>
    obtain ⟨n, hn, hrows, hend⟩ := @mtpRounds_rounds o cfg.drafts 0 (chainRows decodes s)
    have hfind := chainRows_find decodes s id (g := fun r => r.rounds o 0 n) fun _ => rounds_id
    rw [if_pos hid] at hfind
    rw [Drafter.draft, mtpDraftChain, hrows, hfind]
    rcases hrow : chainRow s id with _ | r
    · exact Or.inl ⟨rfl, rfl⟩
    · obtain ⟨hactive, hdraft⟩ := chainRow_fresh hrow
      refine Or.inr ⟨r, r.rounds o 0 n, rfl, rfl, n, hn, ?_, ?_⟩
      · have hchained := (Chained.start hactive hdraft : Chained o r 0 r).rounds (n := n)
        rwa [Nat.zero_add] at hchained
      · rcases hend with hall | ⟨hpos, hidle⟩
        · exact Or.inl hall
        · exact Or.inr ⟨hpos, hidle r (List.mem_filterMap.mpr ⟨id, hid, hrow⟩)⟩
  | dflash =>
    have hfind := chainRows_find decodes s id (g := (·.block cfg o)) fun _ => rfl
    rw [if_pos hid] at hfind
    rw [Drafter.draft, dflashDraft, hfind]
    rcases chainRow s id with _ | r
    · exact Or.inl ⟨rfl, rfl⟩
    · exact Or.inr ⟨r, _, rfl, rfl, rfl, rfl⟩

theorem Drafter.draft_idle (kind : Drafter) (hid : id ∉ decodes) :
    (kind.draft cfg o decodes s).find? (·.id = id) = none := by
  cases kind with
  | mtp =>
    obtain ⟨n, -, hrows, -⟩ := @mtpRounds_rounds o cfg.drafts 0 (chainRows decodes s)
    rw [Drafter.draft, mtpDraftChain, hrows, chainRows_find _ _ _ fun _ => rounds_id, if_neg hid]
  | dflash =>
    have hfind := chainRows_find decodes s id (g := (·.block cfg o)) fun _ => rfl
    rw [Drafter.draft, dflashDraft, hfind, if_neg hid]

theorem DraftsFrom.length_le (h : DraftsFrom kind cfg o r r') : r'.draft.length ≤ cfg.drafts := by
  cases kind with
  | mtp =>
    obtain ⟨n, hn, hchained, -⟩ := h
    obtain ⟨m, hm, hdraft, -⟩ := hchained.draft
    rw [hdraft, sampledTokens_length]
    exact hm.trans hn
  | dflash =>
    rw [h.1, List.length_take]
    exact Nat.min_le_left _ _

end Draft
