/-
Speculative decode equals plain decode.

`Follows d seq` says that plain decode in state `d` and the runtime's sequence
`seq` are at the same point: same inputs consumed, same pending token, same
count of emitted tokens, and the same choice as long as there is anything left
to choose.  One token of the round-gated path is one plain step
(`decodeToken_follows`); a verify window is as many plain steps as it emits
tokens, whatever the draft was (`verifySequence_follows`).

* `acceptance`: the tokens a window emits are a chain of plain decisions, and
  all but the last of them are the draft's, so the window's rows are the rows
  plain decode would have read;
* `speculation_run`: after any rounds of any batches, every sequence is where
  plain decode is after some number of steps, at least one for every round it
  was scheduled in;
* `speculation_finishes`: once it has finished, it has emitted, consumed and
  counted exactly what plain decode does when left to run.
-/
import Llmxabe.Lib.Run
import Llmxabe.Runtime.Batch
import Llmxabe.Runtime.Plain

variable {Row κ σ : Type}

/-! ### The accepted tokens are plain decisions -/

section Acceptance

variable {M : Target Row κ σ}

theorem Choice.observe_none {c : Choice κ σ} (h : c.constraint = none) (t : Token) :
    c.observe M t = c := by
  obtain ⟨sampler, constraint⟩ := c
  simp only at h
  subst h
  rfl

/-- A row list that a window has computed for a draft behind `history`. -/
def RowsFor (M : Target Row κ σ) (row : ℕ → Row) (j : ℕ) (history : List Input) (pending : Token)
    (draft : List Token) : Prop :=
  ∀ i ≤ draft.length,
    row (j + i) = M.logits (history ++ ((pending :: draft.take i).map Input.token))

theorem RowsFor.head {row : ℕ → Row} {j : ℕ} {history : List Input} {pending : Token}
    {draft : List Token} (h : RowsFor M row j history pending draft) :
    row j = M.logits (history ++ [.token pending]) := by
  simpa using h 0 (Nat.zero_le _)

theorem RowsFor.tail {row : ℕ → Row} {j : ℕ} {history : List Input} {pending drafted : Token}
    {draft : List Token} (h : RowsFor M row j history pending (drafted :: draft)) :
    RowsFor M row (j + 1) (history ++ [.token pending]) drafted draft := by
  intro i hi
  have hrow := h (i + 1) (by rw [List.length_cons]; omega)
  rw [Nat.add_assoc, Nat.add_comm 1 i, hrow]
  simp

theorem hostAccept_chain {row : ℕ → Row} :
    ∀ (draft : List Token) (j : ℕ) (history : List Input) (pending : Token) (c : Choice κ σ),
      c.choosesOnTheHost = true → RowsFor M row j history pending draft →
      ∃ n ≤ draft.length,
        hostAccept M row j draft c = decideChain M (n + 1) history pending c ∧
          (hostAccept M row j draft c).1.dropLast = draft.take n := by
  intro draft
  induction draft with
  | nil =>
    intro j history pending c hhost hrows
    refine ⟨0, le_rfl, ?_, rfl⟩
    simp only [hostAccept, decideChain, Choice.decideRow, hhost, if_true, hrows.head]
  | cons drafted draft ih =>
    intro j history pending c hhost hrows
    have hdecide : c.decideRow M (M.logits (history ++ [.token pending]))
        = ((c.choose M (row j)).1,
            (c.choose M (row j)).2.observe M (c.choose M (row j)).1) := by
      rw [Choice.decideRow, if_pos hhost, hrows.head]
    simp only [hostAccept]
    split
    · exact ⟨0, Nat.zero_le _, by simp only [decideChain, hdecide], rfl⟩
    · rename_i hgo
      have htoken : (c.choose M (row j)).1 = drafted := by
        by_contra hne
        exact hgo (Or.inl hne)
      have hhost' : ((c.choose M (row j)).2.observe M (c.choose M (row j)).1).choosesOnTheHost
          = true := by
        rcases c with ⟨sampler, constraint⟩
        cases sampler with
        | none => simpa [Choice.choosesOnTheHost, Choice.choose, Choice.observe] using hhost
        | some s => simp [Choice.choosesOnTheHost, Choice.choose, Choice.observe]
      obtain ⟨n, hn, hchain, hdraft⟩ := ih (j + 1) (history ++ [.token pending])
        (c.choose M (row j)).1 _ hhost' (htoken ▸ hrows.tail)
      refine ⟨n + 1, by rw [List.length_cons]; omega, ?_, ?_⟩
      · rw [decideChain, hdecide, ← hchain]
      · rw [List.dropLast_cons_of_ne_nil, hdraft, htoken, List.take_succ_cons]
        rw [hchain, decideChain]
        exact List.cons_ne_nil _ _

theorem deviceAccept_chain {row : ℕ → Row} {c : Choice κ σ} (hhost : c.choosesOnTheHost = false) :
    ∀ (draft : List Token) (j : ℕ) (history : List Input) (pending : Token),
      RowsFor M row j history pending draft →
      ∃ n ≤ draft.length,
        (deviceAccept M row j draft, c) = decideChain M (n + 1) history pending c ∧
          (deviceAccept M row j draft).dropLast = draft.take n := by
  have hnone : c.constraint = none := by
    rcases c with ⟨sampler, constraint⟩
    simp only [Choice.choosesOnTheHost, Bool.or_eq_false_iff] at hhost
    simpa using hhost.2
  intro draft
  induction draft with
  | nil =>
    intro j history pending hrows
    refine ⟨0, le_rfl, ?_, rfl⟩
    simp only [deviceAccept, decideChain, Choice.decideRow, hhost, Bool.false_eq_true, if_false,
      hrows.head, Choice.observe_none hnone]
  | cons drafted draft ih =>
    intro j history pending hrows
    have hdecide : c.decideRow M (M.logits (history ++ [.token pending]))
        = (M.argmaxDevice (row j), c) := by
      rw [Choice.decideRow, hhost, hrows.head, Choice.observe_none hnone]
      rfl
    rw [deviceAccept]
    split
    · rename_i htoken
      obtain ⟨n, hn, hchain, hdraft⟩ := ih (j + 1) (history ++ [.token pending])
        (M.argmaxDevice (row j)) (htoken ▸ hrows.tail)
      refine ⟨n + 1, by rw [List.length_cons]; omega, ?_, ?_⟩
      · rw [decideChain, hdecide, ← hchain, htoken]
      · rw [List.dropLast_cons_of_ne_nil, hdraft, List.take_succ_cons]
        intro hnil
        rw [hnil] at hchain
        have := congrArg (fun p => p.1.length) hchain
        simp only [decideChain_length, List.length_nil] at this
        omega
    · exact ⟨0, Nat.zero_le _, by simp only [decideChain, hdecide], rfl⟩

/-- The tokens a window emits are plain decisions, and all but the last of
them are the draft's. -/
theorem acceptance {row : ℕ → Row} {c : Choice κ σ} {history : List Input} {pending : Token}
    {draft : List Token} (hrows : RowsFor M row 0 history pending draft) :
    ∃ n ≤ draft.length,
      (if c.choosesOnTheHost then hostAccept M row 0 draft c
        else (deviceAccept M row 0 draft, c)) = decideChain M (n + 1) history pending c ∧
      (decideChain M (n + 1) history pending c).1.dropLast = draft.take n := by
  by_cases hhost : c.choosesOnTheHost = true
  · obtain ⟨n, hn, hchain, hdraft⟩ := hostAccept_chain draft 0 history pending c hhost hrows
    exact ⟨n, hn, by rw [if_pos hhost, hchain], by rw [← hchain, hdraft]⟩
  · rw [Bool.not_eq_true] at hhost
    obtain ⟨n, hn, hchain, hdraft⟩ := deviceAccept_chain hhost draft 0 history pending hrows
    refine ⟨n, hn, ?_, by rw [← hchain, hdraft]⟩
    rw [hhost, if_neg Bool.false_ne_true, hchain]

end Acceptance

theorem tokens_map_pair (id : RequestId) (ts : List Token) (l : StepLog)
    (h : l.generated = ts.map (id, ·)) : l.tokens id = ts := by
  simp [StepLog.tokens, h, List.filter_map, Function.comp_def]

theorem verifyIds_take {window k : ℕ} {last : Token} {draft : List Token}
    (hk : k ≤ draft.length) (hwindow : draft.length ≤ window - 1) :
    (verifyIds window last draft).take (k + 1) = last :: draft.take k := by
  rw [verifyIds, List.take_succ_cons, List.cons.injEq]
  refine ⟨rfl, List.ext_getElem? fun i => ?_⟩
  rw [List.getElem?_take, List.getElem?_take, List.getElem?_map]
  by_cases hi : i < k
  · have hlt : i < draft.length := lt_of_lt_of_le hi hk
    have hrange : i < window - 1 := lt_of_lt_of_le hlt hwindow
    rw [if_pos hi, if_pos hi, List.getElem?_range hrange, Option.map_some,
      List.getElem?_eq_getElem hlt, Option.getD_some]
  · rw [if_neg hi, if_neg hi]

/-! ### One sequence -/

/-- Plain decode and the runtime's sequence are at the same point, with these
tokens emitted. -/
structure Follows (d : Decoding κ σ) (seq : RuntimeSequence κ σ) (output : List Token) : Prop where
  history : d.history = seq.history
  pending : seq.nextToken = some d.pending
  emitted : d.emitted = seq.emitted
  output : d.output = output
  choice : ¬seq.finished → d.choice = seq.choice

theorem Follows.not_spent {d : Decoding κ σ} {seq : RuntimeSequence κ σ} {output : List Token}
    (h : Follows d seq output) (hopen : ¬seq.finished) : ¬d.Spent seq.maxOutput := by
  rw [Decoding.Spent, h.emitted]
  exact hopen

section Sequence

variable {M : Target Row κ σ} {cfg : RuntimeConfig} {io : StepOracle} {id : RequestId}

/-- One token of the round-gated path is one plain step. -/
theorem decodeToken_follows {d : Decoding κ σ} {seq seq' : RuntimeSequence κ σ}
    {output : List Token} {round : ℕ} {log : StepLog} {active : Bool}
    (h : Follows d seq output) (hopen : ¬seq.finished)
    (hok : decodeToken M cfg io round id seq = .ok ((seq', active), log)) :
    Follows (plainStep M cfg.eosToken seq.maxOutput d) seq' (output ++ log.tokens id) ∧
      seq'.maxOutput = seq.maxOutput ∧ (active = true → ¬seq'.finished) := by
  have hdecided : d.choice.decideRow M (M.logits (d.history ++ [.token d.pending]))
      = seq.choice.decideRow M (M.logits (seq.history ++ [.token d.pending])) := by
    rw [h.history, h.choice hopen]
  rw [decodeToken, h.pending] at hok
  simp only at hok
  by_cases heos : cfg.eosToken
      = some (seq.choice.decideRow M (M.logits (seq.history ++ [.token d.pending]))).1
  · rw [if_pos heos] at hok
    simp only [Except.ok.injEq, Prod.mk.injEq] at hok
    obtain ⟨⟨rfl, rfl⟩, rfl⟩ := hok
    rw [plainStep_of_eos hdecided heos]
    refine ⟨⟨?_, rfl, ?_, ?_, fun hopen' => ?_⟩, retain_maxOutput .., fun hact => by cases hact⟩
    · simp only [retain_history, h.history]
    · simp only [retain_maxOutput]
    · simp only [h.output, StepLog.tokens, List.filter_nil, List.map_nil, List.append_nil]
    · exact absurd (le_refl _) hopen'
  · rw [if_neg heos] at hok
    simp only [Except.ok.injEq, Prod.mk.injEq] at hok
    obtain ⟨⟨rfl, rfl⟩, rfl⟩ := hok
    rw [plainStep_of_token hdecided heos]
    refine ⟨⟨?_, rfl, ?_, ?_, fun _ => ?_⟩, retain_maxOutput .., fun hact => ?_⟩
    · simp only [retain_history, h.history]
    · simp only [retain_emitted, h.emitted]
    · simp only [h.output, StepLog.tokens, decide_true, List.filter_cons_of_pos, List.filter_nil,
        List.map_cons, List.map_nil]
    · simp only [retain_choice]
    · rw [Bool.and_eq_true, decide_eq_true_iff] at hact
      exact Nat.not_le.mpr hact.1

/-- A verify window is a plain run of as many steps as it emits tokens. -/
theorem verifySequence_follows {d : Decoding κ σ} {seq seq' : RuntimeSequence κ σ}
    {output : List Token} {log : StepLog} (h : Follows d seq output) (hopen : ¬seq.finished)
    (hwindow : seq.draft.length ≤ cfg.window - 1)
    (hbudget : seq.emitted + (seq.draft.length + 1) ≤ seq.maxOutput)
    (hok : verifySequence M cfg io id seq = .ok (seq', log)) :
    ∃ k, Follows (plainRun M cfg.eosToken seq.maxOutput (k + 1) d) seq'
        (output ++ log.tokens id) ∧ seq'.maxOutput = seq.maxOutput := by
  rw [verifySequence, h.pending] at hok
  simp only at hok
  have hrows : RowsFor M (fun j => M.logits (seq.history
      ++ ((verifyIds cfg.window d.pending seq.draft).take (j + 1)).map Input.token)) 0
      seq.history d.pending seq.draft := by
    intro i hi
    simp only [Nat.zero_add]
    rw [verifyIds_take hi hwindow]
  -- what the target accepts of the window, and what it decides behind it
  obtain ⟨n, hn, haccept, hdraft⟩ := acceptance hrows
  rw [haccept] at hok
  have hchoice := h.choice hopen
  set chain := decideChain M (n + 1) seq.history d.pending seq.choice with hchain
  have hlength : chain.1.length = n + 1 := decideChain_length _ _ _ _
  rcases hcut : truncateAtEos cfg.eosToken chain.1 with ⟨emit, hit⟩
  -- the end token cuts the emission, but leaves a token
  have hne : emit ≠ [] := by
    have hcut_ne := truncateAtEos_ne_nil cfg.eosToken (List.length_pos_iff.mp
      (show 0 < chain.1.length by omega))
    rwa [hcut] at hcut_ne
  have hpre : emit <+: chain.1 := by
    have hcut_pre := truncateAtEos_prefix cfg.eosToken chain.1
    rwa [hcut] at hcut_pre
  have hle : emit.length ≤ n + 1 := hlength ▸ hpre.length_le
  -- the steps of the plain run are the tokens emitted
  obtain ⟨k, hk⟩ : ∃ k, emit.length = k + 1 :=
    ⟨emit.length - 1, by have := List.length_pos_iff.mpr hne; omega⟩
  -- what was fed of the window is what plain decode fed
  have hfed : (verifyIds cfg.window d.pending seq.draft).take emit.length
      = (d.pending :: emit).take emit.length := by
    rw [hk, verifyIds_take (by omega) hwindow, List.take_succ_cons]
    have hemit : emit.take k = chain.1.take k := by
      obtain ⟨rest, hrest⟩ := hpre
      rw [← hrest, List.take_append_of_le_length (by omega)]
    have hdrop : chain.1.take n = seq.draft.take n := by
      rw [← hdraft, List.dropLast_eq_take, hlength, Nat.add_sub_cancel]
    have hcommon : chain.1.take k = seq.draft.take k := by
      have hk' : k = min k n := by omega
      rw [hk', ← List.take_take, ← List.take_take, hdrop]
    rw [hemit, hcommon]
  obtain ⟨hhist, hpend, hemit, hout, hch⟩ := plainRun_chain (n + 1) d emit hit
    (show d.emitted + (n + 1) ≤ seq.maxOutput by rw [h.emitted]; omega)
    (show truncateAtEos cfg.eosToken _ = _ by rw [h.history, hchoice]; exact hcut)
  rw [hcut] at hok
  simp only [Except.ok.injEq, Prod.mk.injEq] at hok
  obtain ⟨rfl, rfl⟩ := hok
  obtain ⟨last, hlast⟩ : ∃ last, emit.getLast? = some last :=
    ⟨_, List.getLast?_eq_some_getLast hne⟩
  refine ⟨k, ⟨?_, ?_, ?_, ?_, ?_⟩, retain_maxOutput ..⟩
  · rw [← hk, hhist, h.history, ← hfed]
    simp only [retain_history]
  · rw [← hk, hpend, hlast]
    simp only [retain_nextToken, Option.getD_some]
  · rw [← hk, hemit, h.emitted]
    simp only [retain_maxOutput, retain_emitted]
    by_cases hhit : hit = true
    · rw [if_pos hhit, if_pos hhit]
    · rw [if_neg hhit, if_neg hhit, if_neg hhit]
  · rw [← hk, hout, h.output]
    rw [tokens_map_pair id (if hit then emit.dropLast else emit) _ rfl]
  · intro hopen'
    have hhit : hit = false := by
      by_contra hhit
      rw [Bool.not_eq_false] at hhit
      exact hopen' (by simp [RuntimeSequence.finished, hhit])
    rw [← hk, hch hhit]
    simp only [retain_choice]
    rw [hchain, h.history, hchoice]

/-- Any number of tokens of the round-gated path is as many plain steps. -/
theorem decodeAlone_follows :
    ∀ {fuel round : ℕ} {seq : RuntimeSequence κ σ} {r : Rounded κ σ} {log : StepLog}
      {d : Decoding κ σ} {output : List Token}, Follows d seq output → ¬seq.finished →
      decodeAlone M cfg io id (fuel + 1) round (seq, true) = .ok (r, log) →
      ∃ k, Follows (plainRun M cfg.eosToken seq.maxOutput (k + 1) d) r.1
          (output ++ log.tokens id) ∧ r.1.maxOutput = seq.maxOutput := by
  intro fuel
  induction fuel with
  | zero =>
    intro round seq r log d output h hopen hok
    rw [decodeAlone] at hok
    simp only [decodeActive, if_true] at hok
    -- a single token is a single step
    rcases htoken : decodeToken M cfg io round id seq with e | ⟨⟨seq₁, active⟩, log₁⟩
    · rw [htoken] at hok
      cases hok
    · rw [htoken] at hok
      simp only [decodeAlone, StepLog.append_empty, Except.ok.injEq, Prod.mk.injEq] at hok
      obtain ⟨rfl, rfl⟩ := hok
      obtain ⟨hfollows, hmax, -⟩ := decodeToken_follows h hopen htoken
      exact ⟨0, by rw [plainRun_one (h.not_spent hopen)]; exact hfollows, hmax⟩
  | succ fuel ih =>
    intro round seq r log d output h hopen hok
    rw [decodeAlone] at hok
    simp only [decodeActive, if_true] at hok
    rcases htoken : decodeToken M cfg io round id seq with e | ⟨⟨seq₁, active⟩, log₁⟩
    · rw [htoken] at hok
      cases hok
    · rw [htoken] at hok
      simp only at hok
      obtain ⟨hfollows, hmax, hact⟩ := decodeToken_follows h hopen htoken
      rcases hrest : decodeAlone M cfg io id (fuel + 1) (round + 1) (seq₁, active)
        with e | ⟨r₂, log₂⟩
      · rw [hrest] at hok
        cases hok
      · rw [hrest] at hok
        simp only [Except.ok.injEq, Prod.mk.injEq] at hok
        obtain ⟨rfl, rfl⟩ := hok
        cases active with
        -- it was the last one: the end token, or the budget
        | false =>
          rw [decodeAlone_inactive] at hrest
          simp only [Except.ok.injEq, Prod.mk.injEq] at hrest
          obtain ⟨rfl, rfl⟩ := hrest
          rw [StepLog.append_empty]
          exact ⟨0, by rw [plainRun_one (h.not_spent hopen)]; exact hfollows, hmax⟩
        | true =>
          -- the tokens behind it are the plain steps behind this one
          obtain ⟨k, hk, hmax'⟩ := ih hfollows (hact rfl) hrest
          refine ⟨k + 1, ?_, hmax'.trans hmax⟩
          rw [StepLog.tokens_append, ← List.append_assoc, Nat.add_comm,
            plainRun_add, plainRun_one (h.not_spent hopen)]
          rw [hmax] at hk
          exact hk

/-- A draft is the start of what was proposed, within the output budget. -/
theorem withDraft_within (seq : RuntimeSequence κ σ) (proposal : List Token) :
    (seq.withDraft cfg proposal).draft <+: proposal.take (seq.maxOutput - (seq.emitted + 1)) := by
  rw [RuntimeSequence.withDraft]
  simp only
  split_ifs
  · exact List.nil_prefix
  · exact List.take_prefix _ _
  · exact List.nil_prefix
  · exact List.prefix_rfl

/-- A draft leaves room for the token after it. -/
theorem withDraft_budget {seq : RuntimeSequence κ σ} {proposal : List Token}
    (hopen : ¬seq.finished) :
    seq.emitted + ((seq.withDraft cfg proposal).draft.length + 1) ≤ seq.maxOutput := by
  have hle := (@withDraft_within _ _ cfg seq proposal).length_le
  rw [List.length_take] at hle
  rw [RuntimeSequence.finished] at hopen
  omega

theorem withDraft_length_le {seq : RuntimeSequence κ σ} {proposal : List Token} :
    (seq.withDraft cfg proposal).draft.length ≤ proposal.length :=
  ((withDraft_within seq proposal).trans (List.take_prefix _ _)).length_le

theorem Follows.withDraft {d : Decoding κ σ} {seq : RuntimeSequence κ σ} {output : List Token}
    (h : Follows d seq output) (proposal : List Token) :
    Follows d (seq.withDraft cfg proposal) output :=
  ⟨h.history, h.pending, h.emitted, h.output, h.choice⟩

/-- A sequence's share of a step is at least one plain step. -/
theorem DecodeShare.follows {d : Decoding κ σ} {seq seq' : RuntimeSequence κ σ}
    {output : List Token} {log : StepLog} (h : Follows d seq output) (hopen : ¬seq.finished)
    (hwindow : (io.proposals id).length ≤ cfg.window - 1)
    (hshare : DecodeShare M cfg io id (seq.withDraft cfg (io.proposals id)) seq' log) :
    ∃ k, Follows (plainRun M cfg.eosToken seq.maxOutput (k + 1) d) seq'
        (output ++ log.tokens id) ∧ seq'.maxOutput = seq.maxOutput := by
  have hdraft := @Follows.withDraft _ _ cfg _ _ _ h (io.proposals id)
  rcases hshare with hok | ⟨fuel, -, hok⟩
  · have hrun := verifySequence_follows hdraft hopen (le_trans withDraft_length_le hwindow)
      (withDraft_budget hopen) hok
    exact hrun
  · have hrun := decodeAlone_follows hdraft hopen hok
    exact hrun

end Sequence

/-! ### Rounds -/

section Rounds

variable (M : Target Row κ σ) (cfg : RuntimeConfig)

/-- One round: some drafts within the window, and a batch of sequences that
have not finished. -/
structure DecodeRound (s : Sequences κ σ × StepLog) (round : StepOracle × List RequestId)
    (s' : Sequences κ σ × StepLog) : Prop where
  window : ∀ id, (round.1.proposals id).length ≤ cfg.window - 1
  unfinished : ∀ id ∈ round.2, ∀ seq, s.1.lookup id = some seq → ¬seq.finished
  executed : ∃ log, executeDecodes M cfg round.1 round.2 s.1 = .ok (s'.1, log) ∧
    s'.2 = s.2 ++ log

/-- How many of the rounds scheduled a request. -/
def roundsOf (id : RequestId) (rounds : List (StepOracle × List RequestId)) : ℕ :=
  rounds.countP (id ∈ ·.2)

/-- Where plain decode starts from a sequence. -/
def Decoding.start (seq : RuntimeSequence κ σ) (pending : Token) : Decoding κ σ where
  history := seq.history
  pending := pending
  choice := seq.choice
  emitted := seq.emitted
  output := []

variable {M cfg}

/-- After any rounds a sequence is where plain decode is after at least as
many steps as rounds scheduled it. -/
theorem rounds_follow {seqs₀ seqs : Sequences κ σ} {log : StepLog}
    {rounds : List (StepOracle × List RequestId)} {id : RequestId} {seq₀ : RuntimeSequence κ σ}
    {pending : Token} (hrun : Run (DecodeRound M cfg) (seqs₀, StepLog.empty) rounds (seqs, log))
    (hseq : seqs₀.lookup id = some seq₀) (hpending : seq₀.nextToken = some pending) :
    ∃ seq n, seqs.lookup id = some seq ∧ seq.maxOutput = seq₀.maxOutput ∧
      roundsOf id rounds ≤ n ∧
      Follows (plainRun M cfg.eosToken seq₀.maxOutput n (Decoding.start seq₀ pending)) seq
        (log.tokens id) := by
  generalize hend : (seqs, log) = s at hrun
  induction hrun generalizing seqs log with
  | nil =>
    cases hend
    exact ⟨seq₀, 0, hseq, rfl, Nat.zero_le _, rfl, hpending, rfl, rfl, fun _ => rfl⟩
  | @snoc rounds t u round _ hround ih =>
    subst hend
    obtain ⟨seq, n, hlook, hmax, hcount, hfollows⟩ := ih rfl
    obtain ⟨log', hexec, hlog⟩ := hround.executed
    obtain ⟨-, -, hscheduled, hothers⟩ := executeDecodes_spec hexec
    simp only at hlog
    subst hlog
    by_cases hid : id ∈ round.2
    · obtain ⟨seq', seq'', hlook', hlook'', hshare⟩ := hscheduled id hid
      obtain rfl : seq = seq' := Option.some.inj (hlook.symm.trans hlook')
      obtain ⟨k, hk, hmax'⟩ := hshare.follows hfollows (hround.unfinished id hid seq hlook)
        (hround.window id)
      refine ⟨seq'', n + (k + 1), hlook'', hmax'.trans hmax, ?_, ?_⟩
      · rw [roundsOf, List.countP_append, List.countP_singleton, ← roundsOf, decide_eq_true hid,
          if_pos rfl]
        omega
      · rw [plainRun_add, ← hmax, StepLog.tokens_append, ← StepLog.tokens_only (l := log')]
        rw [hmax] at hk ⊢
        exact hk
    · obtain ⟨hsame, hsilent⟩ := hothers id hid
      refine ⟨seq, n, hsame.trans hlook, hmax, ?_, ?_⟩
      · rw [roundsOf, List.countP_append, List.countP_singleton, ← roundsOf, decide_eq_false hid]
        exact hcount
      · rw [StepLog.tokens_append, ← StepLog.tokens_only (l := log'), hsilent,
          StepLog.tokens_empty, List.append_nil]
        exact hfollows

/-- Speculative decode is plain decode.  Whatever was drafted, a sequence has
consumed, emitted and counted what plain decode has after some number of
steps; it ends where plain decode ends, and it does end. -/
theorem speculation_is_plain {seqs₀ seqs : Sequences κ σ} {log : StepLog}
    {rounds : List (StepOracle × List RequestId)} {id : RequestId} {seq₀ : RuntimeSequence κ σ}
    {pending : Token} (hrun : Run (DecodeRound M cfg) (seqs₀, StepLog.empty) rounds (seqs, log))
    (hseq : seqs₀.lookup id = some seq₀) (hpending : seq₀.nextToken = some pending)
    (hopen : ¬seq₀.finished) :
    ∃ seq n, seqs.lookup id = some seq ∧
      (let plain := plainRun M cfg.eosToken seq₀.maxOutput n (Decoding.start seq₀ pending)
      (seq.history = plain.history ∧ seq.nextToken = some plain.pending ∧
        seq.emitted = plain.emitted ∧ log.tokens id = plain.output) ∧
      (seq.emitted ≤ seq₀.maxOutput ∧
        seq₀.emitted + (log.tokens id).length ≤ seq₀.maxOutput ∧
        ∀ t ∈ log.tokens id, cfg.eosToken ≠ some t) ∧
      (seq.finished → ∀ m,
        (plainRun M cfg.eosToken seq₀.maxOutput m (Decoding.start seq₀ pending)).Spent
          seq₀.maxOutput →
        plainRun M cfg.eosToken seq₀.maxOutput m (Decoding.start seq₀ pending) = plain) ∧
      (seq₀.maxOutput ≤ seq₀.emitted + roundsOf id rounds → seq.finished) ∧
      ∀ io, ∃ r, executeDecodes M cfg io [id] seqs = .ok r) := by
  obtain ⟨seq, n, hlook, hmax, hcount, hfollows⟩ := rounds_follow hrun hseq hpending
  refine ⟨seq, n, hlook, ?_⟩
  have hstart : (Decoding.start seq₀ pending).emitted ≤ seq₀.maxOutput :=
    Nat.le_of_lt (Nat.not_le.mp hopen)
  obtain ⟨hbudget, hemission⟩ := plainRun_emission hstart rfl rfl
  refine ⟨⟨hfollows.history.symm, hfollows.pending, hfollows.emitted.symm,
    hfollows.output.symm⟩, ⟨?_, ?_, ?_⟩, fun hfin m hm => ?_, fun hrounds => ?_, fun io => ?_⟩
  · rw [← hfollows.emitted]
    exact hbudget
  · rw [← hfollows.output]
    exact le_trans hemission hbudget
  · rw [← hfollows.output]
    exact plainRun_eos rfl n
  · refine runUntil_unique hm ?_
    rw [RuntimeSequence.finished, hmax, ← hfollows.emitted] at hfin
    exact hfin
  · rw [RuntimeSequence.finished, hmax, ← hfollows.emitted]
    exact plainRun_progress n _ (le_trans hrounds (Nat.add_le_add_left hcount _))
  · refine executeDecodes_ok (List.nodup_singleton id) cfg.maxBatch_pos fun id' hid' => ?_
    rw [List.mem_singleton.mp hid']
    exact ⟨seq, hlook, by rw [hfollows.pending]; rfl⟩

end Rounds

/-! ### A round that accepts half of its draft -/

/-- A target that predicts how many tokens it has seen. -/
def tallyTarget : Target ℕ Unit Unit where
  logits history := history.length
  argmaxDevice n := n
  argmax n := n
  sample _ n := (n, ())
  mask _ n := n
  observe _ _ := ()
  isMasking _ := false

/-- A window of three, the end token 9. -/
def tallyConfig : RuntimeConfig where
  window := 3
  verifyBuilt _ := true
  draftHead := false
  draftNMin := 0
  retentionInterval := 4
  prefillChunk := 8
  tailWidths := []
  maxBatch := 2
  vocab := 100
  eosToken := some 9
  prefillChunk_pos := by decide
  maxBatch_pos := by decide
  tailWidths_pos := by simp

/-- Its prompt is done and its first token pending. -/
def tallySequence : RuntimeSequence Unit Unit where
  history := [.token 7]
  capacity := 8
  prompt := [7]
  prefilled := 1
  nextToken := some 1
  drafting := false
  draft := []
  emitted := 0
  maxOutput := 6
  lastSnapshotPosition := 0
  lastSnapshot := none
  retentionDisabled := false
  choice := ⟨none, none⟩
  images := []

/-- Both tokens of the window are drafted, the second one wrongly. -/
def tallyRound : StepOracle × List RequestId := (⟨fun _ => [2, 8], fun _ _ => true⟩, [0])

theorem speculation_witness : ∃ seqs log n,
    Run (DecodeRound tallyTarget tallyConfig) (AList.insert 0 tallySequence ∅, StepLog.empty)
        [tallyRound] (seqs, log) ∧
      log.tokens 0 = [2, 3] ∧
      log.tokens 0 = (plainRun tallyTarget (some 9) 6 n (Decoding.start tallySequence 1)).output := by
  obtain ⟨seqs, log, hexec, htokens⟩ : ∃ seqs log,
      executeDecodes tallyTarget tallyConfig tallyRound.1 tallyRound.2
        (AList.insert 0 tallySequence ∅) = .ok (seqs, log) ∧ log.tokens 0 = [2, 3] :=
    ⟨_, _, rfl, by decide⟩
  have hrun : Run (DecodeRound tallyTarget tallyConfig)
      (AList.insert 0 tallySequence ∅, StepLog.empty) [tallyRound] (seqs, log) := by
    refine Run.single ⟨fun _ => le_rfl, fun id hid seq hseq => ?_, log, hexec, ?_⟩
    · cases List.mem_singleton.mp hid
      cases hseq
      decide
    · exact StepLog.empty_append.symm
  have hseq : (AList.insert 0 tallySequence ∅ : Sequences Unit Unit).lookup 0
      = some tallySequence := rfl
  obtain ⟨seq, n, -, ⟨-, -, -, houtput⟩, -⟩ := speculation_is_plain hrun hseq rfl (by decide)
  exact ⟨seqs, log, n, hrun, htokens, houtput⟩
