/-
What a sampled request draws from its random stream.

`Target.counting` gives every sampler a counter of its draws.  A sequence draws
once for every token it decides; `Counted` is that invariant of decode.
-/
import Llmxabe.Runtime.Retention

variable {Row κ σ : Type}

/-! ### Counting draws -/

/-- The same target, with every draw of a sampler counted. -/
def Target.counting (M : Target Row κ σ) : Target Row κ (σ × ℕ) where
  logits := M.logits
  argmaxDevice := M.argmaxDevice
  argmax := M.argmax
  sample s row := ((M.sample s.1 row).1, (M.sample s.1 row).2, s.2 + 1)
  mask := M.mask
  observe := M.observe
  isMasking := M.isMasking

/-- The choice samples, and has drawn `n` times. -/
def Choice.Drew (c : Choice κ (σ × ℕ)) (n : ℕ) : Prop := ∃ s, c.sampler = some (s, n)

/-- How often the choice has drawn, if it samples. -/
def Choice.draws (c : Choice κ (σ × ℕ)) : Option ℕ := c.sampler.map (·.2)

section Counting

variable {M : Target Row κ σ} {c : Choice κ (σ × ℕ)} {n : ℕ}

theorem Choice.Drew.observe (h : c.Drew n) (t : Token) : (c.observe M.counting t).Drew n := h

theorem Choice.Drew.choose (h : c.Drew n) (row : Row) : (c.choose M.counting row).2.Drew (n + 1) := by
  obtain ⟨s, hs⟩ := h
  rw [Choice.choose]
  simp only [hs]
  exact ⟨_, rfl⟩

theorem Choice.Drew.drawPrefill (h : c.Drew n) (row : Row) :
    (c.drawPrefill M.counting row).2.Drew (n + 1) := by
  obtain ⟨s, hs⟩ := h
  rw [Choice.drawPrefill, hs]
  exact ⟨_, rfl⟩

theorem Choice.Drew.choosesOnTheHost (h : c.Drew n) : c.choosesOnTheHost = true := by
  obtain ⟨s, hs⟩ := h
  rw [Choice.choosesOnTheHost, hs]
  rfl

theorem Choice.Drew.decideRow (h : c.Drew n) (row : Row) :
    (c.decideRow M.counting row).2.Drew (n + 1) := by
  rw [Choice.decideRow, if_pos h.choosesOnTheHost]
  exact (h.choose row).observe _

theorem Choice.Drew.draws (h : c.Drew n) : c.draws = some n := by
  obtain ⟨s, hs⟩ := h
  rw [Choice.draws, hs]
  rfl

/-- A window draws once for every token it accepts. -/
theorem hostAccept_drew {row : ℕ → Row} :
    ∀ (draft : List Token) (j n : ℕ) (c : Choice κ (σ × ℕ)), c.Drew n →
      (hostAccept M.counting row j draft c).2.Drew
        (n + (hostAccept M.counting row j draft c).1.length) := by
  intro draft
  induction draft with
  | nil => exact fun j n c h => (h.choose _).observe _
  | cons drafted draft ih =>
    intro j n c h
    have hone : ((c.choose M.counting (row j)).2.observe M.counting
        (c.choose M.counting (row j)).1).Drew (n + 1) := (h.choose _).observe _
    rw [hostAccept]
    simp only
    split
    · exact hone
    · have hrest := ih (j + 1) (n + 1) _ hone
      simp only [List.length_cons]
      rw [← Nat.add_assoc n _ 1, Nat.add_right_comm n _ 1]
      exact hrest

/-- All a window accepts but the last token is the draft's. -/
theorem hostAccept_dropLast {M : Target Row κ σ} {row : ℕ → Row} :
    ∀ (draft : List Token) (j : ℕ) (c : Choice κ σ),
      (hostAccept M row j draft c).1 ≠ [] ∧
        ∀ t ∈ (hostAccept M row j draft c).1.dropLast, t ∈ draft := by
  intro draft
  induction draft with
  | nil => exact fun j c => ⟨List.cons_ne_nil _ _, fun t ht => ht⟩
  | cons drafted draft ih =>
    intro j c
    rw [hostAccept]
    simp only
    split
    · exact ⟨List.cons_ne_nil _ _, fun t ht => absurd ht List.not_mem_nil⟩
    · rename_i hgo
      have htoken : (c.choose M (row j)).1 = drafted := by
        by_contra hne
        exact hgo (Or.inl hne)
      obtain ⟨hne, hdraft⟩ := ih (j + 1)
        ((c.choose M (row j)).2.observe M (c.choose M (row j)).1)
      refine ⟨List.cons_ne_nil _ _, fun t ht => ?_⟩
      rw [List.dropLast_cons_of_ne_nil hne] at ht
      rcases List.mem_cons.mp ht with rfl | ht
      · exact htoken ▸ List.mem_cons_self
      · exact List.mem_cons_of_mem _ (hdraft t ht)

/-- Tokens that hold an end-of-turn at most at their end lose nothing. -/
theorem truncateAtEos_of_dropLast {eos : Option Token} :
    ∀ {ts : List Token}, ts ≠ [] → (∀ t ∈ ts.dropLast, eos ≠ some t) →
      truncateAtEos eos ts = (ts, decide (eos = ts.getLast?)) := by
  intro ts
  induction ts with
  | nil => exact fun h => absurd rfl h
  | cons t ts ih =>
    intro _ hfree
    rw [truncateAtEos_cons]
    by_cases hts : ts = []
    · subst hts
      by_cases heos : eos = some t
      · simp [heos]
      · simp [heos, truncateAtEos_nil]
    · rw [List.dropLast_cons_of_ne_nil hts] at hfree
      rw [if_neg (hfree t List.mem_cons_self), ih hts fun u hu => hfree u (List.mem_cons_of_mem _ hu),
        List.getLast?_cons, List.getLast?_eq_some_getLast hts]
      rfl

end Counting

/-! ### Decode draws once a token -/

/-- A sequence with `first` draws behind its first token has drawn every later
token, and the end-of-turn that stopped it, once. -/
structure Counted (first : ℕ) (seq : RuntimeSequence κ (σ × ℕ)) (tokens : List Token) : Prop where
  drew : ∃ n, seq.choice.Drew n ∧ n + 1 = tokens.length
    + (if seq.finished ∧ tokens.length < seq.maxOutput then 1 else 0) + first
  length_le : tokens.length ≤ seq.maxOutput
  emitted : ¬seq.finished → seq.emitted = tokens.length

section Decode

variable {M : Target Row κ σ} {cfg : RuntimeConfig} {io : StepOracle} {id : RequestId}
  {first : ℕ} {seq : RuntimeSequence κ (σ × ℕ)} {tokens : List Token}

theorem Counted.open_drew (h : Counted first seq tokens) (hopen : ¬seq.finished) :
    ∃ n, seq.choice.Drew n ∧ n + 1 = tokens.length + first ∧ seq.emitted = tokens.length := by
  obtain ⟨n, hdrew, hn⟩ := h.drew
  rw [if_neg fun hfin => hopen hfin.1] at hn
  exact ⟨n, hdrew, hn, h.emitted hopen⟩

/-- Tokens that have all been drawn and counted. -/
theorem Counted.emit {n : ℕ} (hdrew : seq.choice.Drew n) (hn : n + 1 = tokens.length + first)
    (hle : tokens.length ≤ seq.maxOutput) (hemitted : seq.emitted = tokens.length) :
    Counted first seq tokens := by
  refine ⟨⟨n, hdrew, ?_⟩, hle, fun _ => hemitted⟩
  have hnot : ¬(seq.finished ∧ tokens.length < seq.maxOutput) := by
    rintro ⟨hfin, hlt⟩
    rw [RuntimeSequence.finished, hemitted] at hfin
    omega
  rw [if_neg hnot]
  exact hn

/-- An end-of-turn that has been drawn and not emitted. -/
theorem Counted.stop {n : ℕ} (hdrew : seq.choice.Drew n) (hn : n = tokens.length + first)
    (hlt : tokens.length < seq.maxOutput) (hemitted : seq.emitted = seq.maxOutput) :
    Counted first seq tokens := by
  have hfin : seq.finished := hemitted.ge
  refine ⟨⟨n, hdrew, ?_⟩, hlt.le, fun hopen => absurd hfin hopen⟩
  rw [if_pos ⟨hfin, hlt⟩, hn, Nat.add_right_comm]

theorem decodeToken_counted {round : ℕ} {r : Rounded κ (σ × ℕ)} {log : StepLog}
    (h : Counted first seq tokens) (hopen : ¬seq.finished)
    (hok : decodeToken M.counting cfg io round id seq = .ok (r, log)) :
    Counted first r.1 (tokens ++ log.tokens id) ∧ (r.2 = true → ¬r.1.finished) := by
  obtain ⟨n, hdrew, hn, hemitted⟩ := h.open_drew hopen
  rw [RuntimeSequence.finished, not_le, hemitted] at hopen
  rw [decodeToken] at hok
  split at hok
  · cases hok
  · rename_i input hinput
    simp only at hok
    have hdecided := @Choice.Drew.decideRow _ _ _ M _ _ hdrew
      (M.counting.logits (seq.history ++ [.token input]))
    split at hok
    · simp only [Except.ok.injEq, Prod.mk.injEq] at hok
      obtain ⟨rfl, rfl⟩ := hok
      rw [tokens_map_pair id [] _ rfl, List.append_nil]
      refine ⟨@Counted.stop _ _ _ _ _ (n + 1) ?_ hn ?_ rfl, fun hact => by cases hact⟩
      · simp only [retain_choice]
        exact hdecided
      · simp only [retain_maxOutput]
        exact hopen
    · simp only [Except.ok.injEq, Prod.mk.injEq] at hok
      obtain ⟨rfl, rfl⟩ := hok
      rw [tokens_map_pair id [(seq.choice.decideRow M.counting
        (M.counting.logits (seq.history ++ [.token input]))).1] _ rfl]
      refine ⟨@Counted.emit _ _ _ _ _ (n + 1) ?_ ?_ ?_ ?_, fun hact => ?_⟩
      · simp only [retain_choice]
        exact hdecided
      · rw [List.length_append, List.length_singleton]
        omega
      · rw [List.length_append]
        simp only [retain_maxOutput]
        exact hopen
      · rw [List.length_append]
        simp only [retain_emitted, hemitted]
        rfl
      · rw [Bool.and_eq_true, decide_eq_true_iff] at hact
        exact Nat.not_le.mpr hact.1

theorem decodeAlone_counted :
    ∀ {fuel round : ℕ} {seq r : Rounded κ (σ × ℕ)} {log : StepLog} {tokens : List Token},
      Counted first seq.1 tokens → (seq.2 = true → ¬seq.1.finished) →
      decodeAlone M.counting cfg io id fuel round seq = .ok (r, log) →
      Counted first r.1 (tokens ++ log.tokens id) := by
  intro fuel
  induction fuel with
  | zero =>
    intro round seq r log tokens h _ hok
    simp only [decodeAlone, Except.ok.injEq, Prod.mk.injEq] at hok
    obtain ⟨rfl, rfl⟩ := hok
    rw [StepLog.tokens_empty, List.append_nil]
    exact h
  | succ fuel ih =>
    intro round seq r log tokens h hopen hok
    rw [decodeAlone] at hok
    rcases hone : decodeActive M.counting cfg io round id seq with e | ⟨seq₁, log₁⟩
    · rw [hone] at hok
      cases hok
    · rw [hone] at hok
      simp only at hok
      rcases hrest : decodeAlone M.counting cfg io id fuel (round + 1) seq₁ with e | ⟨seq₂, log₂⟩
      · rw [hrest] at hok
        cases hok
      · rw [hrest] at hok
        simp only [Except.ok.injEq, Prod.mk.injEq] at hok
        obtain ⟨rfl, rfl⟩ := hok
        have hfirst : Counted first seq₁.1 (tokens ++ log₁.tokens id) ∧
            (seq₁.2 = true → ¬seq₁.1.finished) := by
          rw [decodeActive] at hone
          split at hone
          · rename_i hactive
            exact decodeToken_counted h (hopen hactive) hone
          · simp only [Except.ok.injEq, Prod.mk.injEq] at hone
            obtain ⟨rfl, rfl⟩ := hone
            rw [StepLog.tokens_empty, List.append_nil]
            exact ⟨h, hopen⟩
        rw [StepLog.tokens_append, ← List.append_assoc]
        exact ih hfirst.1 hfirst.2 hrest

/-- A window whose draft holds no end-of-turn draws nothing past one. -/
theorem verifySequence_counted {seq' : RuntimeSequence κ (σ × ℕ)} {log : StepLog}
    (h : Counted first seq tokens) (hopen : ¬seq.finished)
    (hbudget : seq.emitted + (seq.draft.length + 1) ≤ seq.maxOutput)
    (hfree : ∀ t ∈ seq.draft, cfg.eosToken ≠ some t)
    (hok : verifySequence M.counting cfg io id seq = .ok (seq', log)) :
    Counted first seq' (tokens ++ log.tokens id) := by
  obtain ⟨n, hdrew, hn, hemitted⟩ := h.open_drew hopen
  rw [verifySequence] at hok
  split at hok
  · cases hok
  · rename_i last hlast
    simp only [if_pos hdrew.choosesOnTheHost] at hok
    set row := fun j => M.counting.logits
      (seq.history ++ ((verifyIds cfg.window last seq.draft).take (j + 1)).map Input.token)
      with hrow
    set accepted := hostAccept M.counting row 0 seq.draft seq.choice with haccepted
    obtain ⟨hne, hdraft⟩ : accepted.1 ≠ [] ∧ ∀ t ∈ accepted.1.dropLast, t ∈ seq.draft :=
      hostAccept_dropLast seq.draft 0 seq.choice
    have hdrawn : accepted.2.Drew (n + accepted.1.length) :=
      hostAccept_drew seq.draft 0 n seq.choice hdrew
    have hlength : accepted.1.length ≤ seq.draft.length + 1 := hostAccept_length seq.draft 0 seq.choice
    have hpos : 0 < accepted.1.length := List.length_pos_iff.mpr hne
    rw [truncateAtEos_of_dropLast hne fun t ht => hfree t (hdraft t ht)] at hok
    simp only [Except.ok.injEq, Prod.mk.injEq] at hok
    obtain ⟨rfl, rfl⟩ := hok
    by_cases hhit : cfg.eosToken = accepted.1.getLast?
    · rw [tokens_map_pair id accepted.1.dropLast _ (by simp [hhit])]
      refine @Counted.stop _ _ _ _ _ (n + accepted.1.length) ?_ ?_ ?_ ?_
      · simp only [retain_choice]
        exact hdrawn
      · rw [List.length_append, List.length_dropLast]
        omega
      · simp only [retain_maxOutput]
        rw [List.length_append, List.length_dropLast]
        omega
      · simp only [hhit, decide_true, if_true]
    · rw [tokens_map_pair id accepted.1 _ (by simp [hhit])]
      refine @Counted.emit _ _ _ _ _ (n + accepted.1.length) ?_ ?_ ?_ ?_
      · simp only [retain_choice]
        exact hdrawn
      · rw [List.length_append]
        omega
      · simp only [retain_maxOutput]
        rw [List.length_append]
        omega
      · simp only [hhit, decide_false, Bool.false_eq_true, if_false, retain_emitted]
        rw [List.length_append, hemitted]

theorem DecodeShare.counted {seq' : RuntimeSequence κ (σ × ℕ)} {log : StepLog}
    (h : Counted first seq tokens) (hopen : ¬seq.finished)
    (hfree : ∀ t ∈ io.proposals id, cfg.eosToken ≠ some t)
    (hshare : DecodeShare M.counting cfg io id (seq.withDraft cfg (io.proposals id)) seq' log) :
    Counted first seq' (tokens ++ log.tokens id) := by
  have hdrafted : Counted first (seq.withDraft cfg (io.proposals id)) tokens :=
    ⟨h.drew, h.length_le, h.emitted⟩
  rcases hshare with hok | ⟨fuel, -, hok⟩
  · refine verifySequence_counted hdrafted hopen (withDraft_budget hopen) (fun t ht => ?_) hok
    have hproposed := (withDraft_within seq (io.proposals id)).subset ht
    exact hfree t (List.mem_of_mem_take hproposed)
  · exact decodeAlone_counted (r := ((seq', false) : Rounded κ (σ × ℕ))) hdrafted (fun _ => hopen) hok

end Decode

/-! ### Prefill draws at the end of the prompt -/

/-- What a request has consumed once it is `n` tokens into its prompt. -/
def PendingSequence.consumed (p : PendingSequence κ σ) (n : ℕ) : List Input :=
  (p.snapshot.map (·.history)).getD []
    ++ inputsFrom p.images p.restored ((p.prompt.drop p.restored).take (n - p.restored))

/-- The arena grants every checkout at a boundary before `n`. -/
def CheckedOut (cfg : RuntimeConfig) (p : PendingSequence κ σ) (arena : ℕ → Bool) (n : ℕ) : Prop :=
  ∀ b, p.restored < b → b < n → cfg.retentionInterval ∣ b → arena b = true

/-- The prompt ends at a boundary, and retention is still enabled there. -/
def EndsAtBoundary (cfg : RuntimeConfig) (p : PendingSequence κ σ) (arena : ℕ → Bool) : Prop :=
  0 < cfg.retentionInterval ∧ cfg.retentionInterval ∣ p.prompt.length ∧
    CheckedOut cfg p arena p.prompt.length

/-- The checkout at the prompt's own end fails. -/
def DrawsTwice (cfg : RuntimeConfig) (p : PendingSequence κ σ) (arena : ℕ → Bool) : Prop :=
  p.restored < p.prompt.length ∧ EndsAtBoundary cfg p arena ∧ arena p.prompt.length = false

/-- Between its first prefill and the end of its prompt. -/
structure Computed (cfg : RuntimeConfig) (p : PendingSequence κ σ) (arena : ℕ → Bool)
    (seq : RuntimeSequence κ σ) : Prop where
  prompt : seq.prompt = p.prompt
  images : seq.images = p.images
  history : seq.history = p.consumed seq.position
  restored_le : p.restored ≤ seq.position
  position_le : seq.position ≤ p.prompt.length
  last_le : seq.lastSnapshotPosition ≤ seq.position
  enabled : seq.retentionDisabled = false ↔ CheckedOut cfg p arena (seq.position + 1)

section Prompt

variable {M : Target Row κ σ} {cfg : RuntimeConfig} {p : PendingSequence κ σ} {arena : ℕ → Bool}
  {seq : RuntimeSequence κ σ}

theorem PendingSequence.consumed_add {n width : ℕ} (hrestored : p.restored ≤ n)
    (hle : n ≤ p.prompt.length) :
    p.consumed (n + width)
      = p.consumed n ++ inputsFrom p.images n ((p.prompt.drop n).take width) := by
  have hlength : ((p.prompt.drop p.restored).take (n - p.restored)).length = n - p.restored := by
    rw [List.length_take, List.length_drop]
    omega
  rw [consumed, consumed, List.append_assoc, Nat.sub_add_comm hrestored, List.take_add,
    inputsFrom_append, hlength, List.drop_drop, Nat.add_sub_cancel' hrestored]

/-- A checkout either moves the newest snapshot up or ends retention. -/
theorem retain_checkout (seq : RuntimeSequence κ σ) (granted : Bool) (next : Option Token)
    (hboundary : seq.atBoundary cfg) :
    (seq.retain cfg granted next).1.lastSnapshotPosition
        = (if granted then seq.position else seq.lastSnapshotPosition) ∧
      (seq.retain cfg granted next).1.retentionDisabled = !granted := by
  rw [RuntimeSequence.retain, if_pos hboundary]
  cases granted with
  | true => exact ⟨rfl, hboundary.2.1⟩
  | false => exact ⟨rfl, rfl⟩

/-- A piece that ends at a boundary checks out a snapshot, and draws there only
as the end of a sampled prompt. -/
theorem prefillPiece_cases {granted : Bool} {piece : List Token} :
    let fed := { seq with history := seq.history ++ inputsFrom seq.images seq.position piece }
    let done := (prefillPiece M cfg granted piece seq).1
    (¬fed.atBoundary cfg ∧ done = fed) ∨
      (fed.atBoundary cfg ∧
        done.lastSnapshotPosition = (if granted then fed.position else seq.lastSnapshotPosition) ∧
        done.retentionDisabled = (!granted) ∧
        (fed.position = seq.prompt.length ∧ seq.choice.sampler.isSome →
          done.choice = (seq.choice.drawPrefill M (M.logits fed.history)).2 ∧
          done.nextToken = some (seq.choice.drawPrefill M (M.logits fed.history)).1) ∧
        (¬(fed.position = seq.prompt.length ∧ seq.choice.sampler.isSome) →
          done.choice = seq.choice)) := by
  intro fed done
  by_cases hboundary : fed.atBoundary cfg
  · refine Or.inr ⟨hboundary, ?_⟩
    have hdone : done = (prefillPiece M cfg granted piece seq).1 := rfl
    rw [prefillPiece, if_pos hboundary] at hdone
    by_cases hdraw : fed.position = fed.prompt.length ∧ fed.choice.sampler.isSome
    · rw [if_pos hdraw] at hdone
      rw [hdone]
      obtain ⟨hlast, hdisabled⟩ := retain_checkout { fed with
        choice := (fed.choice.drawPrefill M (M.logits fed.history)).2
        nextToken := some (fed.choice.drawPrefill M (M.logits fed.history)).1 }
        granted none hboundary
      exact ⟨hlast, hdisabled, fun _ => ⟨retain_choice .., retain_nextToken ..⟩,
        fun hnot => absurd hdraw hnot⟩
    · rw [if_neg hdraw] at hdone
      rw [hdone]
      obtain ⟨hlast, hdisabled⟩ := retain_checkout { fed with
        nextToken := some (M.argmaxDevice (M.logits fed.history)) }
        granted (some (M.argmaxDevice (M.logits fed.history))) hboundary
      exact ⟨hlast, hdisabled, fun h => absurd h hdraw, fun _ => retain_choice ..⟩
  · refine Or.inl ⟨hboundary, ?_⟩
    show (prefillPiece M cfg granted piece seq).1 = fed
    rw [prefillPiece, if_neg hboundary]

theorem CheckedOut.mono {m n : ℕ} (h : CheckedOut cfg p arena n) (hle : m ≤ n) :
    CheckedOut cfg p arena m := fun b hb hlt hdvd => h b hb (lt_of_lt_of_le hlt hle) hdvd

/-- There is no boundary short of the next one. -/
theorem not_dvd_of_short {position b : ℕ} (hinterval : 0 < cfg.retentionInterval)
    (hlt : position < b) (hshort : b < position + cfg.toBoundary position) :
    ¬cfg.retentionInterval ∣ b := by
  have hboundary : cfg.toBoundary position
      = cfg.retentionInterval - position % cfg.retentionInterval :=
    if_neg (Nat.ne_of_gt hinterval)
  have hdiv := Nat.div_add_mod position cfg.retentionInterval
  have hmod := Nat.mod_lt position hinterval
  rintro ⟨k, rfl⟩
  rw [hboundary] at hshort
  have hlow : cfg.retentionInterval * (position / cfg.retentionInterval)
      < cfg.retentionInterval * k := lt_of_le_of_lt (by omega) hlt
  have hk := Nat.lt_of_mul_lt_mul_left hlow
  have hstep : cfg.retentionInterval * (position / cfg.retentionInterval + 1)
      ≤ cfg.retentionInterval * k := Nat.mul_le_mul_left _ hk
  rw [Nat.mul_succ] at hstep
  omega

/-- One piece of the prompt. -/
theorem prefillPiece_computed {width : ℕ} (h : Computed cfg p arena seq) (hpos : 0 < width)
    (hle : seq.position + width ≤ p.prompt.length)
    (hwidth : 0 < cfg.retentionInterval → width ≤ cfg.toBoundary seq.position) :
    let done := (prefillPiece M cfg (arena (seq.position + width))
      ((p.prompt.drop seq.position).take width) seq).1
    Computed cfg p arena done ∧ done.position = seq.position + width ∧
      (seq.position + width < p.prompt.length → done.choice = seq.choice) ∧
      (seq.position + width = p.prompt.length →
        (EndsAtBoundary cfg p arena ∧ seq.choice.sampler.isSome →
          done.choice = (seq.choice.drawPrefill M (M.logits (p.consumed p.prompt.length))).2 ∧
          done.nextToken
            = some (seq.choice.drawPrefill M (M.logits (p.consumed p.prompt.length))).1 ∧
          (done.position = done.lastSnapshotPosition ↔ arena p.prompt.length = true)) ∧
        (¬EndsAtBoundary cfg p arena → done.choice = seq.choice ∧
          done.position ≠ done.lastSnapshotPosition)) := by
  intro done
  set piece := (p.prompt.drop seq.position).take width with hpiece
  set fed := { seq with history := seq.history ++ inputsFrom seq.images seq.position piece }
    with hfed
  have hhistory : fed.history = p.consumed (seq.position + width) := by
    rw [PendingSequence.consumed_add h.restored_le h.position_le, ← h.history, ← h.images]
  have hposition : fed.position = seq.position + width := by
    show (seq.history ++ inputsFrom seq.images seq.position piece).length = _
    rw [List.length_append, inputsFrom_length, hpiece, List.length_take, List.length_drop]
    show seq.position + _ = _
    omega
  have hframe := @prefillPiece_framed _ _ _ M cfg (arena (seq.position + width)) piece seq
  have hdone : done.history = fed.history := prefillPiece_history
  have hdoneposition : done.position = seq.position + width := by
    rw [RuntimeSequence.position, hdone, ← hposition]
    rfl
  have hrestored := h.restored_le
  have hlast := h.last_le
  -- the piece itself ends at the only boundary it may touch
  have hshort : ∀ b, seq.position < b → b < seq.position + width →
      ¬cfg.retentionInterval ∣ b := by
    intro b hlt hb hdvd
    rcases Nat.eq_zero_or_pos cfg.retentionInterval with hzero | hinterval
    · rw [hzero, Nat.zero_dvd] at hdvd
      omega
    · have hreach := hwidth hinterval
      exact not_dvd_of_short hinterval hlt (by omega) hdvd
  have hbefore : seq.retentionDisabled = false ↔ CheckedOut cfg p arena (seq.position + width) := by
    rw [h.enabled]
    refine ⟨fun hout b hb hlt hdvd => ?_, fun hout => hout.mono (by omega)⟩
    by_cases hb' : seq.position < b
    · exact absurd hdvd (hshort b hb' hlt)
    · exact hout b hb (by omega) hdvd
  -- `atBoundary` asks the sequence; here it is said of the prompt and the arena
  have hboundary : fed.atBoundary cfg ↔ 0 < cfg.retentionInterval ∧
      cfg.retentionInterval ∣ seq.position + width ∧
      CheckedOut cfg p arena (seq.position + width) := by
    rw [← hbefore]
    constructor
    · rintro ⟨hinterval, henabled, -, hmod⟩
      rw [hposition] at hmod
      exact ⟨hinterval, Nat.dvd_of_mod_eq_zero hmod, henabled⟩
    · rintro ⟨hinterval, hdvd, henabled⟩
      refine ⟨hinterval, henabled, ?_, ?_⟩
      · rw [hposition]
        show seq.lastSnapshotPosition < _
        omega
      · rw [hposition]
        exact Nat.mod_eq_zero_of_dvd hdvd
  have hcases := @prefillPiece_cases _ _ _ M cfg seq (arena (seq.position + width)) piece
  rcases hcases with ⟨hnot, hsame⟩ | ⟨hat, hlast', hdisabled, hdraw, hkeep⟩
  -- the piece ends at no boundary, so nothing is drawn
  · have hsame : done = fed := hsame
    have hchoice : done.choice = seq.choice := by rw [hsame]
    have hlast' : done.lastSnapshotPosition = seq.lastSnapshotPosition := by rw [hsame]
    have hdisabled : done.retentionDisabled = seq.retentionDisabled := by rw [hsame]
    have hends : seq.position + width = p.prompt.length → ¬EndsAtBoundary cfg p arena := by
      rintro hend ⟨hinterval, hdvd, hout⟩
      rw [← hend] at hdvd hout
      exact hnot (hboundary.mpr ⟨hinterval, hdvd, hout⟩)
    refine ⟨⟨hframe.1.prompt.trans h.prompt, hframe.1.images.trans h.images, ?_, ?_, ?_, ?_, ?_⟩,
      hdoneposition, fun _ => hchoice, fun hend => ⟨fun hboth => absurd hboth.1 (hends hend),
        fun _ => ⟨hchoice, ?_⟩⟩⟩
    · rw [hdone, hdoneposition, hhistory]
    · omega
    · omega
    · omega
    · rw [hdisabled, hdoneposition]
      refine ⟨fun henabled b hb hlt hdvd => ?_, fun hout => hbefore.mpr (hout.mono (by omega))⟩
      have hout := hbefore.mp henabled
      by_cases hbw : b = seq.position + width
      · -- a boundary here would have been at the end of the piece
        rw [hbw] at hdvd
        rcases Nat.eq_zero_or_pos cfg.retentionInterval with hzero | hinterval
        · rw [hzero, Nat.zero_dvd] at hdvd
          omega
        · exact absurd (hboundary.mpr ⟨hinterval, hdvd, hout⟩) hnot
      · exact hout b hb (by omega) hdvd
    · omega
  -- it ends at a boundary: a snapshot is tried, and a sampled prompt's end draws
  · obtain ⟨hinterval, hdvd, hout⟩ := hboundary.mp hat
    rw [hposition] at hlast' hdraw hkeep
    rw [h.prompt] at hdraw hkeep
    refine ⟨⟨hframe.1.prompt.trans h.prompt, hframe.1.images.trans h.images, ?_, ?_, ?_, ?_, ?_⟩,
      hdoneposition, fun hlt => hkeep fun hboth => absurd hboth.1 (Nat.ne_of_lt hlt),
      fun hend => ⟨fun hboth => ?_, fun hnot => ?_⟩⟩
    · rw [hdone, hdoneposition, hhistory]
    · omega
    · omega
    · rw [hdoneposition]
      show done.lastSnapshotPosition ≤ _
      rw [hlast']
      split
      · exact le_rfl
      · omega
    · rw [hdoneposition]
      show done.retentionDisabled = false ↔ _
      rw [hdisabled, Bool.not_eq_eq_eq_not, Bool.not_false]
      refine ⟨fun hgranted b hb hlt hdvd' => ?_, fun hout' => hout' _ (by omega) (by omega) hdvd⟩
      -- the arena granted this slot, and every one before it
      by_cases hbw : b = seq.position + width
      · rw [hbw]
        exact hgranted
      · exact hout b hb (by omega) hdvd'
    -- at the prompt's end too the token is drawn from the whole prompt
    · obtain ⟨hchoice, hnext⟩ := hdraw ⟨hend, hboth.2⟩
      have hconsumed : M.logits (seq.history ++ inputsFrom seq.images seq.position piece)
          = M.logits (p.consumed p.prompt.length) := by
        rw [← hend, ← hhistory]
      rw [hconsumed] at hchoice hnext
      refine ⟨hchoice, hnext, ?_⟩
      rw [hdoneposition, ← hend]
      show _ = done.lastSnapshotPosition ↔ _
      rw [hlast']
      cases arena (seq.position + width) with
      | true => simp
      | false =>
        simp only [Bool.false_eq_true, if_false, iff_false]
        omega
    · exact absurd ⟨hinterval, by rw [← hend]; exact hdvd, by rw [← hend]; exact hout⟩ hnot

/-- All the pieces of a grant. -/
theorem prefillPieces_computed {io : StepOracle} {id : RequestId} (hio : io.arena id = arena) :
    ∀ {fuel : ℕ} {work : List Token} {seq : RuntimeSequence κ σ}, Computed cfg p arena seq →
      work.length ≤ fuel → work = (p.prompt.drop seq.position).take work.length →
      seq.position + work.length ≤ p.prompt.length →
      let done := (prefillPieces M cfg io id fuel work seq).1
      Computed cfg p arena done ∧
        (seq.position + work.length < p.prompt.length → done.choice = seq.choice) ∧
        (seq.position + work.length = p.prompt.length → work ≠ [] →
          (EndsAtBoundary cfg p arena ∧ seq.choice.sampler.isSome →
            done.choice = (seq.choice.drawPrefill M (M.logits (p.consumed p.prompt.length))).2 ∧
            done.nextToken
              = some (seq.choice.drawPrefill M (M.logits (p.consumed p.prompt.length))).1 ∧
            (done.position = done.lastSnapshotPosition ↔ arena p.prompt.length = true)) ∧
          (¬EndsAtBoundary cfg p arena → done.choice = seq.choice ∧
            done.position ≠ done.lastSnapshotPosition)) := by
  intro fuel
  induction fuel with
  | zero =>
    intro work seq h hfuel _ _
    have hnil : work = [] := List.length_eq_zero_iff.mp (Nat.le_zero.mp hfuel)
    subst hnil
    exact ⟨h, fun _ => rfl, fun _ hne => absurd rfl hne⟩
  | succ fuel ih =>
    intro work seq h hfuel hwork hle
    rw [prefillPieces]
    -- the work is done
    by_cases hnil : work = []
    · rw [if_pos hnil]
      exact ⟨h, fun _ => rfl, fun _ hne => absurd hnil hne⟩
    · rw [if_neg hnil]
      have hlen : 0 < work.length := List.length_pos_iff.mpr hnil
      set width := choosePrefillWidth cfg seq.position work.length with hwidth
      have hpos : 0 < width := choosePrefillWidth_pos
      have hwidth_le : width ≤ work.length := choosePrefillWidth_le hlen
      have htake : work.take width = (p.prompt.drop seq.position).take width := by
        rw [hwork, List.take_take, Nat.min_eq_left hwidth_le]
      obtain ⟨hcomputed, hposition, hinside, hend⟩ := @prefillPiece_computed _ _ _ M cfg p arena seq
        width h hpos (by omega) fun hinterval => choosePrefillWidth_boundary hinterval
      rw [← htake, ← hio] at hcomputed hposition hinside hend
      simp only
      set done := (prefillPiece M cfg (io.arena id (seq.position + width)) (work.take width) seq).1
        with hdone
      have hdrop : (work.drop width).length = work.length - width := List.length_drop ..
      have hrest : work.drop width
          -- the rest of the work is the slice behind this piece
          = (p.prompt.drop done.position).take (work.drop width).length := by
        rw [hdrop, hposition, ← List.drop_drop, ← List.drop_take, ← hwork]
      rw [hio] at hcomputed hend
      obtain ⟨hcomputed', hinside', hend'⟩ := ih hcomputed (by omega) hrest (by omega)
      rw [hposition, hdrop, show seq.position + width + (work.length - width)
        = seq.position + work.length by omega] at hinside' hend'
      refine ⟨hcomputed', fun hlt => (hinside' hlt).trans (hinside (by omega)), fun heq _ => ?_⟩
      by_cases hall : width = work.length
      · -- nothing is left after this piece
        have hnone : work.drop width = [] := List.drop_eq_nil_of_le hall.ge
        have hsame : (prefillPieces M cfg io id fuel (work.drop width) done).1 = done := by
          rw [hnone]
          cases fuel with
          | zero => rfl
          | succ fuel => rfl
        rw [hsame]
        exact hend (by rw [hall]; exact heq)
      -- pieces inside the prompt draw nothing, so the choice is the one the grant began with
      · have hne : work.drop width ≠ [] := by
          intro hnone
          have := congrArg List.length hnone
          rw [hdrop, List.length_nil] at this
          omega
        rw [← hinside (by omega)]
        exact hend' heq hne

end Prompt

/-! ### The first token -/

/-- The first output token and the choice behind it, after so many draws: a
snapshot of the whole prompt brings it, or it is drawn once, or once more after
a checkout at the prompt's own end has failed. -/
inductive FirstDraw (M : Target Row κ σ) (cfg : RuntimeConfig) (p : PendingSequence κ σ)
    (arena : ℕ → Bool) : ℕ → Token × Choice κ σ → Prop where
  | recorded {next : Token} : p.restored = p.prompt.length →
      p.snapshot.bind (·.nextToken) = some next →
      FirstDraw M cfg p arena 0 (next, ⟨p.sampler, p.constraint⟩)
  | once : p.restored < p.prompt.length → ¬DrawsTwice cfg p arena →
      FirstDraw M cfg p arena 1
        (Choice.drawPrefill M ⟨p.sampler, p.constraint⟩ (M.logits (p.consumed p.prompt.length)))
  | twice : DrawsTwice cfg p arena →
      FirstDraw M cfg p arena 2
        ((Choice.drawPrefill M ⟨p.sampler, p.constraint⟩
          (M.logits (p.consumed p.prompt.length))).2.drawPrefill M
            (M.logits (p.consumed p.prompt.length)))

/-- A sequence that has not reached the end of its prompt, or was restored
there. -/
structure Inside (cfg : RuntimeConfig) (p : PendingSequence κ σ) (arena : ℕ → Bool)
    (seq : RuntimeSequence κ σ) : Prop extends Computed cfg p arena seq where
  emitted : seq.emitted = 0
  choice : seq.choice = ⟨p.sampler, p.constraint⟩
  prefilled : seq.prefilled = seq.position
  maxOutput : seq.maxOutput = p.request.maxOutputTokens
  short : p.restored < p.prompt.length → seq.position < p.prompt.length
  recorded : p.restored = p.prompt.length → seq.nextToken = p.snapshot.bind (·.nextToken)

/-- A sequence that has just drawn its first token, and reported it unless it
ends the turn. -/
structure Begun (M : Target Row κ σ) (cfg : RuntimeConfig) (p : PendingSequence κ σ)
    (draw : Token × Choice κ σ) (seq : RuntimeSequence κ σ) (tokens : List Token) : Prop where
  history : seq.history = p.consumed p.prompt.length
  nextToken : seq.nextToken = some draw.1
  choice : seq.choice = draw.2.observe M draw.1
  maxOutput : seq.maxOutput = p.request.maxOutputTokens
  reported : (cfg.eosToken = some draw.1 ∧ seq.emitted = seq.maxOutput ∧ tokens = []) ∨
    (cfg.eosToken ≠ some draw.1 ∧ seq.emitted = 1 ∧ tokens = [draw.1])

section First

variable {M : Target Row κ σ} {cfg : RuntimeConfig} {p : PendingSequence κ σ} {arena : ℕ → Bool}
  {seq : RuntimeSequence κ σ} {io : StepOracle} {id : RequestId}

theorem firstToken_recorded {work : List Token} {next : Token}
    (hposition : work = [] ∨ seq.position = seq.lastSnapshotPosition)
    (hnext : seq.nextToken = some next) : firstToken M work seq = .ok (next, seq.choice) := by
  rw [firstToken, if_pos hposition, hnext]

theorem firstToken_drawn {work : List Token} (hne : work ≠ [])
    (hposition : seq.position ≠ seq.lastSnapshotPosition) :
    firstToken M work seq = .ok (seq.choice.drawPrefill M (M.logits seq.history)) := by
  rw [firstToken, if_neg (not_or.mpr ⟨hne, hposition⟩)]

/-- What prefill does with the first token. -/
theorem Begun.report {next : Token} {choice : Choice κ σ} {before log : StepLog}
    {seq' : RuntimeSequence κ σ} (hhistory : seq.history = p.consumed p.prompt.length)
    (hmax : seq.maxOutput = p.request.maxOutputTokens) (hzero : seq.emitted = 0)
    (hnone : before.tokens id = [])
    (hok : (if cfg.eosToken = some next then
        .ok ({ seq with
            nextToken := some next, choice := choice.observe M next, emitted := seq.maxOutput },
          before ++ { generated := [], retained := [], stopped := [id], writes := [] })
      else
        .ok ({ seq with
            nextToken := some next, choice := choice.observe M next, emitted := seq.emitted + 1 },
          before ++ { generated := [(id, next)], retained := [], stopped := [], writes := [] }) :
        Except RuntimeError _) = .ok (seq', log)) :
    Begun M cfg p (next, choice) seq' (log.tokens id) := by
  split at hok
  · rename_i heos
    simp only [Except.ok.injEq, Prod.mk.injEq] at hok
    obtain ⟨rfl, rfl⟩ := hok
    refine ⟨hhistory, rfl, rfl, hmax, Or.inl ⟨heos, rfl, ?_⟩⟩
    rw [StepLog.tokens_append, hnone]
    rfl
  · rename_i heos
    simp only [Except.ok.injEq, Prod.mk.injEq] at hok
    obtain ⟨rfl, rfl⟩ := hok
    refine ⟨hhistory, rfl, rfl, hmax, Or.inr ⟨heos, ?_, ?_⟩⟩
    · show seq.emitted + 1 = 1
      rw [hzero]
    · rw [StepLog.tokens_append, hnone, tokens_map_pair id [next] _ rfl]
      rfl

/-- A sequence restored at the end of its prompt has its first token already. -/
theorem prefillSequence_recorded {tokens : ℕ} {seq' : RuntimeSequence κ σ} {log : StepLog}
    (hout : 0 < p.request.maxOutputTokens) (hwhole : p.restored = p.prompt.length)
    (h : Inside cfg p arena seq) (hok : prefillSequence M cfg io id tokens seq = .ok (seq', log)) :
    ∃ draw, FirstDraw M cfg p arena 0 draw ∧ Begun M cfg p draw seq' (log.tokens id) := by
  obtain ⟨hle, -, -, -, -⟩ := prefillSequence_progress hok
  have hrestored := h.restored_le
  have hposition : seq.position = p.prompt.length := le_antisymm h.position_le (hwhole ▸ hrestored)
  rw [h.prompt, h.prefilled] at hle
  obtain rfl : tokens = 0 := by omega
  have hnone : prefillPieces M cfg io id 0 [] seq = (seq, StepLog.empty) := rfl
  rw [prefillSequence] at hok
  simp only [List.take_zero, List.length_nil, Nat.add_zero, hnone] at hok
  split at hok
  · cases hok
  · split at hok
    · rcases hnext : p.snapshot.bind (·.nextToken) with _ | t
      · have hfirst : firstToken M [] seq = .error (.snapshotPrefix seq.prefilled seq.prompt.length) := by
          rw [firstToken, if_pos (Or.inl rfl), h.recorded hwhole, hnext]
        rw [hfirst] at hok
        cases hok
      · have hfirst := @firstToken_recorded _ _ _ M seq [] _ (Or.inl rfl)
          ((h.recorded hwhole).trans hnext)
        rw [hfirst, h.choice] at hok
        refine ⟨_, .recorded hwhole hnext, Begun.report ?_ h.maxOutput h.emitted rfl hok⟩
        rw [← hposition]
        exact h.history
    · rename_i hlast
      refine absurd ⟨?_, ?_⟩ hlast
      · rw [h.prefilled, hposition, h.prompt]
      · rw [h.maxOutput]
        exact hout

/-- A grant either stays inside the prompt or ends with the first token. -/
theorem prefillSequence_begins {tokens : ℕ} {seq' : RuntimeSequence κ σ} {log : StepLog}
    (hsampler : p.sampler.isSome) (hout : 0 < p.request.maxOutputTokens)
    (hio : io.arena id = arena) (h : Inside cfg p arena seq)
    (hok : prefillSequence M cfg io id tokens seq = .ok (seq', log)) :
    (Inside cfg p arena seq' ∧ log.tokens id = []) ∨
      ∃ n draw, FirstDraw M cfg p arena n draw ∧ Begun M cfg p draw seq' (log.tokens id) := by
  have hrestored : p.restored ≤ p.prompt.length := h.restored_le.trans h.position_le
  rcases hrestored.lt_or_eq with hbehind | hwhole
  swap
  -- a prompt restored whole: its first token was recorded with the snapshot
  · obtain ⟨draw, hdraw, hbegun⟩ := prefillSequence_recorded hout hwhole h hok
    exact Or.inr ⟨0, draw, hdraw, hbegun⟩
  have hinprompt := h.short hbehind
  obtain ⟨hle, hframe, -, -, -⟩ := prefillSequence_progress hok
  rw [h.prompt, h.prefilled] at hle
  have hwork : ((seq.prompt.drop seq.prefilled).take tokens).length = tokens := by
    rw [List.length_take, List.length_drop, h.prompt, h.prefilled]
    omega
  have hslice : (seq.prompt.drop seq.prefilled).take tokens = (p.prompt.drop seq.position).take
      ((seq.prompt.drop seq.prefilled).take tokens).length := by
    rw [hwork, h.prompt, h.prefilled]
  obtain ⟨hcomputed, hinside, hend⟩ := @prefillPieces_computed _ _ _ M cfg p arena io id hio _ _ seq
    h.toComputed (le_refl ((seq.prompt.drop seq.prefilled).take tokens).length) hslice
    (by rw [hwork]; exact hle)
  obtain ⟨hpframe, hpprefilled, hpemitted, hpposition, hptokens, -, -⟩ :=
    @prefillPieces_progress _ _ _ M cfg io id _ _ seq
      (le_refl ((seq.prompt.drop seq.prefilled).take tokens).length)
  rw [prefillSequence] at hok
  simp only at hok
  rw [hwork] at hcomputed hinside hend hpframe hpprefilled hpemitted hpposition hptokens hok
  set pieces := prefillPieces M cfg io id tokens ((seq.prompt.drop seq.prefilled).take tokens) seq
    with hpieces
  split at hok
  · cases hok
  · split at hok
    -- the grant reaches the prompt's end, so the first token is decided
    · rename_i hlast
      have hreach : seq.position + tokens = p.prompt.length := by
        have hprompt := hlast.1
        rw [hpframe.prompt, h.prompt, h.prefilled] at hprompt
        exact hprompt
      have hne : (seq.prompt.drop seq.prefilled).take tokens ≠ [] := by
        intro hnil
        rw [hnil, List.length_nil] at hwork
        omega
      have hposition : pieces.1.position = p.prompt.length := hpposition.trans hreach
      have hhistory : pieces.1.history = p.consumed p.prompt.length := by
        rw [hcomputed.history, hposition]
      obtain ⟨hboth, hnone⟩ := hend hreach hne
      rw [h.choice] at hboth hnone
      rcases hfirst : firstToken M ((seq.prompt.drop seq.prefilled).take tokens)
        { pieces.1 with prefilled := seq.prefilled + tokens } with e | ⟨next, choice⟩
      · rw [hfirst] at hok
        cases hok
      · rw [hfirst] at hok
        simp only at hok
        have hdraw : ∃ n, FirstDraw M cfg p arena n (next, choice) := by
          set ended := { pieces.1 with prefilled := seq.prefilled + tokens } with hended
          by_cases hends : EndsAtBoundary cfg p arena
          · obtain ⟨hchoice, hnext, hiff⟩ := hboth ⟨hends, hsampler⟩
            by_cases hgranted : arena p.prompt.length = true
            · -- the boundary has drawn the token
              have hrecorded := (@firstToken_recorded _ _ _ M ended _ _ (Or.inr (hiff.mpr hgranted))
                hnext).symm.trans hfirst
              have honce : (next, choice) = Choice.drawPrefill M ⟨p.sampler, p.constraint⟩
                  (M.logits (p.consumed p.prompt.length)) := by
                rw [← Except.ok.inj hrecorded]
                exact Prod.ext rfl hchoice
              refine ⟨1, honce ▸ .once hbehind fun htwice => ?_⟩
              rw [htwice.2.2] at hgranted
              cases hgranted
            -- the boundary's token was lost with its snapshot, and a second one is drawn
            · have hdrawn := (@firstToken_drawn _ _ _ M ended _ hne
                fun heq => hgranted (hiff.mp heq)).symm.trans hfirst
              rw [Bool.not_eq_true] at hgranted
              have htwice : (next, choice) = (Choice.drawPrefill M ⟨p.sampler, p.constraint⟩
                  (M.logits (p.consumed p.prompt.length))).2.drawPrefill M
                    (M.logits (p.consumed p.prompt.length)) := by
                rw [← Except.ok.inj hdrawn, ← hchoice, ← hhistory]
              exact ⟨2, htwice ▸ .twice ⟨hbehind, hends, hgranted⟩⟩
          -- no boundary has drawn, so `firstToken` does
          · obtain ⟨hchoice, hapart⟩ := hnone hends
            have hdrawn := (@firstToken_drawn _ _ _ M ended _ hne hapart).symm.trans hfirst
            have honce : (next, choice) = Choice.drawPrefill M ⟨p.sampler, p.constraint⟩
                (M.logits (p.consumed p.prompt.length)) := by
              rw [← Except.ok.inj hdrawn, ← hchoice, ← hhistory]
            exact ⟨1, honce ▸ .once hbehind fun htwice => hends htwice.2.1⟩
        obtain ⟨n, hdraw⟩ := hdraw
        exact Or.inr ⟨n, (next, choice), hdraw, @Begun.report _ _ _ M cfg p
          { pieces.1 with prefilled := seq.prefilled + tokens } id _ _ _ _ _ hhistory
          (hpframe.maxOutput.trans h.maxOutput) (hpemitted.trans h.emitted) hptokens hok⟩
    -- the grant ends inside the prompt
    · rename_i hlast
      simp only [Except.ok.injEq, Prod.mk.injEq] at hok
      obtain ⟨rfl, rfl⟩ := hok
      have hshort : seq.position + tokens < p.prompt.length := by
        refine lt_of_le_of_ne hle fun heq => hlast ⟨?_, ?_⟩
        · rw [hpframe.prompt, h.prompt, h.prefilled]
          exact heq
        · show 0 < pieces.1.maxOutput
          rw [hpframe.maxOutput, h.maxOutput]
          exact hout
      refine Or.inl ⟨⟨⟨hcomputed.prompt, hcomputed.images, hcomputed.history, hcomputed.restored_le,
        hcomputed.position_le, hcomputed.last_le, hcomputed.enabled⟩, hpemitted.trans h.emitted,
        (hinside hshort).trans h.choice, ?_, hpframe.maxOutput.trans h.maxOutput, fun _ => ?_,
        fun hwhole => absurd hwhole (Nat.ne_of_lt hbehind)⟩, hptokens⟩
      · show seq.prefilled + tokens = pieces.1.position
        rw [hpposition, h.prefilled]
      · show pieces.1.position < _
        rw [hpposition]
        exact hshort

end First

/-! ### A life of draws -/

/-- Plain decode from the first token on. -/
def Decoding.begun (M : Target Row κ σ) (cfg : RuntimeConfig) (p : PendingSequence κ σ)
    (draw : Token × Choice κ σ) : Decoding κ σ where
  history := p.consumed p.prompt.length
  pending := draw.1
  choice := draw.2.observe M draw.1
  emitted := if cfg.eosToken = some draw.1 then p.request.maxOutputTokens else 1
  output := if cfg.eosToken = some draw.1 then [] else [draw.1]

section Lives

variable {M : Target Row κ σ} {cfg : RuntimeConfig} {p : PendingSequence κ σ} {arena : ℕ → Bool}
  {seq : RuntimeSequence κ σ} {id : RequestId} {moves : List SequenceMove} {log : StepLog}

theorem Started.inside (h : Started cfg p seq) : Inside cfg p arena seq := by
  refine ⟨⟨h.prompt, h.images, ?_, h.position.ge, ?_, ?_, ?_⟩, h.emitted, h.choice,
    h.prefilled.trans h.position.symm, h.maxOutput, fun hshort => h.position ▸ hshort, h.nextToken⟩
  · rw [h.history, h.position, PendingSequence.consumed, Nat.sub_self, List.take_zero]
    exact (List.append_nil _).symm
  · exact h.position ▸ h.restored_le
  · exact (h.lastSnapshotPosition.trans h.position.symm).le
  · rw [h.retentionDisabled, h.position]
    exact ⟨fun _ b hb hlt => by omega, fun _ => rfl⟩

theorem Begun.follows {draw : Token × Choice κ σ} {tokens : List Token}
    (h : Begun M cfg p draw seq tokens) : Follows (Decoding.begun M cfg p draw) seq tokens := by
  rcases h.reported with ⟨heos, hemitted, rfl⟩ | ⟨heos, hemitted, rfl⟩
  · exact ⟨h.history.symm, h.nextToken, by rw [hemitted, h.maxOutput]; exact if_pos heos,
      if_pos heos, fun _ => h.choice.symm⟩
  · exact ⟨h.history.symm, h.nextToken, by rw [hemitted]; exact if_neg heos, if_neg heos,
      fun _ => h.choice.symm⟩

theorem Begun.emitted_pos {draw : Token × Choice κ σ} {tokens : List Token}
    (h : Begun M cfg p draw seq tokens) (hout : 0 < p.request.maxOutputTokens) :
    0 < seq.emitted := by
  rcases h.reported with ⟨-, hemitted, -⟩ | ⟨-, hemitted, -⟩
  · rw [hemitted, h.maxOutput]
    exact hout
  · rw [hemitted]
    exact Nat.one_pos

theorem DecodeShare.emitted_pos {io : StepOracle} {seq' : RuntimeSequence κ σ} {log : StepLog}
    (hpending : seq.nextToken.isSome) (hopen : ¬seq.finished)
    (hwindow : (io.proposals id).length ≤ cfg.window - 1)
    (hshare : DecodeShare M cfg io id (seq.withDraft cfg (io.proposals id)) seq' log) :
    0 < seq'.emitted := by
  obtain ⟨hframe, -, hcount, -⟩ := hshare.progress hpending hopen hwindow
  by_cases hfin : seq'.finished
  · rw [RuntimeSequence.finished, hframe.maxOutput] at hfin
    rw [RuntimeSequence.finished] at hopen
    omega
  · obtain ⟨n, -, hemitted, -⟩ := hcount hfin
    omega

/-- A life is inside its prompt, or has decoded plainly from its first draw. -/
theorem Life.decodes (hsampler : p.sampler.isSome) (hout : 0 < p.request.maxOutputTokens)
    (h : Life M cfg id p moves seq log) (harena : ∀ m ∈ moves, m.io.arena id = arena) :
    (Inside cfg p arena seq ∧ log.tokens id = []) ∨
      ∃ n draw k, FirstDraw M cfg p arena n draw ∧ 0 < seq.emitted ∧
        seq.maxOutput = p.request.maxOutputTokens ∧
        Follows (plainRun M cfg.eosToken p.request.maxOutputTokens k
          (Decoding.begun M cfg p draw)) seq (log.tokens id) := by
  obtain ⟨seq₀, hstarted, hrun⟩ := h
  refine hrun.invariant_of_labels (P := fun s =>
    (Inside cfg p arena s.1 ∧ s.2.tokens id = []) ∨
      ∃ n draw k, FirstDraw M cfg p arena n draw ∧ 0 < s.1.emitted ∧
        s.1.maxOutput = (p.request.maxOutputTokens : ℕ) ∧
        Follows (plainRun M cfg.eosToken p.request.maxOutputTokens k
          (Decoding.begun M cfg p draw)) s.1 (s.2.tokens id))
    (Or.inl ⟨hstarted.inside, rfl⟩) (fun {a b m} hio hlife hstep => ?_) harena
  cases hstep with
  | prefill hzero hok =>
    rcases hlife with ⟨hinside, hnone⟩ | ⟨-, -, -, -, hpos, -⟩
    · simp only [StepLog.tokens_append]
      simp only at hnone
      rw [hnone, List.nil_append]
      rcases prefillSequence_begins hsampler hout hio hinside hok with h | ⟨n, draw, hdraw, hbegun⟩
      · exact Or.inl h
      · exact Or.inr ⟨n, draw, 0, hdraw, hbegun.emitted_pos hout, hbegun.maxOutput, hbegun.follows⟩
    · simp only at hpos
      omega
  | decode hpos hopen hpending hwindow hshare =>
    rcases hlife with ⟨hinside, -⟩ | ⟨n, draw, k, hdraw, -, hmax, hfollows⟩
    · have hzero := hinside.emitted
      simp only at hzero
      omega
    · obtain ⟨k', hk', hmax'⟩ := hshare.follows hfollows hopen hwindow
      simp only at hmax
      rw [hmax] at hk' hmax'
      refine Or.inr ⟨n, draw, k + (k' + 1), hdraw, hshare.emitted_pos hpending hopen hwindow,
        hmax', ?_⟩
      rw [plainRun_add, StepLog.tokens_append]
      exact hk'

theorem FirstDraw.twice_iff {n : ℕ} {draw : Token × Choice κ σ}
    (h : FirstDraw M cfg p arena n draw) : n = 2 ↔ DrawsTwice cfg p arena := by
  cases h with
  | recorded hwhole _ =>
    refine ⟨fun h => by omega, fun htwice => ?_⟩
    have hbehind := htwice.1
    omega
  | once _ hnot => exact ⟨fun h => by omega, fun htwice => absurd htwice hnot⟩
  | twice htwice => exact ⟨fun _ => htwice, fun _ => rfl⟩

/-- The arena matters to the first draw only at the prompt's own end. -/
theorem FirstDraw.unique {arena' : ℕ → Bool} {n n' : ℕ} {draw draw' : Token × Choice κ σ}
    (h : FirstDraw M cfg p arena n draw) (h' : FirstDraw M cfg p arena' n' draw')
    (hiff : DrawsTwice cfg p arena ↔ DrawsTwice cfg p arena') : n = n' ∧ draw = draw' := by
  cases h with
  | recorded hwhole hnext =>
    cases h' with
    | recorded _ hnext' =>
      rw [hnext, Option.some.injEq] at hnext'
      rw [hnext']
      exact ⟨rfl, rfl⟩
    | once hbehind _ => omega
    | twice htwice =>
      have hbehind := htwice.1
      omega
  | once hbehind hnot =>
    cases h' with
    | recorded hwhole _ => omega
    | once _ _ => exact ⟨rfl, rfl⟩
    | twice htwice => exact absurd (hiff.mpr htwice) hnot
  | twice htwice =>
    cases h' with
    | recorded hwhole _ =>
      have hbehind := htwice.1
      omega
    | once _ hnot => exact absurd (hiff.mp htwice) hnot
    | twice _ => exact ⟨rfl, rfl⟩

/-- A finished life is a finished plain run from its first draw. -/
theorem Life.finishes (hsampler : p.sampler.isSome) (hout : 0 < p.request.maxOutputTokens)
    (h : Life M cfg id p moves seq log) (hfin : seq.finished)
    (harena : ∀ m ∈ moves, m.io.arena id = arena) :
    ∃ n draw k, FirstDraw M cfg p arena n draw ∧ seq.maxOutput = p.request.maxOutputTokens ∧
      (plainRun M cfg.eosToken p.request.maxOutputTokens k (Decoding.begun M cfg p draw)).Spent
        p.request.maxOutputTokens ∧
      log.tokens id = (plainRun M cfg.eosToken p.request.maxOutputTokens k
        (Decoding.begun M cfg p draw)).output := by
  rcases h.decodes hsampler hout harena with ⟨hinside, -⟩ | ⟨n, draw, k, hdraw, -, hmax, hfollows⟩
  · rw [RuntimeSequence.finished, hinside.emitted, hinside.maxOutput] at hfin
    exact absurd hfin (Nat.not_le.mpr hout)
  · refine ⟨n, draw, k, hdraw, hmax, ?_, hfollows.output.symm⟩
    rw [Decoding.Spent, hfollows.emitted, ← hmax]
    exact hfin

/-- Two finished lives of one sampled request that agree on that emit the same
tokens. -/
theorem Life.tokens_eq {arena' : ℕ → Bool} {seq' : RuntimeSequence κ σ}
    {moves' : List SequenceMove} {log' : StepLog} (hsampler : p.sampler.isSome)
    (hout : 0 < p.request.maxOutputTokens) (h : Life M cfg id p moves seq log)
    (hfin : seq.finished) (harena : ∀ m ∈ moves, m.io.arena id = arena)
    (h' : Life M cfg id p moves' seq' log') (hfin' : seq'.finished)
    (harena' : ∀ m ∈ moves', m.io.arena id = arena')
    (hiff : DrawsTwice cfg p arena ↔ DrawsTwice cfg p arena') :
    log.tokens id = log'.tokens id := by
  obtain ⟨n, draw, k, hdraw, -, hspent, htokens⟩ := h.finishes hsampler hout hfin harena
  obtain ⟨n', draw', k', hdraw', -, hspent', htokens'⟩ := h'.finishes hsampler hout hfin' harena'
  obtain ⟨rfl, rfl⟩ := hdraw.unique hdraw' hiff
  rw [htokens, htokens']
  exact congrArg Decoding.output (runUntil_unique hspent hspent')

end Lives

section Counted

variable {M : Target Row κ σ} {cfg : RuntimeConfig} {p : PendingSequence κ (σ × ℕ)}
  {arena : ℕ → Bool} {seq : RuntimeSequence κ (σ × ℕ)} {id : RequestId}
  {moves : List SequenceMove} {log : StepLog} {s₀ : σ}

theorem FirstDraw.drew (hsampler : p.sampler = some (s₀, 0)) {n : ℕ}
    {draw : Token × Choice κ (σ × ℕ)} (h : FirstDraw M.counting cfg p arena n draw) :
    draw.2.Drew n := by
  have hzero : Choice.Drew ⟨p.sampler, p.constraint⟩ 0 := ⟨s₀, hsampler⟩
  cases h with
  | recorded _ _ => exact hzero
  | once _ _ => exact hzero.drawPrefill _
  | twice _ => exact (hzero.drawPrefill _).drawPrefill _

theorem Begun.counted {n : ℕ} {draw : Token × Choice κ (σ × ℕ)} {tokens : List Token}
    (hout : 0 < p.request.maxOutputTokens) (hdrew : draw.2.Drew n)
    (h : Begun M.counting cfg p draw seq tokens) : Counted n seq tokens := by
  have hchoice : seq.choice.Drew n := h.choice ▸ hdrew.observe draw.1
  have hmax := h.maxOutput
  rcases h.reported with ⟨-, hemitted, rfl⟩ | ⟨-, hemitted, rfl⟩
  · have hfin : seq.finished := hemitted.ge
    have hlt : ([] : List Token).length < seq.maxOutput := hmax ▸ hout
    refine ⟨⟨n, hchoice, ?_⟩, hlt.le, fun hopen => absurd hfin hopen⟩
    rw [if_pos ⟨hfin, hlt⟩, Nat.add_comm n 1]
    rfl
  · exact Counted.emit hchoice (Nat.add_comm n 1) (hmax ▸ hout) hemitted

theorem Life.counted (hsampler : p.sampler = some (s₀, 0)) (hout : 0 < p.request.maxOutputTokens)
    (h : Life M.counting cfg id p moves seq log)
    (harena : ∀ m ∈ moves, m.io.arena id = arena)
    (hfree : ∀ m ∈ moves, ∀ t ∈ m.io.proposals id, cfg.eosToken ≠ some t) :
    (Inside cfg p arena seq ∧ log.tokens id = []) ∨
      ∃ n draw, FirstDraw M.counting cfg p arena n draw ∧ 0 < seq.emitted ∧
        Counted n seq (log.tokens id) := by
  obtain ⟨seq₀, hstarted, hrun⟩ := h
  have hsome : p.sampler.isSome := by
    rw [hsampler]
    rfl
  refine hrun.invariant_of_labels (P := fun s =>
    (Inside cfg p arena s.1 ∧ s.2.tokens id = []) ∨
      ∃ n draw, FirstDraw M.counting cfg p arena n draw ∧ 0 < s.1.emitted ∧
        Counted n s.1 (s.2.tokens id))
    (Or.inl ⟨hstarted.inside, rfl⟩) (fun {a b m} hio hlife hstep => ?_)
    fun m hm => And.intro (harena m hm) (hfree m hm)
  cases hstep with
  | prefill hzero hok =>
    rcases hlife with ⟨hinside, hnone⟩ | ⟨-, -, -, hpos, -⟩
    · simp only [StepLog.tokens_append]
      simp only at hnone
      rw [hnone, List.nil_append]
      rcases prefillSequence_begins hsome hout hio.1 hinside hok with h | ⟨n, draw, hdraw, hbegun⟩
      · exact Or.inl h
      · exact Or.inr ⟨n, draw, hdraw, hbegun.emitted_pos hout,
          hbegun.counted hout (hdraw.drew hsampler)⟩
    · simp only at hpos
      omega
  | decode hpos hopen hpending hwindow hshare =>
    rcases hlife with ⟨hinside, -⟩ | ⟨n, draw, hdraw, -, hcounted⟩
    · have hzero := hinside.emitted
      simp only at hzero
      omega
    · refine Or.inr ⟨n, draw, hdraw, hshare.emitted_pos hpending hopen hwindow, ?_⟩
      rw [StepLog.tokens_append]
      exact hshare.counted hcounted hopen hio.2

/-- The draws of a finished life: one a token, one for the end-of-turn if that
stopped it, and those behind the first token instead of its one. -/
theorem Life.counts (hsampler : p.sampler = some (s₀, 0)) (hout : 0 < p.request.maxOutputTokens)
    (h : Life M.counting cfg id p moves seq log) (hfin : seq.finished)
    (harena : ∀ m ∈ moves, m.io.arena id = arena)
    (hfree : ∀ m ∈ moves, ∀ t ∈ m.io.proposals id, cfg.eosToken ≠ some t) :
    ∃ n draw d, FirstDraw M.counting cfg p arena n draw ∧ seq.choice.draws = some d ∧
      d + 1 = (log.tokens id).length
        + (if (log.tokens id).length < p.request.maxOutputTokens then 1 else 0) + n := by
  rcases h.counted hsampler hout harena hfree with ⟨hinside, -⟩ | ⟨n, draw, hdraw, -, hcounted⟩
  · rw [RuntimeSequence.finished, hinside.emitted, hinside.maxOutput] at hfin
    exact absurd hfin (Nat.not_le.mpr hout)
  · obtain ⟨d, hdrew, hd⟩ := hcounted.drew
    obtain ⟨-, -, -, -, hmax, -, -⟩ := h.finishes (hsampler ▸ rfl) hout hfin harena
    refine ⟨n, draw, d, hdraw, hdrew.draws, ?_⟩
    simp only [hfin, true_and, hmax] at hd
    exact hd

/-- Two finished lives of one sampled request, in two arenas. -/
theorem sampled_draws {arena' : ℕ → Bool} {seq' : RuntimeSequence κ (σ × ℕ)}
    {moves' : List SequenceMove} {log' : StepLog} (hsampler : p.sampler = some (s₀, 0))
    (hout : 0 < p.request.maxOutputTokens)
    (h : Life M.counting cfg id p moves seq log) (hfin : seq.finished)
    (harena : ∀ m ∈ moves, m.io.arena id = arena)
    (h' : Life M.counting cfg id p moves' seq' log') (hfin' : seq'.finished)
    (harena' : ∀ m ∈ moves', m.io.arena id = arena') :
    ((DrawsTwice cfg p arena ↔ DrawsTwice cfg p arena') → log.tokens id = log'.tokens id) ∧
      ((∀ m ∈ moves ++ moves', ∀ t ∈ m.io.proposals id, cfg.eosToken ≠ some t) →
        ((seq.choice.draws = seq'.choice.draws ∧ log.tokens id = log'.tokens id) ↔
          (DrawsTwice cfg p arena ↔ DrawsTwice cfg p arena'))) := by
  have hsome : p.sampler.isSome := by
    rw [hsampler]
    rfl
  have hlives := h.tokens_eq hsome hout hfin harena h' hfin' harena'
  refine ⟨hlives, fun hfree => ?_⟩
  obtain ⟨n, draw, d, hdraw, hdraws, hcount⟩ := h.counts hsampler hout hfin harena fun m hm =>
    hfree m (List.mem_append_left _ hm)
  obtain ⟨n', draw', d', hdraw', hdraws', hcount'⟩ := h'.counts hsampler hout hfin' harena' fun m hm =>
    hfree m (List.mem_append_right _ hm)
  rw [hdraws, hdraws', Option.some.injEq]
  constructor
  · rintro ⟨rfl, htokens⟩
    rw [htokens] at hcount
    have hsame : n = n' := by omega
    rw [← hdraw.twice_iff, ← hdraw'.twice_iff, hsame]
  · intro hiff
    obtain ⟨rfl, -⟩ := hdraw.unique hdraw' hiff
    have htokens := hlives hiff
    rw [htokens] at hcount
    exact ⟨by omega, htokens⟩

/-! ### A prompt of four tokens, and a boundary at its end -/

/-- A sampler that counts up. -/
def countingUp : Target Unit Unit ℕ where
  logits _ := ()
  argmaxDevice _ := 0
  argmax _ := 0
  sample s _ := (s, s + 1)
  mask _ row := row
  observe k _ := k
  isMasking _ := true

/-- A prompt of four tokens and one token of output. -/
def fourPrompt : PendingSequence Unit (ℕ × ℕ) where
  request := ⟨0, 4, 1⟩
  prompt := [7, 7, 7, 7]
  images := []
  snapshot := none
  sampler := some (5, 0)
  constraint := none

/-- An arena with or without a slot at the prompt's end, and elsewhere. -/
def fourArena (granted elsewhere : Bool) (position : ℕ) : Bool :=
  if position = 4 then granted else elsewhere

/-- A round without drafts. -/
def arenaRound (arena : ℕ → Bool) : StepOracle where
  proposals _ := []
  arena _ := arena

theorem fourPrompt_life (granted elsewhere : Bool) :
    ∃ seq log, Life countingUp.counting tallyConfig 0 fourPrompt
        [.prefill (arenaRound (fourArena granted elsewhere)) 4] seq log ∧ seq.finished ∧
      seq.choice.draws = some (if granted then 1 else 2) ∧
      log.tokens 0 = [if granted then 5 else 6] := by
  obtain ⟨seq₀, hadmit⟩ : ∃ seq₀, admitPending tallyConfig fourPrompt ∅
      = .ok (AList.insert 0 seq₀ ∅) := ⟨_, rfl⟩
  obtain ⟨⟨seq₁, hseq₁, hstarted⟩, -⟩ := admitPending_started hadmit
  obtain rfl : seq₀ = seq₁ := Option.some.inj hseq₁
  have hfirst : ((prefillSequence countingUp.counting tallyConfig
      (arenaRound (fourArena granted elsewhere)) 0 4 seq₀).map
      fun r => (decide r.1.finished, r.1.choice.draws, r.2.tokens 0)).toOption
        = some (true, some (if granted then 1 else 2), [if granted then 5 else 6]) := by
    cases hadmit
    revert granted elsewhere
    decide
  rcases hok : prefillSequence countingUp.counting tallyConfig
    (arenaRound (fourArena granted elsewhere)) 0 4 seq₀ with e | ⟨seq, log⟩
  · rw [hok] at hfirst
    cases hfirst
  · rw [hok] at hfirst
    simp only [Except.map, Except.toOption, Option.some.injEq, Prod.mk.injEq,
      decide_eq_true_iff] at hfirst
    exact ⟨seq, StepLog.empty ++ log, ⟨seq₀, hstarted, Run.single (.prefill hstarted.emitted hok)⟩,
      hfirst.1, hfirst.2.1, hfirst.2.2⟩

/-- A failed checkout at the prompt's end costs a draw, and changes the token. -/
theorem failed_checkout_redraws : ∃ seq log seq' log',
    Life countingUp.counting tallyConfig 0 fourPrompt [.prefill (arenaRound (fourArena true true)) 4]
        seq log ∧ seq.finished ∧
      Life countingUp.counting tallyConfig 0 fourPrompt
        [.prefill (arenaRound (fourArena false true)) 4] seq' log' ∧ seq'.finished ∧
      seq.choice.draws = some 1 ∧ log.tokens 0 = [5] ∧
      seq'.choice.draws = some 2 ∧ log'.tokens 0 = [6] := by
  obtain ⟨seq, log, hlife, hfin, hdraws, htokens⟩ := fourPrompt_life true true
  obtain ⟨seq', log', hlife', hfin', hdraws', htokens'⟩ := fourPrompt_life false true
  exact ⟨seq, log, seq', log', hlife, hfin, hlife', hfin', hdraws, htokens, hdraws', htokens'⟩

/-- Verify rounds of one sequence, one after the other. -/
def verifyRounds (M : Target Row κ σ) (cfg : RuntimeConfig) (id : RequestId) :
    List StepOracle → RuntimeSequence κ σ × StepLog → Option (RuntimeSequence κ σ × StepLog)
  | [], s => some s
  | io :: ios, (seq, log) =>
    if 0 < seq.emitted ∧ ¬seq.finished ∧ seq.nextToken.isSome ∧
        (io.proposals id).length ≤ cfg.window - 1 then
      (verifySequence M cfg io id (seq.withDraft cfg (io.proposals id))).toOption.bind fun r =>
        verifyRounds M cfg id ios (r.1, log ++ r.2)
    else none

theorem verifyRounds_run {M : Target Row κ σ} {ios : List StepOracle}
    {s s' : RuntimeSequence κ σ × StepLog} (h : verifyRounds M cfg id ios s = some s') :
    Run (SequenceStep M cfg id) s (ios.map .decode) s' := by
  induction ios generalizing s with
  | nil =>
    obtain rfl := Option.some.inj h
    exact Run.nil
  | cons io ios ih =>
    obtain ⟨seq, log⟩ := s
    rw [verifyRounds] at h
    split at h
    case isTrue hopen =>
      obtain ⟨hemitted, hrunning, hpending, hwindow⟩ := hopen
      rcases hverify : verifySequence M cfg io id (seq.withDraft cfg (io.proposals id)) with e | r
      · rw [hverify] at h
        cases h
      · rw [hverify] at h
        exact Run.cons (.decode hemitted hrunning hpending hwindow (.inl hverify)) (ih h)
    case isFalse => cases h

/-- The same prompt, which may generate four tokens. -/
def drawnPrompt : PendingSequence Unit (ℕ × ℕ) := { fourPrompt with request := ⟨0, 4, 4⟩ }

/-- What the step of that run drafts and which slots the arena grants it. -/
def draftRound (arena : ℕ → Bool) (drafts : List Token) : StepOracle := ⟨fun _ => drafts, fun _ => arena⟩

/-- The moves of its life: the whole prompt, then a verify round for each of `rounds`. -/
def drawnMoves (arena : ℕ → Bool) (rounds : List (List Token)) : List SequenceMove :=
  .prefill (arenaRound arena) 4 :: (rounds.map (draftRound arena)).map .decode

theorem drawnMoves_arena (arena : ℕ → Bool) (rounds : List (List Token)) :
    ∀ m ∈ drawnMoves arena rounds, m.io.arena 0 = arena := by
  intro m hm
  rcases List.mem_cons.mp hm with rfl | hm
  · rfl
  · obtain ⟨io, hio, rfl⟩ := List.mem_map.mp hm
    obtain ⟨drafts, -, rfl⟩ := List.mem_map.mp hio
    rfl

/-- No round drafts the end of the turn, if `rounds` do not. -/
theorem drawnMoves_proposals (arena : ℕ → Bool) {rounds : List (List Token)}
    (h : ∀ drafts ∈ rounds, 9 ∉ drafts) :
    ∀ m ∈ drawnMoves arena rounds, ∀ t ∈ m.io.proposals 0, tallyConfig.eosToken ≠ some t := by
  intro m hm t ht hsame
  obtain rfl : 9 = t := Option.some.inj hsame
  rcases List.mem_cons.mp hm with rfl | hm
  · cases ht
  · obtain ⟨io, hio, rfl⟩ := List.mem_map.mp hm
    obtain ⟨drafts, hdrafts, rfl⟩ := List.mem_map.mp hio
    exact h drafts hdrafts ht

theorem drawnPrompt_life (elsewhere : Bool) {rounds : List (List Token)}
    (hrounds : rounds = [[6, 3], []] ∨ rounds = [[], [], []]) :
    ∃ seq log, Life countingUp.counting tallyConfig 0 drawnPrompt
        (drawnMoves (fourArena true elsewhere) rounds) seq log ∧ seq.finished ∧
        log.tokens 0 = [5, 6, 7, 8] := by
  obtain ⟨seq₀, hadmit⟩ : ∃ seq₀, admitPending tallyConfig drawnPrompt ∅
      = .ok (AList.insert 0 seq₀ ∅) := ⟨_, rfl⟩
  obtain ⟨⟨seq₁, hseq₁, hstarted⟩, -⟩ := admitPending_started hadmit
  obtain rfl : seq₀ = seq₁ := Option.some.inj hseq₁
  have hwhole : ((prefillSequence countingUp.counting tallyConfig
      (arenaRound (fourArena true elsewhere)) 0 4 seq₀).toOption.bind fun r =>
        (verifyRounds countingUp.counting tallyConfig 0
          (rounds.map (draftRound (fourArena true elsewhere))) (r.1, StepLog.empty ++ r.2)).map
            fun r => (decide r.1.finished, r.2.tokens 0)) = some (true, [5, 6, 7, 8]) := by
    cases hadmit
    rcases hrounds with rfl | rfl
    · revert elsewhere
      decide +kernel
    · revert elsewhere
      decide +kernel
  rcases hok : prefillSequence countingUp.counting tallyConfig
    (arenaRound (fourArena true elsewhere)) 0 4 seq₀ with e | ⟨seq, log⟩
  · rw [hok] at hwhole
    cases hwhole
  · rw [hok] at hwhole
    obtain ⟨⟨seq', log'⟩, hverified, hend⟩ := Option.map_eq_some_iff.mp hwhole
    obtain ⟨hfin, htokens⟩ := Prod.mk.inj hend
    exact ⟨seq', log', ⟨seq₀, hstarted, Run.cons (.prefill hstarted.emitted hok)
      (verifyRounds_run hverified)⟩, of_decide_eq_true hfin, htokens⟩

/-- With drafts, of which the second is refused, and without any. -/
theorem sampled_draws_witness : ∃ seq log seq' log',
    Life countingUp.counting tallyConfig 0 drawnPrompt
        (drawnMoves (fourArena true true) [[6, 3], []]) seq log ∧
      Life countingUp.counting tallyConfig 0 drawnPrompt
        (drawnMoves (fourArena true false) [[], [], []]) seq' log' ∧
      log.tokens 0 = [5, 6, 7, 8] ∧
      seq.choice.draws = seq'.choice.draws ∧ log.tokens 0 = log'.tokens 0 := by
  obtain ⟨seq, log, hlife, hfin, htokens⟩ := drawnPrompt_life true (.inl rfl)
  obtain ⟨seq', log', hlife', hfin', -⟩ := drawnPrompt_life false (.inr rfl)
  obtain ⟨-, hiff⟩ := sampled_draws rfl (by decide) hlife hfin (drawnMoves_arena _ _) hlife' hfin'
    (drawnMoves_arena _ _)
  have hnone : ∀ elsewhere, ¬DrawsTwice tallyConfig drawnPrompt (fourArena true elsewhere) :=
    fun elsewhere htwice => Bool.noConfusion htwice.2.2
  refine ⟨seq, log, seq', log', hlife, hlife', htokens, (hiff fun m hm => ?_).mpr
    (iff_of_false (hnone true) (hnone false))⟩
  rcases List.mem_append.mp hm with hm | hm
  · exact drawnMoves_proposals _ (by decide) m hm
  · exact drawnMoves_proposals _ (by decide) m hm

end Counted
