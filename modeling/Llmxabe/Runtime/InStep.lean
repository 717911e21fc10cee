/-
The scheduler and the device advance the same requests in step.

`InStep extra r seq` relates what the scheduler tracks of a request to the
runtime's sequence: both are as far into the prompt, or the scheduler has
computed the prompt and all but the last emitted token, short by `extra` while
a speculative step has not been accounted for, or the sequence is finished.

Each half of a device step keeps the running requests in step:
`decodes_inStep` for the decodes, `grants_inStep` and `admissions_inStep` for
the two kinds of prefill.  All of them write below the capacity the request
was admitted with (`WritesWithin`).
-/
import Llmxabe.Runtime.Progress
import Llmxabe.Runtime.Worker
import Llmxabe.Sched.Batches

variable {Row κ σ : Type}

open Scheduler (Decoded Granted Admitted ids)

/-- Where a request starts from. -/
def PendingSequence.restored (p : PendingSequence κ σ) : ℕ := (p.snapshot.map (·.position)).getD 0

/-! ### One request on both sides -/

/-- The sequence is the runtime's half of the request. -/
structure Mirrors (cfg : RuntimeConfig) (r : TrackedRequest) (seq : RuntimeSequence κ σ) : Prop where
  prompt : seq.prompt.length = r.promptTokens
  maxOutput : seq.maxOutput = r.maxOutputTokens
  capacity : seq.capacity = r.request.fullSeqLen + (cfg.window - 1)

/-- Both sides are equally far into the prompt. -/
structure Prefilling (r : TrackedRequest) (seq : RuntimeSequence κ σ) : Prop where
  emitted : seq.emitted = 0
  prefilled : seq.prefilled = r.computedTokens
  position : seq.position = r.computedTokens

/-- The prompt and all but the last emitted token are computed; the scheduler
has yet to hear of `extra` of them. -/
structure Generating (extra : ℕ) (r : TrackedRequest) (seq : RuntimeSequence κ σ) : Prop where
  prompt_le : (r.promptTokens : ℕ) ≤ r.computedTokens
  prefilled : seq.prefilled = r.promptTokens
  computed : r.computedTokens + extra + 1 = r.promptTokens + seq.emitted
  position : seq.position + 1 = r.promptTokens + seq.emitted
  pending : seq.nextToken.isSome

/-- The two sides agree on the request's progress. -/
inductive InStep (cfg : RuntimeConfig) (extra : ℕ) (r : TrackedRequest)
    (seq : RuntimeSequence κ σ) : Prop where
  | prefilling : Mirrors cfg r seq → extra = 0 → Prefilling r seq →
      r.computedTokens < r.promptTokens → InStep cfg extra r seq
  | generating : Mirrors cfg r seq → Generating extra r seq → InStep cfg extra r seq
  | done : Mirrors cfg r seq → (r.promptTokens : ℕ) ≤ r.computedTokens → seq.finished →
      InStep cfg extra r seq

/-- A pending request waits with the progress its snapshot brings. -/
structure Awaits (r : TrackedRequest) (p : PendingSequence κ σ) : Prop where
  request : p.request = r.request
  prompt : p.prompt.length = r.promptTokens
  computed : r.computedTokens = p.restored
  computed_le : r.computedTokens ≤ r.promptTokens

section Members

variable {cfg : RuntimeConfig} {r r' : TrackedRequest} {seq : RuntimeSequence κ σ}

theorem Mirrors.congr (h : Mirrors cfg r seq) (hreq : r'.request = r.request) :
    Mirrors cfg r' seq := by
  have hprompt : r'.promptTokens = r.promptTokens := congrArg NewRequest.promptTokens hreq
  have hmax : r'.maxOutputTokens = r.maxOutputTokens := congrArg NewRequest.maxOutputTokens hreq
  exact ⟨hprompt ▸ h.prompt, hmax ▸ h.maxOutput, hreq ▸ h.capacity⟩

theorem Mirrors.framed {seq' : RuntimeSequence κ σ} (h : Mirrors cfg r seq)
    (hframe : Framed seq seq') : Mirrors cfg r seq' :=
  ⟨hframe.prompt ▸ h.prompt, hframe.maxOutput.trans h.maxOutput,
    hframe.capacity.trans h.capacity⟩

/-- A request that decodes has a length that did not wrap. -/
theorem fullSeqLen_of_decodes (hprompt : (r.promptTokens : ℕ) ≤ r.computedTokens)
    (hshort : r.computedTokens < r.fullSeqLen.val) :
    r.request.fullSeqLen = r.promptTokens + r.maxOutputTokens := by
  have hval : r.fullSeqLen.val = ((r.promptTokens : ℕ) + r.maxOutputTokens) % 2 ^ 32 := rfl
  have hp := r.promptTokens.isLt
  have hm := r.maxOutputTokens.isLt
  show min ((r.promptTokens : ℕ) + r.maxOutputTokens) (2 ^ 32 - 1) = _
  rw [hval] at hshort
  omega

theorem fullSeqLen_val_of_decodes (hprompt : (r.promptTokens : ℕ) ≤ r.computedTokens)
    (hshort : r.computedTokens < r.fullSeqLen.val) (hreq : r'.request = r.request) :
    r'.fullSeqLen.val = r'.promptTokens + r'.maxOutputTokens := by
  have hprompt' : r'.promptTokens = r.promptTokens := congrArg NewRequest.promptTokens hreq
  have hmax : r'.maxOutputTokens = r.maxOutputTokens := congrArg NewRequest.maxOutputTokens hreq
  have hval : r.fullSeqLen.val = ((r.promptTokens : ℕ) + r.maxOutputTokens) % 2 ^ 32 := rfl
  have hval' : r'.fullSeqLen.val = ((r'.promptTokens : ℕ) + r'.maxOutputTokens) % 2 ^ 32 := rfl
  have hp := r.promptTokens.isLt
  have hm := r.maxOutputTokens.isLt
  rw [hval] at hshort
  rw [hval', hprompt', hmax]
  omega

end Members

/-! ### Requests reach the runtime -/

section Admission

variable {M : Target Row κ σ} {cfg : RuntimeConfig} {io : StepOracle}

/-- The sequence of a request that has just been handed over. -/
structure Started (cfg : RuntimeConfig) (p : PendingSequence κ σ)
    (seq : RuntimeSequence κ σ) : Prop where
  prompt : seq.prompt = p.prompt
  maxOutput : seq.maxOutput = p.request.maxOutputTokens
  capacity : seq.capacity = p.request.fullSeqLen + (cfg.window - 1)
  emitted : seq.emitted = 0
  prefilled : seq.prefilled = p.restored
  position : seq.position = p.restored
  images : seq.images = p.images
  choice : seq.choice = ⟨p.sampler, p.constraint⟩
  history : seq.history = (p.snapshot.map (·.history)).getD []
  lastSnapshot : seq.lastSnapshot = p.snapshot
  lastSnapshotPosition : seq.lastSnapshotPosition = p.restored
  retentionDisabled : seq.retentionDisabled = false
  restored_le : p.restored ≤ p.prompt.length
  length : p.prompt.length = p.request.promptTokens
  nextToken : p.restored = p.prompt.length → seq.nextToken = p.snapshot.bind (·.nextToken)

theorem admitSequence_started {p : PendingSequence κ σ} {seqs seqs' : Sequences κ σ}
    (h : admitSequence cfg p seqs = .ok seqs') (hsnap : p.snapshot = none) :
    ∃ seq, seqs' = seqs.insert p.request.id seq ∧ Started cfg p seq := by
  have hrestored : p.restored = 0 := by rw [PendingSequence.restored, hsnap]; rfl
  rw [admitSequence] at h
  split at h
  · cases h
  · split at h
    · cases h
    · rename_i hlength
      split at h
      · cases h
      · split at h
        · cases h
        · simp only [Except.ok.injEq] at h
          subst h
          refine ⟨_, rfl, ⟨rfl, rfl, rfl, rfl, hrestored.symm, ?_, rfl, rfl, ?_, hsnap.symm,
            hrestored.symm, rfl, ?_, not_not.mp hlength, fun _ => ?_⟩⟩
          · rw [hrestored]
            rfl
          · rw [hsnap]
            rfl
          · rw [hrestored]
            exact Nat.zero_le _
          · rw [hsnap]
            rfl

theorem admitPending_started {p : PendingSequence κ σ} {seqs seqs' : Sequences κ σ}
    (h : admitPending cfg p seqs = .ok seqs') :
    (∃ seq, seqs'.lookup p.request.id = some seq ∧ Started cfg p seq) ∧
      ∀ id, id ≠ p.request.id → seqs'.lookup id = seqs.lookup id := by
  rw [admitPending] at h
  rcases hsnap : p.snapshot with _ | snapshot
  · rw [hsnap] at h
    obtain ⟨seq, rfl, hstarted⟩ := admitSequence_started h hsnap
    exact ⟨⟨seq, AList.lookup_insert _, hstarted⟩, fun id hne => AList.lookup_insert_ne hne⟩
  · have hrestored : p.restored = snapshot.position := by
      rw [PendingSequence.restored, hsnap]
      rfl
    rw [hsnap] at h
    simp only at h
    split at h
    · cases h
    · rename_i hle
      rcases haccepted : admitSequence cfg p seqs with e | seqs₁
      · rw [haccepted] at h
        cases h
      · rw [haccepted] at h
        -- the same request without the snapshot
        have hfresh : admitSequence cfg { p with snapshot := none } seqs = .ok seqs₁ := haccepted
        obtain ⟨seq, rfl, hstarted⟩ := admitSequence_started hfresh rfl
        have hlook : (seqs.insert p.request.id seq).lookup p.request.id = some seq :=
          AList.lookup_insert _
        simp only [hlook, Except.ok.injEq] at h
        subst h
        refine ⟨⟨seq.restore snapshot, AList.lookup_insert _, ⟨hstarted.prompt,
          hstarted.maxOutput, hstarted.capacity, hstarted.emitted, hrestored.symm,
          hrestored.symm, hstarted.images, hstarted.choice, ?_, hsnap.symm, hrestored.symm, rfl,
          hrestored ▸ not_lt.mp hle, hstarted.length, fun hwhole => ?_⟩⟩, fun id hne => ?_⟩
        · rw [hsnap]
          rfl
        · rw [hsnap]
          refine if_pos ?_
          rw [hstarted.prompt, ← hwhole]
          exact hrestored.symm
        · rw [AList.lookup_insert_ne hne]
          exact AList.lookup_insert_ne hne

theorem reserveCache_spec {id : RequestId} {w w' : Worker κ σ} (h : w.reserveCache id = .ok w') :
    w'.scheduler = w.scheduler ∧ w'.runtime = w.runtime ∧ w'.pending = w.pending := by
  rw [Worker.reserveCache] at h
  split at h
  · cases h
  · split at h
    · cases h
    · simp only at h
      split at h
      · cases h
      · split at h
        · cases h
        · simp only [Except.ok.injEq] at h
          subst h
          exact ⟨rfl, rfl, rfl⟩

theorem releaseCache_spec (id : RequestId) (w : Worker κ σ) :
    (w.releaseCache id).scheduler = w.scheduler ∧ (w.releaseCache id).runtime = w.runtime ∧
      (w.releaseCache id).pending = w.pending := by
  rw [Worker.releaseCache]
  split
  · exact ⟨rfl, rfl, rfl⟩
  · exact ⟨rfl, rfl, rfl⟩

/-- Handing over the requests of a batch: those pending are admitted to the
runtime, everything else stays. -/
theorem admitScheduled_spec :
    ∀ {items : List PrefillItem} {w w' : Worker κ σ},
      (∀ id p, w.pending.lookup id = some p → p.request.id = id) →
      w.admitScheduled (deviceRuntime M cfg io) items = .ok w' →
      w'.scheduler = w.scheduler ∧
        (∀ id p, id ∈ items.map (·.id) → w.pending.lookup id = some p →
          w'.pending.lookup id = none ∧
            ∃ seq, w'.runtime.lookup id = some seq ∧ Started cfg p seq) ∧
        ∀ id, (id ∉ items.map (·.id) ∨ w.pending.lookup id = none) →
          w'.pending.lookup id = w.pending.lookup id ∧
            w'.runtime.lookup id = w.runtime.lookup id := by
  intro items
  induction items with
  | nil =>
    intro w w' _ h
    simp only [Worker.admitScheduled, Except.ok.injEq] at h
    subst h
    exact ⟨rfl, fun id p hid => absurd hid List.not_mem_nil, fun _ _ => ⟨rfl, rfl⟩⟩
  | cons item items ih =>
    intro w w' hids h
    rw [Worker.admitScheduled] at h
    -- not pending: it was handed over in an earlier step
    rcases hpend : w.pending.lookup item.id with _ | p₀
    · rw [hpend] at h
      obtain ⟨hsched, hin, hout⟩ := ih hids h
      refine ⟨hsched, fun id p hid hp => ?_, fun id hid => hout id ?_⟩
      · rcases List.mem_cons.mp hid with rfl | hid
        · rw [hpend] at hp
          cases hp
        · exact hin id p hid hp
      · rcases hid with hid | hid
        · exact Or.inl fun hmem => hid (List.mem_cons_of_mem _ hmem)
        · exact Or.inr hid
    · rw [hpend] at h
      simp only at h
      rcases hreserve : w.reserveCache item.id with e | w₁
      · rw [hreserve] at h
        cases h
      · rw [hreserve] at h
        simp only at h
        obtain ⟨hsched₁, hruntime₁, hpending₁⟩ := reserveCache_spec hreserve
        rcases haccepted : admitPending cfg p₀ w₁.runtime with e | runtime
        · simp only [deviceRuntime, haccepted, Except.mapError] at h
          cases h
        · simp only [deviceRuntime, haccepted, Except.mapError] at h
          have hid₀ : p₀.request.id = item.id := hids _ _ hpend
          obtain ⟨⟨seq, hseq, hstarted⟩, hothers⟩ := admitPending_started haccepted
          rw [hid₀] at hseq hothers
          rw [hruntime₁] at hothers
          -- the rest of the batch finds the other pending entries as they were
          have hrest : ∀ id, id ≠ item.id →
              (w₁.pending.erase item.id).lookup id = w.pending.lookup id := fun id hne => by
            rw [AList.lookup_erase_ne hne, hpending₁]
          obtain ⟨hsched, hin, hout⟩ := ih (fun id p hp => by
            by_cases hne : id = item.id
            · rw [hne] at hp
              rw [AList.lookup_erase] at hp
              cases hp
            · exact hids id p (hrest id hne ▸ hp)) h
          refine ⟨hsched.trans hsched₁, fun id p hid hp => ?_, fun id hid => ?_⟩
          · by_cases hne : id = item.id
            · -- handed over now, and left alone by the rest
              subst hne
              rw [hpend] at hp
              cases hp
              obtain ⟨hpending', hruntime'⟩ := hout item.id (Or.inr (AList.lookup_erase _ _))
              exact ⟨hpending'.trans (AList.lookup_erase _ _), seq, hruntime'.trans hseq, hstarted⟩
            · have hmem : id ∈ items.map (·.id) := (List.mem_cons.mp hid).resolve_left hne
              exact hin id p hmem ((hrest id hne).trans hp)
          -- an id that is not this item's, or not pending
          · have hne : id ≠ item.id := by
              rintro rfl
              rcases hid with hid | hid
              · exact hid List.mem_cons_self
              · rw [hpend] at hid
                cases hid
            obtain ⟨hpending', hruntime'⟩ := hout id (by
              rcases hid with hid | hid
              · exact Or.inl fun hmem => hid (List.mem_cons_of_mem _ hmem)
              · exact Or.inr ((hrest id hne).trans hid))
            exact ⟨hpending'.trans (hrest id hne), hruntime'.trans (hothers id hne)⟩

end Admission

/-! ### Decodes -/

section Decodes

variable {M : Target Row κ σ} {cfg : RuntimeConfig} {io : StepOracle}

/-- Every one of these requests is resident, and in step with its sequence. -/
def AllInStep (cfg : RuntimeConfig) (extra : RequestId → ℕ) (rs : List TrackedRequest)
    (seqs : Sequences κ σ) : Prop :=
  ∀ r ∈ rs, ∃ seq, seqs.lookup r.id = some seq ∧ InStep cfg (extra r.id) r seq

/-- Rows written for a request stay below the capacity it was admitted with. -/
def WritesWithin (cfg : RuntimeConfig) (rs : List TrackedRequest) (log : StepLog) : Prop :=
  ∀ w ∈ log.writes, ∃ r ∈ rs, r.id = w.1 ∧
    w.2.1 + w.2.2 ≤ r.request.fullSeqLen + (cfg.window - 1)

/-- A decode share keeps a request in step, the tokens beyond the first being
what the scheduler has yet to hear of. -/
theorem decode_inStep {id : RequestId} {r r' : TrackedRequest} {seq seq' : RuntimeSequence κ σ}
    {log : StepLog} (h : InStep cfg 0 r seq) (hopen : ¬seq.finished)
    (hreq : r'.request = r.request) (hcomp : r'.computedTokens = r.computedTokens + 1)
    (hready : (r.promptTokens : ℕ) ≤ r.computedTokens)
    (hshort : r.computedTokens < r.fullSeqLen.val)
    (hwindow : (io.proposals id).length ≤ cfg.window - 1)
    (hshare : DecodeShare M cfg io id (seq.withDraft cfg (io.proposals id)) seq' log) :
    seq.nextToken.isSome ∧ InStep cfg ((log.tokens id).length - 1) r' seq' ∧
      log.WritesBelow (r.request.fullSeqLen + (cfg.window - 1)) := by
  have hprompt : r'.promptTokens = r.promptTokens := congrArg NewRequest.promptTokens hreq
  cases h with
  | prefilling _ _ _ hlt => exact absurd hready (Nat.not_le.mpr hlt)
  | done _ _ hfin => exact absurd hfin hopen
  | generating hmirrors hgen =>
    obtain ⟨hframe, hprefilled, hcount, hwrites⟩ :=
      hshare.progress hgen.pending hopen hwindow
    have hmirrors' : Mirrors cfg r' seq' := (hmirrors.framed hframe).congr hreq
    have hlength := fullSeqLen_of_decodes hready hshort
    have hcomputed := hgen.computed
    have hposition := hgen.position
    have hmax := hmirrors.maxOutput
    have hroom : seq.emitted < seq.maxOutput := Nat.not_le.mp hopen
    refine ⟨hgen.pending, ?_, hwrites.mono ?_⟩
    · by_cases hfin : seq'.finished
      · exact InStep.done hmirrors' (by rw [hprompt, hcomp]; omega) hfin
      · obtain ⟨n, htokens, hemitted, hpos, hpending⟩ := hcount hfin
        refine InStep.generating hmirrors' ⟨?_, ?_, ?_, ?_, hpending⟩
        · rw [hprompt, hcomp]
          omega
        · rw [hprompt, hprefilled, hgen.prefilled]
        · rw [hprompt, hcomp, hemitted, htokens]
          omega
        · rw [hprompt, hpos, hemitted]
          omega
    · rw [hlength]
      omega

/-- The decodes of a step keep every running request in step. -/
theorem decodes_inStep {cost : ℕ} {rs rs' : List TrackedRequest} {ds : List DecodeItem}
    {seqs seqs' : Sequences κ σ} {log : StepLog} (hdec : Decoded cost rs rs' ds)
    (hnodup : (ids rs).Nodup)
    (hlive : ∀ r ∈ rs, ∃ seq, seqs.lookup r.id = some seq ∧ InStep cfg 0 r seq ∧ ¬seq.finished)
    (hwindow : ∀ id, (io.proposals id).length ≤ cfg.window - 1)
    (hexec : executeDecodes M cfg io (ds.map (·.id)) seqs = .ok (seqs', log)) :
    AllInStep cfg (fun id => (log.tokens id).length - 1) rs' seqs' ∧
      (∀ id ∈ ds.map (·.id), ∃ seq, seqs.lookup id = some seq ∧ seq.nextToken.isSome) ∧
      WritesWithin cfg rs log := by
  obtain ⟨-, -, hin, hout⟩ := executeDecodes_spec hexec
  obtain ⟨hscheduled, hfate⟩ := hdec.fate hnodup
  -- one scheduled request, and the entry it is left with
  have hone : ∀ r ∈ rs, r.id ∈ ds.map (·.id) → (r.promptTokens : ℕ) ≤ r.computedTokens →
      r.computedTokens < r.fullSeqLen.val → ∀ r' : TrackedRequest, r'.request = r.request →
      r'.computedTokens = r.computedTokens + 1 →
      ∃ seq seq', seqs.lookup r.id = some seq ∧ seqs'.lookup r.id = some seq' ∧
        seq.nextToken.isSome ∧ InStep cfg ((log.tokens r.id).length - 1) r' seq' ∧
        (log.only r.id).WritesBelow (r.request.fullSeqLen + (cfg.window - 1)) := by
    intro r hr hid hready hshort r' hreq hcomp
    obtain ⟨seq, hseq, hstep, hopen⟩ := hlive r hr
    obtain ⟨seq₀, seq', hseq₀, hseq', hshare⟩ := hin r.id hid
    obtain rfl : seq = seq₀ := Option.some.inj (hseq.symm.trans hseq₀)
    obtain ⟨hpending, hstep', hwrites⟩ :=
      decode_inStep hstep hopen hreq hcomp hready hshort (hwindow r.id) hshare
    rw [StepLog.tokens_only] at hstep'
    exact ⟨seq, seq', hseq, hseq', hpending, hstep', hwrites⟩
  refine ⟨fun r' hr' => ?_, fun id hid => ?_, fun w hw => ?_⟩
  -- an entry of the new list: it was not scheduled, or is one further on
  · obtain ⟨r, hr, hreq, hcase⟩ := hfate r' hr'
    have hid : r'.id = r.id := congrArg NewRequest.id hreq
    rcases hcase with ⟨rfl, hnot⟩ | ⟨hcomp, hmem, hready, hshort⟩
    · obtain ⟨seq, hseq, hstep, -⟩ := hlive r' hr
      obtain ⟨hsame, hsilent⟩ := hout r'.id hnot
      refine ⟨seq, hsame.trans hseq, ?_⟩
      show InStep cfg ((log.tokens r'.id).length - 1) r' seq
      rw [← StepLog.tokens_only, hsilent]
      exact hstep
    · obtain ⟨seq, seq', -, hseq', -, hstep', -⟩ := hone r hr hmem hready hshort r' hreq hcomp
      exact ⟨seq', hid ▸ hseq', hid ▸ hstep'⟩
  -- what was scheduled was ready, and holds a pending token
  · obtain ⟨r, hr, rfl, hready, hshort⟩ := hscheduled id hid
    obtain ⟨seq, -, hseq, -, hpending, -⟩ := hone r hr hid hready hshort
      { r with computedTokens := r.computedTokens + 1 } rfl rfl
    exact ⟨seq, hseq, hpending⟩
  · have hwonly : w ∈ (log.only w.1).writes := List.mem_filter.mpr ⟨hw, decide_eq_true rfl⟩
    -- a write belongs to a scheduled request, or there is none
    by_cases hid : w.1 ∈ ds.map (·.id)
    · obtain ⟨r, hr, hrid, hready, hshort⟩ := hscheduled w.1 hid
      rw [← hrid] at hid
      obtain ⟨-, -, -, -, -, -, hwrites⟩ := hone r hr hid hready hshort
        { r with computedTokens := r.computedTokens + 1 } rfl rfl
      exact ⟨r, hr, hrid, hwrites w (hrid ▸ hwonly)⟩
    · rw [(hout w.1 hid).2] at hwonly
      exact absurd hwonly List.not_mem_nil

end Decodes

/-! ### Prefills -/

section Prefills

variable {M : Target Row κ σ} {cfg : RuntimeConfig} {io : StepOracle}

theorem executePrefill_spec {id : RequestId} {tokens : ℕ} {seqs seqs' : Sequences κ σ}
    {log : StepLog} (h : executePrefill M cfg io id tokens seqs = .ok (seqs', log)) :
    ∃ seq seq', seqs.lookup id = some seq ∧ seqs' = seqs.insert id seq' ∧
      prefillSequence M cfg io id tokens seq = .ok (seq', log) := by
  rw [executePrefill] at h
  rcases hlook : seqs.lookup id with _ | seq
  · rw [hlook] at h
    cases h
  · rw [hlook] at h
    simp only at h
    rcases hseq : prefillSequence M cfg io id tokens seq with e | ⟨seq', log'⟩
    · rw [hseq] at h
      cases h
    · rw [hseq] at h
      simp only [Except.ok.injEq, Prod.mk.injEq] at h
      exact ⟨seq, seq', rfl, h.1.symm, h.2 ▸ hseq⟩

/-- One prefill and the rest of them. -/
theorem executePrefills_cons {item : PrefillItem} {items : List PrefillItem}
    {seqs seqs' : Sequences κ σ} {log : StepLog}
    (h : executePrefills M cfg io (item :: items) seqs = .ok (seqs', log)) :
    ∃ seqs₁ log₁ log₂, executePrefill M cfg io item.id item.tokens seqs = .ok (seqs₁, log₁) ∧
      executePrefills M cfg io items seqs₁ = .ok (seqs', log₂) ∧ log = log₁ ++ log₂ := by
  rw [executePrefills] at h
  rcases hone : executePrefill M cfg io item.id item.tokens seqs with e | ⟨seqs₁, log₁⟩
  · rw [hone] at h
    cases h
  · rw [hone] at h
    simp only at h
    rcases hrest : executePrefills M cfg io items seqs₁ with e | ⟨seqs₂, log₂⟩
    · rw [hrest] at h
      cases h
    · rw [hrest] at h
      simp only [Except.ok.injEq, Prod.mk.injEq] at h
      obtain ⟨rfl, rfl⟩ := h
      exact ⟨seqs₁, log₁, log₂, rfl, hrest, rfl⟩

theorem executePrefills_append :
    ∀ {items items' : List PrefillItem} {seqs seqs' : Sequences κ σ} {log : StepLog},
      executePrefills M cfg io (items ++ items') seqs = .ok (seqs', log) →
      ∃ seqs₁ log₁ log₂, executePrefills M cfg io items seqs = .ok (seqs₁, log₁) ∧
        executePrefills M cfg io items' seqs₁ = .ok (seqs', log₂) ∧ log = log₁ ++ log₂ := by
  intro items
  induction items with
  | nil => exact fun h => ⟨_, _, _, rfl, h, StepLog.empty_append.symm⟩
  | cons item items ih =>
    intro items' seqs seqs' log h
    rw [List.cons_append] at h
    obtain ⟨seqs₁, log₁, log₂, hone, hrest, rfl⟩ := executePrefills_cons h
    obtain ⟨seqs₂, log₃, log₄, hfirst, hsecond, rfl⟩ := ih hrest
    refine ⟨seqs₂, log₁ ++ log₃, log₄, ?_, hsecond, (StepLog.append_assoc ..).symm⟩
    rw [executePrefills, hone]
    simp only [hfirst]

/-- Prefills touch only the requests they name, and add none. -/
theorem executePrefills_others :
    ∀ {items : List PrefillItem} {seqs seqs' : Sequences κ σ} {log : StepLog},
      executePrefills M cfg io items seqs = .ok (seqs', log) →
      (∀ id, id ∉ items.map (·.id) →
        seqs'.lookup id = seqs.lookup id ∧ log.only id = StepLog.empty) ∧
        ∀ id, (seqs'.lookup id).isSome → (seqs.lookup id).isSome := by
  intro items
  induction items with
  | nil =>
    intro seqs seqs' log h
    simp only [executePrefills, Except.ok.injEq, Prod.mk.injEq] at h
    obtain ⟨rfl, rfl⟩ := h
    exact ⟨fun _ _ => ⟨rfl, rfl⟩, fun _ h => h⟩
  | cons item items ih =>
    intro seqs seqs' log h
    obtain ⟨seqs₁, log₁, log₂, hone, hrest, rfl⟩ := executePrefills_cons h
    obtain ⟨seq, seq', hseq, rfl, hok⟩ := executePrefill_spec hone
    obtain ⟨hothers, hkeys⟩ := ih hrest
    obtain ⟨-, -, -, -, -, -, habout, -⟩ := prefillSequence_progress hok
    refine ⟨fun id hid => ?_, fun id hid => ?_⟩
    · rw [List.map_cons, List.mem_cons, not_or] at hid
      obtain ⟨hsame, hsilent⟩ := hothers id hid.2
      refine ⟨hsame.trans (AList.lookup_insert_ne hid.1), ?_⟩
      rw [StepLog.only_append, hsilent, StepLog.append_empty,
        StepLog.only_of_ne habout (Ne.symm hid.1)]
    · have hsome := hkeys id hid
      by_cases hne : id = item.id
      · rw [hne, hseq]
        rfl
      · rwa [AList.lookup_insert_ne hne] at hsome

/-- Execution counts the tokens of every resident sequence. -/
theorem executePrefills_emits {id : RequestId} :
    ∀ {items : List PrefillItem} {seqs seqs' : Sequences κ σ} {log : StepLog}
      {seq : RuntimeSequence κ σ}, executePrefills M cfg io items seqs = .ok (seqs', log) →
      seqs.lookup id = some seq →
      ∃ seq', seqs'.lookup id = some seq' ∧ Emits id seq seq' log := by
  intro items
  induction items with
  | nil =>
    intro seqs seqs' log seq h hlook
    simp only [executePrefills, Except.ok.injEq, Prod.mk.injEq] at h
    obtain ⟨rfl, rfl⟩ := h
    exact ⟨seq, hlook, Emits.refl id seq⟩
  | cons item items ih =>
    intro seqs seqs' log seq h hlook
    obtain ⟨seqs₁, log₁, log₂, hone, hrest, rfl⟩ := executePrefills_cons h
    obtain ⟨seq₀, seq₁, hlook₀, rfl, hok⟩ := executePrefill_spec hone
    by_cases hid : item.id = id
    · subst hid
      obtain rfl : seq = seq₀ := Option.some.inj (hlook.symm.trans hlook₀)
      obtain ⟨seq', hlook', hemits⟩ := ih hrest (AList.lookup_insert _)
      exact ⟨seq', hlook', (prefillSequence_emits hok).append hemits⟩
    · -- a grant to another sequence adds nothing
      obtain ⟨-, -, -, -, -, -, habout, -⟩ := prefillSequence_progress hok
      obtain ⟨seq', hlook', hemits⟩ :=
        ih hrest ((AList.lookup_insert_ne (Ne.symm hid)).trans hlook)
      have hsilent : Emits id seq seq log₁ := by
        apply Emits.of_only
        rw [StepLog.only_of_ne habout hid]
        exact Emits.refl id seq
      exact ⟨seq', hlook', hsilent.append hemits⟩

/-- A prefill keeps a request in step, whether or not it completes the prompt. -/
theorem prefill_inStep {id : RequestId} {chunk : ℕ} {r r' : TrackedRequest}
    {seq seq' : RuntimeSequence κ σ} {log : StepLog} (hmirrors : Mirrors cfg r seq)
    (hprefilling : Prefilling r seq) (hreq : r'.request = r.request)
    (hcomp : r'.computedTokens = r.computedTokens + chunk)
    (hok : prefillSequence M cfg io id chunk seq = .ok (seq', log)) :
    InStep cfg 0 r' seq' ∧ log.WritesBelow (r.request.fullSeqLen + (cfg.window - 1)) := by
  obtain ⟨hle, hframe, hprefilled, hposition, hinside, hend, -, hwrites⟩ :=
    prefillSequence_progress hok
  have hprompt : r'.promptTokens = r.promptTokens := congrArg NewRequest.promptTokens hreq
  have hmirrors' : Mirrors cfg r' seq' := (hmirrors.framed hframe).congr hreq
  have hlength := hmirrors.prompt
  have hfull : (r.promptTokens : ℕ) ≤ r.request.fullSeqLen := by
    have hp := r.promptTokens.isLt
    exact le_min (Nat.le_add_right _ _) (by omega)
  rw [hprefilling.prefilled, hlength] at hle hinside hend
  refine ⟨?_, hwrites.mono ?_⟩
  · rcases Nat.lt_or_eq_of_le hle with hlt | heq
    · refine InStep.prefilling hmirrors' rfl ⟨?_, ?_, ?_⟩ (by rw [hprompt, hcomp]; exact hlt)
      · rw [hinside hlt, hprefilling.emitted]
      · rw [hprefilled, hprefilling.prefilled, hcomp]
      · rw [hposition, hprefilling.position, hcomp]
    · by_cases hfin : seq'.finished
      · exact InStep.done hmirrors' (by rw [hprompt, hcomp]; exact heq.ge) hfin
      · obtain ⟨hemitted, hpending⟩ := hend heq hfin
        rw [hprefilling.emitted] at hemitted
        refine InStep.generating hmirrors' ⟨?_, ?_, ?_, ?_, hpending⟩
        · rw [hprompt, hcomp]
          exact heq.ge
        · rw [hprompt, hprefilled, hprefilling.prefilled]
          exact heq
        · rw [hprompt, hcomp, hemitted]
          omega
        · rw [hprompt, hposition, hprefilling.position, hemitted]
          omega
  · rw [hprefilling.position]
    omega

/-- The grants of phase 2 keep every running request in step. -/
theorem grants_inStep {extra : RequestId → ℕ} {rs rs' : List TrackedRequest}
    {items : List PrefillItem} (h : Granted rs items rs') :
    ∀ {seqs seqs' : Sequences κ σ} {log : StepLog}, (ids rs).Nodup →
      AllInStep cfg extra rs seqs →
      executePrefills M cfg io items seqs = .ok (seqs', log) →
      AllInStep cfg extra rs' seqs' ∧ WritesWithin cfg rs log := by
  induction h with
  | nil =>
    intro seqs seqs' log _ hrs hexec
    simp only [executePrefills, Except.ok.injEq, Prod.mk.injEq] at hexec
    obtain ⟨rfl, rfl⟩ := hexec
    exact ⟨hrs, fun w hw => absurd hw List.not_mem_nil⟩
  | @grant rs rs' items r i chunk hget hpos hle _ ih =>
    intro seqs seqs' log hnodup hrs hexec
    obtain ⟨seqs₁, log₁, log₂, hone, hrest, rfl⟩ := executePrefills_cons hexec
    obtain ⟨seq, seq', hseq, rfl, hok⟩ := executePrefill_spec hone
    have hmem : r ∈ rs := List.mem_of_getElem? hget
    obtain ⟨seq₀, hseq₀, hstep⟩ := hrs r hmem
    obtain rfl : seq = seq₀ := Option.some.inj (hseq.symm.trans hseq₀)
    have hids : ids (rs.set i { r with computedTokens := r.computedTokens + chunk }) = ids rs :=
      Scheduler.ids_of_pinned (Scheduler.set_pinned hget _)
    have hshort : r.computedTokens < r.promptTokens := by omega
    cases hstep with
    | generating _ hgen => exact absurd hgen.prompt_le (Nat.not_le.mpr hshort)
    | done _ hprompt _ => exact absurd hprompt (Nat.not_le.mpr hshort)
    | prefilling hmirrors hnone hprefilling _ =>
      obtain ⟨hstep', hwrites⟩ := prefill_inStep hmirrors hprefilling
        (show ({ r with computedTokens := r.computedTokens + chunk } : TrackedRequest).request
          = r.request from rfl) rfl hok
      obtain ⟨hall, hwrites'⟩ := ih (hids ▸ hnodup) (fun q hq => by
        rcases Scheduler.mem_set_of_nodup hnodup hget hq with rfl | ⟨hq, hne⟩
        · exact ⟨seq', AList.lookup_insert _, by simpa only [hnone] using hstep'⟩
        · obtain ⟨seq₁, hseq₁, hstep₁⟩ := hrs q hq
          exact ⟨seq₁, (AList.lookup_insert_ne hne).trans hseq₁, hstep₁⟩) hrest
      refine ⟨hall, fun w hw => ?_⟩
      obtain ⟨-, -, -, -, -, -, habout, -⟩ := prefillSequence_progress hok
      rcases List.mem_append.mp (show w ∈ log₁.writes ++ log₂.writes from hw) with hw | hw
      · have hid : w.1 = r.id := by
          rw [← habout] at hw
          exact of_decide_eq_true (List.mem_filter.mp hw).2
        exact ⟨r, hmem, hid.symm, hwrites w hw⟩
      · obtain ⟨q, hq, hid, hbound⟩ := hwrites' w hw
        rcases List.mem_or_eq_of_mem_set hq with hq | rfl
        · exact ⟨q, hq, hid, hbound⟩
        · exact ⟨r, hmem, hid, hbound⟩

/-- The admissions of phase 3 bring their requests into step. -/
theorem admissions_inStep {scfg : SchedulerConfig} {total : U32} {extra : RequestId → ℕ}
    {waiting running waiting' running' : List TrackedRequest} {free free' : ℕ}
    {items : List PrefillItem}
    (h : Admitted scfg total waiting running free items waiting' running' free') :
    ∀ {seqs seqs' : Sequences κ σ} {log : StepLog}, (ids (waiting ++ running)).Nodup →
      AllInStep cfg extra running seqs →
      (∀ r ∈ waiting, r.id ∈ items.map (·.id) → extra r.id = 0 ∧
        ∃ seq, seqs.lookup r.id = some seq ∧ Mirrors cfg r seq ∧ Prefilling r seq) →
      executePrefills M cfg io items seqs = .ok (seqs', log) →
      AllInStep cfg extra running' seqs' ∧ WritesWithin cfg (waiting ++ running) log := by
  induction h with
  | nil =>
    intro seqs seqs' log _ hrs _ hexec
    simp only [executePrefills, Except.ok.injEq, Prod.mk.injEq] at hexec
    obtain ⟨rfl, rfl⟩ := hexec
    exact ⟨hrs, fun w hw => absurd hw List.not_mem_nil⟩
  | @pull waiting running waiting' running' free free' items r chunk _ _ hle _ ih =>
    intro seqs seqs' log hnodup hrs hwaiting hexec
    obtain ⟨seqs₁, log₁, log₂, hone, hrest, rfl⟩ := executePrefills_cons hexec
    obtain ⟨seq, seq', hseq, rfl, hok⟩ := executePrefill_spec hone
    obtain ⟨hnone, seq₀, hseq₀, hmirrors, hprefilling⟩ :=
      hwaiting r List.mem_cons_self List.mem_cons_self
    obtain rfl : seq = seq₀ := Option.some.inj (hseq.symm.trans hseq₀)
    set r' : TrackedRequest := { r with
      computedTokens := r.computedTokens + chunk, blocksReserved := scfg.reservation r } with hr'
    -- the request pulled now is handed its chunk, and starts from nothing emitted
    obtain ⟨hstep', hwrites⟩ := prefill_inStep hmirrors hprefilling
      (show r'.request = r.request from rfl) (show r'.computedTokens = _ from rfl) hok
    have hfresh : r.id ∉ ids (waiting ++ running) := (List.nodup_cons.mp hnodup).1
    have hperm : (ids (waiting ++ (running ++ [r']))).Perm (ids (r :: waiting ++ running)) := by
      rw [← List.append_assoc, ids, List.map_append]
      exact List.perm_append_singleton _ _
    have hne : ∀ q ∈ waiting ++ running, q.id ≠ r.id := fun q hq heq =>
      hfresh (heq ▸ List.mem_map_of_mem hq)
    -- the others are not this one, so they are as the induction wants them
    obtain ⟨hall, hwrites'⟩ := ih (hperm.nodup_iff.mpr hnodup) (fun q hq => by
      rcases List.mem_append.mp hq with hq | hq
      · obtain ⟨seq₁, hseq₁, hstep₁⟩ := hrs q hq
        exact ⟨seq₁, (AList.lookup_insert_ne
          (hne q (List.mem_append_right _ hq))).trans hseq₁, hstep₁⟩
      · rw [List.mem_singleton.mp hq]
        refine ⟨seq', AList.lookup_insert _, ?_⟩
        rw [show extra r'.id = 0 from hnone]
        exact hstep') (fun q hq hitem => by
      obtain ⟨hextra, seq₁, hseq₁, hrest₁⟩ :=
        hwaiting q (List.mem_cons_of_mem _ hq) (List.mem_cons_of_mem _ hitem)
      exact ⟨hextra, seq₁, (AList.lookup_insert_ne
        (hne q (List.mem_append_left _ hq))).trans hseq₁, hrest₁⟩) hrest
    refine ⟨hall, fun w hw => ?_⟩
    obtain ⟨-, -, -, -, -, -, habout, -⟩ := prefillSequence_progress hok
    -- the first pass writes for this request, the others for those behind it
    rcases List.mem_append.mp (show w ∈ log₁.writes ++ log₂.writes from hw) with hw | hw
    · have hid : w.1 = r.id := by
        rw [← habout] at hw
        exact of_decide_eq_true (List.mem_filter.mp hw).2
      exact ⟨r, List.mem_append_left _ List.mem_cons_self, hid.symm, hwrites w hw⟩
    · obtain ⟨q, hq, hid, hbound⟩ := hwrites' w hw
      rcases List.mem_append.mp hq with hq | hq
      · exact ⟨q, List.mem_append_left _ (List.mem_cons_of_mem _ hq), hid, hbound⟩
      · rcases List.mem_append.mp hq with hq | hq
        · exact ⟨q, List.mem_append_right _ hq, hid, hbound⟩
        · rw [List.mem_singleton.mp hq] at hid hbound
          exact ⟨r, List.mem_append_left _ List.mem_cons_self, hid, hbound⟩

end Prefills
