/-
The life of one sequence.

Seen from one request a device step is a grant of prompt tokens, a share of
the decode half, or nothing.  `SequenceStep` is one of these steps, under what
the scheduler guarantees of it: a sequence is granted prompt tokens before it
has emitted anything, and decodes afterwards until it has finished.  A `Life`
is any number of them from an admission on.

`execute_lives` says that a device step leads every resident sequence along its
life, and `stepDevice_lives` that a worker's steps keep to those guarantees.
-/
import Llmxabe.Lib.Run
import Llmxabe.Runtime.Lockstep

variable {Row κ σ : Type}

/-- What a device step has in store for one sequence. -/
inductive SequenceMove where
  | prefill (io : StepOracle) (tokens : ℕ)
  | decode (io : StepOracle)

/-- The drafts and grants of a move. -/
def SequenceMove.io : SequenceMove → StepOracle
  | prefill io _ => io
  | decode io => io

/-- One step of one sequence, with what has been reported of it so far. -/
inductive SequenceStep (M : Target Row κ σ) (cfg : RuntimeConfig) (id : RequestId) :
    RuntimeSequence κ σ × StepLog → SequenceMove → RuntimeSequence κ σ × StepLog → Prop where
  | prefill {seq seq' : RuntimeSequence κ σ} {log log' : StepLog} {io : StepOracle} {tokens : ℕ} :
      seq.emitted = 0 → prefillSequence M cfg io id tokens seq = .ok (seq', log') →
      SequenceStep M cfg id (seq, log) (.prefill io tokens) (seq', log ++ log')
  | decode {seq seq' : RuntimeSequence κ σ} {log log' : StepLog} {io : StepOracle} :
      0 < seq.emitted → ¬seq.finished → seq.nextToken.isSome →
      (io.proposals id).length ≤ cfg.window - 1 →
      DecodeShare M cfg io id (seq.withDraft cfg (io.proposals id)) seq' log' →
      SequenceStep M cfg id (seq, log) (.decode io) (seq', log ++ log')

/-- Some steps of a request's sequence since its admission. -/
def Life (M : Target Row κ σ) (cfg : RuntimeConfig) (id : RequestId) (p : PendingSequence κ σ)
    (moves : List SequenceMove) (seq : RuntimeSequence κ σ) (log : StepLog) : Prop :=
  ∃ seq₀, Started cfg p seq₀ ∧
    Run (SequenceStep M cfg id) (seq₀, StepLog.empty) moves (seq, log)

/-! ### A device step -/

section Execute

variable {M : Target Row κ σ} {cfg : RuntimeConfig} {io : StepOracle} {id : RequestId}
  {seq : RuntimeSequence κ σ} {log : StepLog}

/-- What the scheduler grants one sequence: prompt tokens it has not computed,
or a single first grant. -/
def Grantable (id : RequestId) (seq : RuntimeSequence κ σ) (items : List PrefillItem) : Prop :=
  ((∀ item ∈ items, item.id = id → 0 < item.tokens) ∧
      (seq.prefilled < seq.prompt.length → seq.emitted = 0)) ∨
    (seq.emitted = 0 ∧ (items.map (·.id)).count id ≤ 1)

theorem executePrefills_lives :
    ∀ {items : List PrefillItem} {seqs seqs' : Sequences κ σ} {log log' : StepLog}
      {seq : RuntimeSequence κ σ}, executePrefills M cfg io items seqs = .ok (seqs', log') →
      seqs.lookup id = some seq → Grantable id seq items →
      ∃ moves seq', Run (SequenceStep M cfg id) (seq, log) moves (seq', log ++ log'.only id) ∧
        (∀ m ∈ moves, m.io = io) ∧ seqs'.lookup id = some seq' := by
  intro items
  induction items with
  | nil =>
    intro seqs seqs' log log' seq h hlook _
    simp only [executePrefills, Except.ok.injEq, Prod.mk.injEq] at h
    obtain ⟨rfl, rfl⟩ := h
    refine ⟨[], seq, ?_, fun m hm => absurd hm List.not_mem_nil, hlook⟩
    rw [StepLog.only_empty, StepLog.append_empty]
    exact Run.nil
  | cons item items ih =>
    intro seqs seqs' log log' seq h hlook hgrant
    obtain ⟨seqs₁, log₁, log₂, hone, hrest, rfl⟩ := executePrefills_cons h
    obtain ⟨seq₀, seq₁, hlook₀, rfl, hok⟩ := executePrefill_spec hone
    obtain ⟨hle, hframe, hprefilled, -, hinside, -, habout, -⟩ := prefillSequence_progress hok
    rw [StepLog.only_append]
    by_cases hid : item.id = id
    -- an item of this sequence: a move of its own, and what is left of the grants
    · subst hid
      obtain rfl : seq = seq₀ := Option.some.inj (hlook.symm.trans hlook₀)
      have hemitted : seq.emitted = 0 := by
        rcases hgrant with ⟨hpos, hzero⟩ | ⟨hzero, -⟩
        · have htokens := hpos item List.mem_cons_self rfl
          exact hzero (by omega)
        · exact hzero
      have hzero₁ : seq₁.prefilled < seq₁.prompt.length → seq₁.emitted = 0 := by
        rw [hprefilled, hframe.prompt]
        exact fun hlt => (hinside hlt).trans hemitted
      have hgrant₁ : Grantable item.id seq₁ items := by
        refine Or.inl ⟨fun q hq hqid => ?_, hzero₁⟩
        rcases hgrant with ⟨hpos, -⟩ | ⟨-, hcount⟩
        · exact hpos q (List.mem_cons_of_mem _ hq) hqid
        · -- the one grant of this sequence is spent
          have hmem : item.id ∈ items.map (·.id) := hqid ▸ List.mem_map_of_mem hq
          have hcount' := List.count_pos_iff.mpr hmem
          rw [List.map_cons, List.count_cons_self] at hcount
          omega
      obtain ⟨moves, seq', hrun, hio, hlook'⟩ :=
        @ih _ _ (log ++ log₁) _ _ hrest (AList.lookup_insert _) hgrant₁
      refine ⟨.prefill io item.tokens :: moves, seq', ?_, fun m hm => ?_, hlook'⟩
      · rw [habout, ← StepLog.append_assoc]
        exact Run.cons (.prefill hemitted hok) hrun
      · rcases List.mem_cons.mp hm with rfl | hm
        · rfl
        · exact hio m hm
    -- an item of another sequence: nothing happens to this one
    · have hgrant₁ : Grantable id seq items := by
        rcases hgrant with ⟨hpos, hzero⟩ | ⟨hzero, hcount⟩
        · exact Or.inl ⟨fun q hq => hpos q (List.mem_cons_of_mem _ hq), hzero⟩
        · rw [List.map_cons, List.count_cons_of_ne hid] at hcount
          exact Or.inr ⟨hzero, hcount⟩
      rw [StepLog.only_of_ne habout hid, StepLog.empty_append]
      exact ih hrest ((AList.lookup_insert_ne (Ne.symm hid)).trans hlook) hgrant₁

/-- A device step leads a resident sequence along its life, to its end or to
where the runtime has it afterwards. -/
theorem execute_lives {scheduled : BatchDescription} {seqs seqs' : Sequences κ σ}
    {step : RuntimeStep} (h : execute M cfg io scheduled seqs = .ok (seqs', step))
    (hwindow : (io.proposals id).length ≤ cfg.window - 1) (hlook : seqs.lookup id = some seq)
    (hdecode : id ∈ scheduled.decodes.map (·.id) → id ∉ scheduled.prefills.map (·.id) ∧
      0 < seq.emitted ∧ ¬seq.finished ∧ seq.nextToken.isSome)
    (hgrant : Grantable id seq scheduled.prefills) :
    ∃ moves seq', Run (SequenceStep M cfg id) (seq, log) moves (seq', log ++ step.log.only id) ∧
      (∀ m ∈ moves, m.io = io) ∧ (id ∈ step.completed ↔ seq'.finished) ∧
      seqs'.lookup id = if seq'.finished then none else some seq' := by
  obtain ⟨seqs₁, seqs₂, decoded, prefilled, hdec, hpre, hlog, hcompleted, hafter⟩ :=
    execute_spec h
  obtain ⟨-, -, hscheduled, hothers⟩ := executeDecodes_spec hdec
  have hclose : ∀ {seq'}, seqs₂.lookup id = some seq' → (id ∈ step.completed ↔ seq'.finished) ∧
      seqs'.lookup id = if seq'.finished then none else some seq' := by
    intro seq' hseq'
    have hiff : id ∈ step.completed ↔ seq'.finished := by
      rw [hcompleted, finishedIds_spec]
      constructor
      · rintro ⟨q, hq, hfin⟩
        exact Option.some.inj (hseq'.symm.trans hq) ▸ hfin
      · exact fun hfin => ⟨seq', hseq', hfin⟩
    refine ⟨hiff, ?_⟩
    rw [hafter id, hseq']
    by_cases hfin : seq'.finished
    · rw [if_pos hfin, if_pos (hiff.mpr hfin)]
    · rw [if_neg hfin, if_neg (mt hiff.mp hfin)]
  rw [hlog, StepLog.only_append]
  by_cases hid : id ∈ scheduled.decodes.map (·.id)
  · obtain ⟨hnot, hpos, hopen, hpending⟩ := hdecode hid
    obtain ⟨seq₀, seq', hlook₀, hlook₁, hshare⟩ := hscheduled id hid
    obtain rfl : seq = seq₀ := Option.some.inj (hlook.symm.trans hlook₀)
    obtain ⟨hsame, hsilent⟩ := (executePrefills_others hpre).1 id hnot
    rw [hsilent, StepLog.append_empty]
    exact ⟨[.decode io], seq', Run.single (.decode hpos hopen hpending hwindow hshare),
      fun m hm => List.mem_singleton.mp hm ▸ rfl, hclose (hsame.trans hlook₁)⟩
  · obtain ⟨hsame, hsilent⟩ := hothers id hid
    rw [hsilent, StepLog.empty_append]
    obtain ⟨moves, seq', hrun, hio, hlook'⟩ :=
      executePrefills_lives hpre (hsame.trans hlook) hgrant
    exact ⟨moves, seq', hrun, hio, hclose hlook'⟩

end Execute

/-! ### A worker's run -/

section Worker

open Scheduler (ids)

variable {M : Target Row κ σ} {cfg : RuntimeConfig} {io : StepOracle} {w w' : Worker κ σ}
  {id : RequestId}

/-- A step of the worker takes a sequence along its life. -/
def Lives (M : Target Row κ σ) (cfg : RuntimeConfig) (io : StepOracle) (w' : Worker κ σ)
    (step : DeviceStep) (id : RequestId) (seq : RuntimeSequence κ σ) (log : StepLog) : Prop :=
  ∃ moves seq', Run (SequenceStep M cfg id) (seq, log) moves (seq', log ++ step.log.only id) ∧
    (∀ m ∈ moves, m.io = io) ∧ (id ∈ step.completed ↔ seq'.finished) ∧
    w'.runtime.lookup id = if seq'.finished then none else some seq'

theorem complete_runtime :
    ∀ (gone : List RequestId) (w : Worker κ σ), (gone.foldl Worker.complete w).runtime = w.runtime := by
  intro gone
  induction gone with
  | nil => exact fun _ => rfl
  | cons id gone ih =>
    intro w
    rw [List.foldl_cons, ih]
    exact (releaseCache_spec id _).2.1

/-- A step of a worker in lockstep keeps to what the scheduler guarantees of
each sequence, those it has just handed over included. -/
theorem stepDevice_lives (log : StepLog) {step : DeviceStep} (hw : Lockstep cfg w)
    (hwindow : ∀ id, (io.proposals id).length ≤ cfg.window - 1)
    (h : w.stepDevice M cfg io = .ok (w', step)) :
    (∀ seq, w.runtime.lookup id = some seq → Lives M cfg io w' step id seq log) ∧
      ∀ seq', w'.runtime.lookup id = some seq' → w.runtime.lookup id = none →
        ∃ p seq, w.pending.lookup id = some p ∧ Started cfg p seq ∧
          Lives M cfg io w' step id seq StepLog.empty := by
  obtain ⟨w₁, seqs', rstep, hadmit, hexec, rfl, rfl⟩ := stepDevice_spec h
  have hstepped := @Scheduler.stepInto_spec w.scheduler fun r hr => by
    obtain ⟨p, -, hawaits⟩ := hw.waiting r hr
    exact hawaits.computed_le
  obtain ⟨rs, shared, grants, admissions, hshape⟩ := hstepped.shape hw.nodup
  have hover := hw.handedOver hshape hadmit
  -- whoever holds a sequence after the hand-over lives through the execution
  have hlives : ∀ {seq log}, w₁.runtime.lookup id = some seq →
      (id ∈ w.scheduler.stepInto.val.2.decodes.map (·.id) →
        0 < seq.emitted ∧ ¬seq.finished ∧ seq.nextToken.isSome) →
      Grantable id seq w.scheduler.stepInto.val.2.prefills →
      ∃ moves seq', Run (SequenceStep M cfg id) (seq, log) moves
          (seq', log ++ rstep.log.only id) ∧
        (∀ m ∈ moves, m.io = io) ∧ (id ∈ rstep.completed ↔ seq'.finished) ∧
        seqs'.lookup id = if seq'.finished then none else some seq' :=
    fun hseq hdecode hgrant => execute_lives hexec (hwindow id) hseq
      (fun hid => ⟨hshape.decodes_not_prefilled hid, hdecode hid⟩) hgrant
  simp only [Lives, complete_runtime]
  constructor
  -- resident before: what is scheduled of it fits where it stands
  · intro seq hseq
    obtain ⟨r, hr, rfl⟩ := List.mem_map.mp (hw.resident id (by rw [hseq]; rfl))
    obtain ⟨seq₀, hseq₀, hin, hopen⟩ := hw.running r hr
    obtain rfl : seq₀ = seq := Option.some.inj (hseq₀.symm.trans hseq)
    refine hlives ((hover.running r.id (List.mem_map_of_mem hr)).trans hseq) (fun hid => ?_)
      (Or.inl ⟨fun item hitem hid => ?_, fun hlt => ?_⟩)
    · obtain ⟨q, hq, hqid, hready, -⟩ := (hshape.decode.fate hshape.running_nodup).1 r.id hid
      obtain rfl : q = r := List.inj_on_of_nodup_map hshape.running_nodup hq hr hqid
      cases hin with
      | prefilling _ _ _ hlt => exact absurd hready (Nat.not_le.mpr hlt)
      | generating _ hgen =>
        have hcomputed := hgen.computed
        exact ⟨by omega, hopen, hgen.pending⟩
      | done _ _ hfin => exact absurd hfin hopen
    -- a grant is not empty, and a running request is not admitted again
    · rw [hshape.prefills, List.mem_append] at hitem
      rcases hitem with hitem | hitem
      · obtain ⟨-, -, -, hpos, -⟩ := hshape.granted_short hitem
        exact hpos
      · have hwait := hshape.admissions_waiting (List.mem_map_of_mem hitem)
        exact absurd (hid ▸ List.mem_map_of_mem hr) (hshape.not_running hwait)
    · cases hin with
      | prefilling _ _ hpre _ => exact hpre.emitted
      | generating hmirrors hgen =>
        rw [hgen.prefilled, hmirrors.prompt] at hlt
        exact absurd hlt (lt_irrefl _)
      | done _ _ hfin => exact absurd hfin hopen
  · intro seq' hseq' hnone
    -- resident now and not before: pulled from the queue by this step
    have hresident : (w₁.runtime.lookup id).isSome := by
      obtain ⟨seqs₁, seqs₂, decoded, prefilled, hdec, hpre, -, -, hafter⟩ := execute_spec hexec
      obtain ⟨-, -, hin, hout⟩ := executeDecodes_spec hdec
      have hseqs₂ : (seqs₂.lookup id).isSome := by
        have hlook := hafter id
        rw [hseq'] at hlook
        split at hlook
        · cases hlook
        · rw [← hlook]
          rfl
      have hseqs₁ := (executePrefills_others hpre).2 id hseqs₂
      by_cases hid : id ∈ w.scheduler.stepInto.val.2.decodes.map (·.id)
      · obtain ⟨seq, -, hseq, -⟩ := hin id hid
        rw [hseq]
        rfl
      · rwa [(hout id hid).1] at hseqs₁
    have hrunning := hover.resident id hresident
    rw [hshape.ids_running, List.mem_append] at hrunning
    have hadmitted : id ∈ admissions.map (·.id) := by
      refine hrunning.resolve_left fun hmem => ?_
      rw [hover.running id hmem, hnone] at hresident
      cases hresident
    obtain ⟨r, hr, rfl⟩ := List.mem_map.mp (hshape.admissions_waiting hadmitted)
    obtain ⟨p, seq, hp, hseq, hstarted, -, hprefilling⟩ := hover.admitted r hr hadmitted
    -- a request just admitted does not decode, and has one grant
    refine ⟨p, seq, hp, hstarted, hlives hseq (fun hid => ?_) (Or.inr ⟨hprefilling.emitted, ?_⟩)⟩
    · exact absurd (hshape.decodes_running hid) (hshape.not_running (List.mem_map_of_mem hr))
    · have hnodup := hshape.running_nodup'
      rw [hshape.ids_running] at hnodup
      obtain ⟨-, hadm, -⟩ := List.nodup_append.mp hnodup
      have hgrants : (grants.map (·.id)).count r.id = 0 := List.count_eq_zero.mpr fun hmem =>
        hshape.not_running (List.mem_map_of_mem hr) (hshape.grants_running hmem)
      rw [hshape.prefills, List.map_append, List.count_append, hgrants, Nat.zero_add]
      exact List.nodup_iff_count_le_one.mp hadm r.id

/-- In every run of a worker, each resident sequence is somewhere in the life
of the request it was submitted as. -/
theorem resident_lives {sched : SchedulerConfig} {blocks : U32} {slots : ℕ}
    {calls : List (WorkerOp κ σ × WorkerOutcome)}
    (hrun : Run (WorkerCall M cfg) (Worker.new sched blocks slots) calls w) {id : RequestId}
    {seq : RuntimeSequence κ σ} (hseq : w.runtime.lookup id = some seq) :
    ∃ p moves log, p.request.id = id ∧ Life M cfg id p moves seq log := by
  induction hrun generalizing seq with
  | nil => cases hseq
  | @snoc calls w w' call hrun hcall ih =>
    have hw := run_lockstep hrun
    -- an admission touches nothing that is resident
    have hadmitted : ∀ p computedPrefix,
        (w.admitValidated cfg p computedPrefix).1.runtime = w.runtime := by
      intro p computedPrefix
      rw [Worker.admitValidated]
      split
      · rfl
      · split
        · rfl
        · rfl
    cases hcall with
    | admitTokens p =>
      rw [Worker.admitTokens, hadmitted] at hseq
      exact ih hseq
    | admitTokensRestored p snapshot =>
      rw [Worker.admitTokensRestored, hadmitted] at hseq
      exact ih hseq
    | @stepDevice _ io step hwindow hstep =>
      rcases hlook : w.runtime.lookup id with _ | seq₀
      -- not resident before: its life begins with this step
      · obtain ⟨p, seq₁, hp, hstarted, moves, seq', hmoves, -, -, hlook'⟩ :=
          (stepDevice_lives StepLog.empty hw hwindow hstep).2 seq hseq hlook
        rw [hlook'] at hseq
        split at hseq
        · cases hseq
        · obtain rfl : seq' = seq := Option.some.inj hseq
          exact ⟨p, moves, _, hw.pending_id hp, seq₁, hstarted, hmoves⟩
      -- resident before: its life goes on
      · obtain ⟨p, moves₀, log, hid, seq₁, hstarted, hlife⟩ := ih hlook
        obtain ⟨moves, seq', hmoves, -, -, hlook'⟩ :=
          (stepDevice_lives log hw hwindow hstep).1 seq₀ hlook
        rw [hlook'] at hseq
        split at hseq
        · cases hseq
        · obtain rfl : seq' = seq := Option.some.inj hseq
          exact ⟨p, moves₀ ++ moves, _, hid, seq₁, hstarted, hlife.append hmoves⟩
    | cancel id' =>
      have hruntime : (w.cancel id').1.runtime
          = if w.scheduler.isRunning id' then w.runtime.erase id' else w.runtime := by
        rw [Worker.cancel]
        split
        · exact (releaseCache_spec id' _).2.1
        · rfl
      -- a cancelled sequence is gone, and no other changes
      rw [hruntime] at hseq
      split at hseq
      · by_cases hne : id = id'
        · rw [hne, AList.lookup_erase] at hseq
          cases hseq
        · rw [AList.lookup_erase_ne hne] at hseq
          exact ih hseq
      · exact ih hseq

end Worker
