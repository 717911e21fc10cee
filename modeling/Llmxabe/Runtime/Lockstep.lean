/-
A worker's scheduler and its device runtime stay in lockstep.

`Lockstep` is the invariant of a worker between two calls: the running
requests are the resident sequences, each in step and unfinished, and the
waiting requests are the pending ones.  Every call keeps it:

* `stepDevice_lockstep`: a device step, after which the scheduler has heard of
  every token;
* `admitValidated_lockstep`, `cancel_lockstep`: the calls between steps;
* `worker_lockstep`: a run of any of them.

`SoundStep` is what each device step owes its worker on the way.
-/
import Llmxabe.Lib.Run
import Llmxabe.Runtime.InStep

variable {Row κ σ : Type}

open Scheduler (Decoded Granted Admitted ids)

/-- Between two calls the worker's two halves hold the same requests, in step. -/
structure Lockstep (cfg : RuntimeConfig) (w : Worker κ σ) : Prop where
  running : ∀ r ∈ w.scheduler.running, ∃ seq, w.runtime.lookup r.id = some seq ∧
    InStep cfg 0 r seq ∧ ¬seq.finished
  resident : ∀ id, (w.runtime.lookup id).isSome → id ∈ ids w.scheduler.running
  waiting : ∀ r ∈ w.scheduler.waiting, ∃ p, w.pending.lookup r.id = some p ∧ Awaits r p
  pending : ∀ id, (w.pending.lookup id).isSome → id ∈ ids w.scheduler.waiting
  nodup : (ids w.scheduler.tracked).Nodup

/-! ### The scheduler hears of the step -/

section Bookkeeping

/-- The progress the scheduler is told of a request that has decoded. -/
def reported (log : StepLog) (r : TrackedRequest) : ℕ :=
  let emitted := (log.tokens r.id).length % 2 ^ 32
  if 1 < emitted then min (satAddU32 r.computedTokens (emitted - 1)) r.fullSeqLen.val
  else r.computedTokens

/-- Same requests, waiting and running, up to the progress of the running. -/
structure Advanced (ds : List RequestId) (log : StepLog) (s s' : Scheduler) : Prop where
  waiting : s'.waiting = s.waiting
  ids_eq : ids s'.running = ids s.running
  running : ∀ r' ∈ s'.running, ∃ r ∈ s.running, r'.request = r.request ∧
    ((r.id ∉ ds ∧ r' = r) ∨ (r.id ∈ ds ∧ r'.computedTokens = reported log r))

theorem ids_split {before after : List TrackedRequest} {r : TrackedRequest}
    (h : (ids (before ++ r :: after)).Nodup) : ∀ q ∈ before ++ after, q.id ≠ r.id := by
  intro q hq heq
  have hperm : (ids (before ++ r :: after)).Perm (r.id :: ids (before ++ after)) := by
    simp only [ids, List.map_append, List.map_cons]
    exact List.perm_middle
  have hnot := (List.nodup_cons.mp (hperm.nodup_iff.mp h)).1
  exact hnot (heq ▸ List.mem_map_of_mem hq)

theorem advanceDecode_advanced (log : StepLog) {s : Scheduler} (item : DecodeItem)
    (hnodup : (ids s.running).Nodup) :
    Advanced [item.id] log s (Worker.advanceDecode log s item) := by
  have hsame : ∀ {s' : Scheduler}, s' = s →
      (∀ r ∈ s.running, r.id = item.id → reported log r = r.computedTokens) →
      Advanced [item.id] log s s' := by
    rintro s' rfl hcaught
    refine ⟨rfl, rfl, fun r hr => ⟨r, hr, rfl, ?_⟩⟩
    by_cases hid : r.id = item.id
    · exact Or.inr ⟨List.mem_singleton.mpr hid, (hcaught r hr hid).symm⟩
    · exact Or.inl ⟨fun hmem => hid (List.mem_singleton.mp hmem), rfl⟩
  rw [Worker.advanceDecode]
  by_cases hmany : 1 < (log.tokens item.id).length % 2 ^ 32
  · rw [if_pos hmany]
    rcases hfind : s.running.find? (·.id == item.id) with _ | r
    · rw [Scheduler.advanceSpeculative, hfind]
      refine hsame rfl fun r hr hid => ?_
      have hnone := List.find?_eq_none.mp hfind r hr
      exact absurd (beq_iff_eq.mpr hid) hnone
    · obtain ⟨before, after, hrs, hid, -, hreplace⟩ := Scheduler.find_split hfind
      rw [Scheduler.advanceSpeculative, hfind]
      simp only [Wrapping.bind_val, Wrapping.pure_val, hreplace]
      rw [hrs] at hnodup
      have hothers := ids_split hnodup
      refine ⟨rfl, by simp [ids, hrs], fun q hq => ?_⟩
      have hother : ∀ q ∈ before ++ after, ∃ r ∈ s.running, q.request = r.request ∧
          ((r.id ∉ [item.id] ∧ q = r) ∨
            (r.id ∈ [item.id] ∧ q.computedTokens = reported log r)) := by
        intro q hq
        refine ⟨q, hrs ▸ ?_, rfl, Or.inl ⟨fun hmem => ?_, rfl⟩⟩
        · rcases List.mem_append.mp hq with hq | hq
          · exact List.mem_append_left _ hq
          · exact List.mem_append_right _ (List.mem_cons_of_mem _ hq)
        · exact hothers q hq ((List.mem_singleton.mp hmem).trans hid.symm)
      rcases List.mem_append.mp hq with hq | hq
      · exact hother q (List.mem_append_left _ hq)
      · rcases List.mem_cons.mp hq with rfl | hq
        · refine ⟨r, by rw [hrs]; simp, rfl, Or.inr ⟨List.mem_singleton.mpr hid, ?_⟩⟩
          have hlt : (log.tokens item.id).length % 2 ^ 32 - 1 < 2 ^ 32 :=
            lt_of_le_of_lt (Nat.sub_le _ _) (Nat.mod_lt _ (by norm_num))
          rw [reported, hid, if_pos hmany]
          show min (satAddU32 r.computedTokens
            (((log.tokens item.id).length % 2 ^ 32 - 1) % 2 ^ 32)) _ = _
          rw [Nat.mod_eq_of_lt hlt]
        · exact hother q (List.mem_append_right _ hq)
  · rw [if_neg hmany]
    refine hsame rfl fun r _ hid => ?_
    rw [reported, hid]
    exact if_neg hmany

theorem advanceDecodes_advanced (log : StepLog) :
    ∀ {items : List DecodeItem} {s : Scheduler}, (items.map (·.id)).Nodup →
      (ids s.running).Nodup →
      Advanced (items.map (·.id)) log s (items.foldl (Worker.advanceDecode log) s) := by
  intro items
  induction items with
  | nil => exact fun _ _ => ⟨rfl, rfl, fun r hr => ⟨r, hr, rfl, Or.inl ⟨List.not_mem_nil, rfl⟩⟩⟩
  | cons item items ih =>
    intro s hitems hnodup
    obtain ⟨hfresh, hitems⟩ := List.nodup_cons.mp hitems
    have hone := advanceDecode_advanced log item hnodup
    have hrest := @ih (Worker.advanceDecode log s item) hitems (hone.ids_eq ▸ hnodup)
    refine ⟨hrest.waiting.trans hone.waiting, hrest.ids_eq.trans hone.ids_eq, fun r' hr' => ?_⟩
    obtain ⟨r₁, hr₁, hreq₁, hcase₁⟩ := hrest.running r' hr'
    obtain ⟨r, hr, hreq, hcase⟩ := hone.running r₁ hr₁
    have hid : r₁.id = r.id := congrArg NewRequest.id hreq
    refine ⟨r, hr, hreq₁.trans hreq, ?_⟩
    rcases hcase with ⟨hnot, rfl⟩ | ⟨hin, hcomp⟩
    · rcases hcase₁ with ⟨hnot₁, hsame⟩ | ⟨hin₁, hcomp₁⟩
      · refine Or.inl ⟨fun hmem => ?_, hsame⟩
        rcases List.mem_cons.mp hmem with heq | hmem
        · exact hnot (List.mem_singleton.mpr heq)
        · exact hnot₁ hmem
      · exact Or.inr ⟨List.mem_cons_of_mem _ hin₁, hcomp₁⟩
    · have heq : r.id = item.id := List.mem_singleton.mp hin
      rcases hcase₁ with ⟨-, rfl⟩ | ⟨hin₁, -⟩
      · exact Or.inr ⟨List.mem_cons.mpr (Or.inl heq), hcomp⟩
      · have hmem : item.id ∈ items.map (·.id) := by
          rw [← heq, ← hid]
          exact hin₁
        exact absurd hmem hfresh

/-- The running requests but for some, and the same waiting ones. -/
structure Finished (gone : List RequestId) (s s' : Scheduler) : Prop where
  waiting : s'.waiting = s.waiting
  running : ∀ r, r ∈ s'.running ↔ r ∈ s.running ∧ r.id ∉ gone
  sub : (ids s'.running).Sublist (ids s.running)

/-- Erasing by id takes the one request of that id. -/
theorem erase_id {rs : List TrackedRequest} (id : RequestId) (hnodup : (ids rs).Nodup) :
    (∀ r, r ∈ rs.eraseP (·.id == id) ↔ r ∈ rs ∧ r.id ≠ id) ∧
      (ids (rs.eraseP (·.id == id))).Sublist (ids rs) := by
  rcases hfind : rs.find? (·.id == id) with _ | r
  · have hnone : ∀ r ∈ rs, r.id ≠ id := fun r hr heq =>
      List.find?_eq_none.mp hfind r hr (beq_iff_eq.mpr heq)
    rw [List.eraseP_of_forall_not (List.find?_eq_none.mp hfind)]
    exact ⟨fun r => ⟨fun hr => ⟨hr, hnone r hr⟩, fun hr => hr.1⟩, List.Sublist.refl _⟩
  · obtain ⟨before, after, hrs, hid, herase, -⟩ := Scheduler.find_split hfind
    rw [herase]
    rw [hrs] at hnodup
    have hothers := ids_split hnodup
    refine ⟨fun q => ⟨fun hq => ⟨?_, fun hqid => hothers q hq (hqid.trans hid.symm)⟩,
      fun ⟨hq, hne⟩ => ?_⟩, ?_⟩
    · rw [hrs]
      rcases List.mem_append.mp hq with hq | hq
      · exact List.mem_append_left _ hq
      · exact List.mem_append_right _ (List.mem_cons_of_mem _ hq)
    · rw [hrs] at hq
      rcases List.mem_append.mp hq with hq | hq
      · exact List.mem_append_left _ hq
      · rcases List.mem_cons.mp hq with rfl | hq
        · exact absurd hid hne
        · exact List.mem_append_right _ hq
    · rw [hrs]
      simp only [ids, List.map_append, List.map_cons]
      exact (List.Sublist.refl _).append (List.sublist_cons_self _ _)

theorem finishRequest_finished {s : Scheduler} (id : RequestId) (hnodup : (ids s.running).Nodup) :
    Finished [id] s (s.finishRequest id).val.1 := by
  rcases hfind : s.running.find? (·.id == id) with _ | r
  · rw [Scheduler.finishRequest, hfind]
    refine ⟨rfl, fun r => ⟨fun hr => ⟨hr, fun hmem => ?_⟩, fun hr => hr.1⟩, List.Sublist.refl _⟩
    have hnone := List.find?_eq_none.mp hfind r hr
    exact hnone (beq_iff_eq.mpr (List.mem_singleton.mp hmem))
  · obtain ⟨hmem, hsub⟩ := erase_id id hnodup
    rw [Scheduler.finishRequest, hfind]
    simp only [Wrapping.bind_val, Wrapping.pure_val]
    exact ⟨rfl, fun q => by rw [List.mem_singleton]; exact hmem q, hsub⟩

theorem complete_finished :
    ∀ {gone : List RequestId} {w : Worker κ σ}, (ids w.scheduler.running).Nodup →
      Finished gone w.scheduler (gone.foldl Worker.complete w).scheduler ∧
        (gone.foldl Worker.complete w).runtime = w.runtime ∧
        (gone.foldl Worker.complete w).pending = w.pending := by
  intro gone
  induction gone with
  | nil =>
    exact fun _ => ⟨⟨rfl, fun r => ⟨fun hr => ⟨hr, List.not_mem_nil⟩, fun hr => hr.1⟩,
      List.Sublist.refl _⟩, rfl, rfl⟩
  | cons id gone ih =>
    intro w hnodup
    obtain ⟨hsched, hruntime, hpending⟩ := releaseCache_spec id
      { w with scheduler := (w.scheduler.finishRequest id).val.1 }
    have hone := finishRequest_finished id hnodup
    obtain ⟨hrest, hruntime', hpending'⟩ := @ih (w.complete id)
      (by rw [Worker.complete, hsched]; exact hone.sub.nodup hnodup)
    rw [Worker.complete, hsched] at hrest
    refine ⟨⟨hrest.waiting.trans hone.waiting, fun r => ?_, hrest.sub.trans hone.sub⟩,
      hruntime'.trans hruntime, hpending'.trans hpending⟩
    refine (hrest.running r).trans ?_
    rw [hone.running r, List.mem_singleton, List.mem_cons, not_or, and_assoc]

theorem finishedIds_spec {seqs : Sequences κ σ} {id : RequestId} :
    id ∈ finishedIds seqs ↔ ∃ seq, seqs.lookup id = some seq ∧ seq.finished := by
  rw [finishedIds, List.mem_map]
  constructor
  · rintro ⟨⟨id', seq⟩, hq, rfl⟩
    obtain ⟨hentry, hfin⟩ := List.mem_filter.mp hq
    exact ⟨seq, AList.mem_lookup_iff.mpr hentry, of_decide_eq_true hfin⟩
  · rintro ⟨seq, hlook, hfin⟩
    exact ⟨⟨id, seq⟩, List.mem_filter.mpr ⟨AList.mem_lookup_iff.mp hlook,
      decide_eq_true hfin⟩, rfl⟩

theorem eraseAll_lookup :
    ∀ {gone : List RequestId} {seqs : Sequences κ σ} (id : RequestId),
      (gone.foldl (fun seqs id => seqs.erase id) seqs).lookup id
        = if id ∈ gone then none else seqs.lookup id := by
  intro gone
  induction gone with
  | nil => exact fun _ => rfl
  | cons g gone ih =>
    intro seqs id
    rw [List.foldl_cons, ih]
    by_cases hg : id = g
    · subst hg
      rw [AList.lookup_erase, if_pos List.mem_cons_self, ite_self]
    · rw [AList.lookup_erase_ne hg]
      simp only [List.mem_cons, hg, false_or]

end Bookkeeping

/-! ### A device step -/

section Step

variable {M : Target Row κ σ} {cfg : RuntimeConfig} {io : StepOracle} {w w' : Worker κ σ}

/-- The tokens the runtime has emitted for a request. -/
def Worker.emitted (w : Worker κ σ) (id : RequestId) : ℕ :=
  ((w.runtime.lookup id).map (·.emitted)).getD 0

/-- What a device step owes its worker: grants inside the prompt, decodes with
a pending token, writes below the admitted capacity, and a request gone from
both halves exactly when it has completed.  Of the requests that run by then
those complete that have met the end of the turn or emitted their budget. -/
structure SoundStep (cfg : RuntimeConfig) (w w' : Worker κ σ) (step : DeviceStep) : Prop where
  granted : ∀ item ∈ step.scheduled.prefills, ∃ r ∈ w.scheduler.tracked, r.id = item.id ∧
    r.computedTokens + item.tokens ≤ r.promptTokens
  decodable : ∀ item ∈ step.scheduled.decodes, ∃ seq, w.runtime.lookup item.id = some seq ∧
    seq.nextToken.isSome
  written : WritesWithin cfg w.scheduler.tracked step.log
  completed : ∀ r ∈ w.scheduler.tracked, r.id ∈ step.completed ↔
    (r.id ∈ ids w.scheduler.running ∨ r.id ∈ step.scheduled.prefills.map (·.id)) ∧
      (r.id ∈ step.log.stopped ∨
        r.maxOutputTokens ≤ w.emitted r.id + (step.log.tokens r.id).length)
  kept : ∀ id, id ∈ ids w'.scheduler.tracked ↔ id ∈ ids w.scheduler.tracked ∧ id ∉ step.completed
  released : ∀ id ∈ step.completed, id ∈ ids w.scheduler.tracked ∧ w'.runtime.lookup id = none

theorem execute_spec {scheduled : BatchDescription} {seqs seqs' : Sequences κ σ}
    {step : RuntimeStep} (h : execute M cfg io scheduled seqs = .ok (seqs', step)) :
    ∃ seqs₁ seqs₂ decoded prefilled,
      executeDecodes M cfg io (scheduled.decodes.map (·.id)) seqs = .ok (seqs₁, decoded) ∧
      executePrefills M cfg io scheduled.prefills seqs₁ = .ok (seqs₂, prefilled) ∧
      step.log = decoded ++ prefilled ∧ step.completed = finishedIds seqs₂ ∧
      ∀ id, seqs'.lookup id = if id ∈ step.completed then none else seqs₂.lookup id := by
  rw [execute] at h
  rcases hdec : executeDecodes M cfg io (scheduled.decodes.map (·.id)) seqs
    with e | ⟨seqs₁, decoded⟩
  · rw [hdec] at h
    cases h
  · rw [hdec] at h
    simp only at h
    rcases hpre : executePrefills M cfg io scheduled.prefills seqs₁ with e | ⟨seqs₂, prefilled⟩
    · rw [hpre] at h
      cases h
    · rw [hpre] at h
      simp only [Except.ok.injEq, Prod.mk.injEq] at h
      obtain ⟨rfl, rfl⟩ := h
      exact ⟨seqs₁, seqs₂, decoded, prefilled, hdec, hpre, rfl, rfl,
        fun id => eraseAll_lookup id⟩

/-- A resident sequence completes in a step when it meets the end of the turn
or emits the last of its budget there. -/
theorem execute_emits {scheduled : BatchDescription} {seqs seqs' : Sequences κ σ}
    {step : RuntimeStep} (h : execute M cfg io scheduled seqs = .ok (seqs', step))
    {id : RequestId} {seq : RuntimeSequence κ σ} (hlook : seqs.lookup id = some seq) :
    id ∈ step.completed ↔ id ∈ step.log.stopped ∨
      seq.maxOutput ≤ seq.emitted + (step.log.tokens id).length := by
  obtain ⟨seqs₁, seqs₂, decoded, prefilled, hdec, hpre, hlog, hcompleted, -⟩ := execute_spec h
  obtain ⟨-, -, hscheduled, hothers⟩ := executeDecodes_spec hdec
  have hdecoded : ∃ seq₁, seqs₁.lookup id = some seq₁ ∧ Emits id seq seq₁ decoded := by
    by_cases hid : id ∈ scheduled.decodes.map (·.id)
    · obtain ⟨seq₀, seq₁, hlook₀, hlook₁, hshare⟩ := hscheduled id hid
      obtain rfl : seq = seq₀ := Option.some.inj (hlook.symm.trans hlook₀)
      exact ⟨seq₁, hlook₁, hshare.emits.of_only⟩
    · obtain ⟨hsame, hsilent⟩ := hothers id hid
      refine ⟨seq, hsame.trans hlook, Emits.of_only ?_⟩
      rw [hsilent]
      exact Emits.refl id seq
  obtain ⟨seq₁, hlook₁, hemits₁⟩ := hdecoded
  obtain ⟨seq₂, hlook₂, hemits₂⟩ := executePrefills_emits hpre hlook₁
  rw [hlog, ← (hemits₁.append hemits₂).finished_iff, hcompleted, finishedIds_spec]
  constructor
  · rintro ⟨q, hq, hfin⟩
    exact Option.some.inj (hlook₂.symm.trans hq) ▸ hfin
  · exact fun hfin => ⟨seq₂, hlook₂, hfin⟩

theorem stepDevice_spec {step : DeviceStep} (h : w.stepDevice M cfg io = .ok (w', step)) :
    ∃ w₁ seqs' rstep, ({ w with scheduler := w.scheduler.stepInto.val.1 }).admitScheduled
        (deviceRuntime M cfg io) w.scheduler.stepInto.val.2.prefills = .ok w₁ ∧
      execute M cfg io w.scheduler.stepInto.val.2 w₁.runtime = .ok (seqs', rstep) ∧
      step = { scheduled := w.scheduler.stepInto.val.2, log := rstep.log
               completed := rstep.completed } ∧
      w' = rstep.completed.foldl Worker.complete { w₁ with
        scheduler := w.scheduler.stepInto.val.2.decodes.foldl (Worker.advanceDecode rstep.log)
          w₁.scheduler
        runtime := seqs' } := by
  rw [Worker.stepDevice, Worker.stepOn] at h
  simp only at h
  rcases haccepted : ({ w with scheduler := w.scheduler.stepInto.val.1 }).admitScheduled
    (deviceRuntime M cfg io) w.scheduler.stepInto.val.2.prefills with e | w₁
  · rw [haccepted] at h
    cases h
  · rw [haccepted] at h
    simp only at h
    rcases hexec : execute M cfg io w.scheduler.stepInto.val.2 w₁.runtime with e | ⟨seqs', rstep⟩
    · simp only [deviceRuntime, hexec, Except.mapError] at h
      cases h
    · simp only [deviceRuntime, hexec, Except.mapError, Except.ok.injEq, Prod.mk.injEq] at h
      exact ⟨w₁, seqs', rstep, haccepted, hexec, h.2.symm, h.1.symm⟩

/-- The worker once a batch's new requests are with the runtime. -/
structure HandedOver (cfg : RuntimeConfig) (w w₁ : Worker κ σ) (s' : Scheduler)
    (admissions : List PrefillItem) : Prop where
  scheduler : w₁.scheduler = s'
  running : ∀ id ∈ ids w.scheduler.running, w₁.runtime.lookup id = w.runtime.lookup id
  admitted : ∀ r ∈ w.scheduler.waiting, r.id ∈ admissions.map (·.id) →
    ∃ p seq, w.pending.lookup r.id = some p ∧ w₁.runtime.lookup r.id = some seq ∧
      Started cfg p seq ∧ Mirrors cfg r seq ∧ Prefilling r seq
  resident : ∀ id, (w₁.runtime.lookup id).isSome → id ∈ ids s'.running
  waiting : ∀ r ∈ s'.waiting, ∃ p, w₁.pending.lookup r.id = some p ∧ Awaits r p
  pending : ∀ id, (w₁.pending.lookup id).isSome → id ∈ ids s'.waiting

theorem Lockstep.pending_id (hw : Lockstep cfg w) {id : RequestId} {p : PendingSequence κ σ}
    (h : w.pending.lookup id = some p) : p.request.id = id := by
  obtain ⟨r, hr, hid⟩ := List.mem_map.mp (hw.pending id (by rw [h]; rfl))
  obtain ⟨p', hp', hawaits⟩ := hw.waiting r hr
  rw [show r.id = id from hid, h, Option.some.injEq] at hp'
  subst hp'
  rw [hawaits.request]
  exact hid

variable {s' : Scheduler} {b : BatchDescription} {rs shared : List TrackedRequest}
  {grants admissions : List PrefillItem}

theorem Lockstep.handedOver {w₁ : Worker κ σ} (hw : Lockstep cfg w)
    (hshape : Scheduler.Shape w.scheduler s' b rs shared grants admissions)
    (h : ({ w with scheduler := s' }).admitScheduled (deviceRuntime M cfg io) b.prefills
      = .ok w₁) :
    HandedOver cfg w w₁ s' admissions := by
  obtain ⟨hsched, hin, hout⟩ :=
    @admitScheduled_spec _ _ _ M cfg io b.prefills { w with scheduler := s' } w₁
      (fun id p hp => hw.pending_id hp) h
  simp only at hsched hin hout
  have hpending : ∀ id ∈ ids w.scheduler.running, w.pending.lookup id = none := by
    intro id hid
    rcases hnone : w.pending.lookup id with _ | p
    · rfl
    · exact absurd hid (hshape.not_running (hw.pending id (by rw [hnone]; rfl)))
  refine ⟨hsched, fun id hid => (hout id (Or.inr (hpending id hid))).2, fun r hr hid => ?_,
    fun id hid => ?_, fun r hr => ?_, fun id hid => ?_⟩
  -- a request admitted by this step: its pending entry is now a sequence
  · obtain ⟨p, hp, hawaits⟩ := hw.waiting r hr
    obtain ⟨-, seq, hseq, hstarted⟩ := hin r.id p (hshape.mem_prefills.mpr (Or.inr hid)) hp
    refine ⟨p, seq, hp, hseq, hstarted, ⟨?_, ?_, ?_⟩, ⟨hstarted.emitted, ?_, ?_⟩⟩
    · rw [hstarted.prompt, hawaits.prompt]
    · rw [hstarted.maxOutput, hawaits.request]
      rfl
    · rw [hstarted.capacity, hawaits.request]
    · rw [hstarted.prefilled, hawaits.computed]
    · rw [hstarted.position, hawaits.computed]
  -- who is resident runs: by the scheduler's account, or from before
  · rw [hshape.ids_running, List.mem_append]
    by_cases hmem : id ∈ b.prefills.map (·.id)
    · rcases hshape.mem_prefills.mp hmem with hmem | hmem
      · exact Or.inl (hshape.grants_running hmem)
      · exact Or.inr hmem
    · rw [(hout id (Or.inl hmem)).2] at hid
      exact Or.inl (hw.resident id hid)
  -- who still waits was not handed over, and has its pending entry
  · have hmem : r ∈ w.scheduler.waiting := hshape.admission.waiting_sublist r hr
    obtain ⟨p, hp, hawaits⟩ := hw.waiting r hmem
    have hnot : r.id ∉ b.prefills.map (·.id) := by
      intro hitem
      have hrun := hshape.not_running' (List.mem_map_of_mem hr)
      rw [hshape.ids_running, List.mem_append, not_or] at hrun
      rcases hshape.mem_prefills.mp hitem with hitem | hitem
      · exact hrun.1 (hshape.grants_running hitem)
      · exact hrun.2 hitem
    exact ⟨p, (hout r.id (Or.inl hnot)).1.trans hp, hawaits⟩
  -- a pending entry that is left belongs to a request that still waits
  · have hnot : id ∉ b.prefills.map (·.id) := by
      intro hitem
      rcases hp : w.pending.lookup id with _ | p
      · rw [(hout id (Or.inr hp)).1, hp] at hid
        cases hid
      · rw [(hin id p hitem hp).1] at hid
        cases hid
    rw [(hout id (Or.inl hnot)).1] at hid
    have hwait := hw.pending id hid
    have htracked := (hshape.tracked id).mpr (Scheduler.mem_ids_tracked.mpr (Or.inl hwait))
    rcases Scheduler.mem_ids_tracked.mp htracked with hmem | hmem
    · exact hmem
    · rw [hshape.ids_running, List.mem_append] at hmem
      rcases hmem with hmem | hmem
      · exact absurd hmem (hshape.not_running hwait)
      · exact absurd (hshape.mem_prefills.mpr (Or.inr hmem)) hnot

/-- A request that has been handed over is resident with the tokens it has emitted. -/
theorem HandedOver.emitted {w₁ : Worker κ σ} (hw : Lockstep cfg w)
    (hshape : Scheduler.Shape w.scheduler s' b rs shared grants admissions)
    (hover : HandedOver cfg w w₁ s' admissions) {r : TrackedRequest}
    (hr : r ∈ w.scheduler.tracked)
    (hrun : r.id ∈ ids w.scheduler.running ∨ r.id ∈ b.prefills.map (·.id)) :
    ∃ seq, w₁.runtime.lookup r.id = some seq ∧ seq.maxOutput = r.maxOutputTokens ∧
      seq.emitted = w.emitted r.id := by
  rcases List.mem_append.mp hr with hr | hr
  · -- a waiting request, admitted by this step
    have hnot := hshape.not_running (List.mem_map_of_mem hr)
    have hadmitted : r.id ∈ admissions.map (·.id) := by
      rcases hshape.mem_prefills.mp (hrun.resolve_left hnot) with hmem | hmem
      · exact absurd (hshape.grants_running hmem) hnot
      · exact hmem
    obtain ⟨-, seq, -, hseq, -, hmirrors, hprefilling⟩ := hover.admitted r hr hadmitted
    have hnone : w.runtime.lookup r.id = none := by
      rcases hlook : w.runtime.lookup r.id with _ | seq
      · rfl
      · exact absurd (hw.resident r.id (by rw [hlook]; rfl)) hnot
    exact ⟨seq, hseq, hmirrors.maxOutput, by rw [hprefilling.emitted, Worker.emitted, hnone]; rfl⟩
  · obtain ⟨seq, hseq, hin, -⟩ := hw.running r hr
    have hmax : seq.maxOutput = r.maxOutputTokens := by
      cases hin with
      | prefilling hmirrors _ _ _ => exact hmirrors.maxOutput
      | generating hmirrors _ => exact hmirrors.maxOutput
      | done hmirrors _ _ => exact hmirrors.maxOutput
    exact ⟨seq, (hover.running r.id (List.mem_map_of_mem hr)).trans hseq, hmax,
      by rw [Worker.emitted, hseq]; rfl⟩

/-- Execution brings every request that now runs into step. -/
theorem execute_inStep {w₁ : Worker κ σ} {seqs₁ seqs₂ : Sequences κ σ}
    {decoded prefilled : StepLog} (hw : Lockstep cfg w)
    (hshape : Scheduler.Shape w.scheduler s' b rs shared grants admissions)
    (hover : HandedOver cfg w w₁ s' admissions)
    (hwindow : ∀ id, (io.proposals id).length ≤ cfg.window - 1)
    (hdec : executeDecodes M cfg io (b.decodes.map (·.id)) w₁.runtime = .ok (seqs₁, decoded))
    (hpre : executePrefills M cfg io b.prefills seqs₁ = .ok (seqs₂, prefilled)) :
    AllInStep cfg (fun id => (decoded.tokens id).length - 1) s'.running seqs₂ ∧
      (∀ id ∈ b.decodes.map (·.id), ∃ seq, w.runtime.lookup id = some seq ∧
        seq.nextToken.isSome) ∧
      WritesWithin cfg w.scheduler.tracked (decoded ++ prefilled) ∧
      ∀ id, (seqs₂.lookup id).isSome → id ∈ ids s'.running := by
  obtain ⟨-, -, hdecin, hdecout⟩ := executeDecodes_spec hdec
  -- first the decodes, then the grants to running prompts, then the admissions
  obtain ⟨hall₁, hpending, hwrites₁⟩ := decodes_inStep hshape.decode hshape.running_nodup
    (fun r hr => by
      obtain ⟨seq, hseq, hrest⟩ := hw.running r hr
      exact ⟨seq, (hover.running r.id (List.mem_map_of_mem hr)).trans hseq, hrest⟩) hwindow hdec
  rw [hshape.prefills] at hpre
  have hothers := executePrefills_others hpre
  obtain ⟨seqs₃, log₁, log₂, hgrants, hadmissions, rfl⟩ := executePrefills_append hpre
  obtain ⟨hall₂, hwrites₂⟩ := grants_inStep hshape.grant
    (hshape.ids_decoded ▸ hshape.running_nodup) hall₁ hgrants
  have hnodup : (ids (w.scheduler.waiting ++ shared)).Nodup := by
    have h := hshape.nodup
    rw [ids, Scheduler.tracked, List.map_append] at h
    rw [ids, List.map_append, show shared.map (·.id) = ids w.scheduler.running from
      hshape.ids_shared]
    exact h
  obtain ⟨hall₃, hwrites₃⟩ := admissions_inStep hshape.admission hnodup hall₂
    -- an admitted request took part in neither of the passes before its own
    (fun r hr hid => by
      have hrun : r.id ∉ ids w.scheduler.running := hshape.not_running (List.mem_map_of_mem hr)
      obtain ⟨hsame, hsilent⟩ := hdecout r.id fun hmem => hrun (hshape.decodes_running hmem)
      obtain ⟨-, seq, -, hseq, -, hprefilling⟩ := hover.admitted r hr hid
      refine ⟨?_, seq, ?_, hprefilling⟩
      · rw [← StepLog.tokens_only, hsilent]
        rfl
      · rw [((executePrefills_others hgrants).1 r.id fun hmem =>
          hrun (hshape.grants_running hmem)).1, hsame, hseq]) hadmissions
  refine ⟨hall₃, fun id hid => ?_, fun wr hwr => ?_, fun id hid => ?_⟩
  · obtain ⟨seq, hseq, hsome⟩ := hpending id hid
    rw [hover.running id (hshape.decodes_running hid)] at hseq
    exact ⟨seq, hseq, hsome⟩
  · -- the request a write belongs to was tracked before the step
    have hfrom : ∀ r ∈ w.scheduler.waiting ++ shared, ∃ r₀ ∈ w.scheduler.tracked,
        r₀.request = r.request := by
      intro r hr
      rcases List.mem_append.mp hr with hr | hr
      · exact ⟨r, List.mem_append_left _ hr, rfl⟩
      · obtain ⟨r₀, hr₀, hreq⟩ := hshape.shared_from hr
        exact ⟨r₀, List.mem_append_right _ hr₀, hreq.symm⟩
    rcases List.mem_append.mp (show wr ∈ decoded.writes ++ (log₁.writes ++ log₂.writes) from hwr)
      with hwr | hwr
    · obtain ⟨r, hr, hrest⟩ := hwrites₁ wr hwr
      exact ⟨r, List.mem_append_right _ hr, hrest⟩
    · rcases List.mem_append.mp hwr with hwr | hwr
      · obtain ⟨r, hr, hid, hbound⟩ := hwrites₂ wr hwr
        obtain ⟨r₀, hr₀, hreq, -⟩ := (hshape.decode.fate hshape.running_nodup).2 r hr
        refine ⟨r₀, List.mem_append_right _ hr₀, ?_, hreq ▸ hbound⟩
        exact (congrArg NewRequest.id hreq).symm.trans hid
      · obtain ⟨r, hr, hid, hbound⟩ := hwrites₃ wr hwr
        obtain ⟨r₀, hr₀, hreq⟩ := hfrom r hr
        exact ⟨r₀, hr₀, (congrArg NewRequest.id hreq).trans hid, hreq ▸ hbound⟩
  -- who is resident afterwards was scheduled, or resident before
  · have hsome := hothers.2 id hid
    by_cases hmem : id ∈ b.decodes.map (·.id)
    · rw [hshape.ids_running]
      exact List.mem_append_left _ (hshape.decodes_running hmem)
    · rw [(hdecout id hmem).1] at hsome
      exact hover.resident id hsome

/-- Once the scheduler has heard of the tokens beyond the first, nothing is
outstanding. -/
theorem InStep.heard {extra : ℕ} {r r' : TrackedRequest} {seq : RuntimeSequence κ σ}
    {log : StepLog} (h : InStep cfg extra r seq) (hopen : ¬seq.finished)
    (hextra : extra = (log.tokens r.id).length - 1)
    (hlength : r.fullSeqLen.val = r.promptTokens + r.maxOutputTokens)
    (hreq : r'.request = r.request) (hcomp : r'.computedTokens = reported log r) :
    InStep cfg 0 r' seq := by
  have hprompt : r'.promptTokens = r.promptTokens := congrArg NewRequest.promptTokens hreq
  have hmaxlt := r.maxOutputTokens.isLt
  have hfull := r.fullSeqLen_lt
  cases h with
  | done _ _ hfin => exact absurd hfin hopen
  | prefilling hmirrors hnone hprefilling hshort =>
    have hfew : ¬1 < (log.tokens r.id).length % 2 ^ 32 := by omega
    have hsame : r'.computedTokens = r.computedTokens := by
      rw [hcomp, reported]
      exact if_neg hfew
    exact InStep.prefilling (hmirrors.congr hreq) rfl
      ⟨hprefilling.emitted, hprefilling.prefilled.trans hsame.symm,
        hprefilling.position.trans hsame.symm⟩ (by rw [hsame, hprompt]; exact hshort)
  | generating hmirrors hgen =>
    have hcomputed := hgen.computed
    have hready := hgen.prompt_le
    have hroom : seq.emitted < r.maxOutputTokens := hmirrors.maxOutput ▸ Nat.not_le.mp hopen
    have hsum : r'.computedTokens = r.computedTokens + extra := by
      rw [hcomp]
      simp only [reported, satAddU32]
      rw [hlength]
      split
      · omega
      · omega
    exact InStep.generating (hmirrors.congr hreq)
      ⟨by rw [hprompt, hsum]; omega, by rw [hprompt]; exact hgen.prefilled,
        by rw [hprompt, hsum]; omega, by rw [hprompt]; exact hgen.position, hgen.pending⟩

/-- A device step keeps the two halves in lockstep. -/
theorem stepDevice_lockstep {step : DeviceStep} (hw : Lockstep cfg w)
    (hwindow : ∀ id, (io.proposals id).length ≤ cfg.window - 1)
    (h : w.stepDevice M cfg io = .ok (w', step)) : Lockstep cfg w' ∧ SoundStep cfg w w' step := by
  obtain ⟨w₁, seqs', rstep, haccepted, hexec, rfl, rfl⟩ := stepDevice_spec h
  obtain ⟨seqs₁, seqs₂, decoded, prefilled, hdec, hpre, hlog, hcompleted, hlook⟩ :=
    execute_spec hexec
  have hstepped := @Scheduler.stepInto_spec w.scheduler fun r hr => by
    obtain ⟨p, -, hawaits⟩ := hw.waiting r hr
    exact hawaits.computed_le
  obtain ⟨rs, shared, grants, admissions, hshape⟩ := hstepped.shape hw.nodup
  have hover := hw.handedOver hshape haccepted
  obtain ⟨hall, hdecodable, hwritten, hresident⟩ :=
    execute_inStep hw hshape hover hwindow hdec hpre
  obtain ⟨hds, -, -, hsilent⟩ := executeDecodes_spec hdec
  set s' := w.scheduler.stepInto.val.1 with hs'
  set b := w.scheduler.stepInto.val.2 with hb
  have hadvanced := advanceDecodes_advanced rstep.log hds
    (show (ids w₁.scheduler.running).Nodup by rw [hover.scheduler]; exact hshape.running_nodup')
  rw [hover.scheduler] at hadvanced
  obtain ⟨hfinished, hruntime, hpending⟩ := @complete_finished _ _ rstep.completed
    { w₁ with
      scheduler := b.decodes.foldl (Worker.advanceDecode rstep.log) w₁.scheduler
      runtime := seqs' }
    (show (ids _).Nodup by
      rw [hover.scheduler, hadvanced.ids_eq]
      exact hshape.running_nodup')
  simp only [hover.scheduler] at hfinished hruntime hpending ⊢
  set s₂ := b.decodes.foldl (Worker.advanceDecode rstep.log) s' with hs₂
  generalize rstep.completed.foldl Worker.complete _ = w' at hfinished hruntime hpending ⊢
  have hgone : ∀ id ∈ rstep.completed, id ∈ ids s'.running := by
    intro id hid
    rw [hcompleted] at hid
    obtain ⟨seq, hseq, -⟩ := finishedIds_spec.mp hid
    exact hresident id (by rw [hseq]; rfl)
  -- the tokens of a decoded request are all in the decode half of the log
  have htokens : ∀ id ∈ b.decodes.map (·.id), rstep.log.tokens id = decoded.tokens id := by
    intro id hid
    have hnone := ((executePrefills_others hpre).1 id (hshape.decodes_not_prefilled hid)).2
    rw [hlog, StepLog.tokens_append]
    show decoded.tokens id ++ prefilled.tokens id = _
    rw [← @StepLog.tokens_only id prefilled, hnone, StepLog.tokens_empty, List.append_nil]
  have hrunning : ∀ id, id ∈ ids w'.scheduler.running ↔
      id ∈ ids s'.running ∧ id ∉ rstep.completed := by
    intro id
    rw [← hadvanced.ids_eq]
    constructor
    · intro hid
      obtain ⟨r, hr, rfl⟩ := List.mem_map.mp hid
      obtain ⟨hr₂, hnot⟩ := (hfinished.running r).mp hr
      exact ⟨List.mem_map_of_mem hr₂, hnot⟩
    · rintro ⟨hid, hnot⟩
      obtain ⟨r, hr, rfl⟩ := List.mem_map.mp hid
      exact List.mem_map_of_mem ((hfinished.running r).mpr ⟨hr, hnot⟩)
  have hwaiting : w'.scheduler.waiting = s'.waiting :=
    hfinished.waiting.trans hadvanced.waiting
  refine ⟨⟨fun r'' hr'' => ?_, fun id hid => ?_, fun r hr => ?_, fun id hid => ?_, ?_⟩,
    ⟨fun item hitem => ?_, fun item hitem => ?_, ?_, fun r hr => ?_, fun id => ?_,
      fun id hid => ⟨?_, ?_⟩⟩⟩
  -- a request that still runs is in step with its sequence, which is not finished
  · obtain ⟨hr₂, hnot⟩ := (hfinished.running r'').mp hr''
    obtain ⟨r', hr', hreq, hcase⟩ := hadvanced.running r'' hr₂
    have hid : r''.id = r'.id := congrArg NewRequest.id hreq
    obtain ⟨seq, hseq, hin⟩ := hall r' hr'
    have hopen : ¬seq.finished := by
      intro hfin
      rw [hid, hcompleted] at hnot
      exact hnot (finishedIds_spec.mpr ⟨seq, hseq, hfin⟩)
    refine ⟨seq, ?_, ?_, hopen⟩
    · rw [hruntime, hlook, if_neg hnot, hid]
      exact hseq
    · rcases hcase with ⟨hnotds, rfl⟩ | ⟨hinds, hcomp⟩
      · have hnone : decoded.tokens r''.id = [] := by
          rw [← StepLog.tokens_only, (hsilent r''.id hnotds).2, StepLog.tokens_empty]
        simp only [hnone] at hin
        exact hin
      -- a decoded request hears of the tokens it emitted
      · obtain ⟨r₀, hr₀, hr₀id, hready, hshort⟩ :=
          (hshape.decode.fate hshape.running_nodup).1 r'.id hinds
        have hlength : r'.fullSeqLen.val = r'.promptTokens + r'.maxOutputTokens := by
          obtain ⟨r₁, hr₁, hreq₁⟩ := hshape.running_from hr' (hshape.decodes_running hinds)
          have hsame : r₁ = r₀ := List.inj_on_of_nodup_map hshape.running_nodup hr₁ hr₀
            ((congrArg NewRequest.id hreq₁).symm.trans hr₀id.symm)
          subst hsame
          exact fullSeqLen_val_of_decodes hready hshort hreq₁
        exact hin.heard hopen (by rw [htokens r'.id hinds]) hlength hreq hcomp
  -- what is left of the runtime belongs to running requests
  · rw [hruntime, hlook] at hid
    split at hid
    · cases hid
    · rename_i hnot
      exact (hrunning id).mpr ⟨hresident id hid, hnot⟩
  · rw [hwaiting] at hr
    rw [hpending]
    exact hover.waiting r hr
  · rw [hpending] at hid
    rw [hwaiting]
    exact hover.pending id hid
  -- no id is tracked twice
  · have hrun : (ids w'.scheduler.running).Sublist (ids s'.running) := by
      rw [← hadvanced.ids_eq]
      exact hfinished.sub
    have hsub : (ids w'.scheduler.tracked).Sublist (ids s'.tracked) := by
      rw [ids, ids, Scheduler.tracked, Scheduler.tracked, List.map_append, List.map_append,
        hwaiting]
      exact (List.Sublist.refl _).append hrun
    exact hsub.nodup hshape.nodup'
  -- grants stay within the prompt
  · rw [hshape.prefills, List.mem_append] at hitem
    rcases hitem with hitem | hitem
    · obtain ⟨r, hr, hid, -, hle⟩ := hshape.granted_short hitem
      exact ⟨r, List.mem_append_right _ hr, hid, hle⟩
    · obtain ⟨r, hr, hid, hle⟩ := hshape.admission.within_prompt item hitem
      exact ⟨r, List.mem_append_left _ hr, hid, hle⟩
  · exact hdecodable item.id (List.mem_map_of_mem hitem)
  · rw [hlog]
    exact hwritten
  -- a request completes exactly if it emitted the end token or all it may
  · have hcomplete : (r.id ∈ ids w.scheduler.running ∨ r.id ∈ b.prefills.map (·.id)) →
        (r.id ∈ rstep.completed ↔ r.id ∈ rstep.log.stopped ∨
          r.maxOutputTokens ≤ w.emitted r.id + (rstep.log.tokens r.id).length) := by
      intro hrun
      obtain ⟨seq, hseq, hmax, hemitted⟩ := hover.emitted hw hshape hr hrun
      rw [execute_emits hexec hseq, hmax, hemitted]
    refine ⟨fun hid => ?_, fun hspent => (hcomplete hspent.1).mpr hspent.2⟩
    -- what has completed ran before the step, or was admitted by it
    have hrun : r.id ∈ ids w.scheduler.running ∨ r.id ∈ b.prefills.map (·.id) := by
      have hmem := hgone r.id hid
      rw [hshape.ids_running, List.mem_append] at hmem
      exact hmem.imp_right fun hmem => hshape.mem_prefills.mpr (Or.inr hmem)
    exact ⟨hrun, (hcomplete hrun).mp hid⟩
  -- tracked before, and not completed
  · rw [Scheduler.mem_ids_tracked, hrunning, hwaiting, ← hshape.tracked id,
      Scheduler.mem_ids_tracked]
    constructor
    · rintro (hid | ⟨hid, hnot⟩)
      · exact ⟨Or.inl hid, fun hmem => hshape.not_running' hid (hgone id hmem)⟩
      · exact ⟨Or.inr hid, hnot⟩
    · rintro ⟨hid | hid, hnot⟩
      · exact Or.inl hid
      · exact Or.inr ⟨hid, hnot⟩
  · exact (hshape.tracked id).mp (Scheduler.mem_ids_tracked.mpr (Or.inr (hgone id hid)))
  · rw [hruntime, hlook, if_pos hid]

end Step

/-! ### The calls between steps -/

section Calls

variable {M : Target Row κ σ} {cfg : RuntimeConfig} {w w' : Worker κ σ}

theorem validatePending_ok {p : PendingSequence κ σ} (h : w.validatePending cfg p = .ok ()) :
    w.pending.lookup p.request.id = none ∧ p.request.id ∉ ids w.scheduler.waiting ∧
      p.request.id ∉ ids w.scheduler.running ∧ p.prompt.length = p.request.promptTokens ∧
      p.restored ≤ p.prompt.length := by
  have habsent : ∀ {rs : List TrackedRequest}, ¬rs.any (·.id == p.request.id) = true →
      p.request.id ∉ ids rs := by
    intro rs hany hmem
    obtain ⟨r, hr, hid⟩ := List.mem_map.mp hmem
    exact hany (List.any_eq_true.mpr ⟨r, hr, beq_iff_eq.mpr hid⟩)
  rw [Worker.validatePending] at h
  split at h
  · cases h
  · rename_i hfresh
    simp only [not_or] at hfresh
    obtain ⟨hpending, hwaiting, hrunning⟩ := hfresh
    split at h
    · cases h
    · rename_i hlength
      refine ⟨?_, habsent hwaiting, habsent hrunning, not_not.mp hlength, ?_⟩
      · rw [Option.isSome_iff_ne_none, not_not] at hpending
        exact hpending
      · split at h
        · cases h
        · rcases hsnap : p.snapshot with _ | snapshot
          · rw [PendingSequence.restored, hsnap]
            exact Nat.zero_le _
          · rw [hsnap] at h
            simp only at h
            split at h
            · cases h
            · rename_i hle
              rw [PendingSequence.restored, hsnap]
              exact not_lt.mp hle

theorem admitValidated_lockstep {p : PendingSequence κ σ} {computedPrefix : U32}
    (hw : Lockstep cfg w)
    (hrestored : p.prompt.length = p.request.promptTokens → p.restored ≤ p.prompt.length →
      (computedPrefix : ℕ) = p.restored) :
    Lockstep cfg (w.admitValidated cfg p computedPrefix).1 := by
  rw [Worker.admitValidated]
  rcases hvalid : w.validatePending cfg p with e | u
  -- invalid: the worker is unchanged
  · exact hw
  · obtain ⟨hnone, hwaiting, hrunning, hlength, hle⟩ := validatePending_ok hvalid
    have hprefix_ := hrestored hlength hle
    have hmoved := w.scheduler.admitWithPrefix_moved
      (show (Op.admitWithPrefix p.request computedPrefix).submission
        = some (p.request, computedPrefix) from rfl)
    rcases haccepted : (w.scheduler.admitWithPrefix p.request computedPrefix).val with ⟨s', out⟩
    rw [haccepted] at hmoved
    simp only at hmoved ⊢
    rcases out with e | id
    -- refused by the scheduler: unchanged as well
    · cases hmoved with
      | refused _ => exact hw
    · simp only
      cases hmoved with
      | queued hop hle' _ _ =>
        simp only [Op.submission, Option.some.injEq, Prod.mk.injEq] at hop
        obtain ⟨rfl, rfl⟩ := hop
        refine ⟨hw.running, hw.resident, fun r hr => ?_, fun id hid => ?_, ?_⟩
        -- the waiting entries: those before, and the new one behind them
        · rcases List.mem_append.mp hr with hr | hr
          · obtain ⟨p', hp', hawaits⟩ := hw.waiting r hr
            have hne : r.id ≠ p.request.id := fun heq =>
              hwaiting (heq ▸ List.mem_map_of_mem hr)
            exact ⟨p', (AList.lookup_insert_ne hne).trans hp', hawaits⟩
          · rw [List.mem_singleton.mp hr]
            exact ⟨p, AList.lookup_insert _, rfl, hlength, hprefix_, hle'⟩
        · rw [ids, List.map_append, List.mem_append]
          by_cases hne : id = p.request.id
          · exact Or.inr (by rw [hne]; exact List.mem_cons_self)
          · rw [AList.lookup_insert_ne hne] at hid
            exact Or.inl (hw.pending id hid)
        · have hperm : (ids (w.scheduler.waiting ++ [{
                id := p.request.id, promptTokens := p.request.promptTokens
                maxOutputTokens := p.request.maxOutputTokens
                computedTokens := computedPrefix, blocksReserved := 0 }]
              ++ w.scheduler.running)).Perm
              (p.request.id :: ids w.scheduler.tracked) := by
            simp only [ids, Scheduler.tracked, List.map_append, List.map_cons, List.map_nil,
              List.append_assoc]
            exact List.perm_middle
          -- the id was neither waiting nor running
          refine hperm.nodup_iff.mpr (List.nodup_cons.mpr ⟨fun hmem => ?_, hw.nodup⟩)
          rcases Scheduler.mem_ids_tracked.mp hmem with hmem | hmem
          · exact hwaiting hmem
          · exact hrunning hmem

/-- The requests but for one. -/
structure Cancelled (id : RequestId) (s s' : Scheduler) : Prop where
  waiting : ∀ r, r ∈ s'.waiting ↔ r ∈ s.waiting ∧ r.id ≠ id
  running : ∀ r, r ∈ s'.running ↔ r ∈ s.running ∧ r.id ≠ id
  sub : (ids s'.tracked).Sublist (ids s.tracked)

theorem cancelRequest_cancelled {s : Scheduler} (id : RequestId) (hnodup : (ids s.tracked).Nodup) :
    Cancelled id s (s.cancelRequest id).val.1 := by
  have htracked : ids s.tracked = ids s.waiting ++ ids s.running := List.map_append
  rw [htracked] at hnodup
  obtain ⟨hwaiting, hrunning, hdisjoint⟩ := List.nodup_append.mp hnodup
  rcases hfind : s.running.find? (·.id == id) with _ | r
  · have hgone : ∀ r ∈ s.running, r.id ≠ id := fun r hr heq =>
      List.find?_eq_none.mp hfind r hr (beq_iff_eq.mpr heq)
    obtain ⟨hmem, hsub⟩ := erase_id id hwaiting
    have hcancel : (s.cancelRequest id).val.1 = if s.isWaiting id then
        { s with waiting := s.waiting.eraseP (·.id == id) } else s := by
      rw [Scheduler.cancelRequest, Scheduler.finishRequest, hfind]
      show (if s.isWaiting id then
          (pure ({ s with waiting := s.waiting.eraseP (·.id == id) }, true) :
            Wrapping (Scheduler × Bool))
        else pure (s, false)).val.1 = _
      by_cases hwait : s.isWaiting id
      · rw [if_pos hwait, if_pos hwait]
        rfl
      · rw [if_neg hwait, if_neg hwait]
        rfl
    rw [hcancel]
    split
    · refine ⟨hmem, fun r => ⟨fun hr => ⟨hr, hgone r hr⟩, fun hr => hr.1⟩, ?_⟩
      rw [htracked]
      show (List.map _ (_ ++ _)).Sublist _
      rw [List.map_append]
      exact hsub.append (List.Sublist.refl _)
    · rename_i hnot
      refine ⟨fun r => ⟨fun hr => ⟨hr, fun heq => hnot ?_⟩, fun hr => hr.1⟩,
        fun r => ⟨fun hr => ⟨hr, hgone r hr⟩, fun hr => hr.1⟩, List.Sublist.refl _⟩
      exact List.any_eq_true.mpr ⟨r, hr, beq_iff_eq.mpr heq⟩
  · have hone := finishRequest_finished id hrunning
    have hcancel : (s.cancelRequest id).val.1 = (s.finishRequest id).val.1 := by
      rw [Scheduler.cancelRequest, Scheduler.finishRequest, hfind]
      rfl
    obtain ⟨_, _, _, hid, -, -⟩ := Scheduler.find_split hfind
    have hr : id ∈ ids s.running := hid ▸ List.mem_map_of_mem (List.mem_of_find?_eq_some hfind)
    rw [hcancel]
    refine ⟨fun q => ?_, fun q => ?_, ?_⟩
    · rw [hone.waiting]
      refine ⟨fun hq => ⟨hq, fun heq => ?_⟩, fun hq => hq.1⟩
      exact hdisjoint q.id (List.mem_map_of_mem hq) id hr heq
    · rw [hone.running q, List.mem_singleton]
    · rw [htracked]
      show (List.map _ (_ ++ _)).Sublist _
      rw [List.map_append, hone.waiting]
      exact (List.Sublist.refl _).append hone.sub

theorem cancel_lockstep (id : RequestId) (hw : Lockstep cfg w) : Lockstep cfg (w.cancel id).1 := by
  have hcancelled := cancelRequest_cancelled id hw.nodup
  have hlock : Lockstep cfg { w with
      scheduler := (w.scheduler.cancelRequest id).val.1
      runtime := if w.scheduler.isRunning id then w.runtime.erase id else w.runtime
      pending := w.pending.erase id } := by
    have hlook : ∀ id', id' ≠ id →
        (if w.scheduler.isRunning id then w.runtime.erase id else w.runtime).lookup id'
          = w.runtime.lookup id' := by
      intro id' hne
      split
      · exact AList.lookup_erase_ne hne
      · rfl
    have hnot : ((if w.scheduler.isRunning id then w.runtime.erase id else w.runtime).lookup
        id).isSome = false := by
      -- a sequence goes with its running entry; without one there was none
      split
      · rw [AList.lookup_erase]
        rfl
      · rename_i hrun
        by_contra hsome
        rw [Bool.not_eq_false] at hsome
        obtain ⟨r, hr, hid⟩ := List.mem_map.mp (hw.resident id hsome)
        exact hrun (List.any_eq_true.mpr ⟨r, hr, beq_iff_eq.mpr hid⟩)
    refine ⟨fun r hr => ?_, fun id' hid => ?_, fun r hr => ?_, fun id' hid => ?_,
      hcancelled.sub.nodup hw.nodup⟩
    -- each part loses this request and keeps the others
    · obtain ⟨hr, hne⟩ := (hcancelled.running r).mp hr
      obtain ⟨seq, hseq, hrest⟩ := hw.running r hr
      exact ⟨seq, (hlook r.id hne).trans hseq, hrest⟩
    · have hne : id' ≠ id := by
        rintro rfl
        exact Bool.false_ne_true (hnot.symm.trans hid)
      rw [hlook id' hne] at hid
      obtain ⟨r, hr, rfl⟩ := List.mem_map.mp (hw.resident id' hid)
      exact List.mem_map_of_mem ((hcancelled.running r).mpr ⟨hr, hne⟩)
    · obtain ⟨hr, hne⟩ := (hcancelled.waiting r).mp hr
      obtain ⟨p, hp, hawaits⟩ := hw.waiting r hr
      exact ⟨p, (AList.lookup_erase_ne hne).trans hp, hawaits⟩
    · have hne : id' ≠ id := by
        rintro rfl
        rw [AList.lookup_erase] at hid
        cases hid
      rw [AList.lookup_erase_ne hne] at hid
      obtain ⟨r, hr, rfl⟩ := List.mem_map.mp (hw.pending id' hid)
      exact List.mem_map_of_mem ((hcancelled.waiting r).mpr ⟨hr, hne⟩)
  rw [Worker.cancel]
  split
  -- its cache slot is returned, which the rest does not see
  · obtain ⟨hsched, hruntime, hpending⟩ := releaseCache_spec id { w with
      scheduler := (w.scheduler.cancelRequest id).val.1
      runtime := if w.scheduler.isRunning id then w.runtime.erase id else w.runtime
      pending := w.pending.erase id }
    exact ⟨by rw [hsched, hruntime]; exact hlock.running,
      by rw [hsched, hruntime]; exact hlock.resident,
      by rw [hsched, hpending]; exact hlock.waiting,
      by rw [hsched, hpending]; exact hlock.pending, by rw [hsched]; exact hlock.nodup⟩
  · exact hlock

theorem admitTokens_lockstep (p : PendingSequence κ σ) (hw : Lockstep cfg w) :
    Lockstep cfg (w.admitTokens cfg p).1 :=
  admitValidated_lockstep hw fun _ _ => rfl

theorem admitTokensRestored_lockstep (p : PendingSequence κ σ) (snapshot : Snapshot)
    (hw : Lockstep cfg w) : Lockstep cfg (w.admitTokensRestored cfg p snapshot).1 := by
  refine admitValidated_lockstep hw fun hlength hle => ?_
  have hle' : snapshot.position ≤ p.prompt.length := hle
  have hlength' : p.prompt.length = p.request.promptTokens := hlength
  have hlt := p.request.promptTokens.isLt
  show snapshot.position % 2 ^ 32 = snapshot.position
  exact Nat.mod_eq_of_lt (by omega)

end Calls

/-! ### Runs -/

section Runs

variable {M : Target Row κ σ} {cfg : RuntimeConfig} {w w' : Worker κ σ}

theorem new_lockstep (sched : SchedulerConfig) (blocks : U32) (slots : ℕ) :
    Lockstep cfg (Worker.new sched blocks slots : Worker κ σ) where
  running _ hr := absurd hr List.not_mem_nil
  resident _ h := absurd h Bool.false_ne_true
  waiting _ hr := absurd hr List.not_mem_nil
  pending _ h := absurd h Bool.false_ne_true
  nodup := List.nodup_nil

theorem WorkerCall.lockstep {op : WorkerOp κ σ × WorkerOutcome}
    (h : WorkerCall M cfg w op w') (hw : Lockstep cfg w) : Lockstep cfg w' := by
  cases h with
  | admitTokens p => exact admitTokens_lockstep p hw
  | admitTokensRestored p snapshot => exact admitTokensRestored_lockstep p snapshot hw
  | stepDevice hwindow hstep => exact (stepDevice_lockstep hw hwindow hstep).1
  | cancel id => exact cancel_lockstep id hw

/-- Along every run of a worker its two halves hold the same requests at the
same progress. -/
theorem run_lockstep {sched : SchedulerConfig} {blocks : U32} {slots : ℕ}
    {calls : List (WorkerOp κ σ × WorkerOutcome)}
    (hrun : Run (WorkerCall M cfg) (Worker.new sched blocks slots) calls w) : Lockstep cfg w :=
  hrun.invariant (new_lockstep sched blocks slots) fun hw hcall => hcall.lockstep hw

/-- The two halves of a worker stay in lockstep along every run, and each
device step is sound. -/
theorem worker_lockstep {sched : SchedulerConfig} {blocks : U32} {slots : ℕ}
    {calls : List (WorkerOp κ σ × WorkerOutcome)}
    (hrun : Run (WorkerCall M cfg) (Worker.new sched blocks slots) calls w) :
    Lockstep cfg w ∧ ∀ io w' step, (∀ id, (io.proposals id).length ≤ cfg.window - 1) →
      w.stepDevice M cfg io = .ok (w', step) → Lockstep cfg w' ∧ SoundStep cfg w w' step := by
  have hw : Lockstep cfg w := run_lockstep hrun
  exact ⟨hw, fun io w' step hwindow hstep => stepDevice_lockstep hw hwindow hstep⟩

/-- Two slots, a budget of 32 tokens and four blocks of eight. -/
def smallSched : SchedulerConfig where
  tokenBudget := 32
  blockSize := 8
  maxConcurrentDecodes := 2
  watermarkFraction := .finite false 0 0
  draftTokensPerStep := 2
  maxWaitingRequests := 8
  prefillSlice := 0
  blockSize_pos := by decide
  watermark_inUnit := Binary64.inUnit_zero
  budget_gt := by decide
  maxWaiting_eq := by decide

/-- A prompt of one token that may generate six. -/
def smallRequest : PendingSequence Unit Unit where
  request := ⟨0, 1, 6⟩
  prompt := [7]
  images := []
  snapshot := none
  sampler := none
  constraint := none

/-- A prompt of eight tokens, whose second output ends the turn. -/
def stoppingRequest : PendingSequence Unit Unit where
  request := ⟨1, 8, 6⟩
  prompt := List.replicate 8 7
  images := []
  snapshot := none
  sampler := none
  constraint := none

/-- Both requests decode in the second step, where one of them ends its turn. -/
theorem worker_lockstep_witness : ∃ w w' : Worker Unit Unit, ∃ step,
    w.stepDevice tallyTarget tallyConfig tallyRound.1 = .ok (w', step) ∧
      step.log.tokens 0 = [2, 3] ∧ step.log.stopped = [1] ∧ step.completed = [1] ∧
      Lockstep tallyConfig w' ∧ SoundStep tallyConfig w w' step := by
  let w₀ : Worker Unit Unit := Worker.new smallSched 4 2
  let w₁ := (w₀.admitTokens tallyConfig smallRequest).1
  let w₂ := (w₁.admitTokens tallyConfig stoppingRequest).1
  have htwice : ((w₂.stepDevice tallyTarget tallyConfig tallyRound.1).bind fun w =>
      (w.1.stepDevice tallyTarget tallyConfig tallyRound.1).map fun w =>
        (w.2.log.tokens 0, w.2.log.stopped, w.2.completed)).toOption
      = some ([2, 3], [1], [1]) := by decide
  rcases hprefill : w₂.stepDevice tallyTarget tallyConfig tallyRound.1 with e | ⟨w₃, step₃⟩
  · rw [hprefill] at htwice
    cases htwice
  · rw [hprefill] at htwice
    rcases hdecode : w₃.stepDevice tallyTarget tallyConfig tallyRound.1 with e | ⟨w₄, step₄⟩
    · rw [Except.bind, hdecode] at htwice
      cases htwice
    · rw [Except.bind, hdecode] at htwice
      have hrun : Run (WorkerCall tallyTarget tallyConfig) w₀
          [(.admitTokens smallRequest, .admission (w₀.admitTokens tallyConfig smallRequest).2),
            (.admitTokens stoppingRequest,
              .admission (w₁.admitTokens tallyConfig stoppingRequest).2),
            (.stepDevice tallyRound.1, .step step₃)] w₃ :=
        Run.cons (.admitTokens w₀ smallRequest) (Run.cons (.admitTokens w₁ stoppingRequest)
          (Run.single (.stepDevice (fun _ => le_rfl) hprefill)))
      obtain ⟨hlock, hsound⟩ := (worker_lockstep hrun).2 _ _ _ (fun _ => le_rfl) hdecode
      have hseen := Option.some.inj htwice
      simp only [Prod.mk.injEq] at hseen
      exact ⟨w₃, w₄, step₄, hdecode, hseen.1, hseen.2.1, hseen.2.2, hlock, hsound⟩

end Runs
