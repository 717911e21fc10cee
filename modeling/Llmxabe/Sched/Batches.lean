/-
Which requests a batch names.

A step decodes running requests that have computed their prompt, grants
prefill to running requests that have not, and admits waiting ones with their
first grant.  `Stepped.shape` collects what this says of the ids: the three
groups are disjoint, and the running requests of the next state are those of
the last with the admitted ones behind them.
-/
import Llmxabe.Sched.Accounting

namespace Scheduler

/-- What phase 1 makes of one running request. -/
theorem Decoded.fate {cost : ℕ} {rs rs' : List TrackedRequest} {ds : List DecodeItem}
    (h : Decoded cost rs rs' ds) (hnodup : (ids rs).Nodup) :
    (∀ id ∈ ds.map (·.id), ∃ r ∈ rs, r.id = id ∧ (r.promptTokens : ℕ) ≤ r.computedTokens ∧
        r.computedTokens < r.fullSeqLen.val) ∧
      ∀ r' ∈ rs', ∃ r ∈ rs, r'.request = r.request ∧
        ((r' = r ∧ r.id ∉ ds.map (·.id)) ∨
          (r'.computedTokens = r.computedTokens + 1 ∧ r.id ∈ ds.map (·.id) ∧
            (r.promptTokens : ℕ) ≤ r.computedTokens ∧ r.computedTokens < r.fullSeqLen.val)) := by
  induction h with
  | nil => exact ⟨fun _ h => absurd h List.not_mem_nil, fun _ h => absurd h List.not_mem_nil⟩
  | @keep r rs rs' ds _ ih =>
    rw [ids, List.map_cons] at hnodup
    obtain ⟨hfresh, hnodup⟩ := List.nodup_cons.mp hnodup
    obtain ⟨hsub, hfate⟩ := ih hnodup
    refine ⟨fun id hid => ?_, fun q hq => ?_⟩
    · obtain ⟨q, hq, hdecodes⟩ := hsub id hid
      exact ⟨q, List.mem_cons_of_mem _ hq, hdecodes⟩
    rcases List.mem_cons.mp hq with rfl | hq
    · refine ⟨q, List.mem_cons_self, rfl, Or.inl ⟨rfl, fun hmem => ?_⟩⟩
      obtain ⟨q', hq', hid, -⟩ := hsub _ hmem
      exact hfresh (hid ▸ List.mem_map_of_mem hq')
    · obtain ⟨q₀, hq₀, hreq, hcase⟩ := hfate q hq
      exact ⟨q₀, List.mem_cons_of_mem _ hq₀, hreq, hcase⟩
  | @decode r rs rs' ds hready hshort _ ih =>
    rw [ids, List.map_cons] at hnodup
    obtain ⟨hfresh, hnodup⟩ := List.nodup_cons.mp hnodup
    obtain ⟨hsub, hfate⟩ := ih hnodup
    refine ⟨fun id hid => ?_, fun q hq => ?_⟩
    · rcases List.mem_cons.mp hid with rfl | hid
      · exact ⟨r, List.mem_cons_self, rfl, hready, hshort⟩
      · obtain ⟨q, hq, hdecodes⟩ := hsub id hid
        exact ⟨q, List.mem_cons_of_mem _ hq, hdecodes⟩
    · rcases List.mem_cons.mp hq with rfl | hq
      · exact ⟨r, List.mem_cons_self, rfl, Or.inr ⟨rfl, List.mem_cons_self, hready, hshort⟩⟩
      · obtain ⟨q₀, hq₀, hreq, hcase⟩ := hfate q hq
        have hne : q₀.id ≠ r.id := fun heq => hfresh (heq ▸ List.mem_map_of_mem hq₀)
        refine ⟨q₀, List.mem_cons_of_mem _ hq₀, hreq, ?_⟩
        rcases hcase with ⟨hsame, hnot⟩ | ⟨hcomp, hin, hlen⟩
        · refine Or.inl ⟨hsame, fun hmem => ?_⟩
          rcases List.mem_cons.mp hmem with heq | hmem
          · exact hne heq
          · exact hnot hmem
        · exact Or.inr ⟨hcomp, List.mem_cons_of_mem _ hin, hlen⟩

/-- A granted request has been short of its prompt by the grant. -/
theorem Granted.within_prompt {rs rs' : List TrackedRequest} {items : List PrefillItem}
    (h : Granted rs items rs') :
    ∀ item ∈ items, ∃ r ∈ rs, r.id = item.id ∧ 0 < item.tokens ∧
      r.computedTokens + item.tokens ≤ r.promptTokens := by
  induction h with
  | nil => exact fun _ h => absurd h List.not_mem_nil
  | @grant rs rs' items r i chunk hget hpos hle _ ih =>
    have hmem : r ∈ rs := List.mem_of_getElem? hget
    intro item hitem
    rcases List.mem_cons.mp hitem with rfl | hitem
    · exact ⟨r, hmem, rfl, hpos, hle⟩
    · obtain ⟨q, hq, hid, hpos', hle'⟩ := ih item hitem
      rcases List.mem_or_eq_of_mem_set hq with hq | rfl
      · exact ⟨q, hq, hid, hpos', hle'⟩
      · exact ⟨r, hmem, hid, hpos', by simp only at hle'; omega⟩

theorem Admitted.within_prompt {cfg : SchedulerConfig} {total : U32}
    {waiting running waiting' running' : List TrackedRequest} {free free' : ℕ}
    {items : List PrefillItem}
    (h : Admitted cfg total waiting running free items waiting' running' free') :
    ∀ item ∈ items, ∃ r ∈ waiting, r.id = item.id ∧
      r.computedTokens + item.tokens ≤ r.promptTokens := by
  induction h with
  | nil => exact fun _ h => absurd h List.not_mem_nil
  | @pull _ _ _ _ _ _ _ r chunk _ _ hle _ ih =>
    intro item hitem
    rcases List.mem_cons.mp hitem with rfl | hitem
    · exact ⟨r, List.mem_cons_self, rfl, hle⟩
    · obtain ⟨q, hq, hrest⟩ := ih item hitem
      exact ⟨q, List.mem_cons_of_mem _ hq, hrest⟩

theorem Admitted.ids_running {cfg : SchedulerConfig} {total : U32}
    {waiting running waiting' running' : List TrackedRequest} {free free' : ℕ}
    {items : List PrefillItem}
    (h : Admitted cfg total waiting running free items waiting' running' free') :
    ids running' = ids running ++ items.map (·.id) := by
  induction h with
  | nil => rw [List.map_nil, List.append_nil]
  | pull _ _ _ _ ih =>
    rw [ih, List.map_cons]
    simp [ids]

theorem Admitted.running_from {cfg : SchedulerConfig} {total : U32}
    {waiting running waiting' running' : List TrackedRequest} {free free' : ℕ}
    {items : List PrefillItem}
    (h : Admitted cfg total waiting running free items waiting' running' free') :
    ∀ r ∈ running', r ∈ running ∨ r.id ∈ items.map (·.id) := by
  induction h with
  | nil => exact fun r hr => Or.inl hr
  | pull _ _ _ _ ih =>
    intro q hq
    rcases ih q hq with hq | hq
    · rcases List.mem_append.mp hq with hq | hq
      · exact Or.inl hq
      · rw [List.mem_singleton.mp hq]
        exact Or.inr List.mem_cons_self
    · exact Or.inr (List.mem_cons_of_mem _ hq)

/-- One step, with the queues between its phases. -/
structure Shape (s s' : Scheduler) (b : BatchDescription) (decoded shared : List TrackedRequest)
    (grants admissions : List PrefillItem) : Prop where
  decode : Decoded s.config.tokensPerDecodeStep.val s.running decoded b.decodes
  grant : Granted decoded grants shared
  admission : Admitted s.config s.totalAttentionBlocks s.waiting shared s.freeAttentionBlocks
    admissions s'.waiting s'.running s'.freeAttentionBlocks
  prefills : b.prefills = grants ++ admissions
  nodup : (ids s.tracked).Nodup
  nodup' : (ids s'.tracked).Nodup
  tracked : ∀ id, id ∈ ids s'.tracked ↔ id ∈ ids s.tracked

theorem mem_ids_tracked {s : Scheduler} {id : RequestId} :
    id ∈ ids s.tracked ↔ id ∈ ids s.waiting ∨ id ∈ ids s.running := by
  rw [ids, Scheduler.tracked, List.map_append, List.mem_append]
  rfl

theorem Stepped.shape {s s' : Scheduler} {b : BatchDescription} (h : Stepped s b s')
    (hnodup : (ids s.tracked).Nodup) :
    ∃ decoded shared grants admissions, Shape s s' b decoded shared grants admissions := by
  obtain ⟨decoded, shared, grants, admissions, hdec, hgrant, hadm, hitems, -⟩ := h.phases
  have hperm : (ids s'.tracked).Perm (ids s.tracked) := by
    rw [ids_eq_requests, ids_eq_requests]
    exact h.requests.map _
  exact ⟨decoded, shared, grants, admissions, hdec, hgrant, hadm, hitems, hnodup,
    hperm.nodup_iff.mpr hnodup, fun id => hperm.mem_iff⟩

namespace Shape

variable {s s' : Scheduler} {b : BatchDescription} {decoded shared : List TrackedRequest}
  {grants admissions : List PrefillItem}

theorem ids_decoded (h : Shape s s' b decoded shared grants admissions) :
    ids decoded = ids s.running := ids_of_pinned h.decode.pinned

theorem ids_shared (h : Shape s s' b decoded shared grants admissions) :
    ids shared = ids s.running := ids_of_pinned (h.grant.pinned.trans h.decode.pinned)

theorem ids_running (h : Shape s s' b decoded shared grants admissions) :
    ids s'.running = ids s.running ++ admissions.map (·.id) := by
  rw [h.admission.ids_running, h.ids_shared]

theorem running_nodup (h : Shape s s' b decoded shared grants admissions) :
    (ids s.running).Nodup := by
  have hsub : (ids s.running).Sublist (ids s.tracked) := by
    rw [ids, ids, Scheduler.tracked, List.map_append]
    exact List.sublist_append_right _ _
  exact hsub.nodup h.nodup

theorem running_nodup' (h : Shape s s' b decoded shared grants admissions) :
    (ids s'.running).Nodup := by
  have hsub : (ids s'.running).Sublist (ids s'.tracked) := by
    rw [ids, ids, Scheduler.tracked, List.map_append]
    exact List.sublist_append_right _ _
  exact hsub.nodup h.nodup'

theorem not_running (h : Shape s s' b decoded shared grants admissions) {id : RequestId}
    (hid : id ∈ ids s.waiting) : id ∉ ids s.running := by
  have hnodup := h.nodup
  rw [ids, Scheduler.tracked, List.map_append] at hnodup
  exact fun hmem => (List.nodup_append.mp hnodup).2.2 _ hid _ hmem rfl

theorem not_running' (h : Shape s s' b decoded shared grants admissions) {id : RequestId}
    (hid : id ∈ ids s'.waiting) : id ∉ ids s'.running := by
  have hnodup := h.nodup'
  rw [ids, Scheduler.tracked, List.map_append] at hnodup
  exact fun hmem => (List.nodup_append.mp hnodup).2.2 _ hid _ hmem rfl

theorem decodes_running (h : Shape s s' b decoded shared grants admissions) {id : RequestId}
    (hid : id ∈ b.decodes.map (·.id)) : id ∈ ids s.running := by
  obtain ⟨r, hr, rfl, -⟩ := (h.decode.fate h.running_nodup).1 id hid
  exact List.mem_map_of_mem hr

theorem grants_running (h : Shape s s' b decoded shared grants admissions) {id : RequestId}
    (hid : id ∈ grants.map (·.id)) : id ∈ ids s.running := by
  obtain ⟨item, hitem, rfl⟩ := List.mem_map.mp hid
  obtain ⟨r, hr, hrid, -⟩ := h.grant.within_prompt item hitem
  rw [← h.ids_decoded, ← hrid]
  exact List.mem_map_of_mem hr

theorem admissions_waiting (h : Shape s s' b decoded shared grants admissions) {id : RequestId}
    (hid : id ∈ admissions.map (·.id)) : id ∈ ids s.waiting := by
  obtain ⟨item, hitem, rfl⟩ := List.mem_map.mp hid
  obtain ⟨r, hr, hrid, -⟩ := h.admission.within_prompt item hitem
  rw [← hrid]
  exact List.mem_map_of_mem hr

theorem mem_prefills (h : Shape s s' b decoded shared grants admissions) {id : RequestId} :
    id ∈ b.prefills.map (·.id) ↔ id ∈ grants.map (·.id) ∨ id ∈ admissions.map (·.id) := by
  rw [h.prefills, List.map_append, List.mem_append]

/-- A granted request has not computed its prompt, in the state before the step. -/
theorem granted_short (h : Shape s s' b decoded shared grants admissions) {item : PrefillItem}
    (hitem : item ∈ grants) : ∃ r ∈ s.running, r.id = item.id ∧ 0 < item.tokens ∧
      r.computedTokens + item.tokens ≤ r.promptTokens := by
  obtain ⟨r', hr', hid', hpos, hle⟩ := h.grant.within_prompt item hitem
  obtain ⟨r, hr, hreq, hcase⟩ := (h.decode.fate h.running_nodup).2 r' hr'
  have hid : r'.id = r.id := congrArg NewRequest.id hreq
  have hprompt : r'.promptTokens = r.promptTokens := congrArg NewRequest.promptTokens hreq
  rw [hprompt] at hle
  refine ⟨r, hr, hid ▸ hid', hpos, ?_⟩
  rcases hcase with ⟨rfl, -⟩ | ⟨hcomp, -⟩
  · exact hle
  · omega

/-- Nothing is both decoded and prefilled. -/
theorem decodes_not_prefilled (h : Shape s s' b decoded shared grants admissions)
    {id : RequestId} (hid : id ∈ b.decodes.map (·.id)) : id ∉ b.prefills.map (·.id) := by
  intro hmem
  rcases h.mem_prefills.mp hmem with hmem | hmem
  · obtain ⟨item, hitem, rfl⟩ := List.mem_map.mp hmem
    obtain ⟨r, hr, hrid, hpos, hle⟩ := h.granted_short hitem
    obtain ⟨q, hq, hqid, hready, -⟩ := (h.decode.fate h.running_nodup).1 _ hid
    have hsame : r = q := List.inj_on_of_nodup_map h.running_nodup hr hq (hrid.trans hqid.symm)
    subst hsame
    omega
  · exact h.not_running (h.admissions_waiting hmem) (h.decodes_running hid)

/-- Every request of the state between the phases comes from the one before. -/
theorem shared_from (h : Shape s s' b decoded shared grants admissions) {r' : TrackedRequest}
    (hr' : r' ∈ shared) : ∃ r ∈ s.running, r'.request = r.request := by
  have hpinned := h.grant.pinned.trans h.decode.pinned
  have hmem : r'.pinned ∈ s.running.map TrackedRequest.pinned :=
    hpinned ▸ List.mem_map_of_mem hr'
  obtain ⟨r, hr, hpin⟩ := List.mem_map.mp hmem
  exact ⟨r, hr, (TrackedRequest.request_congr hpin).symm⟩

/-- A request that ran before the step still runs, with what it was submitted
with. -/
theorem running_from (h : Shape s s' b decoded shared grants admissions) {r' : TrackedRequest}
    (hr' : r' ∈ s'.running) (hid : r'.id ∈ ids s.running) :
    ∃ r ∈ s.running, r'.request = r.request := by
  rcases h.admission.running_from r' hr' with hr' | hmem
  · exact h.shared_from hr'
  · obtain ⟨item, hitem, hitemid⟩ := List.mem_map.mp hmem
    exact absurd hid (h.not_running (h.admissions_waiting (hitemid ▸ List.mem_map_of_mem hitem)))

end Shape

end Scheduler
