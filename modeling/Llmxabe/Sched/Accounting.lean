/-
The exact accounts of the scheduler.

`Books` holds whatever the arithmetic did.  Here the arithmetic stays in
range: every accepted request satisfies `Fits`, that is, its footprint and its
blocks plus the watermark are `u32` values.

* `accounting`: in every state of such a run the free blocks and the
  reservations add up to the pool exactly, every request's progress stays
  within its length, and the tokens granted to a request since it was queued
  are those between its restored prefix and its progress, so all of its
  prompt but the restored prefix once it decodes; no call leaves `u32`, and no
  step schedules more than its budget.
* `drafting_admission_overflows`: without `Fits` the first call already does.

`Ledger` is the observer's record of the grants.  It is written from calls and
their results alone, never from the scheduler's state.
-/
import Llmxabe.Sched.Capacity

/-- The arithmetic of admission and of phase 3 stays in `u32` for this request. -/
def SchedulerConfig.Fits (cfg : SchedulerConfig) (total : U32) (req : NewRequest) : Prop :=
  cfg.footprint req < 2 ^ 32 ∧ cfg.exactBlocks req + cfg.watermarkBlocks total < 2 ^ 32

/-- What an observer knows of a request: its restored prefix and the tokens
granted to it since. -/
structure Grants where
  restored : ℕ
  granted : ℕ
  deriving DecidableEq, Repr

/-- The grants of every request. -/
abbrev Ledger := RequestId → Grants

namespace Ledger

/-- A prefill item adds its tokens to its request's account. -/
def credit (ledger : Ledger) (item : PrefillItem) : Ledger :=
  Function.update ledger item.id
    { ledger item.id with granted := (ledger item.id).granted + item.tokens }

/-- Nothing has been recorded yet. -/
def empty : Ledger := fun _ => ⟨0, 0⟩

/-- The record after a call: an accepted submission opens an account, a
preemption reopens it, a step credits its prefill items. -/
def record (ledger : Ledger) : Op × Outcome → Ledger
  | (op, .admission (.ok id)) =>
    match op.submission with
    | some (_, computedPrefix) => Function.update ledger id ⟨computedPrefix, 0⟩
    | none => ledger
  | (.preempt id, .found true) => Function.update ledger id ⟨0, 0⟩
  | (_, .batch b) => b.prefills.foldl credit ledger
  | _ => ledger

/-- The record agrees with the request's own progress counter. -/
def Agrees (ledger : Ledger) (r : TrackedRequest) : Prop :=
  (ledger r.id).restored + (ledger r.id).granted = min r.computedTokens r.promptTokens

theorem credit_other {ledger : Ledger} {item : PrefillItem} {r : TrackedRequest}
    (hne : r.id ≠ item.id) (h : ledger.Agrees r) : (ledger.credit item).Agrees r := by
  rw [Agrees, credit, Function.update_of_ne hne]
  exact h

theorem credit_self {ledger : Ledger} {r r' : TrackedRequest} {chunk : ℕ}
    (hid : r'.id = r.id) (hprompt : r'.promptTokens = r.promptTokens)
    (hcomputed : r'.computedTokens = r.computedTokens + chunk)
    (hle : r.computedTokens + chunk ≤ r.promptTokens) (h : ledger.Agrees r) :
    (ledger.credit { id := r.id, tokens := chunk }).Agrees r' := by
  rw [Agrees] at h
  rw [Agrees, credit, hid, Function.update_self, hprompt, hcomputed]
  show (ledger r.id).restored + ((ledger r.id).granted + chunk) = _
  omega

end Ledger

namespace Scheduler

/-! ### The ledger follows the three phases -/

theorem Decoded.agrees {cost : ℕ} {rs rs' : List TrackedRequest} {ds : List DecodeItem}
    {ledger : Ledger} (h : Decoded cost rs rs' ds) (hrs : ∀ r ∈ rs, ledger.Agrees r) :
    ∀ r ∈ rs', ledger.Agrees r := by
  induction h with
  | nil => exact hrs
  | @keep r _ _ _ _ ih =>
    intro q hq
    rcases List.mem_cons.mp hq with rfl | hq
    · exact hrs q (by simp)
    · exact ih (fun p hp => hrs p (by simp [hp])) q hq
  | @decode r _ _ _ hready _ _ ih =>
    intro q hq
    rcases List.mem_cons.mp hq with rfl | hq
    · -- a decoding request is past its prompt already
      have hr := hrs r (by simp)
      rw [Ledger.Agrees] at hr ⊢
      show (ledger r.id).restored + (ledger r.id).granted
        = min (r.computedTokens + 1) r.promptTokens
      omega
    · exact ih (fun p hp => hrs p (by simp [hp])) q hq

/-- The ids of a list of requests. -/
def ids (rs : List TrackedRequest) : List RequestId := rs.map (·.id)

theorem ids_of_pinned {rs rs' : List TrackedRequest}
    (h : rs'.map TrackedRequest.pinned = rs.map TrackedRequest.pinned) : ids rs' = ids rs :=
  map_of_pinned h fun r r' hpin => by
    simp only [TrackedRequest.pinned, TrackedRequest.mk.injEq] at hpin
    exact hpin.1

/-- Replacing one entry leaves the entries with other ids. -/
theorem mem_set_of_nodup {rs : List TrackedRequest} {i : ℕ} {r r' q : TrackedRequest}
    (hnodup : (ids rs).Nodup) (hget : rs[i]? = some r) (hq : q ∈ rs.set i r') :
    q = r' ∨ (q ∈ rs ∧ q.id ≠ r.id) := by
  obtain ⟨j, hj⟩ := List.mem_iff_getElem?.mp hq
  rw [List.getElem?_set] at hj
  by_cases hij : i = j
  · have hlt : i < rs.length := (List.getElem?_eq_some_iff.mp hget).1
    rw [if_pos hij, if_pos hlt, Option.some.injEq] at hj
    exact Or.inl hj.symm
  · rw [if_neg hij] at hj
    refine Or.inr ⟨List.mem_of_getElem? hj, fun hid => hij ?_⟩
    have hi : (ids rs)[i]? = some r.id := by rw [ids, List.getElem?_map, hget]; rfl
    have hj' : (ids rs)[j]? = some r.id := by
      rw [ids, List.getElem?_map, hj, Option.map_some, hid]
    have hlt : i < (ids rs).length := (List.getElem?_eq_some_iff.mp hi).1
    exact (List.getElem?_inj hlt hnodup).mp (hi.trans hj'.symm)

theorem Granted.agrees {rs rs' : List TrackedRequest} {items : List PrefillItem}
    (h : Granted rs items rs') :
    ∀ {ledger : Ledger}, (ids rs).Nodup → (∀ r ∈ rs, ledger.Agrees r) →
      (∀ r ∈ rs', (items.foldl Ledger.credit ledger).Agrees r) ∧
        ∀ q : TrackedRequest, q.id ∉ ids rs → ledger.Agrees q →
          (items.foldl Ledger.credit ledger).Agrees q := by
  induction h with
  | nil => exact fun _ hrs => ⟨hrs, fun _ _ hq => hq⟩
  | @grant rs _ _ r i chunk hget _ hle _ ih =>
    intro ledger hnodup hrs
    have hmem : r ∈ rs := List.mem_of_getElem? hget
    have hids : ids (rs.set i { r with computedTokens := r.computedTokens + chunk }) = ids rs :=
      ids_of_pinned (set_pinned hget _)
    obtain ⟨hinside, houtside⟩ := @ih (ledger.credit { id := r.id, tokens := chunk })
      (hids ▸ hnodup) (by
        intro q hq
        rcases mem_set_of_nodup hnodup hget hq with rfl | ⟨hq, hne⟩
        · exact Ledger.credit_self rfl rfl rfl hle (hrs r hmem)
        · exact Ledger.credit_other hne (hrs q hq))
    refine ⟨hinside, fun q hq hagree => houtside q (hids ▸ hq) ?_⟩
    refine Ledger.credit_other (fun hid => hq ?_) hagree
    rw [hid]
    exact List.mem_map_of_mem hmem

theorem Admitted.agrees {cfg : SchedulerConfig} {total : U32}
    {waiting running waiting' running' : List TrackedRequest} {free free' : ℕ}
    {items : List PrefillItem}
    (h : Admitted cfg total waiting running free items waiting' running' free') :
    ∀ {ledger : Ledger}, (ids (waiting ++ running)).Nodup →
      (∀ r ∈ waiting ++ running, ledger.Agrees r) →
      ∀ r ∈ waiting' ++ running', (items.foldl Ledger.credit ledger).Agrees r := by
  induction h with
  | nil => exact fun _ hrs => hrs
  | @pull waiting running _ _ _ _ _ r chunk _ _ hle _ ih =>
    intro ledger hnodup hrs
    have hids : ids (waiting ++ (running ++ [{ r with
          computedTokens := r.computedTokens + chunk, blocksReserved := cfg.reservation r }]))
        = ids (waiting ++ running) ++ [r.id] := by
      simp [ids]
    have hperm : (ids (waiting ++ running) ++ [r.id]).Perm (ids (r :: waiting ++ running)) :=
      List.perm_append_singleton _ _
    have hnotin : r.id ∉ ids (waiting ++ running) := (List.nodup_cons.mp hnodup).1
    refine ih (by rw [hids]; exact hperm.nodup_iff.mpr hnodup) ?_
    intro q hq
    rw [← List.append_assoc] at hq
    rcases List.mem_append.mp hq with hq | hq
    · refine Ledger.credit_other (fun hid => hnotin ?_)
        (hrs q (List.mem_append.mpr (by simp only [List.mem_cons, List.mem_append] at hq ⊢; tauto)))
      have heq : q.id = r.id := hid
      rw [← heq]
      exact List.mem_map_of_mem hq
    · rw [List.mem_singleton] at hq
      subst hq
      exact Ledger.credit_self rfl rfl rfl hle (hrs r (by simp))

/-! ### Exact balance -/

/-- The reservation and the watermark add up in `u32`. -/
def HeadroomFits (cfg : SchedulerConfig) (total : U32) (r : TrackedRequest) : Prop :=
  cfg.reservation r + cfg.watermarkBlocks total < 2 ^ 32

instance (cfg : SchedulerConfig) (total : U32) (r : TrackedRequest) :
    Decidable (HeadroomFits cfg total r) := inferInstanceAs (Decidable (_ < _))

theorem HeadroomFits.headroom_eq {cfg : SchedulerConfig} {total : U32} {r : TrackedRequest}
    (h : HeadroomFits cfg total r) :
    cfg.headroom total r = cfg.reservation r + cfg.watermarkBlocks total :=
  Nat.mod_eq_of_lt h

theorem headroomFits {cfg : SchedulerConfig} {total : U32} {r : TrackedRequest}
    (h : cfg.Fits total r.request) : HeadroomFits cfg total r := by
  rw [HeadroomFits, SchedulerConfig.reservation_exact h.1]
  exact h.2

theorem Admitted.balance {cfg : SchedulerConfig} {total : U32}
    {waiting running waiting' running' : List TrackedRequest} {free free' : ℕ}
    {items : List PrefillItem}
    (h : Admitted cfg total waiting running free items waiting' running' free')
    (hfits : ∀ r ∈ waiting, HeadroomFits cfg total r) (hfree : free < 2 ^ 32)
    (hbalance : free + reservedSum running = total) :
    free' + reservedSum running' = total := by
  induction h with
  | nil => exact hbalance
  | @pull _ running _ _ free _ _ r chunk _ hroom _ _ ih =>
    have hle : cfg.reservation r ≤ free := by
      rw [(hfits r (by simp)).headroom_eq] at hroom
      omega
    have hsub : (subU32 free (cfg.reservation r)).val = free - cfg.reservation r :=
      subU32_val hle hfree
    apply ih (fun q hq => hfits q (by simp [hq])) (subU32_val_lt _ _)
    rw [hsub, reservedSum_append, reservedSum_cons, reservedSum_nil, Nat.add_zero]
    show free - cfg.reservation r + (reservedSum running + cfg.reservation r) = total
    omega

/-! ### No call leaves its range -/

theorem tokensPerDecodeStep_overflow {cfg : SchedulerConfig} {r : TrackedRequest}
    (hfits : cfg.footprint r.request < 2 ^ 32) (hwants : r.wantsDecode.val = true) :
    cfg.tokensPerDecodeStep.overflow = false := by
  obtain ⟨-, hshort⟩ := r.wantsDecode_val.mp hwants
  rw [TrackedRequest.fullSeqLen, addU32_val] at hshort
  have hfoot : (r.promptTokens : ℕ) + r.maxOutputTokens + cfg.draftTokensPerStep < 2 ^ 32 := hfits
  exact addU32_overflow (by omega)

theorem fullSeqLen_exact {cfg : SchedulerConfig} {r : TrackedRequest}
    (hfits : cfg.footprint r.request < 2 ^ 32) :
    r.fullSeqLen.overflow = false ∧
      r.fullSeqLen.val = r.promptTokens + r.maxOutputTokens := by
  have hfoot : (r.promptTokens : ℕ) + r.maxOutputTokens + cfg.draftTokensPerStep < 2 ^ 32 := hfits
  exact ⟨addU32_overflow (by omega), Wrapping.add_val_of_lt (by omega)⟩

theorem wantsDecode_overflow {cfg : SchedulerConfig} {r : TrackedRequest}
    (hfits : cfg.footprint r.request < 2 ^ 32) : r.wantsDecode.overflow = false := by
  unfold TrackedRequest.wantsDecode
  split
  · exact Wrapping.bind_overflow_eq_false (fullSeqLen_exact hfits).1 rfl
  · rfl

theorem decodePhase_overflow {cfg : SchedulerConfig} :
    ∀ {rs : List TrackedRequest} {budget : ℕ},
      (∀ r ∈ rs, cfg.footprint r.request < 2 ^ 32) → budget < 2 ^ 32 →
      (decodePhase cfg rs budget).overflow = false := by
  intro rs
  induction rs with
  | nil => exact fun _ _ => rfl
  | cons r rs ih =>
    intro budget hfits hbudget
    have hr := hfits r (by simp)
    have hrest : ∀ q ∈ rs, cfg.footprint q.request < 2 ^ 32 := fun q hq => hfits q (by simp [hq])
    rw [decodePhase]
    refine Wrapping.bind_overflow_eq_false (wantsDecode_overflow hr) ?_
    split
    · rename_i hwants
      obtain ⟨-, hshort⟩ := r.wantsDecode_val.mp hwants
      refine Wrapping.bind_overflow_eq_false (tokensPerDecodeStep_overflow hr hwants) ?_
      split
      · rfl
      · rename_i hcost
        have hadd : (addU32 r.computedTokens 1).overflow = false :=
          addU32_overflow (by have := r.fullSeqLen_lt; omega)
        have hsub : (subU32 budget cfg.tokensPerDecodeStep.val).overflow = false :=
          subU32_overflow (Nat.not_lt.mp hcost)
        refine Wrapping.bind_overflow_eq_false hadd
          (Wrapping.bind_overflow_eq_false hsub (Wrapping.bind_overflow_eq_false ?_ rfl))
        rw [subU32_val (Nat.not_lt.mp hcost) hbudget]
        exact ih hrest (lt_of_le_of_lt (Nat.sub_le _ _) hbudget)
    · exact Wrapping.bind_overflow_eq_false (ih hrest hbudget) rfl

theorem sharePrefill_overflow {slice reserve start : ℕ} :
    ∀ {offsets : List ℕ} {st : PrefillShare}, st.budget < 2 ^ 32 →
      (sharePrefill slice reserve start offsets st).overflow = false := by
  intro offsets
  induction offsets with
  | nil => exact fun _ => rfl
  | cons offset offsets ih =>
    intro st hbudget
    simp only [sharePrefill]
    split
    · rfl
    split
    · rfl
    split
    · rfl
    rename_i r _
    split
    · exact ih hbudget
    rename_i hready
    have hshort : r.computedTokens < r.promptTokens := by
      simpa [TrackedRequest.isDecodeReady] using hready
    have hrem : (subU32 r.promptTokens r.computedTokens).val
        = r.promptTokens - r.computedTokens := subU32_val hshort.le (Fin.isLt _)
    refine Wrapping.bind_overflow_eq_false (subU32_overflow hshort.le) ?_
    rw [hrem]
    split
    · exact ih hbudget
    · have hchunk : min (min ((r.promptTokens : ℕ) - r.computedTokens) slice)
          (st.budget - reserve) ≤ r.promptTokens - r.computedTokens :=
        (Nat.min_le_left _ _).trans (Nat.min_le_left _ _)
      have hspent : min (min ((r.promptTokens : ℕ) - r.computedTokens) slice)
          (st.budget - reserve) ≤ st.budget := (Nat.min_le_right _ _).trans (Nat.sub_le _ _)
      refine Wrapping.bind_overflow_eq_false (addU32_overflow ?_)
        (Wrapping.bind_overflow_eq_false (subU32_overflow hspent) ?_)
      · exact lt_of_le_of_lt (Nat.add_le_add_left hchunk _)
          (by rw [Nat.add_sub_of_le hshort.le]; exact Fin.isLt _)
      · rw [subU32_val hspent hbudget]
        exact ih (lt_of_le_of_lt (Nat.sub_le _ _) hbudget)

/-- Phase 3's test of a request that fits does not leave `u32`. -/
theorem headroom_overflow {cfg : SchedulerConfig} {total : U32} {r : TrackedRequest}
    (h : cfg.Fits total r.request) :
    (cfg.attentionBlocksNeeded r.fullSeqLen.val).overflow = false ∧
      (addU32 (cfg.attentionBlocksNeeded r.fullSeqLen.val).val
        (cfg.watermarkBlocks total)).overflow = false := by
  constructor
  · refine Wrapping.bind_overflow_eq_false ?_ rfl
    rw [(fullSeqLen_exact h.1).2]
    exact addU32_overflow h.1
  · have hneeded : (cfg.attentionBlocksNeeded r.fullSeqLen.val).val = cfg.exactBlocks r.request :=
      SchedulerConfig.reservation_exact h.1
    rw [hneeded]
    exact addU32_overflow h.2

theorem admissionCanProceed_overflow {s : Scheduler}
    (hfits : ∀ r ∈ s.waiting, s.config.Fits s.totalAttentionBlocks r.request) :
    s.admissionCanProceed.overflow = false := by
  unfold admissionCanProceed
  split
  · rfl
  split
  · rfl
  · rename_i candidate _ hwaiting
    have hr := hfits candidate (by rw [hwaiting]; simp)
    exact Wrapping.bind_overflow_eq_false (fullSeqLen_exact hr.1).1
      (Wrapping.bind_overflow_eq_false (headroom_overflow hr).1
        (Wrapping.bind_overflow_eq_false (headroom_overflow hr).2 rfl))

theorem admitPhase_overflow {cfg : SchedulerConfig} {total : U32} :
    ∀ {waiting : List TrackedRequest} {st : Admissions},
      (∀ r ∈ waiting, cfg.Fits total r.request) →
      (∀ r ∈ waiting, r.computedTokens ≤ r.promptTokens) →
      st.budget < 2 ^ 32 → (admitPhase cfg total waiting st).overflow = false := by
  intro waiting
  induction waiting with
  | nil => exact fun _ _ _ => rfl
  | cons r waiting ih =>
    intro st hfits hrestored hbudget
    have hr := hfits r (by simp)
    have hle := hrestored r (by simp)
    have hroom := (headroomFits hr).headroom_eq
    rw [admitPhase]
    split
    · rfl
    refine Wrapping.bind_overflow_eq_false (fullSeqLen_exact hr.1).1
      (Wrapping.bind_overflow_eq_false (headroom_overflow hr).1
        (Wrapping.bind_overflow_eq_false (headroom_overflow hr).2 ?_))
    split
    · rfl
    rename_i hfree
    have hfits_free : (cfg.attentionBlocksNeeded r.fullSeqLen.val).val ≤ st.free := by
      have hheadroom : cfg.headroom total r ≤ st.free := Nat.not_lt.mp hfree
      rw [hroom] at hheadroom
      exact (Nat.le_add_right _ _).trans hheadroom
    have hrem : (subU32 r.promptTokens r.computedTokens).val
        = r.promptTokens - r.computedTokens := subU32_val hle (Fin.isLt _)
    refine Wrapping.bind_overflow_eq_false (subU32_overflow hfits_free)
      (Wrapping.bind_overflow_eq_false (subU32_overflow hle) ?_)
    rw [hrem]
    have hchunk : min (min ((r.promptTokens : ℕ) - r.computedTokens) cfg.slice) st.budget
        ≤ r.promptTokens - r.computedTokens := (Nat.min_le_left _ _).trans (Nat.min_le_left _ _)
    have hspent : min (min ((r.promptTokens : ℕ) - r.computedTokens) cfg.slice) st.budget
        ≤ st.budget := Nat.min_le_right _ _
    refine Wrapping.bind_overflow_eq_false (addU32_overflow ?_)
      (Wrapping.bind_overflow_eq_false (subU32_overflow hspent) ?_)
    · exact lt_of_le_of_lt (Nat.add_le_add_left hchunk _)
        (by rw [Nat.add_sub_of_le hle]; exact Fin.isLt _)
    split
    · rfl
    · rw [subU32_val hspent hbudget]
      exact ih (fun q hq => hfits q (by simp [hq])) (fun q hq => hrestored q (by simp [hq]))
        (lt_of_le_of_lt (Nat.sub_le _ _) hbudget)

/-- Everything a step adds or subtracts stays in `u32`. -/
theorem stepInto_overflow {s : Scheduler} (hbooks : Books s)
    (hwaiting : ∀ r ∈ s.waiting, s.config.Fits s.totalAttentionBlocks r.request)
    (hrunning : ∀ r ∈ s.running, s.config.Fits s.totalAttentionBlocks r.request) :
    s.stepInto.overflow = false := by
  obtain ⟨-, hspent⟩ := decodePhase_spec s.config s.running s.config.tokenBudget (Fin.isLt _)
  have h1 : decodeSum s.stepDecoded.2.1 + s.stepDecoded.2.2 = s.config.tokenBudget := hspent
  have hbudget₁ : s.stepDecoded.2.2 < 2 ^ 32 :=
    lt_of_le_of_lt ((Nat.le_add_left _ _).trans h1.le) (Fin.isLt s.config.tokenBudget)
  obtain ⟨grants, -, -, hshared⟩ := sharePrefill_spec s.config.slice s.stepReserve
    (s.prefillCursor % s.stepDecoded.1.length) (List.range s.stepDecoded.1.length)
    { running := s.stepDecoded.1, prefills := [], budget := s.stepDecoded.2.2
      granted := false } hbudget₁
  have h2 : prefillSum grants + s.stepShared.budget = s.stepDecoded.2.2 := hshared
  have hbudget₂ : s.stepShared.budget < 2 ^ 32 :=
    lt_of_le_of_lt ((Nat.le_add_left _ _).trans h2.le) hbudget₁
  refine Wrapping.bind_overflow_eq_false
    (decodePhase_overflow (fun r hr => (hrunning r hr).1) (Fin.isLt _)) ?_
  refine Wrapping.bind_overflow_eq_false
    (admissionCanProceed_overflow (s := { s with running := s.stepDecoded.1 }) hwaiting) ?_
  refine Wrapping.bind_overflow_eq_false (sharePrefill_overflow hbudget₁) ?_
  exact Wrapping.bind_overflow_eq_false
    (admitPhase_overflow hwaiting hbooks.waiting_restored hbudget₂) rfl

/-! ### The invariant of runs in range -/

/-- What callers see to: a submitted id is not live, and a speculative
correction is for a request that has decoded. -/
def Proper (s : Scheduler) : Op → Prop
  | .admitRequest req => req.id ∉ ids s.tracked
  | .admitWithPrefix req _ => req.id ∉ ids s.tracked
  | .advanceSpeculative id _ => ∀ r ∈ s.running, r.id = id → r.isDecodeReady = true
  | _ => True

/-- An admission call whose arithmetic stays in `u32`: the prefix check
refuses it first, or its own sum is in range and, unless refused, so is what
phase 3 will add up for it. -/
def AdmissionInRange (s : Scheduler) (req : NewRequest) (computedPrefix : U32) : Prop :=
  (req.promptTokens : ℕ) < computedPrefix ∨
    (req.fullSeqLen + s.config.draftTokensPerStep < 2 ^ 32 ∧
      (s.RefusedOnSight req computedPrefix ∨ s.config.Fits s.totalAttentionBlocks req))

/-- The arithmetic of a call stays in `u32`. -/
def InRange (s : Scheduler) : Op → Prop
  | .admitRequest req => s.AdmissionInRange req 0
  | .admitWithPrefix req computedPrefix => s.AdmissionInRange req computedPrefix
  | _ => True

theorem Proper.fresh {s : Scheduler} {op : Op} {req : NewRequest} {computedPrefix : U32}
    (h : s.Proper op) (hop : op.submission = some (req, computedPrefix)) :
    req.id ∉ ids s.tracked := by
  cases op with
  | admitRequest _ => cases hop; exact h
  | admitWithPrefix _ _ => cases hop; exact h
  | _ => cases hop

theorem InRange.admission {s : Scheduler} {op : Op} {req : NewRequest} {computedPrefix : U32}
    (h : s.InRange op) (hop : op.submission = some (req, computedPrefix)) :
    s.AdmissionInRange req computedPrefix := by
  cases op with
  | admitRequest _ => cases hop; exact h
  | admitWithPrefix _ _ => cases hop; exact h
  | _ => cases hop

/-- The invariant of a scheduler and its observer while calls stay in range. -/
structure Exact (s : Scheduler) (ledger : Ledger) : Prop where
  books : Books s
  fits : ∀ req ∈ s.requests, s.config.Fits s.totalAttentionBlocks req
  nodup : (ids s.tracked).Nodup
  balance : s.freeAttentionBlocks + reservedSum s.running = s.totalAttentionBlocks
  progress : ∀ r ∈ s.tracked, r.computedTokens ≤ r.promptTokens + r.maxOutputTokens
  agrees : ∀ r ∈ s.tracked, ledger.Agrees r

theorem ids_eq_requests (s : Scheduler) : ids s.tracked = s.requests.map (·.id) := by
  simp [ids, requests, TrackedRequest.request]

theorem Exact.fits_waiting {s : Scheduler} {ledger : Ledger} (h : Exact s ledger) :
    ∀ r ∈ s.waiting, s.config.Fits s.totalAttentionBlocks r.request := fun r hr =>
  h.fits _ (List.mem_map_of_mem (by simp [tracked, hr]))

theorem Exact.fits_running {s : Scheduler} {ledger : Ledger} (h : Exact s ledger) :
    ∀ r ∈ s.running, s.config.Fits s.totalAttentionBlocks r.request := fun r hr =>
  h.fits _ (List.mem_map_of_mem (by simp [tracked, hr]))

/-- A running request's blocks are on the books. -/
theorem Exact.release_lt {s : Scheduler} {ledger : Ledger} (h : Exact s ledger)
    {r : TrackedRequest} (hr : r ∈ s.running) :
    s.freeAttentionBlocks + r.blocksReserved < 2 ^ 32 := by
  have hle : r.blocksReserved ≤ reservedSum s.running :=
    List.le_sum_of_mem (List.mem_map_of_mem hr)
  have hbalance := h.balance
  have hlt : (s.totalAttentionBlocks : ℕ) < 2 ^ 32 := Fin.isLt _
  omega

theorem finishRequest_overflow {s : Scheduler} {ledger : Ledger} (h : Exact s ledger)
    (id : RequestId) : (s.finishRequest id).overflow = false := by
  unfold finishRequest
  split
  · rename_i r hfind
    exact Wrapping.bind_overflow_eq_false
      (addU32_overflow (h.release_lt (List.mem_of_find?_eq_some hfind))) rfl
  · rfl

theorem preempt_overflow {s : Scheduler} {ledger : Ledger} (h : Exact s ledger)
    (id : RequestId) : (s.preempt id).overflow = false := by
  unfold preempt
  split
  · rename_i r hfind
    exact Wrapping.bind_overflow_eq_false
      (addU32_overflow (h.release_lt (List.mem_of_find?_eq_some hfind))) rfl
  · rfl

theorem cancelRequest_overflow {s : Scheduler} {ledger : Ledger} (h : Exact s ledger)
    (id : RequestId) : (s.cancelRequest id).overflow = false := by
  refine Wrapping.bind_overflow_eq_false (finishRequest_overflow h id) ?_
  split
  split
  · rfl
  split
  · rfl
  · rfl

theorem advanceSpeculative_overflow {s : Scheduler} {ledger : Ledger} (h : Exact s ledger)
    (id : RequestId) (additional : U32) :
    (s.advanceSpeculative id additional).overflow = false := by
  unfold advanceSpeculative
  split
  · rename_i r hfind
    have hfits := h.fits_running r (List.mem_of_find?_eq_some hfind)
    exact Wrapping.bind_overflow_eq_false (fullSeqLen_exact hfits.1).1 rfl
  · rfl

theorem admitWithPrefix_overflow {s : Scheduler} {req : NewRequest} {computedPrefix : U32}
    (h : s.AdmissionInRange req computedPrefix) :
    (s.admitWithPrefix req computedPrefix).overflow = false := by
  unfold admitWithPrefix
  split
  · rfl
  · rename_i hrestored
    have hsum : req.fullSeqLen + s.config.draftTokensPerStep < 2 ^ 32 := by
      rcases h with h | h
      · exact absurd h hrestored
      · exact h.1
    refine Wrapping.bind_overflow_eq_false
      (Wrapping.bind_overflow_eq_false (addU32_overflow hsum) rfl) ?_
    split
    · rfl
    split
    · rfl
    · rfl

/-- No call in range adds or subtracts out of `u32`. -/
theorem Exact.apply_overflow {s : Scheduler} {ledger : Ledger} (h : Exact s ledger) {op : Op}
    (hop : s.InRange op) : (s.apply op).overflow = false := by
  cases op with
  | admitRequest req => exact Wrapping.bind_overflow_eq_false (admitWithPrefix_overflow hop) rfl
  | admitWithPrefix req computedPrefix =>
    exact Wrapping.bind_overflow_eq_false (admitWithPrefix_overflow hop) rfl
  | stepInto =>
    exact Wrapping.bind_overflow_eq_false
      (stepInto_overflow h.books h.fits_waiting h.fits_running) rfl
  | advanceSpeculative id additional =>
    exact Wrapping.bind_overflow_eq_false (advanceSpeculative_overflow h id additional) rfl
  | finishRequest id => exact Wrapping.bind_overflow_eq_false (finishRequest_overflow h id) rfl
  | cancelRequest id => exact Wrapping.bind_overflow_eq_false (cancelRequest_overflow h id) rfl
  | preempt id => exact Wrapping.bind_overflow_eq_false (preempt_overflow h id) rfl

/-! ### Every call in range keeps the invariant -/

section Record

variable (ledger : Ledger)

theorem record_refused (op : Op) (e : AdmissionError) :
    ledger.record (op, .admission (.error e)) = ledger := by
  cases op <;> rfl

theorem record_missing (op : Op) : ledger.record (op, .found false) = ledger := by
  cases op <;> rfl

theorem record_queued {op : Op} {req : NewRequest} {computedPrefix : U32}
    (hop : op.submission = some (req, computedPrefix)) (id : RequestId) :
    ledger.record (op, .admission (.ok id)) = Function.update ledger id ⟨computedPrefix, 0⟩ := by
  cases op <;> cases hop <;> rfl

theorem record_released {op : Op} {id : RequestId} (hop : op.released = some id) :
    ledger.record (op, .found true) = ledger := by
  cases op <;> cases hop <;> rfl

end Record

theorem Agrees.update_other {ledger : Ledger} {id : RequestId} {g : Grants}
    {r : TrackedRequest} (hne : r.id ≠ id) (h : ledger.Agrees r) :
    Ledger.Agrees (Function.update ledger id g) r := by
  rw [Ledger.Agrees, Function.update_of_ne hne]
  exact h

theorem Moved.fits {s s' : Scheduler} {op : Op} {out : Outcome} (h : Moved s op out s')
    (hrange : s.InRange op)
    (hfits : ∀ req ∈ s.requests, s.config.Fits s.totalAttentionBlocks req) :
    ∀ req ∈ s'.requests, s'.config.Fits s'.totalAttentionBlocks req := by
  obtain ⟨hcfg, htotal⟩ := h.config
  rw [hcfg, htotal]
  cases h with
  | @queued _ req computedPrefix hop hrestored hneeded hqueue =>
    intro q hq
    simp only [Scheduler.requests, tracked, List.map_append, List.map_cons, List.map_nil,
      List.mem_append, List.mem_singleton] at hq
    rcases hq with (hq | hq) | hq
    · exact hfits q (by simp [Scheduler.requests, tracked, hq])
    · -- the request just accepted
      subst hq
      rcases hrange.admission hop with hlt | ⟨-, hsight | hreq⟩
      · omega
      · rw [RefusedOnSight] at hsight
        omega
      · exact hreq
    · exact hfits q (by simp [Scheduler.requests, tracked, hq])
  | refused _ => exact hfits
  | missing _ => exact hfits
  -- a step only moves requests about
  | stepped hstep => exact fun q hq => hfits q (hstep.requests.mem_iff.mp hq)
  | advanced hrs _ =>
    intro q hq
    refine hfits q ?_
    simp only [Scheduler.requests, tracked, hrs, List.map_append, List.map_cons] at hq ⊢
    exact hq
  | released _ hrs _ =>
    intro q hq
    refine hfits q ?_
    simp only [Scheduler.requests, tracked, hrs, List.map_append, List.map_cons, List.mem_append,
      List.mem_cons] at hq ⊢
    tauto
  | dequeued hrs _ =>
    intro q hq
    refine hfits q ?_
    simp only [Scheduler.requests, tracked, hrs, List.map_append, List.map_cons, List.mem_append,
      List.mem_cons] at hq ⊢
    tauto
  -- the preempted request waits now, and is the same request
  | preempted hrs _ =>
    intro q hq
    refine hfits q ?_
    simp only [Scheduler.requests, tracked, hrs, List.map_append, List.map_cons, List.mem_append,
      List.mem_cons] at hq ⊢
    rcases hq with (rfl | hq) | hq
    · exact Or.inr (Or.inr (Or.inl rfl))
    · exact Or.inl hq
    · tauto

theorem Moved.nodup {s s' : Scheduler} {op : Op} {out : Outcome} (h : Moved s op out s')
    (hproper : s.Proper op) (hnodup : (ids s.tracked).Nodup) : (ids s'.tracked).Nodup := by
  rw [ids_eq_requests] at hnodup ⊢
  rcases h.requests with hperm | ⟨req, computedPrefix, hop, -, hperm⟩ | ⟨r, -, hperm⟩
  · exact (hperm.map _).nodup_iff.mpr hnodup
  · refine (hperm.map _).nodup_iff.mpr ?_
    rw [List.map_cons, List.nodup_cons, ← ids_eq_requests]
    exact ⟨hproper.fresh hop, by rw [ids_eq_requests]; exact hnodup⟩
  · have hcons := (hperm.map NewRequest.id).nodup_iff.mp hnodup
    rw [List.map_cons, List.nodup_cons] at hcons
    exact hcons.2

theorem Moved.balance {s s' : Scheduler} {op : Op} {out : Outcome} (h : Moved s op out s')
    (hfree : s.freeAttentionBlocks < 2 ^ 32)
    (hfits : op = .stepInto → ∀ r ∈ s.waiting, HeadroomFits s.config s.totalAttentionBlocks r)
    (hbalance : s.freeAttentionBlocks + reservedSum s.running = s.totalAttentionBlocks) :
    s'.freeAttentionBlocks + reservedSum s'.running = s'.totalAttentionBlocks := by
  have hpool : (s.totalAttentionBlocks : ℕ) < 2 ^ 32 := Fin.isLt _
  cases h with
  | stepped hstep =>
    obtain ⟨-, htotal, ⟨decoded, shared, _, _, hdec, hgrant, hadm, -⟩, -⟩ := hstep
    have hpinned : shared.map TrackedRequest.pinned = s.running.map TrackedRequest.pinned :=
      hgrant.pinned.trans hdec.pinned
    rw [htotal]
    refine hadm.balance (hfits rfl) hfree ?_
    rw [reservedSum_of_pinned hpinned, hbalance]
  | advanced hrs _ =>
    rw [hrs] at hbalance
    simpa using hbalance
  | released _ hrs _ =>
    rw [hrs, reservedSum_append, reservedSum_cons] at hbalance
    simp only [reservedSum_append]
    omega
  | preempted hrs _ =>
    rw [hrs, reservedSum_append, reservedSum_cons] at hbalance
    simp only [reservedSum_append]
    omega
  | _ => exact hbalance

/-- A request's progress never leaves its length. -/
def Within (r : TrackedRequest) : Prop :=
  r.computedTokens ≤ r.promptTokens + r.maxOutputTokens

theorem fullSeqLen_le (r : TrackedRequest) :
    r.fullSeqLen.val ≤ r.promptTokens + r.maxOutputTokens := by
  rw [TrackedRequest.fullSeqLen, addU32_val]
  exact Nat.mod_le _ _

theorem Decoded.within {cost : ℕ} {rs rs' : List TrackedRequest} {ds : List DecodeItem}
    (h : Decoded cost rs rs' ds) (hrs : ∀ r ∈ rs, Within r) : ∀ r ∈ rs', Within r := by
  induction h with
  | nil => exact hrs
  | keep _ ih =>
    rw [List.forall_mem_cons] at hrs ⊢
    exact ⟨hrs.1, ih hrs.2⟩
  | @decode r _ _ _ _ hshort _ ih =>
    rw [List.forall_mem_cons] at hrs ⊢
    exact ⟨hshort.trans_le (fullSeqLen_le r), ih hrs.2⟩

theorem Granted.within {rs rs' : List TrackedRequest} {items : List PrefillItem}
    (h : Granted rs items rs') (hrs : ∀ r ∈ rs, Within r) : ∀ r ∈ rs', Within r := by
  induction h with
  | nil => exact hrs
  | @grant rs _ _ r _ chunk _ _ hle _ ih =>
    refine ih fun q hq => ?_
    rcases List.mem_or_eq_of_mem_set hq with hq | rfl
    · exact hrs q hq
    · exact hle.trans (Nat.le_add_right _ _)

theorem Admitted.within {cfg : SchedulerConfig} {total : U32}
    {waiting running waiting' running' : List TrackedRequest} {free free' : ℕ}
    {items : List PrefillItem}
    (h : Admitted cfg total waiting running free items waiting' running' free')
    (hrs : ∀ r ∈ waiting ++ running, Within r) : ∀ r ∈ waiting' ++ running', Within r := by
  induction h with
  | nil => exact hrs
  | pull _ _ hle _ ih =>
    refine ih fun q hq => ?_
    rw [← List.append_assoc] at hq
    rcases List.mem_append.mp hq with hq | hq
    · exact hrs q (by simp only [List.mem_append, List.mem_cons] at hq ⊢; tauto)
    · rw [List.mem_singleton.mp hq]
      exact hle.trans (Nat.le_add_right _ _)

theorem Moved.within {s s' : Scheduler} {op : Op} {out : Outcome} (h : Moved s op out s')
    (hs : ∀ r ∈ s.tracked, Within r) : ∀ r ∈ s'.tracked, Within r := by
  have hsub : ∀ {t : Scheduler}, (∀ r ∈ t.tracked, r ∈ s.tracked) → ∀ r ∈ t.tracked, Within r :=
    fun hsub r hr => hs r (hsub r hr)
  cases h with
  | refused _ => exact hs
  | missing _ => exact hs
  | stepped hstep =>
    obtain ⟨-, -, ⟨decoded, shared, _, _, hdec, hgrant, hadm, -⟩, -⟩ := hstep
    have hrunning := hgrant.within (hdec.within fun r hr => hs r (by simp [tracked, hr]))
    refine hadm.within fun r hr => ?_
    rcases List.mem_append.mp hr with hr | hr
    · exact hs r (by simp [tracked, hr])
    · exact hrunning r hr
  | queued _ hrestored _ _ =>
    intro q hq
    simp only [tracked, List.mem_append, List.mem_singleton] at hq
    rcases hq with (hq | rfl) | hq
    · exact hs q (by simp [tracked, hq])
    · exact hrestored.trans (Nat.le_add_right _ _)
    · exact hs q (by simp [tracked, hq])
  | @advanced _ _ r _ _ hrs _ =>
    intro q hq
    simp only [tracked, List.mem_append, List.mem_cons] at hq
    rcases hq with hq | hq | rfl | hq
    · exact hs q (by simp [tracked, hq])
    · exact hs q (by simp [tracked, hrs, hq])
    · exact (Nat.min_le_right _ _).trans (fullSeqLen_le r)
    · exact hs q (by simp [tracked, hrs, hq])
  | released _ hrs _ =>
    refine hsub fun q hq => ?_
    simp only [tracked, hrs, List.mem_append, List.mem_cons] at hq ⊢
    tauto
  | dequeued hrs _ =>
    refine hsub fun q hq => ?_
    simp only [tracked, hrs, List.mem_append, List.mem_cons] at hq ⊢
    tauto
  | preempted hrs _ =>
    intro q hq
    simp only [tracked, List.mem_append, List.mem_cons] at hq
    rcases hq with (rfl | hq) | hq | hq
    · exact Nat.zero_le _
    · exact hs q (by simp [tracked, hq])
    · exact hs q (by simp [tracked, hrs, hq])
    · exact hs q (by simp [tracked, hrs, hq])

theorem Moved.agrees {s s' : Scheduler} {op : Op} {out : Outcome} (h : Moved s op out s')
    {ledger : Ledger} (hproper : s.Proper op) (hs : Exact s ledger) :
    ∀ r ∈ s'.tracked, (ledger.record (op, out)).Agrees r := by
  have hagrees := hs.agrees
  cases h with
  -- nothing changes, and nothing is recorded
  | refused _ =>
    rw [record_refused]
    exact hagrees
  | missing _ =>
    rw [record_missing]
    exact hagrees
  | stepped hstep =>
    obtain ⟨-, -, ⟨decoded, shared, grants, admissions, hdec, hgrant, hadm, hitems, -⟩, -⟩ := hstep
    -- the three phases in turn: decodes record nothing, grants and admissions credit their items
    have hids : ids decoded = ids s.running := ids_of_pinned hdec.pinned
    have hids' : ids shared = ids s.running := ids_of_pinned (hgrant.pinned.trans hdec.pinned)
    have hnodup : (ids s.waiting ++ ids s.running).Nodup := by
      have := hs.nodup
      rwa [tracked, ids, List.map_append] at this
    obtain ⟨hwaiting, hrunning, hdisjoint⟩ := List.nodup_append.mp hnodup
    obtain ⟨hshared, hother⟩ := @Granted.agrees _ _ _ hgrant ledger (by rw [hids]; exact hrunning)
      (hdec.agrees fun r hr => hagrees r (by simp [tracked, hr]))
    show ∀ r ∈ _, Ledger.Agrees (List.foldl Ledger.credit ledger _) r
    rw [hitems, List.foldl_append]
    refine hadm.agrees ?_ fun r hr => ?_
    · rw [ids, List.map_append]
      change (ids s.waiting ++ ids shared).Nodup
      rw [hids']
      exact hnodup
    -- who waited was granted nothing in the first two phases
    · rcases List.mem_append.mp hr with hr | hr
      · refine hother r ?_ (hagrees r (by simp [tracked, hr]))
        rw [hids]
        exact fun hmem => hdisjoint r.id (List.mem_map_of_mem hr) r.id hmem rfl
      · exact hshared r hr
  | @queued _ req computedPrefix hop hrestored _ _ =>
    rw [record_queued ledger hop]
    intro q hq
    have hfresh : ∀ r ∈ s.tracked, r.id ≠ req.id := fun r hr hid =>
      hproper.fresh hop (hid ▸ List.mem_map_of_mem hr)
    simp only [tracked, List.mem_append, List.mem_singleton] at hq
    -- the others keep their accounts, and the new one opens with the restored prefix
    rcases hq with (hq | rfl) | hq
    · have hmem : q ∈ s.tracked := by simp [tracked, hq]
      exact Agrees.update_other (hfresh q hmem) (hagrees q hmem)
    · rw [Ledger.Agrees, Function.update_self]
      show (computedPrefix : ℕ) + 0 = min (computedPrefix : ℕ) req.promptTokens
      omega
    · have hmem : q ∈ s.tracked := by simp [tracked, hq]
      exact Agrees.update_other (hfresh q hmem) (hagrees q hmem)
  | @advanced id additional r before after hrs hid =>
    intro q hq
    have hmem : r ∈ s.running := by simp [hrs]
    have hready : (r.promptTokens : ℕ) ≤ r.computedTokens := by
      simpa [TrackedRequest.isDecodeReady] using hproper r hmem hid
    have hfull : r.fullSeqLen.val = r.promptTokens + r.maxOutputTokens :=
      (fullSeqLen_exact (hs.fits_running r hmem).1).2
    simp only [tracked, List.mem_append, List.mem_cons] at hq
    rcases hq with hq | hq | rfl | hq
    · exact hagrees q (by simp [tracked, hq])
    · exact hagrees q (by simp [tracked, hrs, hq])
    · -- the correction starts and ends past the prompt
      have hr : (ledger r.id).restored + (ledger r.id).granted
          = min r.computedTokens r.promptTokens := hagrees r (by simp [tracked, hmem])
      have hsat : (r.promptTokens : ℕ) ≤ satAddU32 r.computedTokens additional := by
        have : (r.promptTokens : ℕ) < 2 ^ 32 := Fin.isLt _
        rw [satAddU32]
        omega
      show (ledger r.id).restored + (ledger r.id).granted
        = min (min (satAddU32 r.computedTokens additional) r.fullSeqLen.val) r.promptTokens
      rw [hr, hfull]
      omega
    · exact hagrees q (by simp [tracked, hrs, hq])
  -- who is gone leaves an account that nobody asks for
  | released hop hrs _ =>
    rw [record_released ledger hop]
    intro q hq
    refine hagrees q ?_
    simp only [tracked, hrs, List.mem_append, List.mem_cons] at hq ⊢
    tauto
  | dequeued hrs _ =>
    intro q hq
    refine hagrees q ?_
    simp only [tracked, hrs, List.mem_append, List.mem_cons] at hq ⊢
    tauto
  | @preempted id r before after hrs hid =>
    intro q hq
    have hnodup := hs.nodup
    have hperm : (ids s.tracked).Perm (r.id :: ids (s.waiting ++ (before ++ after))) := by
      simp only [ids, tracked, hrs, List.map_append, List.map_cons]
      rw [← List.append_assoc, ← List.append_assoc]
      exact List.perm_middle
    have hnotin := (List.nodup_cons.mp (hperm.nodup_iff.mp hnodup)).1
    simp only [tracked, List.mem_append, List.mem_cons] at hq
    rcases hq with (rfl | hq) | hq
    -- the preempted request starts over, with an account of zeroes
    · rw [Ledger.Agrees]
      show (Function.update ledger id (⟨0, 0⟩ : Grants) r.id).restored
        + (Function.update ledger id (⟨0, 0⟩ : Grants) r.id).granted = min 0 _
      rw [hid, Function.update_self]
      exact (Nat.zero_min _).symm
    -- the others are not it
    · have hne : q.id ≠ id := fun heq => hnotin (by
        rw [hid, ← heq]
        exact List.mem_map_of_mem (List.mem_append.mpr (Or.inl hq)))
      exact Agrees.update_other hne (hagrees q (by simp [tracked, hq]))
    · have hne : q.id ≠ id := fun heq => hnotin (by
        rw [hid, ← heq]
        exact List.mem_map_of_mem (List.mem_append.mpr (Or.inr (List.mem_append.mpr hq))))
      refine Agrees.update_other hne (hagrees q ?_)
      simp only [tracked, hrs, List.mem_append, List.mem_cons]
      tauto

theorem Moved.exact {s s' : Scheduler} {op : Op} {out : Outcome} (h : Moved s op out s')
    {ledger : Ledger} (hproper : s.Proper op) (hrange : s.InRange op) (hs : Exact s ledger) :
    Exact s' (ledger.record (op, out)) where
  books := h.books hs.books
  fits := h.fits hrange hs.fits
  nodup := h.nodup hproper hs.nodup
  balance := h.balance hs.books.ledgered.free_lt
    (fun _ r hr => headroomFits (hs.fits_waiting r hr)) hs.balance
  progress := h.within hs.progress
  agrees := h.agrees hproper hs

/-! ### Runs in range -/

/-- A call by a proper caller, in range, with its entry in the ledger. -/
def AuditedCall (a : Scheduler × Ledger) (l : Op × Outcome) (b : Scheduler × Ledger) : Prop :=
  a.1.Proper l.1 ∧ a.1.InRange l.1 ∧ Call a.1 l b.1 ∧ b.2 = a.2.record l

/-- What the accounts say in one state. -/
structure Accounted (s : Scheduler) (ledger : Ledger) : Prop where
  balance : s.freeAttentionBlocks + reservedSum s.running = s.totalAttentionBlocks
  waiting_free : ∀ r ∈ s.waiting, r.blocksReserved = 0
  running_exact : ∀ r ∈ s.running, r.blocksReserved = s.config.exactBlocks r.request
  slots : s.running.length ≤ s.config.maxConcurrentDecodes
  progress : ∀ r ∈ s.tracked, r.computedTokens ≤ r.promptTokens + r.maxOutputTokens
  nodup : (ids s.tracked).Nodup
  granted : ∀ r ∈ s.tracked, (ledger r.id).restored + (ledger r.id).granted
    = min r.computedTokens r.promptTokens
  prefilled : ∀ r ∈ s.tracked, r.isDecodeReady = true →
    (ledger r.id).granted = r.promptTokens - (ledger r.id).restored

theorem Exact.accounted {s : Scheduler} {ledger : Ledger} (h : Exact s ledger) :
    Accounted s ledger where
  balance := h.balance
  waiting_free := h.books.waiting_free
  running_exact := fun r hr => by
    rw [h.books.ledgered.running_reserved r hr,
      SchedulerConfig.reservation_exact (h.fits_running r hr).1]
  slots := h.books.ledgered.slots
  progress := h.progress
  nodup := h.nodup
  granted := h.agrees
  prefilled := fun r hr hready => by
    have hagree := h.agrees r hr
    have hle : (r.promptTokens : ℕ) ≤ r.computedTokens := by
      simpa [TrackedRequest.isDecodeReady] using hready
    rw [Ledger.Agrees] at hagree
    omega

theorem new_exact (cfg : SchedulerConfig) (total : U32) (ledger : Ledger) :
    Exact (new cfg total) ledger where
  books := new_books cfg total
  fits := by simp [requests, tracked, new]
  nodup := by simp [ids, tracked, new]
  balance := by simp [new]
  progress := by simp [tracked, new]
  agrees := by simp [tracked, new]

/-- In a run whose admissions are in range the accounts are exact in every
state, and the next call, if it is in range too, overflows nothing and
schedules no more than the budget. -/
theorem accounting {cfg : SchedulerConfig} {total : U32} {ledger : Ledger}
    {ls : List (Op × Outcome)} {s : Scheduler}
    (h : Run AuditedCall (new cfg total, Ledger.empty) ls (s, ledger)) :
    Accounted s ledger ∧
      ∀ op, s.InRange op → (s.apply op).overflow = false ∧
        ∀ b, (s.apply op).val.2 = .batch b → b.totalTokens ≤ s.config.tokenBudget := by
  have hexact : Exact s ledger := by
    refine h.invariant (P := fun a => Exact a.1 a.2) (new_exact cfg total _) ?_
    rintro ⟨a, la⟩ ⟨b, lb⟩ ⟨op, out⟩ ha ⟨hproper, hrange, hcall, hledger⟩
    simp only at ha hproper hrange hcall hledger
    rw [hledger]
    exact (hcall.moved ha.books).exact hproper hrange ha
  refine ⟨hexact.accounted, fun op hop => ⟨hexact.apply_overflow hop, fun b hb => ?_⟩⟩
  have hmoved := apply_moved hexact.books.waiting_restored op
  rw [hb] at hmoved
  cases hmoved with
  | stepped hstep => exact hstep.budget

/-- One call with its entry in the ledger, as a function. -/
def audit (a : Scheduler × Ledger) (op : Op) : Scheduler × Ledger :=
  ((a.1.apply op).val.1, a.2.record (op, (a.1.apply op).val.2))

theorem audit_auditedCall {a : Scheduler × Ledger} {op : Op} (hproper : a.1.Proper op)
    (hrange : a.1.InRange op) : AuditedCall a (op, (a.1.apply op).val.2) (audit a op) :=
  ⟨hproper, hrange, rfl, rfl⟩

/-- The accounts after one request has been queued and a step has run. -/
theorem accounting_witness :
    Accounted
      (audit (audit (new draftingConfig 1, Ledger.empty) (.admitRequest ⟨7, 10, 200⟩)) .stepInto).1
      (audit (audit (new draftingConfig 1, Ledger.empty)
        (.admitRequest ⟨7, 10, 200⟩)) .stepInto).2 := by
  have hproper : (new draftingConfig 1).Proper (.admitRequest ⟨7, 10, 200⟩) := List.not_mem_nil
  have hrange : (new draftingConfig 1).InRange (.admitRequest ⟨7, 10, 200⟩) :=
    Or.inr ⟨by decide, Or.inr ⟨by decide, by decide⟩⟩
  have hrun := Run.snoc (Run.single (audit_auditedCall (a := (new draftingConfig 1, Ledger.empty))
    hproper hrange)) (@audit_auditedCall _ .stepInto trivial trivial)
  exact (accounting hrun).1

/-- A first admission whose sum wraps, and the reservation that comes of it. -/
theorem drafting_admission_overflows :
    (new draftingConfig 1).Proper (.admitRequest ⟨7, 10, 4294967295⟩) ∧
      ((new draftingConfig 1).apply (.admitRequest ⟨7, 10, 4294967295⟩)).overflow = true ∧
      ∃ r ∈ (((new draftingConfig 1).apply
          (.admitRequest ⟨7, 10, 4294967295⟩)).val.1.apply .stepInto).val.1.running,
        r.blocksReserved ≠ draftingConfig.exactBlocks r.request := by
  refine ⟨List.not_mem_nil, by decide, ⟨7, 10, 4294967295, 10, 1⟩, ?_, by decide⟩
  exact List.mem_singleton.mpr (by decide)

end Scheduler
