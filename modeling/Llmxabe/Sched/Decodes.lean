/-
Which requests phase 1 of a step schedules.

The configuration is checked against one token for each decode slot, the phase charges
one and the draft.  When the budget runs out the walk stops, and the tail of the running
requests is left out, at every step anew.

* `decode_unstarved_iff`: exactly when everyone gets through;
* `drafting_starves_tail`: a configuration that passes its check and starves.
-/
import Llmxabe.Sched.Books

/-- The request has finished its prompt and has output left, in unbounded numbers. -/
def TrackedRequest.Due (r : TrackedRequest) : Prop :=
  (r.promptTokens : ℕ) ≤ r.computedTokens ∧
    r.computedTokens < (r.promptTokens : ℕ) + r.maxOutputTokens

instance (r : TrackedRequest) : Decidable r.Due := inferInstanceAs (Decidable (_ ∧ _))

namespace Scheduler

/-- The running requests that phase 1 owes a token. -/
def due (s : Scheduler) : List TrackedRequest := s.running.filter fun r => r.Due

/-- What a step's contract promises them: each is scheduled at the full cost, and the
prefills share what is left. -/
def DecodesAll (s : Scheduler) : Prop :=
  s.stepInto.val.2.decodes = s.due.map (fun r =>
    { id := r.id, tokens := s.config.tokensPerDecodeStep.val }) ∧
  s.stepInto.val.2.prefillTokens ≤ s.config.tokenBudget - s.stepInto.val.2.decodeTokens

section Phase

variable {cfg : SchedulerConfig}

/-- What the filter of the phase lets through. -/
def wanted (rs : List TrackedRequest) : List TrackedRequest :=
  rs.filter fun r => r.wantsDecode.val

theorem wanted_cons {r : TrackedRequest} {rs : List TrackedRequest}
    (hwants : r.wantsDecode.val = true) : wanted (r :: rs) = r :: wanted rs := by
  simp only [wanted, List.filter_cons, hwants, if_true]

theorem wanted_skip {r : TrackedRequest} {rs : List TrackedRequest}
    (hwants : r.wantsDecode.val = false) : wanted (r :: rs) = wanted rs := by
  simp only [wanted, List.filter_cons, hwants, Bool.false_eq_true, if_false]

/-- The item of one decode. -/
def decodeItem (cfg : SchedulerConfig) (r : TrackedRequest) : DecodeItem where
  id := r.id
  tokens := cfg.tokensPerDecodeStep.val

theorem decodePhase_wanted {r : TrackedRequest} {rs : List TrackedRequest} {budget : ℕ}
    (hwants : r.wantsDecode.val = true) (hbudget : budget < 2 ^ 32)
    (hcost : cfg.tokensPerDecodeStep.val ≤ budget) :
    (decodePhase cfg (r :: rs) budget).val.2.1 =
      decodeItem cfg r :: (decodePhase cfg rs (budget - cfg.tokensPerDecodeStep.val)).val.2.1 := by
  simp only [decodePhase, Wrapping.bind_val, Wrapping.ite_val, Wrapping.pure_val, hwants, if_true]
  rw [if_neg (Nat.not_lt.mpr hcost), subU32_val hcost hbudget]
  rfl

theorem decodePhase_unwanted {r : TrackedRequest} {rs : List TrackedRequest} {budget : ℕ}
    (hwants : r.wantsDecode.val = false) :
    (decodePhase cfg (r :: rs) budget).val.2.1 = (decodePhase cfg rs budget).val.2.1 := by
  simp only [decodePhase, Wrapping.bind_val, Wrapping.pure_val, hwants, Bool.false_eq_true,
    if_false]

theorem decodePhase_short {r : TrackedRequest} {rs : List TrackedRequest} {budget : ℕ}
    (hwants : r.wantsDecode.val = true) (hcost : budget < cfg.tokensPerDecodeStep.val) :
    (decodePhase cfg (r :: rs) budget).val.2.1 = [] := by
  simp only [decodePhase, Wrapping.bind_val, Wrapping.ite_val, Wrapping.pure_val, hwants, if_true]
  rw [if_pos hcost]

/-- With budget for all, all that the filter lets through are scheduled. -/
theorem decodePhase_all : ∀ {rs : List TrackedRequest} {budget : ℕ}, budget < 2 ^ 32 →
    (wanted rs).length * cfg.tokensPerDecodeStep.val ≤ budget →
    (decodePhase cfg rs budget).val.2.1 = (wanted rs).map (decodeItem cfg) := by
  intro rs
  induction rs with
  | nil => exact fun _ _ => rfl
  | cons r rs ih =>
    intro budget hbudget hfit
    cases hwants : r.wantsDecode.val with
    | true =>
      rw [wanted_cons hwants] at hfit ⊢
      rw [List.length_cons, Nat.succ_mul] at hfit
      rw [decodePhase_wanted hwants hbudget (by omega), ih (by omega) (by omega), List.map_cons]
    | false =>
      rw [wanted_skip hwants] at hfit ⊢
      rw [decodePhase_unwanted hwants, ih hbudget hfit]

/-- No more are scheduled than the filter lets through. -/
theorem decodePhase_length : ∀ {rs : List TrackedRequest} {budget : ℕ}, budget < 2 ^ 32 →
    (decodePhase cfg rs budget).val.2.1.length ≤ (wanted rs).length := by
  intro rs
  induction rs with
  | nil => exact fun _ => le_rfl
  | cons r rs ih =>
    intro budget hbudget
    cases hwants : r.wantsDecode.val with
    | true =>
      rw [wanted_cons hwants, List.length_cons]
      by_cases hcost : budget < cfg.tokensPerDecodeStep.val
      · rw [decodePhase_short hwants hcost]
        exact Nat.zero_le _
      · rw [decodePhase_wanted hwants hbudget (Nat.le_of_not_lt hcost), List.length_cons]
        exact Nat.succ_le_succ (ih (by omega))
    | false =>
      rw [wanted_skip hwants, decodePhase_unwanted hwants]
      exact ih hbudget

end Phase

section Due

/-- The filter of the source adds the length up as a `u32`. -/
theorem wantsDecode_iff {r : TrackedRequest} :
    r.wantsDecode.val = true ↔ r.Due ∧ (r.promptTokens : ℕ) + r.maxOutputTokens < 2 ^ 32 := by
  have hprompt := r.promptTokens.isLt
  have houtput := r.maxOutputTokens.isLt
  rw [TrackedRequest.wantsDecode_val, TrackedRequest.fullSeqLen, addU32_val, TrackedRequest.Due]
  constructor
  · rintro ⟨hready, hlt⟩
    -- a wrapped length is below the prompt
    omega
  · rintro ⟨⟨hready, hlt⟩, hfit⟩
    exact ⟨hready, by omega⟩

theorem wanted_sublist (rs : List TrackedRequest) :
    (wanted rs).Sublist (rs.filter fun r => r.Due) :=
  List.monotone_filter_right _ fun _ h => decide_eq_true (wantsDecode_iff.mp h).1

variable {s : Scheduler}

theorem stepInto_decodes : s.stepInto.val.2.decodes =
    (decodePhase s.config s.running s.config.tokenBudget).val.2.1 := by
  rw [stepInto_val]
  rfl

theorem decodeSum_items (cfg : SchedulerConfig) (rs : List TrackedRequest) :
    decodeSum (rs.map (decodeItem cfg)) = rs.length * cfg.tokensPerDecodeStep.val := by
  induction rs with
  | nil => rw [List.map_nil, decodeSum_nil, List.length_nil, Nat.zero_mul]
  | cons r rs ih =>
    rw [List.map_cons, decodeSum_cons, ih, List.length_cons, Nat.succ_mul, Nat.add_comm]
    rfl

/-- Everyone who is due is scheduled exactly when their lengths are `u32` values and the
budget covers them at the drafted cost. -/
theorem decode_unstarved_iff {cfg : SchedulerConfig} {total : U32} {ls : List (Op × Outcome)}
    (h : Run Call (new cfg total) ls s) :
    s.DecodesAll ↔
      (∀ r ∈ s.running, r.Due → (r.promptTokens : ℕ) + r.maxOutputTokens < 2 ^ 32) ∧
        s.due.length * s.config.tokensPerDecodeStep.val ≤ s.config.tokenBudget := by
  have hbudget : (s.config.tokenBudget : ℕ) < 2 ^ 32 := Fin.isLt _
  obtain ⟨-, hspent⟩ := decodePhase_spec s.config s.running s.config.tokenBudget hbudget
  have htotal := (stepInto_spec (books_of_run h).waiting_restored).budget
  constructor
  · rintro ⟨hall, -⟩
    rw [stepInto_decodes] at hall
    have hitems : s.due.map (decodeItem s.config) =
        (decodePhase s.config s.running s.config.tokenBudget).val.2.1 := hall.symm
    have hlength : (decodePhase s.config s.running s.config.tokenBudget).val.2.1.length ≤ _ :=
      decodePhase_length hbudget
    rw [← hitems, List.length_map] at hlength
    have hsame := (wanted_sublist s.running).eq_of_length_le hlength
    refine ⟨fun r hr hdue => ?_, ?_⟩
    · have hmem : r ∈ s.running.filter fun r => r.Due :=
        List.mem_filter.mpr ⟨hr, decide_eq_true hdue⟩
      rw [← hsame] at hmem
      exact (wantsDecode_iff.mp (List.mem_filter.mp hmem).2).2
    · rw [← hitems, decodeSum_items] at hspent
      omega
  · rintro ⟨hfit, hcover⟩
    have hsame : wanted s.running = s.due := by
      refine List.filter_congr fun r hr => ?_
      by_cases hdue : r.Due
      · rw [decide_eq_true hdue]
        exact wantsDecode_iff.mpr ⟨hdue, hfit r hr hdue⟩
      · rw [decide_eq_false hdue]
        exact Bool.eq_false_iff.mpr fun hwants => hdue (wantsDecode_iff.mp hwants).1
    refine ⟨?_, ?_⟩
    · rw [stepInto_decodes, decodePhase_all hbudget (by rwa [hsame]), hsame]
      rfl
    · rw [BatchDescription.totalTokens] at htotal
      omega

end Due

/-- Four decode slots, a budget of ten, and three drafted tokens for each decode. -/
def starvedConfig : SchedulerConfig where
  tokenBudget := 10
  blockSize := 1
  maxConcurrentDecodes := 4
  watermarkFraction := .finite false 0 0
  draftTokensPerStep := 3
  maxWaitingRequests := 16
  prefillSlice := 0
  blockSize_pos := by decide
  watermark_inUnit := Binary64.inUnit_zero
  budget_gt := by decide
  maxWaiting_eq := SchedulerConfig.waiting_of_four

/-- Four requests of one prompt token and five of output, submitted and prefilled. -/
def starvedOps : List Op :=
  (List.range 4).map (fun id => .admitRequest ⟨id, 1, 5⟩) ++ [.stepInto]

/-- With two of the four the budget is enough. -/
theorem decode_unstarved_witness :
    ((new starvedConfig 100).play (starvedOps.drop 2)).2.DecodesAll := by
  refine (decode_unstarved_iff (play_run _ (starvedOps.drop 2))).mpr ⟨?_, ?_⟩
  · decide +kernel
  · decide +kernel

/-- All four are due, two are scheduled, and at the next step the same two. -/
theorem drafting_starves_tail : ∃ ls s, Run Call (new starvedConfig 100) ls s ∧
    s.due.map (·.id) = [0, 1, 2, 3] ∧ s.stepInto.val.2.decodes.map (·.id) = [0, 1] ∧
    s.stepInto.val.1.stepInto.val.2.decodes.map (·.id) = [0, 1] ∧ ¬s.DecodesAll := by
  refine ⟨_, _, play_run _ starvedOps, ?_, ?_, ?_, fun hall => ?_⟩
  · decide +kernel
  · decide +kernel
  · decide +kernel
  · have hlength := congrArg List.length hall.1
    revert hlength
    decide +kernel

end Scheduler
