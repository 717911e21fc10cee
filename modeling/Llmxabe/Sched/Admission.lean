/-
Whether the front of the waiting queue is ever admitted.

Admission compares a request with the whole pool; phase 3 asks for its blocks
and the watermark on top.  With nothing running the whole pool is free, so:

* `front_scheduled_iff`: the front request is moved to running by the next
  step, or by any later one, exactly when its blocks plus the watermark, as
  phase 3 adds them, are within the pool;
* `watermark_blocks_front`: a request that is admitted and never scheduled.
-/
import Llmxabe.Sched.Capacity

namespace Scheduler

/-- `n` steps, one after the other. -/
def steps : ℕ → Scheduler → Scheduler
  | 0, s => s
  | n + 1, s => steps n s.stepInto.val.1

/-- The request is among the running ones. -/
def Runs (s : Scheduler) (req : NewRequest) : Prop := ∃ r ∈ s.running, r.request = req

/-! ### A step with nothing running -/

section Idle

variable {s : Scheduler} (hidle : s.running = [])

include hidle

theorem stepDecoded_idle : s.stepDecoded = ([], [], (s.config.tokenBudget : ℕ)) := by
  rw [stepDecoded, hidle]
  rfl

theorem stepShared_idle : s.stepShared =
    { running := [], prefills := [], budget := s.config.tokenBudget, granted := false } := by
  rw [stepShared, stepDecoded_idle hidle]
  rfl

theorem stepAdmitted_idle : s.stepAdmitted
    = (admitPhase s.config s.totalAttentionBlocks s.waiting {
        running := [], prefills := [], free := s.freeAttentionBlocks
        budget := s.config.tokenBudget }).val := by
  rw [stepAdmitted, stepShared_idle hidle]

/-- Nothing running, the whole pool is free. -/
theorem Books.free_idle (hbooks : Books s) : s.freeAttentionBlocks = s.totalAttentionBlocks := by
  have hbalance := hbooks.ledgered.balance
  have hlt := hbooks.ledgered.free_lt
  rw [hidle, reservedSum_nil] at hbalance
  omega

theorem stepInto_blocked {r : TrackedRequest} {rest : List TrackedRequest}
    (hwaiting : s.waiting = r :: rest)
    (hfree : s.freeAttentionBlocks < s.config.headroom s.totalAttentionBlocks r) :
    s.stepInto.val.1 = s := by
  rw [stepInto_val, stepAdmitted_idle hidle, stepShared_idle hidle, hwaiting,
    admitPhase_stop (Or.inr (Or.inr hfree))]
  obtain ⟨_, _, _, _, _, _⟩ := s
  simp only at hidle hwaiting
  subst hidle hwaiting
  rfl

end Idle

/-! ### Phase 3 keeps what it has admitted -/

theorem Admitted.running_sublist {cfg : SchedulerConfig} {total : U32}
    {waiting running waiting' running' : List TrackedRequest} {free free' : ℕ}
    {items : List PrefillItem}
    (h : Admitted cfg total waiting running free items waiting' running' free') :
    ∀ r ∈ running, r ∈ running' := by
  induction h with
  | nil => exact fun _ h => h
  | pull _ _ _ _ ih => exact fun r hr => ih r (List.mem_append.mpr (Or.inl hr))

/-- If the budget, a slot and the blocks are there, the front request runs. -/
theorem admitPhase_front {cfg : SchedulerConfig} {total : U32} {r : TrackedRequest}
    {waiting : List TrackedRequest} {st : Admissions} (hbudget : st.budget < 2 ^ 32)
    (hpos : st.budget ≠ 0) (hslot : st.running.length < cfg.maxConcurrentDecodes)
    (hfree : cfg.headroom total r ≤ st.free)
    (hrestored : ∀ q ∈ r :: waiting, q.computedTokens ≤ q.promptTokens) :
    ∃ q ∈ (admitPhase cfg total (r :: waiting) st).val.2.running, q.request = r.request := by
  have hle := hrestored r (by simp)
  obtain ⟨chunk, hchunk⟩ : ∃ chunk, chunk
      = min (min ((r.promptTokens : ℕ) - r.computedTokens) cfg.slice) st.budget := ⟨_, rfl⟩
  have hmem : { r with
        computedTokens := r.computedTokens + chunk, blocksReserved := cfg.reservation r }
      ∈ (st.pull cfg r chunk).running := List.mem_append.mpr (Or.inr (List.mem_singleton.mpr rfl))
  rw [admitPhase_pull hbudget hpos hslot hfree hle hchunk]
  split
  · exact ⟨_, hmem, rfl⟩
  · obtain ⟨items, hadmitted, -⟩ := admitPhase_spec cfg total waiting (st.pull cfg r chunk)
      (lt_of_le_of_lt (Nat.sub_le _ _) hbudget) (fun q hq => hrestored q (by simp [hq]))
    exact ⟨_, hadmitted.running_sublist _ hmem, rfl⟩

theorem stepInto_front {s : Scheduler} (hbooks : Books s) (hidle : s.running = [])
    {r : TrackedRequest} {rest : List TrackedRequest} (hwaiting : s.waiting = r :: rest)
    (hfree : s.config.headroom s.totalAttentionBlocks r ≤ s.freeAttentionBlocks) :
    s.stepInto.val.1.Runs r.request := by
  have hslot : 0 < (s.config.maxConcurrentDecodes : ℕ) :=
    hbooks.slot_pos (Or.inl (by rw [hwaiting]; simp))
  have hrestored : ∀ q ∈ r :: rest, q.computedTokens ≤ q.promptTokens := by
    rw [← hwaiting]
    exact hbooks.waiting_restored
  rw [stepInto_val, stepAdmitted_idle hidle, hwaiting]
  exact admitPhase_front (Fin.isLt _) (Nat.ne_of_gt s.config.tokenBudget_pos) hslot hfree hrestored

theorem steps_blocked {s : Scheduler} (hidle : s.running = []) {r : TrackedRequest}
    {rest : List TrackedRequest} (hwaiting : s.waiting = r :: rest)
    (hfree : s.freeAttentionBlocks < s.config.headroom s.totalAttentionBlocks r) :
    ∀ n, steps n s = s := by
  intro n
  induction n with
  | zero => rfl
  | succ n ih => rw [steps, stepInto_blocked hidle hwaiting hfree, ih]

/-- In a reachable state with nothing running, the front request starts in the
next step, and starts at all, exactly when its blocks and the watermark fit
the pool together. -/
theorem front_scheduled_iff {cfg : SchedulerConfig} {total : U32}
    {ls : List (Op × Outcome)} {s : Scheduler} (h : Run Call (new cfg total) ls s)
    (hidle : s.running = []) {r : TrackedRequest} {rest : List TrackedRequest}
    (hwaiting : s.waiting = r :: rest) :
    (s.stepInto.val.1.Runs r.request ↔ cfg.headroom total r ≤ total) ∧
      ((∃ n, (steps n s).Runs r.request) ↔ cfg.headroom total r ≤ total) := by
  have hbooks := books_of_run h
  obtain ⟨hcfg, htotal⟩ := config_of_run h
  have hfree := hbooks.free_idle hidle
  rw [← hcfg, ← htotal, ← hfree]
  by_cases hroom : s.config.headroom s.totalAttentionBlocks r ≤ s.freeAttentionBlocks
  · have hfront := stepInto_front hbooks hidle hwaiting hroom
    exact ⟨iff_of_true hfront hroom, iff_of_true ⟨1, hfront⟩ hroom⟩
  · have hstuck := steps_blocked hidle hwaiting (Nat.not_le.mp hroom)
    have hnever : ¬s.Runs r.request := by
      rintro ⟨q, hq, -⟩
      rw [hidle] at hq
      exact List.not_mem_nil hq
    refine ⟨iff_of_false ?_ hroom, iff_of_false ?_ hroom⟩
    · rw [stepInto_blocked hidle hwaiting (Nat.not_le.mp hroom)]
      exact hnever
    · rintro ⟨n, hruns⟩
      rw [hstuck n] at hruns
      exact hnever hruns

/-- Forty blocks of 256 tokens with a quarter of them kept free. -/
def quarterWatermark : SchedulerConfig where
  tokenBudget := 512
  blockSize := 256
  maxConcurrentDecodes := 4
  watermarkFraction := .finite false 1 (-2)
  draftTokensPerStep := 0
  maxWaitingRequests := 16
  prefillSlice := 0
  blockSize_pos := draftingConfig.blockSize_pos
  watermark_inUnit := by decide
  budget_gt := draftingConfig.budget_gt
  maxWaiting_eq := SchedulerConfig.waiting_of_four

theorem front_scheduled_witness :
    (((new quarterWatermark 40).apply
      (.admitRequest ⟨1, 7600, 80⟩)).val.1).stepInto.val.1.Runs ⟨1, 7600, 80⟩ := by
  have hcall : Call (new quarterWatermark 40)
      (.admitRequest ⟨1, 7600, 80⟩, .admission (.ok 1))
      ((new quarterWatermark 40).apply (.admitRequest ⟨1, 7600, 80⟩)).val.1 := rfl
  exact (front_scheduled_iff (Run.single hcall) rfl (r := ⟨1, 7600, 80, 0, 0⟩) rfl).1.mpr
    (by decide)

/-- A request of 31 blocks in a pool of 40 is accepted, and never runs: with
ten blocks kept free it would need a 41st. -/
theorem watermark_blocks_front :
    (new quarterWatermark 40).Accepts ⟨1, 7700, 80⟩ 0 ∧
      ∀ n, ¬(steps n ((new quarterWatermark 40).apply
        (.admitRequest ⟨1, 7700, 80⟩)).val.1).Runs ⟨1, 7700, 80⟩ := by
  constructor
  · rw [accepts_iff]
    unfold RefusedOnSight
    decide
  · intro n
    rw [steps_blocked (r := ⟨1, 7700, 80, 0, 0⟩) rfl rfl (by decide) n]
    rintro ⟨q, hq, -⟩
    exact List.not_mem_nil hq

end Scheduler
