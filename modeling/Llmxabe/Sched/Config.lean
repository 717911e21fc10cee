/-
Scheduler tunables, validated at construction (`xabe-sched/src/config.rs`).

`SchedulerConfig` can only be built by `SchedulerConfig.new`, so the checks
`new` makes are fields of the structure.  Note what `new` does not check: the
sum `block_size + max_concurrent_decodes` is a `u32` sum, and neither the
draft count nor the watermark is compared with the pool.
-/
import Llmxabe.Lib.Binary64
import Llmxabe.Sched.Request

/-- A structurally invalid configuration. -/
inductive SchedulerConfigError where
  | budgetTooSmall (tokenBudget blockSize maxConcurrentDecodes : U32)
  | zeroBlockSize
  | watermarkOutOfRange (fraction : Binary64)
  deriving DecidableEq, Repr

/-- Bound on waiting requests, per decode slot. -/
def defaultWaitingRequestsMultiplier : ℕ := 4

/-- Scheduler configuration, carrying the checks its constructor made. -/
structure SchedulerConfig where
  tokenBudget : U32
  blockSize : U32
  maxConcurrentDecodes : U32
  watermarkFraction : Binary64
  draftTokensPerStep : U32
  maxWaitingRequests : ℕ
  prefillSlice : U32
  blockSize_pos : 0 < (blockSize : ℕ)
  watermark_inUnit : watermarkFraction.inUnit = true
  budget_gt : ((blockSize : ℕ) + maxConcurrentDecodes) % 2 ^ 32 < tokenBudget
  maxWaiting_eq : maxWaitingRequests
    = satMulU32 maxConcurrentDecodes defaultWaitingRequestsMultiplier
  deriving DecidableEq

namespace SchedulerConfig

/-- The waiting queue behind four decode slots. -/
theorem waiting_of_four : 16 = satMulU32 4 defaultWaitingRequestsMultiplier := rfl

/-- Build a validated scheduler configuration. -/
def new (tokenBudget blockSize maxConcurrentDecodes : U32) (watermarkFraction : Binary64)
    (draftTokensPerStep : U32) : Except SchedulerConfigError SchedulerConfig :=
  if hb : (blockSize : ℕ) = 0 then .error .zeroBlockSize
  else if hw : watermarkFraction.inUnit = false then
    .error (.watermarkOutOfRange watermarkFraction)
  else if hk : (tokenBudget : ℕ) ≤ (addU32 blockSize maxConcurrentDecodes).val then
    .error (.budgetTooSmall tokenBudget blockSize maxConcurrentDecodes)
  else
    .ok {
      tokenBudget, blockSize, maxConcurrentDecodes, watermarkFraction, draftTokensPerStep
      maxWaitingRequests := satMulU32 maxConcurrentDecodes defaultWaitingRequestsMultiplier
      prefillSlice := 0
      blockSize_pos := Nat.pos_of_ne_zero hb
      watermark_inUnit := by simpa using hw
      budget_gt := by simpa using hk
      maxWaiting_eq := rfl }

/-- Cap each sequence's per-step prefill grant. -/
def withPrefillSlice (cfg : SchedulerConfig) (prefillSlice : U32) : SchedulerConfig :=
  { cfg with prefillSlice }

/-- The cap phases 2 and 3 put on one grant: zero means none. -/
def slice (cfg : SchedulerConfig) : ℕ :=
  if (cfg.prefillSlice : ℕ) = 0 then 2 ^ 32 - 1 else cfg.prefillSlice

/-- Tokens one decoding request consumes from the step budget. -/
def tokensPerDecodeStep (cfg : SchedulerConfig) : Wrapping ℕ :=
  addU32 1 cfg.draftTokensPerStep

/-- Watermark, in blocks, given a pool of `totalAttentionBlocks`. -/
def watermarkBlocks (cfg : SchedulerConfig) (totalAttentionBlocks : U32) : ℕ :=
  cfg.watermarkFraction.scaleFloor (2 ^ 32 - 1) totalAttentionBlocks

variable (cfg : SchedulerConfig)

theorem tokenBudget_pos : 0 < (cfg.tokenBudget : ℕ) :=
  lt_of_le_of_lt (Nat.zero_le _) cfg.budget_gt

theorem slice_pos : 0 < cfg.slice := by
  unfold slice
  split <;> omega

theorem watermarkBlocks_le (total : U32) : cfg.watermarkBlocks total ≤ total :=
  Binary64.scaleFloor_le cfg.watermark_inUnit (by omega)

/-- A configuration without decode slots accepts no waiting request. -/
theorem maxWaitingRequests_pos (h : 0 < cfg.maxWaitingRequests) :
    0 < (cfg.maxConcurrentDecodes : ℕ) := by
  rw [cfg.maxWaiting_eq, satMulU32] at h
  by_contra h0
  have : (cfg.maxConcurrentDecodes : ℕ) = 0 := by omega
  rw [this] at h
  simp at h

/-- A waiting queue holds at least one request for every decode slot. -/
theorem maxConcurrentDecodes_le_maxWaitingRequests :
    (cfg.maxConcurrentDecodes : ℕ) ≤ cfg.maxWaitingRequests := by
  rw [cfg.maxWaiting_eq, satMulU32, defaultWaitingRequestsMultiplier]
  omega

/-- `new` accepts exactly a positive block size, a watermark in `[0, 1)` and a
budget above the (wrapping) sum of block size and decode slots. -/
theorem new_eq_ok_iff {tokenBudget blockSize maxConcurrentDecodes draft : U32}
    {fraction : Binary64} :
    (∃ cfg, new tokenBudget blockSize maxConcurrentDecodes fraction draft = .ok cfg) ↔
      0 < (blockSize : ℕ) ∧ fraction.inUnit = true ∧
        ((blockSize : ℕ) + maxConcurrentDecodes) % 2 ^ 32 < tokenBudget := by
  unfold new
  constructor
  · rintro ⟨cfg, h⟩
    split at h
    · cases h
    split at h
    · cases h
    split at h
    · cases h
    rename_i hb hw hk
    exact ⟨Nat.pos_of_ne_zero hb, by simpa using hw, by simpa using hk⟩
  · rintro ⟨hb, hw, hk⟩
    rw [dif_neg (by omega), dif_neg (by simp [hw]), dif_neg (by simpa using hk)]
    exact ⟨_, rfl⟩

end SchedulerConfig
