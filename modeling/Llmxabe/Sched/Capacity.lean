/-
What an accepted request is given.

A request writes at most `footprint` positions: its prompt, its output and one
draft window of scratch behind them.  Admission compares blocks for the
saturated length plus the draft, phase 3 reserves blocks for the plain sum;
both add the draft in `u32`.

* `admission_reserves_iff`: an accepted request fits the pool and its phase-3
  reservation covers its footprint exactly when the footprint is a `u32`, or
  when the request is one that admission refuses on sight.
* `oversized_request_accepted`: a request of more than `2 ^ 32` tokens that
  passes for one of two.
-/
import Llmxabe.Sched.Books

/-- Positions a request may write over its life, as an unbounded number. -/
def SchedulerConfig.footprint (cfg : SchedulerConfig) (req : NewRequest) : ℕ :=
  req.promptTokens + req.maxOutputTokens + cfg.draftTokensPerStep

/-- Blocks that hold a footprint. -/
def SchedulerConfig.exactBlocks (cfg : SchedulerConfig) (req : NewRequest) : ℕ :=
  divCeil (cfg.footprint req) cfg.blockSize

namespace Scheduler

/-- Admission accepts the request in this state. -/
def Accepts (s : Scheduler) (req : NewRequest) (computedPrefix : U32) : Prop :=
  (s.admitWithPrefix req computedPrefix).val.2 = .ok req.id

/-- One of the three checks of admission fails. -/
def RefusedOnSight (s : Scheduler) (req : NewRequest) (computedPrefix : U32) : Prop :=
  (req.promptTokens : ℕ) < computedPrefix ∨
    (s.totalAttentionBlocks : ℕ) < (s.config.attentionBlocksNeeded req.fullSeqLen).val ∨
    s.config.maxWaitingRequests ≤ s.waiting.length % 2 ^ 32

/-- The pool has room for the request, and so has what phase 3 reserves for it. -/
def Covers (s : Scheduler) (req : NewRequest) : Prop :=
  s.config.footprint req ≤ s.totalAttentionBlocks * s.config.blockSize ∧
    ∀ r : TrackedRequest, r.request = req →
      s.config.footprint req ≤ s.config.reservation r * s.config.blockSize

theorem accepts_iff {s : Scheduler} {req : NewRequest} {computedPrefix : U32} :
    s.Accepts req computedPrefix ↔ ¬s.RefusedOnSight req computedPrefix := by
  simp only [Accepts, admitWithPrefix, Wrapping.ite_val, Wrapping.bind_val, Wrapping.pure_val]
  split
  · rename_i hrestored
    exact iff_of_false (by simp) (not_not.mpr (Or.inl hrestored))
  split
  · rename_i hneeded
    exact iff_of_false (by simp) (not_not.mpr (Or.inr (Or.inl hneeded)))
  split
  · rename_i hqueue
    exact iff_of_false (by simp) (not_not.mpr (Or.inr (Or.inr hqueue)))
  rename_i hrestored hneeded hqueue
  refine iff_of_true rfl ?_
  rintro (h | h | h)
  · exact hrestored h
  · exact hneeded h
  · exact hqueue h

end Scheduler

namespace SchedulerConfig

variable {cfg : SchedulerConfig}

/-- The formula of phase 3, on the request as submitted. -/
theorem reservation_eq (r : TrackedRequest) :
    cfg.reservation r = divCeil (cfg.footprint r.request % 2 ^ 32) cfg.blockSize := by
  rw [reservation, attentionBlocksNeeded_val, TrackedRequest.fullSeqLen, addU32_val,
    Nat.mod_add_mod]
  rfl

/-- Within `u32`, phase 3 and admission both compute the exact number of blocks. -/
theorem reservation_exact {r : TrackedRequest} (h : cfg.footprint r.request < 2 ^ 32) :
    cfg.reservation r = cfg.exactBlocks r.request := by
  rw [reservation_eq, Nat.mod_eq_of_lt h]
  rfl

theorem attentionBlocksNeeded_exact {req : NewRequest} (h : cfg.footprint req < 2 ^ 32) :
    (cfg.attentionBlocksNeeded req.fullSeqLen).val = cfg.exactBlocks req := by
  have hlen : req.fullSeqLen = req.promptTokens + req.maxOutputTokens := by
    rw [footprint] at h
    rw [NewRequest.fullSeqLen, satAddU32]
    omega
  have hsum : req.fullSeqLen + (cfg.draftTokensPerStep : ℕ) = cfg.footprint req := by
    rw [hlen, footprint]
  rw [attentionBlocksNeeded_val, hsum, Nat.mod_eq_of_lt h, exactBlocks]

theorem footprint_le_exactBlocks_mul (req : NewRequest) :
    cfg.footprint req ≤ cfg.exactBlocks req * cfg.blockSize :=
  le_divCeil_mul cfg.blockSize_pos

/-- Once the footprint leaves `u32`, the reservation is of the remainder and
falls short: the block that rounding adds cannot make up for `2 ^ 32`. -/
theorem reservation_short {r : TrackedRequest} (h : 2 ^ 32 ≤ cfg.footprint r.request) :
    cfg.reservation r * cfg.blockSize < cfg.footprint r.request := by
  have hround : cfg.reservation r * cfg.blockSize
      < cfg.footprint r.request % 2 ^ 32 + cfg.blockSize := by
    rw [reservation_eq]
    exact divCeil_mul_lt cfg.blockSize_pos
  have hblock : (cfg.blockSize : ℕ) < 2 ^ 32 := Fin.isLt _
  omega

end SchedulerConfig

namespace Scheduler

/-- Admission never under-reserves exactly on the requests whose footprint is
a `u32`, and on those it refuses. -/
theorem admission_reserves_iff {cfg : SchedulerConfig} {total : U32}
    {ls : List (Op × Outcome)} {s : Scheduler} (h : Run Call (new cfg total) ls s)
    (req : NewRequest) (computedPrefix : U32) :
    (∀ r ∈ s.running, r.blocksReserved = s.config.reservation r) ∧
      ((s.Accepts req computedPrefix → s.Covers req) ↔
        s.config.footprint req < 2 ^ 32 ∨ s.RefusedOnSight req computedPrefix) := by
  refine ⟨(books_of_run h).ledgered.running_reserved, ?_⟩
  constructor
  · intro hcovers
    by_contra hneither
    obtain ⟨hwide, hsight⟩ := not_or.mp hneither
    obtain ⟨-, hreserved⟩ := hcovers (accepts_iff.mpr hsight)
    have hshort := s.config.reservation_short
      (r := { id := req.id, promptTokens := req.promptTokens
              maxOutputTokens := req.maxOutputTokens
              computedTokens := computedPrefix, blocksReserved := 0 })
      (Nat.not_lt.mp hwide)
    exact absurd (hreserved _ rfl) (Nat.not_le.mpr hshort)
  · rintro (hexact | hsight) haccepts
    · have hfits : ¬s.RefusedOnSight req computedPrefix := accepts_iff.mp haccepts
      have hneeded : s.config.exactBlocks req ≤ s.totalAttentionBlocks := by
        rw [← SchedulerConfig.attentionBlocksNeeded_exact hexact]
        rw [RefusedOnSight] at hfits
        omega
      refine ⟨(divCeil_le_iff s.config.blockSize_pos).mp hneeded, ?_⟩
      rintro r rfl
      rw [SchedulerConfig.reservation_exact hexact]
      exact SchedulerConfig.footprint_le_exactBlocks_mul _
    · exact absurd hsight (accepts_iff.mp haccepts)

/-- A pool of one block of 256 tokens, with a draft window of three. -/
def draftingConfig : SchedulerConfig where
  tokenBudget := 512
  blockSize := 256
  maxConcurrentDecodes := 4
  watermarkFraction := .finite false 0 0
  draftTokensPerStep := 3
  maxWaitingRequests := 16
  prefillSlice := 0
  blockSize_pos := by decide
  watermark_inUnit := Binary64.inUnit_zero
  budget_gt := by decide
  maxWaiting_eq := SchedulerConfig.waiting_of_four

/-- Within `u32` the request is covered. -/
theorem admission_reserves_witness :
    (new draftingConfig 1).Accepts ⟨7, 10, 200⟩ 0 ∧
      (new draftingConfig 1).Covers ⟨7, 10, 200⟩ := by
  have hreach : Run Call (new draftingConfig 1) [] (new draftingConfig 1) := Run.nil
  have hiff := (admission_reserves_iff hreach ⟨7, 10, 200⟩ 0).2
  have haccepts : (new draftingConfig 1).Accepts ⟨7, 10, 200⟩ 0 := by
    rw [accepts_iff]
    unfold RefusedOnSight
    decide
  exact ⟨haccepts, hiff.mpr (Or.inl (by decide)) haccepts⟩

/-- A prompt of ten tokens with `2 ^ 32 - 1` of output: the saturated length
plus the draft wraps to two, and a pool of 256 tokens accepts it. -/
theorem oversized_request_accepted :
    (new draftingConfig 1).Accepts ⟨7, 10, 4294967295⟩ 0 ∧
      ¬(new draftingConfig 1).Covers ⟨7, 10, 4294967295⟩ := by
  constructor
  · rw [accepts_iff]
    unfold RefusedOnSight
    decide
  · intro hcovers
    exact absurd hcovers.1 (by decide)

end Scheduler
