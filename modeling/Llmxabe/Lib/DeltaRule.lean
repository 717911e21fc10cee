/-
The gated delta rule over a commutative ring.

A state is a matrix from keys to values.  One step decays it, asks what it predicts
for the key and adds the gated error of the prediction as an outer product.

All steps of a stretch are determined by the state before it: with `total` the decay
since the start and `ratio t i` the decay after step `i` up to step `t`, the state is
the decayed start plus the decayed corrections (`state_eq`), and the corrections
solve a unit lower triangular system (`correction_system`).
-/
import Mathlib.Data.Matrix.Mul
import Mathlib.Tactic

open Matrix

namespace DeltaRule

variable {K κ ι : Type} [CommRing K] [Fintype κ]

/-- The error of the prediction for the key, gated. -/
def correction (gate : K) (key : κ → K) (value : ι → K) (S : Matrix ι κ K) : ι → K :=
  gate • (value - S *ᵥ key)

/-- What a step adds to the decayed state. -/
def learn (gate : K) (key : κ → K) (value : ι → K) (S : Matrix ι κ K) : Matrix ι κ K :=
  S + vecMulVec (correction gate key value S) key

section Stretch

variable (decay gate : ℕ → K) (key : ℕ → κ → K) (value : ℕ → ι → K) (S : Matrix ι κ K)

/-- The state before step `t`. -/
def state : ℕ → Matrix ι κ K
  | 0 => S
  | t + 1 => learn (gate t) (key t) (value t) (decay t • state t)

/-- The correction made at step `t`. -/
def corr (t : ℕ) : ι → K :=
  correction (gate t) (key t) (value t) (decay t • state decay gate key value S t)

/-- The decay from the start through step `t`. -/
def total (t : ℕ) : K := ∏ m ∈ Finset.range (t + 1), decay m

/-- The decay after step `i` through step `t`. -/
def ratio (t i : ℕ) : K := ∏ m ∈ Finset.Ioc i t, decay m

variable {decay gate key value S} {t i : ℕ}

theorem state_succ : state decay gate key value S (t + 1) =
    decay t • state decay gate key value S t +
      vecMulVec (corr decay gate key value S t) (key t) := rfl

theorem total_succ : total decay (t + 1) = total decay t * decay (t + 1) :=
  Finset.prod_range_succ decay (t + 1)

theorem ratio_self : ratio decay t t = 1 := by
  rw [ratio, Finset.Ioc_self, Finset.prod_empty]

theorem ratio_succ (hi : i ≤ t) : ratio decay (t + 1) i = ratio decay t i * decay (t + 1) := by
  rw [ratio, ratio, ← Finset.prod_Ioc_succ_top hi]

/-- The state as a step finds it once decayed. -/
theorem decayed_eq : decay t • state decay gate key value S t = total decay t • S +
    ∑ i ∈ Finset.range t,
      ratio decay t i • vecMulVec (corr decay gate key value S i) (key i) := by
  induction t with
  | zero => simp [state, total]
  | succ t ih =>
    rw [state_succ, ih, Finset.sum_range_succ, ratio_succ le_rfl, ratio_self, one_mul, smul_add,
      smul_add, smul_smul, mul_comm, ← total_succ, Finset.smul_sum, add_assoc]
    congr 2
    refine Finset.sum_congr rfl fun i hi => ?_
    rw [smul_smul, mul_comm, ← ratio_succ (Finset.mem_range.mp hi).le]

theorem state_eq : state decay gate key value S (t + 1) = total decay t • S +
    ∑ i ∈ Finset.range (t + 1),
      ratio decay t i • vecMulVec (corr decay gate key value S i) (key i) := by
  rw [state_succ, decayed_eq, Finset.sum_range_succ, ratio_self, one_smul, add_assoc]

/-- A sum of decayed corrections, read at a key. -/
theorem corrections_mulVec (s : Finset ℕ) (q : κ → K) :
    (∑ i ∈ s, ratio decay t i • vecMulVec (corr decay gate key value S i) (key i)) *ᵥ q =
      ∑ i ∈ s, (key i ⬝ᵥ q * ratio decay t i) • corr decay gate key value S i := by
  rw [sum_mulVec]
  refine Finset.sum_congr rfl fun i _ => ?_
  rw [smul_mulVec, vecMulVec_mulVec, op_smul_eq_smul, smul_smul, mul_comm]

/-- The corrections of a stretch solve a unit lower triangular system. -/
theorem correction_system : corr decay gate key value S t +
    ∑ i ∈ Finset.range t,
      (gate t * (key i ⬝ᵥ key t) * ratio decay t i) • corr decay gate key value S i =
      gate t • (value t - total decay t • (S *ᵥ key t)) := by
  rw [corr, correction, decayed_eq, add_mulVec, corrections_mulVec, smul_mulVec, sub_add_eq_sub_sub,
    smul_sub _ _ (∑ i ∈ _, _), Finset.smul_sum, sub_add]
  simp only [smul_smul, mul_assoc, sub_self, sub_zero]

/-- What the state after a step says about a query. -/
theorem read_eq (q : κ → K) : state decay gate key value S (t + 1) *ᵥ q =
    total decay t • (S *ᵥ q) + ∑ i ∈ Finset.range (t + 1),
      (key i ⬝ᵥ q * ratio decay t i) • corr decay gate key value S i := by
  rw [state_eq, add_mulVec, corrections_mulVec, smul_mulVec]

end Stretch

end DeltaRule
