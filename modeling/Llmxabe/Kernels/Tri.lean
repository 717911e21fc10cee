/-
Forward substitution and the matrix product it feeds (`gdn/tri.rs`).

A row-major buffer is the matrix it lays out, its asserted size the matrix type.
Row `i` of the inverse depends on the rows above it only, so after `r` rounds of the
outer loop the first `r` rows solve their equations (`Solved`).

* `invert_mul`, `mul_invert`: what is returned is the inverse on both sides;
* `matmul_eq`: leaving zeros out does not change the product.
-/
import Mathlib.LinearAlgebra.Matrix.NonsingularInverse
import Mathlib.Tactic

namespace Tri

variable {K : Type} [Field K] [DecidableEq K] {n rows inner cols : ℕ}

/-- `inv` with its row `i` written: one on the diagonal and, before it,
`-sum_{k=j}^{i-1} m[i][k] * inv[k][j]`. -/
def invertRow (m inv : Matrix (Fin n) (Fin n) K) (i : Fin n) : Matrix (Fin n) (Fin n) K :=
  fun r j =>
    if r ≠ i then inv r j
    else if j = i then 1
    else if j < i then
      -(((List.finRange n).filter fun k => j ≤ k ∧ k < i).map fun k => m i k * inv k j).sum
    else inv r j

/-- Forward substitution, row by row. -/
def invertUnitLowerTriangular (m : Matrix (Fin n) (Fin n) K) : Matrix (Fin n) (Fin n) K :=
  Fin.foldl n (invertRow m) 0

/-- The product; entries of `a` that are zero are skipped. -/
def matmul (a : Matrix (Fin rows) (Fin inner) K) (b : Matrix (Fin inner) (Fin cols) K) :
    Matrix (Fin rows) (Fin cols) K :=
  fun i j => Fin.foldl inner
    (fun out k => if a i k = 0 then out else out + a i k * b k j) 0

/-- What a loop over `0..n` keeps. -/
theorem foldl_invariant {β : Type} (P : ℕ → β → Prop) :
    ∀ {n : ℕ} {f : β → Fin n → β} {init : β}, P 0 init →
      (∀ (i : Fin n) (b : β), P i b → P (i + 1) (f b i)) → P n (Fin.foldl n f init) := by
  intro n
  induction n with
  | zero =>
    intro f init h0 _
    rwa [Fin.foldl_zero]
  | succ n ih =>
    intro f init h0 hs
    rw [Fin.foldl_succ_last]
    exact hs (Fin.last n) _ (ih h0 fun i b hb => hs i.castSucc b hb)

theorem matmul_eq (a : Matrix (Fin rows) (Fin inner) K) (b : Matrix (Fin inner) (Fin cols) K) :
    matmul a b = a * b := by
  ext i j
  have hsum : matmul a b i j =
      ∑ k ∈ Finset.univ.filter (fun k : Fin inner => (k : ℕ) < inner), a i k * b k j := by
    refine foldl_invariant
      (fun r out => out = ∑ k ∈ Finset.univ.filter (fun k : Fin inner => (k : ℕ) < r), a i k * b k j)
      ?_ fun r out hout => ?_
    · simp
    · have hinsert : (Finset.univ.filter fun k : Fin inner => (k : ℕ) < r + 1) =
          insert r (Finset.univ.filter fun k : Fin inner => (k : ℕ) < r) := by
        ext k
        simp only [Finset.mem_filter, Finset.mem_univ, true_and, Finset.mem_insert, Fin.ext_iff]
        omega
      rw [hinsert, Finset.sum_insert (by simp), ← hout]
      by_cases hz : a i r = 0
      · rw [if_pos hz, hz, zero_mul, zero_add]
      · rw [if_neg hz, add_comm]
  rw [hsum, Matrix.mul_apply, Finset.filter_true_of_mem fun k _ => k.isLt]

section Invert

/-- The strictly lower part, the only one that is read. -/
def lower (m : Matrix (Fin n) (Fin n) K) : Matrix (Fin n) (Fin n) K :=
  fun i k => if k < i then m i k else 0

/-- After `r` rounds. -/
structure Solved (m : Matrix (Fin n) (Fin n) K) (r : ℕ) (inv : Matrix (Fin n) (Fin n) K) :
    Prop where
  unwritten : ∀ i j : Fin n, r ≤ i ∨ i < j → inv i j = 0
  row : ∀ i j : Fin n, (i : ℕ) < r →
    inv i j + ∑ k, lower m i k * inv k j = (1 : Matrix (Fin n) (Fin n) K) i j

variable {m inv : Matrix (Fin n) (Fin n) K} {r : ℕ} {i j : Fin n}

omit [DecidableEq K]

/-- Row `i` of the lower part reads the rows above `i`. -/
theorem lower_mul_congr {inv' : Matrix (Fin n) (Fin n) K}
    (habove : ∀ k < i, inv k j = inv' k j) :
    ∑ k, lower m i k * inv k j = ∑ k, lower m i k * inv' k j := by
  refine Finset.sum_congr rfl fun k _ => ?_
  rw [lower]
  by_cases hk : k < i
  · rw [if_pos hk, habove k hk]
  · rw [if_neg hk, zero_mul, zero_mul]

theorem invertRow_ne (hr : i ≠ j) (c : Fin n) : invertRow m inv j i c = inv i c :=
  if_pos hr

/-- The accumulator of the inner loop. -/
theorem acc_eq (hinv : Solved m i inv) :
    (((List.finRange n).filter fun k => j ≤ k ∧ k < i).map fun k => m i k * inv k j).sum =
      ∑ k, lower m i k * inv k j := by
  have hnodup : ((List.finRange n).filter fun k => j ≤ k ∧ k < i).Nodup :=
    (List.nodup_finRange n).filter _
  rw [← List.sum_toFinset _ hnodup]
  refine Finset.sum_subset_zero_on_sdiff (Finset.subset_univ _) (fun k hk => ?_) fun k hk => ?_
  · simp only [Finset.mem_sdiff, Finset.mem_univ, true_and, List.mem_toFinset, List.mem_filter,
      List.mem_finRange, decide_eq_true_eq, not_and, not_lt] at hk
    rw [lower]
    by_cases hki : k < i
    · rw [hinv.unwritten k j (Or.inr (lt_of_not_ge fun hjk => absurd hki (hk hjk).not_gt)),
        mul_zero]
    · rw [if_neg hki, zero_mul]
  · simp only [List.mem_toFinset, List.mem_filter, List.mem_finRange, true_and,
      decide_eq_true_eq] at hk
    rw [lower, if_pos hk.2]

/-- A round writes the row that solves its equation, and no other. -/
theorem solved_step (hinv : Solved m i inv) : Solved m (i + 1) (invertRow m inv i) := by
  have hkeep : ∀ k < i, ∀ c, invertRow m inv i k c = inv k c := fun k hk c =>
    invertRow_ne hk.ne c
  refine ⟨fun k c hkc => ?_, fun k c hk => ?_⟩
  · by_cases hki : k = i
    · subst hki
      have hlt : k < c := hkc.resolve_left (by omega)
      rw [invertRow, if_neg (not_not.mpr rfl), if_neg hlt.ne', if_neg hlt.not_gt]
      exact hinv.unwritten k c (Or.inr hlt)
    · rw [invertRow_ne hki]
      exact hinv.unwritten k c (hkc.imp (fun h => by omega) id)
  · rcases Nat.lt_succ_iff_lt_or_eq.mp hk with hlt | heq
    · have hki : k < i := hlt
      rw [hkeep k hki, lower_mul_congr fun l hl => hkeep l (hl.trans hki) c]
      exact hinv.row k c hlt
    · obtain rfl : k = i := Fin.ext heq
      rw [lower_mul_congr fun l hl => hkeep l hl c, invertRow, if_neg (not_not.mpr rfl)]
      by_cases hck : c = k
      · subst hck
        rw [if_pos rfl, Matrix.one_apply_eq, Finset.sum_eq_zero fun l _ => ?_, add_zero]
        rw [lower]
        by_cases hl : l < c
        · rw [hinv.unwritten l c (Or.inr hl), mul_zero]
        · rw [if_neg hl, zero_mul]
      · rw [if_neg hck, Matrix.one_apply_ne (Ne.symm hck)]
        by_cases hlt : c < k
        · rw [if_pos hlt, acc_eq hinv, neg_add_cancel]
        · have hkc : k < c := lt_of_le_of_ne (not_lt.mp hlt) (Ne.symm hck)
          rw [if_neg hlt, hinv.unwritten k c (Or.inr hkc), zero_add]
          refine Finset.sum_eq_zero fun l _ => ?_
          rw [lower]
          by_cases hl : l < k
          · rw [hinv.unwritten l c (Or.inr (hl.trans hkc)), mul_zero]
          · rw [if_neg hl, zero_mul]

theorem invert_solved (m : Matrix (Fin n) (Fin n) K) :
    Solved m n (invertUnitLowerTriangular m) :=
  foldl_invariant (Solved m) ⟨fun _ _ _ => rfl, fun _ _ hi => absurd hi (Nat.not_lt_zero _)⟩
    fun _ _ hinv => solved_step hinv

theorem mul_invert (m : Matrix (Fin n) (Fin n) K) :
    (1 + lower m) * invertUnitLowerTriangular m = 1 := by
  ext i j
  rw [add_mul, one_mul, Matrix.add_apply, Matrix.mul_apply]
  exact (invert_solved m).row i j i.isLt

theorem invert_mul (m : Matrix (Fin n) (Fin n) K) :
    invertUnitLowerTriangular m * (1 + lower m) = 1 :=
  mul_eq_one_comm.mp (mul_invert m)

end Invert

end Tri
