/-
The part of IEEE 754 binary64 that scaling an integer by a fraction needs.

A finite value is a sign, an integer significand and a binary exponent,
`± mant * 2 ^ exp`.  `scaleFloor x n` is the exact result of the expression
`(x * n).floor()` cast to an unsigned word: the product is rounded to the
nearest value with a 53-bit significand, ties to even, and the result is then
truncated and saturated at the word's maximum.

The one fact a caller needs is `scaleFloor_le`: a fraction of `n` is at most
`n`, the rounding of the product included.
-/
import Mathlib.Tactic

/-- A binary64 datum. -/
inductive Binary64 where
  | nan
  | inf (neg : Bool)
  | finite (neg : Bool) (mant : ℕ) (exp : ℤ)
  deriving DecidableEq, Repr

namespace Binary64

/-- Round a natural number to 53 significant bits, to nearest, ties to even. -/
def round53 (p : ℕ) : ℕ :=
  let shift := Nat.log2 p + 1 - 53
  let q := p / 2 ^ shift
  let r := 2 * (p % 2 ^ shift)
  (if 2 ^ shift < r ∨ (r = 2 ^ shift ∧ q % 2 = 1) then q + 1 else q) * 2 ^ shift

/-- Whether the value lies in `[0, 1)`.  Negative zero does, as it compares
equal to zero. -/
def inUnit : Binary64 → Bool
  | finite neg mant (.ofNat exp) => (!neg || mant == 0) && decide (mant * 2 ^ exp < 1)
  | finite neg mant (.negSucc k) => (!neg || mant == 0) && decide (mant < 2 ^ (k + 1))
  | _ => false

/-- The product with an integer below `2 ^ 53`, rounded down to an integer and
cast to an unsigned word with maximum `top`. -/
def scaleFloor (top : ℕ) (x : Binary64) (n : ℕ) : ℕ :=
  match x with
  | nan => 0
  | inf neg => if neg || n == 0 then 0 else top
  | finite true _ _ => 0
  | finite false mant (.ofNat exp) => min top (round53 (mant * n) * 2 ^ exp)
  | finite false mant (.negSucc k) => min top (round53 (mant * n) / 2 ^ (k + 1))

/-- Rounding never passes a bound that is itself a multiple of the last kept
bit. -/
theorem round53_le {p B : ℕ} (hp : p ≤ B) (hB : 2 ^ (Nat.log2 p + 1 - 53) ∣ B) :
    round53 p ≤ B := by
  obtain ⟨c, rfl⟩ := hB
  simp only [round53]
  have hDpos : 0 < 2 ^ (Nat.log2 p + 1 - 53) := by positivity
  generalize 2 ^ (Nat.log2 p + 1 - 53) = D at hp hDpos ⊢
  have hdecomp := Nat.div_add_mod p D
  have hq : p / D ≤ c := by
    have := Nat.div_le_div_right (c := D) hp
    rwa [Nat.mul_div_cancel_left _ hDpos] at this
  split
  · -- rounding up happens only strictly below the bound
    rename_i hup
    have hr : 0 < p % D := by omega
    have hlt : p / D < c := by
      by_contra hge
      have hqc : p / D = c := by omega
      rw [hqc] at hdecomp
      omega
    rw [Nat.mul_comm]
    exact Nat.mul_le_mul_left D hlt
  · rw [Nat.mul_comm]
    exact Nat.mul_le_mul_left D hq

/-- A product with a significand below `2 ^ k` is still below `n * 2 ^ k` after
rounding: the bound has more trailing zeros than the rounding drops. -/
theorem round53_mul_le {mant n k : ℕ} (hmant : mant < 2 ^ k) (hn : n < 2 ^ 53) :
    round53 (mant * n) ≤ n * 2 ^ k := by
  have hle : mant * n ≤ n * 2 ^ k := by
    rw [Nat.mul_comm]
    exact Nat.mul_le_mul_left n hmant.le
  refine round53_le hle (dvd_mul_of_dvd_right (Nat.pow_dvd_pow 2 ?_) n)
  rcases Nat.eq_zero_or_pos (mant * n) with h0 | hp0
  · simp [h0, Nat.log2]
  have hlog : Nat.log2 (mant * n) < 53 + k := by
    rw [Nat.log2_lt (by omega)]
    calc mant * n < 2 ^ k * 2 ^ 53 := Nat.mul_lt_mul'' hmant hn
      _ = 2 ^ (53 + k) := by rw [← pow_add, Nat.add_comm]
  omega

theorem inUnit_zero : (finite false 0 0).inUnit = true := rfl

/-- **A fraction of `n` is at most `n`**, the rounding of the product
included. -/
theorem scaleFloor_le {top n : ℕ} {x : Binary64} (hx : x.inUnit = true) (hn : n < 2 ^ 53) :
    scaleFloor top x n ≤ n := by
  match x with
  | nan => simp [inUnit] at hx
  | inf neg => simp [inUnit] at hx
  | finite true _ _ => exact Nat.zero_le _
  | finite false mant (.ofNat exp) =>
    have hzero : mant = 0 := by
      by_contra hne
      have : 0 < mant * 2 ^ exp := Nat.mul_pos (Nat.pos_of_ne_zero hne) (by positivity)
      simp only [inUnit, Bool.not_false, Bool.true_or, Bool.true_and, decide_eq_true_eq] at hx
      omega
    simp [scaleFloor, hzero, round53]
  | finite false mant (.negSucc k) =>
    simp only [inUnit, Bool.not_false, Bool.true_or, Bool.true_and, decide_eq_true_eq] at hx
    refine (Nat.min_le_right _ _).trans (Nat.div_le_of_le_mul ?_)
    rw [Nat.mul_comm (2 ^ (k + 1)) n]
    exact round53_mul_le hx hn

end Binary64
