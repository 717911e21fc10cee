/-
Values weighted by an exponential of their scores.

The weights are taken in a frame, a number that is subtracted from every score.
Another frame multiplies all of them by one factor (`mass_frame`,
`moment_frame`).
-/
import Mathlib.Algebra.Module.BigOperators
import Mathlib.Algebra.Order.Field.Basic
import Mathlib.Tactic

namespace Softmax

section Sums

variable {K V : Type} [Field K] (exp : K → K) (c : K) (l : List (K × V)) (p : K × V)

/-- The sum of the weights. -/
def mass : K := (l.map fun p => exp (p.1 - c)).sum

theorem mass_nil : mass exp c ([] : List (K × V)) = 0 := rfl

theorem mass_concat : mass exp c (l ++ [p]) = mass exp c l + exp (p.1 - c) := by
  rw [mass, List.map_append, List.sum_append, List.map_singleton, List.sum_singleton, mass]

variable [AddCommGroup V] [Module K V]

/-- The sum of the weighted values. -/
def moment : V := (l.map fun p => exp (p.1 - c) • p.2).sum

theorem moment_nil : moment exp c ([] : List (K × V)) = 0 := rfl

theorem moment_concat : moment exp c (l ++ [p]) = moment exp c l + exp (p.1 - c) • p.2 := by
  rw [moment, List.map_append, List.sum_append, List.map_singleton, List.sum_singleton, moment]

end Sums

variable {K V : Type} [Field K] [LinearOrder K]

/-- Positive, and from sums to products. -/
structure IsExp (exp : K → K) : Prop where
  pos : ∀ x, 0 < exp x
  add : ∀ a b, exp (a + b) = exp a * exp b

variable {exp : K → K} (c : K) (l : List (K × V))

/-- From one frame to another. -/
theorem IsExp.frame (h : IsExp exp) (c c' s : K) : exp (s - c') = exp (c - c') * exp (s - c) := by
  rw [← h.add]
  congr 1
  ring

theorem mass_frame (h : IsExp exp) (c' : K) : mass exp c' l = exp (c - c') * mass exp c l := by
  rw [mass, mass, ← List.sum_map_mul_left]
  congr 1
  exact List.map_congr_left fun p _ => h.frame c c' p.1

theorem moment_frame [AddCommGroup V] [Module K V] (h : IsExp exp) (c' : K) :
    moment exp c' l = exp (c - c') • moment exp c l := by
  rw [moment, moment, List.smul_sum, List.map_map]
  congr 1
  refine List.map_congr_left fun p _ => ?_
  rw [Function.comp_apply, smul_smul, ← h.frame]

theorem mass_nonneg [IsStrictOrderedRing K] (h : IsExp exp) : 0 ≤ mass exp c l := by
  refine List.sum_nonneg fun x hx => ?_
  obtain ⟨p, -, rfl⟩ := List.mem_map.mp hx
  exact (h.pos _).le

theorem mass_pos [IsStrictOrderedRing K] (h : IsExp exp) (hne : l ≠ []) : 0 < mass exp c l := by
  obtain ⟨p, rest, rfl⟩ := List.exists_cons_of_ne_nil hne
  rw [mass, List.map_cons, List.sum_cons]
  exact add_pos_of_pos_of_nonneg (h.pos _) (mass_nonneg c rest h)

end Softmax
