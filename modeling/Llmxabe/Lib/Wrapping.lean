/-
Unsigned machine arithmetic that remembers whether it left its range.

`Wrapping α` is a value computed with arithmetic modulo `M`, together with a
flag that is raised as soon as one operation on the way over- or underflowed.
The two readings of such a program come from one definition:

* `x.val` is what a build computes that wraps silently;
* `x.overflow = true` is when a build that checks its arithmetic panics.

The monad instance lets a program be written in the order of its source, and
`bind_val` / `bind_overflow` split a run into those two readings.
-/
import Mathlib.Tactic

/-- A value computed modulo the word size, and whether any operation on the
way left the word's range. -/
inductive Wrapping (α : Type) where
  | mk (a : α) (left : Bool)
  deriving DecidableEq, Repr

namespace Wrapping

variable {α β : Type}

/-- The value, wrapped. -/
def val : Wrapping α → α
  | mk a _ => a

/-- Whether an operation on the way left the range. -/
def overflow : Wrapping α → Bool
  | mk _ left => left

@[simp] theorem mk_val (a : α) (left : Bool) : (mk a left).val = a := rfl

@[simp] theorem mk_overflow (a : α) (left : Bool) : (mk a left).overflow = left := rfl

/-- Run `f` on the value; the flag stays raised once it is. -/
def andThen (x : Wrapping α) (f : α → Wrapping β) : Wrapping β :=
  ⟨(f x.val).val, x.overflow || (f x.val).overflow⟩

instance : Monad Wrapping where
  pure a := ⟨a, false⟩
  bind := andThen

@[simp] theorem pure_val (a : α) : (pure a : Wrapping α).val = a := rfl

@[simp] theorem pure_overflow (a : α) : (pure a : Wrapping α).overflow = false := rfl

@[simp] theorem bind_val (x : Wrapping α) (f : α → Wrapping β) :
    (x >>= f).val = (f x.val).val := by
  cases x
  rfl

@[simp] theorem bind_overflow (x : Wrapping α) (f : α → Wrapping β) :
    (x >>= f).overflow = (x.overflow || (f x.val).overflow) := by
  cases x
  rfl

@[simp] theorem ite_val (c : Prop) [Decidable c] (x y : Wrapping α) :
    (if c then x else y).val = if c then x.val else y.val := apply_ite val c x y

@[simp] theorem ite_overflow (c : Prop) [Decidable c] (x y : Wrapping α) :
    (if c then x else y).overflow = if c then x.overflow else y.overflow :=
  apply_ite overflow c x y

theorem bind_overflow_eq_false {x : Wrapping α} {f : α → Wrapping β}
    (hx : x.overflow = false) (hf : (f x.val).overflow = false) :
    (x >>= f).overflow = false := by
  rw [bind_overflow, hx, hf]
  rfl

/-- Addition modulo `M`. -/
def add (M a b : ℕ) : Wrapping ℕ := ⟨(a + b) % M, decide (M ≤ a + b)⟩

/-- Subtraction modulo `M`, of numbers below it: adds the complement. -/
def sub (M a b : ℕ) : Wrapping ℕ := ⟨(a + (M - b)) % M, decide (a < b)⟩

variable {M a b : ℕ}

@[simp] theorem add_val : (add M a b).val = (a + b) % M := rfl

theorem add_val_of_lt (h : a + b < M) : (add M a b).val = a + b := Nat.mod_eq_of_lt h

theorem add_overflow_of_lt (h : a + b < M) : (add M a b).overflow = false := by
  simp [add, h]

theorem sub_val_of_le (h : b ≤ a) (ha : a < M) : (sub M a b).val = a - b := by
  show (a + (M - b)) % M = a - b
  rw [show a + (M - b) = a - b + M by omega, Nat.add_mod_right]
  exact Nat.mod_eq_of_lt (by omega)

theorem sub_overflow_of_le (h : b ≤ a) : (sub M a b).overflow = false := by
  simp [sub, h]

/-- Wrapping subtraction undoes wrapping addition, whether or not either left
the range. -/
theorem sub_val_add_mod (hb : b ≤ M) : ((sub M a b).val + b) % M = a % M := by
  show ((a + (M - b)) % M + b) % M = a % M
  rw [Nat.mod_add_mod, show a + (M - b) + b = a + M by omega, Nat.add_mod_right]

theorem sub_val_lt (hM : 0 < M) : (sub M a b).val < M := Nat.mod_lt _ hM

end Wrapping
