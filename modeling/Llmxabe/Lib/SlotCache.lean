/-
A cache of slots, written a stretch of rows at a time.

A slot holds what was last written to it, or nothing.  `Filled rows cache`
says that the first slots hold exactly these rows; it grows by writing the next
rows behind them (`Filled.write`), holds of fewer rows (`Filled.of_prefix`), and
does not depend on the slots further on (`Filled.congr`).
-/
import Mathlib.Tactic

/-- What each slot was last written with. -/
def SlotCache (α : Type) := ℕ → Option α

namespace SlotCache

variable {α : Type} {cache cache' : SlotCache α} {start p : ℕ} {rows more : List α}

/-- Nothing written. -/
def empty : SlotCache α := fun _ => none

/-- Write a stretch of rows at a position. -/
def write (start : ℕ) (rows : List α) (cache : SlotCache α) : SlotCache α :=
  fun p => if p < start then cache p else rows[p - start]?.or (cache p)

theorem write_of_lt (h : p < start) : cache.write start rows p = cache p := if_pos h

theorem write_add {i : ℕ} (h : i < rows.length) :
    cache.write start rows (start + i) = rows[i]? := by
  rw [write, if_neg (by omega), Nat.add_sub_cancel_left, List.getElem?_eq_getElem h,
    Option.some_or]

@[simp] theorem write_nil : cache.write start [] = cache := by
  funext p
  rw [write, List.getElem?_nil, Option.none_or, ite_self]

/-- Two stretches, one behind the other, are one. -/
theorem write_write :
    (cache.write start rows).write (start + rows.length) more
      = cache.write start (rows ++ more) := by
  funext p
  by_cases hbefore : p < start
  · rw [write_of_lt (by omega), write_of_lt hbefore, write_of_lt hbefore]
  · obtain ⟨i, rfl⟩ := Nat.exists_eq_add_of_le (Nat.not_lt.mp hbefore)
    by_cases hrows : i < rows.length
    · rw [write_of_lt (by omega), write_add hrows,
        write_add (by rw [List.length_append]; omega), List.getElem?_append_left hrows]
    · have hold : rows[i]? = none := List.getElem?_eq_none (Nat.not_lt.mp hrows)
      rw [write, if_neg (by omega), write, if_neg hbefore, write, if_neg hbefore,
        Nat.add_sub_cancel_left, hold, Option.none_or,
        List.getElem?_append_right (Nat.not_lt.mp hrows), Nat.add_sub_add_left]

/-- The first slots hold exactly these rows. -/
def Filled (rows : List α) (cache : SlotCache α) : Prop := ∀ p < rows.length, cache p = rows[p]?

theorem Filled.nil : Filled [] cache := fun _ hp => absurd hp (Nat.not_lt_zero _)

theorem Filled.congr (h : Filled rows cache) (heq : ∀ p < rows.length, cache' p = cache p) :
    Filled rows cache' := fun p hp => (heq p hp).trans (h p hp)

/-- Fewer rows are still there. -/
theorem Filled.of_prefix (h : Filled more cache) (hle : rows <+: more) : Filled rows cache := by
  intro p hp
  obtain ⟨rest, rfl⟩ := hle
  rw [h p (by rw [List.length_append]; omega), List.getElem?_append_left hp]

/-- The rows that follow are written. -/
theorem Filled.write (h : Filled rows cache) :
    Filled (rows ++ more) (cache.write rows.length more) := by
  intro p hp
  by_cases hrows : p < rows.length
  · rw [write_of_lt hrows, h p hrows, List.getElem?_append_left hrows]
  · obtain ⟨i, rfl⟩ := Nat.exists_eq_add_of_le (Nat.not_lt.mp hrows)
    rw [List.length_append] at hp
    rw [write_add (by omega), List.getElem?_append_right (by omega), Nat.add_sub_cancel_left]

end SlotCache
