/-
A list cut into complete blocks, and what is left over.

`blocks n xs` are the complete blocks of `n` elements, `leftOver n xs` the
elements behind them.  One more element closes a block or goes to what is left
over (`blocks_concat_full`, `blocks_concat_open`), and the first blocks of two lists
agree where the lists do (`take_blocks_inj`).
-/
import Mathlib.Tactic

namespace Blocks

variable {α : Type}

/-- The full blocks of a list. -/
def blocks (n : ℕ) (xs : List α) : List (List α) :=
  (List.range (xs.length / n)).map fun k => (xs.drop (k * n)).take n

/-- What is behind the last full block. -/
def leftOver (n : ℕ) (xs : List α) : List α := xs.drop (xs.length / n * n)

variable {n k : ℕ} {xs ys : List α} {x : α}

theorem blocks_length : (blocks n xs).length = xs.length / n := by
  rw [blocks, List.length_map, List.length_range]

theorem blocks_nil : blocks n ([] : List α) = [] := by
  rw [blocks, List.length_nil, Nat.zero_div]
  rfl

theorem leftOver_nil : leftOver n ([] : List α) = [] := List.drop_nil

theorem leftOver_length : (leftOver n xs).length = xs.length % n := by
  rw [leftOver, List.length_drop, Nat.mod_eq_sub_div_mul]

/-- The blocks of a list are blocks of a longer one. -/
theorem blocks_prefix (hle : (blocks n xs).length = k) (ys : List α) :
    (List.range k).map (fun k => ((xs ++ ys).drop (k * n)).take n) = blocks n xs := by
  rw [blocks_length] at hle
  subst hle
  refine List.map_congr_left fun j hj => ?_
  have hj := List.mem_range.mp hj
  have hfit : j * n + n ≤ xs.length := by
    have := Nat.mul_le_mul_right n (Nat.succ_le_of_lt hj)
    have := Nat.div_mul_le_self xs.length n
    rw [Nat.succ_mul] at *
    omega
  rw [List.drop_append_of_le_length (by omega), List.take_append_of_le_length]
  rw [List.length_drop]
  omega

theorem blocks_concat_open (hn : 0 < n) (hopen : (leftOver n xs).length + 1 < n) :
    blocks n (xs ++ [x]) = blocks n xs ∧ leftOver n (xs ++ [x]) = leftOver n xs ++ [x] := by
  rw [leftOver_length] at hopen
  have hdiv : (xs ++ [x]).length / n = xs.length / n := by
    rw [List.length_append, List.length_singleton]
    exact Nat.succ_div_of_not_dvd fun hdvd => by
      have := Nat.mod_eq_zero_of_dvd hdvd
      have hmod : (xs.length + 1) % n = xs.length % n + 1 := Nat.add_mod_of_add_mod_lt (by
        rwa [Nat.mod_eq_of_lt (by omega : 1 < n)]) |>.trans (by
        rw [Nat.mod_eq_of_lt (by omega : 1 < n)])
      omega
  constructor
  · rw [blocks, hdiv]
    exact blocks_prefix blocks_length [x]
  · rw [leftOver, hdiv, leftOver, List.drop_append_of_le_length (Nat.div_mul_le_self _ _)]

theorem blocks_concat_full (hn : 0 < n) (hfull : (leftOver n xs).length + 1 = n) :
    blocks n (xs ++ [x]) = blocks n xs ++ [leftOver n xs ++ [x]] ∧
      leftOver n (xs ++ [x]) = [] := by
  have hmod : (leftOver n xs).length = xs.length % n := leftOver_length
  have hlen : xs.length / n * n + n = xs.length + 1 := by
    have := Nat.div_add_mod' xs.length n
    omega
  have hdiv : (xs ++ [x]).length / n = xs.length / n + 1 := by
    rw [List.length_append, List.length_singleton, ← hlen, Nat.add_div_right _ hn,
      Nat.mul_div_cancel _ hn]
  have hlast : ((xs ++ [x]).drop (xs.length / n * n)).take n = leftOver n xs ++ [x] := by
    rw [List.drop_append_of_le_length (Nat.div_mul_le_self _ _), List.take_of_length_le]
    · rfl
    · rw [List.length_append, List.length_drop, List.length_singleton]
      omega
  constructor
  · rw [blocks, hdiv, List.range_succ, List.map_append, List.map_singleton, hlast,
      blocks_prefix blocks_length]
  · rw [leftOver, hdiv, List.drop_eq_nil_iff, List.length_append, List.length_singleton,
      Nat.succ_mul]
    omega

/-- The first blocks are the blocks of the first elements. -/
theorem blocks_take (hn : 0 < n) (hk : k * n ≤ xs.length) :
    blocks n (xs.take (k * n)) = (blocks n xs).take k := by
  have hlen : (xs.take (k * n)).length / n = k := by
    rw [List.length_take, Nat.min_eq_left hk, Nat.mul_div_cancel _ hn]
  have hle : k ≤ xs.length / n := (Nat.le_div_iff_mul_le hn).mpr hk
  have hprefix := blocks_prefix (hlen ▸ blocks_length) (xs.drop (k * n)) (n := n)
  rw [List.take_append_drop] at hprefix
  rw [← hprefix, blocks, ← List.map_take, List.take_range, Nat.min_eq_left hle]

/-- The elements of a list of complete blocks. -/
theorem flatten_blocks (hn : 0 < n) (hk : xs.length = k * n) : (blocks n xs).flatten = xs := by
  induction k generalizing xs with
  | zero =>
    rw [Nat.zero_mul, List.length_eq_zero_iff] at hk
    rw [hk, blocks_nil]
    rfl
  | succ k ih =>
    rw [Nat.succ_mul] at hk
    have hfirst : (xs.take (k * n)).length = k * n := by
      rw [List.length_take]
      omega
    have hlen : xs.length / n = k + 1 := by
      rw [hk, Nat.add_div_right _ hn, Nat.mul_div_cancel _ hn]
    have hblocks : blocks n (xs.take (k * n)) =
        (List.range k).map fun j => (xs.drop (j * n)).take n := by
      have hcount : (blocks n (xs.take (k * n))).length = k := by
        rw [blocks_length, hfirst, Nat.mul_div_cancel _ hn]
      rw [← blocks_prefix hcount (xs.drop (k * n)), List.take_append_drop]
    have hlast : blocks n xs = blocks n (xs.take (k * n)) ++ [xs.drop (k * n)] := by
      rw [hblocks, blocks, hlen, List.range_succ, List.map_append, List.map_singleton,
        List.take_of_length_le (l := xs.drop (k * n)) (by rw [List.length_drop]; omega)]
    rw [hlast, List.flatten_append, ih hfirst, List.flatten_singleton, List.take_append_drop]

/-- Lists agree on their first blocks where they agree on the elements of them. -/
theorem take_blocks_inj (hn : 0 < n) (hx : k * n ≤ xs.length) (hy : k * n ≤ ys.length) :
    (blocks n xs).take k = (blocks n ys).take k ↔ xs.take (k * n) = ys.take (k * n) := by
  rw [← blocks_take hn hx, ← blocks_take hn hy]
  constructor
  · intro h
    have hlen : ∀ zs : List α, k * n ≤ zs.length → (zs.take (k * n)).length = k * n :=
      fun zs hz => List.length_take_of_le hz
    rw [← flatten_blocks hn (hlen xs hx), h, flatten_blocks hn (hlen ys hy)]
  · exact congrArg (blocks n)

end Blocks
