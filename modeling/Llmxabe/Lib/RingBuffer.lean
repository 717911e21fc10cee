/-
A ring that keeps the latest entries of a stream.

`recent cap stream` is what a ring of `cap` cells still has of a stream.
`RingBuffer.Holds r window` says that the ring reads as this window; pushing an entry
moves the window one on (`Holds.push`), and a stretch of positions reads as the
same stretch of the window (`Holds.slice`).  A position past the end reads as
nothing.
-/
import Mathlib.Tactic

/-- The last `cap` entries. -/
def recent {α : Type} (cap : ℕ) (stream : List α) : List α := stream.drop (stream.length - cap)

section Recent

variable {α : Type} {cap : ℕ} {stream : List α}

theorem recent_length : (recent cap stream).length = min cap stream.length := by
  rw [recent, List.length_drop]
  omega

theorem recent_concat_of_lt (a : α) (h : stream.length < cap) :
    recent cap (stream ++ [a]) = recent cap stream ++ [a] := by
  rw [recent, recent, List.length_append, List.length_singleton, Nat.sub_eq_zero_of_le h,
    Nat.sub_eq_zero_of_le h.le, List.drop_zero, List.drop_zero]

theorem recent_concat_of_le (a : α) (hcap : 0 < cap) (h : cap ≤ stream.length) :
    recent cap (stream ++ [a]) = (recent cap stream).tail ++ [a] := by
  rw [recent, recent, List.length_append, List.length_singleton, List.tail_drop,
    List.drop_append_of_le_length (by omega)]
  congr 2
  omega

end Recent

/-- `len` cells from `start` on, around the end. -/
structure RingBuffer (α : Type) where
  cells : List α
  start : ℕ
  len : ℕ
  deriving DecidableEq, Repr

namespace RingBuffer

variable {α : Type}

/-- An empty ring; the cells hold what they were filled with. -/
def filled (cap : ℕ) (a : α) : RingBuffer α := ⟨List.replicate cap a, 0, 0⟩

/-- Add an entry, over the oldest once the ring is full. -/
def push (a : α) (r : RingBuffer α) : RingBuffer α :=
  if r.len < r.cells.length then
    { r with cells := r.cells.set ((r.start + r.len) % r.cells.length) a, len := r.len + 1 }
  else
    { r with cells := r.cells.set r.start a, start := (r.start + 1) % r.cells.length }

/-- The entry at a position counted from the oldest. -/
def read (i : ℕ) (r : RingBuffer α) : Option α :=
  if i < r.len then r.cells[(r.start + i) % r.cells.length]? else none

/-- The entries of a stretch of positions. -/
def slice (first count : ℕ) (r : RingBuffer α) : Option (List α) :=
  (List.range' first count).mapM fun i => r.read i

/-- The ring reads as a window. -/
structure Holds (r : RingBuffer α) (window : List α) : Prop where
  length : window.length = r.len
  fits : r.len ≤ r.cells.length
  start_lt : r.start < r.cells.length
  read : ∀ i < r.len, r.cells[(r.start + i) % r.cells.length]? = window[i]?

variable {r : RingBuffer α} {window : List α}

theorem Holds.filled {cap : ℕ} (hcap : 0 < cap) (a : α) : (filled cap a).Holds [] := by
  refine ⟨rfl, Nat.zero_le _, ?_, fun i hi => absurd hi (Nat.not_lt_zero i)⟩
  rw [RingBuffer.filled, List.length_replicate]
  exact hcap

/-- Two positions less than a turn apart are different cells. -/
theorem mod_ne (start : ℕ) {i j cap : ℕ} (hi : i < cap) (hj : j < cap) (hne : i ≠ j) :
    (start + i) % cap ≠ (start + j) % cap := by
  intro heq
  have hmod : i ≡ j [MOD cap] := Nat.ModEq.add_left_cancel' start heq
  exact hne (hmod.eq_of_lt_of_lt hi hj)

/-- A push moves the window one entry on. -/
theorem Holds.push (h : r.Holds window) (a : α) :
    (r.push a).Holds (if r.len < r.cells.length then window ++ [a] else window.tail ++ [a]) := by
  have hpos : 0 < r.cells.length := (Nat.zero_le _).trans_lt h.start_lt
  rw [RingBuffer.push]
  split
  · rename_i hroom
    refine ⟨?_, ?_, ?_, fun i hi => ?_⟩
    · rw [List.length_append, List.length_singleton, h.length]
    · rw [List.length_set]
      exact hroom
    · rw [List.length_set]
      exact h.start_lt
    · simp only at hi ⊢
      rw [List.length_set]
      obtain hold | rfl := Nat.lt_succ_iff_lt_or_eq.mp hi
      · rw [List.getElem?_set_ne (mod_ne _ hroom (hold.trans hroom) hold.ne'), h.read i hold,
          List.getElem?_append_left (h.length ▸ hold)]
      · rw [List.getElem?_set_self (Nat.mod_lt _ hpos), ← h.length,
          List.getElem?_concat_length]
  · rename_i hfull
    have hlen : r.len = r.cells.length := le_antisymm h.fits (Nat.not_lt.mp hfull)
    refine ⟨?_, ?_, ?_, fun i hi => ?_⟩
    · rw [List.length_append, List.length_singleton, List.length_tail, h.length]
      exact Nat.sub_add_cancel (hlen ▸ hpos)
    · rw [List.length_set]
      exact h.fits
    · rw [List.length_set]
      exact Nat.mod_lt _ hpos
    · simp only at hi ⊢
      rw [List.length_set, Nat.mod_add_mod]
      have htail : window.tail.length = r.len - 1 := by rw [List.length_tail, h.length]
      obtain hold | hlast := Nat.lt_or_ge (i + 1) r.len
      · have hstart : r.start ≠ (r.start + 1 + i) % r.cells.length := by
          have hne := mod_ne r.start hpos (hlen ▸ hold) (Nat.succ_ne_zero i).symm
          rw [Nat.add_zero, Nat.mod_eq_of_lt h.start_lt] at hne
          rw [Nat.add_assoc, Nat.add_comm 1 i]
          exact hne
        rw [List.getElem?_set_ne hstart, Nat.add_assoc, Nat.add_comm 1 i, h.read (i + 1) hold,
          List.getElem?_append_left (by omega), List.getElem?_tail]
      · -- the oldest cell is written over
        have hi' : i = window.tail.length := by omega
        have hcell : (r.start + 1 + i) % r.cells.length = r.start := by
          have hturn : r.start + 1 + i = r.start + r.cells.length := by omega
          rw [hturn, Nat.add_mod_right, Nat.mod_eq_of_lt h.start_lt]
        rw [hcell, List.getElem?_set_self h.start_lt, hi', List.getElem?_concat_length]

theorem push_cells_length (a : α) : (r.push a).cells.length = r.cells.length := by
  rw [RingBuffer.push]
  split
  · exact List.length_set
  · exact List.length_set

/-- A ring that holds the latest of a stream does so after the next entry. -/
theorem Holds.observe {stream : List α} (h : r.Holds (recent r.cells.length stream)) (a : α) :
    (r.push a).Holds (recent (r.push a).cells.length (stream ++ [a])) := by
  have hpos : 0 < r.cells.length := (Nat.zero_le _).trans_lt h.start_lt
  have hlen : r.len = min r.cells.length stream.length := h.length.symm.trans recent_length
  have hnext := h.push a
  rw [push_cells_length]
  split at hnext
  · rw [recent_concat_of_lt a (by omega)]
    exact hnext
  · rw [recent_concat_of_le a hpos (by omega)]
    exact hnext

theorem Holds.slice (h : r.Holds window) :
    ∀ {first : ℕ} (count : ℕ), first + count ≤ window.length →
      r.slice first count = some ((window.drop first).take count)
  | _, 0, _ => rfl
  | first, count + 1, hle => by
    have hstep : first + 1 + count ≤ window.length := by omega
    have hrest := h.slice count hstep
    have hlt : first < window.length := by omega
    have hread : r.read first = some window[first] := by
      rw [RingBuffer.read, if_pos (h.length ▸ hlt), h.read first (h.length ▸ hlt),
        List.getElem?_eq_getElem hlt]
    rw [RingBuffer.slice] at hrest ⊢
    rw [List.range'_succ, List.mapM_cons, hread, hrest, List.drop_eq_getElem_cons hlt,
      List.take_succ_cons]
    rfl

end RingBuffer
