/-
A set of indices as a list of 64-bit words, and a row masked by it.

`applyMask` goes through the row a word at a time: a full word leaves its 64
entries as they are, an empty one overwrites them all, and only in between is a
bit looked at.  `applyMask_getElem?` says that this is the mask entry by entry.
-/
import Mathlib.Tactic

namespace BitWords

/-- Words that hold `len` bits. -/
def words (len : ℕ) : ℕ := (len + 63) / 64

/-- The word that holds bit `i`, with that bit alone. -/
def bit (i : ℕ) : BitVec 64 := 1#64 <<< (i % 64)

/-- Membership. -/
def test (set : List (BitVec 64)) (i : ℕ) : Bool := (set.getD (i / 64) 0).getLsbD (i % 64)

/-- Add `i`. -/
def setBit (set : List (BitVec 64)) (i : ℕ) : List (BitVec 64) :=
  set.modify (i / 64) (· ||| bit i)

/-- Remove `i`. -/
def clearBit (set : List (BitVec 64)) (i : ℕ) : List (BitVec 64) :=
  set.modify (i / 64) (· &&& ~~~bit i)

/-- Every index below `len`; the tail of the last word holds none past it. -/
def full (len : ℕ) : List (BitVec 64) :=
  let all := List.replicate (words len) (BitVec.allOnes 64)
  if len % 64 = 0 then all else all.set (words len - 1) (1#64 <<< (len % 64) - 1#64)

section Mask

variable {α : Type} (blank : α)

/-- Blank the entries of 64 whose bits are off; full and empty words are not looked into. -/
def maskWord (allow : BitVec 64) (row : List α) : List α :=
  if allow = BitVec.allOnes 64 then row
  else if allow = 0 then row.map fun _ => blank
  else row.mapIdx fun i x => if allow &&& (1#64 <<< i) = 0 then blank else x

/-- Blank a row, a word at a time. -/
def applyMask : List (BitVec 64) → List α → List α
  | [], row => row
  | allow :: rest, row => maskWord blank allow (row.take 64) ++ applyMask rest (row.drop 64)

end Mask

variable {set : List (BitVec 64)} {i j len : ℕ}

theorem bit_getLsbD (hj : j < 64) : (bit i).getLsbD j = decide (i % 64 = j) := by
  have hi : i % 64 < 64 := Nat.mod_lt _ (by omega)
  unfold bit
  rw [BitVec.getLsbD_shiftLeft, BitVec.getLsbD_one]
  by_cases hij : i % 64 = j
  · simp [hij, hj]
  · by_cases hlt : j < i % 64
    · simp [hlt, hij]
    · have : ¬j - i % 64 = 0 := by omega
      simp [hij, this]

theorem index_eq_iff : i / 64 = j / 64 ∧ i % 64 = j % 64 ↔ i = j := by
  constructor
  · rintro ⟨h, h'⟩
    omega
  · rintro rfl
    exact ⟨rfl, rfl⟩

theorem length_setBit : (setBit set i).length = set.length := List.length_modify ..

theorem length_clearBit : (clearBit set i).length = set.length := List.length_modify ..

theorem test_modify {f : BitVec 64 → BitVec 64} (hi : i / 64 < set.length) :
    test (set.modify (i / 64) f) j =
      if i / 64 = j / 64 then (f (set.getD (j / 64) 0)).getLsbD (j % 64) else test set j := by
  unfold test
  rw [List.getD_eq_getElem?_getD, List.getElem?_modify]
  by_cases hij : i / 64 = j / 64
  · rw [if_pos hij]
    rw [hij] at hi
    simp [hij, List.getElem?_eq_getElem hi]
  · simp [hij]

theorem test_setBit (hi : i / 64 < set.length) :
    test (setBit set i) j = (test set j || decide (i = j)) := by
  have hj : j % 64 < 64 := Nat.mod_lt _ (by omega)
  unfold setBit
  rw [test_modify hi, BitVec.getLsbD_or, bit_getLsbD hj]
  by_cases hij : i / 64 = j / 64
  · have hiff : i % 64 = j % 64 ↔ i = j :=
      ⟨fun h => index_eq_iff.mp ⟨hij, h⟩, fun h => congrArg (· % 64) h⟩
    simp only [hij, if_true, hiff]
    rfl
  · have hne : i ≠ j := fun h => hij (congrArg (· / 64) h)
    simp [hij, hne]

theorem test_clearBit (hi : i / 64 < set.length) :
    test (clearBit set i) j = (test set j && !decide (i = j)) := by
  have hj : j % 64 < 64 := Nat.mod_lt _ (by omega)
  unfold clearBit
  rw [test_modify hi, BitVec.getLsbD_and, BitVec.getLsbD_not, bit_getLsbD hj]
  by_cases hij : i / 64 = j / 64
  · have hiff : i % 64 = j % 64 ↔ i = j :=
      ⟨fun h => index_eq_iff.mp ⟨hij, h⟩, fun h => congrArg (· % 64) h⟩
    simp only [hij, if_true, hiff, hj, decide_true, Bool.true_and]
    rfl
  · have hne : i ≠ j := fun h => hij (congrArg (· / 64) h)
    simp [hij, hne]

theorem length_full : (full len).length = words len := by
  unfold full
  split <;> simp

theorem div_lt_words (h : i < len) : i / 64 < words len := by
  unfold words
  omega

/-- A power of two less one has every bit below it. -/
theorem getLsbD_shiftLeft_sub_one {n : ℕ} (hn : n < 64) (hj : j < n) :
    (1#64 <<< n - 1#64).getLsbD j = true := by
  have hpow : 2 ^ n < 2 ^ 64 := Nat.pow_lt_pow_right (by omega) hn
  have hpos : 0 < 2 ^ n := Nat.two_pow_pos n
  have hval : (1#64 <<< n - 1#64).toNat = 2 ^ n - 1 := by
    rw [BitVec.toNat_sub, BitVec.toNat_shiftLeft]
    simp only [BitVec.toNat_ofNat, Nat.shiftLeft_eq, Nat.reducePow, Nat.reduceMod, one_mul] at hpow ⊢
    omega
  rw [BitVec.getLsbD, hval, Nat.testBit_two_pow_sub_one]
  exact decide_eq_true hj

theorem test_full (h : i < len) : test (full len) i = true := by
  have hi : i % 64 < 64 := Nat.mod_lt _ (by omega)
  have hword := div_lt_words h
  unfold test full
  simp only []
  split
  case isTrue =>
    rw [List.getD_eq_getElem?_getD, List.getElem?_replicate_of_lt hword, Option.getD_some,
      BitVec.getLsbD_allOnes]
    exact decide_eq_true hi
  case isFalse hmod =>
    rw [List.getD_eq_getElem?_getD]
    by_cases hlast : words len - 1 = i / 64
    · rw [hlast, List.getElem?_set_self (by simpa using hword), Option.getD_some]
      refine getLsbD_shiftLeft_sub_one (Nat.mod_lt _ (by omega)) ?_
      unfold words at hlast
      omega
    · rw [List.getElem?_set_ne hlast, List.getElem?_replicate_of_lt hword, Option.getD_some,
        BitVec.getLsbD_allOnes]
      exact decide_eq_true hi

variable {α : Type} {blank : α} {row : List α}

theorem and_bit_eq_zero {allow : BitVec 64} (hi : i < 64) :
    allow &&& (1#64 <<< i) = 0 ↔ allow.getLsbD i = false := by
  have hbit : 1#64 <<< i = bit i := by rw [bit, Nat.mod_eq_of_lt hi]
  rw [hbit]
  constructor
  · intro h
    have := congrArg (fun v : BitVec 64 => v.getLsbD i) h
    simpa [bit_getLsbD hi, Nat.mod_eq_of_lt hi] using this
  · intro h
    refine BitVec.eq_of_getLsbD_eq fun j hj => ?_
    rw [BitVec.getLsbD_and, bit_getLsbD hj, Nat.mod_eq_of_lt hi]
    by_cases hij : i = j
    · subst hij
      simp [h]
    · simp [hij]

theorem maskWord_getElem? {allow : BitVec 64} (hi : i < 64) :
    (maskWord blank allow row)[i]? =
      row[i]?.map fun x => if allow.getLsbD i then x else blank := by
  unfold maskWord
  split
  case isTrue hall =>
    have hset : allow.getLsbD i = true := by
      rw [hall, BitVec.getLsbD_allOnes]
      exact decide_eq_true hi
    simp [hset]
  case isFalse =>
    split
    case isTrue hnone =>
      rw [List.getElem?_map, hnone]
      simp
    case isFalse =>
      rw [List.getElem?_mapIdx]
      refine congrArg (row[i]?.map ·) (funext fun x => ?_)
      by_cases hset : allow.getLsbD i = true
      · rw [if_neg (by rw [and_bit_eq_zero hi, hset]; exact Bool.true_eq_false.mp), if_pos hset]
      · rw [if_pos ((and_bit_eq_zero hi).mpr (by simpa using hset)), if_neg hset]

theorem length_maskWord {allow : BitVec 64} : (maskWord blank allow row).length = row.length := by
  unfold maskWord
  split
  · rfl
  · split <;> simp

theorem length_applyMask : (applyMask blank set row).length = row.length := by
  induction set generalizing row with
  | nil => rfl
  | cons allow rest ih =>
    rw [applyMask, List.length_append, length_maskWord, ih, List.length_take, List.length_drop]
    omega

/-- The mask a word at a time is the mask entry by entry. -/
theorem applyMask_getElem? (hrow : row.length ≤ 64 * set.length) :
    (applyMask blank set row)[i]? = row[i]?.map fun x => if test set i then x else blank := by
  induction set generalizing row i with
  | nil =>
    obtain rfl := List.length_eq_zero_iff.mp (Nat.le_zero.mp hrow)
    rfl
  | cons allow rest ih =>
    rw [List.length_cons] at hrow
    rw [applyMask]
    have hlen : (maskWord blank allow (row.take 64)).length = min 64 row.length := by
      rw [length_maskWord, List.length_take]
    rcases Nat.lt_or_ge i 64 with hi | hi
    · have htest : test (allow :: rest) i = allow.getLsbD i := by
        unfold test
        rw [Nat.div_eq_of_lt hi, Nat.mod_eq_of_lt hi]
        rfl
      rw [htest]
      rcases Nat.lt_or_ge i row.length with hlt | hge
      · rw [List.getElem?_append_left (by omega), maskWord_getElem? hi, List.getElem?_take_of_lt hi]
      · rw [List.getElem?_eq_none hge, List.getElem?_eq_none]
        · rfl
        · rw [List.length_append, hlen, length_applyMask, List.length_drop]
          omega
    · have htest : test (allow :: rest) i = test rest (i - 64) := by
        unfold test
        have hdiv : i / 64 = (i - 64) / 64 + 1 := by omega
        have hmod : i % 64 = (i - 64) % 64 := by omega
        rw [hdiv, hmod, List.getD_cons_succ]
      rw [htest]
      rcases Nat.lt_or_ge i row.length with hlt | hge
      · rw [List.getElem?_append_right (by omega), hlen, Nat.min_eq_left (by omega), ih, List.getElem?_drop]
        · rw [Nat.add_sub_cancel' hi]
        · rw [List.length_drop]
          omega
      · rw [List.getElem?_eq_none hge, List.getElem?_eq_none]
        · rfl
        · rw [List.length_append, hlen, length_applyMask, List.length_drop]
          omega

end BitWords
