/-
The bit layout of the k-quants (`xabe-kernels/src/quant.rs`).

A loop nest is the list of its writes.  The arithmetic on the values (`f32`, `f16`
and the search for scales) is a parameter; the bytes are as the source packs and
reads them.

* `quant_bit_layout`: what each format packs it extracts, and conversely, and each
  bit of a payload is one bit of one element, sub-scale or sub-min.
-/
import Llmxabe.Lib.BitLayout

namespace Quant

open BitLayout

/-- A byte of a block. -/
abbrev Byte := BitVec 8

/-! ### The affine formats -/

/-- The `j`th 6-bit scale and min. -/
def getScaleMinK4 (j : Fin 8) (q : Fin 12 → Byte) : Byte × Byte :=
  if h : j.val < 4 then
    (q ⟨j, by omega⟩ &&& 63#8, q ⟨j + 4, by omega⟩ &&& 63#8)
  else
    ((q ⟨j + 4, by omega⟩ &&& 15#8) ||| ((q ⟨j - 4, by omega⟩ >>> 6) <<< 4),
      (q ⟨j + 4, by omega⟩ >>> 4) ||| ((q ⟨j, by omega⟩ >>> 6) <<< 4))

/-- Eight 6-bit scales and mins in twelve bytes. -/
def setScaleMinK4 (scales mins : Fin 8 → Byte) : Fin 12 → Byte :=
  let low := scatter ((List.finRange 4).flatMap fun (j : Fin 4) =>
    [(⟨j, by omega⟩, scales ⟨j, by omega⟩ &&& 63#8),
      (⟨j + 4, by omega⟩, mins ⟨j, by omega⟩ &&& 63#8)]) fun _ => 0
  (List.finRange 4).foldl (fun q (i : Fin 4) =>
    -- `j` runs over `4..8`
    let scale := scales ⟨i + 4, by omega⟩
    let min := mins ⟨i + 4, by omega⟩
    let q := scatter [(⟨i + 8, by omega⟩, (scale &&& 15#8) ||| ((min &&& 15#8) <<< 4))] q
    scatterOr [(⟨i, by omega⟩, (scale >>> 4) <<< 6), (⟨i + 4, by omega⟩, (min >>> 4) <<< 6)] q) low

/-- The affine fit shared by both formats: its super-scales, and its codes. -/
structure KAffine (F : Type) where
  d : F
  dmin : F
  scales : Fin 8 → Byte
  mins : Fin 8 → Byte
  codes : Fin 256 → Byte

/-- Every code and sub-scale is in its range. -/
structure KAffine.InRange {F : Type} (maxCode : ℕ) (fit : KAffine F) : Prop where
  scales : ∀ j, (fit.scales j).toNat ≤ 63
  mins : ∀ j, (fit.mins j).toNat ≤ 63
  codes : ∀ i, (fit.codes i).toNat ≤ maxCode

/-- Four bits an element; scales and minima packed in twelve bytes. -/
structure BlockQ4K (H : Type) where
  d : H
  dmin : H
  scales : Fin 12 → Byte
  qs : Fin 128 → Byte

/-- As `BlockQ4K`, with the fifth bits in `qh`. -/
structure BlockQ5K (H : Type) where
  d : H
  dmin : H
  scales : Fin 12 → Byte
  qh : Fin 32 → Byte
  qs : Fin 128 → Byte

variable {F H K : Type}

/-- The flat codes in the groups of 64 the formats read. -/
def packNibbles (codes : Fin 256 → Byte) : Fin 128 → Byte :=
  scatter ((List.finRange 4).flatMap fun (g : Fin 4) => (List.finRange 32).map fun (l : Fin 32) =>
    let lo := codes ⟨g * 64 + l, by omega⟩ &&& 15#8
    let hi := codes ⟨g * 64 + 32 + l, by omega⟩ &&& 15#8
    (⟨g * 32 + l, by omega⟩, lo ||| (hi <<< 4))) fun _ => 0

/-- The plane of fifth bits. -/
def packHigh (codes : Fin 256 → Byte) : Fin 32 → Byte :=
  scatterOr ((List.finRange 32).flatMap fun (l : Fin 32) => (List.finRange 4).flatMap fun (g : Fin 4) =>
    (List.finRange 2).map fun (sub : Fin 2) =>
      let code := codes ⟨g * 64 + sub * 32 + l, by omega⟩
      (l, ((code >>> 4) &&& 1#8) <<< (2 * g + sub : ℕ))) fun _ => 0

/-- Pack a fit. -/
def KAffine.intoQ4K (half : F → H) (fit : KAffine F) : BlockQ4K H :=
  ⟨half fit.d, half fit.dmin, setScaleMinK4 fit.scales fit.mins, packNibbles fit.codes⟩

/-- Pack a fit of five-bit codes. -/
def KAffine.intoQ5K (half : F → H) (fit : KAffine F) : BlockQ5K H :=
  ⟨half fit.d, half fit.dmin, setScaleMinK4 fit.scales fit.mins, packHigh fit.codes,
    packNibbles fit.codes⟩

/-- The elements of a superblock: `value` of the sub-scale, the sub-min and the code. -/
def affineElements (scales : Fin 12 → Byte) (code : Fin 4 → Fin 2 → Fin 32 → Byte)
    (value : Byte → Byte → Byte → K) (zero : K) : Fin 256 → K :=
  scatter ((List.finRange 4).flatMap fun (g : Fin 4) => (List.finRange 2).flatMap fun (sub : Fin 2) =>
    let (sc, m) := getScaleMinK4 ⟨2 * g + sub, by omega⟩ scales
    (List.finRange 32).map fun (l : Fin 32) =>
      (⟨g * 64 + sub * 32 + l, by omega⟩, value sc m (code g sub l))) fun _ => zero

/-- The code that Q4_K reads. -/
def codeQ4K (qs : Fin 128 → Byte) (g : Fin 4) (sub : Fin 2) (l : Fin 32) : Byte :=
  let q := qs ⟨g * 32 + l, by omega⟩
  -- the first half of a group has the low nibbles
  if sub = 0 then q &&& 15#8 else q >>> 4

/-- The code that Q5_K reads. -/
def codeQ5K (qs : Fin 128 → Byte) (qh : Fin 32 → Byte) (g : Fin 4) (sub : Fin 2) (l : Fin 32) :
    Byte :=
  let q := qs ⟨g * 32 + l, by omega⟩
  let low := if sub = 0 then q &&& 15#8 else q >>> 4
  let high := (qh l >>> (2 * g + sub : ℕ)) &&& 1#8
  low + (high <<< 4)

section Dequantize

variable [Zero F] [Mul F] [Sub F] (toF32 : H → F) (ofByte : Byte → F)

/-- `d * sc * q - dmin * m`, operand for operand. -/
def affineValue (d dmin : F) (sc m code : Byte) : F :=
  d * ofByte sc * ofByte code - dmin * ofByte m

/-- The elements a block stands for. -/
def dequantizeQ4K (block : BlockQ4K H) : Fin 256 → F :=
  affineElements block.scales (codeQ4K block.qs)
    (affineValue ofByte (toF32 block.d) (toF32 block.dmin)) 0

/-- The elements a block stands for. -/
def dequantizeQ5K (block : BlockQ5K H) : Fin 256 → F :=
  affineElements block.scales (codeQ5K block.qs block.qh)
    (affineValue ofByte (toF32 block.d) (toF32 block.dmin)) 0

end Dequantize

/-! ### Q6_K -/

/-- Six bits an element, with a signed scale for each sixteen. -/
structure BlockQ6K (H : Type) where
  ql : Fin 128 → Byte
  qh : Fin 64 → Byte
  scales : Fin 16 → Byte
  d : H

/-- The four elements that share a position of a half. -/
def laneWrites (block : BlockQ6K H) (value : Byte → Byte → K) (half : Fin 2) (l : Fin 32) :
    List (Fin 256 × K) :=
  let is := l.val / 16
  let ql (i : ℕ) (h : i < 64) := block.ql ⟨half * 64 + i, by omega⟩
  let qh := block.qh ⟨half * 32 + l, by omega⟩
  let sc (i : ℕ) (h : i < 8) := block.scales ⟨half * 8 + i, by omega⟩
  let raw1 := (ql l (by omega) &&& 15#8) ||| ((qh &&& 3#8) <<< 4)
  let raw2 := (ql (l + 32) (by omega) &&& 15#8) ||| (((qh >>> 2) &&& 3#8) <<< 4)
  let raw3 := (ql l (by omega) >>> 4) ||| (((qh >>> 4) &&& 3#8) <<< 4)
  let raw4 := (ql (l + 32) (by omega) >>> 4) ||| (((qh >>> 6) &&& 3#8) <<< 4)
  [(⟨half * 128 + l, by omega⟩, value (sc is (by omega)) raw1),
    (⟨half * 128 + l + 32, by omega⟩, value (sc (is + 2) (by omega)) raw2),
    (⟨half * 128 + l + 64, by omega⟩, value (sc (is + 4) (by omega)) raw3),
    (⟨half * 128 + l + 96, by omega⟩, value (sc (is + 6) (by omega)) raw4)]

/-- The elements of a superblock: `value` of the scale and the code. -/
def elementsQ6K (block : BlockQ6K H) (value : Byte → Byte → K) (zero : K) : Fin 256 → K :=
  scatter ((List.finRange 2).flatMap fun (half : Fin 2) =>
    (List.finRange 32).flatMap fun (l : Fin 32) => laneWrites block value half l) fun _ => zero

/-- `d * sc * q`, with the code re-centred. -/
def dequantizeQ6K [Zero F] [Mul F] (toF32 : H → F) (ofI8 : Byte → F) (ofI32 : ℤ → F)
    (block : BlockQ6K H) : Fin 256 → F :=
  elementsQ6K block (fun sc raw => toF32 block.d * ofI8 sc * ofI32 ((raw.toNat : ℤ) - 32)) 0

/-- The scale of a group and the flat position of its `k`th element. -/
def groupScale (half : Fin 2) (lane : Fin 4) (is : Fin 2) : Fin 16 :=
  ⟨half * 8 + lane * 2 + is, by omega⟩

/-- The element at place `k` of the sixteen that `half`, `lane` and `is` select. -/
def groupPosition (half : Fin 2) (lane : Fin 4) (is : Fin 2) (k : Fin 16) : Fin 256 :=
  ⟨half * 128 + lane * 32 + is * 16 + k, by omega⟩

/-- The fit of a superblock: the scale of each group and its raw codes. -/
structure Fit6 (F : Type) where
  d : F
  scales : Fin 16 → Byte
  raw : Fin 256 → Byte
  raw_lt : ∀ i, (raw i).toNat < 2 ^ 6

/-- The low four bits of a raw code, and the byte they go to. -/
def lowWrite (raw : Fin 256 → Byte) (half : Fin 2) (lane : Fin 4) (is : Fin 2) (k : Fin 16) :
    Fin 128 × Byte :=
  let l := is.val * 16 + k
  let low4 := raw (groupPosition half lane is k) &&& 15#8
  -- lanes 0 and 1 take the low nibble of their byte, lanes 2 and 3 the high one
  let (qlIndex, nibbleHigh) : Fin 64 × Bool := match lane with
    | 0 => (⟨l, by omega⟩, false)
    | 1 => (⟨l + 32, by omega⟩, false)
    | 2 => (⟨l, by omega⟩, true)
    | 3 => (⟨l + 32, by omega⟩, true)
  (⟨half * 64 + qlIndex, by omega⟩, if nibbleHigh then low4 <<< 4 else low4)

/-- Its high bits, and theirs. -/
def highWrite (raw : Fin 256 → Byte) (half : Fin 2) (lane : Fin 4) (is : Fin 2) (k : Fin 16) :
    Fin 64 × Byte :=
  let l := is.val * 16 + k
  (⟨half * 32 + l, by omega⟩, (raw (groupPosition half lane is k) >>> 4) <<< (lane * 2 : ℕ))

/-- The loop over the groups and their elements. -/
def groups (body : Fin 2 → Fin 4 → Fin 2 → Fin 16 → K) : List K :=
  (List.finRange 2).flatMap fun (half : Fin 2) => (List.finRange 4).flatMap fun (lane : Fin 4) =>
    (List.finRange 2).flatMap fun (is : Fin 2) =>
      (List.finRange 16).map fun (k : Fin 16) => body half lane is k

/-- The packing of `quantize_q6_k`, on the scales and codes it finds. -/
def quantizeQ6K (toF16 : F → H) (fit : Fit6 F) : BlockQ6K H where
  scales := scatter ((List.finRange 2).flatMap fun (half : Fin 2) =>
    (List.finRange 4).flatMap fun (lane : Fin 4) => (List.finRange 2).map fun (is : Fin 2) =>
      (groupScale half lane is, fit.scales (groupScale half lane is))) fun _ => 0
  qh := scatterOr (groups (highWrite fit.raw)) fun _ => 0
  ql := scatterOr (groups (lowWrite fit.raw)) fun _ => 0
  d := toF16 fit.d

/-! ### Bits of bytes -/

theorem setScaleMinK4_low (scales mins : Fin 8 → Byte) (b : Fin 12) (hb : b.val < 4) :
    setScaleMinK4 scales mins b =
      (scales ⟨b, by omega⟩ &&& 63#8) ||| ((scales ⟨b + 4, by omega⟩ >>> 4) <<< 6) := by
  fin_cases b <;> first | rfl | exact absurd hb (by decide)

theorem setScaleMinK4_mid (scales mins : Fin 8 → Byte) (b : Fin 12) (hb : 4 ≤ b.val)
    (hb' : b.val < 8) :
    setScaleMinK4 scales mins b =
      (mins ⟨b - 4, by omega⟩ &&& 63#8) ||| ((mins ⟨b, by omega⟩ >>> 4) <<< 6) := by
  fin_cases b <;> first | rfl | exact absurd hb (by decide) | exact absurd hb' (by decide)

theorem setScaleMinK4_high (scales mins : Fin 8 → Byte) (b : Fin 12) (hb : 8 ≤ b.val) :
    setScaleMinK4 scales mins b =
      (scales ⟨b - 4, by omega⟩ &&& 15#8) ||| ((mins ⟨b - 4, by omega⟩ &&& 15#8) <<< 4) := by
  fin_cases b <;> first | rfl | exact absurd hb (by decide)

/-- A mask of the low bits. -/
theorem getLsbD_and_mask {mask : Byte} {w : ℕ} (hmask : ∀ k < 8, mask.getLsbD k = decide (k < w))
    (x : Byte) (k : ℕ) : (x &&& mask).getLsbD k = (decide (k < w) && x.getLsbD k) := by
  rw [BitVec.getLsbD_and, Bool.and_comm]
  by_cases hk : k < 8
  · rw [hmask k hk]
  · rw [BitVec.getLsbD_of_ge x k (by omega), Bool.and_false, Bool.and_false]

theorem getLsbD_and_one (x : Byte) (k : ℕ) :
    (x &&& 1#8).getLsbD k = (decide (k < 1) && x.getLsbD k) :=
  getLsbD_and_mask (by decide) x k

theorem getLsbD_and_three (x : Byte) (k : ℕ) :
    (x &&& 3#8).getLsbD k = (decide (k < 2) && x.getLsbD k) :=
  getLsbD_and_mask (by decide) x k

theorem getLsbD_and_fifteen (x : Byte) (k : ℕ) :
    (x &&& 15#8).getLsbD k = (decide (k < 4) && x.getLsbD k) :=
  getLsbD_and_mask (by decide) x k

theorem getLsbD_and_sixtyThree (x : Byte) (k : ℕ) :
    (x &&& 63#8).getLsbD k = (decide (k < 6) && x.getLsbD k) :=
  getLsbD_and_mask (by decide) x k

/-- A byte below a power of two has no bit from there on. -/
theorem getLsbD_of_toNat_lt {x : Byte} {w k : ℕ} (h : x.toNat < 2 ^ w) (hk : w ≤ k) :
    x.getLsbD k = false :=
  Nat.testBit_lt_two_pow (h.trans_le (Nat.pow_le_pow_right (by decide) hk))

theorem add_high {low : Byte} (high : Byte) (hlow : low.toNat < 2 ^ 4) :
    low + (high <<< 4) = low ||| (high <<< 4) := by
  refine BitVec.add_eq_or_of_and_eq_zero _ _ (BitVec.eq_of_getLsbD_eq fun k hk => ?_)
  rw [BitVec.getLsbD_and, BitVec.getLsbD_shiftLeft, BitVec.getLsbD_zero]
  rcases Nat.lt_or_ge k 4 with hlt | hge
  · simp [hlt]
  · rw [getLsbD_of_toNat_lt hlow hge, Bool.false_and]

/-- Two fields side by side in a byte. -/
theorem joined_getLsbD {low : Byte} {w : ℕ} (hlow : low.toNat < 2 ^ w) (high : Byte) {k : ℕ}
    (hk : k < 8) :
    (low ||| (high <<< w)).getLsbD k = if k < w then low.getLsbD k else high.getLsbD (k - w) := by
  rw [BitVec.getLsbD_or, BitVec.getLsbD_shiftLeft]
  split
  case isTrue hlt => simp [hlt]
  case isFalse hge =>
    rw [getLsbD_of_toNat_lt hlow (Nat.le_of_not_lt hge)]
    simp [hk, hge]

/-- Bytes below a power of two with the same bits below it. -/
theorem eq_of_low_bits {x y : Byte} {w : ℕ} (hx : x.toNat < 2 ^ w) (hy : y.toNat < 2 ^ w)
    (h : ∀ k < w, x.getLsbD k = y.getLsbD k) : x = y := by
  refine BitVec.eq_of_getLsbD_eq fun k _ => ?_
  rcases Nat.lt_or_ge k w with hlt | hge
  · exact h k hlt
  · rw [getLsbD_of_toNat_lt hx hge, getLsbD_of_toNat_lt hy hge]

/-- A byte without bits from a place on. -/
theorem toNat_lt_of_getLsbD {x : Byte} {w : ℕ} (h : ∀ k, w ≤ k → x.getLsbD k = false) :
    x.toNat < 2 ^ w :=
  Nat.lt_pow_two_of_testBit _ fun k hk => h k hk

theorem and_fifteen_lt (x : Byte) : (x &&& 15#8).toNat < 2 ^ 4 :=
  toNat_lt_of_getLsbD fun k hk => by
    rw [getLsbD_and_fifteen, decide_eq_false (Nat.not_lt.mpr hk), Bool.false_and]

theorem and_sixtyThree_lt (x : Byte) : (x &&& 63#8).toNat < 2 ^ 6 :=
  toNat_lt_of_getLsbD fun k hk => by
    rw [getLsbD_and_sixtyThree, decide_eq_false (Nat.not_lt.mpr hk), Bool.false_and]

theorem shiftRight_four_lt (x : Byte) : (x >>> 4).toNat < 2 ^ 4 :=
  toNat_lt_of_getLsbD fun k hk => by
    rw [BitVec.getLsbD_ushiftRight, BitVec.getLsbD_of_ge x _ (by omega)]

/-! ### The planes -/

/-- The bits of the sub-scales and sub-mins, in the twelve bytes. -/
def scalePlane : Fin 8 × Fin 6 ⊕ Fin 8 × Fin 6 ≃ Fin 12 × Fin 8 where
  toFun
    | .inl (j, k) =>
      if h : j.val < 4 then (⟨j, by omega⟩, ⟨k, by omega⟩)
      else if h' : k.val < 4 then (⟨j + 4, by omega⟩, ⟨k, by omega⟩)
      else (⟨j - 4, by omega⟩, ⟨k + 2, by omega⟩)
    | .inr (j, k) =>
      if h : j.val < 4 then (⟨j + 4, by omega⟩, ⟨k, by omega⟩)
      else if h' : k.val < 4 then (⟨j + 4, by omega⟩, ⟨k + 4, by omega⟩)
      else (⟨j, by omega⟩, ⟨k + 2, by omega⟩)
  invFun
    | (b, k) =>
      if h : b.val < 4 then
        if h' : k.val < 6 then .inl (⟨b, by omega⟩, ⟨k, by omega⟩)
        else .inl (⟨b + 4, by omega⟩, ⟨k - 2, by omega⟩)
      else if h' : b.val < 8 then
        if h'' : k.val < 6 then .inr (⟨b - 4, by omega⟩, ⟨k, by omega⟩)
        else .inr (⟨b, by omega⟩, ⟨k - 2, by omega⟩)
      else if h'' : k.val < 4 then .inl (⟨b - 4, by omega⟩, ⟨k, by omega⟩)
      else .inr (⟨b - 4, by omega⟩, ⟨k - 4, by omega⟩)
  left_inv := by decide
  right_inv := by decide

/-- The low four bits of the affine codes. -/
def nibblePlane : Fin 256 × Fin 4 ≃ Fin 128 × Fin 8 where
  toFun | (i, k) => (⟨i / 64 * 32 + i % 32, by omega⟩, ⟨i / 32 % 2 * 4 + k, by omega⟩)
  invFun | (b, k) => (⟨b / 32 * 64 + k / 4 * 32 + b % 32, by omega⟩, ⟨k % 4, by omega⟩)
  left_inv := by
    rintro ⟨⟨i, hi⟩, ⟨k, hk⟩⟩
    simp only [Prod.mk.injEq, Fin.mk.injEq]
    omega
  right_inv := by
    rintro ⟨⟨b, hb⟩, ⟨k, hk⟩⟩
    simp only [Prod.mk.injEq, Fin.mk.injEq]
    omega

/-- The fifth bits. -/
def highPlane : Fin 256 ≃ Fin 32 × Fin 8 where
  toFun i := (⟨i % 32, by omega⟩, ⟨i / 32, by omega⟩)
  invFun | (l, k) => ⟨k * 32 + l, by omega⟩
  left_inv := by
    rintro ⟨i, hi⟩
    simp only [Fin.mk.injEq]
    omega
  right_inv := by
    rintro ⟨⟨l, hl⟩, ⟨k, hk⟩⟩
    simp only [Prod.mk.injEq, Fin.mk.injEq]
    omega

/-- The low four bits of the codes of Q6_K. -/
def nibblePlane6 : Fin 256 × Fin 4 ≃ Fin 128 × Fin 8 where
  toFun | (i, k) => (⟨i / 128 * 64 + i % 64, by omega⟩, ⟨i / 64 % 2 * 4 + k, by omega⟩)
  invFun | (b, k) => (⟨b / 64 * 128 + k / 4 * 64 + b % 64, by omega⟩, ⟨k % 4, by omega⟩)
  left_inv := by
    rintro ⟨⟨i, hi⟩, ⟨k, hk⟩⟩
    simp only [Prod.mk.injEq, Fin.mk.injEq]
    omega
  right_inv := by
    rintro ⟨⟨b, hb⟩, ⟨k, hk⟩⟩
    simp only [Prod.mk.injEq, Fin.mk.injEq]
    omega

/-- Their high two bits. -/
def pairPlane : Fin 256 × Fin 2 ≃ Fin 64 × Fin 8 where
  toFun | (i, k) => (⟨i / 128 * 32 + i % 32, by omega⟩, ⟨i / 32 % 4 * 2 + k, by omega⟩)
  invFun | (b, k) => (⟨b / 32 * 128 + k / 2 * 32 + b % 32, by omega⟩, ⟨k % 2, by omega⟩)
  left_inv := by
    rintro ⟨⟨i, hi⟩, ⟨k, hk⟩⟩
    simp only [Prod.mk.injEq, Fin.mk.injEq]
    omega
  right_inv := by
    rintro ⟨⟨b, hb⟩, ⟨k, hk⟩⟩
    simp only [Prod.mk.injEq, Fin.mk.injEq]
    omega

/-! ### Elements -/

/-- The element at a group of 64, a nibble and a lane. -/
def element (g : Fin 4) (sub : Fin 2) (l : Fin 32) : Fin 256 := ⟨g * 64 + sub * 32 + l, by omega⟩

theorem exists_element (i : Fin 256) : ∃ g sub l, element g sub l = i := by
  refine ⟨⟨i / 64, by omega⟩, ⟨i / 32 % 2, by omega⟩, ⟨i % 32, by omega⟩, Fin.ext ?_⟩
  unfold element
  dsimp only
  omega

theorem element_inj {g g' : Fin 4} {sub sub' : Fin 2} {l l' : Fin 32}
    (h : element g sub l = element g' sub' l') : g = g' ∧ sub = sub' ∧ l = l' := by
  have hval : g.val * 64 + sub.val * 32 + l.val = g'.val * 64 + sub'.val * 32 + l'.val :=
    congrArg Fin.val h
  exact ⟨Fin.ext (by omega), Fin.ext (by omega), Fin.ext (by omega)⟩

/-- What the affine formats make of an element. -/
theorem affineElements_element (scales : Fin 12 → Byte) (code : Fin 4 → Fin 2 → Fin 32 → Byte)
    (value : Byte → Byte → Byte → K) (zero : K) (g : Fin 4) (sub : Fin 2) (l : Fin 32) :
    affineElements scales code value zero (element g sub l) =
      value (getScaleMinK4 ⟨2 * g + sub, by omega⟩ scales).1
        (getScaleMinK4 ⟨2 * g + sub, by omega⟩ scales).2 (code g sub l) := by
  refine scatter_once ?_ ?_
  · simp only [List.mem_flatMap, List.mem_map, List.mem_finRange, true_and]
    exact ⟨g, sub, l, rfl⟩
  · intro w hw hi
    simp only [List.mem_flatMap, List.mem_map, List.mem_finRange, true_and] at hw
    obtain ⟨g', sub', l', rfl⟩ := hw
    have hsame : element g' sub' l' = element g sub l := hi
    obtain ⟨rfl, rfl, rfl⟩ := element_inj hsame
    rfl

/-- What the affine formats pack into a byte of nibbles. -/
theorem packNibbles_apply (codes : Fin 256 → Byte) (g : Fin 4) (l : Fin 32) :
    packNibbles codes ⟨g * 32 + l, by omega⟩ =
      (codes (element g 0 l) &&& 15#8) ||| ((codes (element g 1 l) &&& 15#8) <<< 4) := by
  refine scatter_once ?_ ?_
  · simp only [List.mem_flatMap, List.mem_map, List.mem_finRange, true_and]
    exact ⟨g, l, rfl⟩
  · intro w hw hi
    simp only [List.mem_flatMap, List.mem_map, List.mem_finRange, true_and] at hw
    obtain ⟨g', l', rfl⟩ := hw
    have hval : g'.val * 32 + l'.val = g.val * 32 + l.val := congrArg Fin.val hi
    obtain rfl : g' = g := Fin.ext (by omega)
    obtain rfl : l' = l := Fin.ext (by omega)
    rfl

/-- What the affine formats pack into the plane of fifth bits. -/
theorem packHigh_apply (codes : Fin 256 → Byte) (g : Fin 4) (sub : Fin 2) (l : Fin 32) :
    (packHigh codes l).getLsbD (2 * g + sub) = (codes (element g sub l)).getLsbD 4 := by
  rw [Bool.eq_iff_iff, packHigh, scatterOr_getLsbD]
  simp only [List.mem_flatMap, List.mem_map, List.mem_finRange, true_and]
  constructor
  · rintro (hzero | ⟨w, ⟨l', g', sub', rfl⟩, rfl, hbit⟩)
    · simp at hzero
    · simp only [BitVec.getLsbD_shiftLeft, getLsbD_and_one, BitVec.getLsbD_ushiftRight,
        Bool.and_eq_true, decide_eq_true_eq, Bool.not_eq_true', decide_eq_false_iff_not] at hbit
      obtain ⟨⟨-, hle⟩, hlt, hcode⟩ := hbit
      obtain rfl : g' = g := Fin.ext (by omega)
      obtain rfl : sub' = sub := Fin.ext (by omega)
      rwa [show 2 * g'.val + sub'.val - (2 * g'.val + sub'.val) = 0 by omega] at hcode
  · intro hcode
    refine .inr ⟨_, ⟨l, g, sub, rfl⟩, rfl, ?_⟩
    simp only [BitVec.getLsbD_shiftLeft, getLsbD_and_one, BitVec.getLsbD_ushiftRight,
      Nat.sub_self, Nat.lt_irrefl, decide_false, Bool.not_false, Bool.and_true, Nat.lt_one_iff,
      decide_true, Bool.true_and, Nat.add_zero, Bool.and_eq_true, decide_eq_true_eq]
    exact ⟨by omega, hcode⟩

/-- The bits of the sub-scales and sub-mins. -/
def scaleBit (scales mins : Fin 8 → Byte) : Fin 8 × Fin 6 ⊕ Fin 8 × Fin 6 → Bool
  | .inl (j, k) => (scales j).getLsbD k
  | .inr (j, k) => (mins j).getLsbD k

/-- A bit of an array of bytes. -/
def byteBit {n : ℕ} (bytes : Fin n → Byte) (place : Fin n × Fin 8) : Bool :=
  (bytes place.1).getLsbD place.2

/-- The reader of the sub-scales takes each of their bits from its place. -/
theorem scaleBit_get (q : Fin 12 → Byte) (s : Fin 8 × Fin 6 ⊕ Fin 8 × Fin 6) :
    scaleBit (fun j => (getScaleMinK4 j q).1) (fun j => (getScaleMinK4 j q).2) s =
      byteBit q (scalePlane s) := by
  rcases s with ⟨j, k⟩ | ⟨j, k⟩
  · simp only [scaleBit, byteBit, getScaleMinK4, scalePlane, Equiv.coe_fn_mk]
    by_cases hj : j.val < 4
    · simp only [hj, dite_true, getLsbD_and_sixtyThree, k.isLt, decide_true, Bool.true_and]
    · simp only [hj, dite_false]
      rw [joined_getLsbD (and_fifteen_lt _) _ (by omega), getLsbD_and_fifteen,
        BitVec.getLsbD_ushiftRight]
      by_cases hk : k.val < 4
      · simp only [hk, dite_true, if_true, decide_true, Bool.true_and]
      · simp only [hk, dite_false, if_false]
        rw [show 6 + (k.val - 4) = k + 2 by omega]
  · simp only [scaleBit, byteBit, getScaleMinK4, scalePlane, Equiv.coe_fn_mk]
    by_cases hj : j.val < 4
    · simp only [hj, dite_true, getLsbD_and_sixtyThree, k.isLt, decide_true, Bool.true_and]
    · simp only [hj, dite_false]
      rw [joined_getLsbD (shiftRight_four_lt _) _ (by omega), BitVec.getLsbD_ushiftRight,
        BitVec.getLsbD_ushiftRight]
      by_cases hk : k.val < 4
      · simp only [hk, dite_true, if_true]
        rw [Nat.add_comm 4]
      · simp only [hk, dite_false, if_false]
        rw [show 6 + (k.val - 4) = k + 2 by omega]

/-- The packer of the sub-scales puts it there. -/
theorem scaleBit_set {scales mins : Fin 8 → Byte} (s : Fin 8 × Fin 6 ⊕ Fin 8 × Fin 6) :
    byteBit (setScaleMinK4 scales mins) (scalePlane s) = scaleBit scales mins s := by
  rcases s with ⟨j, k⟩ | ⟨j, k⟩
  · simp only [scaleBit, byteBit, scalePlane, Equiv.coe_fn_mk]
    by_cases hj : j.val < 4
    · simp only [hj, dite_true]
      rw [setScaleMinK4_low _ _ _ hj, joined_getLsbD (and_sixtyThree_lt _) _ (by omega),
        if_pos k.isLt, getLsbD_and_sixtyThree, decide_eq_true k.isLt, Bool.true_and]
    · simp only [hj, dite_false]
      by_cases hk : k.val < 4
      · simp only [hk, dite_true]
        rw [setScaleMinK4_high _ _ _ (show 8 ≤ j.val + 4 by omega),
          joined_getLsbD (and_fifteen_lt _) _ (by omega), if_pos hk, getLsbD_and_fifteen,
          decide_eq_true hk, Bool.true_and]
        rfl
      · simp only [hk, dite_false]
        rw [setScaleMinK4_low _ _ _ (show j.val - 4 < 4 by omega),
          joined_getLsbD (and_sixtyThree_lt _) _ (by omega), if_neg (by omega),
          BitVec.getLsbD_ushiftRight]
        simp only [show j.val - 4 + 4 = j by omega, show 4 + (k.val + 2 - 6) = k by omega]
  · simp only [scaleBit, byteBit, scalePlane, Equiv.coe_fn_mk]
    by_cases hj : j.val < 4
    · simp only [hj, dite_true]
      rw [setScaleMinK4_mid _ _ _ (show 4 ≤ j.val + 4 by omega) (show j.val + 4 < 8 by omega),
        joined_getLsbD (and_sixtyThree_lt _) _ (by omega), if_pos k.isLt, getLsbD_and_sixtyThree,
        decide_eq_true k.isLt, Bool.true_and]
      rfl
    · simp only [hj, dite_false]
      by_cases hk : k.val < 4
      · simp only [hk, dite_true]
        rw [setScaleMinK4_high _ _ _ (show 8 ≤ j.val + 4 by omega),
          joined_getLsbD (and_fifteen_lt _) _ (by omega), if_neg (by omega), getLsbD_and_fifteen,
          Nat.add_sub_cancel, decide_eq_true hk, Bool.true_and]
        rfl
      · simp only [hk, dite_false]
        rw [setScaleMinK4_mid _ _ _ (show 4 ≤ j.val by omega) (show j.val < 8 by omega),
          joined_getLsbD (and_sixtyThree_lt _) _ (by omega), if_neg (by omega),
          BitVec.getLsbD_ushiftRight]
        simp only [show 4 + (k.val + 2 - 6) = k by omega]

/-! ### The nibbles and the plane of fifth bits -/

theorem nibblePlane_element (g : Fin 4) (sub : Fin 2) (l : Fin 32) (k : Fin 4) :
    nibblePlane (element g sub l, k) = (⟨g * 32 + l, by omega⟩, ⟨sub * 4 + k, by omega⟩) := by
  simp only [nibblePlane, element, Equiv.coe_fn_mk, Prod.mk.injEq, Fin.mk.injEq]
  omega

theorem highPlane_element (g : Fin 4) (sub : Fin 2) (l : Fin 32) :
    highPlane (element g sub l) = (l, ⟨2 * g + sub, by omega⟩) := by
  refine Prod.ext (Fin.ext ?_) (Fin.ext ?_) <;> simp only [highPlane, element, Equiv.coe_fn_mk] <;>
    omega

/-- The reader takes each low bit of a code from its place. -/
theorem codeQ4K_getLsbD (qs : Fin 128 → Byte) (g : Fin 4) (sub : Fin 2) (l : Fin 32) (k : Fin 4) :
    (codeQ4K qs g sub l).getLsbD k = byteBit qs (nibblePlane (element g sub l, k)) := by
  rw [nibblePlane_element]
  unfold codeQ4K byteBit
  by_cases hsub : sub = 0
  · subst hsub
    rw [if_pos rfl, getLsbD_and_fifteen, decide_eq_true k.isLt, Bool.true_and]
    simp
  · obtain rfl : sub = 1 := by omega
    rw [if_neg hsub, BitVec.getLsbD_ushiftRight]
    rfl

theorem codeQ4K_lt (qs : Fin 128 → Byte) (g : Fin 4) (sub : Fin 2) (l : Fin 32) :
    (codeQ4K qs g sub l).toNat < 2 ^ 4 := by
  unfold codeQ4K
  dsimp only
  split
  · exact and_fifteen_lt _
  · exact shiftRight_four_lt _

/-- The packer puts it there. -/
theorem packNibbles_getLsbD (codes : Fin 256 → Byte) (i : Fin 256) (k : Fin 4) :
    byteBit (packNibbles codes) (nibblePlane (i, k)) = (codes i).getLsbD k := by
  obtain ⟨g, sub, l, rfl⟩ := exists_element i
  rw [nibblePlane_element]
  unfold byteBit
  rw [packNibbles_apply, joined_getLsbD (and_fifteen_lt _) _ (by omega), getLsbD_and_fifteen,
    getLsbD_and_fifteen]
  have hk := k.isLt
  by_cases hsub : sub = 0
  · subst hsub
    simp [hk]
  · obtain rfl : sub = 1 := by omega
    simp [hk]

/-- A code of Q5_K joins the code Q4_K would read with the fifth bit. -/
theorem codeQ5K_getLsbD (qs : Fin 128 → Byte) (qh : Fin 32 → Byte) (g : Fin 4) (sub : Fin 2)
    (l : Fin 32) {k : ℕ} (hk : k < 8) :
    (codeQ5K qs qh g sub l).getLsbD k =
      if k < 4 then (codeQ4K qs g sub l).getLsbD k
      else decide (k < 5) && byteBit qh (highPlane (element g sub l)) := by
  have hcode : codeQ5K qs qh g sub l =
      codeQ4K qs g sub l + (((qh l >>> (2 * g + sub : ℕ)) &&& 1#8) <<< 4) := rfl
  rw [hcode, add_high _ (codeQ4K_lt ..), joined_getLsbD (codeQ4K_lt ..) _ hk, highPlane_element]
  split
  · rfl
  · rw [getLsbD_and_one, BitVec.getLsbD_ushiftRight]
    by_cases hfour : k = 4
    · subst hfour
      rfl
    · rw [decide_eq_false (by omega), decide_eq_false (by omega), Bool.false_and, Bool.false_and]

theorem codeQ5K_lt (qs : Fin 128 → Byte) (qh : Fin 32 → Byte) (g : Fin 4) (sub : Fin 2)
    (l : Fin 32) : (codeQ5K qs qh g sub l).toNat < 2 ^ 5 := by
  refine toNat_lt_of_getLsbD fun k hk => ?_
  rcases Nat.lt_or_ge k 8 with hlt | hge
  · rw [codeQ5K_getLsbD _ _ _ _ _ hlt, if_neg (by omega), decide_eq_false (by omega),
      Bool.false_and]
  · exact BitVec.getLsbD_of_ge _ _ hge

/-! ### The affine formats, whole -/

/-- The group of 32 of an element. -/
def group (i : Fin 256) : Fin 8 := ⟨i / 32, by omega⟩

theorem group_element (g : Fin 4) (sub : Fin 2) (l : Fin 32) :
    group (element g sub l) = ⟨2 * g + sub, by omega⟩ := by
  simp only [group, element, Fin.mk.injEq]
  omega

section Unpack

variable (toF32 : H → F)

/-- What the readers extract of a superblock. -/
def unpackQ4K (block : BlockQ4K H) : KAffine F :=
  ⟨toF32 block.d, toF32 block.dmin, fun j => (getScaleMinK4 j block.scales).1,
    fun j => (getScaleMinK4 j block.scales).2,
    affineElements block.scales (codeQ4K block.qs) (fun _ _ code => code) 0⟩

/-- The fields a block was packed from. -/
def unpackQ5K (block : BlockQ5K H) : KAffine F :=
  ⟨toF32 block.d, toF32 block.dmin, fun j => (getScaleMinK4 j block.scales).1,
    fun j => (getScaleMinK4 j block.scales).2,
    affineElements block.scales (codeQ5K block.qs block.qh) (fun _ _ code => code) 0⟩

end Unpack

/-- The bits of the fields: sub-scales and sub-mins, and low bits of the codes. -/
def fieldBitQ4K (fit : KAffine F) : (Fin 8 × Fin 6 ⊕ Fin 8 × Fin 6) ⊕ Fin 256 × Fin 4 → Bool
  | .inl s => scaleBit fit.scales fit.mins s
  | .inr (i, k) => (fit.codes i).getLsbD k

/-- As in Q4_K, and the fifth bits. -/
def fieldBitQ5K (fit : KAffine F) :
    ((Fin 8 × Fin 6 ⊕ Fin 8 × Fin 6) ⊕ Fin 256 × Fin 4) ⊕ Fin 256 → Bool
  | .inl s => fieldBitQ4K fit s
  | .inr i => (fit.codes i).getLsbD 4

/-- The bits of the payload. -/
def payloadBitQ4K (block : BlockQ4K H) : Fin 12 × Fin 8 ⊕ Fin 128 × Fin 8 → Bool
  | .inl x => byteBit block.scales x
  | .inr x => byteBit block.qs x

/-- A bit of the block, by the array and byte that hold it. -/
def payloadBitQ5K (block : BlockQ5K H) :
    (Fin 12 × Fin 8 ⊕ Fin 128 × Fin 8) ⊕ Fin 32 × Fin 8 → Bool
  | .inl (.inl x) => byteBit block.scales x
  | .inl (.inr x) => byteBit block.qs x
  | .inr x => byteBit block.qh x

variable (toF32 : H → F)

theorem unpackQ4K_codes (block : BlockQ4K H) (g : Fin 4) (sub : Fin 2) (l : Fin 32) :
    (unpackQ4K toF32 block).codes (element g sub l) = codeQ4K block.qs g sub l := by
  simp only [unpackQ4K, affineElements_element]

theorem unpackQ5K_codes (block : BlockQ5K H) (g : Fin 4) (sub : Fin 2) (l : Fin 32) :
    (unpackQ5K toF32 block).codes (element g sub l) = codeQ5K block.qs block.qh g sub l := by
  simp only [unpackQ5K, affineElements_element]

/-- Bytes with one bit. -/
def oneBit {n : ℕ} (x : Fin n × Fin 8) (b : Fin n) : Byte :=
  if b = x.1 then BitVec.twoPow 8 x.2 else 0

theorem byteBit_oneBit {n : ℕ} (x y : Fin n × Fin 8) : byteBit (oneBit x) y = true ↔ y = x := by
  unfold byteBit oneBit
  split
  case isTrue hb =>
    rw [BitVec.getLsbD_twoPow, Bool.and_eq_true, decide_eq_true_eq, decide_eq_true_eq]
    constructor
    · rintro ⟨-, hk⟩
      exact Prod.ext hb (Fin.ext hk.symm)
    · rintro rfl
      exact ⟨y.2.isLt, rfl⟩
  case isFalse hb =>
    constructor
    · intro hzero
      simp at hzero
    · rintro rfl
      exact absurd rfl hb

theorem byteBit_zero {n : ℕ} (y : Fin n × Fin 8) : byteBit (fun _ : Fin n => 0#8) y = false :=
  BitVec.getLsbD_zero

/-- Arrays with the same bits. -/
theorem eq_of_byteBit {n : ℕ} {bytes bytes' : Fin n → Byte}
    (h : ∀ x, byteBit bytes x = byteBit bytes' x) : bytes = bytes' := by
  funext b
  exact BitVec.eq_of_getLsbD_eq fun k hk => h (b, ⟨k, hk⟩)

variable (half : F → H)

/-- Which bit of the block each bit of a field is kept in. -/
def layoutQ4K [Inhabited H] : Layout (payloadBitQ4K (H := H)) (fieldBitQ4K (F := F)) (unpackQ4K toF32)
    (KAffine.intoQ4K half) where
  place := scalePlane.sumCongr nibblePlane
  single
    | .inl x => ⟨⟨default, default, oneBit x, fun _ => 0⟩, by
        rintro (y | y)
        · simp [payloadBitQ4K, byteBit_oneBit]
        · simp [payloadBitQ4K, byteBit_zero]⟩
    | .inr x => ⟨⟨default, default, fun _ => 0, oneBit x⟩, by
        rintro (y | y)
        · simp [payloadBitQ4K, byteBit_zero]
        · simp [payloadBitQ4K, byteBit_oneBit]⟩
  extracted
    | block, .inl s => scaleBit_get block.scales s
    | block, .inr (i, k) => by
      obtain ⟨g, sub, l, rfl⟩ := exists_element i
      simp only [fieldBitQ4K, payloadBitQ4K, unpackQ4K_codes, codeQ4K_getLsbD,
        Equiv.sumCongr_apply, Sum.map_inr]
  packed
    | _, .inl s => scaleBit_set s
    | fit, .inr (i, k) => packNibbles_getLsbD fit.codes i k

/-- Which bit of the block each bit of a field is kept in. -/
def layoutQ5K [Inhabited H] : Layout (payloadBitQ5K (H := H)) (fieldBitQ5K (F := F)) (unpackQ5K toF32)
    (KAffine.intoQ5K half) where
  place := (scalePlane.sumCongr nibblePlane).sumCongr highPlane
  single
    | .inl (.inl x) => ⟨⟨default, default, oneBit x, fun _ => 0, fun _ => 0⟩, by
        rintro ((y | y) | y) <;> simp [payloadBitQ5K, byteBit_oneBit, byteBit_zero]⟩
    | .inl (.inr x) => ⟨⟨default, default, fun _ => 0, fun _ => 0, oneBit x⟩, by
        rintro ((y | y) | y) <;> simp [payloadBitQ5K, byteBit_oneBit, byteBit_zero]⟩
    | .inr x => ⟨⟨default, default, fun _ => 0, oneBit x, fun _ => 0⟩, by
        rintro ((y | y) | y) <;> simp [payloadBitQ5K, byteBit_oneBit, byteBit_zero]⟩
  extracted
    | block, .inl (.inl s) => scaleBit_get block.scales s
    | block, .inl (.inr (i, k)) => by
      obtain ⟨g, sub, l, rfl⟩ := exists_element i
      simp only [fieldBitQ5K, fieldBitQ4K, payloadBitQ5K, unpackQ5K_codes, Equiv.sumCongr_apply,
        Sum.map_inl, Sum.map_inr]
      rw [codeQ5K_getLsbD _ _ _ _ _ (by omega), if_pos k.isLt, codeQ4K_getLsbD]
    | block, .inr i => by
      obtain ⟨g, sub, l, rfl⟩ := exists_element i
      simp only [fieldBitQ5K, payloadBitQ5K, unpackQ5K_codes, Equiv.sumCongr_apply, Sum.map_inr]
      rw [codeQ5K_getLsbD _ _ _ _ _ (by decide), if_neg (by decide), decide_eq_true (by decide),
        Bool.true_and]
  packed
    | _, .inl (.inl s) => scaleBit_set s
    | fit, .inl (.inr (i, k)) => packNibbles_getLsbD fit.codes i k
    | fit, .inr i => by
      obtain ⟨g, sub, l, rfl⟩ := exists_element i
      simp only [fieldBitQ5K, payloadBitQ5K, KAffine.intoQ5K, Equiv.sumCongr_apply, Sum.map_inr,
        highPlane_element]
      exact packHigh_apply fit.codes g sub l

/-! ### Q6_K, whole -/

theorem mem_groups {body : Fin 2 → Fin 4 → Fin 2 → Fin 16 → K} {w : K} :
    w ∈ groups body ↔ ∃ half lane is k, body half lane is k = w := by
  simp only [groups, List.mem_flatMap, List.mem_map, List.mem_finRange, true_and]

theorem exists_position (i : Fin 256) : ∃ half lane is k, groupPosition half lane is k = i := by
  refine ⟨⟨i / 128, by omega⟩, ⟨i / 32 % 4, by omega⟩, ⟨i / 16 % 2, by omega⟩,
    ⟨i % 16, by omega⟩, Fin.ext ?_⟩
  simp only [groupPosition]
  omega

section Position

variable (half : Fin 2) (lane : Fin 4) (is : Fin 2) (k : Fin 16)

theorem nibblePlane6_position (bit : Fin 4) :
    nibblePlane6 (groupPosition half lane is k, bit) =
      (⟨half * 64 + lane % 2 * 32 + is * 16 + k, by omega⟩, ⟨lane / 2 * 4 + bit, by omega⟩) := by
  simp only [nibblePlane6, groupPosition, Equiv.coe_fn_mk, Prod.mk.injEq, Fin.mk.injEq]
  omega

theorem pairPlane_position (bit : Fin 2) :
    pairPlane (groupPosition half lane is k, bit) =
      (⟨half * 32 + is * 16 + k, by omega⟩, ⟨lane * 2 + bit, by omega⟩) := by
  simp only [pairPlane, groupPosition, Equiv.coe_fn_mk, Prod.mk.injEq, Fin.mk.injEq]
  omega

/-- A nibble goes to its half of its byte. -/
theorem lowWrite_spec (raw : Fin 256 → Byte) :
    (lowWrite raw half lane is k).1.val = half * 64 + lane % 2 * 32 + is * 16 + k ∧
      ∀ bit, (lowWrite raw half lane is k).2.getLsbD bit = true ↔
        lane / 2 * 4 ≤ bit ∧ bit < lane / 2 * 4 + 4 ∧
          (raw (groupPosition half lane is k)).getLsbD (bit - lane / 2 * 4) = true := by
  have hlow : ∀ bit, (raw (groupPosition half lane is k) &&& 15#8).getLsbD bit = true ↔
      bit < 4 ∧ (raw (groupPosition half lane is k)).getLsbD bit = true := by
    intro bit
    rw [getLsbD_and_fifteen, Bool.and_eq_true, decide_eq_true_eq]
  have hhigh : ∀ bit, ((raw (groupPosition half lane is k) &&& 15#8) <<< 4).getLsbD bit = true ↔
      4 ≤ bit ∧ bit < 8 ∧ (raw (groupPosition half lane is k)).getLsbD (bit - 4) = true := by
    intro bit
    rw [BitVec.getLsbD_shiftLeft]
    simp only [Bool.and_eq_true, decide_eq_true_eq, Bool.not_eq_true', decide_eq_false_iff_not, hlow]
    constructor
    · rintro ⟨⟨hlt, hge⟩, -, hbit⟩
      exact ⟨Nat.le_of_not_lt hge, hlt, hbit⟩
    · rintro ⟨hge, hlt, hbit⟩
      exact ⟨⟨hlt, Nat.not_lt.mpr hge⟩, by omega, hbit⟩
  fin_cases lane
  · refine ⟨by simp only [lowWrite]; omega, fun bit => (hlow bit).trans ?_⟩
    simp
  · refine ⟨by simp only [lowWrite]; omega, fun bit => (hlow bit).trans ?_⟩
    simp
  · refine ⟨by simp only [lowWrite]; omega, fun bit => (hhigh bit).trans ?_⟩
    simp
  · refine ⟨by simp only [lowWrite]; omega, fun bit => (hhigh bit).trans ?_⟩
    simp

/-- A pair goes to its quarter of its byte. -/
theorem highWrite_spec {raw : Fin 256 → Byte} (hraw : ∀ i, (raw i).toNat < 2 ^ 6) :
    (highWrite raw half lane is k).1.val = half * 32 + is * 16 + k ∧
      ∀ bit, (highWrite raw half lane is k).2.getLsbD bit = true ↔
        lane * 2 ≤ bit ∧ bit < lane * 2 + 2 ∧
          (raw (groupPosition half lane is k)).getLsbD (4 + (bit - lane * 2)) = true := by
  refine ⟨by simp only [highWrite]; omega, fun bit => ?_⟩
  simp only [highWrite, BitVec.getLsbD_shiftLeft, BitVec.getLsbD_ushiftRight, Bool.and_eq_true,
    decide_eq_true_eq, Bool.not_eq_true', decide_eq_false_iff_not]
  constructor
  · rintro ⟨⟨-, hge⟩, hbit⟩
    refine ⟨by omega, ?_, hbit⟩
    by_contra hle
    rw [getLsbD_of_toNat_lt (hraw _) (by omega)] at hbit
    cases hbit
  · rintro ⟨hge, hlt, hbit⟩
    exact ⟨⟨by omega, by omega⟩, hbit⟩

end Position

variable (toF16 : F → H)

/-- The low bits of a code are packed in their place. -/
theorem quantizeQ6K_ql (fit : Fit6 F) (i : Fin 256) (bit : Fin 4) :
    byteBit (quantizeQ6K toF16 fit).ql (nibblePlane6 (i, bit)) = (fit.raw i).getLsbD bit := by
  obtain ⟨half, lane, is, k, rfl⟩ := exists_position i
  rw [nibblePlane6_position, Bool.eq_iff_iff, byteBit, quantizeQ6K, scatterOr_getLsbD]
  constructor
  · rintro (hzero | ⟨w, hw, hplace, hbit⟩)
    · simp at hzero
    · obtain ⟨half', lane', is', k', rfl⟩ := mem_groups.mp hw
      obtain ⟨hindex, hbits⟩ := lowWrite_spec half' lane' is' k' fit.raw
      obtain ⟨hge, hlt, hraw⟩ := (hbits _).mp hbit
      rw [hplace] at hindex
      dsimp only at hindex hge hlt hraw
      obtain rfl : half' = half := Fin.ext (by omega)
      obtain rfl : lane' = lane := Fin.ext (by omega)
      obtain rfl : is' = is := Fin.ext (by omega)
      obtain rfl : k' = k := Fin.ext (by omega)
      rwa [Nat.add_sub_cancel_left] at hraw
  · intro hraw
    obtain ⟨hindex, hbits⟩ := lowWrite_spec half lane is k fit.raw
    refine .inr ⟨_, mem_groups.mpr ⟨half, lane, is, k, rfl⟩, Fin.ext hindex, (hbits _).mpr ?_⟩
    dsimp only
    rw [Nat.add_sub_cancel_left]
    exact ⟨by omega, by omega, hraw⟩

/-- So are the high bits. -/
theorem quantizeQ6K_qh (fit : Fit6 F) (i : Fin 256) (bit : Fin 2) :
    byteBit (quantizeQ6K toF16 fit).qh (pairPlane (i, bit)) = (fit.raw i).getLsbD (4 + bit) := by
  obtain ⟨half, lane, is, k, rfl⟩ := exists_position i
  rw [pairPlane_position, Bool.eq_iff_iff, byteBit, quantizeQ6K, scatterOr_getLsbD]
  constructor
  · rintro (hzero | ⟨w, hw, hplace, hbit⟩)
    · simp at hzero
    · obtain ⟨half', lane', is', k', rfl⟩ := mem_groups.mp hw
      obtain ⟨hindex, hbits⟩ := highWrite_spec half' lane' is' k' fit.raw_lt
      obtain ⟨hge, hlt, hraw⟩ := (hbits _).mp hbit
      rw [hplace] at hindex
      dsimp only at hindex hge hlt hraw
      obtain rfl : half' = half := Fin.ext (by omega)
      obtain rfl : lane' = lane := Fin.ext (by omega)
      obtain rfl : is' = is := Fin.ext (by omega)
      obtain rfl : k' = k := Fin.ext (by omega)
      rwa [Nat.add_sub_cancel_left] at hraw
  · intro hraw
    obtain ⟨hindex, hbits⟩ := highWrite_spec half lane is k fit.raw_lt
    refine .inr ⟨_, mem_groups.mpr ⟨half, lane, is, k, rfl⟩, Fin.ext hindex, (hbits _).mpr ?_⟩
    dsimp only
    rw [Nat.add_sub_cancel_left]
    exact ⟨by omega, by omega, hraw⟩

/-- Each group's scale is written once. -/
theorem quantizeQ6K_scales (fit : Fit6 F) : (quantizeQ6K toF16 fit).scales = fit.scales := by
  funext s
  have hs : groupScale ⟨s / 8, by omega⟩ ⟨s / 2 % 4, by omega⟩ ⟨s % 2, by omega⟩ = s := by
    refine Fin.ext ?_
    simp only [groupScale]
    omega
  refine scatter_once ?_ ?_
  · simp only [List.mem_flatMap, List.mem_map, List.mem_finRange, true_and]
    exact ⟨_, _, _, Prod.ext hs (congrArg fit.scales hs)⟩
  · intro w hw hi
    simp only [List.mem_flatMap, List.mem_map, List.mem_finRange, true_and] at hw
    obtain ⟨half, lane, is, rfl⟩ := hw
    exact congrArg fit.scales hi

/-- The raw code that the reader assembles at a half, a lane and a position. -/
def rawQ6K (ql : Fin 128 → Byte) (qh : Fin 64 → Byte) (half : Fin 2) (lane : Fin 4) (is : Fin 2)
    (k : Fin 16) : Byte :=
  let low := ql ⟨half * 64 + lane % 2 * 32 + is * 16 + k, by omega⟩
  let high := qh ⟨half * 32 + is * 16 + k, by omega⟩
  (if lane.val < 2 then low &&& 15#8 else low >>> 4) ||| (((high >>> (lane * 2 : ℕ)) &&& 3#8) <<< 4)

theorem mem_laneWrites {block : BlockQ6K H} {value : Byte → Byte → K} {half : Fin 2} {is : Fin 2}
    {k : Fin 16} {w : Fin 256 × K} :
    w ∈ laneWrites block value half ⟨is * 16 + k, by omega⟩ ↔
      ∃ lane, (groupPosition half lane is k, value (block.scales (groupScale half lane is))
        (rawQ6K block.ql block.qh half lane is k)) = w := by
  have hlanes : laneWrites block value half ⟨is * 16 + k, by omega⟩ =
      (List.finRange 4).map fun (lane : Fin 4) =>
        (groupPosition half lane is k, value (block.scales (groupScale half lane is))
          (rawQ6K block.ql block.qh half lane is k)) := by
    have hgroup : (is.val * 16 + k) / 16 = is := by omega
    have hfin : List.finRange 4 = [0, 1, 2, 3] := rfl
    rw [hfin]
    simp only [List.map_cons, List.map_nil, laneWrites, rawQ6K, groupPosition, groupScale, hgroup]
    simp [Nat.add_assoc, Nat.add_comm, Nat.add_left_comm]
  rw [hlanes]
  simp only [List.mem_map, List.mem_finRange, true_and]

/-- What Q6_K makes of an element. -/
theorem elementsQ6K_position (block : BlockQ6K H) (value : Byte → Byte → K) (zero : K)
    (half : Fin 2) (lane : Fin 4) (is : Fin 2) (k : Fin 16) :
    elementsQ6K block value zero (groupPosition half lane is k) =
      value (block.scales (groupScale half lane is)) (rawQ6K block.ql block.qh half lane is k) := by
  refine scatter_once ?_ ?_
  · simp only [List.mem_flatMap, List.mem_finRange, true_and]
    exact ⟨half, ⟨is * 16 + k, by omega⟩, mem_laneWrites.mpr ⟨lane, rfl⟩⟩
  · intro w hw hi
    simp only [List.mem_flatMap, List.mem_finRange, true_and] at hw
    obtain ⟨half', l, hw⟩ := hw
    obtain ⟨is', k', rfl⟩ : ∃ (is' : Fin 2) (k' : Fin 16), ⟨is' * 16 + k', by omega⟩ = l :=
      ⟨⟨l / 16, by omega⟩, ⟨l % 16, by omega⟩, Fin.ext (by dsimp only; omega)⟩
    obtain ⟨lane', rfl⟩ := mem_laneWrites.mp hw
    have hval := congrArg Fin.val hi
    simp only [groupPosition] at hval
    obtain rfl : half' = half := Fin.ext (by omega)
    obtain rfl : lane' = lane := Fin.ext (by omega)
    obtain rfl : is' = is := Fin.ext (by omega)
    obtain rfl : k' = k := Fin.ext (by omega)
    rfl

/-- Each bit of a code that the reader assembles comes from its place. -/
theorem rawQ6K_getLsbD (ql : Fin 128 → Byte) (qh : Fin 64 → Byte) (half : Fin 2) (lane : Fin 4)
    (is : Fin 2) (k : Fin 16) {bit : ℕ} (hbit : bit < 8) :
    (rawQ6K ql qh half lane is k).getLsbD bit =
      if h : bit < 4 then byteBit ql (nibblePlane6 (groupPosition half lane is k, ⟨bit, h⟩))
      else if h' : bit - 4 < 2 then
        byteBit qh (pairPlane (groupPosition half lane is k, ⟨bit - 4, h'⟩))
      else false := by
  simp only [nibblePlane6_position, pairPlane_position, byteBit, rawQ6K]
  set low := ql ⟨half * 64 + lane % 2 * 32 + is * 16 + k, by omega⟩
  set high := qh ⟨half * 32 + is * 16 + k, by omega⟩
  have hlow : (if lane.val < 2 then low &&& 15#8 else low >>> 4).toNat < 2 ^ 4 := by
    split
    · exact and_fifteen_lt _
    · exact shiftRight_four_lt _
  rw [joined_getLsbD hlow _ hbit]
  by_cases hfour : bit < 4
  · rw [if_pos hfour, dif_pos hfour]
    split
    case isTrue hlane =>
      rw [getLsbD_and_fifteen, decide_eq_true hfour, Bool.true_and,
        show lane.val / 2 * 4 + bit = bit by omega]
    case isFalse hlane =>
      rw [BitVec.getLsbD_ushiftRight, show lane.val / 2 * 4 + bit = 4 + bit by omega]
  · rw [if_neg hfour, dif_neg hfour, getLsbD_and_three, BitVec.getLsbD_ushiftRight]
    by_cases htwo : bit - 4 < 2
    · rw [dif_pos htwo, decide_eq_true htwo, Bool.true_and]
    · rw [dif_neg htwo, decide_eq_false htwo, Bool.false_and]

/-- What the reader extracts of a superblock. -/
def unpackQ6K (toF32 : H → F) (block : BlockQ6K H) : Fit6 F where
  d := toF32 block.d
  scales := fun s => elementsQ6K block (fun sc _ => sc) 0 ⟨s * 16, by omega⟩
  raw := elementsQ6K block (fun _ raw => raw) 0
  raw_lt := by
    intro i
    obtain ⟨half, lane, is, k, rfl⟩ := exists_position i
    rw [elementsQ6K_position]
    refine toNat_lt_of_getLsbD fun bit hbit => ?_
    rcases Nat.lt_or_ge bit 8 with hlt | hge
    · rw [rawQ6K_getLsbD _ _ _ _ _ _ hlt, dif_neg (by omega), dif_neg (by omega)]
    · exact BitVec.getLsbD_of_ge _ _ hge

theorem unpackQ6K_scales (toF32 : H → F) (block : BlockQ6K H) :
    (unpackQ6K toF32 block).scales = block.scales := by
  funext s
  have hs : groupScale ⟨s / 8, by omega⟩ ⟨s / 2 % 4, by omega⟩ ⟨s % 2, by omega⟩ = s := by
    refine Fin.ext ?_
    simp only [groupScale]
    omega
  have hposition : groupPosition ⟨s / 8, by omega⟩ ⟨s / 2 % 4, by omega⟩ ⟨s % 2, by omega⟩ 0 =
      (⟨s * 16, by omega⟩ : Fin 256) := by
    refine Fin.ext ?_
    simp only [groupPosition]
    omega
  simp only [unpackQ6K]
  rw [← hposition, elementsQ6K_position, hs]

/-- The bits of the fields. -/
def fieldBitQ6K (fit : Fit6 F) : (Fin 256 × Fin 4 ⊕ Fin 256 × Fin 2) ⊕ Fin 16 × Fin 8 → Bool
  | .inl (.inl (i, bit)) => (fit.raw i).getLsbD bit
  | .inl (.inr (i, bit)) => (fit.raw i).getLsbD (4 + bit)
  | .inr x => byteBit fit.scales x

/-- The bits of the payload. -/
def payloadBitQ6K (block : BlockQ6K H) :
    (Fin 128 × Fin 8 ⊕ Fin 64 × Fin 8) ⊕ Fin 16 × Fin 8 → Bool
  | .inl (.inl x) => byteBit block.ql x
  | .inl (.inr x) => byteBit block.qh x
  | .inr x => byteBit block.scales x

/-- Which bit of the block each bit of a field is kept in. -/
def layoutQ6K [Inhabited H] (toF32 : H → F) : Layout (payloadBitQ6K (H := H))
    (fieldBitQ6K (F := F)) (unpackQ6K toF32) (quantizeQ6K toF16) where
  place := (nibblePlane6.sumCongr pairPlane).sumCongr (Equiv.refl _)
  single
    | .inl (.inl x) => ⟨⟨oneBit x, fun _ => 0, fun _ => 0, default⟩, by
        rintro ((y | y) | y) <;> simp [payloadBitQ6K, byteBit_oneBit, byteBit_zero]⟩
    | .inl (.inr x) => ⟨⟨fun _ => 0, oneBit x, fun _ => 0, default⟩, by
        rintro ((y | y) | y) <;> simp [payloadBitQ6K, byteBit_oneBit, byteBit_zero]⟩
    | .inr x => ⟨⟨fun _ => 0, fun _ => 0, oneBit x, default⟩, by
        rintro ((y | y) | y) <;> simp [payloadBitQ6K, byteBit_oneBit, byteBit_zero]⟩
  extracted
    | block, .inl (.inl (i, bit)) => by
      obtain ⟨half, lane, is, k, rfl⟩ := exists_position i
      simp only [fieldBitQ6K, payloadBitQ6K, unpackQ6K, elementsQ6K_position,
        Equiv.sumCongr_apply, Sum.map_inl]
      rw [rawQ6K_getLsbD _ _ _ _ _ _ (by omega), dif_pos bit.isLt]
    | block, .inl (.inr (i, bit)) => by
      obtain ⟨half, lane, is, k, rfl⟩ := exists_position i
      simp only [fieldBitQ6K, payloadBitQ6K, unpackQ6K, elementsQ6K_position,
        Equiv.sumCongr_apply, Sum.map_inl, Sum.map_inr]
      rw [rawQ6K_getLsbD _ _ _ _ _ _ (by omega), dif_neg (by omega), dif_pos (by omega)]
      simp only [Nat.add_sub_cancel_left]
    | block, .inr x => by
      simp only [fieldBitQ6K, payloadBitQ6K, unpackQ6K_scales]
      rfl
  packed
    | fit, .inl (.inl (i, bit)) => quantizeQ6K_ql toF16 fit i bit
    | fit, .inl (.inr (i, bit)) => quantizeQ6K_qh toF16 fit i bit
    | fit, .inr x => by
      simp only [fieldBitQ6K, payloadBitQ6K, quantizeQ6K_scales]
      rfl

/-! ### All three -/

/-- The layout of Q4_K: every element reads the fields it was packed from, what is
read is packed as it was, and each bit of the payload has one owner. -/
structure Q4KExact (half : F → H) (toF32 : H → F) : Prop where
  extracted : ∀ fit : KAffine F, fit.InRange 15 → ∀ {K : Type} (value : Byte → Byte → Byte → K)
    (zero : K) (i : Fin 256), affineElements (fit.intoQ4K half).scales
      (codeQ4K (fit.intoQ4K half).qs) value zero i =
        value (fit.scales (group i)) (fit.mins (group i)) (fit.codes i)
  repacked : ∀ block : BlockQ4K H, ((unpackQ4K toF32 block).intoQ4K half).scales = block.scales ∧
    ((unpackQ4K toF32 block).intoQ4K half).qs = block.qs
  owned : ∀ x, ∃! s, ∀ block : BlockQ4K H,
    fieldBitQ4K (unpackQ4K toF32 block) s = payloadBitQ4K block x

/-- What holds of the five-bit format: extraction inverts packing and is inverted by it, and each
bit of the block belongs to one field. -/
structure Q5KExact (half : F → H) (toF32 : H → F) : Prop where
  extracted : ∀ fit : KAffine F, fit.InRange 31 → ∀ {K : Type} (value : Byte → Byte → Byte → K)
    (zero : K) (i : Fin 256), affineElements (fit.intoQ5K half).scales
      (codeQ5K (fit.intoQ5K half).qs (fit.intoQ5K half).qh) value zero i =
        value (fit.scales (group i)) (fit.mins (group i)) (fit.codes i)
  repacked : ∀ block : BlockQ5K H, ((unpackQ5K toF32 block).intoQ5K half).scales = block.scales ∧
    ((unpackQ5K toF32 block).intoQ5K half).qh = block.qh ∧
      ((unpackQ5K toF32 block).intoQ5K half).qs = block.qs
  owned : ∀ x, ∃! s, ∀ block : BlockQ5K H,
    fieldBitQ5K (unpackQ5K toF32 block) s = payloadBitQ5K block x

/-- As for the affine formats; a group is of sixteen elements. -/
structure Q6KExact (half : F → H) (toF32 : H → F) : Prop where
  extracted : ∀ (fit : Fit6 F) {K : Type} (value : Byte → Byte → K) (zero : K) (i : Fin 256),
    elementsQ6K (quantizeQ6K half fit) value zero i =
      value (fit.scales ⟨i / 16, by omega⟩) (fit.raw i)
  repacked : ∀ block : BlockQ6K H, (quantizeQ6K half (unpackQ6K toF32 block)).ql = block.ql ∧
    (quantizeQ6K half (unpackQ6K toF32 block)).qh = block.qh ∧
      (quantizeQ6K half (unpackQ6K toF32 block)).scales = block.scales
  owned : ∀ x, ∃! s, ∀ block : BlockQ6K H,
    fieldBitQ6K (unpackQ6K toF32 block) s = payloadBitQ6K block x

variable (half : F → H) (toF32 : H → F)

theorem joined_pair_lt {low : Byte} (hlow : low.toNat < 2 ^ 4) (x : Byte) :
    (low ||| ((x >>> 6) <<< 4)).toNat < 2 ^ 6 := by
  refine toNat_lt_of_getLsbD fun k hk => ?_
  rcases Nat.lt_or_ge k 8 with hlt | hge
  · rw [joined_getLsbD hlow _ hlt, if_neg (by omega), BitVec.getLsbD_ushiftRight,
      BitVec.getLsbD_of_ge _ _ (by omega)]
  · exact BitVec.getLsbD_of_ge _ _ hge

theorem getScaleMinK4_lt (j : Fin 8) (q : Fin 12 → Byte) :
    (getScaleMinK4 j q).1.toNat < 2 ^ 6 ∧ (getScaleMinK4 j q).2.toNat < 2 ^ 6 := by
  unfold getScaleMinK4
  split
  · exact ⟨and_sixtyThree_lt _, and_sixtyThree_lt _⟩
  · exact ⟨joined_pair_lt (and_fifteen_lt _) _, joined_pair_lt (shiftRight_four_lt _) _⟩

/-- The reader finds the sub-scales and sub-mins that were packed. -/
theorem getScaleMinK4_set {scales mins : Fin 8 → Byte} (hscales : ∀ j, (scales j).toNat ≤ 63)
    (hmins : ∀ j, (mins j).toNat ≤ 63) (j : Fin 8) :
    getScaleMinK4 j (setScaleMinK4 scales mins) = (scales j, mins j) := by
  have hbits := fun s => (scaleBit_get (setScaleMinK4 scales mins) s).trans (scaleBit_set s)
  obtain ⟨hscale, hmin⟩ := getScaleMinK4_lt j (setScaleMinK4 scales mins)
  refine Prod.ext ?_ ?_
  · exact eq_of_low_bits hscale (Nat.lt_succ_of_le (hscales j)) fun k hk => hbits (.inl (j, ⟨k, hk⟩))
  · exact eq_of_low_bits hmin (Nat.lt_succ_of_le (hmins j)) fun k hk => hbits (.inr (j, ⟨k, hk⟩))

theorem q4k_exact [Inhabited H] : Q4KExact half toF32 where
  extracted := by
    intro fit hrange K value zero i
    obtain ⟨g, sub, l, rfl⟩ := exists_element i
    have hcode : codeQ4K (fit.intoQ4K half).qs g sub l = fit.codes (element g sub l) := by
      refine eq_of_low_bits (codeQ4K_lt ..) (Nat.lt_succ_of_le (hrange.codes _)) fun k hk => ?_
      have hbit := (layoutQ4K toF32 half).extract_pack fit (.inr (element g sub l, ⟨k, hk⟩))
      simpa only [fieldBitQ4K, unpackQ4K_codes] using hbit
    rw [affineElements_element, hcode, group_element]
    have hpair := getScaleMinK4_set hrange.scales hrange.mins ⟨2 * g + sub, by omega⟩
    simp only [KAffine.intoQ4K, hpair]
  repacked := by
    intro block
    have hbits := (layoutQ4K toF32 half).pack_extract block
    exact ⟨eq_of_byteBit fun x => hbits (.inl x), eq_of_byteBit fun x => hbits (.inr x)⟩
  owned := (layoutQ4K toF32 half).owner

theorem q5k_exact [Inhabited H] : Q5KExact half toF32 where
  extracted := by
    intro fit hrange K value zero i
    obtain ⟨g, sub, l, rfl⟩ := exists_element i
    have hcode : codeQ5K (fit.intoQ5K half).qs (fit.intoQ5K half).qh g sub l =
        fit.codes (element g sub l) := by
      refine eq_of_low_bits (codeQ5K_lt ..) (Nat.lt_succ_of_le (hrange.codes _)) fun k hk => ?_
      rw [← unpackQ5K_codes toF32]
      rcases Nat.lt_or_ge k 4 with hlt | hge
      · exact (layoutQ5K toF32 half).extract_pack fit (.inl (.inr (element g sub l, ⟨k, hlt⟩)))
      · obtain rfl : k = 4 := by omega
        exact (layoutQ5K toF32 half).extract_pack fit (.inr (element g sub l))
    rw [affineElements_element, hcode, group_element]
    have hpair := getScaleMinK4_set hrange.scales hrange.mins ⟨2 * g + sub, by omega⟩
    simp only [KAffine.intoQ5K, hpair]
  repacked := by
    intro block
    have hbits := (layoutQ5K toF32 half).pack_extract block
    exact ⟨eq_of_byteBit fun x => hbits (.inl (.inl x)), eq_of_byteBit fun x => hbits (.inr x),
      eq_of_byteBit fun x => hbits (.inl (.inr x))⟩
  owned := (layoutQ5K toF32 half).owner

theorem q6k_exact [Inhabited H] : Q6KExact half toF32 where
  extracted := by
    intro fit K value zero i
    have hraw : (unpackQ6K toF32 (quantizeQ6K half fit)).raw i = fit.raw i := by
      refine eq_of_low_bits ((unpackQ6K toF32 (quantizeQ6K half fit)).raw_lt i) (fit.raw_lt i)
        fun k hk => ?_
      rcases Nat.lt_or_ge k 4 with hlt | hge
      · exact (layoutQ6K half toF32).extract_pack fit (.inl (.inl (i, ⟨k, hlt⟩)))
      · have hbit := (layoutQ6K half toF32).extract_pack fit (.inl (.inr (i, ⟨k - 4, by omega⟩)))
        simpa only [fieldBitQ6K, Nat.add_sub_cancel' hge] using hbit
    obtain ⟨half', lane, is, k, rfl⟩ := exists_position i
    have hgroup : groupScale half' lane is =
        ⟨(groupPosition half' lane is k : Fin 256) / 16, by omega⟩ := by
      refine Fin.ext ?_
      simp only [groupScale, groupPosition]
      omega
    simp only [unpackQ6K, elementsQ6K_position] at hraw
    rw [elementsQ6K_position, hraw, quantizeQ6K_scales, hgroup]
  repacked := by
    intro block
    have hbits := (layoutQ6K half toF32).pack_extract block
    exact ⟨eq_of_byteBit fun x => hbits (.inl (.inl x)), eq_of_byteBit fun x => hbits (.inl (.inr x)),
      eq_of_byteBit fun x => hbits (.inr x)⟩
  owned := (layoutQ6K half toF32).owner

/-- Packing and reading the k-quants undo each other, bit for bit. -/
theorem quant_bit_layout [Inhabited H] :
    Q4KExact half toF32 ∧ Q5KExact half toF32 ∧ Q6KExact half toF32 :=
  ⟨q4k_exact half toF32, q5k_exact half toF32, q6k_exact half toF32⟩

end Quant
