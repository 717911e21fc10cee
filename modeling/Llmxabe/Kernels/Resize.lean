/-
Resizing an image to the token ceiling (`xabe-kernels/src/vision/preprocess.rs`).

Numbers are those of an ordered field, `sqrt` is exact, and a cast to `u32`
saturates.  In units of the alignment edge, the edges the resize returns are
between consecutive squares (`shrunk_between`, `grown_between`), which says when
their product is within the ceiling:

* `Resized.within_iff`: exactly if the image `Fits`.
-/
import Mathlib.Algebra.Order.Floor.Semifield
import Mathlib.Analysis.Real.Sqrt
import Mathlib.Tactic

namespace Vision

/-- What the resize reads of the tower's configuration. -/
structure VisionConfig where
  patchSize : ℕ
  spatialMerge : ℕ
  deriving DecidableEq, Repr

/-- The tower of both models. -/
def VisionConfig.qwen : VisionConfig := ⟨16, 2⟩

/-- The multiple every image edge is aligned to. -/
def alignEdge (cfg : VisionConfig) : ℕ := cfg.patchSize * cfg.spatialMerge

/-- The model's least number of tokens for an image. -/
def MIN_IMAGE_TOKENS : ℕ := 8

/-- The model's greatest number of tokens for an image. -/
def MAX_IMAGE_TOKENS : ℕ := 4096

/-- Decoded pixels cap. -/
def MAX_DECODED_PIXELS : ℕ := 8192 * 8192

/-- The ceiling, clamped into the model's own budget. -/
def ceiling (maxTokens : ℕ) : ℕ := max MIN_IMAGE_TOKENS (min maxTokens MAX_IMAGE_TOKENS)

variable {K : Type} [Field K] [LinearOrder K] [IsStrictOrderedRing K] [FloorRing K]

/-- A cast to `u32`. -/
def asU32 (x : K) : ℕ := min ⌊x⌋₊ (2 ^ 32 - 1)

/-- The nearest multiple of `f`, as `u32`. -/
def roundBy (v f : K) : ℕ := asU32 ((⌊v / f + 1 / 2⌋₊ : K) * f)

/-- The next multiple of `f`, as `u32`. -/
def ceilBy (v f : K) : ℕ := asU32 ((⌈v / f⌉₊ : K) * f)

/-- The multiple of `f` below, as `u32`. -/
def floorBy (v f : K) : ℕ := asU32 ((⌊v / f⌋₊ : K) * f)

variable (sqrt : K → K)

/-- Target width and height: aspect-preserving, aligned, clamped into the budget. -/
def smartResizeBounded (cfg : VisionConfig) (w h maxTokens : ℕ) : ℕ × ℕ :=
  let f : K := alignEdge cfg
  let tokenPx : K := (alignEdge cfg * alignEdge cfg : ℕ)
  let minPx := MIN_IMAGE_TOKENS * tokenPx
  let maxPx := ceiling maxTokens * tokenPx
  let wBar := max (roundBy (w : K) f) (alignEdge cfg)
  let hBar := max (roundBy (h : K) f) (alignEdge cfg)
  let area : K := wBar * hBar
  if maxPx < area then
    let beta := sqrt (w * h / maxPx)
    (max (floorBy (w / beta) f) (alignEdge cfg), max (floorBy (h / beta) f) (alignEdge cfg))
  else if area < minPx then
    let beta := sqrt (minPx / (w * h))
    (ceilBy (w * beta) f, ceilBy (h * beta) f)
  else (wBar, hBar)

/-- The square root is exact. -/
structure ExactSqrt : Prop where
  nonneg : ∀ x, 0 ≤ sqrt x
  mul_self : ∀ x, 0 ≤ x → sqrt x * sqrt x = x

/-! ### In units of the edge -/

/-- An edge rounded to the nearest multiple, in multiples. -/
def cells (edge : ℕ) : ℕ := max ((edge + 16) / 32) 1

theorem asU32_natCast {n : ℕ} (h : n < 2 ^ 32) :
    asU32 (n : K) = n := by
  unfold asU32
  rw [Nat.floor_natCast]
  omega

theorem roundBy_eq {n : ℕ} (h : n < 2 ^ 31) : roundBy (n : K) 32 = (n + 16) / 32 * 32 := by
  have hsum : (n : K) / 32 + 1 / 2 = ((n + 16 : ℕ) : K) / ((32 : ℕ) : K) := by
    push_cast
    ring
  have hprod : (((n + 16) / 32 : ℕ) : K) * 32 = (((n + 16) / 32 * 32 : ℕ) : K) := by
    push_cast
    ring
  unfold roundBy
  rw [hsum, Nat.floor_div_natCast, Nat.floor_natCast, hprod]
  exact asU32_natCast (by omega)

theorem floorBy_eq {x : K} {a : ℕ} (ha : ⌊x / 32⌋₊ = a) (hlt : a * 32 < 2 ^ 32) :
    floorBy x 32 = a * 32 := by
  unfold floorBy
  rw [ha]
  exact_mod_cast asU32_natCast (K := K) hlt

theorem ceilBy_eq {x : K} {a : ℕ} (ha : ⌈x / 32⌉₊ = a) (hlt : a * 32 < 2 ^ 32) :
    ceilBy x 32 = a * 32 := by
  unfold ceilBy
  rw [ha]
  exact_mod_cast asU32_natCast (K := K) hlt

/-- The floor of a number known by its square. -/
theorem floor_between {x : K} (hx : 0 ≤ x) {n d : ℕ} (hsq : x * x * d = n) :
    ⌊x⌋₊ ^ 2 * d ≤ n ∧ (0 < d → n < (⌊x⌋₊ + 1) ^ 2 * d) := by
  have hle := Nat.floor_le hx
  have hlt := Nat.lt_floor_add_one x
  have hfloor : (0 : K) ≤ ⌊x⌋₊ := Nat.cast_nonneg _
  have hd : (0 : K) ≤ d := Nat.cast_nonneg _
  constructor
  · have h : ((⌊x⌋₊ ^ 2 * d : ℕ) : K) ≤ (n : ℕ) := by
      push_cast
      rw [← hsq, pow_two]
      gcongr
    exact_mod_cast h
  · intro hpos
    have hd' : (0 : K) < d := Nat.cast_pos.mpr hpos
    have h : ((n : ℕ) : K) < ((⌊x⌋₊ + 1) ^ 2 * d : ℕ) := by
      push_cast
      rw [← hsq, pow_two]
      gcongr
    exact_mod_cast h

/-- The ceiling of one. -/
theorem ceil_between {x : K} (hx : 0 < x) {n d : ℕ} (hsq : x * x * d = n) :
    n ≤ ⌈x⌉₊ ^ 2 * d ∧ (0 < d → (⌈x⌉₊ - 1) ^ 2 * d < n) ∧ 0 < ⌈x⌉₊ := by
  have hle := Nat.le_ceil x
  have hlt := Nat.ceil_lt_add_one hx.le
  have hceil : 0 < ⌈x⌉₊ := Nat.ceil_pos.mpr hx
  have hd : (0 : K) ≤ d := Nat.cast_nonneg _
  refine ⟨?_, fun hpos => ?_, hceil⟩
  · have h : ((n : ℕ) : K) ≤ (⌈x⌉₊ ^ 2 * d : ℕ) := by
      push_cast
      rw [← hsq, pow_two]
      gcongr
    exact_mod_cast h
  · have hd' : (0 : K) < d := Nat.cast_pos.mpr hpos
    have hpred : ((⌈x⌉₊ - 1 : ℕ) : K) < x := by
      push_cast [Nat.cast_sub hceil]
      linarith
    have hnonneg : (0 : K) ≤ ((⌈x⌉₊ - 1 : ℕ) : K) := Nat.cast_nonneg _
    have h : (((⌈x⌉₊ - 1) ^ 2 * d : ℕ) : K) < (n : ℕ) := by
      rw [Nat.cast_mul, Nat.cast_pow]
      rw [← hsq, pow_two]
      gcongr
    exact_mod_cast h

/-- What the resize makes of an image, in cells of the alignment edge. -/
inductive Resized (budget w h : ℕ) : ℕ → ℕ → Prop where
  | kept (hmax : cells w * cells h ≤ budget) (hmin : 8 ≤ cells w * cells h) :
    Resized budget w h (cells w) (cells h)
  | shrunk {a b : ℕ} (hmax : budget < cells w * cells h)
    (ha : a ^ 2 * h ≤ budget * w ∧ budget * w < (a + 1) ^ 2 * h)
    (hb : b ^ 2 * w ≤ budget * h ∧ budget * h < (b + 1) ^ 2 * w) :
    Resized budget w h (max a 1) (max b 1)
  | grown {a b : ℕ} (hmax : cells w * cells h ≤ budget) (hmin : cells w * cells h < 8)
    (ha : 8 * w ≤ a ^ 2 * h ∧ (a - 1) ^ 2 * h < 8 * w ∧ 0 < a)
    (hb : 8 * h ≤ b ^ 2 * w ∧ (b - 1) ^ 2 * w < 8 * h ∧ 0 < b) : Resized budget w h a b

variable {sqrt} {w h maxTokens : ℕ}

theorem ceiling_bounds (maxTokens : ℕ) : 8 ≤ ceiling maxTokens ∧ ceiling maxTokens ≤ 4096 := by
  unfold ceiling MIN_IMAGE_TOKENS MAX_IMAGE_TOKENS
  omega

omit [IsStrictOrderedRing K] [FloorRing K] in
theorem ExactSqrt.pos (hsqrt : ExactSqrt sqrt) {x : K} (hx : 0 < x) : 0 < sqrt x := by
  refine lt_of_le_of_ne (hsqrt.nonneg x) fun hzero => ?_
  have hsquare := hsqrt.mul_self x hx.le
  rw [← hzero, mul_zero] at hsquare
  exact hx.ne hsquare

/-- An edge shrunk by the scale factor. -/
theorem shrunk_between (hsqrt : ExactSqrt sqrt) {budget : ℕ} (hbudget : 0 < budget) (hw : 0 < w)
    (hh : 0 < h) :
    ∃ a, a = ⌊(w : K) / sqrt (w * h / (budget * (1024 : ℕ))) / 32⌋₊ ∧
      a ^ 2 * h ≤ budget * w ∧ budget * w < (a + 1) ^ 2 * h := by
  have hw' : (0 : K) < w := Nat.cast_pos.mpr hw
  have hh' : (0 : K) < h := Nat.cast_pos.mpr hh
  have hbudget' : (0 : K) < budget := Nat.cast_pos.mpr hbudget
  have harg : (0 : K) < w * h / (budget * (1024 : ℕ)) := by positivity
  set beta := sqrt ((w : K) * h / (budget * (1024 : ℕ))) with hbeta
  have hpos : 0 < beta := hsqrt.pos harg
  have hsquare : beta * beta = w * h / (budget * (1024 : ℕ)) := hsqrt.mul_self _ harg.le
  have hsq : (w / beta / 32) * (w / beta / 32) * h = ((budget * w : ℕ) : K) := by
    have hsplit : (w / beta / 32) * (w / beta / 32) * h = (w * w * h / 1024) / (beta * beta) := by
      field_simp
      norm_num
    rw [hsplit, hsquare]
    push_cast
    field_simp
  obtain ⟨hle, hlt⟩ := floor_between (by positivity) hsq
  exact ⟨_, rfl, hle, hlt hh⟩

/-- An edge grown by the scale factor. -/
theorem grown_between (hsqrt : ExactSqrt sqrt) (hw : 0 < w) (hh : 0 < h) :
    ∃ a, a = ⌈(w : K) * sqrt ((8 : ℕ) * (1024 : ℕ) / (w * h)) / 32⌉₊ ∧
      8 * w ≤ a ^ 2 * h ∧ (a - 1) ^ 2 * h < 8 * w ∧ 0 < a := by
  have hw' : (0 : K) < w := Nat.cast_pos.mpr hw
  have hh' : (0 : K) < h := Nat.cast_pos.mpr hh
  have harg : (0 : K) < (8 : ℕ) * (1024 : ℕ) / (w * h) := by positivity
  set beta := sqrt (((8 : ℕ) : K) * (1024 : ℕ) / (w * h)) with hbeta
  have hpos : 0 < beta := hsqrt.pos harg
  have hsquare : beta * beta = (8 : ℕ) * (1024 : ℕ) / (w * h) := hsqrt.mul_self _ harg.le
  have hsq : (w * beta / 32) * (w * beta / 32) * h = ((8 * w : ℕ) : K) := by
    have hsplit : (w * beta / 32) * (w * beta / 32) * h = w * w * h / 1024 * (beta * beta) := by
      ring
    rw [hsplit, hsquare]
    push_cast
    field_simp
  obtain ⟨hle, hlt, hceil⟩ := ceil_between (by positivity) hsq
  exact ⟨_, rfl, hle, hlt hh, hceil⟩

/-- A square that is bounded bounds its side. -/
theorem lt_of_sq_mul_le {a d n side : ℕ} (hd : 0 < d) (h : a ^ 2 * d ≤ n) (hn : n < side ^ 2) :
    a < side := by
  by_contra hle
  have hsquare : side ^ 2 ≤ a ^ 2 := Nat.pow_le_pow_left (by omega) 2
  have := Nat.le_mul_of_pos_right (a ^ 2) hd
  omega

theorem cells_mul (edge : ℕ) : max ((edge + 16) / 32 * 32) 32 = cells edge * 32 := by
  unfold cells
  omega

/-- The resize, with the areas in cells. -/
theorem smartResizeBounded_eq (hwle : w ≤ 2 ^ 26) (hhle : h ≤ 2 ^ 26) :
    smartResizeBounded sqrt .qwen w h maxTokens =
      if ceiling maxTokens < cells w * cells h then
        (max (floorBy (w / sqrt (w * h / (ceiling maxTokens * (1024 : ℕ)))) 32) 32,
          max (floorBy (h / sqrt (w * h / (ceiling maxTokens * (1024 : ℕ)))) 32) 32)
      else if cells w * cells h < 8 then
        (ceilBy (w * sqrt ((8 : ℕ) * (1024 : ℕ) / (w * h))) 32,
          ceilBy (h * sqrt ((8 : ℕ) * (1024 : ℕ) / (w * h))) 32)
      else (cells w * 32, cells h * 32) := by
  have hcells : ∀ edge ≤ 2 ^ 26, max (roundBy ((edge : ℕ) : K) 32) 32 = cells edge * 32 := by
    intro edge hedge
    rw [roundBy_eq (by omega), cells_mul]
  have hedge : ((32 : ℕ) : K) = 32 := Nat.cast_ofNat
  have htoken : ((32 * 32 : ℕ) : K) = (1024 : ℕ) := by norm_num
  have harea : ((cells w * 32 : ℕ) : K) * ((cells h * 32 : ℕ) : K) =
      ((cells w * cells h * 1024 : ℕ) : K) := by
    push_cast
    ring
  have hlarge : (((ceiling maxTokens : ℕ) : K) * ((1024 : ℕ) : K) <
      ((cells w * cells h * 1024 : ℕ) : K)) = (ceiling maxTokens < cells w * cells h) := by
    rw [← Nat.cast_mul, Nat.cast_lt, Nat.mul_lt_mul_right (by decide)]
  have hsmall : (((cells w * cells h * 1024 : ℕ) : K) < ((8 : ℕ) : K) * ((1024 : ℕ) : K)) =
      (cells w * cells h < 8) := by
    rw [← Nat.cast_mul, Nat.cast_lt, Nat.mul_lt_mul_right (by decide)]
  have halign : alignEdge .qwen = 32 := rfl
  have hminimum : MIN_IMAGE_TOKENS = 8 := rfl
  simp only [smartResizeBounded, halign, hminimum, hedge, htoken, hcells w hwle, hcells h hhle,
    harea, hlarge, hsmall]

variable (maxTokens) in
/-- What the resize returns. -/
theorem smartResizeBounded_resized (hsqrt : ExactSqrt sqrt) (hw : 1 ≤ w) (hh : 1 ≤ h)
    (hpixels : w * h ≤ MAX_DECODED_PIXELS) :
    ∃ a b, smartResizeBounded sqrt .qwen w h maxTokens = (a * 32, b * 32) ∧
      Resized (ceiling maxTokens) w h a b := by
  obtain ⟨hlow, hhigh⟩ := ceiling_bounds maxTokens
  have hwle : w ≤ 2 ^ 26 := (Nat.le_mul_of_pos_right w hh).trans hpixels
  have hhle : h ≤ 2 ^ 26 := (Nat.le_mul_of_pos_left h hw).trans hpixels
  rw [smartResizeBounded_eq hwle hhle]
  split
  case isTrue hlarge =>
    obtain ⟨a, ha, hbetween⟩ := shrunk_between hsqrt (show 0 < ceiling maxTokens by omega) hw hh
    obtain ⟨b, hb, hbetween'⟩ := shrunk_between hsqrt (show 0 < ceiling maxTokens by omega) hh hw
    rw [mul_comm (h : K) (w : K)] at hb
    have hasmall : a < 2 ^ 20 := by
      refine lt_of_sq_mul_le hh hbetween.1 ?_
      have := Nat.mul_le_mul hhigh hwle
      omega
    have hbsmall : b < 2 ^ 20 := by
      refine lt_of_sq_mul_le hw hbetween'.1 ?_
      have := Nat.mul_le_mul hhigh hhle
      omega
    refine ⟨max a 1, max b 1, ?_, .shrunk hlarge hbetween hbetween'⟩
    rw [floorBy_eq ha.symm (by omega), floorBy_eq hb.symm (by omega)]
    refine Prod.ext ?_ ?_ <;> dsimp only <;> omega
  case isFalse hlarge =>
    split
    case isTrue hsmall =>
      obtain ⟨a, ha, hbetween⟩ := grown_between hsqrt hw hh
      obtain ⟨b, hb, hbetween'⟩ := grown_between hsqrt hh hw
      rw [mul_comm (h : K) (w : K)] at hb
      have hasmall : a - 1 < 2 ^ 15 := lt_of_sq_mul_le hh hbetween.2.1.le (by omega)
      have hbsmall : b - 1 < 2 ^ 15 := lt_of_sq_mul_le hw hbetween'.2.1.le (by omega)
      refine ⟨a, b, ?_, .grown (by omega) hsmall hbetween hbetween'⟩
      rw [ceilBy_eq ha.symm (by omega), ceilBy_eq hb.symm (by omega)]
    case isFalse hsmall => exact ⟨_, _, rfl, .kept (by omega) (by omega)⟩

/-- The cells of the short side of a grown image. -/
def shortCells (w h : ℕ) : ℕ :=
  if 8 * min w h ≤ max w h then 1 else if 2 * min w h ≤ max w h then 2 else 3

/-- The image's aspect ratio lets its resized grid stay within the budget. -/
structure Fits (budget w h : ℕ) : Prop where
  shrunk : budget < cells w * cells h → budget * max w h < (budget + 1) ^ 2 * min w h
  grown : cells w * cells h < 8 →
    8 * max w h ≤ (budget / shortCells w h) ^ 2 * min w h

theorem Fits.swap {budget : ℕ} (hfits : Fits budget w h) : Fits budget h w := by
  obtain ⟨hshrunk, hgrown⟩ := hfits
  refine ⟨?_, ?_⟩
  · rw [mul_comm, max_comm, min_comm]
    exact hshrunk
  · rw [mul_comm, shortCells, max_comm, min_comm]
    exact hgrown

theorem Resized.swap {budget a b : ℕ} (hres : Resized budget w h a b) :
    Resized budget h w b a := by
  cases hres with
  | kept hmax hmin => exact .kept (by rwa [mul_comm]) (by rwa [mul_comm])
  | shrunk hmax ha hb => exact .shrunk (by rwa [mul_comm]) hb ha
  | grown hmax hmin ha hb => exact .grown (by rwa [mul_comm]) (by rwa [mul_comm]) hb ha

/-- A square times a positive number is monotone in its side. -/
theorem side_le_of_sq_mul_lt {a b d n : ℕ} (hle : a ^ 2 * d ≤ n) (hlt : n < (b + 1) ^ 2 * d) :
    a ≤ b := by
  by_contra hcon
  have hsquare : (b + 1) ^ 2 ≤ a ^ 2 := Nat.pow_le_pow_left (by omega) 2
  have := Nat.mul_le_mul_right d hsquare
  omega

/-- Two shrunk edges are within the budget unless one was raised to a cell. -/
theorem shrunk_edges {budget a b : ℕ} (hw : 0 < w) (hh : 0 < h)
    (ha : a ^ 2 * h ≤ budget * w) (hb : b ^ 2 * w ≤ budget * h) : a * b ≤ budget := by
  have hboth : (a * b) ^ 2 * (w * h) ≤ budget ^ 2 * (w * h) := by
    calc (a * b) ^ 2 * (w * h) = (a ^ 2 * h) * (b ^ 2 * w) := by ring
      _ ≤ (budget * w) * (budget * h) := Nat.mul_le_mul ha hb
      _ = budget ^ 2 * (w * h) := by ring
  have hsquare := Nat.le_of_mul_le_mul_right hboth (Nat.mul_pos hw hh)
  exact (Nat.pow_le_pow_iff_left (by decide)).mp hsquare

/-- A shrunk image is within the budget exactly if its long side is. -/
theorem shrunk_within_iff {budget a b : ℕ} (hbudget : 0 < budget) (hh : 0 < h) (hle : h ≤ w)
    (ha : a ^ 2 * h ≤ budget * w ∧ budget * w < (a + 1) ^ 2 * h)
    (hb : b ^ 2 * w ≤ budget * h ∧ budget * h < (b + 1) ^ 2 * w) :
    max a 1 * max b 1 ≤ budget ↔ budget * w < (budget + 1) ^ 2 * h := by
  have hw : 0 < w := by omega
  constructor
  · intro hwithin
    have ha' : a ≤ budget :=
      (le_max_left a 1).trans ((Nat.le_mul_of_pos_right _ (by omega)).trans hwithin)
    have hsquare : (a + 1) ^ 2 ≤ (budget + 1) ^ 2 := Nat.pow_le_pow_left (by omega) 2
    exact ha.2.trans_le (Nat.mul_le_mul_right h hsquare)
  · intro hratio
    have hlong : a ≤ budget := side_le_of_sq_mul_lt ha.1 hratio
    have hshort : b ≤ budget := by
      refine side_le_of_sq_mul_lt hb.1 ?_
      nlinarith
    rcases Nat.eq_zero_or_pos a with rfl | hapos
    · simpa using ⟨hshort, hbudget⟩
    rcases Nat.eq_zero_or_pos b with rfl | hbpos
    · simpa using ⟨hlong, hbudget⟩
    rw [max_eq_left hapos, max_eq_left hbpos]
    exact shrunk_edges hw hh ha.1 hb.1

/-- The short side of a grown image has at most three cells. -/
theorem short_side {b : ℕ} (hle : h ≤ w)
    (hb : 8 * h ≤ b ^ 2 * w ∧ (b - 1) ^ 2 * w < 8 * h ∧ 0 < b) : b = shortCells w h := by
  obtain ⟨hleast, hbelow, hpos⟩ := hb
  have hbound : b ≤ 3 := by
    by_contra hcon
    have hsquare : 3 ^ 2 ≤ (b - 1) ^ 2 := Nat.pow_le_pow_left (by omega) 2
    have := Nat.mul_le_mul_right w hsquare
    omega
  unfold shortCells
  rw [min_eq_right hle, max_eq_left hle]
  rcases (show b = 1 ∨ b = 2 ∨ b = 3 by omega) with rfl | rfl | rfl
  · rw [if_pos (by omega)]
  · rw [if_neg (by omega), if_pos (by omega)]
  · rw [if_neg (by omega), if_neg (by omega)]

/-- A grown image is within the budget exactly if its long side leaves the
short side its cells. -/
theorem grown_within_iff {budget a b : ℕ} (hle : h ≤ w)
    (ha : 8 * w ≤ a ^ 2 * h ∧ (a - 1) ^ 2 * h < 8 * w ∧ 0 < a)
    (hb : 8 * h ≤ b ^ 2 * w ∧ (b - 1) ^ 2 * w < 8 * h ∧ 0 < b) :
    a * b ≤ budget ↔ 8 * w ≤ (budget / shortCells w h) ^ 2 * h := by
  rw [← short_side hle hb, ← Nat.le_div_iff_mul_le hb.2.2]
  constructor
  · intro hside
    exact ha.1.trans (Nat.mul_le_mul_right h (Nat.pow_le_pow_left hside 2))
  · intro hratio
    by_contra hcon
    have hsquare : (budget / b) ^ 2 ≤ (a - 1) ^ 2 := Nat.pow_le_pow_left (by omega) 2
    have := Nat.mul_le_mul_right h hsquare
    omega

/-- The resized grid is within the budget exactly if the image fits, for an image
that is not higher than wide. -/
theorem Resized.within_iff_of_le {budget a b : ℕ} (hbudget : 8 ≤ budget) (hh : 0 < h)
    (hle : h ≤ w) (hres : Resized budget w h a b) : a * b ≤ budget ↔ Fits budget w h := by
  have hfits : Fits budget w h ↔
      (budget < cells w * cells h → budget * w < (budget + 1) ^ 2 * h) ∧
      (cells w * cells h < 8 → 8 * w ≤ (budget / shortCells w h) ^ 2 * h) := by
    constructor
    · rintro ⟨hshrunk, hgrown⟩
      rw [max_eq_left hle, min_eq_right hle] at hshrunk hgrown
      exact ⟨hshrunk, hgrown⟩
    · rintro ⟨hshrunk, hgrown⟩
      refine ⟨?_, ?_⟩ <;> rw [max_eq_left hle, min_eq_right hle]
      · exact hshrunk
      · exact hgrown
  rw [hfits]
  cases hres with
  | kept hmax hmin =>
    exact ⟨fun _ => ⟨fun hlarge => absurd hmax (by omega), fun hsmall => absurd hmin (by omega)⟩,
      fun _ => hmax⟩
  | shrunk hmax ha hb =>
    rw [shrunk_within_iff (by omega) hh hle ha hb]
    exact ⟨fun hratio => ⟨fun _ => hratio, fun hsmall => absurd hmax (by omega)⟩,
      fun hboth => hboth.1 hmax⟩
  | grown hmax hmin ha hb =>
    rw [grown_within_iff hle ha hb]
    exact ⟨fun hratio => ⟨fun hlarge => absurd hmax (by omega), fun _ => hratio⟩,
      fun hboth => hboth.2 hmin⟩

theorem Resized.within_iff {budget a b : ℕ} (hbudget : 8 ≤ budget) (hw : 0 < w) (hh : 0 < h)
    (hres : Resized budget w h a b) : a * b ≤ budget ↔ Fits budget w h := by
  rcases le_total h w with hle | hle
  · exact hres.within_iff_of_le hbudget hh hle
  · rw [mul_comm, hres.swap.within_iff_of_le hbudget hw hle]
    exact ⟨Fits.swap, Fits.swap⟩

/-- Each edge of the resized grid has a cell, and no grid has 2^20. -/
theorem Resized.bounds {budget a b : ℕ} (hhigh : budget ≤ 4096) (hw : 0 < w) (hh : 0 < h)
    (hwle : w ≤ 2 ^ 26) (hhle : h ≤ 2 ^ 26) (hres : Resized budget w h a b) :
    0 < a ∧ 0 < b ∧ a * b < 2 ^ 20 := by
  cases hres with
  | kept hmax hmin =>
    refine ⟨?_, ?_, by omega⟩ <;> unfold cells <;> omega
  | @shrunk a b hmax ha hb =>
    have hside : ∀ {a d n : ℕ}, 0 < d → n ≤ 2 ^ 26 → a ^ 2 * d ≤ budget * n → a < 2 ^ 20 := by
      intro a d n hd hn hle
      refine lt_of_sq_mul_le hd hle ?_
      have := Nat.mul_le_mul hhigh hn
      omega
    have hasmall := hside hh hwle ha.1
    have hbsmall := hside hw hhle hb.1
    have hprod := shrunk_edges hw hh ha.1 hb.1
    refine ⟨by omega, by omega, ?_⟩
    rcases Nat.eq_zero_or_pos a with rfl | hapos
    · simpa using hbsmall
    rcases Nat.eq_zero_or_pos b with rfl | hbpos
    · simpa using hasmall
    rw [max_eq_left hapos, max_eq_left hbpos]
    omega
  | grown hmax hmin ha hb =>
    have hcells : ∀ edge, 0 < cells edge := fun edge => by unfold cells; omega
    have hedge : ∀ {edge : ℕ}, cells edge < 8 → edge < 256 := by
      intro edge hlt
      unfold cells at hlt
      omega
    have hw8 : w < 256 := hedge ((Nat.le_mul_of_pos_right _ (hcells h)).trans_lt hmin)
    have hh8 : h < 256 := hedge ((Nat.le_mul_of_pos_left _ (hcells w)).trans_lt hmin)
    have hasmall : a - 1 < 46 := lt_of_sq_mul_le hh ha.2.1.le (by omega)
    have hbsmall : b - 1 < 46 := lt_of_sq_mul_le hw hb.2.1.le (by omega)
    refine ⟨ha.2.2, hb.2.2, ?_⟩
    have := Nat.mul_le_mul (show a ≤ 46 by omega) (show b ≤ 46 by omega)
    omega

end Vision
