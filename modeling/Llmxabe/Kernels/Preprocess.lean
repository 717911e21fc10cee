/-
Preprocessing an image for the tower (`xabe-kernels/src/vision/preprocess.rs`
and `vision/mod.rs`).

The image is rescaled into its resized edges, padded to them with black,
normalized and cut into patches.  `Evaluated` names every `u32` expression the
way there evaluates, and `evaluated_lt` bounds them all.
-/
import Llmxabe.Kernels.Resize

namespace Vision

variable {K : Type} [Field K] [LinearOrder K] [IsStrictOrderedRing K] [FloorRing K]

/-- The tower's configuration, with its normalization per channel. -/
structure TowerConfig (K : Type) extends VisionConfig where
  imageMean : ℕ → K
  imageStd : ℕ → K

/-- Sequence position of the patch at a column and a row. -/
def cellOrderIndex (x y patchesW : ℕ) : ℕ :=
  x % 2 + 2 * (y % 2) + 4 * (x / 2) + 2 * patchesW * (y / 2)

/-- A cast to `u8`. -/
def asU8 (x : K) : UInt8 := UInt8.ofNat (min ⌊x⌋₊ 255)

/-- The coordinate below a resized one, with the fraction it leaves. -/
def sampled (K : Type) [Field K] [LinearOrder K] [FloorRing K] (source target i : ℕ) : ℕ × K :=
  let ratio : K := if 1 < target then (source - 1 : ℕ) / (target - 1 : ℕ) else 0
  let p := i * ratio
  (asU32 p, p - asU32 p)

/-- Bilinear resize of interleaved RGB, truncating. -/
def resizeBilinear (K : Type) [Field K] [LinearOrder K] [FloorRing K] (src : List UInt8)
    (sw sh dw dh : ℕ) : List UInt8 :=
  (List.range dh).flatMap fun y =>
    let (y0, yf) := sampled K sh dh y
    let y1 := min (y0 + 1) (sh - 1)
    (List.range dw).flatMap fun x =>
      let (x0, xf) := sampled K sw dw x
      let x1 := min (x0 + 1) (sw - 1)
      (List.range 3).map fun c =>
        let at' (xx yy : ℕ) : K := (src.getD ((yy * sw + xx) * 3 + c) 0).toNat
        let top := at' x0 y0 + (at' x1 y0 - at' x0 y0) * xf
        let bot := at' x0 y1 + (at' x1 y1 - at' x0 y1) * xf
        asU8 (top + (bot - top) * yf)

/-- The image's edges inside the target ones, its aspect kept. -/
def fittedEdges (K : Type) [Field K] [LinearOrder K] [FloorRing K] (w h tw th : ℕ) : ℕ × ℕ :=
  let scale : K := min (tw / w) (th / h)
  (min (asU32 ((⌈w * scale⌉₊ : ℕ) : K)) tw, min (asU32 ((⌈h * scale⌉₊ : ℕ) : K)) th)

/-- The image centred on a black canvas. -/
def canvas (scaled : List UInt8) (newW newH tw th : ℕ) : List UInt8 :=
  let offX := (tw - newW) / 2
  let offY := (th - newH) / 2
  (List.range th).flatMap fun y => (List.range tw).flatMap fun x => (List.range 3).map fun c =>
    if offY ≤ y ∧ y < offY + newH ∧ offX ≤ x ∧ x < offX + newW then
      scaled.getD (((y - offY) * newW + (x - offX)) * 3 + c) 0
    else 0

/-- Patches of an image, and the grid they come from. -/
structure PreprocessedImage (K : Type) where
  patches : List K
  gridH : ℕ
  gridW : ℕ

/-- The normalized patches in cell order. -/
def patchify (cfg : TowerConfig K) (pixels : List UInt8) (tw th : ℕ) : List K :=
  let patch := cfg.patchSize
  let gridW := tw / patch
  let gridH := th / patch
  let patchLen := 3 * patch * patch
  let writes := (List.range gridH).flatMap fun gy => (List.range gridW).flatMap fun gx =>
    (List.range 3).flatMap fun c => (List.range patch).flatMap fun py =>
      (List.range patch).map fun px =>
        let v : K := (pixels.getD (((gy * patch + py) * tw + (gx * patch + px)) * 3 + c) 0).toNat
        (cellOrderIndex gx gy gridW * patchLen + (px + patch * py + patch * patch * c),
          (v / 255 - cfg.imageMean c) / cfg.imageStd c)
  writes.foldl (fun patches write => patches.set write.1 write.2)
    (List.replicate (gridW * gridH * patchLen) 0)

/-- Preprocess an interleaved RGB image of its `w * h * 3` bytes. -/
def preprocessBounded (sqrt : K → K) (cfg : TowerConfig K) (rgb : List UInt8)
    (w h maxTokens : ℕ) : PreprocessedImage K :=
  let (tw, th) := smartResizeBounded sqrt cfg.toVisionConfig w h maxTokens
  let (newW, newH) := fittedEdges K w h tw th
  let scaled := if (newW, newH) = (w, h) then rgb else resizeBilinear K rgb w h newW newH
  ⟨patchify cfg (canvas scaled newW newH tw th) tw th, th / cfg.patchSize, tw / cfg.patchSize⟩

/-! ### Overflow -/

/-- The `u32` expressions that `preprocess_bounded` and its resizes evaluate on
an image whose target and fitted edges are these. -/
inductive Evaluated (K : Type) [Field K] [LinearOrder K] [FloorRing K] (cfg : VisionConfig)
    (w h tw th newW newH : ℕ) : ℕ → Prop where
  | alignEdge : Evaluated K cfg w h tw th newW newH (cfg.patchSize * cfg.spatialMerge)
  | tokenPx : Evaluated K cfg w h tw th newW newH (Vision.alignEdge cfg * Vision.alignEdge cfg)
  | rgbLen : Evaluated K cfg w h tw th newW newH (w * h * 3)
  -- `resize_bilinear`, with `xx` one of `x0`, `x1` and `yy` one of `y0`, `y1`
  | resized : Evaluated K cfg w h tw th newW newH (newW * newH * 3)
  | next {source target i : ℕ} (haxis : (source, target) = (w, newW) ∨ (source, target) = (h, newH))
    (hi : i < target) : Evaluated K cfg w h tw th newW newH ((sampled K source target i).1 + 1)
  | sample {x y c xx yy : ℕ} (hx : x < newW) (hy : y < newH) (hc : c < 3)
    (hxx : xx = (sampled K w newW x).1 ∨ xx = min ((sampled K w newW x).1 + 1) (w - 1))
    (hyy : yy = (sampled K h newH y).1 ∨ yy = min ((sampled K h newH y).1 + 1) (h - 1)) :
    Evaluated K cfg w h tw th newW newH ((yy * w + xx) * 3 + c)
  | drawn {x y c : ℕ} (hx : x < newW) (hy : y < newH) (hc : c < 3) :
    Evaluated K cfg w h tw th newW newH ((y * newW + x) * 3 + c)
  -- the canvas
  | canvasLen : Evaluated K cfg w h tw th newW newH (tw * th * 3)
  | src {y : ℕ} (hy : y < newH) : Evaluated K cfg w h tw th newW newH (y * newW * 3)
  | dst {y : ℕ} (hy : y < newH) : Evaluated K cfg w h tw th newW newH
    (((y + (th - newH) / 2) * tw + (tw - newW) / 2) * 3)
  | row : Evaluated K cfg w h tw th newW newH (newW * 3)
  -- the patches
  | patchLen : Evaluated K cfg w h tw th newW newH (3 * cfg.patchSize * cfg.patchSize)
  | grid : Evaluated K cfg w h tw th newW newH (tw / cfg.patchSize * (th / cfg.patchSize))
  | cellRow : Evaluated K cfg w h tw th newW newH (2 * (tw / cfg.patchSize))
  | cell {gx gy : ℕ} (hx : gx < tw / cfg.patchSize) (hy : gy < th / cfg.patchSize) :
    Evaluated K cfg w h tw th newW newH (cellOrderIndex gx gy (tw / cfg.patchSize))
  | sx {gx px : ℕ} (hx : gx < tw / cfg.patchSize) (hpx : px < cfg.patchSize) :
    Evaluated K cfg w h tw th newW newH (gx * cfg.patchSize + px)
  | sy {gy py : ℕ} (hy : gy < th / cfg.patchSize) (hpy : py < cfg.patchSize) :
    Evaluated K cfg w h tw th newW newH (gy * cfg.patchSize + py)
  | pixel {gx gy px py c : ℕ} (hx : gx < tw / cfg.patchSize) (hy : gy < th / cfg.patchSize)
    (hpx : px < cfg.patchSize) (hpy : py < cfg.patchSize) (hc : c < 3) :
    Evaluated K cfg w h tw th newW newH
      (((gy * cfg.patchSize + py) * tw + (gx * cfg.patchSize + px)) * 3 + c)
  | plane : Evaluated K cfg w h tw th newW newH (cfg.patchSize * cfg.patchSize)
  | offset {px py c : ℕ} (hpx : px < cfg.patchSize) (hpy : py < cfg.patchSize) (hc : c < 3) :
    Evaluated K cfg w h tw th newW newH
      (px + cfg.patchSize * py + cfg.patchSize * cfg.patchSize * c)

/-- A channel of a pixel lies inside of its image. -/
theorem interleaved_lt {w h x y c : ℕ} (hx : x < w) (hy : y < h) (hc : c < 3) :
    (y * w + x) * 3 + c < w * h * 3 := by
  have hrow : (y + 1) * w ≤ h * w := Nat.mul_le_mul_right w hy
  rw [Nat.succ_mul, mul_comm h] at hrow
  omega

/-- A resized coordinate is one of the source. -/
theorem sampled_le (source : ℕ) {target i : ℕ} (hi : i < target) :
    (sampled K source target i).1 ≤ source - 1 := by
  have hfloor : ⌊(i : K) * (if 1 < target then ((source - 1 : ℕ) : K) / (target - 1 : ℕ) else 0)⌋₊ ≤
      source - 1 := by
    refine Nat.floor_le_of_le ?_
    split
    case isTrue htarget =>
      have hpos : (0 : K) < (target - 1 : ℕ) := Nat.cast_pos.mpr (by omega)
      have hlast : (i : K) ≤ (target - 1 : ℕ) := Nat.cast_le.mpr (by omega)
      have hnonneg : (0 : K) ≤ (source - 1 : ℕ) := Nat.cast_nonneg _
      calc (i : K) * (((source - 1 : ℕ) : K) / (target - 1 : ℕ))
          ≤ (target - 1 : ℕ) * (((source - 1 : ℕ) : K) / (target - 1 : ℕ)) := by gcongr
        _ = (source - 1 : ℕ) := mul_div_cancel₀ _ hpos.ne'
    case isFalse => simp
  unfold sampled asU32
  dsimp only
  omega

/-- A patch's place in the sequence is one of the grid's. -/
theorem cellOrderIndex_lt {x y a b : ℕ} (hx : x < 2 * a) (hy : y < 2 * b) :
    cellOrderIndex x y (2 * a) < 2 * a * (2 * b) := by
  have hrow : 4 * a * (y / 2 + 1) ≤ 4 * a * b := Nat.mul_le_mul_left (4 * a) (by omega)
  have hgrid : 2 * a * (2 * b) = 4 * a * b := by ring
  have hcells : 2 * (2 * a) * (y / 2) = 4 * a * (y / 2) := by ring
  rw [Nat.mul_succ] at hrow
  unfold cellOrderIndex
  rw [hgrid, hcells]
  omega

/-- No expression overflows on edges whose product is small. -/
theorem evaluated_lt {w h a b newW newH v : ℕ} (hw : 0 < w) (hh : 0 < h)
    (hpixels : w * h ≤ MAX_DECODED_PIXELS) (ha : 0 < a) (hb : 0 < b) (hcells : a * b < 2 ^ 20)
    (hnewW : newW ≤ a * 32) (hnewH : newH ≤ b * 32)
    (hv : Evaluated K .qwen w h (a * 32) (b * 32) newW newH v) : v < 2 ^ 32 := by
  have hwle : w ≤ w * h := Nat.le_mul_of_pos_right w hh
  have hhle : h ≤ w * h := Nat.le_mul_of_pos_left h hw
  have hcap : MAX_DECODED_PIXELS = 2 ^ 26 := by decide
  have hpatch : VisionConfig.qwen.patchSize = 16 := rfl
  have hgridW : a * 32 / 16 = 2 * a := by omega
  have hgridH : b * 32 / 16 = 2 * b := by omega
  have hcanvas : a * 32 * (b * 32) = a * b * 1024 := by ring
  have hfitted : newW * newH ≤ a * 32 * (b * 32) := Nat.mul_le_mul hnewW hnewH
  have hale : a ≤ a * b := Nat.le_mul_of_pos_right a hb
  have hble : b ≤ a * b := Nat.le_mul_of_pos_left b ha
  cases hv with
  -- constants of the tower
  | alignEdge | tokenPx | patchLen | plane => decide
  | rgbLen | resized | canvasLen | row => omega
  | @next source target i haxis hi =>
    have := sampled_le (K := K) source hi
    rcases haxis with heq | heq <;> rw [Prod.mk.injEq] at heq <;> omega
  -- a source sample is within the image, which was capped before it was decoded
  | @sample x y c xx yy hx hy hc hxx hyy =>
    have hxle := sampled_le (K := K) w hx
    have hyle := sampled_le (K := K) h hy
    have := interleaved_lt (show xx < w by omega) (show yy < h by omega) hc
    omega
  | drawn hx hy hc =>
    have := interleaved_lt hx hy hc
    omega
  -- rows of the fitted image, and of the canvas around it
  | @src y hy =>
    have hrow : y * newW ≤ newH * newW := Nat.mul_le_mul_right newW hy.le
    rw [mul_comm newH] at hrow
    omega
  | @dst y hy =>
    have := interleaved_lt (show (a * 32 - newW) / 2 < a * 32 by omega)
      (show y + (b * 32 - newH) / 2 < b * 32 by omega) (show 0 < 3 by decide)
    omega
  -- from here on: cells and pixels of the canvas, which has `a * b * 1024` of them
  | grid =>
    rw [hpatch, hgridW, hgridH]
    have hgrid : 2 * a * (2 * b) = a * b * 4 := by ring
    omega
  | cellRow =>
    rw [hpatch, hgridW]
    omega
  | cell hx hy =>
    rw [hpatch, hgridW] at hx ⊢
    rw [hpatch, hgridH] at hy
    have hgrid : 2 * a * (2 * b) = a * b * 4 := by ring
    have := cellOrderIndex_lt hx hy
    omega
  | sx hx hpx =>
    rw [hpatch] at hx hpx ⊢
    omega
  | sy hy hpy =>
    rw [hpatch] at hy hpy ⊢
    omega
  | @pixel gx gy px py c hx hy hpx hpy hc =>
    rw [hpatch] at hx hy hpx hpy ⊢
    have := interleaved_lt (show gx * 16 + px < a * 32 by omega)
      (show gy * 16 + py < b * 32 by omega) hc
    omega
  | offset hpx hpy hc =>
    rw [hpatch] at hpx hpy ⊢
    omega

end Vision
