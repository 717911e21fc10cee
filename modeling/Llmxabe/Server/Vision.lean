/-
Expanding image markers into the spans the engine consumes
(`xabe-server/src/http/vision.rs`).

Each pad token of the prompt becomes one pad per merged patch of its image
(`expandImages`).  The hash of an image's content is a parameter.

* `token_ceiling_iff`: every placement is within the configured ceiling exactly
  if the images placed fit it; edges are aligned and nothing overflows anyway.
-/
import Llmxabe.Kernels.Preprocess
import Llmxabe.Runtime.Sequence
import Llmxabe.Server.Chat

namespace Vision

variable {K : Type} [Field K] [LinearOrder K] [IsStrictOrderedRing K] [FloorRing K]

/-- The dialect an error is spelled in. -/
inductive Dialect where
  | openAi
  | anthropic
  deriving DecidableEq, Repr

/-- An error that is sent to the client. -/
structure ApiError where
  status : ℕ
  message : String
  dialect : Dialect
  deriving DecidableEq, Repr

/-- The client's fault. -/
def ApiError.badRequest (dialect : Dialect) (message : String) : ApiError := ⟨400, message, dialect⟩

/-- The resolved serving state. -/
structure VisionServing (K : Type) where
  config : TowerConfig K
  maxTokens : ℕ
  imagePad : ℕ

/-- An image and its place in the prompt. -/
structure SequenceImage (K : Type) where
  placement : ImagePlacement
  image : PreprocessedImage K

/-- The error for images on a server that has no vision tower. -/
def visionDisabled (dialect : Dialect) : ApiError :=
  .badRequest dialect ("this request carries images, but the server was started without a vision " ++
    "projector; restart it with --mmproj <path> to enable image input")

/-- The error for more pads than images. -/
def tooManyMarkers (dialect : Dialect) (sent : ℕ) : ApiError :=
  .badRequest dialect ("the prompt contains more `<|image_pad|>` markers than images (" ++
    toString sent ++ " sent); literal `<|image_pad|>` text is not supported alongside image parts")

/-- The loop's state; `next` is the image the next pad stands for. -/
structure Expansion (K : Type) where
  expanded : List ℕ
  sequenceImages : List (SequenceImage K)
  next : ℕ

variable (sqrt : K → K) (contentHash : PreprocessedImage K → ℕ)

/-- An image in the place of its pad. -/
def placeImage (vision : VisionServing K) (image : DecodedImage) (start : ℕ) : SequenceImage K :=
  let preprocessed :=
    preprocessBounded sqrt vision.config image.rgb image.width image.height vision.maxTokens
  let merge := vision.config.spatialMerge
  ⟨⟨start, preprocessed.gridH / merge, preprocessed.gridW / merge, contentHash preprocessed⟩,
    preprocessed⟩

/-- One token more; a pad becomes the span of the next image. -/
def expandToken (vision : VisionServing K) (dialect : Dialect) (images : List DecodedImage)
    (state : Expansion K) (token : ℕ) : Except ApiError (Expansion K) :=
  -- any other token stays as it is
  if token ≠ vision.imagePad then
    .ok { state with expanded := state.expanded ++ [token] }
  else
    match images[state.next]? with
    | none => .error (tooManyMarkers dialect images.length)
    | some image =>
      -- the span starts where the expansion has got to
      let placed := placeImage sqrt contentHash vision image state.expanded.length
      .ok ⟨state.expanded ++ List.replicate placed.placement.tokens token,
        state.sequenceImages ++ [placed], state.next + 1⟩

/-- Expand each pad token into one pad per merged patch and pair it with its image. -/
def expandImages (vision : Option (VisionServing K)) (dialect : Dialect) (tokens : List ℕ)
    (images : List DecodedImage) : Except ApiError (List ℕ × List (SequenceImage K)) :=
  if images = [] then .ok (tokens, [])
  else
    match vision with
    | none => .error (visionDisabled dialect)
    | some vision => do
      let done ← tokens.foldlM (expandToken sqrt contentHash vision dialect images) ⟨[], [], 0⟩
      return (done.expanded, done.sequenceImages)

/-- What a decoded image is known by. -/
structure Decoded (image : DecodedImage) : Prop where
  width_pos : 1 ≤ image.width
  height_pos : 1 ≤ image.height
  pixels : image.width * image.height ≤ MAX_DECODED_PIXELS
  rgb : image.rgb.length = image.width * image.height * 3

/-- What the serving limit promises of an image. -/
structure CeilingHolds (w h maxTokens : ℕ) : Prop where
  aligned : ∀ edge ∈ [(smartResizeBounded sqrt .qwen w h maxTokens).1,
    (smartResizeBounded sqrt .qwen w h maxTokens).2], 0 < edge ∧ alignEdge .qwen ∣ edge
  within : (smartResizeBounded sqrt .qwen w h maxTokens).1 / 32 *
    ((smartResizeBounded sqrt .qwen w h maxTokens).2 / 32) ≤ ceiling maxTokens
  no_overflow : ∀ tw th newW newH v, smartResizeBounded sqrt .qwen w h maxTokens = (tw, th) →
    fittedEdges K w h tw th = (newW, newH) → Evaluated K .qwen w h tw th newW newH v → v < 2 ^ 32

variable {sqrt contentHash} {vision : VisionServing K} {dialect : Dialect} {tokens : List ℕ}
  {images : List DecodedImage} {w h maxTokens : ℕ}

/-- No expression on the way to the tower overflows. -/
theorem no_overflow (hsqrt : ExactSqrt sqrt) (hw : 1 ≤ w) (hh : 1 ≤ h)
    (hpixels : w * h ≤ MAX_DECODED_PIXELS) {tw th newW newH v : ℕ}
    (hedges : smartResizeBounded sqrt .qwen w h maxTokens = (tw, th))
    (hfitted : fittedEdges K w h tw th = (newW, newH))
    (hv : Evaluated K .qwen w h tw th newW newH v) : v < 2 ^ 32 := by
  obtain ⟨a, b, heq, hres⟩ := smartResizeBounded_resized maxTokens hsqrt hw hh hpixels
  have hwle : w ≤ 2 ^ 26 := (Nat.le_mul_of_pos_right w hh).trans hpixels
  have hhle : h ≤ 2 ^ 26 := (Nat.le_mul_of_pos_left h hw).trans hpixels
  obtain ⟨ha, hb, hcells⟩ := hres.bounds (ceiling_bounds maxTokens).2 hw hh hwle hhle
  rw [heq] at hedges
  obtain ⟨rfl, rfl⟩ := Prod.mk.inj hedges
  obtain ⟨rfl, rfl⟩ := Prod.mk.inj hfitted
  exact evaluated_lt hw hh hpixels ha hb hcells (min_le_right _ _) (min_le_right _ _) hv

/-- The edges an image is resized to are positive multiples of the alignment edge. -/
theorem edges_aligned (hsqrt : ExactSqrt sqrt) (hw : 1 ≤ w) (hh : 1 ≤ h)
    (hpixels : w * h ≤ MAX_DECODED_PIXELS) :
    ∀ edge ∈ [(smartResizeBounded sqrt .qwen w h maxTokens).1,
      (smartResizeBounded sqrt .qwen w h maxTokens).2], 0 < edge ∧ alignEdge .qwen ∣ edge := by
  obtain ⟨a, b, heq, hres⟩ := smartResizeBounded_resized maxTokens hsqrt hw hh hpixels
  have hwle : w ≤ 2 ^ 26 := (Nat.le_mul_of_pos_right w hh).trans hpixels
  have hhle : h ≤ 2 ^ 26 := (Nat.le_mul_of_pos_left h hw).trans hpixels
  obtain ⟨ha, hb, -⟩ := hres.bounds (ceiling_bounds maxTokens).2 hw hh hwle hhle
  rw [heq]
  intro edge hedge
  rcases List.mem_pair.mp hedge with rfl | rfl
  · exact ⟨by omega, Dvd.intro_left a rfl⟩
  · exact ⟨by omega, Dvd.intro_left b rfl⟩

/-- The merged grid is within the ceiling exactly if the image fits. -/
theorem grid_within_iff (hsqrt : ExactSqrt sqrt) (hw : 1 ≤ w) (hh : 1 ≤ h)
    (hpixels : w * h ≤ MAX_DECODED_PIXELS) :
    (smartResizeBounded sqrt .qwen w h maxTokens).1 / 32 *
      ((smartResizeBounded sqrt .qwen w h maxTokens).2 / 32) ≤ ceiling maxTokens ↔
      Fits (ceiling maxTokens) w h := by
  obtain ⟨a, b, heq, hres⟩ := smartResizeBounded_resized maxTokens hsqrt hw hh hpixels
  rw [heq, ← hres.within_iff (ceiling_bounds maxTokens).1 hw hh]
  dsimp only
  rw [Nat.mul_div_cancel a (by decide), Nat.mul_div_cancel b (by decide)]

theorem ceilingHolds_iff (hsqrt : ExactSqrt sqrt) (hw : 1 ≤ w) (hh : 1 ≤ h)
    (hpixels : w * h ≤ MAX_DECODED_PIXELS) :
    CeilingHolds sqrt w h maxTokens ↔ Fits (ceiling maxTokens) w h := by
  constructor
  · intro hholds
    exact (grid_within_iff hsqrt hw hh hpixels).mp hholds.within
  · intro hfits
    exact ⟨edges_aligned hsqrt hw hh hpixels, (grid_within_iff hsqrt hw hh hpixels).mpr hfits,
      fun _ _ _ _ _ => no_overflow hsqrt hw hh hpixels⟩

omit [IsStrictOrderedRing K] in
/-- A placement has as many tokens as the merged grid. -/
theorem placeImage_tokens (hconfig : vision.config.toVisionConfig = .qwen) (image : DecodedImage)
    (start : ℕ) :
    (placeImage sqrt contentHash vision image start).placement.tokens =
      (smartResizeBounded sqrt .qwen image.width image.height vision.maxTokens).1 / 32 *
        ((smartResizeBounded sqrt .qwen image.width image.height vision.maxTokens).2 / 32) := by
  simp only [placeImage, preprocessBounded, ImagePlacement.tokens, hconfig,
    Nat.div_div_eq_div_mul]
  exact mul_comm _ _

/-- The images behind the placements, one by one. -/
structure Expansion.Placed (sqrt : K → K) (contentHash : PreprocessedImage K → ℕ)
    (vision : VisionServing K) (images : List DecodedImage) (state : Expansion K) : Prop where
  next : state.next = state.sequenceImages.length
  placed : List.Forall₂ (fun image placed => ∃ start,
    placed = placeImage sqrt contentHash vision image start) (images.take state.next)
    state.sequenceImages

omit [IsStrictOrderedRing K] in
theorem expandToken_placed {state state' : Expansion K} {token : ℕ}
    (hstate : state.Placed sqrt contentHash vision images)
    (h : expandToken sqrt contentHash vision dialect images state token = .ok state') :
    state'.Placed sqrt contentHash vision images := by
  obtain ⟨hnext, hplaced⟩ := hstate
  unfold expandToken at h
  split at h
  case isTrue =>
    cases h
    exact ⟨hnext, hplaced⟩
  case isFalse =>
    split at h
    case h_1 => cases h
    case h_2 image himage =>
      cases h
      refine ⟨by simp [hnext], ?_⟩
      dsimp only
      rw [List.take_add_one, himage]
      exact List.rel_append hplaced (.cons ⟨_, rfl⟩ .nil)

omit [IsStrictOrderedRing K] in
/-- What is placed are the images the prompt's pads stand for. -/
theorem expandImages_placed {expanded : List ℕ} {placed : List (SequenceImage K)}
    (h : expandImages sqrt contentHash (some vision) dialect tokens images =
      .ok (expanded, placed)) :
    List.Forall₂ (fun image placed => ∃ start,
      placed = placeImage sqrt contentHash vision image start) (images.take placed.length)
      placed := by
  unfold expandImages at h
  split at h
  case isTrue =>
    cases h
    simp
  case isFalse =>
    obtain ⟨done, hdone, hrest⟩ := Except.bind_eq_ok_iff.mp h
    cases hrest
    have hrun : done.Placed sqrt contentHash vision images :=
      foldlM_invariant (fun _ _ _ hstate hstep => expandToken_placed hstate hstep) ⟨rfl, .nil⟩ hdone
    rw [← hrun.next]
    exact hrun.placed

/-- In a request the ceiling holds of every placement exactly if every image
placed fits it. -/
theorem placements_within_iff (hsqrt : ExactSqrt sqrt)
    (hconfig : vision.config.toVisionConfig = .qwen) (hdecoded : ∀ image ∈ images, Decoded image)
    {expanded : List ℕ} {placed : List (SequenceImage K)}
    (h : expandImages sqrt contentHash (some vision) dialect tokens images =
      .ok (expanded, placed)) :
    (∀ s ∈ placed, s.placement.tokens ≤ ceiling vision.maxTokens) ↔
      ∀ image ∈ images.take placed.length,
        Fits (ceiling vision.maxTokens) image.width image.height := by
  have hall := expandImages_placed h
  have hthese : ∀ image ∈ images.take placed.length, Decoded image :=
    fun image himage => hdecoded image (List.mem_of_mem_take himage)
  clear h
  generalize images.take placed.length = shown at hall hthese
  induction hall with
  | nil => simp
  | @cons image s shown placed hs hall ih =>
    obtain ⟨start, rfl⟩ := hs
    obtain ⟨hwidth, hheight, hpixels, -⟩ := hthese image List.mem_cons_self
    rw [List.forall_mem_cons, List.forall_mem_cons, placeImage_tokens hconfig,
      grid_within_iff hsqrt hwidth hheight hpixels]
    exact and_congr_right' (ih fun other hother => hthese other (List.mem_cons_of_mem image hother))

/-- On one whole, the ceiling holds exactly of the images that fit it: of the
resize, and of every request that places them. -/
theorem token_ceiling_iff (hsqrt : ExactSqrt sqrt) (hw : 1 ≤ w) (hh : 1 ≤ h)
    (hpixels : w * h ≤ MAX_DECODED_PIXELS) (hconfig : vision.config.toVisionConfig = .qwen)
    (hdecoded : ∀ image ∈ images, Decoded image) {expanded : List ℕ}
    {placed : List (SequenceImage K)}
    (hexpand : expandImages sqrt contentHash (some vision) dialect tokens images =
      .ok (expanded, placed)) :
    (CeilingHolds sqrt w h maxTokens ↔ Fits (ceiling maxTokens) w h) ∧
      ((∀ s ∈ placed, s.placement.tokens ≤ ceiling vision.maxTokens) ↔
        ∀ image ∈ images.take placed.length,
          Fits (ceiling vision.maxTokens) image.width image.height) ∧
      (∀ edge ∈ [(smartResizeBounded sqrt .qwen w h maxTokens).1,
        (smartResizeBounded sqrt .qwen w h maxTokens).2], 0 < edge ∧ alignEdge .qwen ∣ edge) ∧
      ∀ tw th newW newH v, smartResizeBounded sqrt .qwen w h maxTokens = (tw, th) →
        fittedEdges K w h tw th = (newW, newH) → Evaluated K .qwen w h tw th newW newH v →
          v < 2 ^ 32 :=
  ⟨ceilingHolds_iff hsqrt hw hh hpixels, placements_within_iff hsqrt hconfig hdecoded hexpand,
    edges_aligned hsqrt hw hh hpixels, fun _ _ _ _ _ => no_overflow hsqrt hw hh hpixels⟩

theorem exactSqrt_real : ExactSqrt Real.sqrt := ⟨Real.sqrt_nonneg, fun _ => Real.mul_self_sqrt⟩

/-- The tower over the reals. -/
noncomputable def realServing (maxTokens : ℕ) : VisionServing ℝ :=
  ⟨⟨.qwen, fun _ => 0.5, fun _ => 0.5⟩, maxTokens, 7⟩

omit [IsStrictOrderedRing K] in
theorem expandImages_one (image : DecodedImage) (vision : VisionServing K) :
    expandImages sqrt contentHash (some vision) .openAi [vision.imagePad] [image] =
      .ok (List.replicate (placeImage sqrt contentHash vision image 0).placement.tokens
        vision.imagePad, [placeImage sqrt contentHash vision image 0]) := by
  simp [expandImages, expandToken]

/-- A gray image of nine tokens. -/
def grayImage : DecodedImage := ⟨List.replicate (96 * 96 * 3) 128, 96, 96⟩

theorem grayImage_decoded : ∀ image ∈ [grayImage], Decoded image := by
  rw [List.forall_mem_singleton]
  exact ⟨by decide, by decide, by decide, List.length_replicate⟩

theorem token_ceiling_witness :
    CeilingHolds Real.sqrt 96 96 64 ∧
      (placeImage Real.sqrt (fun _ => 0) (realServing 64) grayImage 0).placement.tokens ≤ 64 := by
  have hfits : Fits (ceiling 64) 96 96 := ⟨by decide, by decide⟩
  obtain ⟨hceiling, hplaced, -⟩ := token_ceiling_iff (w := 96) (h := 96) exactSqrt_real (by decide)
    (by decide) (by decide) (show (realServing 64).config.toVisionConfig = .qwen from rfl)
    grayImage_decoded (expandImages_one grayImage (realServing 64))
  refine ⟨hceiling.mpr hfits, ?_⟩
  exact hplaced.mpr (List.forall_mem_singleton.mpr hfits) _ List.mem_cons_self

/-- A small square image is grown past a low ceiling: 64 by 64 becomes nine tokens
where eight are allowed. -/
theorem small_image_over_ceiling : ¬ CeilingHolds Real.sqrt 64 64 8 := by
  rw [ceilingHolds_iff exactSqrt_real (by decide) (by decide) (by decide)]
  rintro ⟨-, hgrown⟩
  exact absurd (hgrown (by decide)) (by decide)

end Vision
