/-
The spans of a prompt's images (`xabe-server/src/http/vision.rs`).

`widened` is the prompt with its pads replaced, the first by as many pads as the first width
says, and so on.  While pads are left to expand, the prompt so far is widened by the images
placed, and each of them starts where its own pad was (`Expansion.Spread`).

* `expandImages_spans`: what a prompt with one pad for each image becomes, and what
  `expandedTokenCount` says of it without looking at a pixel.
-/
import Llmxabe.Server.Vision

namespace Vision

variable {K : Type} [Field K] [LinearOrder K] [IsStrictOrderedRing K] [FloorRing K]

/-- The tokens of a grid of patches. -/
def VisionConfig.outputTokens (cfg : VisionConfig) (gridH gridW : ℕ) : ℕ :=
  gridH * gridW / (cfg.spatialMerge * cfg.spatialMerge)

/-- The tokens of an image, from its edges alone. -/
def pricedTokens (sqrt : K → K) (vision : VisionServing K) (image : DecodedImage) : ℕ :=
  let (width, height) := smartResizeBounded sqrt vision.config.toVisionConfig image.width
    image.height vision.maxTokens
  let patch := vision.config.patchSize
  vision.config.outputTokens (height / patch) (width / patch)

/-- The token count `expandImages` would produce, without preprocessing any pixels. -/
def expandedTokenCount (sqrt : K → K) (vision : Option (VisionServing K)) (dialect : Dialect)
    (tokenCount : ℕ) (images : List DecodedImage) : Except ApiError ℕ :=
  if images = [] then .ok tokenCount
  else
    match vision with
    | none => .error (visionDisabled dialect)
    | some vision =>
      -- the single rendered pad becomes one pad per merged patch
      .ok (images.foldl (fun count image => count + (pricedTokens sqrt vision image - 1)) tokenCount)

variable {sqrt : K → K} {contentHash : PreprocessedImage K → ℕ} {vision : VisionServing K}
  {dialect : Dialect} {tokens : List ℕ} {images : List DecodedImage} {state : Expansion K}

/-- The tokens with their pads replaced, each by as many pads as its width says. -/
def widened (pad : ℕ) : List ℕ → List ℕ → List ℕ
  | _, [] => []
  | widths, token :: tokens =>
    if token = pad then List.replicate (widths.headD 0) pad ++ widened pad widths.tail tokens
    else token :: widened pad widths tokens

section Widened

variable {pad token : ℕ} {widths more before after : List ℕ}

@[simp] theorem widened_nil : widened pad widths [] = [] := rfl

theorem widened_pad : widened pad widths (pad :: after) =
    List.replicate (widths.headD 0) pad ++ widened pad widths.tail after := by
  rw [widened, if_pos rfl]

theorem widened_token (htoken : token ≠ pad) :
    widened pad widths (token :: after) = token :: widened pad widths after := by
  rw [widened, if_neg htoken]

theorem widened_append : widened pad widths (before ++ after) =
    widened pad widths before ++ widened pad (widths.drop (before.count pad)) after := by
  induction before generalizing widths with
  | nil => rfl
  | cons token before ih =>
    by_cases htoken : token = pad
    · subst htoken
      rw [List.cons_append, widened_pad, widened_pad, ih, List.count_cons_self, List.drop_tail,
        List.append_assoc]
    · rw [List.cons_append, widened_token htoken, widened_token htoken, ih,
        List.count_cons_of_ne htoken, List.cons_append]

/-- Only the widths of the pads there are count. -/
theorem widened_widths (h : before.count pad ≤ widths.length) :
    widened pad (widths ++ more) before = widened pad widths before := by
  induction before generalizing widths with
  | nil => rfl
  | cons token before ih =>
    by_cases htoken : token = pad
    · subst htoken
      rw [List.count_cons_self] at h
      cases widths with
      | nil => simp at h
      | cons width widths =>
        rw [widened_pad, widened_pad, List.cons_append, List.tail_cons, List.tail_cons,
          ih (Nat.le_of_succ_le_succ h)]
        rfl
    · rw [List.count_cons_of_ne htoken] at h
      rw [widened_token htoken, widened_token htoken, ih h]

end Widened

/-- How many tokens each image takes. -/
def widths (placed : List (SequenceImage K)) : List ℕ := placed.map (·.placement.tokens)

/-- Each image is where its pad was: it starts where the expansion of the tokens before its pad
ends. -/
def InPlace (sqrt : K → K) (contentHash : PreprocessedImage K → ℕ) (vision : VisionServing K)
    (images : List DecodedImage) (tokens : List ℕ) (placed : List (SequenceImage K)) : Prop :=
  ∀ before after, tokens = before ++ vision.imagePad :: after → ∃ image,
    images[before.count vision.imagePad]? = some image ∧
    placed[before.count vision.imagePad]? = some (placeImage sqrt contentHash vision image
      (widened vision.imagePad (widths placed) before).length)

omit [IsStrictOrderedRing K] in
/-- A token that is no pad has no image. -/
theorem InPlace.token {placed : List (SequenceImage K)}
    (h : InPlace sqrt contentHash vision images tokens placed) {token : ℕ}
    (htoken : token ≠ vision.imagePad) :
    InPlace sqrt contentHash vision images (tokens ++ [token]) placed := by
  intro before after hsplit
  rcases List.eq_nil_or_concat after with rfl | ⟨rest, last, rfl⟩
  · obtain ⟨-, hlast⟩ := List.append_inj' hsplit rfl
    exact absurd (List.singleton_inj.mp hlast) htoken
  · rw [List.concat_eq_append, ← List.cons_append, ← List.append_assoc] at hsplit
    exact h before rest (List.append_inj' hsplit rfl).1

omit [IsStrictOrderedRing K] in
/-- The image of one more pad starts where the expansion so far ends. -/
theorem InPlace.pad {placed : List (SequenceImage K)}
    (h : InPlace sqrt contentHash vision images tokens placed)
    (hnext : placed.length = tokens.count vision.imagePad) {image : DecodedImage}
    (himage : images[placed.length]? = some image) :
    InPlace sqrt contentHash vision images (tokens ++ [vision.imagePad])
      (placed ++ [placeImage sqrt contentHash vision image
        (widened vision.imagePad (widths placed) tokens).length]) := by
  intro before after hsplit
  have hwiden : ∀ s (earlier : List ℕ), earlier.count vision.imagePad ≤ placed.length →
      widened vision.imagePad (widths (placed ++ [s])) earlier =
        widened vision.imagePad (widths placed) earlier := by
    intro s earlier hearlier
    rw [widths, List.map_append]
    exact widened_widths (by simpa using hearlier)
  rcases List.eq_nil_or_concat after with rfl | ⟨rest, last, rfl⟩
  · -- the pad is the last one
    obtain ⟨rfl, -⟩ := List.append_inj' hsplit rfl
    refine ⟨image, by rw [← hnext, himage], ?_⟩
    rw [hwiden _ tokens hnext.ge, ← hnext, List.getElem?_concat_length]
  · -- the pad is an earlier one, whose image stays where it is
    rw [List.concat_eq_append, ← List.cons_append, ← List.append_assoc] at hsplit
    obtain ⟨rfl, -⟩ := List.append_inj' hsplit rfl
    obtain ⟨earlier, hearlier, hplaced⟩ := h before rest rfl
    have hbefore : before.count vision.imagePad < placed.length := by
      rw [hnext, List.count_append, List.count_cons_self]
      omega
    refine ⟨earlier, hearlier, ?_⟩
    rw [hwiden _ before hbefore.le, List.getElem?_append_left hbefore, hplaced]

/-- Where the loop stands behind some tokens. -/
structure Expansion.Spread (sqrt : K → K) (contentHash : PreprocessedImage K → ℕ)
    (vision : VisionServing K) (images : List DecodedImage) (tokens : List ℕ)
    (state : Expansion K) : Prop where
  placed : state.Placed sqrt contentHash vision images
  next : state.next = tokens.count vision.imagePad
  expands : state.expanded = widened vision.imagePad (widths state.sequenceImages) tokens
  inPlace : InPlace sqrt contentHash vision images tokens state.sequenceImages
  inside : ∀ s ∈ state.sequenceImages,
    s.placement.finish ≤ state.expanded.length
  filled : ∀ s ∈ state.sequenceImages,
    (state.expanded.drop s.placement.start).take s.placement.tokens =
      List.replicate s.placement.tokens vision.imagePad
  sorted : state.sequenceImages.Pairwise fun s s' =>
    s.placement.finish ≤ s'.placement.start
  length : state.expanded.length + state.next =
    tokens.length + (state.sequenceImages.map (·.placement.tokens)).sum

omit [IsStrictOrderedRing K] in
theorem Expansion.Spread.nil :
    Expansion.Spread sqrt contentHash vision images [] ⟨[], [], 0⟩ :=
  ⟨⟨rfl, .nil⟩, rfl, rfl, fun _ _ h => absurd h.symm (by simp),
    fun _ h => absurd h List.not_mem_nil, fun _ h => absurd h List.not_mem_nil, .nil, rfl⟩

/-- A span stays what it is when more tokens follow. -/
theorem span_append {expanded more : List ℕ} {start n : ℕ} (h : start + n ≤ expanded.length) :
    ((expanded ++ more).drop start).take n = (expanded.drop start).take n := by
  rw [List.drop_append_of_le_length (by omega), List.take_append_of_le_length]
  rw [List.length_drop]
  omega

omit [IsStrictOrderedRing K] in
/-- A token that is no pad stays. -/
theorem Expansion.Spread.token (h : state.Spread sqrt contentHash vision images tokens) {token : ℕ}
    (htoken : token ≠ vision.imagePad) :
    Expansion.Spread sqrt contentHash vision images (tokens ++ [token])
      { state with expanded := state.expanded ++ [token] } := by
  refine ⟨⟨h.placed.next, h.placed.placed⟩, ?_, ?_, h.inPlace.token htoken, ?_, ?_, h.sorted, ?_⟩
  · show state.next = (tokens ++ [token]).count vision.imagePad
    rw [List.count_append, List.count_singleton, if_neg (by simpa using htoken), h.next, Nat.add_zero]
  · show state.expanded ++ [token] = _
    rw [widened_append, ← h.expands, widened_token htoken, widened_nil]
  · intro s hs
    have hinside := h.inside s hs
    show _ ≤ (state.expanded ++ [token]).length
    rw [List.length_append]
    omega
  · intro s hs
    exact (span_append (h.inside s hs)).trans (h.filled s hs)
  · have hlength := h.length
    show (state.expanded ++ [token]).length + state.next =
      (tokens ++ [token]).length + (state.sequenceImages.map (·.placement.tokens)).sum
    rw [List.length_append, List.length_append, List.length_singleton]
    omega

omit [IsStrictOrderedRing K] in
/-- A pad becomes the span of the next image. -/
theorem Expansion.Spread.pad (h : state.Spread sqrt contentHash vision images tokens)
    {image : DecodedImage} (himage : images[state.next]? = some image) :
    Expansion.Spread sqrt contentHash vision images (tokens ++ [vision.imagePad])
      ⟨state.expanded ++ List.replicate
          (placeImage sqrt contentHash vision image state.expanded.length).placement.tokens
          vision.imagePad,
        state.sequenceImages ++ [placeImage sqrt contentHash vision image state.expanded.length],
        state.next + 1⟩ := by
  set placed := placeImage sqrt contentHash vision image state.expanded.length with hplaced
  have hstart : placed.placement.start = state.expanded.length := rfl
  obtain ⟨hnext, hall⟩ := h.placed
  have hcount : state.sequenceImages.length = tokens.count vision.imagePad := hnext.symm.trans h.next
  refine ⟨⟨?_, ?_⟩, ?_, ?_, ?_, ?_, ?_, ?_, ?_⟩
  -- the images placed are those taken so far
  · simp [hnext]
  · dsimp only
    rw [List.take_add_one, himage]
    exact List.rel_append hall (.cons ⟨_, rfl⟩ .nil)
  · show state.next + 1 = (tokens ++ [vision.imagePad]).count vision.imagePad
    rw [List.count_append, List.count_singleton_self, h.next]
  -- the expansion grows by the span, which is what the new pad is widened to
  · show state.expanded ++ List.replicate _ vision.imagePad = _
    have hbefore : widened vision.imagePad (widths (state.sequenceImages ++ [placed])) tokens =
        state.expanded := by
      rw [widths, List.map_append, widened_widths (by simpa [widths] using hcount.ge), h.expands]
      rfl
    have hwidths : (widths (state.sequenceImages ++ [placed])).drop (tokens.count vision.imagePad) =
        [placed.placement.tokens] := by
      rw [← hcount, widths, List.map_append]
      exact List.drop_left' (List.length_map _)
    rw [widened_append, hbefore, hwidths, widened_pad, widened_nil, List.append_nil]
    rfl
  -- the span starts where the expansion before the pad ended
  · have hwidened := congrArg List.length h.expands
    rw [hplaced, hwidened]
    exact h.inPlace.pad hcount (hnext ▸ himage)
  · intro s hs
    show _ ≤ (state.expanded ++ List.replicate placed.placement.tokens vision.imagePad).length
    rw [List.length_append, List.length_replicate]
    rcases List.mem_append.mp hs with hold | hnew
    · have hinside := h.inside s hold
      omega
    · rw [List.mem_singleton.mp hnew]
      exact le_rfl
  -- the spans before stay filled, and the new one is filled with pads
  · intro s hs
    rcases List.mem_append.mp hs with hold | hnew
    · exact (span_append (h.inside s hold)).trans (h.filled s hold)
    · rw [List.mem_singleton.mp hnew, hstart]
      show ((state.expanded ++ List.replicate _ vision.imagePad).drop _).take _ = _
      rw [List.drop_left, List.take_of_length_le (List.length_replicate).le]
  -- the new span is behind the others
  · refine List.pairwise_append.mpr ⟨h.sorted, List.pairwise_singleton _ _, fun s hs s' hs' => ?_⟩
    rw [List.mem_singleton.mp hs', hstart]
    exact h.inside s hs
  -- the count: one token for the pad, and the span in its place
  · have hlength := h.length
    show (state.expanded ++ List.replicate placed.placement.tokens vision.imagePad).length +
      (state.next + 1) = (tokens ++ [vision.imagePad]).length + _
    rw [List.length_append, List.length_append, List.length_replicate, List.length_singleton,
      List.map_append, List.sum_append]
    simp only [List.map_singleton, List.sum_singleton]
    omega

/-! ### Whole prompts -/

omit [IsStrictOrderedRing K] in
/-- As long as there is an image for every pad, the loop goes on. -/
theorem foldlM_spread {rest : List ℕ} (h : state.Spread sqrt contentHash vision images tokens)
    (hpads : (tokens ++ rest).count vision.imagePad ≤ images.length) :
    ∃ done, rest.foldlM (expandToken sqrt contentHash vision dialect images) state = .ok done ∧
      done.Spread sqrt contentHash vision images (tokens ++ rest) := by
  induction rest generalizing tokens state with
  | nil =>
    rw [List.append_nil]
    exact ⟨state, rfl, h⟩
  | cons token rest ih =>
    have hsplit : tokens ++ token :: rest = (tokens ++ [token]) ++ rest := by
      rw [List.append_assoc]
      rfl
    rw [hsplit] at hpads ⊢
    by_cases htoken : token = vision.imagePad
    · subst htoken
      have hleft : state.next < images.length := by
        rw [List.count_append, List.count_append, List.count_singleton_self, ← h.next] at hpads
        omega
      have himage := List.getElem?_eq_getElem hleft
      obtain ⟨done, hdone, hspread⟩ := ih (h.pad himage) hpads
      refine ⟨done, ?_, hspread⟩
      rw [List.foldlM_cons, expandToken, if_neg (not_not.mpr rfl), himage]
      exact hdone
    · obtain ⟨done, hdone, hspread⟩ := ih (h.token htoken) hpads
      refine ⟨done, ?_, hspread⟩
      rw [List.foldlM_cons, expandToken, if_pos htoken]
      exact hdone

omit [IsStrictOrderedRing K] in
/-- A pad without an image is refused. -/
theorem foldlM_refused {rest : List ℕ} (h : state.Spread sqrt contentHash vision images tokens)
    (hwithin : tokens.count vision.imagePad ≤ images.length)
    (hpads : images.length < (tokens ++ rest).count vision.imagePad) :
    rest.foldlM (expandToken sqrt contentHash vision dialect images) state =
      .error (tooManyMarkers dialect images.length) := by
  induction rest generalizing tokens state with
  | nil =>
    rw [List.append_nil] at hpads
    omega
  | cons token rest ih =>
    have hsplit : tokens ++ token :: rest = (tokens ++ [token]) ++ rest := by
      rw [List.append_assoc]
      rfl
    rw [hsplit] at hpads
    rw [List.foldlM_cons, expandToken]
    by_cases htoken : token = vision.imagePad
    · subst htoken
      rw [if_neg (not_not.mpr rfl)]
      by_cases hleft : state.next < images.length
      · have himage := List.getElem?_eq_getElem hleft
        rw [himage]
        refine ih (h.pad himage) ?_ hpads
        rw [List.count_append, List.count_singleton_self, ← h.next]
        omega
      · rw [List.getElem?_eq_none (by omega)]
        rfl
    · rw [if_pos htoken]
      refine ih (h.token htoken) ?_ hpads
      rw [List.count_append, List.count_singleton, if_neg (by simpa using htoken)]
      omega

/-- Placements one behind the other are valid. -/
theorem validatePlacements_sorted {placements : List ImagePlacement} {promptLen : ℕ}
    (hgrid : ∀ p ∈ placements, 0 < p.gridH ∧ 0 < p.gridW)
    (hinside : ∀ p ∈ placements, p.finish ≤ promptLen)
    (hsorted : placements.Pairwise fun p p' => p.finish ≤ p'.start) (i : ℕ) {previousEnd : ℕ}
    (hbehind : ∀ p ∈ placements, previousEnd ≤ p.start) :
    validatePlacements promptLen i previousEnd placements = .ok () := by
  induction placements generalizing i previousEnd with
  | nil => rfl
  | cons p placements ih =>
    obtain ⟨hfirst, hrest⟩ := List.pairwise_cons.mp hsorted
    have hp := hgrid p List.mem_cons_self
    rw [validatePlacements, if_neg (by omega), if_neg (Nat.not_lt.mpr (hbehind p List.mem_cons_self)),
      if_neg (Nat.not_lt.mpr (hinside p List.mem_cons_self))]
    exact ih (fun q hq => hgrid q (List.mem_cons_of_mem p hq))
      (fun q hq => hinside q (List.mem_cons_of_mem p hq)) hrest (i + 1) hfirst

/-- What preprocessing places is what the price says, and not empty. -/
theorem placeImage_priced (hsqrt : ExactSqrt sqrt) (hconfig : vision.config.toVisionConfig = .qwen)
    {image : DecodedImage} (himage : Decoded image) (start : ℕ) :
    let placement := (placeImage sqrt contentHash vision image start).placement
    (0 < placement.gridH ∧ 0 < placement.gridW) ∧
      placement.tokens = pricedTokens sqrt vision image := by
  rcases hedges : smartResizeBounded sqrt vision.config.toVisionConfig image.width image.height
    vision.maxTokens with ⟨width, height⟩
  have hedges' : smartResizeBounded sqrt .qwen image.width image.height vision.maxTokens =
      (width, height) := hconfig ▸ hedges
  have haligned : ∀ edge ∈ [(smartResizeBounded sqrt .qwen image.width image.height
      vision.maxTokens).1, (smartResizeBounded sqrt .qwen image.width image.height
      vision.maxTokens).2], 0 < edge ∧ alignEdge .qwen ∣ edge :=
    edges_aligned hsqrt himage.width_pos himage.height_pos himage.pixels
  rw [hedges'] at haligned
  obtain ⟨hwidth, a, rfl⟩ := haligned width List.mem_cons_self
  obtain ⟨hheight, b, rfl⟩ := haligned height (List.mem_cons_of_mem _ List.mem_cons_self)
  have halign : alignEdge VisionConfig.qwen = 32 := rfl
  have hpatch : vision.config.patchSize = 16 := by rw [hconfig]; rfl
  have hmerge : vision.config.spatialMerge = 2 := by rw [hconfig]; rfl
  rw [halign] at hwidth hheight hedges
  have hcells : ∀ n, 32 * n / 16 = 2 * n := fun n => by omega
  have hgrid : ∀ n, 2 * n / 2 = n := fun n => by omega
  simp only [placeImage, preprocessBounded, pricedTokens, hedges, ImagePlacement.tokens,
    VisionConfig.outputTokens, hpatch, hmerge, hcells, hgrid]
  refine ⟨⟨by omega, by omega⟩, ?_⟩
  have hproduct : 2 * b * (2 * a) = 2 * 2 * (b * a) := by ring
  rw [hproduct, Nat.mul_div_cancel_left _ (by decide)]

/-- Each placement takes the place of its pad, so the price counts it without one token. -/
theorem price_placed (hsqrt : ExactSqrt sqrt) (hconfig : vision.config.toVisionConfig = .qwen)
    (hdecoded : ∀ image ∈ images, Decoded image) {placed : List (SequenceImage K)}
    (hplaced : List.Forall₂ (fun image placed => ∃ start,
      placed = placeImage sqrt contentHash vision image start) images placed) (count : ℕ) :
    images.foldl (fun count image => count + (pricedTokens sqrt vision image - 1)) count +
      images.length = count + (placed.map (·.placement.tokens)).sum := by
  induction hplaced generalizing count with
  | nil => rfl
  | @cons image s images placed hs hplaced ih =>
    obtain ⟨start, rfl⟩ := hs
    have himage := hdecoded image List.mem_cons_self
    obtain ⟨⟨hheight, hwidth⟩, htokens⟩ :=
      @placeImage_priced _ _ _ _ _ _ contentHash _ hsqrt hconfig _ himage start
    have hpositive : 0 < (placeImage sqrt contentHash vision image start).placement.tokens :=
      Nat.mul_pos hheight hwidth
    have hrest := ih (fun other hother => hdecoded other (List.mem_cons_of_mem image hother))
      (count + (pricedTokens sqrt vision image - 1))
    rw [List.foldl_cons, List.length_cons, List.map_cons, List.sum_cons]
    omega

theorem placed_grids (hsqrt : ExactSqrt sqrt) (hconfig : vision.config.toVisionConfig = .qwen)
    (hdecoded : ∀ image ∈ images, Decoded image) {placed : List (SequenceImage K)}
    (hplaced : List.Forall₂ (fun image placed => ∃ start,
      placed = placeImage sqrt contentHash vision image start) images placed) :
    ∀ s ∈ placed, 0 < s.placement.gridH ∧ 0 < s.placement.gridW := by
  induction hplaced with
  | nil => exact fun _ hs => absurd hs List.not_mem_nil
  | @cons image s images placed hs hplaced ih =>
    obtain ⟨start, rfl⟩ := hs
    rw [List.forall_mem_cons]
    exact ⟨(placeImage_priced hsqrt hconfig (hdecoded image List.mem_cons_self) start).1,
      ih fun other hother => hdecoded other (List.mem_cons_of_mem image hother)⟩

/-- A prompt with more pads than images is refused.  One with a pad for each image is expanded:
it becomes the prompt with its `k`-th pad replaced by the span of image `k`, which starts where
the expansion before that pad ends; the engine accepts the placements, and the price is the
length. -/
theorem expandImages_spans (hsqrt : ExactSqrt sqrt) (hconfig : vision.config.toVisionConfig = .qwen)
    (hdecoded : ∀ image ∈ images, Decoded image) (hsome : images ≠ []) (tokens : List ℕ) :
    (images.length < tokens.count vision.imagePad →
      expandImages sqrt contentHash (some vision) dialect tokens images =
        .error (tooManyMarkers dialect images.length)) ∧
    (tokens.count vision.imagePad = images.length → ∃ expanded placed,
      expandImages sqrt contentHash (some vision) dialect tokens images = .ok (expanded, placed) ∧
      placed.length = images.length ∧
      expanded = widened vision.imagePad (widths placed) tokens ∧
      InPlace sqrt contentHash vision images tokens placed ∧
      (∀ s ∈ placed, (expanded.drop s.placement.start).take s.placement.tokens =
        List.replicate s.placement.tokens vision.imagePad) ∧
      validatePlacements expanded.length 0 0 (placed.map (·.placement)) = .ok () ∧
      expandedTokenCount sqrt (some vision) dialect tokens.length images = .ok expanded.length) := by
  have hstart : Expansion.Spread sqrt contentHash vision images [] ⟨[], [], 0⟩ := .nil
  refine ⟨fun hmany => ?_, fun hpads => ?_⟩
  · unfold expandImages
    rw [if_neg hsome]
    -- the image after the last one is asked for
    dsimp only
    rw [foldlM_refused hstart (Nat.zero_le _) hmany]
    rfl
  · obtain ⟨done, hdone, hspread⟩ := @foldlM_spread _ _ _ _ _ _ vision dialect _ _ _ tokens hstart hpads.le
    rw [List.nil_append] at hspread
    -- each image has been placed, in order
    have hall : List.Forall₂ (fun image s => ∃ start,
        s = placeImage sqrt contentHash vision image start) images done.sequenceImages := by
      have hplaced := hspread.placed.placed
      rwa [hspread.next, hpads, List.take_length] at hplaced
    refine ⟨done.expanded, done.sequenceImages, ?_, hall.length_eq.symm, hspread.expands,
      hspread.inPlace, hspread.filled, ?_, ?_⟩
    · unfold expandImages
      rw [if_neg hsome]
      dsimp only
      rw [hdone]
      rfl
    -- the placements are those of a sequence: grids that are not empty, one behind the other
    · refine validatePlacements_sorted ?_ ?_ ?_ 0 fun _ _ => Nat.zero_le _
      · intro p hp
        obtain ⟨s, hs, rfl⟩ := List.mem_map.mp hp
        exact placed_grids hsqrt hconfig hdecoded hall s hs
      · intro p hp
        obtain ⟨s, hs, rfl⟩ := List.mem_map.mp hp
        exact hspread.inside s hs
      · exact List.pairwise_map.mpr hspread.sorted
    -- the price is that of the tokens and the spans, less the pads
    · have hprice := price_placed hsqrt hconfig hdecoded hall tokens.length
      have hlength := hspread.length
      rw [hspread.next, hpads] at hlength
      unfold expandedTokenCount
      rw [if_neg hsome]
      dsimp only
      refine congrArg Except.ok ?_
      omega

/-- Two gray images between other tokens: the second starts behind the first and the token
between them. -/
theorem expandImages_spans_witness :
    let span := fun start => placeImage Real.sqrt (fun _ => 0) (realServing 64) grayImage start
    expandImages Real.sqrt (fun _ => 0) (some (realServing 64)) .openAi [7, 7] [grayImage] =
        .error (tooManyMarkers .openAi 1) ∧
      ∃ expanded first second,
        expandImages Real.sqrt (fun _ => 0) (some (realServing 64)) .openAi [1, 7, 2, 7]
          [grayImage, grayImage] = .ok (expanded, [first, second]) ∧
        first = span 1 ∧ second = span (first.placement.tokens + 2) ∧
        expanded = 1 :: (List.replicate first.placement.tokens 7 ++
          2 :: List.replicate second.placement.tokens 7) ∧
        expandedTokenCount Real.sqrt (some (realServing 64)) .openAi 4 [grayImage, grayImage] =
          .ok expanded.length := by
  have hdecoded : ∀ image ∈ [grayImage, grayImage], Decoded image := fun image himage =>
    grayImage_decoded image (by simpa using himage)
  have hpad : (realServing 64).imagePad = 7 := rfl
  have hconfig : (realServing 64).config.toVisionConfig = .qwen := rfl
  have hone := (@expandImages_spans ℝ _ _ _ _ Real.sqrt (fun _ => 0) _ .openAi _ exactSqrt_real
    hconfig grayImage_decoded (List.cons_ne_nil _ _) [7, 7]).1 (by rw [hpad]; decide)
  obtain ⟨expanded, placed, hexpand, hlength, hwidened, hinPlace, -, -, hprice⟩ :=
    (@expandImages_spans ℝ _ _ _ _ Real.sqrt (fun _ => 0) _ .openAi _ exactSqrt_real hconfig
      hdecoded (List.cons_ne_nil _ _) [1, 7, 2, 7]).2 (by rw [hpad]; rfl)
  obtain ⟨first, second, rfl⟩ := List.length_eq_two.mp hlength
  obtain ⟨image, himage, hfirst⟩ := hinPlace [1] [2, 7] rfl
  obtain ⟨image', himage', hsecond⟩ := hinPlace [1, 7, 2] [] rfl
  rw [hpad] at himage hfirst himage' hsecond hwidened
  obtain rfl : grayImage = image := Option.some.inj himage
  obtain rfl : grayImage = image' := Option.some.inj himage'
  refine ⟨hone, expanded, first, second, hexpand, Option.some.inj hfirst, ?_, ?_, hprice⟩
  · refine (Option.some.inj hsecond).trans (congrArg _ ?_)
    simp [widened, widths]
  · rw [hwidened]
    simp [widened, widths]

end Vision
