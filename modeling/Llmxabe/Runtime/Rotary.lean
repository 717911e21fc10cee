/-
The rotary positions of a prompt with images.

`assignPositions` (`xabe-kernels/src/mrope.rs`) threads a base through the whole
sequence; `fillMropeTriples` (`xabe-engine/src/image.rs`) recomputes it for every
token of a chunk from the list of placements.  Both are what `triple` says without
a bound (`assignSpans_eq`, `fill_eq`), as long as no position leaves `i32`.

* `triples_chunked`: the chunks of a prompt, however it is cut, have the positions
  of the whole.
-/
import Llmxabe.Runtime.Sequence

namespace Rotary

/-- The value of a number cast to `i32`. -/
def i32 (z : ℤ) : ℤ := (z + 2 ^ 31) % 2 ^ 32 - 2 ^ 31

/-- The value of a number cast to `u32`. -/
def u32 (n : ℕ) : ℕ := n % 2 ^ 32

theorem i32_of_lt {z : ℤ} (hlow : 0 ≤ z) (hhigh : z < 2 ^ 31) : i32 z = z := by
  unfold i32
  omega

theorem u32_of_lt {n : ℕ} (h : n < 2 ^ 32) : u32 n = n := Nat.mod_eq_of_lt h

/-! ### The whole sequence -/

/-- Three-component rotary position of one token. -/
structure MropePos where
  t : ℕ
  h : ℕ
  w : ℕ
  deriving DecidableEq, Repr

/-- The position of a text token. -/
def MropePos.text (p : ℕ) : MropePos := ⟨p, p, p⟩

/-- One image's place in a sequence. -/
structure ImageSpan where
  start : ℕ
  gridH : ℕ
  gridW : ℕ
  deriving DecidableEq, Repr

namespace ImageSpan

/-- The slots of the grid. -/
def len (span : ImageSpan) : ℕ := span.gridH * span.gridW

/-- The grid's positions, all rooted at the entry base. -/
def positions (span : ImageSpan) (base : ℕ) : List MropePos :=
  (List.range span.len).map fun k =>
    ⟨base, u32 (base + k / span.gridW), u32 (base + k % span.gridW)⟩

end ImageSpan

/-- A run of text from a base on, and the base behind it. -/
def textRun : ℕ → ℕ → List MropePos × ℕ
  | base, 0 => ([], base)
  | base, n + 1 =>
    let rest := textRun (u32 (base + 1)) n
    (.text base :: rest.1, rest.2)

/-- The spans from index `i` on; `none` where an assertion fails. -/
def assignSpans (seqLen : ℕ) : ℕ → ℕ → List ImageSpan → Option (List MropePos × ℕ)
  | base, i, [] => some (textRun base (seqLen - i))
  | base, i, span :: spans =>
    if span.start < i ∨ seqLen < span.start + span.len then none
    else
      let run := textRun base (span.start - i)
      let next := u32 (run.2 + max (max span.gridH span.gridW) 1)
      (assignSpans seqLen next (span.start + span.len) spans).map fun rest =>
        (run.1 ++ span.positions run.2 ++ rest.1, rest.2)

/-- The positions of a sequence, and the base decode continues from. -/
def assignPositions (seqLen : ℕ) (spans : List ImageSpan) : Option (List MropePos × ℕ) :=
  assignSpans seqLen 0 0 spans

/-! ### A chunk -/

/-- The offset of the rotary base at a prompt position. -/
def ropeDelta (images : List ImagePlacement) (pos : ℕ) : ℤ :=
  ((images.filter fun img => decide (img.finish ≤ pos)).map fun img =>
    (max img.gridH img.gridW : ℤ) - img.tokens).sum

/-- That offset as `i32`. -/
def ropeDeltaAt (images : List ImagePlacement) (pos : ℕ) : ℤ := i32 (ropeDelta images pos)

/-- The triple of one position, as three entries. -/
def fillAt (images : List ImagePlacement) (pos : ℕ) : List ℤ :=
  match images.find? (·.covers pos) with
  | some img =>
    let base := i32 (i32 img.start + ropeDeltaAt images img.start)
    let k := u32 (pos - img.start)
    [base, i32 (base + i32 (k / img.gridW : ℕ)), i32 (base + i32 (k % img.gridW : ℕ))]
  | none =>
    let q := i32 (i32 pos + ropeDeltaAt images pos)
    [q, q, q]

/-- The triples of the chunk `[start, start + width)`. -/
def fillMropeTriples (images : List ImagePlacement) (start width : ℕ) : List ℤ :=
  (List.range' start width).flatMap (fillAt images)

/-- Consecutive chunks of the given widths. -/
def fillChunks (images : List ImagePlacement) : ℕ → List ℕ → List ℤ
  | _, [] => []
  | start, width :: widths =>
    fillMropeTriples images start width ++ fillChunks images (start + width) widths

/-- However a stretch is cut, its chunks are the stretch. -/
theorem fillChunks_eq (images : List ImagePlacement) (widths : List ℕ) :
    ∀ start, fillChunks images start widths = fillMropeTriples images start widths.sum := by
  induction widths with
  | nil => exact fun _ => rfl
  | cons width widths ih =>
    intro start
    rw [fillChunks, ih, List.sum_cons]
    unfold fillMropeTriples
    rw [← List.flatMap_append, List.range'_append_1]

/-! ### Placements -/

/-- The placements from index `i` on are sorted, disjoint and inside the prompt. -/
def Placed (n : ℕ) : ℕ → List ImagePlacement → Prop
  | _, [] => True
  | i, img :: images =>
    0 < img.gridH ∧ 0 < img.gridW ∧ i ≤ img.start ∧ img.finish ≤ n ∧ Placed n img.finish images

theorem placed_of_validate {n : ℕ} {images : List ImagePlacement} :
    ∀ {index previousEnd}, validatePlacements n index previousEnd images = .ok () →
      Placed n previousEnd images := by
  induction images with
  | nil => exact fun _ => trivial
  | cons img images ih =>
    intro index previousEnd h
    unfold validatePlacements at h
    split at h
    case isTrue => cases h
    case isFalse hgrid =>
      split at h
      case isTrue => cases h
      case isFalse hstart =>
        split at h
        case isTrue => cases h
        case isFalse hfinish => exact ⟨by omega, by omega, by omega, by omega, ih h⟩

variable {n i pos : ℕ} {img : ImagePlacement} {images : List ImagePlacement}

theorem Placed.mem (h : Placed n i images) (hmem : img ∈ images) :
    i ≤ img.start ∧ img.start < img.finish ∧ img.finish ≤ n := by
  induction images generalizing i with
  | nil => cases hmem
  | cons first images ih =>
    obtain ⟨hh, hw, hstart, hfinish, hrest⟩ := h
    have htokens : 0 < first.tokens := Nat.mul_pos hh hw
    have hspan : first.start < first.finish := Nat.lt_add_of_pos_right htokens
    rcases List.mem_cons.mp hmem with rfl | hmem
    · exact ⟨hstart, hspan, hfinish⟩
    · obtain ⟨hlow, hrest⟩ := ih hrest hmem
      exact ⟨by omega, hrest⟩

/-- Before the first image there is no offset. -/
theorem ropeDelta_of_le (h : Placed n i images) (hpos : pos ≤ i) : ropeDelta images pos = 0 := by
  have hnone : images.filter (fun img => decide (img.finish ≤ pos)) = [] := by
    refine List.filter_eq_nil_iff.mpr fun img hmem => ?_
    have := h.mem hmem
    rw [decide_eq_true_eq]
    omega
  unfold ropeDelta
  rw [hnone]
  rfl

/-- An image that ends before a position moves it from there on. -/
theorem ropeDelta_cons (hpos : img.finish ≤ pos) :
    ropeDelta (img :: images) pos =
      (max img.gridH img.gridW : ℤ) - img.tokens + ropeDelta images pos := by
  unfold ropeDelta
  rw [List.filter_cons_of_pos (by simpa using hpos), List.map_cons, List.sum_cons]

/-- An image takes no more rotary time than it has tokens. -/
theorem max_le_tokens (hh : 0 < img.gridH) (hw : 0 < img.gridW) :
    max img.gridH img.gridW ≤ img.tokens :=
  max_le (Nat.le_mul_of_pos_right _ hw) (Nat.le_mul_of_pos_left _ hh)

theorem ropeDelta_bounds (h : Placed n i images) (hpos : i ≤ pos) :
    -(pos - i : ℤ) ≤ ropeDelta images pos ∧ ropeDelta images pos ≤ 0 := by
  induction images generalizing i with
  | nil =>
    show _ ≤ (0 : ℤ) ∧ (0 : ℤ) ≤ 0
    omega
  | cons img images ih =>
    obtain ⟨hh, hw, hstart, hfinish, hrest⟩ := h
    have hmax := max_le_tokens hh hw
    rcases Nat.lt_or_ge pos img.finish with hlt | hge
    · have hzero : ropeDelta (img :: images) pos = 0 := by
        unfold ropeDelta
        rw [List.filter_cons_of_neg (by simpa using hlt)]
        exact ropeDelta_of_le hrest hlt.le
      omega
    · have hbounds := ih hrest hge
      have hspan : img.finish = img.start + img.tokens := rfl
      rw [ropeDelta_cons hge]
      omega

/-- The triple of a position without a bound, `offset` behind the images given. -/
def triple (offset : ℤ) (images : List ImagePlacement) (pos : ℕ) : List ℤ :=
  match images.find? (·.covers pos) with
  | some img =>
    let base := img.start + (offset + ropeDelta images img.start)
    [base, base + ((pos - img.start) / img.gridW : ℕ), base + ((pos - img.start) % img.gridW : ℕ)]
  | none => List.replicate 3 (pos + (offset + ropeDelta images pos))

theorem covers_iff : img.covers pos = true ↔ img.start ≤ pos ∧ pos < img.finish := decide_eq_true_iff

/-- The positions a chunk is filled with are exact. -/
theorem fillAt_eq (h : Placed n 0 images) (hn : n < 2 ^ 31) (hpos : pos < n) :
    fillAt images pos = triple 0 images pos := by
  have hdelta : ∀ p, p ≤ pos → i32 (i32 p + ropeDeltaAt images p) = p + ropeDelta images p ∧
      0 ≤ p + ropeDelta images p ∧ p + ropeDelta images p ≤ p := by
    intro p hp
    have hbounds := ropeDelta_bounds h (Nat.zero_le p)
    have hself : i32 (ropeDelta images p) = ropeDelta images p := by
      unfold i32
      omega
    rw [ropeDeltaAt, hself, i32_of_lt (Int.natCast_nonneg p) (by omega),
      i32_of_lt (by omega) (by omega)]
    omega
  unfold fillAt triple
  split
  case h_1 img hfind =>
    obtain ⟨hstart, -⟩ := covers_iff.mp
      (List.find?_some (p := fun img : ImagePlacement => img.covers pos) hfind)
    obtain ⟨hbase, hlow, hhigh⟩ := hdelta img.start hstart
    have hcomponent : ∀ k ≤ pos - img.start,
        i32 (img.start + ropeDelta images img.start + i32 (k : ℕ)) =
          img.start + ropeDelta images img.start + (k : ℕ) := by
      intro k hk
      rw [i32_of_lt (Int.natCast_nonneg k) (by omega), i32_of_lt (by omega) (by omega)]
    simp only [hbase, zero_add, u32_of_lt (show pos - img.start < 2 ^ 32 by omega),
      hcomponent _ (Nat.div_le_self _ _), hcomponent _ (Nat.mod_le _ _)]
  case h_2 =>
    obtain ⟨hbase, -⟩ := hdelta pos le_rfl
    simp only [hbase, zero_add]
    rfl

/-! ### The whole sequence, position by position -/

/-- The placement as the rotary positions see it. -/
def ImagePlacement.span (img : ImagePlacement) : ImageSpan := ⟨img.start, img.gridH, img.gridW⟩

/-- The triple as a list. -/
def MropePos.entries (p : MropePos) : List ℤ := [p.t, p.h, p.w]

theorem textRun_eq {base : ℕ} :
    ∀ {k}, base + k < 2 ^ 32 →
      textRun base k = ((List.range' base k).map MropePos.text, base + k)
  | 0, _ => rfl
  | k + 1, h => by
    rw [textRun, u32_of_lt (by omega), textRun_eq (by omega), List.range'_succ, List.map_cons,
      Nat.add_assoc, Nat.add_comm 1 k]

/-- Text before the first image. -/
theorem triple_text (offset : ℤ) (h : Placed n i images) (hpos : pos < i) :
    triple offset images pos = List.replicate 3 (pos + offset) := by
  have hnone : images.find? (·.covers pos) = none := by
    refine List.find?_eq_none.mpr fun img hmem => ?_
    have := h.mem hmem
    rw [covers_iff]
    omega
  unfold triple
  rw [hnone]
  simp only [ropeDelta_of_le h hpos.le, add_zero]

/-- A token of the first image. -/
theorem triple_image (offset : ℤ) (h : Placed n i (img :: images)) (hlow : img.start ≤ pos)
    (hhigh : pos < img.finish) :
    triple offset (img :: images) pos =
      [img.start + offset, img.start + offset + ((pos - img.start) / img.gridW : ℕ),
        img.start + offset + ((pos - img.start) % img.gridW : ℕ)] := by
  have hstart : Placed n img.start (img :: images) := ⟨h.1, h.2.1, le_rfl, h.2.2.2⟩
  have hfind : (img :: images).find? (·.covers pos) = some img :=
    List.find?_cons_of_pos (covers_iff.mpr ⟨hlow, hhigh⟩)
  unfold triple
  rw [hfind]
  simp only [ropeDelta_of_le hstart le_rfl, add_zero]

/-- Behind the first image. -/
theorem triple_behind (offset : ℤ) (h : Placed n i (img :: images)) (hpos : img.finish ≤ pos) :
    triple offset (img :: images) pos =
      triple (offset + ((max img.gridH img.gridW : ℤ) - img.tokens)) images pos := by
  have hnot : ¬img.covers pos = true := by
    rw [covers_iff]
    omega
  have hfind : (img :: images).find? (·.covers pos) = images.find? (·.covers pos) :=
    List.find?_cons_of_neg hnot
  unfold triple
  rw [hfind]
  split
  case h_1 later hfind =>
    have hlater := h.2.2.2.2.mem (List.mem_of_find?_eq_some hfind)
    simp only [ropeDelta_cons hlater.1, add_assoc]
  case h_2 => simp only [ropeDelta_cons hpos, add_assoc]

/-- A run of text has its triples. -/
theorem textRun_entries {offset : ℤ} {base k : ℕ} (hbase : (base : ℤ) = i + offset)
    (htriple : ∀ pos, i ≤ pos → pos < i + k →
      triple offset images pos = List.replicate 3 (pos + offset)) :
    ((List.range' base k).map MropePos.text).flatMap MropePos.entries =
      (List.range' i k).flatMap (triple offset images) := by
  rw [List.range'_eq_map_range, List.range'_eq_map_range, List.map_map, List.flatMap_map,
    List.flatMap_map]
  refine List.flatMap_congr fun j hj => ?_
  rw [List.mem_range] at hj
  rw [htriple (i + j) (by omega) (by omega)]
  have hentry : ((base + j : ℕ) : ℤ) = ((i + j : ℕ) : ℤ) + offset := by
    push_cast
    omega
  show [((base + j : ℕ) : ℤ), ((base + j : ℕ) : ℤ), ((base + j : ℕ) : ℤ)] = _
  rw [hentry]
  rfl

/-- The grid of an image has its triples. -/
theorem positions_entries {offset : ℤ} (h : Placed n i (img :: images)) (hn : n < 2 ^ 31)
    {base : ℕ} (hbase : (base : ℤ) = img.start + offset) (hle : base ≤ img.start) :
    ((ImagePlacement.span img).positions base).flatMap MropePos.entries =
      (List.range' img.start img.tokens).flatMap (triple offset (img :: images)) := by
  have hfinish : img.start + img.tokens ≤ n := h.2.2.2.1
  rw [List.range'_eq_map_range, ImageSpan.positions, List.flatMap_map, List.flatMap_map]
  show (List.range img.tokens).flatMap _ = _
  refine List.flatMap_congr fun k hk => ?_
  rw [List.mem_range] at hk
  have hdiv := Nat.div_le_self k img.gridW
  have hmod := Nat.mod_le k img.gridW
  have hentries : MropePos.entries ⟨base, u32 (base + k / img.gridW), u32 (base + k % img.gridW)⟩ =
      [img.start + offset, img.start + offset + (k / img.gridW : ℕ),
        img.start + offset + (k % img.gridW : ℕ)] := by
    rw [u32_of_lt (by omega), u32_of_lt (by omega), MropePos.entries, ← hbase]
    push_cast
    rfl
  refine hentries.trans ?_
  rw [triple_image offset h (by omega) (Nat.add_lt_add_left hk _), Nat.add_sub_cancel_left]

/-- The positions assigned from an index on are the triples there, behind the
offset of the images before it. -/
theorem assignSpans_eq (hn : n < 2 ^ 31) :
    ∀ {images : List ImagePlacement} (i base : ℕ) (offset : ℤ), Placed n i images → i ≤ n →
      (base : ℤ) = i + offset → base ≤ i →
      ∃ positions next,
        assignSpans n base i (images.map ImagePlacement.span) = some (positions, next) ∧
        positions.flatMap MropePos.entries =
          (List.range' i (n - i)).flatMap (triple offset images) ∧
        (next : ℤ) = n + (offset + ropeDelta images n) := by
  intro images
  induction images with
  | nil =>
    intro i base offset _ hi hbase hle
    refine ⟨_, _, congrArg some (textRun_eq (by omega)), ?_, ?_⟩
    · exact textRun_entries hbase fun pos _ _ =>
        triple_text offset (show Placed n (pos + 1) [] from trivial) (by omega)
    · rw [show ropeDelta [] n = 0 from rfl]
      push_cast
      omega
  | cons img images ih =>
    intro i base offset h hi hbase hle
    obtain ⟨hh, hw, hstart, hfinish, hrest⟩ := h
    have hspan : img.finish = img.start + img.tokens := rfl
    have hmax := max_le_tokens hh hw
    have hpos : 0 < max img.gridH img.gridW := Nat.lt_of_lt_of_le hh (Nat.le_max_left _ _)
    have hfrom : Placed n img.start (img :: images) := ⟨hh, hw, le_rfl, hfinish, hrest⟩
    -- the base at the image, and behind it
    have hentry : ((base + (img.start - i) : ℕ) : ℤ) = img.start + offset := by
      push_cast [hstart]
      omega
    have hnext : u32 (base + (img.start - i) + max (max img.gridH img.gridW) 1) =
        base + (img.start - i) + max img.gridH img.gridW := by
      rw [Nat.max_eq_left hpos]
      exact u32_of_lt (by omega)
    obtain ⟨positions, next, hassign, hentries, hlast⟩ :=
      ih img.finish (base + (img.start - i) + max img.gridH img.gridW)
        (offset + ((max img.gridH img.gridW : ℤ) - img.tokens)) hrest hfinish
        (by push_cast at hentry ⊢; omega) (by omega)
    refine ⟨(List.range' base (img.start - i)).map MropePos.text ++
      (ImagePlacement.span img).positions (base + (img.start - i)) ++ positions, next, ?_, ?_, ?_⟩
    -- the span is accepted, and the text in front of it fits
    · have haccepted : ¬((ImagePlacement.span img).start < i ∨
          n < (ImagePlacement.span img).start + (ImagePlacement.span img).len) := by
        show ¬(img.start < i ∨ n < img.start + img.tokens)
        omega
      have hrun : textRun base ((ImagePlacement.span img).start - i) =
          ((List.range' base (img.start - i)).map MropePos.text, base + (img.start - i)) :=
        textRun_eq (by omega)
      have hnext' : u32 (base + (img.start - i) + max (max (ImagePlacement.span img).gridH
          (ImagePlacement.span img).gridW) 1) =
            base + (img.start - i) + max img.gridH img.gridW := hnext
      rw [List.map_cons, assignSpans, if_neg haccepted, hrun]
      simp only [hnext']
      exact congrArg (Option.map _) hassign
    -- the triples up to the image, those of the image, and those behind it
    · have hcut : List.range' i (n - i) = List.range' i (img.start - i) ++
          List.range' img.start img.tokens ++ List.range' img.finish (n - img.finish) := by
        rw [show n - i = (img.start - i) + img.tokens + (n - img.finish) by omega,
          ← List.range'_append_1, ← List.range'_append_1,
          show i + (img.start - i) = img.start by omega,
          show i + (img.start - i + img.tokens) = img.finish by omega]
      rw [hcut, List.flatMap_append, List.flatMap_append, List.flatMap_append, List.flatMap_append,
        hentries, positions_entries hfrom hn hentry (by omega)]
      refine congrArg₂ _ (congrArg₂ _ ?_ rfl) ?_
      · exact textRun_entries hbase fun pos _ hpos => triple_text offset hfrom (by omega)
      · refine List.flatMap_congr fun pos hpos => ?_
        exact (triple_behind offset hfrom (List.mem_range'_1.mp hpos).1).symm
    · rw [hlast, ropeDelta_cons hfinish]
      omega

/-- A position past the prompt has the offset of all the images. -/
theorem ropeDeltaAt_past (h : Placed n 0 images) (hn : n < 2 ^ 31) {m : ℕ} (hm : n ≤ m) :
    ropeDeltaAt images m = ropeDelta images n := by
  have hall : ∀ p, n ≤ p → images.filter (fun img => decide (img.finish ≤ p)) = images := by
    intro p hp
    refine List.filter_eq_self.mpr fun img hmem => decide_eq_true ?_
    have := h.mem hmem
    omega
  have hsame : ropeDelta images m = ropeDelta images n := by
    unfold ropeDelta
    rw [hall m hm, hall n le_rfl]
  have hbounds := ropeDelta_bounds h (Nat.zero_le n)
  unfold ropeDeltaAt i32
  omega

/-- The chunks of a prompt, however it is cut, have the positions assigned to the
whole, and decode continues from its base. -/
theorem triples_chunked (hn : n < 2 ^ 31) (hvalid : validatePlacements n 0 0 images = .ok ()) :
    ∃ positions base,
      assignPositions n (images.map ImagePlacement.span) = some (positions, base) ∧
      (∀ widths : List ℕ, widths.sum = n →
        fillChunks images 0 widths = positions.flatMap MropePos.entries) ∧
      ∀ m, n ≤ m → m + ropeDeltaAt images m = base + (m - n) := by
  have hplaced := placed_of_validate hvalid
  obtain ⟨positions, base, hassign, hentries, hbase⟩ :=
    assignSpans_eq hn 0 0 0 hplaced (Nat.zero_le n) rfl le_rfl
  refine ⟨positions, base, hassign, fun widths hwidths => ?_, fun m hm => ?_⟩
  · rw [fillChunks_eq, hwidths, hentries, Nat.sub_zero]
    unfold fillMropeTriples
    refine List.flatMap_congr fun pos hpos => fillAt_eq hplaced hn ?_
    have := (List.mem_range'_1.mp hpos).2
    omega
  · rw [ropeDeltaAt_past hplaced hn hm, hbase]
    omega

/-- A 4 × 2 image at token 1 of a prompt of 10, cut in the middle of it. -/
theorem triples_chunked_witness :
    validatePlacements 10 0 0 [⟨1, 4, 2, 0⟩] = .ok () ∧
      fillChunks [⟨1, 4, 2, 0⟩] 0 [3, 0, 7] =
        [0, 0, 0, 1, 1, 1, 1, 1, 2, 1, 2, 1, 1, 2, 2, 1, 3, 1, 1, 3, 2, 1, 4, 1, 1, 4, 2,
          5, 5, 5] := by
  have hvalid : validatePlacements 10 0 0 [⟨1, 4, 2, 0⟩] = .ok () := rfl
  obtain ⟨positions, base, hassign, hchunks, -⟩ := triples_chunked (n := 10) (by decide) hvalid
  refine ⟨hvalid, ?_⟩
  rw [hchunks [3, 0, 7] rfl]
  cases hassign
  decide

end Rotary
