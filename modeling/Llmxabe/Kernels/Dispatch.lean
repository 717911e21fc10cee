/-
The dispatch tables of a grouped expert GEMM (`moe/dispatch.rs`).

Counts, run lengths and slots are `u32` in the source and wrap; `usize` values are
ℕ.  A panic is `none`.  What the tables should be is `Aligned`: one run for each
expert, its tokens in order and then sentinels up to a whole number of blocks.
`Fits` is when nothing wraps on the way (`moeAlignBlockSize_aligned`), and an
aligned table of the code is one of inputs that fit (`Aligned.fits`).
-/
import Llmxabe.Lib.Buckets
import Llmxabe.Sched.Request

open Buckets (bucket runs)

namespace Moe

/-- One past the last flat index, as `u32`. -/
def paddingSentinel (numTokens topK : ℕ) : ℕ := numTokens * topK % 2 ^ 32

/-- The owner of a block that no expert owns. -/
def INACTIVE_EXPERT : ℤ := -1

/-- Flat indices in runs by expert, and the owner of each block. -/
structure MoeDispatch where
  sortedTokenIds : List ℕ
  expertIds : List ℤ
  numTokensPostPad : ℕ
  deriving DecidableEq

/-- Tokens of each expert, counted in `u32`. -/
def countTokens (flat : List ℕ) (numExperts : ℕ) : List ℕ :=
  flat.foldl (fun counts e => counts.modify e fun c => (c + 1) % 2 ^ 32)
    (List.replicate numExperts 0)

/-- Run lengths; the block size is cast to `u32` first, and dividing by zero panics. -/
def paddedCounts (blockSize : ℕ) (counts : List ℕ) : Option (List ℕ) :=
  let width := blockSize % 2 ^ 32
  if width = 0 ∧ counts ≠ [] then none
  else some (counts.map fun c => divCeil c width * width % 2 ^ 32)

/-- Where the runs start, and where the last one ends. -/
def cumsum (paddedCounts : List ℕ) : List ℕ :=
  paddedCounts.scanl (fun total padded => (total + padded) % 2 ^ 32) 0

/-- One turn of the loop over the flat indices. -/
def placeToken (starts : List ℕ) (tables : List ℕ × List ℕ) (flatIdx e : ℕ) :
    Option (List ℕ × List ℕ) :=
  let (sorted, running) := tables
  let slot := (starts.getD e 0 + running.getD e 0) % 2 ^ 32
  if slot < sorted.length then
    some (sorted.set slot (flatIdx % 2 ^ 32), running.modify e fun c => (c + 1) % 2 ^ 32)
  else none

/-- A cast to `i32`. -/
def asI32 (e : ℕ) : ℤ :=
  if e % 2 ^ 32 < 2 ^ 31 then (e % 2 ^ 32 : ℕ) else (e % 2 ^ 32 : ℕ) - 2 ^ 32

/-- The blocks each expert owns. -/
def ownBlocks (starts : List ℕ) (blockSize numExperts numBlocks : ℕ) : List ℤ :=
  (List.range numExperts).foldl (fun expertIds e =>
    expertIds.mapIdx fun block owner =>
      if starts.getD e 0 / blockSize ≤ block ∧ block < starts.getD (e + 1) 0 / blockSize then
        asI32 e
      else owner)
    (List.replicate numBlocks INACTIVE_EXPERT)

/-- The tables of a routing; `none` where the source panics. -/
def moeAlignBlockSize (topkExpertIds : List (List ℕ)) (blockSize numExperts : ℕ) :
    Option MoeDispatch := do
  guard (0 < blockSize)
  let numTokens := topkExpertIds.length
  let topK := (topkExpertIds.head?.map List.length).getD 0
  guard (∀ row ∈ topkExpertIds, row.length = topK)
  let flat := topkExpertIds.flatten
  guard (∀ e ∈ flat, e < numExperts)
  let padded ← paddedCounts blockSize (countTokens flat numExperts)
  let starts := cumsum padded
  let numTokensPostPad := starts.getD numExperts 0
  let sentinel := paddingSentinel numTokens topK
  let (sortedTokenIds, _) ← flat.zipIdx.foldlM (fun tables (e, flatIdx) =>
      placeToken starts tables flatIdx e)
    (List.replicate numTokensPostPad sentinel, List.replicate numExperts 0)
  let expertIds := ownBlocks starts blockSize numExperts (numTokensPostPad / blockSize)
  return { sortedTokenIds, expertIds, numTokensPostPad }

/-! ### What the tables should be -/

variable (flat : List ℕ) (blockSize numExperts : ℕ)

/-- The expert of a flat index. -/
def expertOf (i : ℕ) : ℕ := flat.getD i 0

/-- An expert's tokens, rounded up to whole blocks. -/
def runLength (e : ℕ) : ℕ := divCeil (bucket (expertOf flat) flat.length e).length blockSize * blockSize

/-- Tables that hold the flat indices of `flat`, with one past the last of them as the
sentinel. -/
structure Aligned (d : MoeDispatch) : Prop where
  /-- Experts ascending, each with its flat indices ascending and then padding up to its
  count rounded up. -/
  runs : d.sortedTokenIds =
    (runs (expertOf flat) (runLength flat blockSize) flat.length numExperts flat.length).flatten
  once : (d.sortedTokenIds.filter (· ≠ flat.length)).Perm (List.range flat.length)
  blocks : d.sortedTokenIds.length = d.expertIds.length * blockSize
  postPad : d.numTokensPostPad = d.sortedTokenIds.length
  owners : ∀ owner ∈ d.expertIds, ∃ e < numExperts, owner = (e : ℤ)
  /-- A block belongs to the expert of all its real entries. -/
  owner : ∀ slot id, d.sortedTokenIds[slot]? = some id → id ≠ flat.length →
    ∃ e, flat[id]? = some e ∧ d.expertIds[slot / blockSize]? = some (e : ℤ)

/-- Nothing leaves its integer type. -/
structure Fits : Prop where
  slots : ((List.range numExperts).map (runLength flat blockSize)).sum < 2 ^ 32
  experts : ∀ e ∈ flat, e < 2 ^ 31
  width : blockSize % 2 ^ 32 = 0 → numExperts = 0

variable {flat blockSize numExperts} {e i m n : ℕ} {d : MoeDispatch}

variable (flat) in
theorem map_expertOf : (List.range flat.length).map (expertOf flat) = flat := by
  refine List.ext_getElem (by simp) fun i hi hi' => ?_
  simp [expertOf, hi']

theorem expertOf_lt (hexperts : ∀ e ∈ flat, e < numExperts) (hi : i < flat.length) :
    expertOf flat i < numExperts := by
  rw [expertOf, List.getD_eq_getElem?_getD, List.getElem?_eq_getElem hi]
  exact hexperts _ (List.getElem_mem hi)

theorem getElem?_expertOf (hi : i < flat.length) : flat[i]? = some (expertOf flat i) := by
  rw [expertOf, List.getD_eq_getElem?_getD, List.getElem?_eq_getElem hi]
  rfl

section Sizes

variable (hblock : 0 < blockSize)
include hblock

theorem count_le_runLength (hm : m ≤ flat.length) :
    (bucket (expertOf flat) m e).length ≤ runLength flat blockSize e :=
  (Buckets.length_bucket_mono hm).trans (le_divCeil_mul hblock)

theorem take_runs_length (filler : ℕ) (hm : m ≤ flat.length) (he : e ≤ n) :
    ((runs (expertOf flat) (runLength flat blockSize) filler n m).take e).flatten.length =
      ((List.range e).map (runLength flat blockSize)).sum :=
  Buckets.take_runs_length (fun _ _ => count_le_runLength hblock hm) he

theorem runs_length (filler : ℕ) (hm : m ≤ flat.length) :
    (runs (expertOf flat) (runLength flat blockSize) filler n m).flatten.length =
      ((List.range n).map (runLength flat blockSize)).sum := by
  have htake := take_runs_length hblock filler hm (Nat.le_refl n)
  rwa [List.take_of_length_le (by rw [runs, List.length_map, List.length_range])] at htake

end Sizes

/-! ### Where nothing wraps -/

variable (flat blockSize) in
theorem runLength_le_sum (he : e < n) :
    runLength flat blockSize e ≤ ((List.range n).map (runLength flat blockSize)).sum :=
  List.single_le_sum (fun _ _ => Nat.zero_le _) _
    (List.mem_map_of_mem (List.mem_range.mpr he))

variable (flat blockSize) in
/-- The runs before one, and it, are some of all. -/
theorem startOf_le (he : e ≤ n) : ((List.range e).map (runLength flat blockSize)).sum ≤
    ((List.range n).map (runLength flat blockSize)).sum := by
  obtain ⟨k, rfl⟩ := Nat.exists_eq_add_of_le he
  rw [List.range_add, List.map_append, List.sum_append]
  exact Nat.le_add_right _ _

theorem foldl_add_mod (xs : List ℕ) (total : ℕ) (hfit : total + xs.sum < 2 ^ 32) :
    xs.foldl (fun total x => (total + x) % 2 ^ 32) total = total + xs.sum := by
  induction xs generalizing total with
  | nil => rfl
  | cons x xs ih =>
    rw [List.sum_cons] at hfit ⊢
    rw [List.foldl_cons, Nat.mod_eq_of_lt (by omega), ih _ (by omega), Nat.add_assoc]

/-- The runs have room for the tokens. -/
theorem length_le_sum (hblock : 0 < blockSize) (hexperts : ∀ e ∈ flat, e < numExperts) :
    flat.length ≤ ((List.range numExperts).map (runLength flat blockSize)).sum := by
  have hperm := Buckets.flatMap_bucket_perm fun i hi => expertOf_lt hexperts hi
  have hlen := hperm.length_eq
  rw [← Buckets.filter_runs (runLength flat blockSize) (Nat.le_refl _), List.length_range] at hlen
  rw [← runs_length hblock flat.length (Nat.le_refl _)]
  exact hlen.symm.le.trans (List.length_filter_le _ _)

section Fitting

variable (hblock : 0 < blockSize) (hexperts : ∀ e ∈ flat, e < numExperts)
  (hfits : Fits flat blockSize numExperts)
include hblock hexperts hfits

theorem count_lt (hm : m ≤ flat.length) : (bucket (expertOf flat) m e).length < 2 ^ 32 := by
  rcases Nat.lt_or_ge e numExperts with hlt | hge
  · exact (count_le_runLength hblock hm).trans_lt ((runLength_le_sum flat blockSize hlt).trans_lt hfits.slots)
  · -- no token has such an expert
    have hnone : bucket (expertOf flat) m e = [] := by
      refine List.eq_nil_iff_forall_not_mem.mpr fun i hi => ?_
      obtain ⟨hi, rfl⟩ := Buckets.mem_bucket.mp hi
      have := expertOf_lt hexperts (show i < flat.length by omega)
      omega
    rw [hnone]
    norm_num

theorem countTokens_eq : countTokens flat numExperts =
    (List.range numExperts).map fun e => (bucket (expertOf flat) flat.length e).length := by
  unfold countTokens
  conv_lhs => rw [← map_expertOf flat, List.foldl_map]
  exact Buckets.foldl_count fun e => count_lt hblock hexperts hfits (Nat.le_refl _)

theorem paddedCounts_eq : paddedCounts blockSize (countTokens flat numExperts) =
    some ((List.range numExperts).map (runLength flat blockSize)) := by
  rw [countTokens_eq hblock hexperts hfits]
  unfold paddedCounts
  rcases Nat.eq_zero_or_pos numExperts with hnone | hpos
  · subst hnone
    rw [if_neg (by simp)]
    rfl
  · have hwidth : blockSize % 2 ^ 32 ≠ 0 := fun h => by
      have := hfits.width h
      omega
    dsimp only
    rw [if_neg fun h => hwidth h.1, List.map_map]
    refine congrArg some (List.map_congr_left fun e he => ?_)
    have he := List.mem_range.mp he
    have hrun := (runLength_le_sum flat blockSize he).trans_lt hfits.slots
    by_cases hempty : (bucket (expertOf flat) flat.length e).length = 0
    · rw [Function.comp_apply, runLength, hempty]
      have hzero : ∀ b, 0 < b → divCeil 0 b = 0 := fun b hb =>
        Nat.div_eq_of_lt (by omega)
      rw [hzero _ (Nat.pos_of_ne_zero hwidth), hzero _ hblock, Nat.zero_mul, Nat.zero_mul]
      rfl
    · -- a block of the run fits, so the cast keeps the block size
      have hsmall : blockSize < 2 ^ 32 := by
        have hceil : 0 < divCeil (bucket (expertOf flat) flat.length e).length blockSize :=
          Nat.div_pos (by omega) hblock
        exact (Nat.le_mul_of_pos_left _ hceil).trans_lt hrun
      rw [Function.comp_apply, Nat.mod_eq_of_lt hsmall]
      exact Nat.mod_eq_of_lt hrun

omit hblock hexperts in
/-- The starts of the runs, and the end of the last. -/
theorem cumsum_getD (he : e ≤ numExperts) :
    (cumsum ((List.range numExperts).map (runLength flat blockSize))).getD e 0 =
      ((List.range e).map (runLength flat blockSize)).sum := by
  have hfold := foldl_add_mod ((List.range e).map (runLength flat blockSize)) 0 (by
    rw [Nat.zero_add]
    exact (startOf_le flat blockSize he).trans_lt hfits.slots)
  rw [cumsum, List.getD_eq_getElem?_getD, List.getElem?_eq_getElem (by simp; omega),
    List.getElem_scanl, ← List.map_take, List.take_range, Nat.min_eq_left he, hfold, Nat.zero_add]
  rfl

/-- The array holds the runs of the tokens placed so far. -/
theorem placeTokens_eq (hm : m ≤ flat.length) :
    (flat.zipIdx.take m).foldlM (fun tables (e, flatIdx) => placeToken
        (cumsum ((List.range numExperts).map (runLength flat blockSize))) tables flatIdx e)
      (List.replicate ((List.range numExperts).map (runLength flat blockSize)).sum flat.length,
        List.replicate numExperts 0) =
      some ((runs (expertOf flat) (runLength flat blockSize) flat.length numExperts m).flatten,
        (List.range numExperts).map fun e => (bucket (expertOf flat) m e).length) := by
  induction m with
  | zero =>
    -- before the first token every slot is a filler
    have hfillers : (runs (expertOf flat) (runLength flat blockSize) flat.length numExperts
        0).flatten =
        List.replicate ((List.range numExperts).map (runLength flat blockSize)).sum flat.length := by
      rw [← runs_length hblock flat.length (Nat.zero_le _)]
      refine List.eq_replicate_length.mpr fun i hi => ?_
      obtain ⟨segment, hsegment, hi⟩ := List.mem_flatten.mp hi
      obtain ⟨e, -, rfl⟩ := List.mem_map.mp hsegment
      exact List.eq_of_mem_replicate hi
    rw [hfillers, Buckets.count_zero]
    rfl
  | succ m ih =>
    have hexpert := expertOf_lt hexperts (show m < flat.length by omega)
    have hlast : flat.zipIdx.take (m + 1) = flat.zipIdx.take m ++ [(expertOf flat m, m)] := by
      rw [List.take_add_one, List.getElem?_zipIdx, getElem?_expertOf (by omega)]
      simp
    rw [hlast, List.foldlM_append, ih (by omega)]
    -- the slot is the first filler of the expert's run
    have hroom : (bucket (expertOf flat) m (expertOf flat m)).length <
        runLength flat blockSize (expertOf flat m) := by
      have : (bucket (expertOf flat) (m + 1) (expertOf flat m)).length ≤
          runLength flat blockSize (expertOf flat m) := count_le_runLength hblock hm
      rw [Buckets.bucket_succ, if_pos rfl, List.length_append, List.length_singleton] at this
      omega
    have hend : ((List.range (expertOf flat m)).map (runLength flat blockSize)).sum +
        runLength flat blockSize (expertOf flat m) ≤
          ((List.range numExperts).map (runLength flat blockSize)).sum := by
      have := startOf_le flat blockSize
        (show expertOf flat m + 1 ≤ numExperts from hexpert)
      rwa [List.range_succ, List.map_append, List.sum_append, List.map_singleton,
        List.sum_singleton] at this
    have hslots := hfits.slots
    have hrunning : ((List.range numExperts).map fun e =>
        (bucket (expertOf flat) m e).length).getD (expertOf flat m) 0 =
          (bucket (expertOf flat) m (expertOf flat m)).length := by
      rw [List.getD_eq_getElem?_getD, List.getElem?_map, List.getElem?_range hexpert]
      rfl
    have hslot : ((List.range (expertOf flat m)).map (runLength flat blockSize)).sum +
        (bucket (expertOf flat) m (expertOf flat m)).length <
        (runs (expertOf flat) (runLength flat blockSize) flat.length numExperts m).flatten.length := by
      rw [runs_length hblock _ (by omega)]
      omega
    -- the index fits `u32`, so it is stored as it is
    have hflat : m < 2 ^ 32 := by
      have := length_le_sum hblock hexperts
      omega
    have hplaced := Buckets.runs_place (n := numExperts) flat.length hexpert hroom
    rw [take_runs_length hblock _ (by omega) hexpert.le] at hplaced
    have hplace : placeToken (cumsum ((List.range numExperts).map (runLength flat blockSize)))
        ((runs (expertOf flat) (runLength flat blockSize) flat.length numExperts m).flatten,
          (List.range numExperts).map fun e => (bucket (expertOf flat) m e).length) m
        (expertOf flat m) =
        some ((runs (expertOf flat) (runLength flat blockSize) flat.length numExperts
            (m + 1)).flatten,
          (List.range numExperts).map fun e => (bucket (expertOf flat) (m + 1) e).length) := by
      unfold placeToken
      dsimp only
      rw [cumsum_getD hfits hexpert.le, hrunning, Nat.mod_eq_of_lt (by omega), if_pos hslot,
        Nat.mod_eq_of_lt hflat, hplaced, Buckets.modify_count (count_lt hblock hexperts hfits hm)]
    rw [Option.bind_eq_bind, Option.bind_some, List.foldlM_cons]
    dsimp only
    rw [hplace]
    rfl

end Fitting

/-! ### The owners of the blocks -/

theorem asI32_of_lt (he : e < 2 ^ 31) : asI32 e = e := by
  unfold asI32
  split <;> omega

theorem asI32_lt (e : ℕ) : asI32 e < 2 ^ 31 := by
  unfold asI32
  split <;> omega

theorem foldl_mapIdx_getElem? {α : Type} (f : ℕ → ℕ → α → α) (es : List ℕ) (xs : List α)
    (block : ℕ) :
    (es.foldl (fun xs e => xs.mapIdx (f e)) xs)[block]? =
      (xs[block]?).map fun x => es.foldl (fun x e => f e block x) x := by
  induction es generalizing xs with
  | nil => simp
  | cons e es ih =>
    rw [List.foldl_cons, ih, List.getElem?_mapIdx, Option.map_map]
    rfl

theorem ownBlocks_getElem? (starts : List ℕ) {block numBlocks : ℕ} (hblock : block < numBlocks) :
    (ownBlocks starts blockSize numExperts numBlocks)[block]? =
      some ((List.range numExperts).foldl (fun owner e =>
        if starts.getD e 0 / blockSize ≤ block ∧ block < starts.getD (e + 1) 0 / blockSize then
          asI32 e
        else owner) INACTIVE_EXPERT) := by
  rw [ownBlocks, foldl_mapIdx_getElem?, List.getElem?_replicate_of_lt hblock]
  rfl

theorem ownBlocks_length (starts : List ℕ) (numBlocks : ℕ) :
    (ownBlocks starts blockSize numExperts numBlocks).length = numBlocks := by
  have hfold : ∀ (es : List ℕ) (xs : List ℤ) (f : ℕ → ℕ → ℤ → ℤ),
      (es.foldl (fun xs e => xs.mapIdx (f e)) xs).length = xs.length := by
    intro es
    induction es with
    | nil => exact fun _ _ => rfl
    | cons e es ih =>
      intro xs f
      rw [List.foldl_cons, ih, List.length_mapIdx]
  rw [ownBlocks, hfold, List.length_replicate]

/-- An owner is an `i32`. -/
theorem ownBlocks_lt (starts : List ℕ) (numBlocks : ℕ) :
    ∀ owner ∈ ownBlocks starts blockSize numExperts numBlocks, owner < 2 ^ 31 := by
  intro owner howner
  obtain ⟨block, hblock, rfl⟩ := List.getElem_of_mem howner
  rw [ownBlocks_length] at hblock
  have hget := List.getElem?_eq_getElem (l := ownBlocks starts blockSize numExperts numBlocks)
    (by rwa [ownBlocks_length] : block < _)
  rw [ownBlocks_getElem? starts hblock] at hget
  rw [← Option.some.inj hget]
  have hfold : ∀ (es : List ℕ) (owner : ℤ), owner < 2 ^ 31 → es.foldl (fun owner e =>
      if starts.getD e 0 / blockSize ≤ block ∧ block < starts.getD (e + 1) 0 / blockSize then
        asI32 e
      else owner) owner < 2 ^ 31 := by
    intro es
    induction es with
    | nil => exact fun _ h => h
    | cons e es ih =>
      intro owner howner
      refine ih _ ?_
      dsimp only
      split
      · exact asI32_lt e
      · exact howner
  exact hfold _ _ (by decide)

variable (flat blockSize) in
theorem dvd_startOf (e : ℕ) :
    blockSize ∣ ((List.range e).map (runLength flat blockSize)).sum := by
  refine List.dvd_sum fun x hx => ?_
  obtain ⟨e', -, rfl⟩ := List.mem_map.mp hx
  exact Nat.dvd_mul_left _ _

/-- The block of a slot of an expert's run is the expert's. -/
theorem owner_of_run (hblock : 0 < blockSize) (hfits : Fits flat blockSize numExperts)
    (he : e < numExperts) (hexpert : e < 2 ^ 31) {slot : ℕ}
    (hstart : ((List.range e).map (runLength flat blockSize)).sum ≤ slot)
    (hend : slot < ((List.range (e + 1)).map (runLength flat blockSize)).sum) :
    (ownBlocks (cumsum ((List.range numExperts).map (runLength flat blockSize))) blockSize numExperts
      (((List.range numExperts).map (runLength flat blockSize)).sum / blockSize))[slot / blockSize]? =
        some (e : ℤ) := by
  have hdiv : ∀ {e : ℕ}, slot < ((List.range e).map (runLength flat blockSize)).sum ↔
      slot / blockSize < ((List.range e).map (runLength flat blockSize)).sum / blockSize := by
    intro e
    obtain ⟨blocks, hblocks⟩ := dvd_startOf flat blockSize e
    rw [hblocks, Nat.mul_div_cancel_left _ hblock, Nat.div_lt_iff_lt_mul hblock, Nat.mul_comm]
  have hlast := hend.trans_le (startOf_le flat blockSize
    (show e + 1 ≤ numExperts from he))
  rw [ownBlocks_getElem? _ (hdiv.mp hlast), Option.some.injEq]
  -- the runs do not overlap, so one expert owns the block
  have howns : ∀ e' < numExperts,
      ((cumsum ((List.range numExperts).map (runLength flat blockSize))).getD e' 0 / blockSize ≤
          slot / blockSize ∧
        slot / blockSize <
          (cumsum ((List.range numExperts).map (runLength flat blockSize))).getD (e' + 1) 0 /
            blockSize) ↔
      ((List.range e').map (runLength flat blockSize)).sum ≤ slot ∧
        slot < ((List.range (e' + 1)).map (runLength flat blockSize)).sum := by
    intro e' he'
    rw [cumsum_getD hfits he'.le, cumsum_getD hfits he', ← hdiv, ← not_lt, ← hdiv, not_lt]
  rw [Buckets.foldl_set_unique he ((howns e he).mpr ⟨hstart, hend⟩), asI32_of_lt hexpert]
  intro e' he' hslot
  obtain ⟨hstart', hend'⟩ := (howns e' he').mp hslot
  by_contra hne
  rcases Nat.lt_or_ge e' e with hlt | hge
  · have := startOf_le flat blockSize (show e' + 1 ≤ e from hlt)
    omega
  · have := startOf_le flat blockSize (show e + 1 ≤ e' by omega)
    omega

/-- Each slot is in the run of an expert with a token, whose block it is in. -/
theorem slot_spec (hblock : 0 < blockSize) (hfits : Fits flat blockSize numExperts) {slot id : ℕ}
    (hslot : (runs (expertOf flat) (runLength flat blockSize) flat.length numExperts
      flat.length).flatten[slot]? = some id) :
    ∃ e < numExperts, (id ∈ bucket (expertOf flat) flat.length e ∨ id = flat.length) ∧
      (ownBlocks (cumsum ((List.range numExperts).map (runLength flat blockSize))) blockSize
        numExperts (((List.range numExperts).map (runLength flat blockSize)).sum / blockSize))[slot /
          blockSize]? = some (e : ℤ) := by
  obtain ⟨e, run, j, hrun, hj, rfl⟩ := Buckets.exists_of_flatten hslot
  rw [runs, List.getElem?_map, Option.map_eq_some_iff] at hrun
  obtain ⟨e', he', rfl⟩ := hrun
  obtain ⟨he, rfl⟩ := List.getElem?_eq_some_iff.mp he'
  rw [List.length_range] at he
  rw [List.getElem_range] at hj
  have hjlt : j < runLength flat blockSize e := by
    obtain ⟨hlt, -⟩ := List.getElem?_eq_some_iff.mp hj
    rwa [Buckets.run_length (count_le_runLength hblock (Nat.le_refl _))] at hlt
  -- a run that is not empty is one of an expert with tokens
  have hused : e ∈ flat := by
    have hcount : bucket (expertOf flat) flat.length e ≠ [] := by
      intro hnil
      rw [runLength, hnil, List.length_nil, divCeil, Nat.div_eq_of_lt (by omega)] at hjlt
      omega
    obtain ⟨i, hi⟩ := List.exists_mem_of_ne_nil _ hcount
    obtain ⟨hi, hkey⟩ := Buckets.mem_bucket.mp hi
    exact List.mem_of_getElem? (hkey ▸ getElem?_expertOf hi)
  refine ⟨e, he, ?_, ?_⟩
  · rcases List.mem_append.mp (List.mem_of_getElem? hj) with hmem | hmem
    · exact Or.inl hmem
    · exact Or.inr (List.eq_of_mem_replicate hmem)
  · rw [take_runs_length hblock _ (Nat.le_refl _) he.le]
    refine owner_of_run hblock hfits he (hfits.experts e hused) (Nat.le_add_right _ _) ?_
    rw [List.range_succ, List.map_append, List.sum_append, List.map_singleton, List.sum_singleton]
    omega

/-! ### The tables -/

theorem length_flatten_rows {α : Type} {topK : ℕ} {rows : List (List α)}
    (hrows : ∀ row ∈ rows, row.length = topK) : rows.flatten.length = rows.length * topK := by
  induction rows with
  | nil => simp
  | cons row rows ih =>
    rw [List.flatten_cons, List.length_append, hrows row List.mem_cons_self,
      ih fun row' h => hrows row' (List.mem_cons_of_mem row h), List.length_cons, Nat.succ_mul,
      Nat.add_comm]

section Tables

variable {topkExpertIds : List (List ℕ)} {topK : ℕ} (hblock : 0 < blockSize)
  (hrows : ∀ row ∈ topkExpertIds, row.length = topK)
  (hexperts : ∀ e ∈ topkExpertIds.flatten, e < numExperts)
include hblock hrows hexperts

/-- Where nothing wraps, the code builds the tables. -/
theorem moeAlignBlockSize_aligned (hfits : Fits topkExpertIds.flatten blockSize numExperts) :
    ∃ d, moeAlignBlockSize topkExpertIds blockSize numExperts = some d ∧
      Aligned topkExpertIds.flatten blockSize numExperts d := by
  have hlen := length_le_sum hblock hexperts
  have hslots := hfits.slots
  have htopK : ∀ row ∈ topkExpertIds,
      row.length = (topkExpertIds.head?.map List.length).getD 0 := by
    intro row hrow
    cases topkExpertIds with
    | nil => cases hrow
    | cons first rows =>
      exact (hrows row hrow).trans (hrows first List.mem_cons_self).symm
  have hsentinel : paddingSentinel topkExpertIds.length
      ((topkExpertIds.head?.map List.length).getD 0) = topkExpertIds.flatten.length := by
    rw [paddingSentinel, ← length_flatten_rows htopK]
    exact Nat.mod_eq_of_lt (by omega)
  have hplaced := placeTokens_eq hblock hexperts hfits (Nat.le_refl _)
  rw [List.take_of_length_le (by rw [List.length_zipIdx])] at hplaced
  refine ⟨⟨(runs (expertOf topkExpertIds.flatten) (runLength topkExpertIds.flatten blockSize)
      topkExpertIds.flatten.length numExperts topkExpertIds.flatten.length).flatten,
    ownBlocks (cumsum ((List.range numExperts).map (runLength topkExpertIds.flatten blockSize)))
      blockSize numExperts
      (((List.range numExperts).map (runLength topkExpertIds.flatten blockSize)).sum / blockSize),
    ((List.range numExperts).map (runLength topkExpertIds.flatten blockSize)).sum⟩, ?_, rfl, ?_, ?_,
    (runs_length hblock _ (Nat.le_refl _)).symm, ?_, ?_⟩
  · -- every check passes and every step succeeds
    have hguard : ∀ {p : Prop} [Decidable p], p → (guard p : Option Unit) = some () :=
      fun hp => if_pos hp
    unfold moeAlignBlockSize
    dsimp only
    rw [hguard hblock, hguard htopK, hguard hexperts]
    simp only [Option.bind_eq_bind, Option.bind_some, paddedCounts_eq hblock hexperts hfits,
      cumsum_getD hfits (Nat.le_refl _), hsentinel, hplaced, Option.pure_def]
  -- the real slots hold each flat index once
  · rw [Buckets.filter_runs _ (Nat.le_refl _)]
    exact Buckets.flatMap_bucket_perm fun i hi => expertOf_lt hexperts hi
  -- the blocks fill the table
  · rw [runs_length hblock _ (Nat.le_refl _), ownBlocks_length]
    exact (Nat.div_mul_cancel (dvd_startOf _ _ _)).symm
  -- each block's owner is the expert whose run begins it
  · intro owner howner
    obtain ⟨block, hb, rfl⟩ := List.getElem_of_mem howner
    rw [ownBlocks_length] at hb
    have hlt : block * blockSize < (runs (expertOf topkExpertIds.flatten)
        (runLength topkExpertIds.flatten blockSize) topkExpertIds.flatten.length numExperts
        topkExpertIds.flatten.length).flatten.length := by
      rw [runs_length hblock _ (Nat.le_refl _)]
      exact (Nat.mul_lt_mul_of_pos_right hb hblock).trans_le (Nat.div_mul_le_self _ _)
    obtain ⟨e, he, -, hget⟩ := slot_spec hblock hfits (List.getElem?_eq_getElem hlt)
    rw [Nat.mul_div_cancel _ hblock, List.getElem?_eq_getElem (by rwa [ownBlocks_length])] at hget
    exact ⟨e, he, Option.some.inj hget⟩
  -- and each real slot is in a block of its token's expert
  · intro slot id hslot hreal
    obtain ⟨e, -, hid, hget⟩ := slot_spec hblock hfits hslot
    obtain ⟨hlt, rfl⟩ := Buckets.mem_bucket.mp (hid.resolve_right hreal)
    exact ⟨_, getElem?_expertOf hlt, hget⟩

end Tables

/-! ### What the code's tables can hold -/

theorem placeTokens_length {starts : List ℕ} {tokens : List (ℕ × ℕ)}
    {tables tables' : List ℕ × List ℕ}
    (h : tokens.foldlM (fun tables (e, flatIdx) => placeToken starts tables flatIdx e) tables =
      some tables') : tables'.1.length = tables.1.length := by
  induction tokens generalizing tables with
  | nil =>
    obtain rfl := Option.some.inj h
    rfl
  | cons token tokens ih =>
    rw [List.foldlM_cons] at h
    obtain ⟨placed, hplaced, h⟩ := Option.bind_eq_some_iff.mp h
    rw [ih h]
    unfold placeToken at hplaced
    dsimp only at hplaced
    split at hplaced
    · obtain rfl := Option.some.inj hplaced
      exact List.length_set
    · cases hplaced

theorem cumsum_lt (padded : List ℕ) (e : ℕ) : (cumsum padded).getD e 0 < 2 ^ 32 := by
  rw [cumsum, List.getD_eq_getElem?_getD, List.getElem?_scanl]
  split
  · rw [Option.getD_some]
    rcases List.eq_nil_or_concat' (padded.take e) with hnil | ⟨before, last, hlast⟩
    · rw [hnil]
      norm_num
    · rw [hlast, List.foldl_append]
      exact Nat.mod_lt _ (by norm_num)
  · norm_num

theorem countTokens_length (tokens : List ℕ) :
    (countTokens tokens numExperts).length = numExperts := by
  have hfold : ∀ counts : List ℕ, (tokens.foldl (fun counts e =>
      counts.modify e fun c => (c + 1) % 2 ^ 32) counts).length = counts.length := by
    induction tokens with
    | nil => exact fun _ => rfl
    | cons e tokens ih =>
      intro counts
      rw [List.foldl_cons, ih, List.length_modify]
  rw [countTokens, hfold, List.length_replicate]

theorem moeAlignBlockSize_bounds {topkExpertIds : List (List ℕ)}
    (h : moeAlignBlockSize topkExpertIds blockSize numExperts = some d) :
    d.sortedTokenIds.length < 2 ^ 32 ∧ (∀ owner ∈ d.expertIds, owner < 2 ^ 31) ∧
      (blockSize % 2 ^ 32 = 0 → numExperts = 0) := by
  unfold moeAlignBlockSize at h
  obtain ⟨_, -, h⟩ := Option.bind_eq_some_iff.mp h
  obtain ⟨_, -, h⟩ := Option.bind_eq_some_iff.mp h
  obtain ⟨_, -, h⟩ := Option.bind_eq_some_iff.mp h
  obtain ⟨padded, hpadded, h⟩ := Option.bind_eq_some_iff.mp h
  obtain ⟨⟨sorted, running⟩, hsorted, h⟩ := Option.bind_eq_some_iff.mp h
  obtain rfl := Option.some.inj h
  refine ⟨?_, ownBlocks_lt _ _, fun hwidth => ?_⟩
  · have hlen := placeTokens_length hsorted
    dsimp only at hlen ⊢
    rw [hlen, List.length_replicate]
    exact cumsum_lt _ _
  · unfold paddedCounts at hpadded
    dsimp only at hpadded
    split at hpadded
    · cases hpadded
    · rename_i hnone
      rw [not_and, not_not] at hnone
      have := congrArg List.length (hnone hwidth)
      rwa [countTokens_length] at this

/-- Inputs whose tables the code aligns are ones that fit. -/
theorem Aligned.fits (hblock : 0 < blockSize) {topkExpertIds : List (List ℕ)}
    (h : moeAlignBlockSize topkExpertIds blockSize numExperts = some d)
    (haligned : Aligned topkExpertIds.flatten blockSize numExperts d) :
    Fits topkExpertIds.flatten blockSize numExperts where
  slots := by
    have hlen := (moeAlignBlockSize_bounds h).1
    rwa [haligned.runs, runs_length hblock _ (Nat.le_refl _)] at hlen
  experts e he := by
    obtain ⟨i, hi⟩ := List.getElem?_of_mem he
    have hlt := (List.getElem?_eq_some_iff.mp hi).1
    have hmem := (haligned.once.mem_iff.mpr (List.mem_range.mpr hlt))
    obtain ⟨slot, hslot⟩ := List.getElem?_of_mem (List.mem_filter.mp hmem).1
    obtain ⟨e', he', howner⟩ := haligned.owner slot i hslot (by omega)
    obtain rfl := Option.some.inj (hi.symm.trans he')
    have := (moeAlignBlockSize_bounds h).2.1 _ (List.mem_of_getElem? howner)
    omega
  width := (moeAlignBlockSize_bounds h).2.2

end Moe
