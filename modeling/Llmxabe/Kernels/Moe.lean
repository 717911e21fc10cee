/-
The grouped expert GEMM and the loop it has to agree with (`moe/gemm.rs`).

Numbers are those of a field, with an exponential of their own; a panic is `none`.
The sizes that the source asserts are part of the weights and of the hidden
states.  `groupedForward` walks the blocks of the dispatch tables, `naiveForward`
the experts of each token.

* `moe_dispatch`: the tables are aligned and both loops compute the same, exactly
  if no slot and no expert leaves its integer type;
* `wide_block_loses_tokens`: a block size past `u32` is cast to another one.
-/
import Llmxabe.Kernels.Dispatch
import Mathlib.Data.Vector.Basic

namespace Moe

variable {K : Type} [Field K] (exp : K → K) {hidden intermediate : ℕ}

/-- One expert's three matrices, row-major. -/
structure ExpertWeights (K : Type) (hidden intermediate : ℕ) where
  gate : List K
  up : List K
  down : List K
  gate_length : gate.length = intermediate * hidden
  up_length : up.length = intermediate * hidden
  down_length : down.length = hidden * intermediate

/-- The experts of a token and their weights. -/
structure RoutingDecision (K : Type) where
  expertIds : List ℕ
  weights : List K

/-- A matrix stored by rows, times a vector. -/
def matvec (w : List K) (outDim inDim : ℕ) (x : List K) : List K :=
  (List.range outDim).map fun o =>
    (List.zipWith (· * ·) ((w.drop (o * inDim)).take inDim) x).sum

/-- The sigmoid linear unit. -/
def silu (x : K) : K := x / (1 + exp (-x))

/-- The gated activation, entry by entry. -/
def swiglu (gate up : List K) : List K := List.zipWith (fun g u => silu exp g * u) gate up

/-- One expert's forward pass. -/
def expertMlp (expert : ExpertWeights K hidden intermediate) (x : List.Vector K hidden) : List K :=
  let gateOut := matvec expert.gate intermediate hidden x.toList
  let upOut := matvec expert.up intermediate hidden x.toList
  matvec expert.down hidden intermediate (swiglu exp gateOut upOut)

/-- `*o += weight * c` along a row. -/
def addScaled (weight : K) (contribution row : List K) : List K :=
  List.zipWith (fun o c => o + weight * c) row contribution

/-- One slot of a block. -/
def groupedSlot (hiddenStates : List (List.Vector K hidden)) (d : MoeDispatch)
    (flatWeights : List K) (topK : ℕ) (expert : ExpertWeights K hidden intermediate)
    (out : List (List K)) (slot : ℕ) : Option (List (List K)) := do
  let flatId ← d.sortedTokenIds[slot]?
  if flatId = paddingSentinel hiddenStates.length topK then return out
  let tokenIdx := flatId / topK
  let weight ← flatWeights[flatId]?
  let x ← hiddenStates[tokenIdx]?
  return out.modify tokenIdx (addScaled weight (expertMlp exp expert x))

/-- Block by block, each with its owner's weights; `none` where an index leaves its array. -/
def groupedForward (hiddenStates : List (List.Vector K hidden)) (d : MoeDispatch)
    (flatWeights : List K) (topK : ℕ) (experts : List (ExpertWeights K hidden intermediate)) :
    Option (List (List K)) :=
  let blockSize := if d.expertIds = [] then 1 else d.sortedTokenIds.length / d.expertIds.length
  d.expertIds.zipIdx.foldlM (fun out (expertId, block) =>
      if expertId = INACTIVE_EXPERT then some out
      else if expertId < 0 then none
      else do
        let expert ← experts[expertId.toNat]?
        (List.range' (block * blockSize) blockSize).foldlM
          (groupedSlot exp hiddenStates d flatWeights topK expert) out)
    (List.replicate hiddenStates.length (List.replicate hidden 0))

/-- One token through its own experts. -/
def naiveToken (experts : List (ExpertWeights K hidden intermediate)) (x : List.Vector K hidden)
    (decision : RoutingDecision K) : Option (List K) :=
  (decision.expertIds.zip decision.weights).foldlM (fun acc (expertId, weight) => do
      let expert ← experts[expertId]?
      return addScaled weight (expertMlp exp expert x) acc)
    (List.replicate hidden 0)

/-- Token by token, each through its own experts. -/
def naiveForward (hiddenStates : List (List.Vector K hidden)) (routing : List (RoutingDecision K))
    (experts : List (ExpertWeights K hidden intermediate)) : Option (List (List K)) := do
  guard (hiddenStates.length = routing.length)
  (hiddenStates.zip routing).mapM fun (x, decision) => naiveToken exp experts x decision

/-! ### What a flat index adds -/

omit [Field K] in
/-- Rows of one length, joined. -/
theorem flatten_getElem? {α : Type} {rows : List (List α)} {n : ℕ}
    (hrows : ∀ row ∈ rows, row.length = n) {t k : ℕ} (hk : k < n) :
    rows.flatten[t * n + k]? = rows[t]?.bind (·[k]?) := by
  induction rows generalizing t with
  | nil => rfl
  | cons row rows ih =>
    have hrow := hrows row List.mem_cons_self
    rw [List.flatten_cons]
    cases t with
    | zero =>
      rw [Nat.zero_mul, Nat.zero_add, List.getElem?_append_left (by omega)]
      rfl
    | succ t =>
      rw [Nat.succ_mul, List.getElem?_append_right (by omega), List.getElem?_cons_succ,
        ← ih fun row' h => hrows row' (List.mem_cons_of_mem row h)]
      congr 1
      omega

theorem addScaled_comm (weight weight' : K) (c c' row : List K) :
    addScaled weight' c' (addScaled weight c row) = addScaled weight c (addScaled weight' c' row) := by
  unfold addScaled
  refine List.ext_getElem ?_ fun i hi hi' => ?_
  · simp only [List.length_zipWith]
    omega
  · simp only [List.getElem_zipWith]
    ring

section Inputs

variable (hiddenStates : List (List.Vector K hidden)) (flat : List ℕ) (flatWeights : List K)
  (topK : ℕ) (experts : List (ExpertWeights K hidden intermediate))

/-- What a flat index adds to its token's row. -/
def contribute (i : ℕ) (row : List K) : List K :=
  match flatWeights[i]?, hiddenStates[i / topK]?, (flat[i]?).bind (experts[·]?) with
  | some weight, some x, some expert => addScaled weight (expertMlp exp expert x) row
  | _, _, _ => row

/-- The rows of all tokens after the contributions of some flat indices. -/
def accumulate (ids : List ℕ) (out : List (List K)) : List (List K) :=
  ids.foldl (fun out i => out.modify (i / topK) (contribute exp hiddenStates flat flatWeights topK
    experts i)) out

variable {hiddenStates flat flatWeights topK experts}

theorem contribute_comm (i j : ℕ) (row : List K) :
    contribute exp hiddenStates flat flatWeights topK experts j
        (contribute exp hiddenStates flat flatWeights topK experts i row) =
      contribute exp hiddenStates flat flatWeights topK experts i
        (contribute exp hiddenStates flat flatWeights topK experts j row) := by
  unfold contribute
  split <;> split <;> first | rfl | exact addScaled_comm _ _ _ _ _

/-- The order of the contributions does not matter. -/
theorem accumulate_perm {ids ids' : List ℕ} (hperm : ids.Perm ids') (out : List (List K)) :
    accumulate exp hiddenStates flat flatWeights topK experts ids out =
      accumulate exp hiddenStates flat flatWeights topK experts ids' out := by
  refine List.ext_getElem? fun t => ?_
  unfold accumulate
  rw [Buckets.foldl_modify_getElem?, Buckets.foldl_modify_getElem?]
  refine congrArg (Option.map · _) (funext fun row => ?_)
  exact List.Perm.foldl_eq' (hperm.filter _) (fun i _ j _ row => contribute_comm exp i j row) row

end Inputs

/-- What a slot adds, whoever owns its block. -/
def slotStep (hiddenStates : List (List.Vector K hidden)) (routing : List (RoutingDecision K))
    (topK : ℕ) (experts : List (ExpertWeights K hidden intermediate)) (d : MoeDispatch)
    (out : List (List K)) (slot : ℕ) : List (List K) :=
  match d.sortedTokenIds[slot]? with
  | some id =>
    if id ≠ (routing.map (·.expertIds)).flatten.length then
      out.modify (id / topK) (contribute exp hiddenStates (routing.map (·.expertIds)).flatten
        (routing.map (·.weights)).flatten topK experts id)
    else out
  | none => out

section Routing

variable {hiddenStates : List (List.Vector K hidden)} {routing : List (RoutingDecision K)}
  {topK : ℕ} {experts : List (ExpertWeights K hidden intermediate)} {d : MoeDispatch}
  (hlength : hiddenStates.length = routing.length)
  (hids : ∀ decision ∈ routing, decision.expertIds.length = topK)
  (hweights : ∀ decision ∈ routing, decision.weights.length = topK)
  (hexperts : ∀ decision ∈ routing, ∀ e ∈ decision.expertIds, e < experts.length)
include hlength hids hweights hexperts

omit hlength in
theorem naiveToken_eq {t : ℕ} {x : List.Vector K hidden} {decision : RoutingDecision K}
    (hx : hiddenStates[t]? = some x) (hdecision : routing[t]? = some decision) :
    naiveToken exp experts x decision =
      some ((List.range' (t * topK) topK).foldl (fun row i =>
        contribute exp hiddenStates (routing.map (·.expertIds)).flatten
          (routing.map (·.weights)).flatten topK experts i row) (List.replicate hidden 0)) := by
  have hmem := List.mem_of_getElem? hdecision
  have hzip : (decision.expertIds.zip decision.weights).length = topK := by
    rw [List.length_zip, hids decision hmem, hweights decision hmem, Nat.min_self]
  have hsteps : (decision.expertIds.zip decision.weights).foldlM (fun acc p =>
      (experts[p.1]?).bind fun expert => some (addScaled p.2 (expertMlp exp expert x) acc))
        (List.replicate hidden 0) =
      some ((decision.expertIds.zip decision.weights).foldl (fun acc p => match experts[p.1]? with
        | some expert => addScaled p.2 (expertMlp exp expert x) acc
        | none => acc) (List.replicate hidden 0)) := by
    refine Buckets.foldlM_eq_some ?_
    rintro acc ⟨e, weight⟩ hp
    have he := hexperts decision hmem e (List.of_mem_zip hp).1
    rw [List.getElem?_eq_getElem he]
    rfl
  refine hsteps.trans (congrArg some ?_)
  rw [← Buckets.foldl_range_getElem?, hzip, List.range'_eq_map_range, List.foldl_map]
  refine List.foldl_ext _ _ _ fun row k hk => ?_
  have hk := List.mem_range.mp hk
  have hdiv : (t * topK + k) / topK = t := by
    rw [Nat.mul_comm, Nat.mul_add_div (by omega), Nat.div_eq_of_lt hk, Nat.add_zero]
  have hid : (routing.map (·.expertIds)).flatten[t * topK + k]? = decision.expertIds[k]? := by
    rw [flatten_getElem? (by simpa using hids) hk, List.getElem?_map, hdecision]
    rfl
  have hweight : (routing.map (·.weights)).flatten[t * topK + k]? = decision.weights[k]? := by
    rw [flatten_getElem? (by simpa using hweights) hk, List.getElem?_map, hdecision]
    rfl
  obtain ⟨e, he⟩ : ∃ e, decision.expertIds[k]? = some e :=
    ⟨_, List.getElem?_eq_getElem (by rw [hids _ hmem]; exact hk)⟩
  obtain ⟨weight, hw⟩ : ∃ weight, decision.weights[k]? = some weight :=
    ⟨_, List.getElem?_eq_getElem (by rw [hweights _ hmem]; exact hk)⟩
  obtain ⟨expert, hexpert⟩ : ∃ expert, experts[e]? = some expert :=
    ⟨_, List.getElem?_eq_getElem (hexperts _ hmem _ (List.mem_of_getElem? he))⟩
  have hpair : (decision.expertIds.zip decision.weights)[k]? = some (e, weight) :=
    List.getElem?_zip_eq_some.mpr ⟨he, hw⟩
  unfold contribute
  rw [hid, hweight, hdiv, hx, hpair, he, hw]
  simp only [hexpert, Option.bind_some]

section Grouped

omit hexperts

variable {blockSize numExperts : ℕ} (hblock : 0 < blockSize)
  (hsmall : (routing.map (·.expertIds)).flatten.length < 2 ^ 32)
  (hnum : numExperts ≤ experts.length)
  (haligned : Aligned (routing.map (·.expertIds)).flatten blockSize numExperts d)
include hblock hsmall hnum haligned

omit hblock hnum in
theorem groupedSlot_eq {slot e : ℕ} {expert : ExpertWeights K hidden intermediate}
    (hslot : slot < d.sortedTokenIds.length)
    (howner : d.expertIds[slot / blockSize]? = some (e : ℤ)) (hexpert : experts[e]? = some expert)
    (out : List (List K)) :
    groupedSlot exp hiddenStates d (routing.map (·.weights)).flatten topK expert out slot =
      some (slotStep exp hiddenStates routing topK experts d out slot) := by
  have hflat : (routing.map (·.expertIds)).flatten.length = hiddenStates.length * topK := by
    rw [length_flatten_rows (by simpa using hids), List.length_map, hlength]
  have hsentinel : paddingSentinel hiddenStates.length topK =
      (routing.map (·.expertIds)).flatten.length := by
    rw [paddingSentinel, ← hflat]
    exact Nat.mod_eq_of_lt hsmall
  obtain ⟨id, hid⟩ : ∃ id, d.sortedTokenIds[slot]? = some id := ⟨_, List.getElem?_eq_getElem hslot⟩
  unfold groupedSlot slotStep
  rw [hid, hsentinel]
  by_cases hreal : id = (routing.map (·.expertIds)).flatten.length
  · simp [hreal]
  · -- the token's expert is the owner of the block
    obtain ⟨e', he', howner'⟩ := haligned.owner slot id hid hreal
    rw [howner] at howner'
    obtain rfl : e = e' := by exact_mod_cast Option.some.inj howner'
    have hlt : id < hiddenStates.length * topK := hflat ▸ (List.getElem?_eq_some_iff.mp he').1
    have htoken : id / topK < hiddenStates.length := Nat.div_lt_of_lt_mul (by rwa [Nat.mul_comm])
    have hweight : id < (routing.map (·.weights)).flatten.length := by
      rwa [length_flatten_rows (by simpa using hweights), List.length_map, ← hlength]
    simp only [Option.bind_eq_bind, Option.bind_some, hreal, if_false, ne_eq, not_false_eq_true,
      if_true, List.getElem?_eq_getElem htoken, List.getElem?_eq_getElem hweight]
    refine congrArg some (congrArg (out.modify _) (funext fun row => ?_))
    unfold contribute
    rw [List.getElem?_eq_getElem htoken, List.getElem?_eq_getElem hweight, he', Option.bind_some,
      hexpert]

theorem groupedForward_eq :
    groupedForward exp hiddenStates d (routing.map (·.weights)).flatten topK experts =
      some (accumulate exp hiddenStates (routing.map (·.expertIds)).flatten
        (routing.map (·.weights)).flatten topK experts
        (d.sortedTokenIds.filter (· ≠ (routing.map (·.expertIds)).flatten.length))
        (List.replicate hiddenStates.length (List.replicate hidden 0))) := by
  have hcells := haligned.blocks
  by_cases hnone : d.expertIds = []
  · -- no block at all
    rw [hnone, List.length_nil, Nat.zero_mul, List.length_eq_zero_iff] at hcells
    unfold groupedForward
    rw [hnone, hcells]
    rfl
  have hsize : d.sortedTokenIds.length / d.expertIds.length = blockSize := by
    rw [hcells]
    exact Nat.mul_div_cancel_left _ (List.length_pos_iff.mpr hnone)
  -- a block adds the slots it owns, in order
  have hturn : ∀ out : List (List K), ∀ p ∈ d.expertIds.zipIdx,
      (if p.1 = INACTIVE_EXPERT then some out
        else if p.1 < 0 then none
        else (experts[p.1.toNat]?).bind fun expert =>
          (List.range' (p.2 * blockSize) blockSize).foldlM
            (groupedSlot exp hiddenStates d (routing.map (·.weights)).flatten topK expert) out) =
      some ((List.range' (p.2 * blockSize) blockSize).foldl
        (slotStep exp hiddenStates routing topK experts d) out) := by
    rintro out ⟨owner, block⟩ hp
    have hget : d.expertIds[block]? = some owner := List.mk_mem_zipIdx_iff_getElem?.mp hp
    obtain ⟨e, he, rfl⟩ := haligned.owners owner (List.mem_of_getElem? hget)
    have he := he.trans_le hnum
    have hactive : ¬((e : ℤ) = INACTIVE_EXPERT) := by
      unfold INACTIVE_EXPERT
      omega
    have hnonneg : ¬((e : ℤ) < 0) := by omega
    dsimp only
    rw [if_neg hactive, if_neg hnonneg, Int.toNat_natCast, List.getElem?_eq_getElem he,
      Option.bind_some]
    refine Buckets.foldlM_eq_some fun out slot hslot => ?_
    obtain ⟨k, hk, rfl⟩ := List.mem_range'.mp hslot
    rw [Nat.one_mul]
    -- the slots of a block are in it, so its owner is their expert
    have hdiv : (block * blockSize + k) / blockSize = block := by
      rw [Nat.mul_comm, Nat.mul_add_div hblock, Nat.div_eq_of_lt hk, Nat.add_zero]
    have hlt : block * blockSize + k < d.sortedTokenIds.length := by
      have hle := Nat.mul_le_mul_right blockSize (List.getElem?_eq_some_iff.mp hget).1
      rw [Nat.succ_mul] at hle
      omega
    exact groupedSlot_eq exp hlength hids hweights hsmall haligned hlt
      (by rw [hdiv]; exact hget) (List.getElem?_eq_getElem he) out
  have hforward := Buckets.foldlM_eq_some (b := List.replicate hiddenStates.length
    (List.replicate hidden (0 : K))) hturn
  unfold groupedForward
  rw [if_neg hnone, hsize]
  refine hforward.trans (congrArg some ?_)
  -- the blocks' slots in order are all slots in order
  have hblocks : d.expertIds.zipIdx.map Prod.snd = List.range d.expertIds.length := by
    rw [List.zipIdx_map_snd, List.range_eq_range']
  rw [← List.foldl_map (f := Prod.snd) (g := fun out block =>
    (List.range' (block * blockSize) blockSize).foldl
      (slotStep exp hiddenStates routing topK experts d) out), hblocks, Buckets.foldl_range_mul,
    ← hcells]
  unfold accumulate
  rw [List.foldl_filter]
  refine Eq.trans ?_ (Buckets.foldl_range_getElem? _ _ _)
  -- a filler adds nothing, and the rest are what the filter keeps
  refine List.foldl_ext _ _ _ fun out slot _ => ?_
  unfold slotStep
  rcases d.sortedTokenIds[slot]? with _ | id
  · rfl
  · simp only [decide_eq_true_eq]

end Grouped

theorem naiveForward_eq :
    naiveForward exp hiddenStates routing experts =
      some (accumulate exp hiddenStates (routing.map (·.expertIds)).flatten
        (routing.map (·.weights)).flatten topK experts
        (List.range (routing.map (·.expertIds)).flatten.length)
        (List.replicate hiddenStates.length (List.replicate hidden 0))) := by
  have hflat : (routing.map (·.expertIds)).flatten.length = hiddenStates.length * topK := by
    rw [length_flatten_rows (by simpa using hids), List.length_map, hlength]
  have htokens : ∀ p ∈ hiddenStates.zip routing, naiveToken exp experts p.1 p.2 =
      some ((naiveToken exp experts p.1 p.2).getD []) := by
    rintro ⟨x, decision⟩ hp
    obtain ⟨t, ht⟩ := List.getElem?_of_mem hp
    obtain ⟨hx, hdecision⟩ := List.getElem?_zip_eq_some.mp ht
    rw [naiveToken_eq exp hids hweights hexperts hx hdecision]
    rfl
  have hguard : (guard (hiddenStates.length = routing.length) : Option Unit) = some () :=
    if_pos hlength
  unfold naiveForward
  rw [hguard]
  refine (Buckets.mapM_eq_some htokens).trans (congrArg some ?_)
  -- token by token, its flat indices are the ones of its row
  refine List.ext_getElem? fun t => ?_
  unfold accumulate
  rw [Buckets.foldl_modify_getElem?, List.getElem?_map, hflat]
  rcases Nat.lt_or_ge t hiddenStates.length with hlt | hge
  · obtain ⟨x, hx⟩ : ∃ x, hiddenStates[t]? = some x := ⟨_, List.getElem?_eq_getElem hlt⟩
    obtain ⟨decision, hdecision⟩ : ∃ decision, routing[t]? = some decision :=
      ⟨_, List.getElem?_eq_getElem (hlength ▸ hlt)⟩
    have hpair : (hiddenStates.zip routing)[t]? = some (x, decision) :=
      List.getElem?_zip_eq_some.mpr ⟨hx, hdecision⟩
    rw [hpair, Option.map_some,
      naiveToken_eq exp hids hweights hexperts hx hdecision, Buckets.filter_range_div hlt,
      List.getElem?_replicate_of_lt hlt]
    rfl
  · rw [List.getElem?_eq_none (by rw [List.length_zip]; omega),
      List.getElem?_eq_none (by rwa [List.length_replicate])]
    rfl

/-- The tables are aligned and the two loops agree, exactly if nothing leaves its
integer type. -/
theorem moe_dispatch {blockSize numExperts : ℕ} (hblock : 0 < blockSize)
    (hnum : numExperts ≤ experts.length)
    (hrange : ∀ decision ∈ routing, ∀ e ∈ decision.expertIds, e < numExperts) :
    (∃ d out, moeAlignBlockSize (routing.map (·.expertIds)) blockSize numExperts = some d ∧
        Aligned (routing.map (·.expertIds)).flatten blockSize numExperts d ∧
        groupedForward exp hiddenStates d (routing.map (·.weights)).flatten topK experts = some out ∧
        naiveForward exp hiddenStates routing experts = some out) ↔
      Fits (routing.map (·.expertIds)).flatten blockSize numExperts := by
  constructor
  · rintro ⟨d, out, hd, haligned, -, -⟩
    exact haligned.fits hblock hd
  · intro hfits
    have hflat : ∀ e ∈ (routing.map (·.expertIds)).flatten, e < numExperts := by
      intro e he
      obtain ⟨row, hrow, he⟩ := List.mem_flatten.mp he
      obtain ⟨decision, hdecision, rfl⟩ := List.mem_map.mp hrow
      exact hrange decision hdecision e he
    obtain ⟨d, hd, haligned⟩ := moeAlignBlockSize_aligned hblock (by simpa using hids) hflat hfits
    have hsmall := (length_le_sum hblock hflat).trans_lt hfits.slots
    refine ⟨d, _, hd, haligned,
      groupedForward_eq exp hlength hids hweights hblock hsmall hnum haligned, ?_⟩
    rw [naiveForward_eq exp hlength hids hweights hexperts, accumulate_perm exp haligned.once]

end Routing

/-- An expert of one row and one column. -/
def unitExpert (down : ℚ) : ExpertWeights ℚ 1 1 := ⟨[1], [1], [down], rfl, rfl, rfl⟩

theorem moe_dispatch_witness :
    ∃ d out, moeAlignBlockSize [[1, 0]] 2 2 = some d ∧ Aligned [1, 0] 2 2 d ∧
      groupedForward (fun _ => 1) [⟨[1], rfl⟩] d [2, 3] 2 [unitExpert 1, unitExpert 5] = some out ∧
      naiveForward (fun _ => 1) [⟨[1], rfl⟩] [⟨[1, 0], [2, 3]⟩] [unitExpert 1, unitExpert 5] =
        some out := by
  have hids : ∀ decision ∈ [(⟨[1, 0], [2, 3]⟩ : RoutingDecision ℚ)],
      decision.expertIds.length = 2 := by decide
  have hfits : Fits [1, 0] 2 2 := ⟨by decide, by decide, by decide⟩
  exact (moe_dispatch _ rfl hids (by decide) (by decide) (by decide) (Nat.le_refl 2)
    (by decide)).mpr hfits

/-- A block size of `2 ^ 32 + 1` is cast to one: the only token has a slot, but no block. -/
theorem wide_block_loses_tokens :
    moeAlignBlockSize [[0]] (2 ^ 32 + 1) 1 = some ⟨[0], [], 1⟩ ∧
      groupedForward (fun _ => 1) [⟨[1], rfl⟩] ⟨[0], [], 1⟩ [1] 1 [unitExpert 1] = some [[0]] ∧
      naiveForward (fun _ => 1) [⟨[1], rfl⟩] [⟨[0], [1]⟩] [unitExpert 1] = some [[1 / 2]] := by
  refine ⟨by decide +kernel, by decide +kernel, by decide +kernel⟩

end Moe
