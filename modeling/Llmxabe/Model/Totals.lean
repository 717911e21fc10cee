/-
The parameter count of a model against its tensors (`xabe-model/src/config.rs`,
`weights.rs`).

`total_params` is computed from the geometry alone.  It is the number of elements of
the tensors, norms and the gates of the shared experts apart, unless the number of
units in a layer wraps (`ModelConfig.accounting_agrees_iff`).
-/
import Llmxabe.Model.Weights

/-- The units of a layer, as they are. -/
def FfnConfig.units : FfnConfig → ℕ
  | .moe m => m.numExperts.toNat + m.sharedExperts.toNat
  | .dense _ => 1

namespace WeightSchema

/-! ### Elements -/

/-- Elements of some tensors; wraps. -/
def totalElements (specs : List TensorSpec) : UInt64 := (specs.map TensorSpec.nElements).sum

/-- Elements in one accounting section. -/
def sectionElements (specs : List TensorSpec) (s : Section) : UInt64 :=
  totalElements (specs.filter fun t => t.role.sectionOf = s)

/-- Elements of the tensors in one role. -/
def roleElements (specs : List TensorSpec) (role : Role) : UInt64 :=
  totalElements (specs.filter fun t => t.role = role)

/-- Elements that the closed forms count. -/
def countedElements (specs : List TensorSpec) : UInt64 :=
  totalElements (specs.filter fun t => t.role.sectionOf ≠ .norms ∧ t.role ≠ .moeSharedGateInp)

section

open scoped UInt64.CommRing

theorem totalElements_append (specs specs' : List TensorSpec) :
    totalElements (specs ++ specs') = totalElements specs + totalElements specs' := by
  unfold totalElements
  rw [List.map_append, List.sum_append]

@[simp] theorem countedElements_nil : countedElements [] = 0 := rfl

theorem countedElements_cons (t : TensorSpec) (specs : List TensorSpec) :
    countedElements (t :: specs) =
      (if t.role.sectionOf ≠ .norms ∧ t.role ≠ .moeSharedGateInp then t.nElements else 0) +
        countedElements specs := by
  unfold countedElements
  by_cases hcounted : t.role.sectionOf ≠ .norms ∧ t.role ≠ .moeSharedGateInp
  · rw [List.filter_cons_of_pos (by simpa using hcounted), if_pos hcounted]
    rfl
  · rw [List.filter_cons_of_neg (by simpa using hcounted), if_neg hcounted, zero_add]

theorem countedElements_append (specs specs' : List TensorSpec) :
    countedElements (specs ++ specs') = countedElements specs + countedElements specs' := by
  unfold countedElements
  rw [List.filter_append, totalElements_append]

theorem countedElements_flatMap (block : ℕ → List TensorSpec) (layers : List ℕ) :
    countedElements (layers.flatMap block) =
      (layers.map fun layer => countedElements (block layer)).sum := by
  induction layers with
  | nil => rfl
  | cons layer layers ih =>
    rw [List.flatMap_cons, countedElements_append, ih, List.map_cons, List.sum_cons]

theorem countedElements_eq (specs : List TensorSpec) :
    countedElements specs = totalElements specs - sectionElements specs .norms -
      roleElements specs .moeSharedGateInp := by
  induction specs with
  | nil => rfl
  | cons t specs ih =>
    have hcons : ∀ rest, totalElements (t :: rest) = t.nElements + totalElements rest :=
      fun rest => List.sum_cons
    unfold countedElements sectionElements roleElements at ih ⊢
    by_cases hnorm : t.role.sectionOf = .norms
    · have hgate : t.role ≠ .moeSharedGateInp := by
        intro hgate
        rw [hgate] at hnorm
        cases hnorm
      rw [List.filter_cons_of_neg (by simp [hnorm]), List.filter_cons_of_pos (by simpa using hnorm),
        List.filter_cons_of_neg (by simpa using hgate), hcons, hcons, ih]
      ring
    · by_cases hgate : t.role = .moeSharedGateInp
      · rw [List.filter_cons_of_neg (by simp [hgate]),
          List.filter_cons_of_neg (by simpa using hnorm),
          List.filter_cons_of_pos (by simpa using hgate), hcons, hcons, ih]
        ring
      · rw [List.filter_cons_of_pos (by simpa using ⟨hnorm, hgate⟩),
          List.filter_cons_of_neg (by simpa using hnorm),
          List.filter_cons_of_neg (by simpa using hgate), hcons, hcons, ih]
        ring

/-! ### A layer -/

variable (c : ModelConfig)

theorem counted_globalSpecs : countedElements (globalSpecs c) = c.embeddingParams := by
  simp only [globalSpecs, countedElements_cons, countedElements_nil, Role.sectionOf,
    TensorSpec.nElements, ModelConfig.embeddingParams, List.foldl_cons, List.foldl_nil, ne_eq,
    reduceCtorEq, not_true_eq_false, not_false_eq_true, and_true, if_true, if_false]
  ring

theorem counted_normSpecs (layer : ℕ) : countedElements (normSpecs c layer) = 0 := rfl

theorem counted_mixerSpecs (layer : ℕ) (kind : LayerKind) :
    countedElements (mixerSpecs c layer kind) = c.mixerParams kind := by
  cases kind with
  | gatedAttention =>
    simp only [mixerSpecs, countedElements_cons, countedElements_nil, Role.sectionOf,
      TensorSpec.nElements, ModelConfig.mixerParams, List.foldl_cons, List.foldl_nil, ne_eq,
      reduceCtorEq, not_true_eq_false, not_false_eq_true, and_true, if_true, if_false]
    ring
  | gatedDeltaNet =>
    simp only [mixerSpecs, countedElements_cons, countedElements_nil, Role.sectionOf,
      TensorSpec.nElements, ModelConfig.mixerParams, List.foldl_cons, List.foldl_nil, ne_eq,
      reduceCtorEq, not_true_eq_false, not_false_eq_true, and_true, if_true, if_false]
    ring

/-- The units of a layer, in elements. -/
def unitElements : UInt64 := UInt64.ofNat c.ffn.units * c.paramsPerFfnUnit

theorem counted_ffnSpecs (hshared : ∀ m, c.ffn = .moe m → m.sharedExperts = 1) (layer : ℕ) :
    countedElements (ffnSpecs c layer) = c.routerParams + unitElements c := by
  have hmats : MATS_PER_EXPERT.toUInt64 = 3 := rfl
  unfold ffnSpecs unitElements ModelConfig.routerParams ModelConfig.paramsPerFfnUnit
  rw [hmats]
  cases hffn : c.ffn with
  | moe m =>
    have hunits : UInt64.ofNat (FfnConfig.moe m).units = m.numExperts.toUInt64 + 1 := by
      rw [FfnConfig.units, hshared m hffn, UInt64.ofNat_add, UInt64.ofNat_uInt32ToNat]
      rfl
    rw [hunits]
    simp only [countedElements_cons, countedElements_nil, Role.sectionOf, TensorSpec.nElements,
      FfnConfig.asMoe, List.foldl_cons, List.foldl_nil, ne_eq, reduceCtorEq, not_true_eq_false,
      not_false_eq_true, and_true, and_false, if_true, if_false]
    ring
  | dense d =>
    have hunits : UInt64.ofNat (FfnConfig.dense d).units = 1 := rfl
    rw [hunits]
    simp only [countedElements_cons, countedElements_nil, Role.sectionOf, TensorSpec.nElements,
      FfnConfig.asMoe, List.foldl_cons, List.foldl_nil, ne_eq, reduceCtorEq, not_false_eq_true,
      and_true, if_true]
    ring

theorem counted_blockSpecs (hshared : ∀ m, c.ffn = .moe m → m.sharedExperts = 1) {layer : ℕ}
    (hlayer : layer < c.numLayers.toNat) :
    countedElements (blockSpecs c layer) =
      c.mixerParams (c.layerKind layer) + c.routerParams + unitElements c := by
  unfold blockSpecs
  rw [if_neg (Nat.not_le.mpr hlayer), countedElements_append, countedElements_append,
    counted_normSpecs, counted_mixerSpecs, counted_ffnSpecs c hshared, zero_add, ← add_assoc]

/-! ### All layers -/

/-- What the loop over the layers adds up. -/
theorem foldl_layers (mixer : ℕ → UInt64) (router : UInt64) (layers : List ℕ) (total : UInt64) :
    layers.foldl (fun total layer => total + mixer layer + router) total =
      total + (layers.map fun layer => mixer layer + router).sum := by
  induction layers generalizing total with
  | nil => exact (add_zero total).symm
  | cons layer layers ih =>
    rw [List.foldl_cons, ih, List.map_cons, List.sum_cons]
    ring

theorem ofNat_numLayers : (c.numLayers.toNat : UInt64) = c.numLayers.toUInt64 :=
  UInt64.ofNat_uInt32ToNat c.numLayers

theorem counted_new (hshared : ∀ m, c.ffn = .moe m → m.sharedExperts = 1) :
    countedElements (new c).specs =
      c.embeddingParams + c.projectionParams + c.numLayers.toUInt64 * unitElements c := by
  have hblocks : (List.range c.numLayers.toNat).map (fun layer =>
        countedElements (blockSpecs c layer)) =
      (List.range c.numLayers.toNat).map fun layer =>
        (c.mixerParams (c.layerKind layer) + c.routerParams) + unitElements c :=
    List.map_congr_left fun layer hlayer =>
      counted_blockSpecs c hshared (List.mem_range.mp hlayer)
  have hspecs : (new c).specs =
      globalSpecs c ++ (List.range c.numLayers.toNat).flatMap (blockSpecs c) := by
    simp [new, build]
  rw [hspecs, countedElements_append, counted_globalSpecs, countedElements_flatMap, hblocks,
    List.sum_map_add, ModelConfig.projectionParams, foldl_layers, List.map_const',
    List.length_range, List.sum_replicate, nsmul_eq_mul, ofNat_numLayers]
  ring

/-- The counts agree as soon as the units do. -/
theorem totalParams_eq_iff (hshared : ∀ m, c.ffn = .moe m → m.sharedExperts = 1) :
    c.totalParams = countedElements (new c).specs ↔
      c.totalFfnParams = c.numLayers.toUInt64 * unitElements c := by
  rw [counted_new c hshared, ModelConfig.totalParams, add_assoc, add_comm, add_right_inj]

/-! ### The units of a layer -/

theorem toNat_unitsPerLayer (ffn : FfnConfig) :
    ffn.unitsPerLayer.toNat = ffn.units % 2 ^ 32 := by
  cases ffn with
  | moe m => exact UInt32.toNat_add m.numExperts m.sharedExperts
  | dense d => rfl

theorem units_le (hshared : ∀ m, c.ffn = .moe m → m.sharedExperts = 1) :
    c.ffn.units ≤ 2 ^ 32 := by
  cases hffn : c.ffn with
  | moe m =>
    have hone : m.sharedExperts.toNat = 1 := by
      rw [hshared m hffn]
      rfl
    have hlt := m.numExperts.toNat_lt
    rw [FfnConfig.units, hone]
    omega
  | dense d => exact Nat.one_le_two_pow

/-- The elements of the feed-forward blocks, when they can be counted. -/
theorem toNat_unitElements
    (hproduct : c.ffn.units * (3 * c.hiddenSize.toNat * c.ffn.intermediate.toNat) *
      c.numLayers.toNat < 2 ^ 64) :
    (c.numLayers.toUInt64 * unitElements c).toNat =
      c.ffn.units * (3 * c.hiddenSize.toNat * c.ffn.intermediate.toNat) * c.numLayers.toNat := by
  have hmats : MATS_PER_EXPERT.toUInt64.toNat = 3 := rfl
  rw [mul_comm, unitElements, ModelConfig.paramsPerFfnUnit]
  simp only [UInt64.toNat_mul, UInt64.toNat_ofNat', UInt32.toNat_toUInt64, hmats, Nat.mod_mul_mod,
    Nat.mul_mod_mod]
  exact Nat.mod_eq_of_lt hproduct

theorem totalFfnParams_eq_iff (haccepted : Accepted c)
    (hshared : ∀ m, c.ffn = .moe m → m.sharedExperts = 1)
    (hproduct : c.ffn.units * (3 * c.hiddenSize.toNat * c.ffn.intermediate.toNat) *
      c.numLayers.toNat < 2 ^ 64) :
    c.totalFfnParams = c.numLayers.toUInt64 * unitElements c ↔ c.ffn.units < 2 ^ 32 := by
  have hunits := units_le c hshared
  constructor
  · intro htotal
    by_contra hwrapped
    -- the units wrap to none, and there are elements
    have hnone : c.ffn.unitsPerLayer = 0 := by
      refine UInt32.toNat_inj.mp ?_
      rw [toNat_unitsPerLayer, le_antisymm hunits (not_lt.mp hwrapped)]
      rfl
    have hzero : c.totalFfnParams = 0 := by
      rw [ModelConfig.totalFfnParams, hnone]
      show (0 : UInt64) * _ * _ = 0
      rw [zero_mul, zero_mul]
    have hproduct0 := toNat_unitElements c hproduct
    rw [← htotal, hzero] at hproduct0
    have hpos : ∀ {n : UInt32}, n ≠ 0 → 0 < n.toNat :=
      fun hn => Nat.pos_of_ne_zero fun h => hn (UInt32.toNat_inj.mp h)
    have : 0 < c.ffn.units * (3 * c.hiddenSize.toNat * c.ffn.intermediate.toNat) *
        c.numLayers.toNat :=
      Nat.mul_pos (Nat.mul_pos (by omega) (Nat.mul_pos (Nat.mul_pos (by decide)
        (hpos haccepted.hidden)) (hpos haccepted.intermediate))) (hpos haccepted.layers)
    exact absurd hproduct0.symm this.ne'
  · intro hfits
    have hexact : c.ffn.unitsPerLayer.toUInt64 = UInt64.ofNat c.ffn.units := by
      refine UInt64.toNat_inj.mp ?_
      rw [UInt32.toNat_toUInt64, toNat_unitsPerLayer, Nat.mod_eq_of_lt hfits,
        UInt64.toNat_ofNat_of_lt' (by simp only [UInt64.size]; omega)]
    rw [ModelConfig.totalFfnParams, hexact, unitElements]
    ring

end

/-! ### The mixers of the layers -/

variable (c : ModelConfig)

/-- Look up one tensor by role and layer. -/
def find (schema : WeightSchema) (role : Role) (layer : Option ℕ) : Option TensorSpec :=
  schema.specs.find? fun t => t.role = role ∧ t.layer = layer

/-- Trunk layers that have all tensors of a mixer and none of another. -/
def layersWith (schema : WeightSchema) (roles others : List Role) : List ℕ :=
  (List.range c.numLayers.toNat).filter fun layer =>
    (∀ role ∈ roles, (schema.find role layer).isSome) ∧
      ∀ role ∈ others, (schema.find role layer) = none

theorem find_isSome_iff {includesMtp : Bool} {layer : ℕ}
    (hlayer : layer < (c.numLayers + if includesMtp then c.mtpLayers else 0).toNat) (role : Role) :
    ((build c includesMtp).find role layer).isSome ↔
      role ∈ (blockSpecs c layer).map TensorSpec.role := by
  unfold find
  rw [List.find?_isSome]
  constructor
  · rintro ⟨t, ht, hfound⟩
    obtain ⟨rfl, htlayer⟩ := of_decide_eq_true hfound
    rcases List.mem_append.mp ht with hglobal | hblock
    · simp only [globalSpecs, List.mem_cons, List.not_mem_nil, or_false] at hglobal
      rcases hglobal with rfl | rfl | rfl <;> cases htlayer
    · obtain ⟨layer', -, ht'⟩ := List.mem_flatMap.mp hblock
      rw [blockSpecs_layer c ht'] at htlayer
      rw [← Option.some.inj htlayer]
      exact List.mem_map_of_mem ht'
  · intro hrole
    obtain ⟨t, ht, rfl⟩ := List.mem_map.mp hrole
    refine ⟨t, List.mem_append_right _ (List.mem_flatMap.mpr ⟨layer, List.mem_range.mpr hlayer, ht⟩),
      decide_eq_true ⟨rfl, blockSpecs_layer c ht⟩⟩

/-- The trunk layers of a kind have its tensors, and none of the other kind's. -/
theorem layersWith_eq {includesMtp : Bool}
    (hlayers : c.numLayers ≤ c.numLayers + if includesMtp then c.mtpLayers else 0)
    {kind other : LayerKind} (hother : kind ≠ other) :
    layersWith c (build c includesMtp) (rolesOf kind) (rolesOf other) = c.layersOf kind := by
  refine List.filter_congr fun layer hlayer => ?_
  have htrunk : layer < c.numLayers.toNat := List.mem_range.mp hlayer
  have hfind := find_isSome_iff c (lt_of_lt_of_le htrunk (UInt32.le_iff_toNat_le.mp hlayers))
  rw [decide_eq_decide]
  constructor
  · rintro ⟨hroles, -⟩
    obtain ⟨role, hrole⟩ : ∃ role, role ∈ rolesOf kind := by
      cases kind with
      | gatedAttention => exact ⟨.attnK, by decide⟩
      | gatedDeltaNet => exact ⟨.gdnA, by decide⟩
    exact (mem_blockSpecs_roles c htrunk hrole).mp ((hfind role).mp (hroles role hrole))
  · rintro rfl
    refine ⟨fun role hrole => (hfind role).mpr ((mem_blockSpecs_roles c htrunk hrole).mpr rfl), ?_⟩
    intro role hrole
    rw [← Option.not_isSome_iff_eq_none, hfind, mem_blockSpecs_roles c htrunk hrole]
    exact hother

/-- Layers without a tensor have none. -/
theorem layersWith_eq_nil {schema : WeightSchema} (hspecs : ∀ t ∈ schema.specs, t.layer = none)
    {role : Role} {roles : List Role} (hrole : role ∈ roles) (others : List Role) :
    layersWith c schema roles others = [] := by
  refine List.filter_eq_nil_iff.mpr fun layer _ hfound => ?_
  have hsome := (of_decide_eq_true hfound).1 role hrole
  obtain ⟨t, ht, hrole'⟩ := List.find?_isSome.mp hsome
  have hlayer := (of_decide_eq_true hrole').2
  rw [hspecs t ht] at hlayer
  cases hlayer

theorem layers_le_new : c.numLayers ≤ c.numLayers + if false then c.mtpLayers else 0 := by
  simp

theorem layers_le_withMtp (hmtp : c.hasMtp → c.numLayers.toNat + 1 < 2 ^ 32) :
    c.numLayers ≤ c.numLayers + if true then c.mtpLayers else 0 := by
  rw [if_pos rfl, ModelConfig.mtpLayers, UInt32.le_iff_toNat_le, UInt32.toNat_add]
  split
  case isTrue hhas =>
    have hlt : c.numLayers.toNat + (1 : UInt32).toNat < 2 ^ 32 := hmtp hhas
    rw [Nat.mod_eq_of_lt hlt]
    exact Nat.le_add_right _ _
  case isFalse => exact (Nat.mod_eq_of_lt c.numLayers.toNat_lt).ge

/-- Where the count of blocks wraps, no block is left. -/
theorem withMtp_specs_of_wrapped (hhas : c.hasMtp) (hlayers : 2 ^ 32 ≤ c.numLayers.toNat + 1) :
    (withMtp c).specs = globalSpecs c := by
  have hlt := c.numLayers.toNat_lt
  have hblocks : (c.numLayers + c.mtpLayers).toNat = 0 := by
    rw [ModelConfig.mtpLayers, if_pos hhas, UInt32.toNat_add]
    show (c.numLayers.toNat + 1) % 2 ^ 32 = 0
    omega
  rw [withMtp, build, if_pos rfl, hblocks]
  exact List.append_nil _

end WeightSchema

/-! ### Accounting -/

namespace ModelConfig

open WeightSchema

/-- The accounting agrees with the tensors that the schemas name. -/
structure Agrees (c : ModelConfig) : Prop where
  names : ∀ schema ∈ [new c, withMtp c], (schema.specs.map TensorSpec.name).Nodup
  attention : ∀ schema ∈ [new c, withMtp c],
    (layersWith c schema attentionRoles gdnRoles).length = c.numAttentionLayers.toNat
  gdn : ∀ schema ∈ [new c, withMtp c],
    (layersWith c schema gdnRoles attentionRoles).length = c.numGdnLayers.toNat
  params : c.totalParams = totalElements (new c).specs - sectionElements (new c).specs .norms -
    roleElements (new c).specs .moeSharedGateInp

/-- The counts of units in a layer and of blocks fit their type. -/
structure Fits (c : ModelConfig) : Prop where
  units : c.ffn.units < 2 ^ 32
  blocks : c.hasMtp → c.numLayers.toNat + 1 < 2 ^ 32

theorem params_iff {c : ModelConfig} (haccepted : Accepted c)
    (hshared : ∀ m, c.ffn = .moe m → m.sharedExperts = 1)
    (hproduct : c.ffn.units * (3 * c.hiddenSize.toNat * c.ffn.intermediate.toNat) *
      c.numLayers.toNat < 2 ^ 64) :
    c.totalParams = totalElements (new c).specs - sectionElements (new c).specs .norms -
        roleElements (new c).specs .moeSharedGateInp ↔
      c.ffn.units < 2 ^ 32 := by
  rw [← countedElements_eq, totalParams_eq_iff c hshared,
    totalFfnParams_eq_iff c haccepted hshared hproduct]

theorem numAttentionLayers_pos {c : ModelConfig} (haccepted : Accepted c) :
    0 < c.numAttentionLayers.toNat := by
  have hpos : ∀ {n : UInt32}, n ≠ 0 → 0 < n.toNat :=
    fun hn => Nat.pos_of_ne_zero fun h => hn (UInt32.toNat_inj.mp h)
  have hwhole : c.numLayers.toNat % c.patternPeriod.toNat = 0 := by
    rw [← UInt32.toNat_mod, haccepted.whole]
    rfl
  rw [numAttentionLayers, UInt32.toNat_div]
  exact Nat.div_pos (Nat.le_of_dvd (hpos haccepted.layers) (Nat.dvd_of_mod_eq_zero hwhole))
    (hpos haccepted.period)

theorem length_layersWith {c : ModelConfig} (haccepted : Accepted c) {includesMtp : Bool}
    (hlayers : c.numLayers ≤ c.numLayers + if includesMtp then c.mtpLayers else 0) :
    (layersWith c (build c includesMtp) attentionRoles gdnRoles).length =
        c.numAttentionLayers.toNat ∧
      (layersWith c (build c includesMtp) gdnRoles attentionRoles).length =
        c.numGdnLayers.toNat := by
  have hattention : layersWith c (build c includesMtp) (rolesOf .gatedAttention)
      (rolesOf .gatedDeltaNet) = c.layersOf .gatedAttention :=
    layersWith_eq c hlayers (by decide)
  have hgdn : layersWith c (build c includesMtp) (rolesOf .gatedDeltaNet)
      (rolesOf .gatedAttention) = c.layersOf .gatedDeltaNet :=
    layersWith_eq c hlayers (by decide)
  constructor
  · rw [← haccepted.length_attention, ← hattention]
    rfl
  · rw [← haccepted.length_gdn, ← hgdn]
    rfl

/-- Accounting and tensors agree exactly when the counts of units and of blocks do not wrap. -/
theorem accounting_agrees_iff {inBand : UInt64 → UInt64 → Bool} {c : ModelConfig}
    (hcheck : checkConfig inBand c = .ok ())
    (hshared : ∀ m, c.ffn = .moe m → m.sharedExperts = 1)
    (hproduct : c.ffn.units * (3 * c.hiddenSize.toNat * c.ffn.intermediate.toNat) *
      c.numLayers.toNat < 2 ^ 64) :
    Agrees c ↔ Fits c := by
  have haccepted := accepted_of_checkConfig hcheck
  constructor
  · intro hagrees
    refine ⟨(params_iff haccepted hshared hproduct).mp hagrees.params, fun hhas => ?_⟩
    by_contra hwrapped
    have hmem : Role.attnK ∈ attentionRoles := by decide
    have hnil : layersWith c (withMtp c) attentionRoles gdnRoles = [] := by
      refine layersWith_eq_nil c ?_ hmem gdnRoles
      rw [withMtp_specs_of_wrapped c hhas (not_lt.mp hwrapped)]
      intro t ht
      simp only [globalSpecs, List.mem_cons, List.not_mem_nil, or_false] at ht
      rcases ht with rfl | rfl | rfl <;> rfl
    have hcount := hagrees.attention (withMtp c) (by simp)
    rw [hnil] at hcount
    exact absurd hcount (numAttentionLayers_pos haccepted).ne
  · intro hfits
    obtain ⟨hattention, hgdn⟩ := length_layersWith haccepted (layers_le_new c)
    obtain ⟨hattention', hgdn'⟩ := length_layersWith haccepted (layers_le_withMtp c hfits.blocks)
    refine ⟨?_, ?_, ?_, (params_iff haccepted hshared hproduct).mpr hfits.units⟩
    · intro schema hschema
      simp only [List.mem_cons, List.not_mem_nil, or_false] at hschema
      rcases hschema with rfl | rfl
      · exact names_nodup c false
      · exact names_nodup c true
    · intro schema hschema
      simp only [List.mem_cons, List.not_mem_nil, or_false] at hschema
      rcases hschema with rfl | rfl
      · exact hattention
      · exact hattention'
    · intro schema hschema
      simp only [List.mem_cons, List.not_mem_nil, or_false] at hschema
      rcases hschema with rfl | rfl
      · exact hgdn
      · exact hgdn'

/-- The routed model of 35 billion parameters. -/
def qwen3_6_35b_a3b : ModelConfig where
  advertisedParams := 35000000000
  numLayers := 40
  hiddenSize := 2048
  vocabSize := 248320
  patternPeriod := 4
  attentionOffset := 3
  gdn := ⟨32, 16, 128, 4, 64⟩
  attention := ⟨16, 2, 256, 64⟩
  ffn := .moe ⟨256, 8, 1, 512⟩
  hasMtp := true

/-- Within a twentieth of the advertised count. -/
def paramBand (derived advertised : UInt64) : Bool :=
  20 * ((derived.toNat : ℤ) - advertised.toNat).natAbs ≤ advertised.toNat

theorem accounting_agrees_iff_qwen :
    checkConfig paramBand qwen3_6_35b_a3b = .ok () ∧
      (Agrees qwen3_6_35b_a3b ↔ Fits qwen3_6_35b_a3b) := by
  have hcheck : checkConfig paramBand qwen3_6_35b_a3b = .ok () := by decide +kernel
  refine ⟨hcheck, accounting_agrees_iff hcheck ?_ (by decide)⟩
  rintro m ⟨⟩
  rfl

/-- One layer of the most experts that a count can be. -/
def mostExperts : ModelConfig where
  advertisedParams := 0
  numLayers := 1
  hiddenSize := 1
  vocabSize := 1
  patternPeriod := 1
  attentionOffset := 0
  gdn := ⟨1, 1, 1, 4, 64⟩
  attention := ⟨1, 1, 1, 1⟩
  ffn := .moe ⟨4294967295, 8, 1, 1⟩
  hasMtp := false

/-- With the shared expert the units of a layer wrap to none, and the experts are not counted. -/
theorem mostExperts_disagrees :
    checkConfig paramBand mostExperts = .ok () ∧
      (∀ m, mostExperts.ffn = .moe m → m.sharedExperts = 1) ∧
      mostExperts.ffn.units * (3 * mostExperts.hiddenSize.toNat *
        mostExperts.ffn.intermediate.toNat) * mostExperts.numLayers.toNat < 2 ^ 64 ∧
      ¬ Agrees mostExperts := by
  refine ⟨by decide +kernel, ?_, by decide, fun hagrees => ?_⟩
  · rintro m ⟨⟩
    rfl
  · exact absurd hagrees.params (by decide +kernel)

end ModelConfig
