/-
Geometry of a model, and the checks on it (`xabe-model/src/config.rs`, `verify.rs`).

The fields are the source's `u32`, whose arithmetic wraps as in a release build, and
counts of parameters are `u64`.  The band around an advertised parameter count is
drawn in floating point, and a parameter.  Fields that nothing here reads are left
out.
-/
import Mathlib.Data.Int.CardIntervalMod
import Mathlib.Data.Nat.Count
import Mathlib.Data.UInt
import Mathlib.Tactic

/-- The mixers. -/
inductive LayerKind where
  | gatedDeltaNet
  | gatedAttention
  deriving DecidableEq, Repr

/-- The recurrent mixer. -/
structure GdnConfig where
  valueHeads : UInt32
  qkHeads : UInt32
  headDim : UInt32
  convKernel : UInt32
  chunkLen : UInt32

/-- The attention mixer. -/
structure AttentionConfig where
  qHeads : UInt32
  kvHeads : UInt32
  headDim : UInt32
  ropeDim : UInt32

/-- A routed feed-forward block. -/
structure MoeConfig where
  numExperts : UInt32
  expertsPerToken : UInt32
  sharedExperts : UInt32
  expertIntermediate : UInt32

/-- A feed-forward block without experts. -/
structure DenseFfnConfig where
  intermediate : UInt32

/-- Matrices per expert: gate, up, down. -/
def MATS_PER_EXPERT : UInt32 := 3

/-- The feed-forward blocks, all of one kind. -/
inductive FfnConfig where
  | moe (m : MoeConfig)
  | dense (d : DenseFfnConfig)

namespace FfnConfig

/-- The routed block, if it is one. -/
def asMoe : FfnConfig → Option MoeConfig
  | moe m => some m
  | dense _ => none

/-- Width of one unit; for a routed block, of one expert. -/
def intermediate : FfnConfig → UInt32
  | moe m => m.expertIntermediate
  | dense d => d.intermediate

/-- Units whose weights exist in one layer. -/
def unitsPerLayer : FfnConfig → UInt32
  | moe m => m.numExperts + m.sharedExperts
  | dense _ => 1

end FfnConfig

/-- The geometry of a model. -/
structure ModelConfig where
  advertisedParams : UInt64
  numLayers : UInt32
  hiddenSize : UInt32
  vocabSize : UInt32
  patternPeriod : UInt32
  attentionOffset : UInt32
  gdn : GdnConfig
  attention : AttentionConfig
  ffn : FfnConfig
  hasMtp : Bool

namespace ModelConfig

variable (c : ModelConfig)

/-- Blocks of the draft head. -/
def mtpLayers : UInt32 := if c.hasMtp then 1 else 0

/-- Which mixer a layer uses. -/
def layerKind (index : ℕ) : LayerKind :=
  if index % c.patternPeriod.toNat = c.attentionOffset.toNat then .gatedAttention
  else .gatedDeltaNet

/-- Layers with a growing cache. -/
def numAttentionLayers : UInt32 := c.numLayers / c.patternPeriod

/-- Layers with a recurrent state. -/
def numGdnLayers : UInt32 := c.numLayers - c.numAttentionLayers

/-- The layers of one kind. -/
def layersOf (kind : LayerKind) : List ℕ :=
  (List.range c.numLayers.toNat).filter fun layer => c.layerKind layer = kind

/-- Weights of one unit. -/
def paramsPerFfnUnit : UInt64 :=
  MATS_PER_EXPERT.toUInt64 * c.hiddenSize.toUInt64 * c.ffn.intermediate.toUInt64

/-- Weights of every unit of every layer. -/
def totalFfnParams : UInt64 :=
  c.ffn.unitsPerLayer.toUInt64 * c.paramsPerFfnUnit * c.numLayers.toUInt64

/-- Both embedding matrices. -/
def embeddingParams : UInt64 := 2 * c.vocabSize.toUInt64 * c.hiddenSize.toUInt64

/-- The projections of one mixer. -/
def mixerParams (kind : LayerKind) : UInt64 :=
  let h := c.hiddenSize.toUInt64
  match kind with
  | .gatedDeltaNet =>
    let vDim := c.gdn.valueHeads.toUInt64 * c.gdn.headDim.toUInt64
    let qkDim := c.gdn.qkHeads.toUInt64 * c.gdn.headDim.toUInt64
    let proj := h * (2 * qkDim + 2 * vDim) + vDim * h
    let gates := h * c.gdn.valueHeads.toUInt64 * 2
    let conv := (2 * qkDim + vDim) * c.gdn.convKernel.toUInt64
    proj + gates + conv
  | .gatedAttention =>
    let qDim := c.attention.qHeads.toUInt64 * c.attention.headDim.toUInt64
    let kvDim := c.attention.kvHeads.toUInt64 * c.attention.headDim.toUInt64
    h * (qDim + 2 * kvDim) + qDim * h + h * qDim

/-- The router of a layer, if it has one. -/
def routerParams : UInt64 :=
  match c.ffn.asMoe with
  | some m => c.hiddenSize.toUInt64 * m.numExperts.toUInt64
  | none => 0

/-- Projections of all layers, without experts and embeddings. -/
def projectionParams : UInt64 :=
  (List.range c.numLayers.toNat).foldl
    (fun total layer => total + c.mixerParams (c.layerKind layer) + c.routerParams) 0

/-- What the geometry adds up to. -/
def totalParams : UInt64 := c.totalFfnParams + c.embeddingParams + c.projectionParams

end ModelConfig

/-! ### Checks -/

/-- A geometry that cannot be a model. -/
inductive ConfigError where
  | zero (field : String)
  | layerCountNotWholePeriods (layers period : UInt32)
  | attentionOffsetOutOfRange (offset period : UInt32)
  | gqaNotDivisible (qHeads kvHeads : UInt32)
  | ropeDimExceedsHeadDim (ropeDim headDim : UInt32)
  | moreExpertsActiveThanExist (active total : UInt32)
  | paramCountImplausible (derived advertised : UInt64)
  deriving DecidableEq

/-- The fields that may not be zero, in the order they are checked. -/
def nonzeroFields (c : ModelConfig) : List (String × UInt32) :=
  [("num_layers", c.numLayers), ("hidden_size", c.hiddenSize), ("vocab_size", c.vocabSize),
    ("pattern_period", c.patternPeriod), ("gdn.value_heads", c.gdn.valueHeads),
    ("gdn.qk_heads", c.gdn.qkHeads), ("gdn.head_dim", c.gdn.headDim),
    ("gdn.chunk_len", c.gdn.chunkLen), ("attention.q_heads", c.attention.qHeads),
    ("attention.kv_heads", c.attention.kvHeads), ("attention.head_dim", c.attention.headDim),
    ("ffn.intermediate", c.ffn.intermediate)]

/-- The fields of a routed block that may not be zero. -/
def nonzeroExperts (m : MoeConfig) : List (String × UInt32) :=
  [("moe.num_experts", m.numExperts), ("moe.experts_per_token", m.expertsPerToken)]

/-- The first of the fields that is zero is an error. -/
def checkNonzero (fields : List (String × UInt32)) : Except ConfigError Unit :=
  match fields.find? fun field => field.2 = 0 with
  | some (name, _) => .error (.zero name)
  | none => .ok ()

/-- The fields of a routed block, if there is one. -/
def checkExperts (c : ModelConfig) : Except ConfigError Unit :=
  match c.ffn.asMoe with
  | some m => checkNonzero (nonzeroExperts m)
  | none => .ok ()

/-- No token goes to more experts than there are. -/
def checkActive (c : ModelConfig) : Except ConfigError Unit :=
  match c.ffn.asMoe with
  | some m =>
    if m.expertsPerToken > m.numExperts then
      .error (.moreExpertsActiveThanExist m.expertsPerToken m.numExperts)
    else .ok ()
  | none => .ok ()

/-- An error in a bad case. -/
def rejectIf (bad : Bool) (e : ConfigError) : Except ConfigError Unit :=
  if bad then .error e else .ok ()

open ConfigError in
/-- An advertised count of zero is none. -/
def checkParams (inBand : UInt64 → UInt64 → Bool) (c : ModelConfig) : Except ConfigError Unit :=
  if c.advertisedParams = 0 then .ok ()
  else rejectIf (!inBand c.totalParams c.advertisedParams)
    ( paramCountImplausible c.totalParams c.advertisedParams)

/-- Check a configuration; `inBand` is the band around the advertised count. -/
def checkConfig (inBand : UInt64 → UInt64 → Bool) (c : ModelConfig) : Except ConfigError Unit := do
  checkNonzero (nonzeroFields c)
  checkExperts c
  rejectIf (c.numLayers % c.patternPeriod ≠ 0)
    (.layerCountNotWholePeriods c.numLayers c.patternPeriod)
  rejectIf (c.attentionOffset ≥ c.patternPeriod)
    (.attentionOffsetOutOfRange c.attentionOffset c.patternPeriod)
  rejectIf (c.attention.qHeads % c.attention.kvHeads ≠ 0)
    (.gqaNotDivisible c.attention.qHeads c.attention.kvHeads)
  rejectIf (c.attention.ropeDim > c.attention.headDim)
    (.ropeDimExceedsHeadDim c.attention.ropeDim c.attention.headDim)
  checkActive c
  checkParams inBand c

theorem checkNonzero_eq_ok {fields : List (String × UInt32)} (h : checkNonzero fields = .ok ()) :
    ∀ field ∈ fields, field.2 ≠ 0 := by
  unfold checkNonzero at h
  cases hfind : fields.find? fun field => field.2 = 0 with
  | some field =>
    rw [hfind] at h
    cases h
  | none =>
    intro field hfield
    have hnot := List.find?_eq_none.mp hfind field hfield
    rwa [decide_eq_true_eq] at hnot

/-- What a configuration that is accepted has been checked for, as far as it is counted with. -/
structure Accepted (c : ModelConfig) : Prop where
  layers : c.numLayers ≠ 0
  hidden : c.hiddenSize ≠ 0
  period : c.patternPeriod ≠ 0
  intermediate : c.ffn.intermediate ≠ 0
  whole : c.numLayers % c.patternPeriod = 0
  offset : c.attentionOffset < c.patternPeriod

theorem rejectIf_eq_ok {bad : Bool} {e : ConfigError} (h : rejectIf bad e = .ok ()) :
    bad = false := by
  cases bad with
  | true => cases h
  | false => rfl

/-- A check that passes, and those behind it. -/
theorem bind_eq_ok {ε : Type} {first : Except ε Unit} {rest : Except ε Unit}
    (h : (first >>= fun _ => rest) = .ok ()) : first = .ok () ∧ rest = .ok () := by
  cases first with
  | error e => cases h
  | ok _ => exact ⟨rfl, h⟩

theorem accepted_of_checkConfig {inBand : UInt64 → UInt64 → Bool} {c : ModelConfig}
    (h : checkConfig inBand c = .ok ()) : Accepted c := by
  unfold checkConfig at h
  obtain ⟨hfields, h⟩ := bind_eq_ok h
  obtain ⟨-, h⟩ := bind_eq_ok h
  obtain ⟨hwhole, h⟩ := bind_eq_ok h
  obtain ⟨hoffset, -⟩ := bind_eq_ok h
  have hnonzero := checkNonzero_eq_ok hfields
  refine ⟨hnonzero ("num_layers", c.numLayers) ?_, hnonzero ("hidden_size", c.hiddenSize) ?_,
    hnonzero ("pattern_period", c.patternPeriod) ?_,
    hnonzero ("ffn.intermediate", c.ffn.intermediate) ?_, ?_, ?_⟩
  · simp [nonzeroFields]
  · simp [nonzeroFields]
  · simp [nonzeroFields]
  · simp [nonzeroFields]
  · simpa using rejectIf_eq_ok hwhole
  · simpa using rejectIf_eq_ok hoffset

/-! ### Counting layers -/

namespace Accepted

variable {c : ModelConfig}

theorem layerKind_eq_attention_iff (h : Accepted c) (index : ℕ) :
    c.layerKind index = .gatedAttention ↔
      index ≡ c.attentionOffset.toNat [MOD c.patternPeriod.toNat] := by
  have hoffset := UInt32.lt_iff_toNat_lt.mp h.offset
  unfold ModelConfig.layerKind Nat.ModEq
  rw [Nat.mod_eq_of_lt hoffset]
  split
  case isTrue hindex => exact ⟨fun _ => hindex, fun _ => rfl⟩
  case isFalse hindex => exact ⟨fun hkind => (nomatch hkind), fun hindex' => absurd hindex' hindex⟩

theorem length_attention (h : Accepted c) :
    (c.layersOf .gatedAttention).length = c.numAttentionLayers.toNat := by
  have hperiod : 0 < c.patternPeriod.toNat :=
    Nat.pos_of_ne_zero fun hzero => h.period (UInt32.toNat_inj.mp hzero)
  have hwhole : c.numLayers.toNat % c.patternPeriod.toNat = 0 := by
    rw [← UInt32.toNat_mod, h.whole]
    rfl
  have hcount := Nat.count_modEq_card c.numLayers.toNat hperiod c.attentionOffset.toNat
  rw [hwhole, if_neg (Nat.not_lt_zero _), Nat.add_zero] at hcount
  rw [ModelConfig.layersOf, ModelConfig.numAttentionLayers, UInt32.toNat_div, ← hcount, Nat.count,
    List.countP_eq_length_filter]
  congr 1
  refine List.filter_congr fun index _ => ?_
  rw [decide_eq_decide]
  exact h.layerKind_eq_attention_iff index

/-- The other layers are recurrent. -/
theorem length_gdn (h : Accepted c) :
    (c.layersOf .gatedDeltaNet).length = c.numGdnLayers.toNat := by
  have hle : c.numAttentionLayers ≤ c.numLayers := by
    rw [UInt32.le_iff_toNat_le, ModelConfig.numAttentionLayers, UInt32.toNat_div]
    exact Nat.div_le_self _ _
  have hsplit : (c.layersOf .gatedAttention).length + (c.layersOf .gatedDeltaNet).length =
      c.numLayers.toNat := by
    have hlength := List.length_eq_length_filter_add (l := List.range c.numLayers.toNat)
      fun layer => decide (c.layerKind layer = .gatedAttention)
    rw [List.length_range] at hlength
    rw [hlength, ModelConfig.layersOf, ModelConfig.layersOf]
    congr 2
    refine List.filter_congr fun index _ => ?_
    cases c.layerKind index <;> rfl
  rw [ModelConfig.numGdnLayers, UInt32.toNat_sub_of_le _ _ hle, ← h.length_attention, ← hsplit,
    Nat.add_sub_cancel_left]

end Accepted
