/-
The tensors a model needs (`xabe-model/src/weights.rs`): names, roles and shapes.

A tensor's name is its block and its role's suffix, so tensors of different blocks
or roles have different names (`TensorSpec.name_injective`).
-/
import Llmxabe.Model.Config
import Std.Data.String.ToNat

/-- What a tensor is for. -/
inductive Role where
  | tokenEmbedding
  | outputNorm
  | lmHead
  | inputNorm
  | postMixerNorm
  | attnQGate
  | attnK
  | attnV
  | attnQNorm
  | attnKNorm
  | attnOut
  | gdnQkv
  | gdnGate
  | gdnConv1d
  | gdnA
  | gdnAlpha
  | gdnBeta
  | gdnDtBias
  | gdnNorm
  | gdnOut
  | moeRouter
  | moeGateExps
  | moeUpExps
  | moeDownExps
  | moeSharedGateInp
  | moeSharedGate
  | moeSharedUp
  | moeSharedDown
  | ffnGate
  | ffnUp
  | ffnDown
  | mtpEhProj
  | mtpENorm
  | mtpHNorm
  | mtpSharedHeadNorm
  deriving DecidableEq, Repr

/-- Accounting buckets. -/
inductive Section where
  | embedding
  | lmHead
  | experts
  | denseFfn
  | projections
  | norms
  | mtp
  deriving DecidableEq, Repr

namespace Role

/-- Where the elements of a role are counted. -/
def sectionOf : Role → Section
  | tokenEmbedding => .embedding
  | lmHead => .lmHead
  | moeGateExps | moeUpExps | moeDownExps => .experts
  | ffnGate | ffnUp | ffnDown => .denseFfn
  | outputNorm | inputNorm | postMixerNorm | attnQNorm | attnKNorm | gdnNorm | gdnA | gdnDtBias =>
    .norms
  | mtpEhProj | mtpENorm | mtpHNorm | mtpSharedHeadNorm => .mtp
  | _ => .projections

/-- The name without its block; the whole name of a global tensor. -/
def suffix : Role → String
  | tokenEmbedding => "token_embd.weight"
  | outputNorm => "output_norm.weight"
  | lmHead => "output.weight"
  | inputNorm => "attn_norm.weight"
  | postMixerNorm => "post_attention_norm.weight"
  | attnQGate => "attn_q.weight"
  | attnK => "attn_k.weight"
  | attnV => "attn_v.weight"
  | attnQNorm => "attn_q_norm.weight"
  | attnKNorm => "attn_k_norm.weight"
  | attnOut => "attn_output.weight"
  | gdnQkv => "attn_qkv.weight"
  | gdnGate => "attn_gate.weight"
  | gdnConv1d => "ssm_conv1d.weight"
  | gdnA => "ssm_a"
  | gdnAlpha => "ssm_alpha.weight"
  | gdnBeta => "ssm_beta.weight"
  | gdnDtBias => "ssm_dt.bias"
  | gdnNorm => "ssm_norm.weight"
  | gdnOut => "ssm_out.weight"
  | moeRouter => "ffn_gate_inp.weight"
  | moeGateExps => "ffn_gate_exps.weight"
  | moeUpExps => "ffn_up_exps.weight"
  | moeDownExps => "ffn_down_exps.weight"
  | moeSharedGateInp => "ffn_gate_inp_shexp.weight"
  | moeSharedGate => "ffn_gate_shexp.weight"
  | moeSharedUp => "ffn_up_shexp.weight"
  | moeSharedDown => "ffn_down_shexp.weight"
  | ffnGate => "ffn_gate.weight"
  | ffnUp => "ffn_up.weight"
  | ffnDown => "ffn_down.weight"
  | mtpEhProj => "nextn.eh_proj.weight"
  | mtpENorm => "nextn.enorm.weight"
  | mtpHNorm => "nextn.hnorm.weight"
  | mtpSharedHeadNorm => "nextn.shared_head_norm.weight"

/-- The role of a suffix. -/
def ofSuffix (s : String) : Option Role :=
  [tokenEmbedding, outputNorm, lmHead, inputNorm, postMixerNorm, attnQGate, attnK, attnV, attnQNorm,
    attnKNorm, attnOut, gdnQkv, gdnGate, gdnConv1d, gdnA, gdnAlpha, gdnBeta, gdnDtBias, gdnNorm,
    gdnOut, moeRouter, moeGateExps, moeUpExps, moeDownExps, moeSharedGateInp, moeSharedGate,
    moeSharedUp, moeSharedDown, ffnGate, ffnUp, ffnDown, mtpEhProj, mtpENorm, mtpHNorm,
    mtpSharedHeadNorm].find? fun role => role.suffix = s

theorem ofSuffix_suffix (role : Role) : ofSuffix role.suffix = some role := by
  cases role <;> decide

theorem suffix_injective : Function.Injective suffix := by
  intro role role' h
  have hrole := ofSuffix_suffix role
  rw [h, ofSuffix_suffix] at hrole
  exact (Option.some.inj hrole).symm

end Role

/-- A tensor that the model needs. -/
structure TensorSpec where
  role : Role
  layer : Option ℕ
  dims : List UInt64

namespace TensorSpec

/-- The name in the file. -/
def nameOf (role : Role) : Option ℕ → String
  | some i => "blk." ++ i.repr ++ "." ++ role.suffix
  | none => role.suffix

/-- The name of the tensor. -/
def name (t : TensorSpec) : String := nameOf t.role t.layer

/-- Its elements; the product wraps. -/
def nElements (t : TensorSpec) : UInt64 := t.dims.foldl (· * ·) 1

/-- A block's number is spelled in digits. -/
theorem dot_not_mem_repr (i : ℕ) : '.' ∉ i.repr.toList := by
  rw [Nat.toList_repr]
  intro hmem
  exact absurd (Nat.isDigit_of_mem_toDigits (by decide) (by decide) hmem) (by decide)

/-- Texts without the separator in front of it. -/
theorem append_dot_inj {a a' b b' : List Char} (ha : '.' ∉ a) (ha' : '.' ∉ a')
    (h : a ++ '.' :: b = a' ++ '.' :: b') : a = a' ∧ b = b' := by
  induction a generalizing a' with
  | nil =>
    cases a' with
    | nil => exact ⟨rfl, (List.cons.inj h).2⟩
    | cons x a' => exact absurd ((List.cons.inj h).1 ▸ List.mem_cons_self) ha'
  | cons x a ih =>
    cases a' with
    | nil => exact absurd ((List.cons.inj h).1 ▸ List.mem_cons_self) ha
    | cons x' a' =>
      obtain ⟨rfl, hrest⟩ := List.cons.inj h
      obtain ⟨rfl, rfl⟩ := ih (fun hmem => ha (List.mem_cons_of_mem _ hmem))
        (fun hmem => ha' (List.mem_cons_of_mem _ hmem)) hrest
      exact ⟨rfl, rfl⟩

theorem toList_nameOf_some (role : Role) (i : ℕ) :
    (nameOf role (some i)).toList =
      ['b', 'l', 'k'] ++ '.' :: (i.repr.toList ++ '.' :: role.suffix.toList) := by
  simp [nameOf, String.toList_append]

/-- No whole name starts as a block's does. -/
theorem suffix_ne_block (role : Role) (rest : List Char) :
    role.suffix.toList ≠ ['b', 'l', 'k'] ++ '.' :: rest := by
  intro h
  have hprefix : ['b', 'l', 'k', '.'] <+: role.suffix.toList := by
    rw [h]
    exact ⟨rest, rfl⟩
  revert hprefix
  cases role <;> decide

theorem nameOf_injective {role role' : Role} {layer layer' : Option ℕ}
    (h : nameOf role layer = nameOf role' layer') : role = role' ∧ layer = layer' := by
  have hlist := congrArg String.toList h
  cases layer with
  | none =>
    cases layer' with
    | none => exact ⟨Role.suffix_injective h, rfl⟩
    | some i' =>
      rw [toList_nameOf_some] at hlist
      exact absurd hlist (suffix_ne_block role _)
  | some i =>
    cases layer' with
    | none =>
      rw [toList_nameOf_some] at hlist
      exact absurd hlist.symm (suffix_ne_block role' _)
    | some i' =>
      rw [toList_nameOf_some, toList_nameOf_some] at hlist
      have hrest := (append_dot_inj (by decide) (by decide) hlist).2
      obtain ⟨hrepr, hsuffix⟩ := append_dot_inj (dot_not_mem_repr i) (dot_not_mem_repr i') hrest
      exact ⟨Role.suffix_injective (String.toList_inj.mp hsuffix),
        congrArg some (Nat.repr_inj.mp (String.toList_inj.mp hrepr))⟩

end TensorSpec

/-! ### The schema -/

/-- The tensors of a model. -/
structure WeightSchema where
  specs : List TensorSpec
  includesMtp : Bool

namespace WeightSchema

variable (c : ModelConfig)

/-- The tensors that belong to no block. -/
def globalSpecs : List TensorSpec :=
  let hidden := c.hiddenSize.toUInt64
  let vocab := c.vocabSize.toUInt64
  [⟨.tokenEmbedding, none, [hidden, vocab]⟩, ⟨.outputNorm, none, [hidden]⟩,
    ⟨.lmHead, none, [hidden, vocab]⟩]

/-- The norms around a mixer. -/
def normSpecs (layer : ℕ) : List TensorSpec :=
  let hidden := c.hiddenSize.toUInt64
  [⟨.inputNorm, layer, [hidden]⟩, ⟨.postMixerNorm, layer, [hidden]⟩]

/-- The tensors of a mixer. -/
def mixerSpecs (layer : ℕ) : LayerKind → List TensorSpec
  | .gatedAttention =>
    let hidden := c.hiddenSize.toUInt64
    let headDim := c.attention.headDim.toUInt64
    let qDim := c.attention.qHeads.toUInt64 * headDim
    let kvDim := c.attention.kvHeads.toUInt64 * headDim
    [⟨.attnQGate, layer, [hidden, qDim * 2]⟩, ⟨.attnK, layer, [hidden, kvDim]⟩,
      ⟨.attnV, layer, [hidden, kvDim]⟩, ⟨.attnQNorm, layer, [headDim]⟩,
      ⟨.attnKNorm, layer, [headDim]⟩, ⟨.attnOut, layer, [qDim, hidden]⟩]
  | .gatedDeltaNet =>
    let hidden := c.hiddenSize.toUInt64
    let valueHeads := c.gdn.valueHeads.toUInt64
    let keyDim := c.gdn.qkHeads.toUInt64 * c.gdn.headDim.toUInt64
    let valueDim := valueHeads * c.gdn.headDim.toUInt64
    [⟨.gdnQkv, layer, [hidden, keyDim * 2 + valueDim]⟩, ⟨.gdnGate, layer, [hidden, valueDim]⟩,
      ⟨.gdnConv1d, layer, [c.gdn.convKernel.toUInt64, keyDim * 2 + valueDim]⟩,
      ⟨.gdnA, layer, [valueHeads]⟩, ⟨.gdnAlpha, layer, [hidden, valueHeads]⟩,
      ⟨.gdnBeta, layer, [hidden, valueHeads]⟩, ⟨.gdnDtBias, layer, [valueHeads]⟩,
      ⟨.gdnNorm, layer, [c.gdn.headDim.toUInt64]⟩, ⟨.gdnOut, layer, [valueDim, hidden]⟩]

/-- The tensors of a feed-forward block. -/
def ffnSpecs (layer : ℕ) : List TensorSpec :=
  let hidden := c.hiddenSize.toUInt64
  let ff := c.ffn.intermediate.toUInt64
  match c.ffn with
  | .moe m =>
    let experts := m.numExperts.toUInt64
    [⟨.moeRouter, layer, [hidden, experts]⟩, ⟨.moeGateExps, layer, [hidden, ff, experts]⟩,
      ⟨.moeUpExps, layer, [hidden, ff, experts]⟩, ⟨.moeDownExps, layer, [ff, hidden, experts]⟩,
      ⟨.moeSharedGateInp, layer, [hidden]⟩, ⟨.moeSharedGate, layer, [hidden, ff]⟩,
      ⟨.moeSharedUp, layer, [hidden, ff]⟩, ⟨.moeSharedDown, layer, [ff, hidden]⟩]
  | .dense _ =>
    [⟨.ffnGate, layer, [hidden, ff]⟩, ⟨.ffnUp, layer, [hidden, ff]⟩,
      ⟨.ffnDown, layer, [ff, hidden]⟩]

/-- What a block of the draft head has besides. -/
def mtpSpecs (layer : ℕ) : List TensorSpec :=
  let hidden := c.hiddenSize.toUInt64
  [⟨.mtpEhProj, layer, [hidden * 2, hidden]⟩, ⟨.mtpENorm, layer, [hidden]⟩,
    ⟨.mtpHNorm, layer, [hidden]⟩, ⟨.mtpSharedHeadNorm, layer, [hidden]⟩]

/-- One block; the one behind the trunk is the attention block of the draft head. -/
def blockSpecs (layer : ℕ) : List TensorSpec :=
  if c.numLayers.toNat ≤ layer then
    normSpecs c layer ++ mixerSpecs c layer .gatedAttention ++ ffnSpecs c layer ++ mtpSpecs c layer
  else normSpecs c layer ++ mixerSpecs c layer (c.layerKind layer) ++ ffnSpecs c layer

/-- Every tensor, with the draft head or without it. -/
def build (includesMtp : Bool) : WeightSchema :=
  let mtpBlocks := if includesMtp then c.mtpLayers else 0
  ⟨globalSpecs c ++ (List.range (c.numLayers + mtpBlocks).toNat).flatMap (blockSpecs c),
    includesMtp⟩

/-- The trunk alone. -/
def new : WeightSchema := build c false

/-- The trunk and the draft head. -/
def withMtp : WeightSchema := build c true

/-! ### Blocks -/

theorem normSpecs_layer {layer : ℕ} {t : TensorSpec} (h : t ∈ normSpecs c layer) :
    t.layer = some layer := by
  simp only [normSpecs, List.mem_cons, List.not_mem_nil, or_false] at h
  rcases h with rfl | rfl <;> rfl

theorem mixerSpecs_layer {layer : ℕ} {kind : LayerKind} {t : TensorSpec}
    (h : t ∈ mixerSpecs c layer kind) : t.layer = some layer := by
  cases kind with
  | gatedAttention =>
    simp only [mixerSpecs, List.mem_cons, List.not_mem_nil, or_false] at h
    rcases h with rfl | rfl | rfl | rfl | rfl | rfl <;> rfl
  | gatedDeltaNet =>
    simp only [mixerSpecs, List.mem_cons, List.not_mem_nil, or_false] at h
    rcases h with rfl | rfl | rfl | rfl | rfl | rfl | rfl | rfl | rfl <;> rfl

theorem ffnSpecs_layer {layer : ℕ} {t : TensorSpec} (h : t ∈ ffnSpecs c layer) :
    t.layer = some layer := by
  unfold ffnSpecs at h
  cases hffn : c.ffn with
  | moe m =>
    simp only [hffn, List.mem_cons, List.not_mem_nil, or_false] at h
    rcases h with rfl | rfl | rfl | rfl | rfl | rfl | rfl | rfl <;> rfl
  | dense d =>
    simp only [hffn, List.mem_cons, List.not_mem_nil, or_false] at h
    rcases h with rfl | rfl | rfl <;> rfl

theorem mtpSpecs_layer {layer : ℕ} {t : TensorSpec} (h : t ∈ mtpSpecs c layer) :
    t.layer = some layer := by
  simp only [mtpSpecs, List.mem_cons, List.not_mem_nil, or_false] at h
  rcases h with rfl | rfl | rfl | rfl <;> rfl

theorem blockSpecs_layer {layer : ℕ} {t : TensorSpec} (h : t ∈ blockSpecs c layer) :
    t.layer = some layer := by
  unfold blockSpecs at h
  split at h
  · rw [List.mem_append, List.mem_append, List.mem_append] at h
    rcases h with ((h | h) | h) | h
    · exact normSpecs_layer c h
    · exact mixerSpecs_layer c h
    · exact ffnSpecs_layer c h
    · exact mtpSpecs_layer c h
  · rw [List.mem_append, List.mem_append] at h
    rcases h with (h | h) | h
    · exact normSpecs_layer c h
    · exact mixerSpecs_layer c h
    · exact ffnSpecs_layer c h

/-! ### Roles -/

/-- The roles of an attention mixer. -/
def attentionRoles : List Role := [.attnQGate, .attnK, .attnV, .attnQNorm, .attnKNorm, .attnOut]

/-- The roles of a recurrent mixer. -/
def gdnRoles : List Role :=
  [.gdnQkv, .gdnGate, .gdnConv1d, .gdnA, .gdnAlpha, .gdnBeta, .gdnDtBias, .gdnNorm, .gdnOut]

/-- The roles of a mixer. -/
def rolesOf : LayerKind → List Role
  | .gatedAttention => attentionRoles
  | .gatedDeltaNet => gdnRoles

/-- The roles of a routed block. -/
def moeRoles : List Role :=
  [.moeRouter, .moeGateExps, .moeUpExps, .moeDownExps, .moeSharedGateInp, .moeSharedGate,
    .moeSharedUp, .moeSharedDown]

/-- The roles of a block without experts. -/
def denseRoles : List Role := [.ffnGate, .ffnUp, .ffnDown]

/-- The roles of a feed-forward block. -/
def ffnRoles : FfnConfig → List Role
  | .moe _ => moeRoles
  | .dense _ => denseRoles

theorem ffnRoles_eq (ffn : FfnConfig) : ffnRoles ffn = moeRoles ∨ ffnRoles ffn = denseRoles := by
  cases ffn with
  | moe m => exact Or.inl rfl
  | dense d => exact Or.inr rfl

theorem roles_mixerSpecs (layer : ℕ) (kind : LayerKind) :
    (mixerSpecs c layer kind).map TensorSpec.role = rolesOf kind := by
  cases kind <;> rfl

theorem roles_ffnSpecs (layer : ℕ) :
    (ffnSpecs c layer).map TensorSpec.role = ffnRoles c.ffn := by
  unfold ffnSpecs
  cases c.ffn <;> rfl

theorem roles_blockSpecs_trunk {layer : ℕ} (hlayer : layer < c.numLayers.toNat) :
    (blockSpecs c layer).map TensorSpec.role =
      [.inputNorm, .postMixerNorm] ++ rolesOf (c.layerKind layer) ++ ffnRoles c.ffn := by
  rw [blockSpecs, if_neg (Nat.not_le.mpr hlayer), List.map_append, List.map_append,
    roles_mixerSpecs, roles_ffnSpecs]
  rfl

theorem roles_blockSpecs_mtp {layer : ℕ} (hlayer : c.numLayers.toNat ≤ layer) :
    (blockSpecs c layer).map TensorSpec.role =
      [.inputNorm, .postMixerNorm] ++ attentionRoles ++ ffnRoles c.ffn ++
        [.mtpEhProj, .mtpENorm, .mtpHNorm, .mtpSharedHeadNorm] := by
  rw [blockSpecs, if_pos hlayer, List.map_append, List.map_append, List.map_append,
    roles_mixerSpecs, roles_ffnSpecs]
  rfl

/-- The roles of a block are different. -/
theorem blockSpecs_roles_nodup (layer : ℕ) :
    ((blockSpecs c layer).map TensorSpec.role).Nodup := by
  rcases Nat.lt_or_ge layer c.numLayers.toNat with hlayer | hlayer
  · rw [roles_blockSpecs_trunk c hlayer]
    cases c.layerKind layer <;> rcases ffnRoles_eq c.ffn with hffn | hffn <;> rw [hffn] <;> decide
  · rw [roles_blockSpecs_mtp c hlayer]
    rcases ffnRoles_eq c.ffn with hffn | hffn <;> rw [hffn] <;> decide

/-- The roles of a mixer are not those of another part of a block. -/
theorem mem_trunkRoles (kind kind' : LayerKind) (ffn : FfnConfig) :
    ∀ role ∈ rolesOf kind,
      (role ∈ [.inputNorm, .postMixerNorm] ++ rolesOf kind' ++ ffnRoles ffn ↔ kind' = kind) := by
  rcases ffnRoles_eq ffn with hffn | hffn <;> rw [hffn] <;> cases kind <;> cases kind' <;> decide

/-- A trunk layer has the roles of its mixer, and none of the other's. -/
theorem mem_blockSpecs_roles {layer : ℕ} (hlayer : layer < c.numLayers.toNat) {kind : LayerKind}
    {role : Role} (hrole : role ∈ rolesOf kind) :
    role ∈ (blockSpecs c layer).map TensorSpec.role ↔ c.layerKind layer = kind := by
  rw [roles_blockSpecs_trunk c hlayer]
  exact mem_trunkRoles kind (c.layerKind layer) c.ffn role hrole

/-! ### Names -/

/-- Names as pairs of a role and a block. -/
theorem nodup_names_of_keys {specs : List TensorSpec}
    (h : (specs.map fun t => (t.role, t.layer)).Nodup) : (specs.map TensorSpec.name).Nodup := by
  have hname : specs.map TensorSpec.name =
      (specs.map fun t => (t.role, t.layer)).map fun key => TensorSpec.nameOf key.1 key.2 := by
    rw [List.map_map]
    rfl
  rw [hname]
  refine h.map ?_
  intro key key' hkey
  obtain ⟨hrole, hlayer⟩ := TensorSpec.nameOf_injective hkey
  exact Prod.ext hrole hlayer

theorem keys_nodup (includesMtp : Bool) :
    ((build c includesMtp).specs.map fun t => (t.role, t.layer)).Nodup := by
  have hblock : ∀ layer, ((blockSpecs c layer).map fun t => (t.role, t.layer)).Nodup := by
    intro layer
    refine List.Nodup.of_map Prod.fst ?_
    rw [List.map_map]
    exact blockSpecs_roles_nodup c layer
  simp only [build, List.map_append, List.map_flatMap]
  refine List.Nodup.append ?_ ?_ ?_
  · simp [globalSpecs]
  · rw [List.nodup_flatMap]
    refine ⟨fun layer _ => hblock layer, ?_⟩
    refine List.Pairwise.imp ?_ List.nodup_range
    intro layer layer' hne key hkey hkey'
    obtain ⟨t, ht, rfl⟩ := List.mem_map.mp hkey
    obtain ⟨t', ht', heq⟩ := List.mem_map.mp hkey'
    have hlayer := (Prod.mk.inj heq).2
    rw [blockSpecs_layer c ht, blockSpecs_layer c ht'] at hlayer
    exact hne (Option.some.inj hlayer).symm
  · intro key hkey hkey'
    obtain ⟨layer, -, hkey'⟩ := List.mem_flatMap.mp hkey'
    obtain ⟨t, ht, rfl⟩ := List.mem_map.mp hkey'
    rw [blockSpecs_layer c ht] at hkey
    simp [globalSpecs] at hkey

/-- No two tensors are named alike. -/
theorem names_nodup (includesMtp : Bool) :
    ((build c includesMtp).specs.map TensorSpec.name).Nodup :=
  nodup_names_of_keys (keys_nodup c includesMtp)

end WeightSchema
