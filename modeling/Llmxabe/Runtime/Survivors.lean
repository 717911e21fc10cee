/-
What the sampler may answer (`xabe-engine/src/sampling.rs`).

`Survivors` says what the three filters leave of a row, however ties fall, with
no reference to how they are computed.  The sampler answers a survivor with a
finite logit, except at draw zero with no cut by probability and an absent
token in front (`sample_survives_iff`), and each survivor catches draws in
proportion to its weight.
-/
import Mathlib.Analysis.SpecialFunctions.Exp
import Llmxabe.Runtime.Sampling

namespace Sampling

/-! ### Candidates -/

section Candidates

variable {K : Type} {logits : List (Logit K)}

theorem mem_candidates {c : Candidate K} :
    c ∈ candidates logits ↔ ∃ l, logits[c.index]? = some l ∧ c.logit = l.value := by
  rw [candidates, List.mem_map]
  constructor
  · rintro ⟨⟨l, i⟩, hmem, rfl⟩
    exact ⟨l, List.mem_zipIdx_iff_getElem?.mp hmem, rfl⟩
  · rintro ⟨l, hl, hlogit⟩
    refine ⟨(l, c.index), List.mem_zipIdx_iff_getElem?.mpr hl, ?_⟩
    rw [← hlogit]

/-- A candidate is known by its index. -/
theorem candidates_index_inj {c d : Candidate K} (hc : c ∈ candidates logits)
    (hd : d ∈ candidates logits) (h : c.index = d.index) : c = d := by
  obtain ⟨l, hl, hlogit⟩ := mem_candidates.mp hc
  obtain ⟨m, hm, hlogit'⟩ := mem_candidates.mp hd
  rw [h, hm] at hl
  cases hl
  obtain ⟨logit, index⟩ := c
  obtain ⟨logit', index'⟩ := d
  exact congrArg₂ Candidate.mk (hlogit.trans hlogit'.symm) h

/-- The finite entries of a row are the candidates that are there. -/
theorem finite_iff {c : Candidate K} (hc : c ∈ candidates logits) :
    (∃ x, logits[c.index]? = some (.finite x)) ↔ c.logit ≠ ⊥ := by
  obtain ⟨l, hl, hlogit⟩ := mem_candidates.mp hc
  rw [hl, hlogit]
  cases l with
  | finite x => exact ⟨fun _ => WithBot.coe_ne_bot, fun _ => ⟨x, rfl⟩⟩
  | negInf | posInf | nan =>
    refine ⟨fun hfinite => ?_, fun hne => absurd rfl hne⟩
    obtain ⟨x, hx⟩ := hfinite
    cases hx

theorem candidates_nodup : (candidates logits).Nodup := by
  refine List.Nodup.of_map Candidate.index ?_
  rw [candidates, List.map_map]
  have hindex : logits.zipIdx.map (Candidate.index ∘ fun entry => ⟨entry.1.value, entry.2⟩)
      = List.range' 0 logits.length := List.zipIdx_map_snd 0 logits
  rw [hindex]
  exact List.nodup_range'

variable [LinearOrder K] {std : Unstable K} {cs kept : List (Candidate K)}

/-- The largest logit is that of a candidate, and none exceeds it. -/
theorem maximum_eq {c : Candidate K} (hc : c ∈ cs) (hpeak : ∀ d ∈ cs, d.logit ≤ c.logit) :
    maximum cs = c.logit := by
  have hfold : ∀ (ls : List (WithBot K)) (m b : WithBot K), m ≤ b → (∀ l ∈ ls, l ≤ b) →
      (b ∈ ls ∨ m = b) → ls.foldl max m = b := by
    intro ls
    induction ls with
    | nil =>
      intro m b _ _ hb
      exact hb.resolve_left List.not_mem_nil
    | cons l ls ih =>
      intro m b hm hls hb
      rw [List.foldl_cons]
      have hl := hls l List.mem_cons_self
      refine ih _ b (max_le hm hl) (fun l' hl' => hls l' (List.mem_cons_of_mem _ hl')) ?_
      obtain hin | rfl := hb
      · obtain rfl | hin := List.mem_cons.mp hin
        · exact Or.inr (max_eq_right hm)
        · exact Or.inl hin
      · exact Or.inr (max_eq_left hl)
  refine hfold _ ⊥ _ bot_le (fun l hl => ?_) (Or.inl (List.mem_map_of_mem hc))
  obtain ⟨d, hd, rfl⟩ := List.mem_map.mp hl
  exact hpeak d hd

/-- A row with a finite entry has a largest candidate, and it is finite. -/
theorem exists_peak {x : K} (hx : Logit.finite x ∈ logits) :
    ∃ peak : K, ∃ c ∈ candidates logits, c.logit = peak ∧
      ∀ d ∈ candidates logits, d.logit ≤ peak := by
  obtain ⟨i, hi⟩ := List.mem_iff_getElem?.mp hx
  have hmem : (⟨(x : WithBot K), i⟩ : Candidate K) ∈ candidates logits :=
    mem_candidates.mpr ⟨_, hi, rfl⟩
  obtain ⟨ranked, hperm, hranked⟩ := exists_ranked Candidate.logit (candidates logits)
  obtain _ | ⟨c, rest⟩ := ranked
  · exact absurd (hperm.mem_iff.mpr hmem) List.not_mem_nil
  have hfirst : ∀ d ∈ candidates logits, d.logit ≤ c.logit := by
    intro d hd
    obtain rfl | hlater := List.mem_cons.mp (hperm.mem_iff.mpr hd)
    · exact le_rfl
    · exact (List.pairwise_cons.mp hranked).1 d hlater
  have hfinite : c.logit ≠ ⊥ := by
    intro hbot
    have hle := hfirst _ hmem
    rw [hbot] at hle
    exact WithBot.coe_ne_bot (le_bot_iff.mp hle)
  obtain ⟨peak, hpeak⟩ := WithBot.ne_bot_iff_exists.mp hfinite
  refine ⟨peak, c, hperm.mem_iff.mp List.mem_cons_self, hpeak.symm, fun d hd => ?_⟩
  rw [hpeak]
  exact hfirst d hd

/-- `kept` are the best of `cs`, however ties fall. -/
def Top (cs kept : List (Candidate K)) : Prop :=
  ∃ rest, (kept ++ rest).Perm cs ∧ Dominates Candidate.logit kept rest

theorem Top.refl (cs : List (Candidate K)) : Top cs cs :=
  ⟨[], by rw [List.append_nil], fun _ _ _ hb => absurd hb List.not_mem_nil⟩

theorem Top.mem (h : Top cs kept) {c : Candidate K} (hc : c ∈ kept) : c ∈ cs := by
  obtain ⟨rest, hperm, -⟩ := h
  exact hperm.mem_iff.mp (List.mem_append_left _ hc)

theorem Top.nodup (h : Top cs kept) (hnodup : cs.Nodup) : kept.Nodup := by
  obtain ⟨rest, hperm, -⟩ := h
  exact (List.nodup_append.mp (hperm.nodup_iff.mpr hnodup)).1

/-- Of the best there is one whose logit no candidate exceeds. -/
theorem Top.peak_mem (h : Top cs kept) (hne : kept ≠ []) {c : Candidate K} (hc : c ∈ cs)
    (hpeak : ∀ d ∈ cs, d.logit ≤ c.logit) : ∃ d ∈ kept, d.logit = c.logit := by
  have hwhole := h
  obtain ⟨rest, hperm, hdominates⟩ := h
  obtain hin | hout := List.mem_append.mp (hperm.mem_iff.mpr hc)
  · exact ⟨c, hin, rfl⟩
  · obtain ⟨d, hd⟩ := List.exists_mem_of_ne_nil kept hne
    exact ⟨d, hd, le_antisymm (hpeak d (hwhole.mem hd)) (hdominates d hd c hout)⟩

theorem truncateTopK_top (topK : ℕ) :
    Top cs (truncateTopK std topK cs) ∧
      (truncateTopK std topK cs).length
        = if topK = 0 then cs.length else min topK cs.length := by
  rw [truncateTopK]
  split
  · rename_i hcut
    have hsplit := std.select_split (topK - 1) cs (by omega)
    rw [Nat.sub_add_cancel hcut.1] at hsplit
    refine ⟨⟨(std.select (topK - 1) cs).drop topK, ?_, hsplit⟩, ?_⟩
    · rw [List.take_append_drop]
      exact std.select_perm _ _
    · rw [List.length_take, (std.select_perm _ _).length_eq, if_neg hcut.1.ne']
  · rename_i hall
    refine ⟨Top.refl cs, ?_⟩
    split
    · rfl
    · exact (Nat.min_eq_right (by omega)).symm

theorem truncateTopK_length_le (std : Unstable K) (topK : ℕ) (cs : List (Candidate K)) :
    (truncateTopK std topK cs).length ≤ cs.length := by
  rw [(@truncateTopK_top K _ std cs topK).2]
  split
  · exact le_rfl
  · exact min_le_right _ _

variable (std) in
theorem truncateTopK_ne_nil (hne : cs ≠ []) (topK : ℕ) : truncateTopK std topK cs ≠ [] := by
  obtain ⟨-, hlength⟩ := @truncateTopK_top K _ std cs topK
  intro hnil
  have hpos := List.length_pos_iff.mpr hne
  rw [hnil, List.length_nil] at hlength
  split at hlength
  · omega
  · omega

end Candidates

/-! ### What the filters leave -/

section Filters

variable {K : Type} [Field K] [LinearOrder K] [IsStrictOrderedRing K] {E : Exponential K}
  {std : Unstable K} {peak : K} {cs top kept : List (Candidate K)}

/-- The fewest of the best, one at least, whose mass reaches `p` of the whole. -/
structure Nucleus (weigh : WithBot K → K) (p : K) (cs kept : List (Candidate K)) : Prop where
  top : Top cs kept
  nonempty : kept ≠ []
  reached : p * massOf weigh cs ≤ massOf weigh kept
  fewest : ∀ fewer, Top cs fewer → fewer ≠ [] → fewer.length < kept.length →
    massOf weigh fewer < p * massOf weigh cs

/-- What top-k, top-p and min-p leave of some candidates, however ties fall. -/
def Survivors (E : Exponential K) (params : SamplingParams K) (peak : K)
    (cs kept : List (Candidate K)) : Prop :=
  ∃ best nucleus,
    Top cs best ∧
    best.length = (if params.topK = 0 then cs.length else min params.topK cs.length) ∧
    (if params.topP < 1 then Nucleus (weight E peak 1) (max params.topP 0) best nucleus
      else nucleus = best) ∧
    kept = nucleus.filter fun c =>
      decide (params.minP ≤ 0 ∨ params.minP ≤ weight E peak 1 c.logit)

omit [IsStrictOrderedRing K] in
/-- The best of a list, as many as they are, weigh the same. -/
theorem Top.massOf_eq (h : Top cs kept) {full : List (Candidate K)} (hfull : full.Perm cs)
    (hranked : Ranked Candidate.logit full) (weigh : WithBot K → K) :
    massOf weigh kept = massOf weigh (full.take kept.length) := by
  obtain ⟨rest, hperm, hdominates⟩ := h
  obtain ⟨sorted, hsorted, hin⟩ := exists_ranked Candidate.logit kept
  have hkeys := hin.keys_eq_take hranked (((hsorted.append_right rest).trans hperm).trans hfull.symm)
    fun a ha b hb => hdominates a (hsorted.mem_iff.mp ha) b hb
  rw [hsorted.length_eq] at hkeys
  rw [← massOf_congr hkeys]
  exact mass_perm hsorted.symm

variable (std) in
theorem truncateTopP_nucleus {weigh : WithBot K → K} (hnonneg : ∀ x, 0 ≤ weigh x) {topP : K}
    (hcut : topP < 1) (hne : cs ≠ []) (hfits : cs.length ≤ usizeMax) :
    Nucleus weigh (max topP 0) cs (truncateTopP std weigh topP cs) ∧
      Ranked Candidate.logit (truncateTopP std weigh topP cs) := by
  obtain ⟨full, hfull, hranked⟩ := exists_ranked Candidate.logit cs
  have hle : max topP 0 ≤ 1 := max_le hcut.le zero_le_one
  obtain ⟨k, hk⟩ := topPLadder_reaches std (max topP 0 * massOf weigh cs) hne hfits
    hfull hranked (mul_le_of_le_one_left (massOf_nonneg hnonneg cs) hle)
  have hkept : truncateTopP std weigh topP cs
      = ladder std weigh (max topP 0 * massOf weigh cs) topPLadder cs := if_pos hcut
  rw [hkept]
  set kept := ladder std weigh (max topP 0 * massOf weigh cs) topPLadder cs
  have hlength : kept.length = k := by
    have hlogits := congrArg List.length hk.logits
    rw [List.length_map, List.length_map, List.length_take, Nat.min_eq_left hk.le] at hlogits
    exact hlogits
  obtain ⟨rest, hrest, hdominates⟩ := hk.rest
  refine ⟨⟨⟨rest, hrest.trans hfull, hdominates⟩, fun hnil => ?_, ?_, fun fewer htop hsome hlt => ?_⟩,
    hk.ranked⟩
  · rw [hnil, List.length_nil] at hlength
    exact absurd hlength hk.pos.ne
  · rw [massOf_congr hk.logits]
    exact hk.reached
  · rw [htop.massOf_eq hfull hranked]
    exact hk.before _ (List.length_pos_iff.mpr hsome) (hlength ▸ hlt)

end Filters

/-! ### Weights -/

section Weights

variable {K : Type} [Field K] [LinearOrder K] {E : Exponential K} {peak : K}

theorem weight_nonneg (inverse : K) (logit : WithBot K) : 0 ≤ weight E peak inverse logit := by
  cases logit with
  | bot => exact le_rfl
  | coe x => exact (E.exp_pos _).le

/-- Only an absent token weighs nothing. -/
theorem weight_pos_iff {inverse : K} {logit : WithBot K} :
    0 < weight E peak inverse logit ↔ logit ≠ ⊥ := by
  cases logit with
  | bot => exact ⟨fun h => absurd h (lt_irrefl _), fun h => absurd rfl h⟩
  | coe x => exact ⟨fun _ => WithBot.coe_ne_bot, fun _ => E.exp_pos _⟩

theorem weight_le_one [IsStrictOrderedRing K] {logit : WithBot K} (h : logit ≤ peak) :
    weight E peak 1 logit ≤ 1 := by
  cases logit with
  | bot => exact zero_le_one
  | coe x =>
    have hle : (x - peak) * 1 ≤ 0 := by
      rw [mul_one]
      exact sub_nonpos.mpr (WithBot.coe_le_coe.mp h)
    exact (E.exp_mono hle).trans_eq E.exp_zero

theorem weight_peak (inverse : K) : weight E peak inverse (peak : WithBot K) = 1 := by
  have hpeak : weight E peak inverse (peak : WithBot K) = E.exp ((peak - peak) * inverse) := rfl
  rw [hpeak, sub_self, zero_mul, E.exp_zero]

end Weights

/-! ### The draw -/

section Draw

variable {K : Type} [Field K] [LinearOrder K] [IsStrictOrderedRing K] {E : Exponential K}
  {std : Unstable K} {params : SamplingParams K} {peak : K} {cs kept : List (Candidate K)}

omit [IsStrictOrderedRing K] in
theorem Survivors.mem (h : Survivors E params peak cs kept) {c : Candidate K} (hc : c ∈ kept) :
    c ∈ cs := by
  obtain ⟨best, nucleus, hbest, -, hnucleus, rfl⟩ := h
  have hin := (List.mem_filter.mp hc).1
  split at hnucleus
  · exact hbest.mem (hnucleus.top.mem hin)
  · exact hbest.mem (hnucleus ▸ hin)

omit [IsStrictOrderedRing K] in
theorem Survivors.nodup (h : Survivors E params peak cs kept) (hnodup : cs.Nodup) :
    kept.Nodup := by
  obtain ⟨best, nucleus, hbest, -, hnucleus, rfl⟩ := h
  refine List.Nodup.filter _ ?_
  split at hnucleus
  · exact hnucleus.top.nodup (hbest.nodup hnodup)
  · exact hnucleus ▸ hbest.nodup hnodup

omit [IsStrictOrderedRing K] in
/-- The most likely candidate survives, unless `minP` asks for more than it has. -/
theorem Survivors.peak_mem (h : Survivors E params peak cs kept) {c : Candidate K} (hc : c ∈ cs)
    (hlogit : c.logit = peak) (hpeak : ∀ d ∈ cs, d.logit ≤ peak) (hminP : params.minP ≤ 1) :
    ∃ d ∈ kept, d.logit = peak := by
  obtain ⟨best, nucleus, hbest, hlength, hnucleus, rfl⟩ := h
  have hsome : best ≠ [] := by
    intro hnil
    have hpos := List.length_pos_of_mem hc
    rw [hnil, List.length_nil] at hlength
    split at hlength
    · omega
    · omega
  obtain ⟨d, hd, hsame⟩ := hbest.peak_mem hsome hc (hlogit ▸ hpeak)
  have hin : ∃ e ∈ nucleus, e.logit = peak := by
    split at hnucleus
    · obtain ⟨e, he, heq⟩ := hnucleus.top.peak_mem hnucleus.nonempty hd fun e he => by
        rw [hsame, hlogit]
        exact hpeak e (hbest.mem he)
      exact ⟨e, he, heq.trans (hsame.trans hlogit)⟩
    · exact ⟨d, hnucleus ▸ hd, hsame.trans hlogit⟩
  obtain ⟨e, he, heq⟩ := hin
  refine ⟨e, List.mem_filter.mpr ⟨he, decide_eq_true (Or.inr ?_)⟩, heq⟩
  rw [heq, weight_peak]
  exact hminP

/-- Nothing is as likely as a `minP` above one asks. -/
theorem Survivors.eq_nil (h : Survivors E params peak cs kept)
    (hpeak : ∀ d ∈ cs, d.logit ≤ peak) (hminP : 1 < params.minP) : kept = [] := by
  rw [List.eq_nil_iff_forall_not_mem]
  intro c hc
  have hle := weight_le_one (E := E) (hpeak c (h.mem hc))
  obtain ⟨best, nucleus, -, -, -, rfl⟩ := h
  have hkept := of_decide_eq_true (List.mem_filter.mp hc).2
  obtain hoff | hin := hkept
  · exact absurd (zero_lt_one.trans hminP) (not_lt.mpr hoff)
  · exact absurd (hin.trans hle) (not_le.mpr hminP)

theorem filtered_survivors (hne : cs ≠ []) (hfits : cs.length ≤ usizeMax) :
    Survivors E params peak cs
      (filtered E std params peak (truncateTopK std params.topK cs)) := by
  obtain ⟨htop, hlength⟩ := @truncateTopK_top K _ std cs params.topK
  have hsome := truncateTopK_ne_nil std hne params.topK
  have hbest := (truncateTopK_length_le std params.topK cs).trans hfits
  set best := truncateTopK std params.topK cs
  refine ⟨best, truncateTopP std (weight E peak 1) params.topP best, htop, hlength, ?_, ?_⟩
  · split
    · rename_i hcut
      exact (truncateTopP_nucleus std (fun x => weight_nonneg 1 x) hcut hsome hbest).1
    · rename_i hall
      exact if_neg hall
  · rw [filtered, retainMinP]
    split
    · rename_i hpos
      refine List.filter_congr fun c _ => ?_
      rw [decide_eq_decide]
      exact ⟨Or.inr, fun h => h.resolve_left (not_le.mpr hpos)⟩
    · rename_i hoff
      refine (List.filter_eq_self.mpr fun c _ => ?_).symm
      exact decide_eq_true (Or.inl (not_lt.mp hoff))

/-- After a cut by probability no candidate in front is absent. -/
theorem filtered_head (hne : cs ≠ []) (hfits : cs.length ≤ usizeMax) {d : Candidate K}
    (hd : d ∈ filtered E std params peak cs) (hdpeak : d.logit = peak)
    (hcut : params.topP < 1 ∨ 0 < params.minP) {c : Candidate K} {rest : List (Candidate K)}
    (hkept : filtered E std params peak cs = c :: rest) : c.logit ≠ ⊥ := by
  by_cases hminP : 0 < params.minP
  · -- its weight is at least `minP`
    rw [filtered, retainMinP, if_pos hminP] at hkept
    have hin : c ∈ c :: rest := List.mem_cons_self
    rw [← hkept] at hin
    have hle := of_decide_eq_true (List.mem_filter.mp hin).2
    exact weight_pos_iff.mp (hminP.trans_le hle)
  · -- the ladder left the candidates in descending order
    have hnonneg : ∀ x, 0 ≤ weight E peak 1 x := fun x => weight_nonneg 1 x
    obtain ⟨-, hranked⟩ := truncateTopP_nucleus std hnonneg (hcut.resolve_right hminP) hne hfits
    have hwhole : Ranked Candidate.logit (c :: rest) := by
      rw [← hkept, filtered, retainMinP, if_neg hminP]
      exact hranked
    rw [hkept] at hd
    have hge : (peak : WithBot K) ≤ c.logit := by
      obtain rfl | hlater := List.mem_cons.mp hd
      · exact hdpeak.ge
      · exact hdpeak ▸ (List.pairwise_cons.mp hwhole).1 d hlater
    exact fun hbot => WithBot.coe_ne_bot (le_bot_iff.mp (hbot ▸ hge))

omit [IsStrictOrderedRing K] in
/-- What the sampler answers, once the filters have left a list. -/
theorem Sampler.sample_eq {sampler : Sampler K} {logits : List (Logit K)} {u : K}
    (hne : logits ≠ [])
    (hpeak : maximum (truncateTopK std sampler.params.topK (candidates logits)) = peak)
    (hkept : filtered E std sampler.params peak
      (truncateTopK std sampler.params.topK (candidates logits)) = kept) :
    sampler.sample E std logits u
      = match pick (fun c : Candidate K => weight E peak sampler.params.temperature⁻¹ c.logit)
            (u * massOf (weight E peak sampler.params.temperature⁻¹) kept) kept with
        | some c => some c.index
        | none => some (kept.getLast?.elim 0 (·.index)) := by
  rw [sample, if_neg hne]
  simp only
  rw [hpeak]
  simp only
  rw [hkept]
  rfl

/-- In exact arithmetic, for every row with a finite entry: the filters leave
survivors, each drawn by an interval of draws in proportion to its weight; and
the answer to a draw is one of them, with a finite logit, if and only if `minP`
is at most one and either the draw is not zero, or a cut by probability was
made, or the first candidate top-k left is there. -/
theorem sample_survives_iff (E : Exponential K) (std : Unstable K) (sampler : Sampler K)
    (logits : List (Logit K)) (hfits : logits.length ≤ usizeMax)
    (hfinite : ∃ x, Logit.finite x ∈ logits) :
    ∃ (peak : K) (kept : List (Candidate K)),
      ((∃ c ∈ candidates logits, c.logit = peak) ∧ ∀ d ∈ candidates logits, d.logit ≤ peak) ∧
      Survivors E sampler.params peak (candidates logits) kept ∧
      (∀ u, 0 ≤ u → u < 1 →
        ((∃ c ∈ kept, sampler.sample E std logits u = some c.index ∧
            ∃ x, logits[c.index]? = some (.finite x)) ↔
          sampler.params.minP ≤ 1 ∧
            (u = 0 → sampler.params.topP < 1 ∨ 0 < sampler.params.minP ∨
              ∃ c ∈ (truncateTopK std sampler.params.topK (candidates logits)).head?,
                c.logit ≠ ⊥))) ∧
      ∀ c ∈ kept, ∃ lo, 0 ≤ lo ∧
        lo + weight E peak sampler.params.temperature⁻¹ c.logit
            / massOf (weight E peak sampler.params.temperature⁻¹) kept ≤ 1 ∧
        ∀ u, 0 < u → u < 1 →
          (sampler.sample E std logits u = some c.index ↔
            lo < u ∧ u ≤ lo + weight E peak sampler.params.temperature⁻¹ c.logit
              / massOf (weight E peak sampler.params.temperature⁻¹) kept) := by
  obtain ⟨x, hx⟩ := hfinite
  obtain ⟨peak, top, htop, hlogit, hpeak⟩ := exists_peak hx
  have hrow : logits ≠ [] := List.ne_nil_of_mem hx
  have hne : candidates logits ≠ [] := List.ne_nil_of_mem htop
  have hlength : (candidates logits).length ≤ usizeMax := by
    rw [candidates, List.length_map, List.length_zipIdx]
    exact hfits
  set cs := candidates logits with hcs
  set best := truncateTopK std sampler.params.topK cs with hbest
  set kept := filtered E std sampler.params peak best with hkept
  have hbounded : best.length ≤ usizeMax := (truncateTopK_length_le std _ cs).trans hlength
  have hsurvive : Survivors E sampler.params peak cs kept := filtered_survivors hne hlength
  set weigh := fun c : Candidate K => weight E peak sampler.params.temperature⁻¹ c.logit with hweigh
  have hnonneg : ∀ c, 0 ≤ weigh c := fun c => weight_nonneg _ c.logit
  -- top-k keeps a candidate with the largest logit, so the weights are measured against it
  have hmaximum : maximum best = peak := by
    obtain ⟨htopK, -⟩ := @truncateTopK_top K _ std cs sampler.params.topK
    obtain ⟨d, hd, hsame⟩ := htopK.peak_mem (truncateTopK_ne_nil std hne _) htop (hlogit ▸ hpeak)
    rw [hlogit] at hsame
    exact (maximum_eq hd fun e he => hsame ▸ hpeak e (htopK.mem he)).trans hsame
  have hanswer : ∀ u, sampler.sample E std logits u
      = match pick weigh (u * mass weigh kept) kept with
        | some c => some c.index
        | none => some (kept.getLast?.elim 0 (·.index)) := fun u =>
    Sampler.sample_eq hrow hmaximum hkept.symm
  refine ⟨peak, kept, ⟨⟨top, htop, hlogit⟩, hpeak⟩, hsurvive, ?_⟩
  by_cases hminP : sampler.params.minP ≤ 1
  · obtain ⟨likely, hlikely, hmost⟩ := hsurvive.peak_mem htop hlogit hpeak hminP
    have hpos : 0 < mass weigh kept := by
      have hone : weigh likely = 1 := by
        simp only [hweigh]
        rw [hmost, weight_peak]
      exact zero_lt_one.trans_le (hone ▸ le_mass hnonneg hlikely)
    -- the answer is the candidate picked
    have hpicked : ∀ u c, pick weigh (u * mass weigh kept) kept = some c →
        sampler.sample E std logits u = some c.index := by
      intro u c hc
      rw [hanswer, hc]
    refine ⟨fun u hu hlt => ?_, fun c hc => ?_⟩
    -- every draw below one picks a candidate
    · obtain ⟨c, hc⟩ := pick_scaled_isSome hpos hlt
      have hin := pick_mem hc
      have hthere : (∃ d ∈ kept, sampler.sample E std logits u = some d.index ∧
          ∃ x, logits[d.index]? = some (.finite x)) ↔ c.logit ≠ ⊥ := by
        rw [hpicked u c hc, ← finite_iff (hsurvive.mem hin)]
        constructor
        · rintro ⟨d, hd, hindex, hfinite⟩
          rw [← Option.some.inj hindex] at hfinite
          exact hfinite
        · exact fun hfinite => ⟨c, hin, rfl, hfinite⟩
      rw [hthere]
      obtain hzero | hdraw := hu.eq_or_lt
      -- a draw of zero picks the first one left, whatever its weight
      · rw [← hzero, zero_mul] at hc
        obtain ⟨rest, hfirst⟩ := pick_zero hnonneg hc
        have hcut : sampler.params.topP < 1 ∨ 0 < sampler.params.minP → c.logit ≠ ⊥ :=
          fun hcut => filtered_head (truncateTopK_ne_nil std hne _) hbounded hlikely hmost hcut hfirst
        have hplain : ¬ (sampler.params.topP < 1 ∨ 0 < sampler.params.minP) →
            best.head? = some c := by
          intro hoff
          obtain ⟨hP, hmin⟩ := not_or.mp hoff
          have hsame : kept = best := by
            rw [hkept, filtered, retainMinP, if_neg hmin, truncateTopP, if_neg hP]
          rw [← hsame, hfirst]
          rfl
        refine ⟨fun hfinite => ⟨hminP, fun _ => ?_⟩, fun hcond => ?_⟩
        · by_cases hoff : sampler.params.topP < 1 ∨ 0 < sampler.params.minP
          · exact hoff.imp_right Or.inl
          · exact Or.inr (Or.inr ⟨c, hplain hoff, hfinite⟩)
        -- a cut by probability puts the peak in front; without one the order is that of top-k
        · by_cases hoff : sampler.params.topP < 1 ∨ 0 < sampler.params.minP
          · exact hcut hoff
          · obtain ⟨hP, hmin⟩ := not_or.mp hoff
            obtain ⟨d, hd, hfinite⟩ :=
              ((hcond.2 hzero.symm).resolve_left hP).resolve_left hmin
            rw [hplain hoff] at hd
            rw [Option.some.inj hd]
            exact hfinite
      -- a positive draw picks one of positive weight
      · refine ⟨fun _ => ⟨hminP, fun hzero => absurd hzero hdraw.ne'⟩, fun _ => ?_⟩
        have hweight : 0 < weigh c := pick_pos (mul_pos hdraw hpos) hc
        exact weight_pos_iff.mp hweight
    -- a candidate answers to an interval as long as its share
    · obtain ⟨lo, hlo, hle, hin⟩ :=
        pick_scaled_iff hnonneg (hsurvive.nodup candidates_nodup) hc hpos
      refine ⟨lo, hlo, hle, fun u hu hlt => ?_⟩
      refine Iff.trans ?_ (hin u hu)
      constructor
      · intro hindex
        obtain ⟨d, hd⟩ := pick_scaled_isSome hpos hlt
        rw [hpicked u d hd] at hindex
        rw [hd, candidates_index_inj (hsurvive.mem (pick_mem hd)) (hsurvive.mem hc)
          (Option.some.inj hindex)]
      · exact hpicked u c
  -- with `minP` above one nothing is left
  · have hnil := hsurvive.eq_nil hpeak (not_le.mp hminP)
    rw [hnil]
    refine ⟨fun u _ _ => ⟨fun hsome => ?_, fun hcond => absurd hcond.1 hminP⟩, fun c hc => ?_⟩
    · obtain ⟨c, hc, -⟩ := hsome
      exact absurd hc List.not_mem_nil
    · exact absurd hc List.not_mem_nil

end Draw

/-! ### A masked token in front -/

/-- The exponential of the reals. -/
noncomputable def realExponential : Exponential ℝ :=
  ⟨Real.exp, Real.exp_pos, Real.exp_monotone, Real.exp_zero⟩

/-- Temperature one and no filter. -/
noncomputable def plainSampler : Sampler ℝ where
  params := ⟨1, 0, 1, 0⟩
  sampled := by
    rw [SamplingParams.isGreedy, decide_eq_false (not_le.mpr zero_lt_one)]
    rfl

/-- A row whose first token has been masked. -/
def maskedRow : List (Logit ℝ) := [.negInf, .finite 0]

theorem sample_survives_witness : ∃ (peak : ℝ) (kept : List (Candidate ℝ)),
    Survivors realExponential plainSampler.params peak (candidates maskedRow) kept ∧
      ∃ c ∈ kept, plainSampler.sample realExponential (Unstable.bySorting ℝ) maskedRow (1 / 2)
          = some c.index ∧ ∃ x, maskedRow[c.index]? = some (.finite x) := by
  obtain ⟨peak, kept, -, hsurvive, hanswer, -⟩ :=
    sample_survives_iff realExponential (Unstable.bySorting ℝ) plainSampler maskedRow (by decide)
      ⟨0, List.mem_cons_of_mem _ List.mem_cons_self⟩
  refine ⟨peak, kept, hsurvive, (hanswer (1 / 2) (by norm_num) (by norm_num)).mpr ⟨?_, ?_⟩⟩
  · exact zero_le_one
  · intro hzero
    norm_num at hzero

/-- A draw of zero answers the masked token. -/
theorem masked_drawn_at_zero :
    plainSampler.sample realExponential (Unstable.bySorting ℝ) maskedRow 0 = some 0 ∧
      ¬ ∃ x, maskedRow[0]? = some (.finite x) := by
  have htopK : truncateTopK (Unstable.bySorting ℝ) plainSampler.params.topK (candidates maskedRow)
      = candidates maskedRow := if_neg fun hcut => absurd hcut.1 (lt_irrefl 0)
  have hmaximum : maximum (truncateTopK (Unstable.bySorting ℝ) plainSampler.params.topK
      (candidates maskedRow)) = ((0 : ℝ) : WithBot ℝ) := by
    rw [htopK]
    refine maximum_eq (c := ⟨((0 : ℝ) : WithBot ℝ), 1⟩)
      (List.mem_cons_of_mem _ List.mem_cons_self) fun d hd => ?_
    obtain rfl | hd := List.mem_cons.mp hd
    · exact bot_le
    · rw [List.mem_singleton.mp hd]
      exact le_rfl
  have hkept : filtered realExponential (Unstable.bySorting ℝ) plainSampler.params 0
      (truncateTopK (Unstable.bySorting ℝ) plainSampler.params.topK (candidates maskedRow))
        = candidates maskedRow := by
    have hminP : ¬ 0 < plainSampler.params.minP := lt_irrefl 0
    have htopP : ¬ plainSampler.params.topP < 1 := lt_irrefl 1
    rw [htopK, filtered, retainMinP, if_neg hminP, truncateTopP, if_neg htopP]
  have hrow : maskedRow ≠ [] := List.cons_ne_nil _ _
  refine ⟨?_, fun hfinite => ?_⟩
  · rw [Sampler.sample_eq hrow hmaximum hkept, zero_mul]
    have hfirst : candidates maskedRow = [⟨⊥, 0⟩, ⟨((0 : ℝ) : WithBot ℝ), 1⟩] := rfl
    have habsent : weight realExponential 0 plainSampler.params.temperature⁻¹ (⊥ : WithBot ℝ) = 0 :=
      rfl
    rw [hfirst, pick]
    simp only
    rw [habsent, sub_zero, if_pos le_rfl]
  · obtain ⟨x, hx⟩ := hfinite
    cases hx

end Sampling
