/-
The host sampler (`xabe-engine/src/sampling.rs`), in exact arithmetic.

Top-k, the top-p ladder, min-p and the draw are translated as they stand.  The
standard library's unstable selection and sort are parameters with what their
documentation promises (`Unstable`), since it leaves open how ties fall; the
exponential is one as far as the sampler relies on it (`Exponential`).  A draw
is a number of `[0, 1)`.

The ladder keeps what a full sort keeps (`ladder_shortest`).
-/
import Mathlib.Order.WithBot
import Mathlib.Algebra.Order.Field.Basic
import Llmxabe.Lib.Ranking

namespace Sampling

/-- A logit as the device copied it back. -/
inductive Logit (K : Type) where
  | finite (x : K)
  | negInf
  | posInf
  | nan

/-- A logit that is not finite counts as absent. -/
def Logit.value {K : Type} : Logit K → WithBot K
  | .finite x => x
  | .negInf | .posInf | .nan => ⊥

/-- A token with its logit. -/
structure Candidate (K : Type) where
  logit : WithBot K
  index : ℕ

/-- What a request asks of the sampler. -/
structure SamplingParams (K : Type) where
  temperature : K
  topK : ℕ
  topP : K
  minP : K

/-- The standard library's unstable algorithms on candidates, by descending
logit.  Where ties fall is up to them. -/
structure Unstable (K : Type) [LinearOrder K] where
  select : ℕ → List (Candidate K) → List (Candidate K)
  sort : List (Candidate K) → List (Candidate K)
  select_perm : ∀ n cs, (select n cs).Perm cs
  /-- The entries up to `n` are the largest. -/
  select_split : ∀ n cs, n < cs.length →
    Dominates Candidate.logit ((select n cs).take (n + 1)) ((select n cs).drop (n + 1))
  sort_perm : ∀ cs, (sort cs).Perm cs
  sort_ranked : ∀ cs, Ranked Candidate.logit (sort cs)

/-- What the sampler relies on of the exponential. -/
structure Exponential (K : Type) [Field K] [LinearOrder K] where
  exp : K → K
  exp_pos : ∀ x, 0 < exp x
  exp_mono : Monotone exp
  exp_zero : exp 0 = 1

section Model

variable {K : Type} [Field K] [LinearOrder K]

/-- Whether the device argmax serves these parameters. -/
def SamplingParams.isGreedy (params : SamplingParams K) : Bool :=
  decide (params.temperature ≤ 0) || params.topK == 1

/-- A sampler is built only for parameters that are not greedy. -/
structure Sampler (K : Type) [Field K] [LinearOrder K] where
  params : SamplingParams K
  sampled : params.isGreedy = false

/-- A candidate for each logit, by index. -/
def candidates (logits : List (Logit K)) : List (Candidate K) :=
  logits.zipIdx.map fun entry => ⟨entry.1.value, entry.2⟩

/-- Keep the `topK` largest; zero keeps all. -/
def truncateTopK (std : Unstable K) (topK : ℕ) (scratch : List (Candidate K)) :
    List (Candidate K) :=
  if 0 < topK ∧ topK < scratch.length then (std.select (topK - 1) scratch).take topK else scratch

/-- The largest logit. -/
def maximum (scratch : List (Candidate K)) : WithBot K :=
  (scratch.map (·.logit)).foldl max ⊥

/-- The weight of a logit against the largest, cooled by `inverse`, which is
positive: minus infinity stays minus infinity. -/
def weight (E : Exponential K) (max inverse : K) (logit : WithBot K) : K :=
  match logit with
  | ⊥ => 0
  | (x : K) => E.exp ((x - max) * inverse)

/-- One past the last index. -/
def usizeMax : ℕ := 2 ^ 64 - 1

/-- Caps that top-p tries one after the other. -/
def topPLadder : List ℕ := [128, 1024, 16384, usizeMax]

/-- Bring the largest `cap` candidates to the front in descending order. -/
def rung (std : Unstable K) (cap : ℕ) (scratch : List (Candidate K)) : List (Candidate K) :=
  let sorted := min cap scratch.length
  let scratch := if sorted < scratch.length then std.select (sorted - 1) scratch else scratch
  std.sort (scratch.take sorted) ++ scratch.drop sorted

/-- Widen the sorted prefix until its mass reaches the goal. -/
def ladder (std : Unstable K) (weigh : WithBot K → K) (goal : K) :
    List ℕ → List (Candidate K) → List (Candidate K)
  | [], scratch => scratch
  | cap :: caps, scratch =>
    let sorted := min cap scratch.length
    let scratch := rung std cap scratch
    match firstReaching (fun c : Candidate K => weigh c.logit) goal 0 (scratch.take sorted) with
    | some keep => scratch.take keep
    | none => if sorted = scratch.length then scratch else ladder std weigh goal caps scratch

/-- Keep the smallest set of candidates whose mass reaches `topP` of the whole. -/
def truncateTopP (std : Unstable K) (weigh : WithBot K → K) (topP : K)
    (scratch : List (Candidate K)) : List (Candidate K) :=
  if topP < 1 then
    ladder std weigh (max topP 0 * mass (fun c => weigh c.logit) scratch) topPLadder scratch
  else scratch

/-- Keep the candidates whose weight is at least `minP` of the largest. -/
def retainMinP (weigh : WithBot K → K) (minP : K) (scratch : List (Candidate K)) :
    List (Candidate K) :=
  if 0 < minP then scratch.filter fun c => decide (minP ≤ weigh c.logit) else scratch

/-- The three filters, top-k first. -/
def filtered (E : Exponential K) (std : Unstable K) (params : SamplingParams K) (max : K)
    (scratch : List (Candidate K)) : List (Candidate K) :=
  retainMinP (weight E max 1) params.minP (truncateTopP std (weight E max 1) params.topP scratch)

/-- Draw one token id; an empty vector panics. -/
def Sampler.sample (E : Exponential K) (std : Unstable K) (sampler : Sampler K)
    (logits : List (Logit K)) (u : K) : Option ℕ :=
  if logits = [] then none
  else
    let scratch := truncateTopK std sampler.params.topK (candidates logits)
    match maximum scratch with
    | ⊥ => some 0
    | (max : K) =>
      let scratch := filtered E std sampler.params max scratch
      let weigh := fun c : Candidate K => weight E max sampler.params.temperature⁻¹ c.logit
      match pick weigh (u * mass weigh scratch) scratch with
      | some c => some c.index
      | none => some (scratch.getLast?.elim 0 (·.index))

end Model

/-! ### The ladder -/

section Ladder

variable {K : Type} [Field K] [LinearOrder K] [IsStrictOrderedRing K] {std : Unstable K}
  {weigh : WithBot K → K}

/-- The weight of some candidates. -/
def massOf (weigh : WithBot K → K) (cs : List (Candidate K)) : K :=
  mass (fun c => weigh c.logit) cs

omit [LinearOrder K] [IsStrictOrderedRing K] in
/-- Candidates with the same logits weigh the same. -/
theorem massOf_congr {as bs : List (Candidate K)}
    (h : as.map Candidate.logit = bs.map Candidate.logit) : massOf weigh as = massOf weigh bs := by
  have hmap : ∀ cs : List (Candidate K),
      cs.map (fun c => weigh c.logit) = (cs.map Candidate.logit).map weigh := by
    intro cs
    rw [List.map_map]
    rfl
  rw [massOf, massOf, mass, mass, hmap, hmap, h]

omit [Field K] [IsStrictOrderedRing K] in
variable (std) in
theorem rung_spec {cap : ℕ} {scratch : List (Candidate K)} (hcap : 0 < cap)
    (hne : scratch ≠ []) :
    (rung std cap scratch).Perm scratch ∧
      Ranked Candidate.logit ((rung std cap scratch).take (min cap scratch.length)) ∧
      Dominates Candidate.logit ((rung std cap scratch).take (min cap scratch.length))
        ((rung std cap scratch).drop (min cap scratch.length)) := by
  have hlength := List.length_pos_iff.mpr hne
  set sorted := min cap scratch.length with hsorted
  have hpos : 0 < sorted := lt_min hcap hlength
  set chosen := if sorted < scratch.length then std.select (sorted - 1) scratch else scratch
    with hchosen
  have hperm : chosen.Perm scratch := by
    rw [hchosen]
    split
    · exact std.select_perm _ _
    · exact List.Perm.refl _
  have hsplit : Dominates Candidate.logit (chosen.take sorted) (chosen.drop sorted) := by
    rw [hchosen]
    split
    · have hin := std.select_split (sorted - 1) scratch (by omega)
      rw [Nat.sub_add_cancel hpos] at hin
      exact hin
    · rename_i hall
      rw [List.drop_of_length_le (Nat.not_lt.mp hall)]
      exact fun _ _ _ hb => absurd hb List.not_mem_nil
  have hfront : (std.sort (chosen.take sorted)).length = sorted := by
    rw [(std.sort_perm _).length_eq, List.length_take, hperm.length_eq]
    exact Nat.min_eq_left (min_le_right _ _)
  have hrung : rung std cap scratch = std.sort (chosen.take sorted) ++ chosen.drop sorted := rfl
  rw [hrung, List.take_left' hfront, List.drop_left' hfront]
  refine ⟨?_, std.sort_ranked _, fun a ha b hb => ?_⟩
  · refine ((std.sort_perm _).append_right _).trans ?_
    rw [List.take_append_drop]
    exact hperm
  · exact hsplit a ((std.sort_perm _).mem_iff.mp ha) b hb

/-- What a ladder keeps of candidates, listed in full as `full`: as many of the
largest as it takes to reach the goal. -/
structure Reaches (weigh : WithBot K → K) (goal : K) (full kept : List (Candidate K)) (k : ℕ) :
    Prop where
  pos : 0 < k
  le : k ≤ full.length
  reached : goal ≤ massOf weigh (full.take k)
  before : ∀ j, 0 < j → j < k → massOf weigh (full.take j) < goal
  logits : kept.map Candidate.logit = (full.take k).map Candidate.logit
  ranked : Ranked Candidate.logit kept
  rest : ∃ rest, (kept ++ rest).Perm full ∧ Dominates Candidate.logit kept rest

omit [IsStrictOrderedRing K] in
theorem ladder_reaches {goal : K} {full : List (Candidate K)}
    (hranked : Ranked Candidate.logit full) (hgoal : goal ≤ massOf weigh full) :
    ∀ {caps : List ℕ} {scratch : List (Candidate K)}, scratch ≠ [] → scratch.Perm full →
      (∀ cap ∈ caps, 0 < cap) → (∃ cap ∈ caps, scratch.length ≤ cap) →
        ∃ k, Reaches weigh goal full (ladder std weigh goal caps scratch) k
  | [], _, _, _, _, ⟨_, hmem, _⟩ => absurd hmem List.not_mem_nil
  | cap :: caps, scratch, hne, hperm, hcaps, hfits => by
    obtain ⟨hrung, hfront, hback⟩ := rung_spec std (hcaps cap List.mem_cons_self) hne
    set sorted := min cap scratch.length with hsorted
    set out := rung std cap scratch with hout
    have hlength : out.length = scratch.length := hrung.length_eq
    have htake : (out.take sorted).length = sorted := by
      rw [List.length_take, hlength]
      exact Nat.min_eq_left (min_le_right _ _)
    -- the sorted prefix shows the first logits of the full list
    have hkeys : ∀ j ≤ sorted,
        (out.take j).map Candidate.logit = (full.take j).map Candidate.logit := by
      intro j hj
      have hwhole := hfront.keys_eq_take hranked
        ((List.take_append_drop sorted out).symm ▸ hrung.trans hperm) hback
      rw [htake] at hwhole
      have hcut := congrArg (List.take j) hwhole
      rw [← List.map_take, ← List.map_take, List.take_take, List.take_take,
        Nat.min_eq_left hj] at hcut
      exact hcut
    have hstep : ladder std weigh goal (cap :: caps) scratch
        = match firstReaching (fun c : Candidate K => weigh c.logit) goal 0 (out.take sorted) with
          | some keep => out.take keep
          | none => if sorted = out.length then out else ladder std weigh goal caps out := rfl
    rw [hstep]
    cases hreach : firstReaching (fun c : Candidate K => weigh c.logit) goal 0
        (out.take sorted) with
    -- the goal is reached within the prefix, at the same length as in the full order
    | some keep =>
      obtain ⟨hpos, hle, hreached, hbefore⟩ := firstReaching_some hreach
      rw [htake] at hle
      rw [zero_add, List.take_take, Nat.min_eq_left hle] at hreached
      have hmass : ∀ j ≤ sorted, massOf weigh (full.take j) = massOf weigh (out.take j) :=
        fun j hj => massOf_congr (hkeys j hj).symm
      refine ⟨keep, hpos, ?_, ?_, fun j hj hlt => ?_, hkeys keep hle, ?_, out.drop keep, ?_,
        hfront.dominates_take hback hle⟩
      · rw [← hperm.length_eq]
        exact hle.trans (min_le_right _ _)
      · rw [hmass keep hle]
        exact hreached
      · have hbelow := hbefore j hj hlt
        rw [zero_add, List.take_take, Nat.min_eq_left (by omega)] at hbelow
        rw [hmass j (by omega)]
        exact hbelow
      · have hcut : out.take keep = (out.take sorted).take keep := by
          rw [List.take_take, Nat.min_eq_left hle]
        simp only
        rw [hcut]
        exact hfront.sublist (List.take_sublist _ _)
      · simp only
        rw [List.take_append_drop]
        exact hrung.trans hperm
    | none =>
      have hnone := firstReaching_none hreach
      simp only
      by_cases hall : sorted = out.length
      · -- every candidate was in the prefix, whose mass is the whole
        exfalso
        have hbelow := hnone sorted (lt_min (hcaps cap List.mem_cons_self)
          (List.length_pos_iff.mpr hne)) htake.ge
        rw [zero_add, List.take_take, Nat.min_self, hall, List.take_length] at hbelow
        have hmass : massOf weigh out = massOf weigh full := mass_perm (hrung.trans hperm)
        exact absurd hgoal (not_le.mpr (hmass ▸ hbelow))
      -- the prefix falls short of the goal, so a larger cap is tried
      · rw [if_neg hall]
        obtain ⟨larger, hmem, hle⟩ := hfits
        refine ladder_reaches hranked hgoal (fun hnil => ?_) (hrung.trans hperm)
          (fun c hc => hcaps c (List.mem_cons_of_mem _ hc)) ⟨larger, ?_, hlength ▸ hle⟩
        · rw [hnil] at hlength
          exact hne (List.length_eq_zero_iff.mp hlength.symm)
        · obtain rfl | hlater := List.mem_cons.mp hmem
          · rw [hlength] at hall
            exact absurd (Nat.min_eq_right hle) hall
          · exact hlater

theorem massOf_nonneg (hnonneg : ∀ x, 0 ≤ weigh x) (cs : List (Candidate K)) :
    0 ≤ massOf weigh cs := mass_nonneg fun c => hnonneg c.logit

omit [IsStrictOrderedRing K] in
/-- The rungs of the sampler reach every goal that is not above the whole. -/
theorem topPLadder_reaches (std : Unstable K) (goal : K) {cs full : List (Candidate K)} (hne : cs ≠ [])
    (hfits : cs.length ≤ usizeMax) (hfull : full.Perm cs) (hranked : Ranked Candidate.logit full)
    (hgoal : goal ≤ massOf weigh cs) :
    ∃ k, Reaches weigh goal full (ladder std weigh goal topPLadder cs) k := by
  have hmass : massOf weigh full = massOf weigh cs := mass_perm hfull
  refine ladder_reaches hranked (hmass ▸ hgoal) hne hfull.symm (by decide) ⟨usizeMax, ?_, hfits⟩
  exact List.mem_of_getElem? (i := 3) rfl

/-- The ladder keeps, up to ties, the shortest prefix of the fully sorted list
whose mass reaches `topP` of the whole; it always keeps a candidate, and a rung
always reaches the goal. -/
theorem ladder_shortest (std : Unstable K) (weigh : WithBot K → K) (hnonneg : ∀ x, 0 ≤ weigh x)
    (topP : K) (hpos : 0 < topP) (hle : topP ≤ 1) (cs full : List (Candidate K)) (hne : cs ≠ [])
    (hfits : cs.length ≤ usizeMax) (hfull : full.Perm cs)
    (hranked : Ranked Candidate.logit full) :
    ∃ k kept,
      ladder std weigh (max topP 0 * massOf weigh cs) topPLadder cs = kept ∧ kept ≠ [] ∧
        kept.map Candidate.logit = (full.take k).map Candidate.logit ∧
        (∃ rest, (kept ++ rest).Perm cs ∧ Dominates Candidate.logit kept rest) ∧
        topP * massOf weigh cs ≤ massOf weigh (full.take k) ∧
        ∀ j < k, massOf weigh (full.take j) < topP * massOf weigh cs ∨
          (j = 0 ∧ massOf weigh cs = 0) := by
  have hwhole := massOf_nonneg hnonneg cs
  have hgoal : max topP 0 * massOf weigh cs = topP * massOf weigh cs := by
    rw [max_eq_left hpos.le]
  obtain ⟨k, hk⟩ := topPLadder_reaches std (max topP 0 * massOf weigh cs) hne hfits
    hfull hranked (by rw [hgoal]; exact mul_le_of_le_one_left hwhole hle)
  obtain ⟨rest, hrest, hdominates⟩ := hk.rest
  refine ⟨k, _, rfl, fun hnil => ?_, hk.logits, ⟨rest, hrest.trans hfull, hdominates⟩,
    hgoal ▸ hk.reached, fun j hj => ?_⟩
  · have hlogits := congrArg List.length hk.logits
    rw [hnil, List.length_map, List.length_map, List.length_take, List.length_nil] at hlogits
    have hpos := hk.pos
    have hbound := hk.le
    omega
  · obtain rfl | hlater := Nat.eq_zero_or_pos j
    · obtain hzero | hmass := hwhole.eq_or_lt
      · exact Or.inr ⟨rfl, hzero.symm⟩
      · exact Or.inl (mul_pos hpos hmass)
    · rw [← hgoal]
      exact Or.inl (hk.before j hlater hj)

end Ladder

/-- Select and sort by sorting. -/
def Unstable.bySorting (K : Type) [LinearOrder K] : Unstable K where
  select _ cs := cs.insertionSort fun a b => b.logit ≤ a.logit
  sort cs := cs.insertionSort fun a b => b.logit ≤ a.logit
  select_perm _ cs := List.perm_insertionSort _ cs
  select_split n cs _ := by
    have hsorted := List.pairwise_insertionSort (fun a b : Candidate K => b.logit ≤ a.logit) cs
    rw [← List.take_append_drop (n + 1) (cs.insertionSort _)] at hsorted
    exact (List.pairwise_append.mp hsorted).2.2
  sort_perm cs := List.perm_insertionSort _ cs
  sort_ranked cs := List.pairwise_insertionSort (fun a b : Candidate K => b.logit ≤ a.logit) cs

/-- Weights three and one, of which half is asked for. -/
theorem ladder_shortest_witness : ∃ k kept,
    ladder (Unstable.bySorting ℚ) (fun x => max 0 (x.unbotD 0))
        (max (1 / 2) 0 * massOf (fun x => max 0 (x.unbotD 0)) [⟨(1 : ℚ), 0⟩, ⟨(3 : ℚ), 1⟩])
        topPLadder [⟨(1 : ℚ), 0⟩, ⟨(3 : ℚ), 1⟩] = kept ∧ kept ≠ [] ∧
      kept.map Candidate.logit
        = (([⟨(3 : ℚ), 1⟩, ⟨(1 : ℚ), 0⟩] : List (Candidate ℚ)).take k).map Candidate.logit := by
  have hranked : Ranked Candidate.logit
      ([⟨(3 : ℚ), 1⟩, ⟨(1 : ℚ), 0⟩] : List (Candidate ℚ)) := by
    refine List.pairwise_pair.mpr ?_
    exact WithBot.coe_le_coe.mpr (by norm_num)
  obtain ⟨k, kept, hkept, hne, hlogits, -⟩ := ladder_shortest (Unstable.bySorting ℚ)
    (fun x => max 0 (x.unbotD 0)) (fun x => le_max_left _ _) (1 / 2) (by norm_num) (by norm_num)
    [⟨(1 : ℚ), 0⟩, ⟨(3 : ℚ), 1⟩] [⟨(3 : ℚ), 1⟩, ⟨(1 : ℚ), 0⟩] (List.cons_ne_nil _ _) (by decide)
    (List.Perm.swap _ _ _) hranked
  exact ⟨k, kept, hkept, hne, hlogits⟩

end Sampling
