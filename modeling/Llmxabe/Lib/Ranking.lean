/-
Lists ranked by a key, and walks along their cumulative weights.

Whatever the order among equal keys, the keys of the best `n` entries of a list
are those of the first `n` of the ranked list (`Ranked.keys_eq_take`).
`firstReaching` looks for the shortest prefix whose weight reaches a target;
`pick` looks for the entry on which a point of the whole weight falls, and each
entry catches an interval as long as its weight (`pick_eq_some_iff`).
-/
import Mathlib.Data.List.Sort
import Mathlib.Algebra.Order.BigOperators.Group.List
import Mathlib.Tactic

/-! ### Ranked lists -/

section Ranked

variable {α V : Type} [LinearOrder V] {key : α → V} {as bs cs : List α}

/-- By descending key. -/
def Ranked (key : α → V) (as : List α) : Prop := as.Pairwise fun a b => key b ≤ key a

/-- No entry of the second list has a greater key than one of the first. -/
def Dominates (key : α → V) (as bs : List α) : Prop := ∀ a ∈ as, ∀ b ∈ bs, key b ≤ key a

theorem Ranked.map_pairwise (h : Ranked key as) : (as.map key).Pairwise (· ≥ ·) :=
  List.pairwise_map.mpr h

theorem Ranked.append (has : Ranked key as) (hbs : Ranked key bs) (h : Dominates key as bs) :
    Ranked key (as ++ bs) := List.pairwise_append.mpr ⟨has, hbs, h⟩

/-- Two rankings of one list show the same keys. -/
theorem Ranked.keys_eq (has : Ranked key as) (hbs : Ranked key bs) (h : as.Perm bs) :
    as.map key = bs.map key :=
  (h.map key).eq_of_pairwise (fun _ _ _ _ hle hge => le_antisymm hge hle)
    has.map_pairwise hbs.map_pairwise

theorem exists_ranked (key : α → V) (as : List α) : ∃ bs, bs.Perm as ∧ Ranked key bs :=
  ⟨as.insertionSort fun a b => key b ≤ key a, List.perm_insertionSort _ as,
    List.pairwise_insertionSort (fun a b => key b ≤ key a) as⟩

/-- A ranked list that dominates the rest shows the first keys of the whole. -/
theorem Ranked.keys_eq_take (has : Ranked key as) (hcs : Ranked key cs)
    (hperm : (as ++ bs).Perm cs) (hd : Dominates key as bs) :
    as.map key = (cs.take as.length).map key := by
  obtain ⟨ds, hds, hranked⟩ := exists_ranked key bs
  have hwhole : (as ++ ds).map key = cs.map key := by
    refine (has.append hranked fun a ha b hb => ?_).keys_eq hcs
      ((hds.append_left as).trans hperm)
    exact hd a ha b (hds.mem_iff.mp hb)
  rw [List.map_take, ← hwhole, List.map_append,
    List.take_left' (by rw [List.length_map])]

/-- A part of a ranked prefix that dominates the rest dominates its own rest. -/
theorem Ranked.dominates_take {n k : ℕ} (h : Ranked key (as.take n))
    (hd : Dominates key (as.take n) (as.drop n)) (hk : k ≤ n) :
    Dominates key (as.take k) (as.drop k) := by
  have hfront : as.take k = (as.take n).take k := by rw [List.take_take, Nat.min_eq_left hk]
  have hback : as.drop k = (as.take n).drop k ++ as.drop n := by
    have hdrop : as.drop n = (as.drop k).drop (n - k) := by
      rw [List.drop_drop, Nat.add_sub_cancel' hk]
    rw [List.drop_take, hdrop, List.take_append_drop]
  rw [← List.take_append_drop k (as.take n)] at h
  obtain ⟨-, -, hin⟩ := List.pairwise_append.mp h
  rw [hfront, hback]
  intro a ha b hb
  obtain hb | hb := List.mem_append.mp hb
  · exact hin a ha b hb
  · exact hd a (List.mem_of_mem_take ha) b hb

end Ranked

/-! ### Cumulative weights -/

section Cumulative

variable {α K : Type} [AddCommGroup K] {weight : α → K} {as bs : List α} {a : α}

/-- The weight of a list. -/
def mass (weight : α → K) (as : List α) : K := (as.map weight).sum

@[simp] theorem mass_nil : mass weight [] = 0 := rfl

@[simp] theorem mass_cons : mass weight (a :: as) = weight a + mass weight as := rfl

theorem mass_append : mass weight (as ++ bs) = mass weight as + mass weight bs := by
  rw [mass, List.map_append, List.sum_append]
  rfl

theorem mass_perm (h : as.Perm bs) : mass weight as = mass weight bs := (h.map weight).sum_eq

variable [LinearOrder K] [IsOrderedAddMonoid K]

theorem mass_nonneg (h : ∀ a, 0 ≤ weight a) : 0 ≤ mass weight as := by
  refine List.sum_nonneg fun x hx => ?_
  obtain ⟨a, -, rfl⟩ := List.mem_map.mp hx
  exact h a

/-- The weight of a list with an entry is at least the entry's. -/
theorem le_mass (h : ∀ a, 0 ≤ weight a) (ha : a ∈ as) : weight a ≤ mass weight as := by
  obtain ⟨before, after, rfl⟩ := List.append_of_mem ha
  rw [mass_append, mass_cons]
  have hbefore : 0 ≤ mass weight before := mass_nonneg h
  have hafter : 0 ≤ mass weight after := mass_nonneg h
  exact le_add_of_nonneg_of_le hbefore (le_add_of_nonneg_right hafter)

/-- How many entries it takes for the running weight to reach a target. -/
def firstReaching (weight : α → K) (target : K) : K → List α → Option ℕ
  | _, [] => none
  | running, a :: as =>
    if target ≤ running + weight a then some 1
    else (firstReaching weight target (running + weight a) as).map (· + 1)

omit [IsOrderedAddMonoid K] in
theorem firstReaching_some {target : K} : ∀ {as : List α} {running : K} {k : ℕ},
    firstReaching weight target running as = some k →
      0 < k ∧ k ≤ as.length ∧ target ≤ running + mass weight (as.take k) ∧
        ∀ j, 0 < j → j < k → running + mass weight (as.take j) < target
  | [], _, _, h => by cases h
  | a :: as, running, k, h => by
    rw [firstReaching] at h
    split at h
    · rename_i hreached
      cases h
      refine ⟨Nat.one_pos, Nat.succ_pos _, ?_, fun j hj hk => by omega⟩
      rw [List.take_succ_cons, List.take_zero, mass_cons, mass_nil, add_zero]
      exact hreached
    · rename_i hshort
      obtain ⟨k', hk', rfl⟩ := Option.map_eq_some_iff.mp h
      obtain ⟨hpos, hle, hreached, hbefore⟩ := firstReaching_some hk'
      refine ⟨Nat.succ_pos _, Nat.succ_le_succ hle, ?_, fun j hj hlt => ?_⟩
      · rw [List.take_succ_cons, mass_cons, ← add_assoc]
        exact hreached
      · obtain _ | j := j
        · cases hj
        rw [List.take_succ_cons, mass_cons, ← add_assoc]
        rcases Nat.eq_zero_or_pos j with rfl | hpos'
        · rw [List.take_zero, mass_nil, add_zero]
          exact not_le.mp hshort
        · exact hbefore j hpos' (Nat.lt_of_succ_lt_succ hlt)

omit [IsOrderedAddMonoid K] in
theorem firstReaching_none {target : K} : ∀ {as : List α} {running : K},
    firstReaching weight target running as = none →
      ∀ j, 0 < j → j ≤ as.length → running + mass weight (as.take j) < target
  | [], _, _, j, hj, hle => by
    rw [List.length_nil] at hle
    omega
  | a :: as, running, h, j, hj, hle => by
    rw [firstReaching] at h
    split at h
    · cases h
    · rename_i hshort
      rw [Option.map_eq_none_iff] at h
      obtain _ | j := j
      · cases hj
      rw [List.take_succ_cons, mass_cons, ← add_assoc]
      rcases Nat.eq_zero_or_pos j with rfl | hpos
      · rw [List.take_zero, mass_nil, add_zero]
        exact not_le.mp hshort
      · exact firstReaching_none h j hpos (Nat.le_of_succ_le_succ hle)

/-- The entry on which the running weight uses up a draw. -/
def pick (weight : α → K) : K → List α → Option α
  | _, [] => none
  | draw, a :: as => if draw - weight a ≤ 0 then some a else pick weight (draw - weight a) as

omit [IsOrderedAddMonoid K] in
theorem pick_mem : ∀ {as : List α} {draw : K}, pick weight draw as = some a → a ∈ as
  | [], _, h => by cases h
  | b :: as, draw, h => by
    rw [pick] at h
    split at h
    · cases h
      exact List.mem_cons_self
    · exact List.mem_cons_of_mem _ (pick_mem h)

/-- A positive draw falls on an entry of positive weight. -/
theorem pick_pos : ∀ {as : List α} {draw : K}, 0 < draw → pick weight draw as = some a →
    0 < weight a
  | [], _, _, h => by cases h
  | b :: as, draw, hdraw, h => by
    rw [pick] at h
    split at h
    · rename_i hle
      cases h
      exact hdraw.trans_le (sub_nonpos.mp hle)
    · rename_i hgt
      exact pick_pos (not_le.mp hgt) h

theorem pick_isSome : ∀ {as : List α} {draw : K}, as ≠ [] → draw ≤ mass weight as →
    ∃ a, pick weight draw as = some a
  | [], _, h, _ => absurd rfl h
  | b :: as, draw, _, hle => by
    rw [pick]
    split
    · exact ⟨b, rfl⟩
    · rename_i hgt
      rw [mass_cons] at hle
      refine pick_isSome (fun hnil => hgt ?_) (sub_le_iff_le_add'.mpr hle)
      rw [hnil, mass_nil, add_zero] at hle
      exact sub_nonpos.mpr hle

/-- Nothing drawn falls on the first entry. -/
theorem pick_zero (h : ∀ a, 0 ≤ weight a) (hpick : pick weight 0 as = some a) :
    ∃ rest, as = a :: rest := by
  obtain _ | ⟨b, rest⟩ := as
  · cases hpick
  · rw [pick, zero_sub, if_pos (neg_nonpos.mpr (h b))] at hpick
    exact ⟨rest, congrArg (· :: rest) (Option.some.inj hpick)⟩

/-- The draws that fall on an entry form an interval as long as its weight. -/
theorem pick_eq_some_iff (h : ∀ a, 0 ≤ weight a) :
    ∀ {before after : List α} {draw : K}, (before ++ a :: after).Nodup → 0 < draw →
      (pick weight draw (before ++ a :: after) = some a ↔
        mass weight before < draw ∧ draw ≤ mass weight before + weight a)
  | [], after, draw, hnodup, hdraw => by
    rw [List.nil_append, pick, mass_nil, zero_add]
    by_cases hle : draw - weight a ≤ 0
    · rw [if_pos hle]
      exact ⟨fun _ => ⟨hdraw, sub_nonpos.mp hle⟩, fun _ => rfl⟩
    · rw [if_neg hle]
      refine ⟨fun hpick => ?_, fun hin => absurd (sub_nonpos.mpr hin.2) hle⟩
      exact absurd (pick_mem hpick) (List.nodup_cons.mp hnodup).1
  | b :: before, after, draw, hnodup, hdraw => by
    rw [List.cons_append] at hnodup ⊢
    obtain ⟨hnot, hrest⟩ := List.nodup_cons.mp hnodup
    rw [pick, mass_cons]
    by_cases hle : draw - weight b ≤ 0
    · rw [if_pos hle]
      refine ⟨fun heq => ?_, fun hin => ?_⟩
      · cases heq
        exact absurd (List.mem_append_right _ List.mem_cons_self) hnot
      · have hbound : weight b ≤ weight b + mass weight before :=
          le_add_of_nonneg_right (mass_nonneg h)
        exact absurd hin.1 (not_lt.mpr ((sub_nonpos.mp hle).trans hbound))
    · rw [if_neg hle, pick_eq_some_iff h hrest (not_le.mp hle), lt_sub_iff_add_lt',
        sub_le_iff_le_add', add_assoc]

end Cumulative

/-! ### Draws from the unit interval -/

section Scaled

variable {α K : Type} [Field K] [LinearOrder K] [IsStrictOrderedRing K] {weight : α → K}
  {as : List α} {a : α}

/-- A draw below one falls on an entry. -/
theorem pick_scaled_isSome (hpos : 0 < mass weight as) {u : K} (hu : u < 1) :
    ∃ a, pick weight (u * mass weight as) as = some a := by
  refine pick_isSome (fun hnil => ?_) (mul_le_of_le_one_left hpos.le hu.le)
  rw [hnil, mass_nil] at hpos
  exact lt_irrefl _ hpos

/-- An entry catches an interval of the draws, its share of the whole. -/
theorem pick_scaled_iff (h : ∀ a, 0 ≤ weight a) (hnodup : as.Nodup) (ha : a ∈ as)
    (hpos : 0 < mass weight as) :
    ∃ lo, 0 ≤ lo ∧ lo + weight a / mass weight as ≤ 1 ∧ ∀ u, 0 < u →
      (pick weight (u * mass weight as) as = some a ↔
        lo < u ∧ u ≤ lo + weight a / mass weight as) := by
  obtain ⟨before, after, rfl⟩ := List.append_of_mem ha
  set whole := mass weight (before ++ a :: after) with hwhole
  refine ⟨mass weight before / whole, div_nonneg (mass_nonneg h) hpos.le, ?_, fun u hu => ?_⟩
  · rw [← add_div, div_le_one hpos, hwhole, mass_append, mass_cons]
    exact add_le_add_right (le_add_of_nonneg_right (mass_nonneg h)) _
  · rw [pick_eq_some_iff h hnodup (mul_pos hu hpos), div_lt_iff₀ hpos, ← add_div,
      le_div_iff₀ hpos]

end Scaled
