/-
Scanning for the first occurrence of a word, a letter at a time.

The scan keeps the length of the longest prefix of the needle that ends what it
has read (`Matched`); on a mismatch it falls back along a table of borders.
`Ends needle w` says that `w` stops at the first occurrence of the needle in it.
-/
import Mathlib.Data.List.Infix
import Mathlib.Tactic

namespace Scan

variable {α : Type} [DecidableEq α] (needle : List α)

/-- The length matched once `a` has been read, `k` letters having been matched before. -/
def advance (fallback : List ℕ) (a : α) : ℕ → ℕ → ℕ
  | 0, _ => 0
  | fuel + 1, k =>
    if needle[k]? = some a then k + 1
    else if k = 0 then 0
    else advance fallback a fuel (fallback.getD k 0)

/-- The table holds the longest proper border of every shorter prefix. -/
def Borders (fallback : List ℕ) : Prop :=
  ∀ k < needle.length, 0 < k →
    fallback.getD k 0 < k ∧ needle.take (fallback.getD k 0) <:+ needle.take k ∧
      ∀ j < k, needle.take j <:+ needle.take k → j ≤ fallback.getD k 0

instance (fallback : List ℕ) : Decidable (Borders needle fallback) := by
  unfold Borders
  infer_instance

/-- `k` is the length of the longest beginning of the needle that ends `u`. -/
def Matched (u : List α) (k : ℕ) : Prop :=
  k ≤ needle.length ∧ needle.take k <:+ u ∧ ∀ j ≤ needle.length, needle.take j <:+ u → j ≤ k

/-- No occurrence yet, and `k` letters of one. -/
structure Searching (u : List α) (k : ℕ) : Prop where
  matched : Matched needle u k
  none : ∀ p, p <+: u → ¬needle <:+ p

/-- The word stops at the needle's first occurrence in it. -/
def Ends (w : List α) : Prop :=
  needle <:+ w ∧ ∀ p, p <+: w → needle <:+ p → p = w

variable {needle} {fallback : List ℕ} {u v w : List α} {a : α} {k j : ℕ}

omit [DecidableEq α] in
theorem take_succ_suffix_iff (hj : j < needle.length) :
    needle.take (j + 1) <:+ u ++ [a] ↔ needle.take j <:+ u ∧ needle[j]? = some a := by
  rw [List.take_succ_eq_append_getElem hj, List.getElem?_eq_getElem hj]
  constructor
  · rintro ⟨t, ht⟩
    rw [← List.append_assoc] at ht
    obtain ⟨h, h'⟩ := List.append_inj' ht rfl
    exact ⟨⟨t, h⟩, congrArg some (List.singleton_inj.mp h')⟩
  · rintro ⟨⟨t, rfl⟩, h⟩
    refine ⟨t, ?_⟩
    rw [Option.some.inj h, List.append_assoc]

theorem advance_matched (hb : Borders needle fallback) {fuel : ℕ} (hfuel : k < fuel)
    (hk : k < needle.length) (hsuffix : needle.take k <:+ u)
    (hmost : ∀ j ≤ needle.length, needle.take j <:+ u ++ [a] → j ≤ k + 1) :
    Matched needle (u ++ [a]) (advance needle fallback a fuel k) := by
  induction fuel generalizing k with
  | zero => omega
  | succ fuel ih =>
    unfold advance
    split
    case isTrue hread =>
      exact ⟨hk, (take_succ_suffix_iff hk).mpr ⟨hsuffix, hread⟩, hmost⟩
    case isFalse hread =>
      -- a prefix that ends here is one letter longer than a border of what was matched
      have hshorter : ∀ j < needle.length, needle.take (j + 1) <:+ u ++ [a] → j < k := by
        intro j hj hsuffix'
        have hle := hmost (j + 1) hj hsuffix'
        rcases Nat.lt_or_ge j k with hlt | hge
        · exact hlt
        · obtain rfl : j = k := by omega
          exact absurd ((take_succ_suffix_iff hj).mp hsuffix').2 hread
      split
      case isTrue hzero =>
        subst hzero
        refine ⟨Nat.zero_le _, List.nil_suffix, fun j hj hsuffix' => ?_⟩
        rcases j with _ | j
        · exact Nat.le_refl _
        · exact absurd (hshorter j hj hsuffix') (Nat.not_lt_zero _)
      case isFalse hpos =>
        obtain ⟨hlt, hborder, hlongest⟩ := hb k hk (by omega)
        refine ih (by omega) (by omega) (hborder.trans hsuffix) fun j hj hsuffix' => ?_
        rcases j with _ | j
        · exact Nat.zero_le _
        · have hjk := hshorter j hj hsuffix'
          have htake := ((take_succ_suffix_iff hj).mp hsuffix').1
          have hsub : needle.take j <:+ needle.take k := by
            refine List.suffix_of_suffix_length_le htake hsuffix ?_
            rw [List.length_take, List.length_take]
            omega
          have := hlongest j hjk hsub
          omega

theorem Matched.advance (hb : Borders needle fallback) (h : Matched needle u k)
    (hk : k < needle.length) :
    Matched needle (u ++ [a]) (Scan.advance needle fallback a (k + 1) k) := by
  refine advance_matched hb (Nat.lt_succ_self k) hk h.2.1 fun j hj hsuffix => ?_
  rcases j with _ | j
  · exact Nat.zero_le _
  · have := h.2.2 j (by omega) ((take_succ_suffix_iff hj).mp hsuffix).1
    omega

omit [DecidableEq α] in
theorem Searching.lt (h : Searching needle u k) : k < needle.length := by
  rcases Nat.lt_or_ge k needle.length with hlt | hge
  · exact hlt
  · have hsuffix := h.matched.2.1
    rw [List.take_of_length_le hge] at hsuffix
    exact absurd hsuffix (h.none u (List.prefix_refl u))

omit [DecidableEq α] in
theorem Searching.start (hne : needle ≠ []) : Searching needle [] 0 where
  matched := by
    refine ⟨Nat.zero_le _, List.suffix_refl [], fun j hj hsuffix => ?_⟩
    have hnil := List.length_eq_zero_iff.mpr (List.suffix_nil.mp hsuffix)
    rw [List.length_take] at hnil
    omega
  none p hp hsuffix := by
    rw [List.prefix_nil.mp hp] at hsuffix
    exact hne (List.suffix_nil.mp hsuffix)

/-- One letter: the needle is complete, or the search goes on. -/
theorem Searching.step (hb : Borders needle fallback) (h : Searching needle u k) :
    Scan.advance needle fallback a (k + 1) k = needle.length ∧ Ends needle (u ++ [a]) ∨
      Scan.advance needle fallback a (k + 1) k ≠ needle.length ∧
        Searching needle (u ++ [a]) (Scan.advance needle fallback a (k + 1) k) := by
  have hm := h.matched.advance (a := a) hb h.lt
  have hold : ∀ p, p <+: u ++ [a] → needle <:+ p → p = u ++ [a] := by
    intro p hp hsuffix
    rcases List.prefix_concat_iff.mp hp with rfl | hp
    · rfl
    · exact absurd hsuffix (h.none p hp)
  by_cases hend : Scan.advance needle fallback a (k + 1) k = needle.length
  · refine Or.inl ⟨hend, ?_, hold⟩
    have hsuffix := hm.2.1
    rwa [hend, List.take_length] at hsuffix
  · refine Or.inr ⟨hend, hm, fun p hp hsuffix => hend ?_⟩
    obtain rfl := hold p hp hsuffix
    rw [← List.take_length (l := needle)] at hsuffix
    exact Nat.le_antisymm hm.1 (hm.2.2 _ (Nat.le_refl _) hsuffix)

omit [DecidableEq α] in
theorem Searching.not_ends (h : Searching needle u k) : ¬Ends needle u :=
  fun hends => h.none u (List.prefix_refl u) hends.1

theorem advance_read (h : needle[k]? = some a) :
    Scan.advance needle fallback a (k + 1) k = k + 1 := by
  simp only [Scan.advance, h, if_true]

end Scan
