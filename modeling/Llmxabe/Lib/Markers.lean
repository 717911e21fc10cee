/-
Where one of several words first occurs in a text.

`Occurs markers w i`: one of the words stands at `i`; `firstAt` is the least such
`i`.  More text does not move it as long as no word can start inside another
(`firstAt_append`), and an occurrence that more text completes starts in the last
letters of the old text (`Occurs.of_append`).
-/
import Mathlib.Data.List.Infix
import Mathlib.Tactic

namespace Markers

variable {α : Type} [DecidableEq α]

/-- The first place of one word. -/
def find (haystack needle : List α) : Option ℕ :=
  if needle = [] ∨ haystack.length < needle.length then none
  else (List.range (haystack.length - needle.length + 1)).find? fun i =>
    decide ((haystack.drop i).take needle.length = needle)

/-- Where the first marker begins. -/
def firstAt (markers : List (List α)) (w : List α) : Option ℕ :=
  (markers.filterMap (find w)).min?

/-- A marker begins at `i`. -/
def Occurs (markers : List (List α)) (w : List α) (i : ℕ) : Prop :=
  ∃ t ∈ markers, t ≠ [] ∧ t <+: w.drop i

variable {markers : List (List α)} {w u v t : List α} {i j : ℕ}

omit [DecidableEq α] in
theorem prefix_drop_iff : t <+: w.drop i ↔ (w.drop i).take t.length = t := by
  rw [List.prefix_iff_eq_take]
  exact eq_comm

omit [DecidableEq α] in
theorem length_of_prefix_drop (h : t <+: w.drop i) (ht : t ≠ []) : i + t.length ≤ w.length := by
  have hlen := h.length_le
  rw [List.length_drop] at hlen
  have := List.length_pos_iff.mpr ht
  omega

theorem find_eq_some_iff :
    find w t = some i ↔ t ≠ [] ∧ t <+: w.drop i ∧ ∀ k < i, ¬t <+: w.drop k := by
  unfold find
  split
  case isTrue h =>
    constructor
    · intro h'
      cases h'
    · rintro ⟨ht, hpre, -⟩
      have := length_of_prefix_drop hpre ht
      rcases h with h | h
      · exact absurd h ht
      · omega
  case isFalse h =>
    rw [not_or, not_lt] at h
    rw [List.find?_range_eq_some]
    simp only [decide_eq_true_eq, Bool.not_eq_true', decide_eq_false_iff_not, List.mem_range,
      ← prefix_drop_iff]
    constructor
    · rintro ⟨hpre, -, hleast⟩
      exact ⟨h.1, hpre, hleast⟩
    · rintro ⟨ht, hpre, hleast⟩
      have := length_of_prefix_drop hpre ht
      exact ⟨hpre, by omega, hleast⟩

theorem find_isSome (ht : t ≠ []) (hpre : t <+: w.drop i) : ∃ k ≤ i, find w t = some k := by
  classical
  have hex : ∃ k, t <+: w.drop k := ⟨i, hpre⟩
  refine ⟨Nat.find hex, Nat.find_min' hex hpre, find_eq_some_iff.mpr ⟨ht, Nat.find_spec hex, ?_⟩⟩
  exact fun k hk => Nat.find_min hex hk

theorem firstAt_eq_some_iff :
    firstAt markers w = some i ↔ Occurs markers w i ∧ ∀ k < i, ¬Occurs markers w k := by
  have hmem : ∀ k, k ∈ markers.filterMap (find w) → Occurs markers w k := by
    intro k hk
    obtain ⟨t, ht, hfind⟩ := List.mem_filterMap.mp hk
    obtain ⟨hne, hpre, -⟩ := find_eq_some_iff.mp hfind
    exact ⟨t, ht, hne, hpre⟩
  have hless : ∀ k, Occurs markers w k → ∃ k' ≤ k, k' ∈ markers.filterMap (find w) := by
    rintro k ⟨t, ht, hne, hpre⟩
    obtain ⟨k', hle, hfind⟩ := find_isSome hne hpre
    exact ⟨k', hle, List.mem_filterMap.mpr ⟨t, ht, hfind⟩⟩
  unfold firstAt
  rw [List.min?_eq_some_iff]
  constructor
  · rintro ⟨hi, hleast⟩
    refine ⟨hmem i hi, fun k hk hoccurs => ?_⟩
    obtain ⟨k', hle, hk'⟩ := hless k hoccurs
    have := hleast k' hk'
    omega
  · rintro ⟨hoccurs, hleast⟩
    obtain ⟨k', hle, hk'⟩ := hless i hoccurs
    have hge : i ≤ k' := by
      by_contra hlt
      exact hleast k' (by omega) (hmem k' hk')
    obtain rfl : k' = i := by omega
    refine ⟨hk', fun k hk => ?_⟩
    by_contra hlt
    exact hleast k (by omega) (hmem k hk)

theorem firstAt_eq_none_iff : firstAt markers w = none ↔ ∀ i, ¬Occurs markers w i := by
  constructor
  · intro h i hi
    classical
    have hex : ∃ k, Occurs markers w k := ⟨i, hi⟩
    have hsome : firstAt markers w = some (Nat.find hex) :=
      firstAt_eq_some_iff.mpr ⟨Nat.find_spec hex, fun k hk => Nat.find_min hex hk⟩
    rw [h] at hsome
    cases hsome
  · intro h
    rcases hfirst : firstAt markers w with _ | i
    · rfl
    · exact absurd (firstAt_eq_some_iff.mp hfirst).1 (h i)

omit [DecidableEq α] in
theorem Occurs.append (h : Occurs markers u i) (v : List α) : Occurs markers (u ++ v) i := by
  obtain ⟨t, ht, hne, hpre⟩ := h
  have := length_of_prefix_drop hpre hne
  refine ⟨t, ht, hne, ?_⟩
  rw [List.drop_append_of_le_length (by omega)]
  exact hpre.trans (List.prefix_append _ _)

omit [DecidableEq α] in
theorem Occurs.mono {words words' : List (List α)} (h : Occurs words w i)
    (hsub : words ⊆ words') : Occurs words' w i := by
  obtain ⟨t, ht, hne, hpre⟩ := h
  exact ⟨t, hsub ht, hne, hpre⟩

omit [DecidableEq α] in
/-- Nothing occurs in the empty text. -/
theorem not_occurs_nil (k : ℕ) : ¬Occurs markers [] k := by
  rintro ⟨t, -, hne, hpre⟩
  rw [List.drop_nil] at hpre
  exact hne (List.prefix_nil.mp hpre)

omit [DecidableEq α] in
/-- An occurrence stands in the old text, or it ends behind it. -/
theorem Occurs.of_append (h : Occurs markers (u ++ v) i) :
    Occurs markers u i ∨
      ∃ t ∈ markers, t ≠ [] ∧ t <+: (u ++ v).drop i ∧ u.length < i + t.length := by
  obtain ⟨t, ht, hne, hpre⟩ := h
  rcases Nat.lt_or_ge u.length (i + t.length) with hlt | hge
  · exact Or.inr ⟨t, ht, hne, hpre, hlt⟩
  · refine Or.inl ⟨t, ht, hne, ?_⟩
    have hpos := List.length_pos_iff.mpr hne
    rw [List.drop_append_of_le_length (by omega)] at hpre
    refine List.prefix_of_prefix_length_le hpre (List.prefix_append _ v) ?_
    rw [List.length_drop]
    omega

omit [DecidableEq α] in
/-- Text dropped in front moves the occurrences. -/
theorem occurs_drop {n : ℕ} : Occurs markers (w.drop n) i ↔ Occurs markers w (n + i) := by
  unfold Occurs
  simp only [List.drop_drop]

/-- Every marker starts with `head`, which is nowhere else in it. -/
def Headed (head : α) (markers : List (List α)) : Prop :=
  ∀ t ∈ markers, ∃ rest, t = head :: rest ∧ head ∉ rest

omit [DecidableEq α] in
/-- Headed markers do not overlap. -/
theorem Headed.apart {head : α} (h : Headed head markers) {t t' : List α} (ht : t ∈ markers)
    (ht' : t' ∈ markers) (hpre : t <+: w.drop i) (hpre' : t' <+: w.drop j) (hij : i < j) :
    i + t.length ≤ j := by
  by_contra hover
  obtain ⟨rest, rfl, hrest⟩ := h t ht
  obtain ⟨rest', rfl, -⟩ := h t' ht'
  obtain ⟨after, hafter⟩ := hpre
  obtain ⟨after', hafter'⟩ := hpre'
  rw [List.length_cons] at hover
  obtain ⟨k, rfl⟩ := Nat.exists_eq_add_of_lt hij
  have hhead : w[i + k + 1]? = some head := by
    have := congrArg (·[0]?) hafter'
    simpa using this.symm
  have hinside : w[i + k + 1]? = rest[k]? := by
    have := congrArg (·[k + 1]?) hafter
    simp only [List.cons_append, List.getElem?_cons_succ, List.getElem?_drop] at this
    rw [List.getElem?_append_left (by omega)] at this
    exact this.symm
  exact hrest (List.mem_of_getElem? (hinside.symm.trans hhead))

/-- More text does not move the first occurrence of headed markers. -/
theorem firstAt_append {head : α} (h : Headed head markers) (hfirst : firstAt markers u = some i)
    (v : List α) : firstAt markers (u ++ v) = some i := by
  obtain ⟨hoccurs, hleast⟩ := firstAt_eq_some_iff.mp hfirst
  refine firstAt_eq_some_iff.mpr ⟨hoccurs.append v, fun k hk hoccurs' => ?_⟩
  rcases hoccurs'.of_append with hold | ⟨t, ht, hne, hpre, hlt⟩
  · exact hleast k hk hold
  · obtain ⟨t', ht', hne', hpre'⟩ := hoccurs.append v
    obtain ⟨t₀, -, hne₀, hpre₀⟩ := hoccurs
    have hle := length_of_prefix_drop hpre₀ hne₀
    have := h.apart ht ht' hpre hpre' hk
    have := List.length_pos_iff.mpr hne₀
    omega

end Markers
