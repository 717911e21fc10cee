/-
Searching a text for tags while it arrives.

`firstOf tags w` is the first tag in `w`.  Where there is none, the last letters of
`w` that may still begin one are held back (`heldBack`): no tag of `w ++ v` starts in
front of them, so the search may go on from there (`firstOf_held`).
-/
import Llmxabe.Lib.Markers
import Mathlib.Data.List.MinMax

namespace Markers

variable {α : Type} [DecidableEq α]

/-- The first of the words that stands in a text, and where. -/
def firstOf (words : List (List α)) (w : List α) : Option (ℕ × List α) :=
  (words.filterMap fun t => (find w t).map fun i => (i, t)).argmin Prod.fst

/-- Some letters of a word, not all of them, end a text. -/
def Begins (words : List (List α)) (k : ℕ) (w : List α) : Prop :=
  ∃ t ∈ words, 0 < k ∧ k < t.length ∧ t.take k <:+ w

/-- The longest end of a text that begins a word. -/
def heldBack (words : List (List α)) (w : List α) : ℕ :=
  (words.flatMap fun t => (List.range t.length).filter fun k => 0 < k ∧ t.take k <:+ w).foldr max 0

variable {words : List (List α)} {w v t : List α} {i k : ℕ}

theorem mem_begins : k ∈ (words.flatMap fun t =>
    (List.range t.length).filter fun k => 0 < k ∧ t.take k <:+ w) ↔ Begins words k w := by
  simp only [List.mem_flatMap, List.mem_filter, List.mem_range, decide_eq_true_eq, Begins]
  refine exists_congr fun t => and_congr_right fun _ => ?_
  constructor
  · rintro ⟨hlt, hpos, hend⟩
    exact ⟨hpos, hlt, hend⟩
  · rintro ⟨hpos, hlt, hend⟩
    exact ⟨hlt, hpos, hend⟩

theorem Begins.le_heldBack (h : Begins words k w) : k ≤ heldBack words w :=
  List.le_max_of_le' 0 (mem_begins.mpr h) le_rfl

theorem foldr_max_mem (ks : List ℕ) : ks.foldr max 0 = 0 ∨ ks.foldr max 0 ∈ ks := by
  induction ks with
  | nil => exact Or.inl rfl
  | cons k ks ih =>
    rw [List.foldr_cons]
    rcases max_choice k (ks.foldr max 0) with hk | hks
    · rw [hk]
      exact Or.inr List.mem_cons_self
    · rw [hks]
      exact ih.imp id (List.mem_cons_of_mem k)

theorem begins_heldBack (h : heldBack words w ≠ 0) : Begins words (heldBack words w) w :=
  mem_begins.mp ((foldr_max_mem _).resolve_left h)

theorem heldBack_le_length : heldBack words w ≤ w.length := by
  by_cases h : heldBack words w = 0
  · omega
  · obtain ⟨t, -, -, hlt, hend⟩ := begins_heldBack h
    have hlen := hend.length_le
    rwa [List.length_take, Nat.min_eq_left hlt.le] at hlen

/-- What is held back, and what is not. -/
def released (words : List (List α)) (w : List α) : List α := w.take (w.length - heldBack words w)

/-- The letters held back. -/
def held (words : List (List α)) (w : List α) : List α := w.drop (w.length - heldBack words w)

theorem released_append_held : released words w ++ held words w = w := List.take_append_drop _ _

theorem length_held : (held words w).length = heldBack words w := by
  have hle : heldBack words w ≤ w.length := heldBack_le_length
  rw [held, List.length_drop]
  omega

theorem held_suffix : held words w <:+ w := List.drop_suffix _ _

theorem append_eq_released (v : List α) : w ++ v = released words w ++ (held words w ++ v) := by
  rw [← List.append_assoc, released_append_held]

theorem held_append_suffix (v : List α) : held words w ++ v <:+ w ++ v :=
  ⟨released words w, (append_eq_released v).symm⟩

omit [DecidableEq α] in
theorem Begins.of_append (h : Begins words k (w ++ v)) (hlong : v.length < k) :
    Begins words (k - v.length) w := by
  obtain ⟨t, ht, hpos, hlt, front, hfront⟩ := h
  have hlen : (t.take k).length = k := by rw [List.length_take, Nat.min_eq_left hlt.le]
  rw [← List.take_append_drop (k - v.length) (t.take k), List.take_take, ← List.append_assoc,
    Nat.min_eq_left (Nat.sub_le k _)] at hfront
  refine ⟨t, ht, by omega, by omega, front, (List.append_inj' hfront ?_).1⟩
  rw [List.length_drop, hlen]
  omega

/-- An end that begins a word is an end of what is held back. -/
theorem begins_held_append (v : List α) : Begins words k (held words w ++ v) ↔
    Begins words k (w ++ v) := by
  constructor
  · rintro ⟨t, ht, hpos, hlt, hend⟩
    exact ⟨t, ht, hpos, hlt, hend.trans (held_append_suffix v)⟩
  · rintro ⟨t, ht, hpos, hlt, hend⟩
    refine ⟨t, ht, hpos, hlt, List.suffix_of_suffix_length_le hend (held_append_suffix v) ?_⟩
    have hlen : (t.take k).length = k := by rw [List.length_take, Nat.min_eq_left hlt.le]
    rw [hlen, List.length_append, length_held]
    rcases Nat.lt_or_ge v.length k with hlong | hshort
    · -- the part of the end that lies in `w` begins the word too
      have hwhole : Begins words k (w ++ v) := ⟨t, ht, hpos, hlt, hend⟩
      have := (hwhole.of_append hlong).le_heldBack
      omega
    · omega

/-- Holding back goes on from what is held. -/
theorem heldBack_held_append (v : List α) :
    heldBack words (held words w ++ v) = heldBack words (w ++ v) := by
  refine le_antisymm ?_ ?_
  · by_cases h : heldBack words (held words w ++ v) = 0
    · omega
    · exact ((begins_held_append v).mp (begins_heldBack h)).le_heldBack
  · by_cases h : heldBack words (w ++ v) = 0
    · omega
    · exact ((begins_held_append v).mpr (begins_heldBack h)).le_heldBack

theorem held_held_append (v : List α) : held words (held words w ++ v) = held words (w ++ v) := by
  have hinner : held words (held words w ++ v) <:+ w ++ v :=
    held_suffix.trans (held_append_suffix v)
  have hlen : (held words (held words w ++ v)).length = (held words (w ++ v)).length := by
    rw [length_held, length_held, heldBack_held_append]
  exact (List.suffix_of_suffix_length_le hinner held_suffix hlen.le).eq_of_length hlen

theorem released_held_append (v : List α) :
    released words w ++ released words (held words w ++ v) = released words (w ++ v) := by
  have hsame : (released words w ++ released words (held words w ++ v)) ++ held words (w ++ v) =
      released words (w ++ v) ++ held words (w ++ v) := by
    rw [released_append_held, List.append_assoc, ← held_held_append, released_append_held,
      ← List.append_assoc, released_append_held]
  exact List.append_cancel_right hsame

/-- No occurrence starts in the text `u` that was handed on in front of `w`, and none that
more text completes will. -/
structure Clear (words : List (List α)) (u w : List α) : Prop where
  absent : ∀ k < u.length, ¬Occurs words (u ++ w) k
  begun : ∀ k, Begins words k (u ++ w) → k ≤ w.length

omit [DecidableEq α] in
theorem Clear.nil : Clear words [] w := by
  refine ⟨fun k hk => absurd hk (Nat.not_lt_zero k), ?_⟩
  rintro k ⟨t, -, -, hlt, hend⟩
  have hlen := hend.length_le
  rwa [List.length_take, Nat.min_eq_left hlt.le] at hlen

omit [DecidableEq α] in
theorem Clear.mono {u : List α} {words' : List (List α)} (h : Clear words' u w)
    (hsub : words ⊆ words') : Clear words u w := by
  refine ⟨fun k hk hoccurs => h.absent k hk (hoccurs.mono hsub), ?_⟩
  rintro k ⟨t, ht, hpos, hlt, hend⟩
  exact h.begun k ⟨t, hsub ht, hpos, hlt, hend⟩

omit [DecidableEq α] in
/-- More text behind leaves what was handed on clear. -/
theorem Clear.extend {u : List α} (h : Clear words u w) (v : List α) : Clear words u (w ++ v) := by
  refine ⟨fun k hk hoccurs => ?_, fun k hbegins => ?_⟩
  · rw [← List.append_assoc] at hoccurs
    rcases hoccurs.of_append with hold | ⟨t, ht, hne, hpre, hlong⟩
    · exact h.absent k hk hold
    · -- the occurrence would begin in `u` and end in `v`
      have hinside : k < (u ++ w).length := by
        rw [List.length_append]
        omega
      have hbegins : Begins words ((u ++ w).length - k) (u ++ w) := by
        refine ⟨t, ht, by omega, by omega, ?_⟩
        rw [List.drop_append_of_le_length hinside.le] at hpre
        have htake : t.take ((u ++ w).length - k) = (u ++ w).drop k := by
          have hlen : ((u ++ w).drop k).length = (u ++ w).length - k := List.length_drop
          rw [← hlen]
          exact (List.prefix_iff_eq_take.mp (List.prefix_of_prefix_length_le
            (List.prefix_append _ v) hpre (by omega))).symm
        rw [htake]
        exact List.drop_suffix _ _
      have := h.begun _ hbegins
      rw [List.length_append] at this
      omega
  · rw [← List.append_assoc] at hbegins
    rcases Nat.lt_or_ge v.length k with hlong | hshort
    · have := h.begun _ (hbegins.of_append hlong)
      rw [List.length_append]
      omega
    · rw [List.length_append]
      omega

/-- What has no occurrence and begins none may be handed on. -/
theorem Clear.release {u a b : List α} (h : Clear words u (a ++ b))
    (hnone : ∀ k < a.length, ¬Occurs words (a ++ b) k)
    (hheld : heldBack words (a ++ b) ≤ b.length) : Clear words (u ++ a) b := by
  refine ⟨fun k hk hoccurs => ?_, fun k hbegins => ?_⟩
  · rw [List.append_assoc] at hoccurs
    rcases Nat.lt_or_ge k u.length with hlt | hge
    · exact h.absent k hlt hoccurs
    · obtain ⟨m, rfl⟩ := Nat.exists_eq_add_of_le hge
      rw [List.length_append] at hk
      refine hnone m (by omega) ?_
      rw [← occurs_drop, List.drop_left] at hoccurs
      exact hoccurs
  · rw [List.append_assoc] at hbegins
    have hle := h.begun k hbegins
    obtain ⟨t, ht, hpos, hlt, hend⟩ := hbegins
    have hlen : (t.take k).length = k := by rw [List.length_take, Nat.min_eq_left hlt.le]
    have hinner : Begins words k (a ++ b) := by
      refine ⟨t, ht, hpos, hlt, List.suffix_of_suffix_length_le hend (List.suffix_append _ _) ?_⟩
      rwa [hlen]
    exact hinner.le_heldBack.trans hheld

omit [DecidableEq α] in
/-- Nothing occurs in what was handed on and what stands in front of the first occurrence. -/
theorem Clear.cut {u : List α} (h : Clear words u w) (hfirst : ∀ k < i, ¬Occurs words w k) :
    ¬Occurs words (u ++ w.take i) k := by
  rintro ⟨t, ht, hne, hpre⟩
  have hbound := length_of_prefix_drop hpre hne
  have hpos := List.length_pos_iff.mpr hne
  have hlater : Occurs words (u ++ w.take i ++ w.drop i) k :=
    Occurs.append ⟨t, ht, hne, hpre⟩ (w.drop i)
  rw [List.append_assoc, List.take_append_drop] at hlater
  rw [List.length_append, List.length_take] at hbound
  rcases Nat.lt_or_ge k u.length with hlt | hge
  · exact h.absent k hlt hlater
  · obtain ⟨m, rfl⟩ := Nat.exists_eq_add_of_le hge
    refine hfirst m (by omega) ?_
    rwa [← occurs_drop, List.drop_left] at hlater

/-! ### Tags -/

/-- Words between an opening and a closing letter, which are nowhere else in them. -/
def Tags (opening closing : α) (words : List (List α)) : Prop :=
  opening ≠ closing ∧ ∀ t ∈ words, ∃ middle, t = opening :: (middle ++ [closing]) ∧
    opening ∉ middle ∧ closing ∉ middle

variable {opening closing : α}

omit [DecidableEq α] in
theorem Tags.headed (h : Tags opening closing words) : Headed opening words := by
  intro t ht
  obtain ⟨middle, rfl, hopening, -⟩ := h.2 t ht
  refine ⟨middle ++ [closing], rfl, ?_⟩
  rw [List.mem_append, List.mem_singleton]
  exact fun hmem => hmem.elim hopening h.1

omit [DecidableEq α] in
/-- No tag continues another. -/
theorem Tags.eq_of_prefix (h : Tags opening closing words) {t t' : List α} (ht : t ∈ words)
    (ht' : t' ∈ words) (hpre : t <+: t') : t = t' := by
  obtain ⟨middle, rfl, -, -⟩ := h.2 t ht
  obtain ⟨middle', rfl, -, hclosing⟩ := h.2 t' ht'
  obtain ⟨rest, hrest⟩ := hpre
  rcases List.eq_nil_or_concat rest with rfl | ⟨front, last, rfl⟩
  · rwa [List.append_nil] at hrest
  · have hends : (middle ++ closing :: front) ++ [last] = middle' ++ [closing] := by
      rw [← (List.cons.inj hrest).2]
      simp
    have hmiddle : middle ++ closing :: front = middle' := (List.append_inj' hends rfl).1
    exact absurd (hmiddle ▸ List.mem_append_right _ List.mem_cons_self) hclosing

omit [DecidableEq α] in
theorem Tags.ne_nil (h : Tags opening closing words) (ht : t ∈ words) : t ≠ [] := by
  obtain ⟨middle, rfl, -⟩ := h.2 t ht
  exact List.cons_ne_nil _ _

theorem mem_found {p : ℕ × List α} :
    p ∈ words.filterMap (fun t => (find w t).map fun i => (i, t)) ↔
      p.2 ∈ words ∧ find w p.2 = some p.1 := by
  rw [List.mem_filterMap]
  constructor
  · rintro ⟨t, ht, hfind⟩
    obtain ⟨i, hi, rfl⟩ := Option.map_eq_some_iff.mp hfind
    exact ⟨ht, hi⟩
  · rintro ⟨ht, hfind⟩
    exact ⟨p.2, ht, by rw [hfind]; rfl⟩

theorem firstOf_spec (h : firstOf words w = some (i, t)) :
    t ∈ words ∧ t ≠ [] ∧ t <+: w.drop i ∧ ∀ k < i, ¬Occurs words w k := by
  obtain ⟨ht, hfind⟩ := mem_found.mp (List.argmin_mem h)
  obtain ⟨hne, hpre, -⟩ := find_eq_some_iff.mp hfind
  refine ⟨ht, hne, hpre, ?_⟩
  rintro k hk ⟨t', ht', hne', hpre'⟩
  obtain ⟨k', hle, hfind'⟩ := find_isSome hne' hpre'
  have hmem : (k', t') ∈ words.filterMap (fun t => (find w t).map fun i => (i, t)) :=
    mem_found.mpr ⟨ht', hfind'⟩
  have hleast := List.le_of_mem_argmin hmem h
  exact absurd hleast (by show ¬i ≤ k'; omega)

theorem firstOf_eq_none_iff : firstOf words w = none ↔ ∀ i, ¬Occurs words w i := by
  rw [firstOf, List.argmin_eq_none]
  constructor
  · rintro hnil i ⟨t, ht, hne, hpre⟩
    obtain ⟨k, -, hfind⟩ := find_isSome hne hpre
    have hmem : (k, t) ∈ words.filterMap (fun t => (find w t).map fun i => (i, t)) :=
      mem_found.mpr ⟨ht, hfind⟩
    rw [hnil] at hmem
    cases hmem
  · intro hnone
    refine List.eq_nil_iff_forall_not_mem.mpr fun p hp => ?_
    obtain ⟨ht, hfind⟩ := mem_found.mp hp
    obtain ⟨hne, hpre, -⟩ := find_eq_some_iff.mp hfind
    exact hnone p.1 ⟨p.2, ht, hne, hpre⟩

/-- What the search for the first tag finds. -/
theorem firstOf_eq_some_iff (h : Tags opening closing words) :
    firstOf words w = some (i, t) ↔
      t ∈ words ∧ t <+: w.drop i ∧ ∀ k < i, ¬Occurs words w k := by
  constructor
  · intro hfirst
    obtain ⟨ht, -, hpre, hleast⟩ := firstOf_spec hfirst
    exact ⟨ht, hpre, hleast⟩
  · rintro ⟨ht, hpre, hleast⟩
    rcases hfirst : firstOf words w with _ | ⟨i', t'⟩
    · exact absurd ⟨t, ht, h.ne_nil ht, hpre⟩ (firstOf_eq_none_iff.mp hfirst i)
    · obtain ⟨ht', -, hpre', hleast'⟩ := firstOf_spec hfirst
      obtain rfl : i' = i := by
        rcases Nat.lt_trichotomy i' i with hlt | heq | hgt
        · exact absurd ⟨t', ht', h.ne_nil ht', hpre'⟩ (hleast i' hlt)
        · exact heq
        · exact absurd ⟨t, ht, h.ne_nil ht, hpre⟩ (hleast' i hgt)
      have hsame : t' = t := (List.prefix_or_prefix_of_prefix hpre' hpre).elim
        (h.eq_of_prefix ht' ht) fun hback => (h.eq_of_prefix ht ht' hback).symm
      rw [hsame]

/-- More text does not move the first tag. -/
theorem firstOf_append (h : Tags opening closing words) (hfirst : firstOf words w = some (i, t))
    (v : List α) : firstOf words (w ++ v) = some (i, t) := by
  obtain ⟨ht, hne, hpre, hleast⟩ := firstOf_spec hfirst
  have hfirstAt : firstAt words w = some i :=
    firstAt_eq_some_iff.mpr ⟨⟨t, ht, hne, hpre⟩, hleast⟩
  have hlater := firstAt_append h.headed hfirstAt v
  refine (firstOf_eq_some_iff h).mpr ⟨ht, ?_, (firstAt_eq_some_iff.mp hlater).2⟩
  have := length_of_prefix_drop hpre hne
  rw [List.drop_append_of_le_length (by omega)]
  exact hpre.trans (List.prefix_append _ _)

/-- Nothing that more text completes starts in front of what is held back. -/
theorem le_of_occurs (hnone : ∀ i, ¬Occurs words w i) (h : Occurs words (w ++ v) k) :
    (released words w).length ≤ k := by
  rcases h.of_append with hold | ⟨t, ht, hne, hpre, hlong⟩
  · exact absurd hold (hnone k)
  · have hle : heldBack words w ≤ w.length := heldBack_le_length
    rw [released, List.length_take]
    rcases Nat.lt_or_ge k w.length with hlt | hge
    · -- `w` ends in a proper beginning of the tag
      have hbegins : Begins words (w.length - k) w := by
        refine ⟨t, ht, by omega, by omega, ?_⟩
        have htake : t.take (w.length - k) = w.drop k := by
          rw [List.drop_append_of_le_length hlt.le] at hpre
          have hlen : (w.drop k).length = w.length - k := List.length_drop
          rw [← hlen]
          exact (List.prefix_iff_eq_take.mp (List.prefix_of_prefix_length_le
            (List.prefix_append (w.drop k) v) hpre (by omega))).symm
        rw [htake]
        exact List.drop_suffix _ _
      have := hbegins.le_heldBack
      omega
    · omega

theorem occurs_held (v : List α) : Occurs words (w ++ v) ((released words w).length + k) ↔
    Occurs words (held words w ++ v) k := by
  rw [← occurs_drop, append_eq_released, List.drop_left]

/-- Without a tag the search goes on from what is held back. -/
theorem firstOf_held (h : Tags opening closing words) (hnone : firstOf words w = none)
    (v : List α) : firstOf words (w ++ v) =
      (firstOf words (held words w ++ v)).map fun p => ((released words w).length + p.1, p.2) := by
  have hno := firstOf_eq_none_iff.mp hnone
  rcases hfirst : firstOf words (held words w ++ v) with _ | ⟨j, t⟩
  · refine firstOf_eq_none_iff.mpr fun k hk => ?_
    obtain ⟨m, rfl⟩ := Nat.exists_eq_add_of_le (le_of_occurs hno hk)
    exact firstOf_eq_none_iff.mp hfirst m ((occurs_held v).mp hk)
  · obtain ⟨ht, -, hpre, hleast⟩ := firstOf_spec hfirst
    refine (firstOf_eq_some_iff h).mpr ⟨ht, ?_, fun k hk hoccurs => ?_⟩
    · rw [append_eq_released, ← List.drop_drop, List.drop_left]
      exact hpre
    · obtain ⟨m, rfl⟩ := Nat.exists_eq_add_of_le (le_of_occurs hno hoccurs)
      exact hleast m (by omega) ((occurs_held v).mp hoccurs)

/-- The search for one word. -/
theorem find_eq_firstOf : find w t = (firstOf [t] w).map Prod.fst := by
  rcases hfind : find w t with _ | i
  · simp [firstOf, hfind]
  · simp [firstOf, hfind, List.argmin_singleton]

/-! ### Words inside a text -/

omit [DecidableEq α] in
/-- A word that lacks a letter stands on one side of it. -/
theorem inside_across {x : α} (hx : x ∉ t) (h : t <:+: w ++ x :: v) : t <:+: w ∨ t <:+: v := by
  obtain ⟨front, back, hparts⟩ := h
  rcases List.append_eq_append_iff.mp hparts with ⟨rest, rfl, -⟩ | ⟨rest, hfront, hrest⟩
  · exact Or.inl ⟨front, rest, rfl⟩
  · rcases rest with _ | ⟨y, rest⟩
    · -- the word ends where the letter stands
      rw [List.append_nil] at hfront
      exact Or.inl ⟨front, [], by rw [List.append_nil, hfront]⟩
    · obtain ⟨rfl, hback⟩ := List.cons.inj hrest
      rcases List.append_eq_append_iff.mp hfront with ⟨u, -, rfl⟩ | ⟨u, -, hu⟩
      · exact absurd (List.mem_append_right _ List.mem_cons_self) hx
      · rcases u with _ | ⟨y, u⟩
        · rw [List.nil_append] at hu
          exact absurd (hu ▸ List.mem_cons_self) hx
        · rw [hback, (List.cons.inj hu).2]
          exact Or.inr ⟨u, back, rfl⟩

omit [DecidableEq α] in
theorem Occurs.inside (h : Occurs [t] w k) : t <:+: w := by
  obtain ⟨t', ht', -, hpre⟩ := h
  rw [List.mem_singleton.mp ht'] at hpre
  exact hpre.isInfix.trans (List.drop_suffix _ _).isInfix

/-- A letter is found behind a text without it. -/
theorem find_letter {x : α} (hx : x ∉ w) (v : List α) : find (w ++ x :: v) [x] = some w.length := by
  refine find_eq_some_iff.mpr ⟨List.cons_ne_nil _ _, ?_, ?_⟩
  · rw [List.drop_left]
    exact ⟨v, rfl⟩
  · rintro k hk ⟨after, hafter⟩
    have hthere := congrArg (·[0]?) hafter
    simp only [List.cons_append, List.getElem?_cons_zero, List.getElem?_drop, Nat.add_zero] at hthere
    rw [List.getElem?_append_left hk] at hthere
    exact hx (List.mem_of_getElem? hthere.symm)

/-- Behind a text without tags the first tag is the one that stands there. -/
theorem firstOf_behind (h : Tags opening closing words) (ht : t ∈ words) (hpre : t <+: v)
    (hnone : ∀ k, ¬Occurs words w k) : firstOf words (w ++ v) = some (w.length, t) := by
  have hthere : t <+: (w ++ v).drop w.length := by rwa [List.drop_left]
  refine (firstOf_eq_some_iff h).mpr ⟨ht, hthere, ?_⟩
  rintro k hk ⟨t', ht', hne', hpre'⟩
  have happart := h.headed.apart ht' ht hpre' hthere hk
  refine hnone k ⟨t', ht', hne', ?_⟩
  rw [List.drop_append_of_le_length hk.le] at hpre'
  refine List.prefix_of_prefix_length_le hpre' (List.prefix_append _ v) ?_
  rw [List.length_drop]
  omega

omit [DecidableEq α] in
/-- Text without the closing letter completes no tag. -/
theorem Tags.occurs_of_append (h : Tags opening closing words) (hv : closing ∉ v)
    (hoccurs : Occurs words (w ++ v) k) : Occurs words w k := by
  rcases hoccurs.of_append with hold | ⟨t, ht, -, hpre, hlong⟩
  · exact hold
  · obtain ⟨middle, rfl, -, -⟩ := h.2 t ht
    obtain ⟨after, hafter⟩ := hpre
    have hlast : ((w ++ v).drop k)[middle.length + 1]? = some closing := by
      rw [← hafter]
      simp
    simp only [List.length_cons, List.length_append, List.length_nil] at hlong
    rw [List.getElem?_drop, List.getElem?_append_right (by omega)] at hlast
    exact absurd (List.mem_of_getElem? hlast) hv

omit [DecidableEq α] in
theorem occurs_of_inside (ht : t ≠ []) (h : t <:+: w) : ∃ k, Occurs [t] w k := by
  obtain ⟨front, back, rfl⟩ := h
  refine ⟨front.length, t, List.mem_singleton_self t, ht, ?_⟩
  rw [List.append_assoc, List.drop_left]
  exact List.prefix_append _ _

omit [DecidableEq α] in
/-- A tag that is another leaves the search clear. -/
theorem Tags.clear (h : Tags opening closing (t :: words)) (hother : t ∉ words) (w : List α) :
    Clear words t w := by
  have hempty : Clear words t [] := by
    refine ⟨fun k hk hoccurs => ?_, fun k hbegins => ?_⟩
    · rw [List.append_nil] at hoccurs
      obtain ⟨t', ht', hne', hpre'⟩ := hoccurs
      have hlen := length_of_prefix_drop hpre' hne'
      have hmem' : t' ∈ t :: words := List.mem_cons_of_mem _ ht'
      rcases Nat.eq_zero_or_pos k with rfl | hpos
      · exact hother (h.eq_of_prefix hmem' List.mem_cons_self hpre' ▸ ht')
      · have hpre : t <+: t.drop 0 := List.prefix_refl t
        have happart := h.headed.apart List.mem_cons_self hmem' hpre hpre' hpos
        have := List.length_pos_iff.mpr hne'
        omega
    · -- a proper beginning of a tag does not end in the closing letter
      rw [List.append_nil] at hbegins
      obtain ⟨t', ht', hpos, hlt, front, hend⟩ := hbegins
      obtain ⟨middle, hmiddle, -, -⟩ := h.2 t List.mem_cons_self
      obtain ⟨middle', rfl, -, hclosing⟩ := h.2 t' (List.mem_cons_of_mem _ ht')
      obtain ⟨k, rfl⟩ := Nat.exists_eq_succ_of_ne_zero hpos.ne'
      simp only [List.length_cons, List.length_append, List.length_nil] at hlt
      have hcut : (opening :: (middle' ++ [closing])).take (k + 1) = opening :: middle'.take k := by
        rw [List.take_succ_cons, List.take_append_of_le_length (by omega)]
      rw [Nat.succ_eq_add_one, hcut] at hend
      have hlast := congrArg List.getLast? (hend.trans hmiddle)
      rw [List.getLast?_append_of_ne_nil _ (List.cons_ne_nil _ _), ← List.cons_append,
        List.getLast?_concat] at hlast
      rcases List.mem_cons.mp (List.mem_of_getLast? hlast) with heq | hmem
      · exact absurd heq.symm h.1
      · exact absurd (List.mem_of_mem_take hmem) hclosing
  exact hempty.extend w

end Markers
