/-
Fragments of a nondeterministic machine, put together as a grammar is.

A machine moves between configurations silently or by reading a letter, and it
waits in some of them, for a letter or because it may stop there.  In
`Fragment M c D L` a run from `c` spells a word of `L` and is then in `D`; a run
that waits somewhere else can still complete a word of `L` and get to `D`.  So a
fragment never lets a run in that cannot get out.

Fragments compose: `nil`, `letter`, `silent`, `seq`, `alts`, `star`.
-/
import Mathlib

open Computability

/-- An automaton that moves silently, reads letters, or waits for one. -/
structure Moves (C α : Type) where
  silent : C → C → Prop
  read : C → α → C → Prop
  waits : C → Prop

namespace Moves

variable {C α : Type}

/-- A run that reads a word. -/
inductive Path (M : Moves C α) : C → List α → C → Prop where
  | nil (c : C) : Path M c [] c
  | silent {c d e : C} {w : List α} : M.silent c d → Path M d w e → Path M c w e
  | read {c d e : C} {a : α} {w : List α} : M.read c a d → Path M d w e → Path M c (a :: w) e

variable {M : Moves C α} {c d e m : C} {D D' A : Set C} {u v w : List α}

theorem Path.trans (h : M.Path c u d) (h' : M.Path d v e) : M.Path c (u ++ v) e := by
  induction h with
  | nil => exact h'
  | silent hs _ ih => exact Path.silent hs (ih h')
  | read hr _ ih => exact Path.read hr (ih h')

/-- Where a run stands before it reads a letter. -/
theorem Path.before_read {a : α} (h : M.Path c (u ++ a :: v) d) :
    ∃ e f, M.Path c u e ∧ M.read e a f := by
  generalize hw : u ++ a :: v = w at h
  induction h generalizing u with
  | nil => cases u <;> cases hw
  | silent hs _ ih =>
    obtain ⟨e, f, hpath, hread⟩ := ih hw
    exact ⟨e, f, .silent hs hpath, hread⟩
  | @read c c' e b w hr _ ih =>
    cases u with
    | nil =>
      obtain ⟨rfl, rfl⟩ := List.cons.inj hw
      exact ⟨c, c', .nil c, hr⟩
    | cons x u =>
      obtain ⟨rfl, rfl⟩ := List.cons.inj hw
      obtain ⟨e, f, hpath, hread⟩ := ih rfl
      exact ⟨e, f, .read hr hpath, hread⟩

/-- A configuration the machine never leaves. -/
def Stuck (M : Moves C α) (c : C) : Prop :=
  (∀ d, ¬M.silent c d) ∧ ∀ a d, ¬M.read c a d

theorem Path.of_stuck (h : M.Path c w d) (hc : M.Stuck c) : w = [] ∧ d = c := by
  cases h with
  | nil => exact ⟨rfl, rfl⟩
  | silent hs _ => exact absurd hs (hc.1 _)
  | read hr _ => exact absurd hr (hc.2 _ _)

/-- The machine only waits where it stops for good. -/
def Halting (M : Moves C α) : Prop := ∀ e, M.waits e → M.Stuck e

/-- From `c` into `D` by the words of `L`, with a way out of wherever a run waits. -/
structure Fragment (M : Moves C α) (c : C) (D : Set C) (L : Language α) : Prop where
  spells : ∀ {w}, w ∈ L → ∃ d ∈ D, M.Path c w d
  passes : ∀ {w e}, M.Path c w e → M.waits e →
    (∃ u v, u ∈ L ∧ w = u ++ v ∧ ∃ d ∈ D, M.Path d v e) ∨
      ∃ v, w ++ v ∈ L ∧ ∃ d ∈ D, M.Path e v d

namespace Fragment

variable {L L' : Language α}

theorem nil (c : C) : M.Fragment c {c} 1 where
  spells hw := by
    rw [Language.mem_one] at hw
    exact ⟨c, rfl, hw ▸ Path.nil c⟩
  passes hp _ := Or.inl ⟨[], _, Language.nil_mem_one, rfl, c, rfl, hp⟩

/-- A configuration that reads one letter. -/
theorem letter {a : α} (hread : ∀ b e, M.read c b e ↔ b = a ∧ e = d)
    (hsilent : ∀ e, ¬M.silent c e) : M.Fragment c {d} {[a]} where
  spells hw := by
    obtain rfl : _ = [a] := hw
    exact ⟨d, rfl, Path.read ((hread a d).mpr ⟨rfl, rfl⟩) (Path.nil d)⟩
  passes hp _ := by
    cases hp with
    | nil =>
      exact Or.inr ⟨[a], rfl, d, rfl, Path.read ((hread a d).mpr ⟨rfl, rfl⟩) (Path.nil d)⟩
    | silent hs _ => exact absurd hs (hsilent _)
    | read hr hp =>
      obtain ⟨rfl, rfl⟩ := (hread _ _).mp hr
      exact Or.inl ⟨[_], _, rfl, rfl, _, rfl, hp⟩

/-- A configuration that moves on silently. -/
theorem silent (hsilent : ∀ e, M.silent c e ↔ e = m) (hread : ∀ b e, ¬M.read c b e)
    (hwaits : ¬M.waits c) (h : M.Fragment m D L) : M.Fragment c D L where
  spells hw := by
    obtain ⟨d, hd, hp⟩ := h.spells hw
    exact ⟨d, hd, Path.silent ((hsilent m).mpr rfl) hp⟩
  passes hp he := by
    cases hp with
    | nil => exact absurd he hwaits
    | silent hs hp => exact h.passes ((hsilent _).mp hs ▸ hp) he
    | read hr _ => exact absurd hr (hread _ _)

/-- One fragment behind another. -/
theorem seq (h : M.Fragment c A L) (h' : ∀ m ∈ A, M.Fragment m D L')
    (hword : (∃ w, w ∈ L') ∨ M.Halting) : M.Fragment c D (L * L') where
  spells hw := by
    obtain ⟨u, hu, v, hv, rfl⟩ := Language.mem_mul.mp hw
    obtain ⟨m, hm, hp⟩ := h.spells hu
    obtain ⟨d, hd, hp'⟩ := (h' m hm).spells hv
    exact ⟨d, hd, hp.trans hp'⟩
  passes {w e} hp he := by
    have hleave : ∀ {u v m}, u ∈ L → w = u ++ v → m ∈ A → M.Path m v e →
        (∃ u v, u ∈ L * L' ∧ w = u ++ v ∧ ∃ d ∈ D, M.Path d v e) ∨
          ∃ v, w ++ v ∈ L * L' ∧ ∃ d ∈ D, M.Path e v d := by
      intro u v m hu hw hm hp'
      rcases (h' m hm).passes hp' he with ⟨u', v', hu', rfl, hd⟩ | ⟨v', hv', hd⟩
      · refine Or.inl ⟨u ++ u', v', Language.append_mem_mul hu hu', ?_, hd⟩
        rw [hw, List.append_assoc]
      · refine Or.inr ⟨v', ?_, hd⟩
        rw [hw, List.append_assoc]
        exact Language.append_mem_mul hu hv'
    rcases h.passes hp he with ⟨u, v, hu, hw, m, hm, hp'⟩ | ⟨v, hv, m, hm, hback⟩
    · exact hleave hu hw hm hp'
    · rcases hword with ⟨w', hw'⟩ | hhalt
      · obtain ⟨d, hd, hp'⟩ := (h' m hm).spells hw'
        refine Or.inr ⟨v ++ w', ?_, d, hd, hback.trans hp'⟩
        rw [← List.append_assoc]
        exact Language.append_mem_mul hv hw'
      · obtain ⟨rfl, rfl⟩ := hback.of_stuck (hhalt e he)
        rw [List.append_nil] at hv
        exact hleave hv (List.append_nil w).symm hm (Path.nil m)

/-- A configuration that moves silently to one of several fragments: each spells
part of `L`, and every word of `L` is in the part of one. -/
theorem alts (hsilent : ∀ e, M.silent c e → ∃ L' ≤ L, M.Fragment e D L')
    (hword : ∀ w ∈ L, ∃ e L', M.silent c e ∧ w ∈ L' ∧ M.Fragment e D L')
    (hread : ∀ b e, ¬M.read c b e) (hwaits : ¬M.waits c) : M.Fragment c D L where
  spells hw := by
    obtain ⟨e, L', hs, hw, he⟩ := hword _ hw
    obtain ⟨d, hd, hpath⟩ := he.spells hw
    exact ⟨d, hd, Path.silent hs hpath⟩
  passes hpath he := by
    cases hpath with
    | nil => exact absurd he hwaits
    | silent hs hpath =>
      obtain ⟨L', hle, hfragment⟩ := hsilent _ hs
      rcases hfragment.passes hpath he with ⟨u, v, hu, hw, hd⟩ | ⟨v, hv, hd⟩
      · exact Or.inl ⟨u, v, hle hu, hw, hd⟩
      · exact Or.inr ⟨v, hle hv, hd⟩
    | read hr _ => exact absurd hr (hread _ _)

theorem widen (h : M.Fragment c D L) (hD : D ⊆ D') : M.Fragment c D' L where
  spells hw := by
    obtain ⟨d, hd, hp⟩ := h.spells hw
    exact ⟨d, hD hd, hp⟩
  passes hp he := by
    rcases h.passes hp he with ⟨u, v, hu, hw, d, hd, hp'⟩ | ⟨v, hv, d, hd, hp'⟩
    · exact Or.inl ⟨u, v, hu, hw, d, hD hd, hp'⟩
    · exact Or.inr ⟨v, hv, d, hD hd, hp'⟩

theorem mem_kstar_cons (hu : u ∈ L) (hv : v ∈ L∗) : u ++ v ∈ L∗ := by
  rw [← Language.one_add_self_mul_kstar_eq_kstar]
  exact Or.inr (Language.append_mem_mul hu hv)

/-- Configurations that go through a fragment and come back, or leave. -/
theorem star (hleave : ∀ c ∈ A, ∃ d ∈ D, M.silent c d)
    (hturn : ∀ c ∈ A, ∀ w ∈ L, ∃ m L', M.silent c m ∧ w ∈ L' ∧ M.Fragment m A L')
    (hsilent : ∀ c ∈ A, ∀ e, M.silent c e → e ∈ D ∨ ∃ L' ≤ L, M.Fragment e A L')
    (hread : ∀ c ∈ A, ∀ b e, ¬M.read c b e) (hwaits : ∀ c ∈ A, ¬M.waits c) (hL : [] ∉ L)
    (hc : c ∈ A) : M.Fragment c D L∗ where
  spells {w} hw := by
    obtain ⟨ws, rfl, hws⟩ := Language.mem_kstar.mp hw
    clear hw
    induction ws generalizing c with
    | nil =>
      obtain ⟨d, hd, hs⟩ := hleave c hc
      exact ⟨d, hd, Path.silent hs (Path.nil d)⟩
    | cons u ws ih =>
      obtain ⟨m, L', hs, hu, hm⟩ := hturn c hc u (hws u List.mem_cons_self)
      obtain ⟨c', hc', hp⟩ := hm.spells hu
      obtain ⟨d, hd, hp'⟩ := ih hc' fun y hy => hws y (List.mem_cons_of_mem u hy)
      exact ⟨d, hd, Path.silent hs (hp.trans hp')⟩
  passes {w e} hp he := by
    induction hn : w.length using Nat.strong_induction_on generalizing w c with
    | _ n ih =>
      subst hn
      cases hp with
      | nil => exact absurd he (hwaits _ hc)
      | read hr _ => exact absurd hr (hread _ hc _ _)
      | silent hs hp =>
        rcases hsilent _ hc _ hs with hd | ⟨L', hle, hm⟩
        · exact Or.inl ⟨[], w, Language.nil_mem_kstar L, rfl, _, hd, hp⟩
        · rcases hm.passes hp he with ⟨u, v, hu, rfl, c', hc', hp'⟩ | ⟨v, hv, c', hc', hback⟩
          · -- once around; what is left is shorter
            have hne : u ≠ [] := fun hnil => hL (hnil ▸ hle hu)
            have hlt : v.length < (u ++ v).length := by
              rw [List.length_append]
              have := List.length_pos_iff.mpr hne
              omega
            rcases ih v.length hlt hc' hp' rfl with ⟨u', v', hu', rfl, hd⟩ | ⟨v', hv', hd⟩
            · exact Or.inl ⟨u ++ u', v', mem_kstar_cons (hle hu) hu', (List.append_assoc ..).symm, hd⟩
            · refine Or.inr ⟨v', ?_, hd⟩
              rw [List.append_assoc]
              exact mem_kstar_cons (hle hu) hv'
          · obtain ⟨d, hd, hs'⟩ := hleave c' hc'
            refine Or.inr ⟨v, ?_, d, hd, ?_⟩
            · have hmem := mem_kstar_cons (hle hv) (Language.nil_mem_kstar L)
              rwa [List.append_nil] at hmem
            · have hpath := hback.trans (Path.silent hs' (Path.nil d))
              rwa [List.append_nil] at hpath

end Fragment

end Moves
