/-
Closing a list of configurations under silent moves, with a stack and no
visited set.

`expand` tells a waiting configuration (`none`) from one that moves on.  Without
a visited set the loop ends because silent runs do: `Bounded n c` says that none
from `c` is longer than `n`, and `cost` counts what the loop pops for `c`.
-/
import Mathlib.Logic.Relation
import Mathlib.Tactic

namespace Worklist

variable {C : Type} [DecidableEq C]

/-- Append what is not there yet. -/
def pushUnique (cursors : List C) (cursor : C) : List C :=
  if cursor ∈ cursors then cursors else cursors ++ [cursor]

omit [DecidableEq C] in
/-- What a fold that only adds members comes to have. -/
theorem mem_foldl_iff {α : Type} {P : α → Prop} {push : List C → α → List C} {d : C}
    (hpush : ∀ out x, d ∈ push out x ↔ d ∈ out ∨ P x) (xs : List α) (out : List C) :
    d ∈ xs.foldl push out ↔ d ∈ out ∨ ∃ x ∈ xs, P x := by
  induction xs generalizing out with
  | nil => simp
  | cons x xs ih => rw [List.foldl_cons, ih, hpush, or_assoc, List.exists_mem_cons_iff]

theorem mem_pushUnique {out : List C} {c d : C} : d ∈ pushUnique out c ↔ d ∈ out ∨ d = c := by
  unfold pushUnique
  split
  case isTrue hc =>
    constructor
    · exact Or.inl
    · rintro (hd | rfl)
      exacts [hd, hc]
  case isFalse => rw [List.mem_append, List.mem_singleton]

variable (expand : C → Option (List C))

/-- How many pops a configuration is worth. -/
def cost : ℕ → C → ℕ
  | 0, _ => 1
  | depth + 1, c =>
    match expand c with
    | none => 1
    | some cs => 1 + (cs.map (cost depth)).sum

/-- The top of the stack is the head of `work`. -/
def closeLoop : ℕ → List C → List C → List C
  | 0, _, out => out
  | _, [], out => out
  | fuel + 1, c :: work, out =>
    match expand c with
    | none => closeLoop fuel work (pushUnique out c)
    | some cs => closeLoop fuel (cs.reverse ++ work) out

/-- Pop until nothing is left. -/
def close (depth : ℕ) (cursors : List C) : List C :=
  closeLoop expand (cursors.map (cost expand depth)).sum cursors.reverse []

/-- No silent run from here is longer. -/
def Bounded : ℕ → C → Prop
  | 0, c => expand c = none
  | n + 1, c => ∀ cs, expand c = some cs → ∀ d ∈ cs, Bounded n d

/-- A silent move. -/
def Moves (c d : C) : Prop := ∃ cs, expand c = some cs ∧ d ∈ cs

variable {expand} {c d : C} {n m : ℕ}

omit [DecidableEq C] in
theorem Bounded.mono (h : Bounded expand n c) (hnm : n ≤ m) : Bounded expand m c := by
  induction n generalizing m c with
  | zero =>
    cases m with
    | zero => exact h
    | succ m =>
      intro cs hcs
      rw [show expand c = none from h] at hcs
      cases hcs
  | succ n ih =>
    obtain ⟨m, rfl⟩ := Nat.exists_eq_add_one_of_ne_zero (by omega : m ≠ 0)
    intro cs hcs d hd
    exact ih (h cs hcs d hd) (by omega)

omit [DecidableEq C] in
theorem Bounded.of_none (h : expand c = none) : Bounded expand n c :=
  Bounded.mono (n := 0) h (Nat.zero_le n)

omit [DecidableEq C] in
theorem cost_pos (expand : C → Option (List C)) (n : ℕ) (c : C) : 0 < cost expand n c := by
  cases n with
  | zero => exact Nat.one_pos
  | succ n =>
    unfold cost
    split <;> omega

omit [DecidableEq C] in
/-- The count is the same at any depth that bounds the configuration. -/
theorem cost_eq (h : Bounded expand n c) (hnm : n ≤ m) : cost expand m c = cost expand n c := by
  induction n generalizing m c with
  | zero =>
    cases m with
    | zero => rfl
    | succ m => simp only [cost, show expand c = none from h]
  | succ n ih =>
    obtain ⟨m, rfl⟩ := Nat.exists_eq_add_one_of_ne_zero (by omega : m ≠ 0)
    unfold cost
    split
    case h_1 => rfl
    case h_2 cs hcs =>
      have hmap : cs.map (cost expand m) = cs.map (cost expand n) :=
        List.map_congr_left fun d hd => ih (h cs hcs d hd) (by omega)
      rw [hmap]

omit [DecidableEq C] in
theorem cost_expand {cs : List C} (h : Bounded expand n c) (hcs : expand c = some cs) :
    cost expand n c = 1 + (cs.map (cost expand n)).sum := by
  cases n with
  | zero =>
    rw [show expand c = none from h] at hcs
    cases hcs
  | succ n =>
    have hmap : cs.map (cost expand (n + 1)) = cs.map (cost expand n) :=
      List.map_congr_left fun d hd => cost_eq (h cs hcs d hd) n.le_succ
    rw [hmap]
    simp only [cost, hcs]

omit [DecidableEq C] in
theorem Bounded.child {cs : List C} (h : Bounded expand n c) (hcs : expand c = some cs)
    (hd : d ∈ cs) : Bounded expand n d := by
  cases n with
  | zero =>
    rw [show expand c = none from h] at hcs
    cases hcs
  | succ n => exact (h cs hcs d hd).mono n.le_succ

/-- With fuel for every pop the loop collects what waits behind its stack. -/
theorem mem_closeLoop (fuel : ℕ) (work out : List C) (hwork : ∀ c ∈ work, Bounded expand n c)
    (hfuel : (work.map (cost expand n)).sum ≤ fuel) :
    d ∈ closeLoop expand fuel work out ↔
      d ∈ out ∨ expand d = none ∧ ∃ c ∈ work, Relation.ReflTransGen (Moves expand) c d := by
  induction fuel generalizing work out with
  | zero =>
    cases work with
    | nil => simp [closeLoop]
    | cons c work =>
      have := cost_pos expand n c
      rw [List.map_cons, List.sum_cons] at hfuel
      omega
  | succ fuel ih =>
    cases work with
    | nil => simp [closeLoop]
    | cons c work =>
      have hc := hwork c List.mem_cons_self
      have hrest : ∀ c' ∈ work, Bounded expand n c' := fun c' hc' =>
        hwork c' (List.mem_cons_of_mem c hc')
      rw [List.map_cons, List.sum_cons] at hfuel
      rcases hcs : expand c with _ | cs
      · -- waiting: it goes out, and silent runs from it end at it
        have hpos := cost_pos expand n c
        have hself : ∀ {d}, Relation.ReflTransGen (Moves expand) c d → d = c := by
          intro d h
          rcases h.cases_head with rfl | ⟨e, ⟨cs, hcs', -⟩, -⟩
          · rfl
          · rw [hcs] at hcs'
            cases hcs'
        simp only [closeLoop, hcs]
        rw [ih work _ hrest (by omega), mem_pushUnique, or_assoc]
        refine or_congr Iff.rfl ⟨?_, ?_⟩
        · rintro (rfl | ⟨hd, c', hc', h⟩)
          · exact ⟨hcs, d, List.mem_cons_self, .refl⟩
          · exact ⟨hd, c', List.mem_cons_of_mem c hc', h⟩
        · rintro ⟨hd, c', hc', h⟩
          rcases List.mem_cons.mp hc' with rfl | hc'
          · exact Or.inl (hself h)
          · exact Or.inr ⟨hd, c', hc', h⟩
      -- moving on: its successors take its place, and each is worth less
      · have hcost := cost_expand hc hcs
        simp only [closeLoop, hcs]
        rw [ih (cs.reverse ++ work) out]
        · refine or_congr Iff.rfl (and_congr_right fun hd => ⟨?_, ?_⟩)
          · rintro ⟨c', hc', h⟩
            rcases List.mem_append.mp hc' with hc' | hc'
            · refine ⟨c, List.mem_cons_self, .head ⟨cs, hcs, List.mem_reverse.mp hc'⟩ h⟩
            · exact ⟨c', List.mem_cons_of_mem c hc', h⟩
          · rintro ⟨c', hc', h⟩
            rcases List.mem_cons.mp hc' with rfl | hc'
            · rcases h.cases_head with rfl | ⟨e, ⟨cs', hcs', he⟩, h⟩
              · rw [hcs] at hd
                cases hd
              · obtain rfl : cs = cs' := Option.some.inj (hcs.symm.trans hcs')
                exact ⟨e, List.mem_append_left _ (List.mem_reverse.mpr he), h⟩
            · exact ⟨c', List.mem_append_right _ hc', h⟩
        -- the bound holds of them too
        · intro c' hc'
          rcases List.mem_append.mp hc' with hc' | hc'
          · exact hc.child hcs (List.mem_reverse.mp hc')
          · exact hrest c' hc'
        -- and there is fuel for what they are worth
        · rw [List.map_append, List.sum_append, List.map_reverse, List.sum_reverse]
          omega

/-- The closure is the set of waiting configurations silent runs get to. -/
theorem mem_close {cursors : List C} (h : ∀ c ∈ cursors, Bounded expand n c) :
    d ∈ close expand n cursors ↔
      expand d = none ∧ ∃ c ∈ cursors, Relation.ReflTransGen (Moves expand) c d := by
  have hsum : (cursors.reverse.map (cost expand n)).sum ≤ (cursors.map (cost expand n)).sum := by
    rw [List.map_reverse, List.sum_reverse]
  have hmem := mem_closeLoop (d := d) _ cursors.reverse []
    (fun c hc => h c (List.mem_reverse.mp hc)) hsum
  rw [close, hmem]
  simp

end Worklist
