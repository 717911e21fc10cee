/-
Computations that may fail.

What it takes for a composite to succeed (`Except.bind_eq_ok_iff`,
`Except.map_eq_ok_iff`), and what a fold keeps as long as none of its steps
fails (`foldlM_invariant`).
-/
import Mathlib.Tactic

section Fallible

variable {ε α β σ : Type}

namespace Except

@[simp]
theorem ok_bind (a : α) (f : α → Except ε β) : (Except.ok a >>= f) = f a := rfl

@[simp]
theorem error_bind (e : ε) (f : α → Except ε β) : (Except.error e >>= f) = .error e := rfl

theorem bind_eq_ok_iff {x : Except ε α} {f : α → Except ε β} {b : β} :
    x >>= f = .ok b ↔ ∃ a, x = .ok a ∧ f a = .ok b := by
  rcases x with e | a
  · constructor
    · rintro ⟨⟩
    · rintro ⟨a, ⟨⟩, -⟩
  · constructor
    · intro h
      exact ⟨a, rfl, h⟩
    · rintro ⟨a', ⟨⟩, h⟩
      exact h

theorem map_eq_ok_iff {x : Except ε α} {f : α → β} {b : β} :
    x.map f = .ok b ↔ ∃ a, x = .ok a ∧ f a = b := by
  rcases x with e | a
  · constructor
    · rintro ⟨⟩
    · rintro ⟨a, ⟨⟩, -⟩
  · constructor
    · rintro ⟨⟩
      exact ⟨a, rfl, rfl⟩
    · rintro ⟨a', ⟨⟩, rfl⟩
      rfl

end Except

variable {step : σ → α → Except ε σ}

/-- What every step that succeeds keeps, the fold keeps. -/
theorem foldlM_invariant {P : σ → Prop} (hstep : ∀ a s s', P s → step s a = .ok s' → P s') :
    ∀ {l : List α} {s s' : σ}, P s → l.foldlM step s = .ok s' → P s' := by
  intro l
  induction l with
  | nil =>
    rintro s s' hs ⟨⟩
    exact hs
  | cons a l ih =>
    intro s s' hs h
    rw [List.foldlM_cons, Except.bind_eq_ok_iff] at h
    obtain ⟨next, hnext, hrest⟩ := h
    exact ih (hstep a s next hs hnext) hrest

/-- What some computations settle on as their bound grows, they settle on together. -/
theorem mapM_eventually {f : ℕ → α → Option β} {values : List α}
    (h : ∀ value ∈ values, ∃ enough found, ∀ bound ≥ enough, f bound value = some found) :
    ∃ enough found, ∀ bound ≥ enough, values.mapM (f bound) = some found := by
  induction values with
  | nil => exact ⟨0, [], fun bound _ => rfl⟩
  | cons value values ih =>
    obtain ⟨enough, found, hfirst⟩ := h value List.mem_cons_self
    obtain ⟨enough', founds, hrest⟩ := ih fun value hmem => h value (List.mem_cons_of_mem _ hmem)
    refine ⟨max enough enough', found :: founds, fun bound hbound => ?_⟩
    rw [List.mapM_cons, hfirst bound (le_of_max_le_left hbound),
      hrest bound (le_of_max_le_right hbound)]
    rfl

end Fallible
