/-
Runs of a labelled transition system, and the induction every safety theorem
of a development rests on.

`Run step s ls s'` is a finite sequence of steps from `s` to `s'` carrying the
labels `ls`.  A property kept by each step is kept by a run
(`Run.invariant`, or `Run.invariant_of_labels` if it takes the right labels); a
run under a stronger step relation is a run under a weaker one (`Run.mono`).
-/
import Mathlib.Tactic

/-- A finite run, extended at its end. -/
inductive Run {S L : Type} (step : S → L → S → Prop) (s : S) : List L → S → Prop where
  | nil : Run step s [] s
  | snoc {ls : List L} {t u : S} {l : L} :
      Run step s ls t → step t l u → Run step s (ls ++ [l]) u

namespace Run

variable {S L : Type} {step step' : S → L → S → Prop} {s t u : S} {ls ms : List L}

theorem single {l : L} (h : step s l t) : Run step s [l] t := Run.snoc Run.nil h

theorem append (h : Run step s ls t) (h' : Run step t ms u) : Run step s (ls ++ ms) u := by
  induction h' with
  | nil => simpa using h
  | snoc _ hstep ih => rw [← List.append_assoc]; exact Run.snoc ih hstep

theorem cons {l : L} (h : step s l t) (h' : Run step t ls u) : Run step s (l :: ls) u :=
  (Run.single h).append h'

/-- A property that holds at the start and is kept by each step holds at the
end of every run. -/
theorem invariant {P : S → Prop} (h0 : P s)
    (hstep : ∀ {a b : S} {l : L}, P a → step a l b → P b) (h : Run step s ls t) : P t := by
  induction h with
  | nil => exact h0
  | snoc _ hs ih => exact hstep ih hs

/-- The same for a property kept by the steps whose labels qualify. -/
theorem invariant_of_labels {P : S → Prop} {Q : L → Prop} (h0 : P s)
    (hstep : ∀ {a b : S} {l : L}, Q l → P a → step a l b → P b) (h : Run step s ls t)
    (hlabels : ∀ l ∈ ls, Q l) : P t := by
  induction h with
  | nil => exact h0
  | snoc _ hs ih =>
    have hbefore := ih fun l hl => hlabels l (List.mem_append_left _ hl)
    exact hstep (hlabels _ (List.mem_append_right _ List.mem_cons_self)) hbefore hs

theorem mono (hle : ∀ {a b : S} {l : L}, step a l b → step' a l b) (h : Run step s ls t) :
    Run step' s ls t := by
  induction h with
  | nil => exact Run.nil
  | snoc _ hs ih => exact Run.snoc ih (hle hs)

end Run
