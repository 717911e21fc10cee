/-
Iterating a step until a state halts.

`runUntil halted step n s` takes at most `n` steps from `s` and none from a
halted state.  Runs compose (`runUntil_add`), and a run that has reached a
halted state stays there however much longer it is given
(`runUntil_halted`), so any two runs that halt end in the same state
(`runUntil_unique`).
-/
import Mathlib.Tactic

section Until

variable {S : Type} (halted : S → Prop) [DecidablePred halted] (step : S → S)

/-- Step until halted, `n` times at most. -/
def runUntil : ℕ → S → S
  | 0, s => s
  | n + 1, s => if halted s then s else runUntil n (step s)

variable {halted step} {s : S}

theorem runUntil_of_halted (h : halted s) : ∀ n, runUntil halted step n s = s
  | 0 => rfl
  | _ + 1 => if_pos h

theorem runUntil_succ (h : ¬halted s) (n : ℕ) :
    runUntil halted step (n + 1) s = runUntil halted step n (step s) := if_neg h

theorem runUntil_add (m n : ℕ) :
    ∀ s : S, runUntil halted step (m + n) s
      = runUntil halted step n (runUntil halted step m s) := by
  induction m with
  | zero =>
    intro s
    rw [Nat.zero_add]
    rfl
  | succ m ih =>
    intro s
    by_cases h : halted s
    · rw [runUntil_of_halted h, runUntil_of_halted h, runUntil_of_halted h]
    · rw [Nat.succ_add, runUntil_succ h, runUntil_succ h, ih]

/-- More time changes nothing once the run has halted. -/
theorem runUntil_halted {m n : ℕ} (hmn : m ≤ n) (h : halted (runUntil halted step m s)) :
    runUntil halted step n s = runUntil halted step m s := by
  obtain ⟨k, rfl⟩ := Nat.exists_eq_add_of_le hmn
  rw [runUntil_add, runUntil_of_halted h]

theorem runUntil_unique {m n : ℕ} (hm : halted (runUntil halted step m s))
    (hn : halted (runUntil halted step n s)) :
    runUntil halted step m s = runUntil halted step n s := by
  rcases le_total m n with h | h
  · exact (runUntil_halted h hm).symm
  · exact runUntil_halted h hn

/-- What every step of an unhalted state keeps, the run keeps. -/
theorem runUntil_invariant {P : S → Prop} (hstep : ∀ s, ¬halted s → P s → P (step s)) :
    ∀ (n : ℕ) (s : S), P s → P (runUntil halted step n s) := by
  intro n
  induction n with
  | zero => exact fun _ h => h
  | succ n ih =>
    intro s hs
    by_cases h : halted s
    · rw [runUntil_of_halted h]
      exact hs
    · rw [runUntil_succ h]
      exact ih _ (hstep s h hs)

end Until
