/-
One-token-at-a-time decode, the reference the runtime's decode is compared
with.

A `Decoding` is what plain decode needs to know of a sequence.  One
`plainStep` feeds the pending token and decides the next one; an end-of-turn
ends the sequence without being emitted.  `plainRun` repeats it until the
output budget is spent.

`decideChain` is plain decode with nobody to stop it.  `plainRun_chain` says
what its first tokens, cut at the end-of-turn, make of a decoding: this is the
form in which the accepted prefix of a verify window appears.
-/
import Llmxabe.Lib.Until
import Llmxabe.Runtime.Decode

variable {Row κ σ : Type}

/-- A sequence as plain decode sees it. -/
structure Decoding (κ σ : Type) where
  history : List Input
  pending : Token
  choice : Choice κ σ
  emitted : ℕ
  output : List Token
  deriving DecidableEq, Repr

section Plain

variable (M : Target Row κ σ) (eos : Option Token) (maxOutput : ℕ)

/-- Decide one token from the row; the end token spends the whole allowance. -/
def plainStep (d : Decoding κ σ) : Decoding κ σ :=
  let history := d.history ++ [.token d.pending]
  let decided := d.choice.decideRow M (M.logits history)
  if eos = some decided.1 then
    { history, pending := decided.1, choice := decided.2, emitted := maxOutput
      output := d.output }
  else
    { history, pending := decided.1, choice := decided.2, emitted := d.emitted + 1
      output := d.output ++ [decided.1] }

/-- The output budget is spent. -/
def Decoding.Spent (d : Decoding κ σ) : Prop := maxOutput ≤ d.emitted

instance : DecidablePred (Decoding.Spent maxOutput : Decoding κ σ → Prop) :=
  fun _ => inferInstanceAs (Decidable (_ ≤ _))

/-- At most `n` plain steps. -/
def plainRun : ℕ → Decoding κ σ → Decoding κ σ :=
  runUntil (Decoding.Spent maxOutput) (plainStep M eos maxOutput)

/-- The tokens plain decode would decide, without budget or end-of-turn, and
the choice after the last of them. -/
def decideChain : ℕ → List Input → Token → Choice κ σ → List Token × Choice κ σ
  | 0, _, _, c => ([], c)
  | n + 1, history, pending, c =>
    let decided := c.decideRow M (M.logits (history ++ [.token pending]))
    let rest := decideChain n (history ++ [.token pending]) decided.1 decided.2
    (decided.1 :: rest.1, rest.2)

end Plain

/-! ### A cut chain is a plain run -/

theorem truncateAtEos_nil (eos : Option Token) : truncateAtEos eos [] = ([], false) := by
  cases eos with
  | none => rfl
  | some eos => rfl

theorem truncateAtEos_cons (eos : Option Token) (t : Token) (ts : List Token) :
    truncateAtEos eos (t :: ts)
      = if eos = some t then ([t], true)
        else (t :: (truncateAtEos eos ts).1, (truncateAtEos eos ts).2) := by
  cases eos with
  | none => rfl
  | some eos =>
    by_cases h : t = eos
    · subst h
      simp [truncateAtEos, List.findIdx?_cons]
    · have h' : ¬some eos = some t := fun heq => h (Option.some.inj heq).symm
      rw [if_neg h']
      simp only [truncateAtEos, List.findIdx?_cons, h, decide_false, Bool.false_eq_true, if_false]
      rcases ts.findIdx? (· = eos) with _ | i
      · rfl
      · rfl

/-- What is cut off is a suffix. -/
theorem truncateAtEos_prefix (eos : Option Token) :
    ∀ ts : List Token, (truncateAtEos eos ts).1 <+: ts := by
  intro ts
  induction ts with
  | nil => rw [truncateAtEos_nil]
  | cons t ts ih =>
    rw [truncateAtEos_cons]
    split
    · exact ⟨ts, rfl⟩
    · obtain ⟨rest, hrest⟩ := ih
      exact ⟨rest, by rw [List.cons_append, hrest]⟩

theorem truncateAtEos_ne_nil (eos : Option Token) {ts : List Token} (h : ts ≠ []) :
    (truncateAtEos eos ts).1 ≠ [] := by
  obtain ⟨t, ts, rfl⟩ := List.exists_cons_of_ne_nil h
  rw [truncateAtEos_cons]
  split
  · exact List.cons_ne_nil _ _
  · exact List.cons_ne_nil _ _

theorem truncateAtEos_hit {eos : Option Token} {ts : List Token}
    (h : (truncateAtEos eos ts).2 = true) : (truncateAtEos eos ts).1 ≠ [] := by
  apply truncateAtEos_ne_nil
  rintro rfl
  rw [truncateAtEos_nil] at h
  exact Bool.false_ne_true h

section Chain

variable {M : Target Row κ σ} {eos : Option Token} {maxOutput : ℕ}

theorem plainRun_one {d : Decoding κ σ} (hopen : ¬d.Spent maxOutput) :
    plainRun M eos maxOutput 1 d = plainStep M eos maxOutput d := runUntil_succ hopen 0

theorem plainRun_add (m n : ℕ) (d : Decoding κ σ) :
    plainRun M eos maxOutput (m + n) d
      = plainRun M eos maxOutput n (plainRun M eos maxOutput m d) := runUntil_add m n d

theorem plainStep_of_eos {d : Decoding κ σ} {decided : Token × Choice κ σ}
    (hdecided : d.choice.decideRow M (M.logits (d.history ++ [.token d.pending])) = decided)
    (heos : eos = some decided.1) :
    plainStep M eos maxOutput d
      = { history := d.history ++ [.token d.pending], pending := decided.1
          choice := decided.2, emitted := maxOutput, output := d.output } := by
  rw [plainStep, hdecided]
  exact if_pos heos

theorem plainStep_of_token {d : Decoding κ σ} {decided : Token × Choice κ σ}
    (hdecided : d.choice.decideRow M (M.logits (d.history ++ [.token d.pending])) = decided)
    (heos : ¬eos = some decided.1) :
    plainStep M eos maxOutput d
      = { history := d.history ++ [.token d.pending], pending := decided.1
          choice := decided.2, emitted := d.emitted + 1
          output := d.output ++ [decided.1] } := by
  rw [plainStep, hdecided]
  exact if_neg heos

theorem decideChain_length :
    ∀ (n : ℕ) (history : List Input) (pending : Token) (c : Choice κ σ),
      (decideChain M n history pending c).1.length = n := by
  intro n
  induction n with
  | zero => exact fun _ _ _ => rfl
  | succ n ih =>
    intro history pending c
    rw [decideChain, List.length_cons, ih]

/-- The tokens plain decode decides, cut at the end-of-turn and within the
budget, are the plain run of as many steps. -/
theorem plainRun_chain :
    ∀ (n : ℕ) (d : Decoding κ σ) (emit : List Token) (hit : Bool), d.emitted + n ≤ maxOutput →
      truncateAtEos eos (decideChain M n d.history d.pending d.choice).1 = (emit, hit) →
      (plainRun M eos maxOutput emit.length d).history
          = d.history ++ ((d.pending :: emit).take emit.length).map Input.token ∧
        (plainRun M eos maxOutput emit.length d).pending = emit.getLast?.getD d.pending ∧
        (plainRun M eos maxOutput emit.length d).emitted
          = (if hit then maxOutput else d.emitted + emit.length) ∧
        (plainRun M eos maxOutput emit.length d).output
          = d.output ++ (if hit then emit.dropLast else emit) ∧
        (hit = false → (plainRun M eos maxOutput emit.length d).choice
          = (decideChain M n d.history d.pending d.choice).2) := by
  intro n
  induction n with
  | zero =>
    intro d emit hit _ hcut
    rw [decideChain, truncateAtEos_nil, Prod.mk.injEq] at hcut
    obtain ⟨rfl, rfl⟩ := hcut
    exact ⟨by simp [plainRun, runUntil], rfl, rfl, by simp [plainRun, runUntil], fun _ => rfl⟩
  | succ n ih =>
    intro d emit hit hbudget hcut
    have hopen : ¬d.Spent maxOutput := by
      rw [Decoding.Spent]
      omega
    set decided := d.choice.decideRow M (M.logits (d.history ++ [.token d.pending])) with hdecided
    have hone : ∀ k, plainRun M eos maxOutput (k + 1) d
        = plainRun M eos maxOutput k (plainStep M eos maxOutput d) :=
      fun k => runUntil_succ hopen k
    rw [decideChain, truncateAtEos_cons] at hcut
    simp only [← hdecided] at hcut
    by_cases heos : eos = some decided.1
    · -- the first token ends the turn
      rw [if_pos heos, Prod.mk.injEq] at hcut
      obtain ⟨rfl, rfl⟩ := hcut
      rw [List.length_singleton, hone 0, plainStep_of_eos hdecided.symm heos]
      exact ⟨rfl, rfl, rfl, by simp [plainRun, runUntil], fun h => by cases h⟩
    -- an ordinary token: the induction covers the rest of the run from behind it
    · rw [if_neg heos, Prod.mk.injEq] at hcut
      obtain ⟨rfl, rfl⟩ := hcut
      rw [List.length_cons, hone, plainStep_of_token hdecided.symm heos]
      set rest := truncateAtEos eos
        (decideChain M n (d.history ++ [.token d.pending]) decided.1 decided.2).1 with hrest
      obtain ⟨h1, h2, h3, h4, h5⟩ := ih
        { history := d.history ++ [.token d.pending], pending := decided.1
          choice := decided.2, emitted := d.emitted + 1, output := d.output ++ [decided.1] }
        rest.1 rest.2 (by simp only; omega) rfl
      refine ⟨?_, ?_, ?_, ?_, h5⟩
      · rw [h1, List.take_succ_cons, List.map_cons, List.append_assoc, List.singleton_append]
      · rw [h2, List.getLast?_cons]
        rfl
      · rw [h3]
        -- whether the rest hits the end token decides the budget, not the length
        by_cases hhit : rest.2 = true
        · rw [if_pos hhit, if_pos hhit]
        · rw [if_neg hhit, if_neg hhit]
          simp only
          omega
      · rw [h4, List.append_assoc]
        by_cases hhit : rest.2 = true
        · rw [if_pos hhit, if_pos hhit, List.dropLast_cons_of_ne_nil (truncateAtEos_hit hhit)]
          rfl
        · rw [if_neg hhit, if_neg hhit]
          rfl

/-! ### What plain decode emits -/

/-- Plain decode stays within the budget: what it emits is counted, and the
count is at most the budget. -/
theorem plainRun_emission {start d : Decoding κ σ} (hstart : start.emitted ≤ maxOutput)
    (hnone : start.output = []) {n : ℕ} (hd : plainRun M eos maxOutput n start = d) :
    d.emitted ≤ maxOutput ∧ start.emitted + d.output.length ≤ d.emitted := by
  subst hd
  refine runUntil_invariant (P := fun d : Decoding κ σ =>
    d.emitted ≤ maxOutput ∧ start.emitted + d.output.length ≤ d.emitted)
    (fun d hopen h => ?_) n start ⟨hstart, by rw [hnone]; exact le_rfl⟩
  obtain ⟨hmax, hcount⟩ := h
  rw [Decoding.Spent] at hopen
  rw [plainStep]
  split
  · exact ⟨le_rfl, by simp only; omega⟩
  · exact ⟨by simp only; omega, by simp only [List.length_append, List.length_singleton]; omega⟩

/-- An end-of-turn is never emitted. -/
theorem plainRun_eos {start : Decoding κ σ} (hnone : start.output = []) (n : ℕ) :
    ∀ t ∈ (plainRun M eos maxOutput n start).output, eos ≠ some t := by
  refine runUntil_invariant (P := fun d : Decoding κ σ => ∀ t ∈ d.output, eos ≠ some t)
    (fun d _ h => ?_) n start (by rw [hnone]; exact fun t ht => absurd ht List.not_mem_nil)
  rw [plainStep]
  split
  · exact h
  · rename_i heos
    intro t ht
    rcases List.mem_append.mp ht with ht | ht
    · exact h t ht
    · exact List.mem_singleton.mp ht ▸ heos

/-- Every step counts: a run as long as the budget spends it. -/
theorem plainRun_progress :
    ∀ (n : ℕ) (d : Decoding κ σ), maxOutput ≤ d.emitted + n →
      (plainRun M eos maxOutput n d).Spent maxOutput := by
  intro n
  induction n with
  | zero => exact fun d h => h
  | succ n ih =>
    intro d h
    by_cases hspent : d.Spent maxOutput
    · rw [plainRun, runUntil_of_halted hspent]
      exact hspent
    · rw [plainRun, runUntil_succ hspent]
      apply ih
      rw [plainStep]
      split
      · exact Nat.le_add_right _ _
      · show maxOutput ≤ d.emitted + 1 + n
        omega

/-- As long as the budget lasts, every step consumes, counts and emits one
token. -/
theorem plainRun_open :
    ∀ (n : ℕ) (d : Decoding κ σ), ¬(plainRun M eos maxOutput n d).Spent maxOutput →
      (plainRun M eos maxOutput n d).emitted = d.emitted + n ∧
        (plainRun M eos maxOutput n d).history.length = d.history.length + n ∧
        (plainRun M eos maxOutput n d).output.length = d.output.length + n := by
  intro n
  induction n with
  | zero => exact fun d _ => ⟨rfl, rfl, rfl⟩
  | succ n ih =>
    intro d hopen
    have hd : ¬d.Spent maxOutput := by
      intro hspent
      rw [plainRun, runUntil_of_halted hspent] at hopen
      exact hopen hspent
    have hone : plainRun M eos maxOutput (n + 1) d
        = plainRun M eos maxOutput n (plainStep M eos maxOutput d) := runUntil_succ hd n
    rw [hone] at hopen ⊢
    obtain ⟨hemitted, hhistory, houtput⟩ := ih _ hopen
    rw [hemitted, hhistory, houtput]
    by_cases heos : eos = some (d.choice.decideRow M
        (M.logits (d.history ++ [.token d.pending]))).1
    · -- the step would have ended the turn
      exfalso
      apply hopen
      have hspent : (plainStep M eos maxOutput d).Spent maxOutput := by
        rw [plainStep_of_eos rfl heos]
        exact le_refl maxOutput
      rw [plainRun, runUntil_of_halted hspent]
      exact hspent
    · rw [plainStep_of_token rfl heos]
      refine ⟨by simp only; omega, ?_, ?_⟩
      · rw [List.length_append, List.length_singleton]
        omega
      · rw [List.length_append, List.length_singleton]
        omega

end Chain
