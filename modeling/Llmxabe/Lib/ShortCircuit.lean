/-
Asking one item after another, with a state passed on, until one settles it.

With `stop = true` this is `any`, with `stop = false` it is `all`.  An item that
is asked (`Asked`) finds the state that those before it left behind.
-/
import Mathlib.Data.List.Basic

namespace ShortCircuit

variable {α σ : Type}

/-- Ask until an item answers `stop`; `none` if an item does not answer. -/
def ask (stop : Bool) (f : α → σ → Option (Bool × σ)) : List α → σ → Option (Bool × σ)
  | [], s => some (!stop, s)
  | a :: rest, s =>
    match f a s with
    | none => none
    | some (b, s') => if b = stop then some (b, s') else ask stop f rest s'

/-- The item is asked, in the state `m`. -/
def Asked (stop : Bool) (f : α → σ → Option (Bool × σ)) (l : List α) (s : σ) (a : α) (m : σ) :
    Prop :=
  ∃ before after, l = before ++ a :: after ∧ ask stop f before s = some (!stop, m)

section

variable {stop b : Bool} {f : α → σ → Option (Bool × σ)} {l : List α} {s s' m : σ} {a : α}

theorem Asked.mem (h : Asked stop f l s a m) : a ∈ l := by
  obtain ⟨before, after, rfl, -⟩ := h
  exact List.mem_append_right _ List.mem_cons_self

theorem Asked.head : Asked stop f (a :: l) s a s := ⟨[], l, rfl, rfl⟩

theorem Asked.tail {a' : α} (hfirst : f a' s = some (!stop, s')) (h : Asked stop f l s' a m) :
    Asked stop f (a' :: l) s a m := by
  obtain ⟨before, after, rfl, hbefore⟩ := h
  refine ⟨a' :: before, after, rfl, ?_⟩
  rw [ask, hfirst]
  cases stop <;> exact hbefore

/-- The first answer, and those behind it if it did not settle the question. -/
theorem ask_cons (h : ask stop f (a :: l) s = some (b, s')) :
    f a s = some (stop, s') ∧ b = stop ∨
      ∃ m, f a s = some (!stop, m) ∧ ask stop f l m = some (b, s') := by
  rw [ask] at h
  cases hfirst : f a s with
  | none =>
    rw [hfirst] at h
    cases h
  | some r =>
    obtain ⟨c, m⟩ := r
    rw [hfirst] at h
    dsimp only at h
    split at h
    case isTrue hc =>
      obtain ⟨rfl, rfl⟩ := Prod.mk.inj (Option.some.inj h)
      exact .inl ⟨hc ▸ rfl, hc⟩
    case isFalse hc =>
      obtain rfl : c = !stop := by
        cases c <;> cases stop <;> first | rfl | exact absurd rfl hc
      exact .inr ⟨m, rfl, h⟩

/-- A question that is settled was settled by an item. -/
theorem ask_eq_stop (h : ask stop f l s = some (stop, s')) :
    ∃ a m, Asked stop f l s a m ∧ f a m = some (stop, s') := by
  induction l generalizing s with
  | nil =>
    rw [ask] at h
    cases stop <;> cases h
  | cons a l ih =>
    rcases ask_cons h with ⟨hfirst, -⟩ | ⟨m, hfirst, hrest⟩
    · exact ⟨a, s, Asked.head, hfirst⟩
    · obtain ⟨a', m', hasked, hanswer⟩ := ih hrest
      exact ⟨a', m', hasked.tail hfirst, hanswer⟩

/-- A question that is not was put to every item. -/
theorem ask_eq_pass (h : ask stop f l s = some (!stop, s')) (ha : a ∈ l) :
    ∃ m m', Asked stop f l s a m ∧ f a m = some (!stop, m') := by
  induction l generalizing s with
  | nil => exact absurd ha List.not_mem_nil
  | cons a' l ih =>
    rcases ask_cons h with ⟨-, hstop⟩ | ⟨m, hfirst, hrest⟩
    · cases stop <;> cases hstop
    · rcases List.mem_cons.mp ha with rfl | ha
      · exact ⟨s, m, Asked.head, hfirst⟩
      · obtain ⟨m', m'', hasked, hanswer⟩ := ih hrest ha
        exact ⟨m', m'', hasked.tail hfirst, hanswer⟩

/-- What every answer keeps of the state, all of them keep. -/
theorem ask_invariant {P : σ → Prop}
    (hf : ∀ a ∈ l, ∀ s b s', P s → f a s = some (b, s') → P s') (hs : P s)
    (h : ask stop f l s = some (b, s')) : P s' := by
  induction l generalizing s with
  | nil =>
    rw [ask] at h
    cases h
    exact hs
  | cons a l ih =>
    have ha := hf a List.mem_cons_self
    rcases ask_cons h with ⟨hfirst, -⟩ | ⟨m, hfirst, hrest⟩
    · exact ha s _ s' hs hfirst
    · exact ih (fun a' ha' => hf a' (List.mem_cons_of_mem _ ha')) (ha s _ m hs hfirst) hrest

theorem Asked.invariant {P : σ → Prop}
    (hf : ∀ a ∈ l, ∀ s b s', P s → f a s = some (b, s') → P s') (hs : P s)
    (h : Asked stop f l s a m) : P m := by
  obtain ⟨before, after, rfl, hbefore⟩ := h
  exact ask_invariant (fun a ha => hf a (List.mem_append_left _ ha)) hs hbefore

/-- Items that answer and keep `P` make a question that is answered and keeps it. -/
theorem ask_ends {P : σ → Prop}
    (hf : ∀ a ∈ l, ∀ s, P s → ∃ b s', f a s = some (b, s') ∧ P s') (hs : P s) :
    ∃ b s', ask stop f l s = some (b, s') ∧ P s' := by
  induction l generalizing s with
  | nil => exact ⟨_, s, rfl, hs⟩
  | cons a l ih =>
    obtain ⟨b, m, hfirst, hm⟩ := hf a List.mem_cons_self s hs
    rw [ask, hfirst]
    dsimp only
    split
    · exact ⟨b, m, rfl, hm⟩
    · exact ih (fun a' ha' => hf a' (List.mem_cons_of_mem _ ha')) hm

/-- Answers that stay the same. -/
theorem ask_mono {g : α → σ → Option (Bool × σ)} {r : Bool × σ}
    (hfg : ∀ a ∈ l, ∀ s r, f a s = some r → g a s = some r) (h : ask stop f l s = some r) :
    ask stop g l s = some r := by
  induction l generalizing s with
  | nil => exact h
  | cons a l ih =>
    obtain ⟨b, s'⟩ := r
    have hrest : ∀ {m}, ask stop f l m = some (b, s') → ask stop g l m = some (b, s') :=
      fun h => ih (fun a' ha' => hfg a' (List.mem_cons_of_mem _ ha')) h
    rcases ask_cons h with ⟨hfirst, rfl⟩ | ⟨m, hfirst, hnext⟩
    · rw [ask, hfg a List.mem_cons_self s _ hfirst]
      exact if_pos rfl
    · rw [ask, hfg a List.mem_cons_self s _ hfirst]
      cases stop <;> exact hrest hnext

end

end ShortCircuit
