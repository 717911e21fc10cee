/-
How a step shares its budget between the prompts.

Phase 2 walks the running requests from a cursor that moves on with every step that
grants.  `sharePrefill_cases` says what one visit of the walk does; everything about
phase 2 follows from it by induction on the requests still to visit.

* `Window.served`: a request in the middle of its prompt is served within as many steps
  as there are running requests, as long as the cursor does not wrap;
* `reserve_spent`: what is held back for admission is spent on it;
* `unspent_only`: when a step leaves budget;
* `reserve_left_over`: the reserve that a short prompt does not use up is left.
-/
import Llmxabe.Sched.Decodes

namespace Scheduler

/-! ### Phase 2, visit by visit -/

section Walk

variable {slice reserve start : ℕ} {offsets : List ℕ} {st : PrefillShare}

/-- What the walk makes of its state when it grants. -/
def PrefillShare.grant (st : PrefillShare) (index chunk : ℕ) (r : TrackedRequest) :
    PrefillShare where
  running := st.running.set index { r with computedTokens := r.computedTokens + chunk }
  prefills := st.prefills ++ [{ id := r.id, tokens := chunk }]
  budget := st.budget - chunk
  granted := true

/-- One visit: the walk stops, passes the request over, or grants it a chunk. -/
theorem sharePrefill_cases (reserve start offset : ℕ) (offsets : List ℕ) (hslice : 0 < slice)
    (hbudget : st.budget < 2 ^ 32) (hrunning : st.running ≠ []) :
    (st.budget ≤ reserve ∧ (sharePrefill slice reserve start (offset :: offsets) st).val = st) ∨
    ∃ r, st.running[(start + offset) % st.running.length]? = some r ∧ reserve < st.budget ∧
      (((r.promptTokens : ℕ) ≤ r.computedTokens ∧
        (sharePrefill slice reserve start (offset :: offsets) st).val =
          (sharePrefill slice reserve start offsets st).val) ∨
      ∃ chunk, r.computedTokens < r.promptTokens ∧ 0 < chunk ∧
        chunk = min (min ((r.promptTokens : ℕ) - r.computedTokens) slice) (st.budget - reserve) ∧
        (sharePrefill slice reserve start (offset :: offsets) st).val =
          (sharePrefill slice reserve start offsets
            (st.grant ((start + offset) % st.running.length) chunk r)).val) := by
  by_cases hstop : st.budget ≤ reserve
  · refine Or.inl ⟨hstop, ?_⟩
    rw [sharePrefill]
    by_cases hzero : st.budget = 0
    · rw [if_pos hzero, Wrapping.pure_val]
    · rw [if_neg hzero]
      simp only [Nat.sub_eq_zero_of_le hstop, if_true, Wrapping.pure_val]
  have hlt : (start + offset) % st.running.length < st.running.length :=
    Nat.mod_lt _ (List.length_pos_iff.mpr hrunning)
  have hget := List.getElem?_eq_getElem hlt
  set r := st.running[(start + offset) % st.running.length] with hr
  refine Or.inr ⟨r, hget, Nat.lt_of_not_le hstop, ?_⟩
  by_cases hready : (r.promptTokens : ℕ) ≤ r.computedTokens
  · refine Or.inl ⟨hready, ?_⟩
    have hflag : r.isDecodeReady = true := decide_eq_true hready
    have hspend : st.budget - reserve ≠ 0 := by omega
    rw [sharePrefill, if_neg (by omega)]
    simp only [hspend, if_false, hget, hflag, if_true]
  · have hshort := Nat.lt_of_not_le hready
    refine Or.inr ⟨_, hshort, ?_, rfl, ?_⟩
    · refine lt_min (lt_min ?_ hslice) ?_
      · omega
      · omega
    · exact sharePrefill_grant hbudget (by omega) (by omega) rfl hget hshort rfl (by
        have : 0 < min (min ((r.promptTokens : ℕ) - r.computedTokens) slice)
            (st.budget - reserve) := lt_min (lt_min (by omega) hslice) (by omega)
        omega)

theorem running_ne_nil {rs : List TrackedRequest} {place : ℕ} {r : TrackedRequest}
    (hr : rs[place]? = some r) : rs ≠ [] := by
  rintro rfl
  exact absurd hr (by simp)

theorem grant_budget_lt (hbudget : st.budget < 2 ^ 32) {index chunk : ℕ} {r : TrackedRequest} :
    (st.grant index chunk r).budget < 2 ^ 32 :=
  lt_of_le_of_lt (Nat.sub_le _ _) hbudget

theorem grant_running_length {index chunk : ℕ} {r : TrackedRequest} :
    (st.grant index chunk r).running.length = st.running.length := List.length_set

theorem grant_running_ne {index chunk place : ℕ} {r : TrackedRequest} (hne : index ≠ place) :
    (st.grant index chunk r).running[place]? = st.running[place]? :=
  List.getElem?_set_ne hne

/-- What the walk has written before stays. -/
theorem sharePrefill_prefills (hbudget : st.budget < 2 ^ 32) {item : PrefillItem}
    (h : item ∈ st.prefills) :
    item ∈ (sharePrefill slice reserve start offsets st).val.prefills := by
  obtain ⟨items, -, hitems, -⟩ := sharePrefill_spec slice reserve start offsets st hbudget
  rw [hitems]
  exact List.mem_append_left _ h

/-- A request keeps its place and its progress, or it is granted something. -/
theorem sharePrefill_kept (hslice : 0 < slice) {place : ℕ} {r : TrackedRequest} :
    ∀ {offsets : List ℕ} {st : PrefillShare}, st.budget < 2 ^ 32 →
      st.running[place]? = some r →
      (sharePrefill slice reserve start offsets st).val.running[place]? = some r ∨
        ∃ item ∈ (sharePrefill slice reserve start offsets st).val.prefills,
          item.id = r.id ∧ 0 < item.tokens := by
  intro offsets
  induction offsets with
  | nil => exact fun _ hr => Or.inl hr
  | cons offset offsets ih =>
    intro st hbudget hr
    obtain ⟨-, heq⟩ | ⟨q, hq, -, ⟨-, heq⟩ | ⟨chunk, -, hpos, -, heq⟩⟩ :=
      sharePrefill_cases reserve start offset offsets hslice hbudget (running_ne_nil hr)
    · rw [heq]
      exact Or.inl hr
    · rw [heq]
      exact ih hbudget hr
    · rw [heq]
      by_cases hplace : (start + offset) % st.running.length = place
      · rw [hplace, hr, Option.some.injEq] at hq
        refine Or.inr ⟨⟨q.id, chunk⟩, sharePrefill_prefills (grant_budget_lt hbudget) ?_,
          by rw [hq], hpos⟩
        exact List.mem_append_right _ (List.mem_singleton.mpr rfl)
      · exact ih (grant_budget_lt hbudget) ((grant_running_ne hplace).trans hr)

/-- The first request of the walk is served, if it is in the middle of its prompt. -/
theorem sharePrefill_first (hslice : 0 < slice) (hbudget : st.budget < 2 ^ 32)
    (hspend : reserve < st.budget) {offset : ℕ} {r : TrackedRequest}
    (hr : st.running[(start + offset) % st.running.length]? = some r)
    (hshort : r.computedTokens < r.promptTokens) :
    ∃ item ∈ (sharePrefill slice reserve start (offset :: offsets) st).val.prefills,
      item.id = r.id ∧ 0 < item.tokens := by
  obtain ⟨hstop, -⟩ | ⟨q, hq, -, ⟨hready, -⟩ | ⟨chunk, -, hpos, -, heq⟩⟩ :=
    sharePrefill_cases reserve start offset offsets hslice hbudget (running_ne_nil hr)
  · exact absurd hspend (Nat.not_lt.mpr hstop)
  · rw [hr, Option.some.injEq] at hq
    rw [← hq] at hready
    exact absurd hshort (Nat.not_lt.mpr hready)
  · rw [hr, Option.some.injEq] at hq
    rw [heq, hq]
    refine ⟨⟨q.id, chunk⟩, sharePrefill_prefills (grant_budget_lt hbudget) ?_, rfl, hpos⟩
    exact List.mem_append_right _ (List.mem_singleton.mpr rfl)

theorem sharePrefill_granted_mono (hslice : 0 < slice) :
    ∀ {offsets : List ℕ} {st : PrefillShare}, st.budget < 2 ^ 32 → st.running ≠ [] →
      st.granted = true → (sharePrefill slice reserve start offsets st).val.granted = true := by
  intro offsets
  induction offsets with
  | nil => exact fun _ _ h => h
  | cons offset offsets ih =>
    intro st hbudget hrunning hgranted
    obtain ⟨-, heq⟩ | ⟨q, hq, -, ⟨-, heq⟩ | ⟨chunk, -, -, -, heq⟩⟩ :=
      sharePrefill_cases reserve start offset offsets hslice hbudget hrunning
    · rwa [heq]
    · rw [heq]
      exact ih hbudget hrunning hgranted
    · rw [heq]
      refine ih (grant_budget_lt hbudget) (fun hnil => hrunning ?_) rfl
      rw [← List.length_eq_zero_iff, ← grant_running_length, hnil, List.length_nil]

/-- With budget to grant and somebody to grant it to, the walk grants. -/
theorem sharePrefill_granted (hslice : 0 < slice) {r : TrackedRequest} :
    ∀ {offsets : List ℕ} {st : PrefillShare}, st.budget < 2 ^ 32 → reserve < st.budget →
      (∃ offset ∈ offsets, st.running[(start + offset) % st.running.length]? = some r) →
      r.computedTokens < r.promptTokens →
      (sharePrefill slice reserve start offsets st).val.granted = true := by
  intro offsets
  induction offsets with
  | nil =>
    rintro st - - ⟨offset, hmem, -⟩
    exact absurd hmem List.not_mem_nil
  | cons first offsets ih =>
    rintro st hbudget hspend ⟨offset, hmem, hr⟩ hshort
    obtain ⟨hstop, -⟩ | ⟨q, hq, -, ⟨hready, heq⟩ | ⟨chunk, -, -, -, heq⟩⟩ :=
      sharePrefill_cases reserve start first offsets hslice hbudget (running_ne_nil hr)
    · exact absurd hspend (Nat.not_lt.mpr hstop)
    · rw [heq]
      refine ih hbudget hspend ⟨offset, (List.mem_cons.mp hmem).resolve_left ?_, hr⟩ hshort
      rintro rfl
      rw [hr, Option.some.injEq] at hq
      rw [← hq] at hready
      exact absurd hshort (Nat.not_lt.mpr hready)
    · rw [heq]
      refine sharePrefill_granted_mono hslice (grant_budget_lt hbudget) (fun hnil => ?_) rfl
      refine running_ne_nil hr ?_
      rw [← List.length_eq_zero_iff, ← grant_running_length, hnil, List.length_nil]

/-- Places that are not visited keep their request. -/
theorem sharePrefill_unvisited (hslice : 0 < slice) {place : ℕ} :
    ∀ {offsets : List ℕ} {st : PrefillShare}, st.budget < 2 ^ 32 → st.running ≠ [] →
      (∀ offset ∈ offsets, (start + offset) % st.running.length ≠ place) →
      (sharePrefill slice reserve start offsets st).val.running[place]? = st.running[place]? := by
  intro offsets
  induction offsets with
  | nil => exact fun _ _ _ => rfl
  | cons offset offsets ih =>
    intro st hbudget hrunning hplaces
    have hrest := fun o ho => hplaces o (List.mem_cons_of_mem _ ho)
    obtain ⟨-, heq⟩ | ⟨q, hq, -, ⟨-, heq⟩ | ⟨chunk, -, -, -, heq⟩⟩ :=
      sharePrefill_cases reserve start offset offsets hslice hbudget hrunning
    · rw [heq]
    · rw [heq]
      exact ih hbudget hrunning hrest
    · rw [heq, ih (grant_budget_lt hbudget), grant_running_ne (hplaces _ List.mem_cons_self)]
      · intro hnil
        refine hrunning ?_
        rw [← List.length_eq_zero_iff, ← grant_running_length, hnil, List.length_nil]
      · rwa [grant_running_length]

/-- The walk spends all but the reserve, or gives everyone it visits what the slice
allows. -/
theorem sharePrefill_visited (hslice : 0 < slice) :
    ∀ {offsets : List ℕ} {st : PrefillShare}, st.budget < 2 ^ 32 → st.running ≠ [] →
      (offsets.map fun offset => (start + offset) % st.running.length).Nodup →
      (sharePrefill slice reserve start offsets st).val.budget ≤ reserve ∨
        ∀ offset ∈ offsets, ∀ r, st.running[(start + offset) % st.running.length]? = some r →
          r.computedTokens < r.promptTokens →
          (sharePrefill slice reserve start offsets st).val.running[
            (start + offset) % st.running.length]? = some { r with
              computedTokens := r.computedTokens +
                min ((r.promptTokens : ℕ) - r.computedTokens) slice } := by
  intro offsets
  induction offsets with
  | nil => exact fun _ _ _ => Or.inr fun _ hmem => absurd hmem List.not_mem_nil
  | cons first offsets ih =>
    intro st hbudget hrunning hnodup
    rw [List.map_cons, List.nodup_cons] at hnodup
    obtain ⟨hfirst, hrest⟩ := hnodup
    obtain ⟨hstop, heq⟩ | ⟨q, hq, -, ⟨hready, heq⟩ | ⟨chunk, hshort, hpos, hchunk, heq⟩⟩ :=
      sharePrefill_cases reserve start first offsets hslice hbudget hrunning
    -- the budget is down to the reserve
    · rw [heq]
      exact Or.inl hstop
    -- this one decodes already, and the statement is about those that do not
    · rw [heq]
      refine (ih hbudget hrunning hrest).imp_right fun hall offset hmem r hr hshort => ?_
      obtain rfl | hmem := List.mem_cons.mp hmem
      · rw [hr, Option.some.injEq] at hq
        rw [← hq] at hready
        exact absurd hshort (Nat.not_lt.mpr hready)
      · exact hall offset hmem r hr hshort
    · rw [heq]
      have hlen : (st.grant ((start + first) % st.running.length) chunk q).running.length =
          st.running.length := grant_running_length
      have hne : (st.grant ((start + first) % st.running.length) chunk q).running ≠ [] := by
        intro hnil
        rw [← List.length_eq_zero_iff, hlen] at hnil
        exact hrunning (List.length_eq_zero_iff.mp hnil)
      -- this one takes a chunk, and the walk goes on with what is left
      obtain hspent | hall := ih (grant_budget_lt hbudget) hne (by rwa [hlen])
      · exact Or.inl hspent
      by_cases hcut : chunk = st.budget - reserve
      · -- the chunk was all there was to spend
        obtain ⟨items, -, -, hsum⟩ := sharePrefill_spec slice reserve start offsets
          (st.grant ((start + first) % st.running.length) chunk q) (grant_budget_lt hbudget)
        have hleft : (st.grant ((start + first) % st.running.length) chunk q).budget =
            st.budget - chunk := rfl
        exact Or.inl (by omega)
      refine Or.inr fun offset hmem r hr hshort => ?_
      obtain rfl | hmem := List.mem_cons.mp hmem
      · rw [hr, Option.some.injEq] at hq
        -- the walk comes by once, so the place keeps what it was given
        rw [sharePrefill_unvisited hslice (grant_budget_lt hbudget) hne fun o ho hsame => ?_]
        · show (st.running.set _ _)[_]? = _
          rw [List.getElem?_set_self (List.getElem?_eq_some_iff.mp hr).1, ← hq]
          have hfull : chunk = min ((r.promptTokens : ℕ) - r.computedTokens) slice := by
            rw [hq]
            omega
          rw [hfull]
        · rw [hlen] at hsame
          exact hfirst (List.mem_map.mpr ⟨o, ho, hsame⟩)
      -- the places behind it are others
      · have hplace : (start + first) % st.running.length ≠ (start + offset) % st.running.length :=
          fun hsame => hfirst (List.mem_map.mpr ⟨offset, hmem, hsame.symm⟩)
        have hrest' := hall offset hmem r
        rw [hlen, grant_running_ne hplace] at hrest'
        exact hrest' hr hshort

end Walk

/-! ### Phase 3 -/

section Admit

variable {cfg : SchedulerConfig} {total : U32}

/-- The newest running request was admitted just now, and its chunk cut at the slice. -/
def CutAtSlice (cfg : SchedulerConfig) (running : List TrackedRequest)
    (prefills : List PrefillItem) : Prop :=
  ∃ r item, running.getLast? = some r ∧ prefills.getLast? = some item ∧ item.id = r.id ∧
    item.tokens = cfg.slice ∧ r.computedTokens < r.promptTokens

/-- Phase 3 stops for want of budget, of a slot, of a request or of blocks, or behind a
newcomer that it cuts. -/
theorem admitPhase_end :
    ∀ {waiting : List TrackedRequest} {st : Admissions}, st.budget < 2 ^ 32 →
      (∀ r ∈ waiting, r.computedTokens ≤ r.promptTokens) →
      let done := (admitPhase cfg total waiting st).val
      0 < done.2.budget →
        (cfg.maxConcurrentDecodes : ℕ) ≤ done.2.running.length ∨ done.1 = [] ∨
          (∃ r rest, done.1 = r :: rest ∧ done.2.free < cfg.headroom total r) ∨
          CutAtSlice cfg done.2.running done.2.prefills := by
  intro waiting
  induction waiting with
  | nil => exact fun _ _ _ => Or.inr (Or.inl rfl)
  | cons r waiting ih =>
    intro st hbudget hrestored done hleft
    by_cases hstop : st.budget = 0 ∨ (cfg.maxConcurrentDecodes : ℕ) ≤ st.running.length ∨
        st.free < cfg.headroom total r
    · have hdone : done = (r :: waiting, st) := admitPhase_stop hstop
      rw [hdone] at hleft ⊢
      obtain hzero | hslots | hfree := hstop
      · exact absurd hzero hleft.ne'
      · exact Or.inl hslots
      · exact Or.inr (Or.inr (Or.inl ⟨r, waiting, rfl, hfree⟩))
    simp only [not_or, not_le, not_lt] at hstop
    obtain ⟨hpos, hslot, hfree⟩ := hstop
    obtain ⟨chunk, hchunk⟩ : ∃ chunk, chunk
        = min (min ((r.promptTokens : ℕ) - r.computedTokens) cfg.slice) st.budget := ⟨_, rfl⟩
    have hpull : done = _ :=
      admitPhase_pull hbudget hpos hslot hfree (hrestored r List.mem_cons_self) hchunk
    by_cases hcut : chunk < (r.promptTokens : ℕ) - r.computedTokens
    · rw [if_pos hcut] at hpull
      rw [hpull] at hleft ⊢
      have hspare : 0 < st.budget - chunk := hleft
      refine Or.inr (Or.inr (Or.inr ⟨_, _, List.getLast?_concat, List.getLast?_concat, rfl, ?_, ?_⟩))
      · show chunk = cfg.slice
        omega
      · show r.computedTokens + chunk < r.promptTokens
        omega
    · rw [if_neg hcut] at hpull
      rw [hpull] at hleft ⊢
      exact ih (lt_of_le_of_lt (Nat.sub_le _ _) hbudget)
        (fun q hq => hrestored q (List.mem_cons_of_mem _ hq)) hleft

theorem Admitted.running_append {waiting running waiting' running' : List TrackedRequest}
    {free free' : ℕ} {items : List PrefillItem}
    (h : Admitted cfg total waiting running free items waiting' running' free') :
    ∃ more, running' = running ++ more := by
  induction h with
  | nil => exact ⟨[], (List.append_nil _).symm⟩
  | pull _ _ _ _ ih =>
    obtain ⟨more, hmore⟩ := ih
    exact ⟨_, hmore.trans (List.append_assoc _ _ _)⟩

end Admit

/-! ### A step -/

section Step

variable {s : Scheduler}

/-- A request at its place after phase 1: as it was, unless it decodes. -/
theorem Decoded.place {cost : ℕ} {rs rs' : List TrackedRequest} {ds : List DecodeItem}
    (h : Decoded cost rs rs' ds) : ∀ {place : ℕ} {r' : TrackedRequest}, rs'[place]? = some r' →
      rs[place]? = some r' ∨ (r'.promptTokens : ℕ) ≤ r'.computedTokens := by
  induction h with
  | nil => exact fun hr => Or.inl hr
  | keep _ ih =>
    intro place r' hr
    cases place with
    | zero => exact Or.inl hr
    | succ place => exact ih hr
  | decode hready _ _ ih =>
    intro place r' hr
    cases place with
    | zero =>
      rw [List.getElem?_cons_zero, Option.some.injEq] at hr
      refine Or.inr ?_
      rw [← hr]
      exact Nat.le_succ_of_le hready
    | succ place => exact ih hr

theorem Decoded.kept {cost : ℕ} {rs rs' : List TrackedRequest} {ds : List DecodeItem}
    (h : Decoded cost rs rs' ds) : ∀ {place : ℕ} {r : TrackedRequest}, rs[place]? = some r →
      r.computedTokens < r.promptTokens → rs'[place]? = some r := by
  induction h with
  | nil => exact fun hr _ => hr
  | keep _ ih =>
    intro place r hr hshort
    cases place with
    | zero => exact hr
    | succ place => exact ih hr hshort
  | decode hready _ _ ih =>
    intro place r hr hshort
    cases place with
    | zero =>
      rw [List.getElem?_cons_zero, Option.some.injEq] at hr
      rw [hr] at hready
      exact absurd hshort (Nat.not_lt.mpr hready)
    | succ place => exact ih hr hshort

/-- A request at its place after phase 2: with no less computed. -/
theorem Granted.place {rs rs' : List TrackedRequest} {items : List PrefillItem}
    (h : Granted rs items rs') : ∀ {place : ℕ} {r' : TrackedRequest}, rs'[place]? = some r' →
      ∃ r, rs[place]? = some r ∧ r.pinned = r'.pinned ∧ r.computedTokens ≤ r'.computedTokens := by
  induction h with
  | nil => exact fun hr => ⟨_, hr, rfl, le_rfl⟩
  | @grant rs rs' items q i chunk hq _ _ _ ih =>
    intro place r' hr
    obtain ⟨r, hset, hpinned, hle⟩ := ih hr
    by_cases hplace : i = place
    · subst hplace
      rw [List.getElem?_set_self (List.getElem?_eq_some_iff.mp hq).1, Option.some.injEq] at hset
      subst hset
      exact ⟨q, hq, hpinned, (Nat.le_add_right _ _).trans hle⟩
    · rw [List.getElem?_set_ne hplace] at hset
      exact ⟨r, hset, hpinned, hle⟩

theorem stepDecoded_spec : Decoded s.config.tokensPerDecodeStep.val s.running s.stepDecoded.1
    s.stepDecoded.2.1 ∧ decodeSum s.stepDecoded.2.1 + s.stepDecoded.2.2 = s.config.tokenBudget :=
  decodePhase_spec s.config s.running s.config.tokenBudget (Fin.isLt _)

theorem stepDecoded_length : s.stepDecoded.1.length = s.running.length :=
  stepDecoded_spec.1.length

theorem stepDecoded_budget : s.stepDecoded.2.2 < 2 ^ 32 := by
  have hspent := (stepDecoded_spec (s := s)).2
  have hbudget : (s.config.tokenBudget : ℕ) < 2 ^ 32 := Fin.isLt _
  omega

/-- Where phase 2 of a step starts. -/
def stepStart (s : Scheduler) : PrefillShare where
  running := s.stepDecoded.1
  prefills := []
  budget := s.stepDecoded.2.2
  granted := false

theorem stepShared_eq : s.stepShared = (sharePrefill s.config.slice s.stepReserve
    (s.prefillCursor % s.stepDecoded.1.length) (List.range s.stepDecoded.1.length)
    s.stepStart).val := rfl

theorem stepStart_budget : s.stepStart.budget < 2 ^ 32 := stepDecoded_budget

theorem stepShared_spec : ∃ grants, Granted s.stepDecoded.1 grants s.stepShared.running ∧
    s.stepShared.prefills = grants ∧ prefillSum grants + s.stepShared.budget = s.stepDecoded.2.2 :=
  sharePrefill_spec s.config.slice s.stepReserve (s.prefillCursor % s.stepDecoded.1.length)
    (List.range s.stepDecoded.1.length)
    s.stepStart stepStart_budget

theorem stepShared_budget : s.stepShared.budget < 2 ^ 32 := by
  obtain ⟨grants, -, -, hsum⟩ := stepShared_spec (s := s)
  have := stepDecoded_budget (s := s)
  omega

/-- Where phase 3 of a step starts. -/
def stepAdmissions (s : Scheduler) : Admissions where
  running := s.stepShared.running
  prefills := s.stepShared.prefills
  free := s.freeAttentionBlocks
  budget := s.stepShared.budget

theorem stepAdmitted_eq (s : Scheduler) : s.stepAdmitted =
    (admitPhase s.config s.totalAttentionBlocks s.waiting s.stepAdmissions).val := rfl

theorem stepAdmissions_budget : s.stepAdmissions.budget < 2 ^ 32 := stepShared_budget

theorem stepAdmitted_spec (hrestored : ∀ r ∈ s.waiting, r.computedTokens ≤ r.promptTokens) :
    ∃ admissions, Admitted s.config s.totalAttentionBlocks s.waiting s.stepShared.running
        s.freeAttentionBlocks admissions s.stepAdmitted.1 s.stepAdmitted.2.running
        s.stepAdmitted.2.free ∧
      s.stepAdmitted.2.prefills = s.stepShared.prefills ++ admissions ∧
      prefillSum admissions + s.stepAdmitted.2.budget = s.stepShared.budget := by
  obtain ⟨admissions, hadmitted, hprefills, hsum, -⟩ := admitPhase_spec s.config
    s.totalAttentionBlocks s.waiting s.stepAdmissions stepAdmissions_budget hrestored
  exact ⟨admissions, hadmitted, hprefills, hsum⟩

theorem stepShared_length : s.stepShared.running.length = s.running.length := by
  obtain ⟨grants, hgranted, -⟩ := stepShared_spec (s := s)
  rw [hgranted.length, stepDecoded_length]

/-- The walk never touches the reserve. -/
theorem sharePrefill_reserve {slice reserve start : ℕ} (hslice : 0 < slice) :
    ∀ {offsets : List ℕ} {st : PrefillShare}, st.budget < 2 ^ 32 → st.running ≠ [] →
      min st.budget reserve ≤ (sharePrefill slice reserve start offsets st).val.budget := by
  intro offsets
  induction offsets with
  | nil => exact fun _ _ => min_le_left _ _
  | cons offset offsets ih =>
    intro st hbudget hrunning
    obtain ⟨-, heq⟩ | ⟨q, hq, hspend, ⟨-, heq⟩ | ⟨chunk, -, -, hchunk, heq⟩⟩ :=
      sharePrefill_cases reserve start offset offsets hslice hbudget hrunning
    · rw [heq]
      exact min_le_left _ _
    · rw [heq]
      exact ih hbudget hrunning
    · rw [heq]
      have hne : (st.grant ((start + offset) % st.running.length) chunk q).running ≠ [] := by
        intro hnil
        rw [← List.length_eq_zero_iff, grant_running_length] at hnil
        exact hrunning (List.length_eq_zero_iff.mp hnil)
      have hrest := ih (grant_budget_lt hbudget) hne
      have hleft : (st.grant ((start + offset) % st.running.length) chunk q).budget =
          st.budget - chunk := rfl
      have hcap : chunk ≤ st.budget - reserve := hchunk ▸ min_le_right _ _
      rw [hleft] at hrest
      omega

/-- What is left after a step. -/
theorem stepInto_left (hrestored : ∀ r ∈ s.waiting, r.computedTokens ≤ r.promptTokens) :
    s.stepInto.val.2.totalTokens + s.stepAdmitted.2.budget = s.config.tokenBudget := by
  obtain ⟨grants, -, hgrants, hshared⟩ := stepShared_spec (s := s)
  obtain ⟨admissions, -, hprefills, hleft⟩ := stepAdmitted_spec hrestored
  have hspent := (stepDecoded_spec (s := s)).2
  rw [stepInto_val]
  show decodeSum s.stepDecoded.2.1 + prefillSum s.stepAdmitted.2.prefills + _ = _
  rw [hprefills, prefillSum_append, hgrants]
  omega

theorem stepInto_running (hrestored : ∀ r ∈ s.waiting, r.computedTokens ≤ r.promptTokens) :
    ∃ more, s.stepInto.val.1.running = s.stepShared.running ++ more := by
  obtain ⟨admissions, hadmitted, -⟩ := stepAdmitted_spec hrestored
  rw [stepInto_val]
  exact hadmitted.running_append

theorem stepInto_prefills (hrestored : ∀ r ∈ s.waiting, r.computedTokens ≤ r.promptTokens) :
    ∃ admissions, s.stepInto.val.2.prefills = s.stepShared.prefills ++ admissions := by
  obtain ⟨admissions, -, hadmissions, -⟩ := stepAdmitted_spec hrestored
  exact ⟨admissions, hadmissions⟩

/-- The walk of a step visits every place once. -/
theorem places_nodup (start n : ℕ) :
    ((List.range n).map fun offset => (start + offset) % n).Nodup := by
  refine List.Nodup.map_on (fun a ha b hb hab => ?_) List.nodup_range
  exact Nat.ModEq.add_left_cancel' start hab |>.eq_of_lt_of_lt (List.mem_range.mp ha)
    (List.mem_range.mp hb)

theorem places_all (start : ℕ) {n place : ℕ} (hplace : place < n) :
    ∃ offset ∈ List.range n, (start + offset) % n = place := by
  refine ⟨(place + (n - start % n)) % n, List.mem_range.mpr (Nat.mod_lt _ (by omega)), ?_⟩
  have hstart := Nat.mod_lt start (by omega : 0 < n)
  rw [Nat.add_mod_mod, ← Nat.mod_add_mod, ← Nat.add_assoc, Nat.add_comm (start % n), Nat.add_assoc,
    Nat.add_sub_cancel' hstart.le, Nat.add_mod_right, Nat.mod_eq_of_lt hplace]

/-- Phase 2 spends all but the reserve, or gives everyone what the slice allows. -/
theorem stepShared_visited : s.stepShared.budget ≤ s.stepReserve ∨
    ∀ (place : ℕ) (r : TrackedRequest), s.stepDecoded.1[place]? = some r →
      r.computedTokens < r.promptTokens → s.stepShared.running[place]? = some { r with
        computedTokens := r.computedTokens +
          min ((r.promptTokens : ℕ) - r.computedTokens) s.config.slice } := by
  by_cases hrunning : s.stepDecoded.1 = []
  · refine Or.inr fun place r hr => ?_
    exact absurd hrunning (running_ne_nil hr)
  have hnodup : ((List.range s.stepDecoded.1.length).map fun offset =>
      (s.prefillCursor % s.stepDecoded.1.length + offset) % s.stepStart.running.length).Nodup :=
    places_nodup _ _
  refine (sharePrefill_visited s.config.slice_pos stepStart_budget hrunning hnodup).imp_right
    fun hall place r hr hshort => ?_
  obtain ⟨offset, hmem, hoffset⟩ := places_all (s.prefillCursor % s.stepDecoded.1.length)
    (List.getElem?_eq_some_iff.mp hr).1
  have hvisit := hall offset hmem r
  have hindex : (s.prefillCursor % s.stepDecoded.1.length + offset) % s.stepStart.running.length =
      place := hoffset
  rw [hindex] at hvisit
  exact hvisit hr hshort

/-- What phase 2 holds back goes to the front request, which runs after the step. -/
theorem reserve_spent (hbooks : Books s) (hreserve : 0 < s.stepReserve)
    (hbudget : 0 < s.stepDecoded.2.2) :
    ∃ r rest chunk more, s.waiting = r :: rest ∧
      s.stepInto.val.2.prefills = s.stepShared.prefills ++ ⟨r.id, chunk⟩ :: more ∧
      (r.computedTokens < r.promptTokens → 0 < chunk) ∧
      s.stepInto.val.1.running[s.running.length]? = some { r with
        computedTokens := r.computedTokens + chunk
        blocksReserved := s.config.reservation r } := by
  -- something is held back only if the front request can be admitted
  have hproceed : ({ s with running := s.stepDecoded.1 }).admissionCanProceed.val = true := by
    by_contra hno
    rw [stepReserve, if_neg hno] at hreserve
    exact absurd hreserve (lt_irrefl _)
  rw [admissionCanProceed] at hproceed
  by_cases hslots : (s.config.maxConcurrentDecodes : ℕ) ≤ s.stepDecoded.1.length
  · rw [if_pos hslots] at hproceed
    exact absurd hproceed Bool.false_ne_true
  rw [if_neg hslots] at hproceed
  cases hwaiting : s.waiting with
  | nil =>
    simp only [hwaiting] at hproceed
    exact absurd hproceed Bool.false_ne_true
  | cons r rest =>
    simp only [hwaiting] at hproceed
    have hfree : s.config.headroom s.totalAttentionBlocks r ≤ s.freeAttentionBlocks :=
      of_decide_eq_true hproceed
    have hslot : s.stepShared.running.length < s.config.maxConcurrentDecodes := by
      rw [stepShared_length, ← stepDecoded_length]
      exact Nat.lt_of_not_le hslots
    -- phase 2 leaves the reserve, so there is something to admit with
    have hleft : s.stepShared.budget ≠ 0 := by
      by_cases hrunning : s.stepDecoded.1 = []
      · have hsame : s.stepShared.budget = s.stepDecoded.2.2 := by
          rw [stepShared, hrunning]
          rfl
        omega
      · have hkept : min s.stepStart.budget s.stepReserve ≤ s.stepShared.budget :=
          sharePrefill_reserve s.config.slice_pos stepStart_budget hrunning
        have hstart : s.stepStart.budget = s.stepDecoded.2.2 := rfl
        omega
    have hrestored := hbooks.waiting_restored
    rw [hwaiting] at hrestored
    obtain ⟨chunk, hchunk⟩ : ∃ chunk, chunk
        = min (min ((r.promptTokens : ℕ) - r.computedTokens) s.config.slice) s.stepShared.budget :=
      ⟨_, rfl⟩
    have hpull := s.stepAdmitted_eq
    rw [hwaiting, admitPhase_pull stepAdmissions_budget hleft hslot hfree
      (hrestored r List.mem_cons_self) hchunk] at hpull
    have hcut : 0 < s.config.slice := s.config.slice_pos
    have hlen := stepShared_length (s := s)
    rw [stepInto_val]
    -- a chunk that does not finish the prompt ends the phase
    by_cases htruncated : chunk < (r.promptTokens : ℕ) - r.computedTokens
    · rw [if_pos htruncated] at hpull
      refine ⟨r, rest, chunk, [], rfl, ?_, fun hshort => ?_, ?_⟩
      · rw [hpull]
        rfl
      · omega
      · rw [hpull, ← hlen]
        exact List.getElem?_concat_length
    -- else the phase goes on, behind the front request
    · rw [if_neg htruncated] at hpull
      obtain ⟨items, hadmitted, hprefills, -⟩ := admitPhase_spec s.config s.totalAttentionBlocks rest
        (s.stepAdmissions.pull s.config r chunk)
        (lt_of_le_of_lt (Nat.sub_le _ _) stepAdmissions_budget)
        (fun q hq => hrestored q (List.mem_cons_of_mem _ hq))
      obtain ⟨more, hmore⟩ := hadmitted.running_append
      refine ⟨r, rest, chunk, items, rfl, ?_, fun hshort => ?_, ?_⟩
      · rw [hpull]
        exact hprefills.trans (List.append_assoc _ _ _)
      · omega
      · rw [hpull, ← hlen]
        show (admitPhase _ _ _ _).val.2.running[_]? = _
        rw [hmore, List.getElem?_append_left]
        · exact List.getElem?_concat_length
        · rw [Admissions.pull, List.length_append, List.length_singleton]
          exact Nat.lt_succ_self _

/-- A step leaves budget only where phase 2 was held back or has given everyone a whole
slice, and phase 3 found nobody to admit or has cut its newcomer at the slice. -/
theorem unspent_only (hbooks : Books s)
    (hleft : s.stepInto.val.2.totalTokens < s.config.tokenBudget) :
    ((0 < s.stepReserve ∧ s.stepShared.budget ≤ s.stepReserve) ∨
      ∀ place r', place < s.running.length → s.stepInto.val.1.running[place]? = some r' →
        r'.computedTokens < r'.promptTokens → ∃ r, s.running[place]? = some r ∧
          r'.computedTokens = r.computedTokens + s.config.slice) ∧
    ((s.config.maxConcurrentDecodes : ℕ) ≤ s.stepInto.val.1.running.length ∨
      s.stepInto.val.1.waiting = [] ∨
      (∃ r rest, s.stepInto.val.1.waiting = r :: rest ∧
        s.stepInto.val.1.freeAttentionBlocks < s.config.headroom s.totalAttentionBlocks r) ∨
      CutAtSlice s.config s.stepInto.val.1.running s.stepInto.val.2.prefills) := by
  have hrestored := hbooks.waiting_restored
  have htotal := stepInto_left hrestored
  have hspare : 0 < s.stepAdmitted.2.budget := by omega
  refine ⟨?_, ?_⟩
  · obtain hspent | hall := stepShared_visited (s := s)
    · refine Or.inl ⟨?_, hspent⟩
      obtain ⟨admissions, -, -, hsum⟩ := stepAdmitted_spec hrestored
      omega
    · refine Or.inr fun place r' hplace hr' hshort => ?_
      obtain ⟨more, hmore⟩ := stepInto_running hrestored
      rw [hmore, List.getElem?_append_left (by rwa [stepShared_length])] at hr'
      obtain ⟨grants, hgranted, -⟩ := stepShared_spec (s := s)
      obtain ⟨r, hr, hpinned, hle⟩ := hgranted.place hr'
      have hprompt : r.promptTokens = r'.promptTokens := by
        have hpinned := congrArg TrackedRequest.promptTokens hpinned
        exact hpinned
      have hshort₀ : r.computedTokens < r.promptTokens := by
        rw [hprompt]
        exact lt_of_le_of_lt hle hshort
      have hvisit := hall place r hr hshort₀
      rw [hr', Option.some.injEq] at hvisit
      have hsame : r'.computedTokens = r.computedTokens +
          min ((r.promptTokens : ℕ) - r.computedTokens) s.config.slice := by
        rw [hvisit]
      refine ⟨r, (stepDecoded_spec.1.place hr).resolve_right (Nat.not_le.mpr hshort₀), ?_⟩
      rw [← hprompt] at hshort
      omega
  · rw [stepInto_val]
    exact admitPhase_end stepAdmissions_budget hrestored hspare

end Step

/-! ### Windows of steps -/

section Windows

/-- Consecutive steps with one running set, each with budget for phase 2 to grant, and in
between calls that leave the running set and the progress of `id` alone. -/
inductive Window (ids : List RequestId) (id : RequestId) :
    Scheduler → List BatchDescription → Scheduler → Prop where
  | nil {s : Scheduler} : Window ids id s [] s
  | step {s s' : Scheduler} {bs : List BatchDescription} :
      s.running.map (·.id) = ids → s.stepReserve < s.stepDecoded.2.2 →
      Window ids id s.stepInto.val.1 bs s' → Window ids id s (s.stepInto.val.2 :: bs) s'
  | call {s t s' : Scheduler} {l : Op × Outcome} {bs : List BatchDescription} :
      Call s l t → l.1 ≠ .stepInto → (∀ additional, l.1 ≠ .advanceSpeculative id additional) →
      t.running.map (·.id) = s.running.map (·.id) →
      Window ids id t bs s' → Window ids id s bs s'

variable {ids : List RequestId} {id : RequestId} {s : Scheduler}

/-- A call between the steps leaves the request at its place. -/
theorem Moved.place {t : Scheduler} {op : Op} {out : Outcome} (h : Moved s op out t)
    (hstep : op ≠ .stepInto) {place : ℕ} {r : TrackedRequest}
    (hadvance : ∀ additional, op ≠ .advanceSpeculative r.id additional)
    (hids : t.running.map (·.id) = s.running.map (·.id)) (hr : s.running[place]? = some r) :
    t.running[place]? = some r ∧ t.prefillCursor = s.prefillCursor := by
  have hshorter : ∀ {before after : List TrackedRequest} {q : TrackedRequest},
      (before ++ after).map (·.id) ≠ (before ++ q :: after).map (·.id) := by
    intro before after q heq
    have := congrArg List.length heq
    simp only [List.length_map, List.length_append, List.length_cons] at this
    omega
  cases h with
  | refused _ => exact ⟨hr, rfl⟩
  | missing _ => exact ⟨hr, rfl⟩
  | queued _ _ _ _ => exact ⟨hr, rfl⟩
  | dequeued _ _ => exact ⟨hr, rfl⟩
  | stepped _ => exact absurd rfl hstep
  | @advanced id additional q before after hrs hid =>
    refine ⟨?_, rfl⟩
    rw [hrs] at hr
    -- the advanced request is another one
    by_cases hbefore : place < before.length
    · rw [List.getElem?_append_left hbefore] at hr ⊢
      exact hr
    · rw [List.getElem?_append_right (Nat.le_of_not_lt hbefore)] at hr ⊢
      cases hoffset : place - before.length with
      | zero =>
        rw [hoffset, List.getElem?_cons_zero, Option.some.injEq] at hr
        rw [← hr, hid] at hadvance
        exact absurd rfl (hadvance additional)
      | succ offset =>
        rw [hoffset] at hr
        exact hr
  | released _ hrs _ => exact absurd (hrs ▸ hids) hshorter
  | preempted hrs _ => exact absurd (hrs ▸ hids) hshorter

/-- A step serves the request at the cursor. -/
theorem stepInto_serves (hbooks : Books s) {r : TrackedRequest}
    (hr : s.running[s.prefillCursor % s.running.length]? = some r)
    (hshort : r.computedTokens < r.promptTokens) (hspend : s.stepReserve < s.stepDecoded.2.2) :
    ∃ item ∈ s.stepInto.val.2.prefills, item.id = r.id ∧ 0 < item.tokens := by
  have hlen := stepDecoded_length (s := s)
  have hr₁ := stepDecoded_spec.1.kept hr hshort
  obtain ⟨n, hn⟩ : ∃ n, s.stepDecoded.1.length = n + 1 := by
    refine Nat.exists_eq_succ_of_ne_zero fun hzero => ?_
    exact running_ne_nil hr₁ (List.length_eq_zero_iff.mp hzero)
  obtain ⟨admissions, hprefills⟩ := stepInto_prefills hbooks.waiting_restored
  obtain ⟨item, hmem, hitem⟩ : ∃ item ∈ s.stepShared.prefills, item.id = r.id ∧ 0 < item.tokens := by
    rw [stepShared_eq, hn, List.range_succ_eq_map]
    refine sharePrefill_first s.config.slice_pos stepStart_budget hspend ?_ hshort
    show s.stepDecoded.1[(s.prefillCursor % (n + 1) + 0) % s.stepDecoded.1.length]? = _
    rw [Nat.add_zero, hn, Nat.mod_mod, ← hn, hlen]
    exact hr₁
  exact ⟨item, hprefills ▸ List.mem_append_left _ hmem, hitem⟩

/-- A step serves a request or keeps it, and moves the cursor on. -/
theorem stepInto_keeps (hbooks : Books s) {place : ℕ} {r : TrackedRequest}
    (hr : s.running[place]? = some r) (hshort : r.computedTokens < r.promptTokens)
    (hspend : s.stepReserve < s.stepDecoded.2.2) :
    (∃ item ∈ s.stepInto.val.2.prefills, item.id = r.id ∧ 0 < item.tokens) ∨
      s.stepInto.val.1.running[place]? = some r ∧
        s.stepInto.val.1.prefillCursor = (s.prefillCursor + 1) % 2 ^ 64 := by
  have hr₁ := stepDecoded_spec.1.kept hr hshort
  obtain ⟨admissions, hprefills⟩ := stepInto_prefills hbooks.waiting_restored
  obtain ⟨more, hmore⟩ := stepInto_running hbooks.waiting_restored
  have hkept : s.stepShared.running[place]? = some r ∨
      ∃ item ∈ s.stepShared.prefills, item.id = r.id ∧ 0 < item.tokens :=
    sharePrefill_kept s.config.slice_pos stepStart_budget hr₁
  obtain hsame | ⟨item, hmem, hitem⟩ := hkept
  · refine Or.inr ⟨?_, ?_⟩
    · rw [hmore, List.getElem?_append_left (List.getElem?_eq_some_iff.mp hsame).1]
      exact hsame
    · have hgranted : s.stepShared.granted = true := by
        obtain ⟨offset, hmem, hoffset⟩ := places_all (s.prefillCursor % s.stepDecoded.1.length)
          (List.getElem?_eq_some_iff.mp hr₁).1
        refine sharePrefill_granted s.config.slice_pos stepStart_budget hspend
          ⟨offset, hmem, ?_⟩ hshort
        show s.stepDecoded.1[(_ + offset) % s.stepDecoded.1.length]? = _
        rw [hoffset]
        exact hr₁
      rw [stepInto_val]
      exact if_pos hgranted
  · exact Or.inl ⟨item, hprefills ▸ List.mem_append_left _ hmem, hitem⟩

theorem stepInto_books (hbooks : Books s) : Books s.stepInto.val.1 :=
  (stepInto_spec hbooks.waiting_restored).books hbooks

/-- `distance` is how far the cursor is from the request; a step brings it nearer. -/
theorem Window.reaches {s' : Scheduler} {bs : List BatchDescription}
    (h : Window ids id s bs s') : ∀ {place distance : ℕ} {r : TrackedRequest}, Books s →
      s.running[place]? = some r → r.id = id → r.computedTokens < r.promptTokens →
      (s.prefillCursor + distance) % ids.length = place → distance < bs.length →
      (s.prefillCursor + distance < 2 ^ 64 ∨ ids.length ∣ 2 ^ 64) →
      ∃ b ∈ bs, ∃ item ∈ b.prefills, item.id = id ∧ 0 < item.tokens := by
  induction h with
  | nil => exact fun _ _ _ _ _ hlt => absurd hlt (Nat.not_lt_zero _)
  | @step s s' bs hids hspend hrest ih =>
    intro place distance r hbooks hr hid hshort hplace hlt hwrap
    have hlen : s.running.length = ids.length := by rw [← hids, List.length_map]
    cases distance with
    | zero =>
      rw [Nat.add_zero, ← hlen] at hplace
      rw [← hplace] at hr
      obtain ⟨item, hmem, hitem⟩ := stepInto_serves hbooks hr hshort hspend
      exact ⟨_, List.mem_cons_self, item, hmem, hid ▸ hitem⟩
    | succ distance =>
      obtain ⟨item, hmem, hitem⟩ | ⟨hr', hcursor⟩ := stepInto_keeps hbooks hr hshort hspend
      · exact ⟨_, List.mem_cons_self, item, hmem, hid ▸ hitem⟩
      have hplace' : (s.stepInto.val.1.prefillCursor + distance) % ids.length = place := by
        rw [hcursor, ← hplace]
        obtain hsmall | hdvd := hwrap
        · have hsame : (s.prefillCursor + 1) % 2 ^ 64 = s.prefillCursor + 1 :=
            Nat.mod_eq_of_lt (by omega)
          rw [hsame, Nat.add_assoc, Nat.add_comm 1]
        · rw [Nat.add_mod, Nat.mod_mod_of_dvd _ hdvd, ← Nat.add_mod, Nat.add_assoc, Nat.add_comm 1]
      have hwrap' : s.stepInto.val.1.prefillCursor + distance < 2 ^ 64 ∨ ids.length ∣ 2 ^ 64 := by
        refine hwrap.imp_left fun hsmall => ?_
        have := Nat.mod_le (s.prefillCursor + 1) (2 ^ 64)
        omega
      obtain ⟨b, hb, hserved⟩ := ih (stepInto_books hbooks) hr' hid hshort hplace'
        (Nat.lt_of_succ_lt_succ hlt) hwrap'
      exact ⟨b, List.mem_cons_of_mem _ hb, hserved⟩
  | call hcall hstep hadvance hids hrest ih =>
    intro place distance r hbooks hr hid hshort hplace hlt hwrap
    have hmoved := hcall.moved hbooks
    obtain ⟨hr', hcursor⟩ := hmoved.place hstep (hid ▸ hadvance) hids hr
    exact ih (hmoved.books hbooks) hr' hid hshort (hcursor ▸ hplace) hlt (hcursor ▸ hwrap)

/-- A request in the middle of its prompt is served within as many steps as there are
running requests. -/
theorem Window.served {s' : Scheduler} {bs : List BatchDescription} (h : Window ids id s bs s')
    (hbooks : Books s) (hids : s.running.map (·.id) = ids) {r : TrackedRequest}
    (hr : r ∈ s.running) (hid : r.id = id) (hshort : r.computedTokens < r.promptTokens)
    (hlong : ids.length ≤ bs.length)
    (hwrap : s.prefillCursor + ids.length ≤ 2 ^ 64 ∨ ids.length ∣ 2 ^ 64) :
    ∃ b ∈ bs, ∃ item ∈ b.prefills, item.id = id ∧ 0 < item.tokens := by
  obtain ⟨place, hplace⟩ := List.mem_iff_getElem?.mp hr
  have hlen : s.running.length = ids.length := by rw [← hids, List.length_map]
  obtain ⟨distance, hmem, hdistance⟩ :=
    places_all s.prefillCursor (List.getElem?_eq_some_iff.mp hplace).1
  have hlt := List.mem_range.mp hmem
  rw [hlen] at hdistance hlt
  exact h.reaches hbooks hplace hid hshort hdistance (by omega) (hwrap.imp_left (by omega))

end Windows

/-- Fairness between the prompts, use of the reserve, and what a step leaves, in every
reachable state. -/
theorem prefill_fair {cfg : SchedulerConfig} {total : U32} {ls : List (Op × Outcome)}
    {s : Scheduler} (h : Run Call (new cfg total) ls s) :
    (∀ (r : TrackedRequest) (bs : List BatchDescription) (s' : Scheduler),
      Window (s.running.map (·.id)) r.id s bs s' → r ∈ s.running →
      r.computedTokens < r.promptTokens → s.running.length ≤ bs.length →
      (s.prefillCursor + s.running.length ≤ 2 ^ 64 ∨ s.running.length ∣ 2 ^ 64) →
      ∃ b ∈ bs, ∃ item ∈ b.prefills, item.id = r.id ∧ 0 < item.tokens) ∧
    (0 < s.stepReserve → 0 < s.stepDecoded.2.2 →
      ∃ r rest chunk more, s.waiting = r :: rest ∧
        s.stepInto.val.2.prefills = s.stepShared.prefills ++ ⟨r.id, chunk⟩ :: more ∧
        (r.computedTokens < r.promptTokens → 0 < chunk) ∧
        s.stepInto.val.1.running[s.running.length]? = some { r with
          computedTokens := r.computedTokens + chunk
          blocksReserved := s.config.reservation r }) ∧
    (s.stepInto.val.2.totalTokens < s.config.tokenBudget →
      ((0 < s.stepReserve ∧ s.stepShared.budget ≤ s.stepReserve) ∨
        ∀ place r', place < s.running.length → s.stepInto.val.1.running[place]? = some r' →
          r'.computedTokens < r'.promptTokens → ∃ r, s.running[place]? = some r ∧
            r'.computedTokens = r.computedTokens + s.config.slice) ∧
      ((s.config.maxConcurrentDecodes : ℕ) ≤ s.stepInto.val.1.running.length ∨
        s.stepInto.val.1.waiting = [] ∨
        (∃ r rest, s.stepInto.val.1.waiting = r :: rest ∧
          s.stepInto.val.1.freeAttentionBlocks < s.config.headroom s.totalAttentionBlocks r) ∨
        CutAtSlice s.config s.stepInto.val.1.running s.stepInto.val.2.prefills)) := by
  have hbooks := books_of_run h
  refine ⟨fun r bs s' hwindow hr hshort hlong hwrap => ?_, reserve_spent hbooks,
    unspent_only hbooks⟩
  have hlen : (s.running.map (·.id)).length = s.running.length := List.length_map _
  rw [← hlen] at hlong hwrap
  exact hwindow.served hbooks rfl hr rfl hshort hlong hwrap

/-- A budget of ten without drafts and without a slice. -/
def sharedConfig : SchedulerConfig where
  tokenBudget := 10
  blockSize := 1
  maxConcurrentDecodes := 4
  watermarkFraction := .finite false 0 0
  draftTokensPerStep := 0
  maxWaitingRequests := 16
  prefillSlice := 0
  blockSize_pos := starvedConfig.blockSize_pos
  watermark_inUnit := Binary64.inUnit_zero
  budget_gt := starvedConfig.budget_gt
  maxWaiting_eq := SchedulerConfig.waiting_of_four

/-- A prompt of a hundred tokens, and behind it one of two. -/
def longOps : List Op := [.admitRequest ⟨0, 100, 1⟩, .stepInto]

/-- The short prompt is submitted while the long one is running. -/
def shortBehindOps : List Op := longOps ++ [.admitRequest ⟨1, 2, 1⟩]

/-- With a slice of six two prompts share a step. -/
def slicedConfig : SchedulerConfig := { sharedConfig with prefillSlice := 6 }

/-- Two prompts of a hundred tokens. -/
def twoLongOps : List Op := [.admitRequest ⟨0, 100, 1⟩, .stepInto, .admitRequest ⟨1, 100, 1⟩, .stepInto]

/-- The scheduler once both prompts are running. -/
def twoLong : Scheduler := ((new slicedConfig 400).play twoLongOps).2

/-- Two prompts share the next step, and each is served within two; a newcomer gets the
reserve. -/
theorem prefill_fair_witness :
    (∃ first second, twoLong.stepInto.val.2.prefills = [first, second] ∧
      first.id ≠ second.id ∧ 0 < first.tokens ∧ 0 < second.tokens) ∧
    (∀ r ∈ twoLong.running,
      ∃ b ∈ [twoLong.stepInto.val.2, twoLong.stepInto.val.1.stepInto.val.2],
        ∃ item ∈ b.prefills, item.id = r.id ∧ 0 < item.tokens) ∧
    ∃ r rest chunk more, ((new sharedConfig 200).play shortBehindOps).2.waiting = r :: rest ∧
      ((new sharedConfig 200).play shortBehindOps).2.stepInto.val.2.prefills =
        ((new sharedConfig 200).play shortBehindOps).2.stepShared.prefills ++ ⟨r.id, chunk⟩ :: more := by
  have hshort := (prefill_fair (play_run (new sharedConfig 200) shortBehindOps)).2.1
  obtain ⟨r, rest, chunk, more, hwaiting, hprefills, -⟩ :=
    hshort (by decide +kernel) (by decide +kernel)
  refine ⟨?_, fun r hr => ?_, r, rest, chunk, more, hwaiting, hprefills⟩
  · exact ⟨⟨1, 6⟩, ⟨0, 4⟩, by decide +kernel, by decide, by decide, by decide⟩
  · have hlong := (prefill_fair (play_run (new slicedConfig 400) twoLongOps)).1 r _ _
      (Window.step rfl (by decide +kernel) (Window.step (by decide +kernel) (by decide +kernel) Window.nil))
    have hmissing : ∀ r ∈ twoLong.running, r.computedTokens < r.promptTokens := by decide +kernel
    exact hlong hr (hmissing r hr) (by decide +kernel) (by decide +kernel)

/-- The reserve is half of the budget, the newcomer needs two tokens of it: three are left
although the long prompt has eighty-five to go. -/
theorem reserve_left_over : ∃ ls s, Run Call (new sharedConfig 200) ls s ∧
    s.stepInto.val.2.prefills = [⟨0, 5⟩, ⟨1, 2⟩] ∧
    s.stepInto.val.2.totalTokens < s.config.tokenBudget ∧
    ∃ r ∈ s.stepInto.val.1.running, r.computedTokens < r.promptTokens := by
  refine ⟨_, _, play_run _ shortBehindOps, ?_, ?_, ?_⟩
  · decide +kernel
  · decide +kernel
  · decide +kernel

end Scheduler
