/-
A batch decodes its sequences independently.

`executeDecodes` moves the scheduled sequences out, runs them through rounds
or through a verify pass, and moves them back.  `executeDecodes_spec` says
that this is nothing but each of them taking its own share: a verify window of
its own, or its own tokens one after another for as long as they agree with
its draft (`decodeAlone`).  What the step reports for a request is what that
share reports (`StepLog.only`).

* `decodeRounds_idle`: the rounds end because nobody is active, not because
  the fuel is spent;
* `executeDecodes_ok`: a batch of distinct resident sequences with pending
  tokens never fails.
-/
import Llmxabe.Runtime.Decode

variable {Row κ σ : Type}

/-! ### The part of a log about one request -/

namespace StepLog

/-- What a log says of one request. -/
def only (id : RequestId) (l : StepLog) : StepLog where
  generated := l.generated.filter (·.1 = id)
  retained := l.retained.filter (·.1 = id)
  stopped := l.stopped.filter (· = id)
  writes := l.writes.filter (·.1 = id)

/-- A log that is about one request. -/
def About (id : RequestId) (l : StepLog) : Prop := l.only id = l

variable {id id' : RequestId} {l l' : StepLog}

@[simp] theorem append_empty : l ++ empty = l := by
  show append l empty = l
  simp [append, empty]

@[simp] theorem empty_append : empty ++ l = l := by
  show append empty l = l
  simp [append, empty]

theorem append_assoc (l₁ l₂ l₃ : StepLog) : l₁ ++ l₂ ++ l₃ = l₁ ++ (l₂ ++ l₃) := by
  show append (append l₁ l₂) l₃ = append l₁ (append l₂ l₃)
  simp [append]

@[simp] theorem only_append : (l ++ l').only id = l.only id ++ l'.only id := by
  show (append l l').only id = append (l.only id) (l'.only id)
  simp [only, append]

@[simp] theorem only_empty : empty.only id = empty := rfl

@[simp] theorem tokens_empty : empty.tokens id = [] := rfl

@[simp] theorem tokens_append : (l ++ l').tokens id = l.tokens id ++ l'.tokens id := by
  show (append l l').tokens id = l.tokens id ++ l'.tokens id
  simp [tokens, append]

@[simp] theorem tokens_only : (l.only id).tokens id = l.tokens id := by
  simp [tokens, only]

theorem only_of_ne {a : RequestId} (h : l.About a) (hne : a ≠ id) : l.only id = empty := by
  rw [← h]
  have hnot : ∀ b, b = a → ¬b = id := fun b hb => hb ▸ hne
  simp only [only, List.filter_filter, empty, StepLog.mk.injEq, List.filter_eq_nil_iff]
  refine ⟨?_, ?_, ?_, ?_⟩
  all_goals
    intro q _ hq
    simp only [Bool.and_eq_true, decide_eq_true_eq] at hq
    exact hnot _ hq.2 hq.1

theorem about_append (h : l.About id) (h' : l'.About id) : (l ++ l').About id := by
  rw [About, only_append, h, h']

theorem about_empty : empty.About id := rfl

end StepLog

/-! ### Moving sequences out and back -/

theorem takeSequences_spec :
    ∀ {ids : List RequestId} {seqs rest : Sequences κ σ} {owned : Owned κ σ},
      takeSequences ids seqs = .ok (owned, rest) →
      ids.Nodup ∧ owned.map Prod.fst = ids ∧
        (∀ q ∈ owned, seqs.lookup q.1 = some q.2) ∧
        ∀ id, id ∉ ids → rest.lookup id = seqs.lookup id := by
  intro ids
  induction ids with
  | nil =>
    intro seqs rest owned h
    simp only [takeSequences, Except.ok.injEq, Prod.mk.injEq] at h
    obtain ⟨rfl, rfl⟩ := h
    exact ⟨List.nodup_nil, rfl, by simp, fun _ _ => rfl⟩
  | cons id ids ih =>
    intro seqs rest owned h
    rw [takeSequences] at h
    rcases hlook : seqs.lookup id with _ | seq
    · rw [hlook] at h
      cases h
    · rw [hlook] at h
      simp only at h
      rcases htail : takeSequences ids (seqs.erase id) with e | ⟨owned', rest'⟩
      · rw [htail] at h
        cases h
      · rw [htail] at h
        simp only [Except.ok.injEq, Prod.mk.injEq] at h
        obtain ⟨rfl, rfl⟩ := h
        obtain ⟨hnodup, hids, hmem, hrest⟩ := ih htail
        have hfresh : id ∉ ids := by
          intro hin
          rw [← hids] at hin
          obtain ⟨q, hq, rfl⟩ := List.mem_map.mp hin
          have hsome := hmem q hq
          rw [AList.lookup_erase] at hsome
          cases hsome
        refine ⟨List.nodup_cons.mpr ⟨hfresh, hnodup⟩, by rw [List.map_cons, hids], ?_, ?_⟩
        · intro q hq
          rcases List.mem_cons.mp hq with rfl | hq
          · exact hlook
          · have hin : q.1 ∈ ids := hids ▸ List.mem_map_of_mem hq
            have hne : q.1 ≠ id := fun heq => hfresh (heq ▸ hin)
            rw [← AList.lookup_erase_ne hne, hmem q hq]
        · intro id' hnot
          rw [List.mem_cons, not_or] at hnot
          rw [hrest id' hnot.2, AList.lookup_erase_ne hnot.1]

theorem takeSequences_ok :
    ∀ {ids : List RequestId} {seqs : Sequences κ σ}, ids.Nodup →
      (∀ id ∈ ids, (seqs.lookup id).isSome) → ∃ r, takeSequences ids seqs = .ok r := by
  intro ids
  induction ids with
  | nil => exact fun _ _ => ⟨_, rfl⟩
  | cons id ids ih =>
    intro seqs hnodup hres
    obtain ⟨seq, hseq⟩ := Option.isSome_iff_exists.mp (hres id List.mem_cons_self)
    obtain ⟨hfresh, hnodup⟩ := List.nodup_cons.mp hnodup
    obtain ⟨r, hr⟩ := @ih (seqs.erase id) hnodup fun id' hid' => by
      have hne : id' ≠ id := fun heq => hfresh (heq ▸ hid')
      rw [AList.lookup_erase_ne hne]
      exact hres id' (List.mem_cons_of_mem _ hid')
    exact ⟨((id, seq) :: r.1, r.2), by rw [takeSequences, hseq]; simp only [hr]⟩

theorem putSequences_spec :
    ∀ {owned : Owned κ σ} {seqs : Sequences κ σ}, (owned.map Prod.fst).Nodup →
      (∀ q ∈ owned, (putSequences owned seqs).lookup q.1 = some q.2) ∧
        ∀ id, id ∉ owned.map Prod.fst → (putSequences owned seqs).lookup id = seqs.lookup id := by
  intro owned
  induction owned with
  | nil => exact fun _ => ⟨by simp, fun _ _ => rfl⟩
  | cons q owned ih =>
    intro seqs hnodup
    rw [List.map_cons] at hnodup
    obtain ⟨hfresh, hnodup⟩ := List.nodup_cons.mp hnodup
    obtain ⟨hmem, hrest⟩ := @ih (seqs.insert q.1 q.2) hnodup
    have hput : putSequences (q :: owned) seqs = putSequences owned (seqs.insert q.1 q.2) := rfl
    refine ⟨fun p hp => ?_, fun id hnot => ?_⟩
    · rw [hput]
      rcases List.mem_cons.mp hp with rfl | hp
      · rw [hrest _ hfresh, AList.lookup_insert]
      · exact hmem p hp
    · rw [List.map_cons, List.mem_cons, not_or] at hnot
      rw [hput, hrest _ hnot.2, AList.lookup_insert_ne hnot.1]

/-! ### A pass is its sequences' own steps -/

section Each

variable {α : Type} {step : RequestId → α → Except RuntimeError (α × StepLog)}

theorem eachSequence_spec
    (habout : ∀ {id seq seq' log}, step id seq = .ok (seq', log) → log.About id) :
    ∀ {owned owned' : List (RequestId × α)} {log : StepLog}, (owned.map Prod.fst).Nodup →
      eachSequence step owned = .ok (owned', log) →
      owned'.map Prod.fst = owned.map Prod.fst ∧
        (∀ q ∈ owned, ∃ seq', (q.1, seq') ∈ owned' ∧
          step q.1 q.2 = .ok (seq', log.only q.1)) ∧
        ∀ id, id ∉ owned.map Prod.fst → log.only id = StepLog.empty := by
  intro owned
  induction owned with
  | nil =>
    intro owned' log _ h
    simp only [eachSequence, Except.ok.injEq, Prod.mk.injEq] at h
    obtain ⟨rfl, rfl⟩ := h
    exact ⟨rfl, by simp, fun _ _ => rfl⟩
  | cons q owned ih =>
    intro owned' log hnodup h
    rw [List.map_cons] at hnodup
    obtain ⟨hfresh, hnodup⟩ := List.nodup_cons.mp hnodup
    rw [eachSequence] at h
    rcases hstep : step q.1 q.2 with e | ⟨seq₁, log₁⟩
    · rw [hstep] at h
      cases h
    · rw [hstep] at h
      simp only at h
      rcases hrest : eachSequence step owned with e | ⟨owned₂, log₂⟩
      · rw [hrest] at h
        cases h
      · rw [hrest] at h
        simp only [Except.ok.injEq, Prod.mk.injEq] at h
        obtain ⟨rfl, rfl⟩ := h
        obtain ⟨hkeys, hmem, hout⟩ := ih hnodup hrest
        refine ⟨by rw [List.map_cons, List.map_cons, hkeys], fun p hp => ?_, fun id hid => ?_⟩
        · rcases List.mem_cons.mp hp with rfl | hp
          · refine ⟨seq₁, List.mem_cons_self, ?_⟩
            rw [StepLog.only_append, hout _ hfresh, StepLog.append_empty, habout hstep, hstep]
          · obtain ⟨seq', hseq', hok⟩ := hmem p hp
            have hne : q.1 ≠ p.1 := by
              intro heq
              exact hfresh (heq ▸ List.mem_map_of_mem hp)
            refine ⟨seq', List.mem_cons_of_mem _ hseq', ?_⟩
            rw [StepLog.only_append, StepLog.only_of_ne (habout hstep) hne, StepLog.empty_append,
              hok]
        · rw [List.map_cons, List.mem_cons, not_or] at hid
          rw [StepLog.only_append, hout _ hid.2, StepLog.append_empty,
            StepLog.only_of_ne (habout hstep) (Ne.symm hid.1)]

theorem eachSequence_ok :
    ∀ {owned : List (RequestId × α)}, (∀ q ∈ owned, ∃ r, step q.1 q.2 = .ok r) →
      ∃ r, eachSequence step owned = .ok r := by
  intro owned
  induction owned with
  | nil => exact fun _ => ⟨_, rfl⟩
  | cons q owned ih =>
    intro h
    obtain ⟨⟨seq', log⟩, hstep⟩ := h q List.mem_cons_self
    obtain ⟨⟨owned', log'⟩, hrest⟩ := ih fun p hp => h p (List.mem_cons_of_mem _ hp)
    exact ⟨((q.1, seq') :: owned', log ++ log'), by rw [eachSequence, hstep]; simp only [hrest]⟩

end Each

/-! ### The shares -/

section Shares

variable (M : Target Row κ σ) (cfg : RuntimeConfig) (io : StepOracle) (id : RequestId)

/-- One sequence's tokens, as long as it stays active. -/
def decodeAlone : ℕ → ℕ → Rounded κ σ → Except RuntimeError (Rounded κ σ × StepLog)
  | 0, _, seq => .ok (seq, StepLog.empty)
  | fuel + 1, round, seq =>
    match decodeActive M cfg io round id seq with
    | .error e => .error e
    | .ok (seq, log) =>
      match decodeAlone fuel (round + 1) seq with
      | .error e => .error e
      | .ok (seq, log') => .ok (seq, log ++ log')

/-- What one sequence does on the path a step takes. -/
def DecodePath (verified : Bool) (seq seq' : RuntimeSequence κ σ) (log : StepLog) : Prop :=
  if verified then verifySequence M cfg io id seq = .ok (seq', log)
  else ∃ fuel, seq.draft.length ≤ fuel ∧
    decodeAlone M cfg io id (fuel + 1) 0 (seq, true) = .ok ((seq', false), log)

/-- What one sequence does in the decode half of a step. -/
def DecodeShare (seq seq' : RuntimeSequence κ σ) (log : StepLog) : Prop :=
  verifySequence M cfg io id seq = .ok (seq', log) ∨
    ∃ fuel, seq.draft.length ≤ fuel ∧
      decodeAlone M cfg io id (fuel + 1) 0 (seq, true) = .ok ((seq', false), log)

end Shares

section Batch

variable {M : Target Row κ σ} {cfg : RuntimeConfig} {io : StepOracle}

theorem decodeToken_about {id : RequestId} {round : ℕ} {seq : RuntimeSequence κ σ}
    {r : Rounded κ σ} {log : StepLog} (h : decodeToken M cfg io round id seq = .ok (r, log)) :
    log.About id := by
  rw [decodeToken] at h
  split at h
  · cases h
  · simp only at h
    split at h
    · simp only [Except.ok.injEq, Prod.mk.injEq] at h
      obtain ⟨-, rfl⟩ := h
      simp [StepLog.About, StepLog.only, List.filter_map, Function.comp_def]
    · simp only [Except.ok.injEq, Prod.mk.injEq] at h
      obtain ⟨-, rfl⟩ := h
      simp [StepLog.About, StepLog.only, List.filter_map, Function.comp_def]

theorem decodeActive_about {round : ℕ} {id : RequestId} {seq r : Rounded κ σ} {log : StepLog}
    (h : decodeActive M cfg io round id seq = .ok (r, log)) : log.About id := by
  rw [decodeActive] at h
  split at h
  · exact decodeToken_about h
  · simp only [Except.ok.injEq, Prod.mk.injEq] at h
    exact h.2 ▸ StepLog.about_empty

theorem eq_of_mem_ite {b : Bool} {a id : RequestId} (h : a ∈ if b = true then [id] else []) :
    a = id := by
  cases b with
  | false => cases h
  | true => simpa using h

theorem verifySequence_about {id : RequestId} {seq seq' : RuntimeSequence κ σ} {log : StepLog}
    (h : verifySequence M cfg io id seq = .ok (seq', log)) : log.About id := by
  rw [verifySequence] at h
  split at h
  · cases h
  · simp only [Except.ok.injEq, Prod.mk.injEq] at h
    obtain ⟨-, rfl⟩ := h
    simp only [StepLog.About, StepLog.only, StepLog.mk.injEq, List.filter_eq_self]
    exact ⟨by simp, by simp, fun a ha => decide_eq_true (eq_of_mem_ite ha), by simp⟩

/-- A token keeps the sequence active only if it is the draft's. -/
theorem decodeToken_active {id : RequestId} {round : ℕ} {seq : RuntimeSequence κ σ}
    {r : Rounded κ σ} {log : StepLog} (h : decodeToken M cfg io round id seq = .ok (r, log)) :
    r.1.draft = seq.draft ∧ r.1.nextToken.isSome ∧ (r.2 = true → round < seq.draft.length) := by
  rw [decodeToken] at h
  split at h
  · cases h
  · simp only at h
    split at h
    · simp only [Except.ok.injEq, Prod.mk.injEq] at h
      obtain ⟨rfl, -⟩ := h
      exact ⟨by simp only [retain_draft], rfl, fun hact => by cases hact⟩
    · simp only [Except.ok.injEq, Prod.mk.injEq] at h
      obtain ⟨rfl, -⟩ := h
      refine ⟨by simp only [retain_draft], rfl, fun hact => ?_⟩
      rw [Bool.and_eq_true, beq_iff_eq, retain_draft] at hact
      exact (List.getElem?_eq_some_iff.mp hact.2).1

theorem decodeToken_ok {id : RequestId} {round : ℕ} {seq : RuntimeSequence κ σ}
    (h : seq.nextToken.isSome) : ∃ r, decodeToken M cfg io round id seq = .ok r := by
  obtain ⟨t, ht⟩ := Option.isSome_iff_exists.mp h
  rw [decodeToken, ht]
  simp only
  split
  · exact ⟨_, rfl⟩
  · exact ⟨_, rfl⟩

theorem decodeActive_pending {round : ℕ} {id : RequestId} {seq r : Rounded κ σ} {log : StepLog}
    (hpending : seq.1.nextToken.isSome) (h : decodeActive M cfg io round id seq = .ok (r, log)) :
    r.1.nextToken.isSome := by
  rw [decodeActive] at h
  split at h
  · exact (decodeToken_active h).2.1
  · simp only [Except.ok.injEq, Prod.mk.injEq] at h
    exact h.1 ▸ hpending

theorem verifySequence_ok {id : RequestId} {seq : RuntimeSequence κ σ}
    (h : seq.nextToken.isSome) : ∃ r, verifySequence M cfg io id seq = .ok r := by
  obtain ⟨t, ht⟩ := Option.isSome_iff_exists.mp h
  rw [verifySequence, ht]
  exact ⟨_, rfl⟩

theorem decodeAlone_inactive {id : RequestId} (seq : RuntimeSequence κ σ) :
    ∀ fuel round, decodeAlone M cfg io id fuel round (seq, false)
      = .ok ((seq, false), StepLog.empty) := by
  intro fuel
  induction fuel with
  | zero => exact fun _ => rfl
  | succ fuel ih =>
    intro round
    simp only [decodeAlone, decodeActive, Bool.false_eq_true, if_false, ih,
      StepLog.append_empty]

theorem decodeAlone_draft {id : RequestId} :
    ∀ {fuel round : ℕ} {seq r : Rounded κ σ} {log : StepLog},
      decodeAlone M cfg io id fuel round seq = .ok (r, log) →
      seq.1.draft.length < round + fuel → (seq.2 = true → round ≤ seq.1.draft.length) →
      r.2 = false := by
  intro fuel
  induction fuel with
  | zero =>
    intro round seq r log h hlt hle
    simp only [decodeAlone, Except.ok.injEq, Prod.mk.injEq] at h
    rw [← h.1, ← Bool.not_eq_true]
    intro hact
    have := hle hact
    omega
  | succ fuel ih =>
    intro round seq r log h hlt hle
    obtain ⟨seq, active⟩ := seq
    cases active with
    | false =>
      rw [decodeAlone_inactive] at h
      simp only [Except.ok.injEq, Prod.mk.injEq] at h
      rw [← h.1]
    | true =>
      rw [decodeAlone] at h
      simp only [decodeActive, if_true] at h
      rcases htoken : decodeToken M cfg io round id seq with e | ⟨seq₁, log₁⟩
      · rw [htoken] at h
        cases h
      · rw [htoken] at h
        simp only at h
        obtain ⟨hdraft, -, hact⟩ := decodeToken_active htoken
        rcases hrest : decodeAlone M cfg io id fuel (round + 1) seq₁ with e | ⟨seq₂, log₂⟩
        · rw [hrest] at h
          cases h
        · rw [hrest] at h
          simp only [Except.ok.injEq, Prod.mk.injEq] at h
          rw [← h.1]
          refine ih hrest (by rw [hdraft]; simp only at hlt; omega) fun hact' => ?_
          have := hact hact'
          rw [hdraft]
          omega

/-- The rounds of a batch are each sequence's own tokens. -/
theorem decodeRounds_spec :
    ∀ {fuel round : ℕ} {owned owned' : List (RequestId × Rounded κ σ)} {log : StepLog},
      (owned.map Prod.fst).Nodup →
      decodeRounds M cfg io fuel round owned = .ok (owned', log) →
      owned'.map Prod.fst = owned.map Prod.fst ∧
        (∀ q ∈ owned, ∃ r, (q.1, r) ∈ owned' ∧
          decodeAlone M cfg io q.1 fuel round q.2 = .ok (r, log.only q.1)) ∧
        ∀ id, id ∉ owned.map Prod.fst → log.only id = StepLog.empty := by
  intro fuel
  induction fuel with
  | zero =>
    intro round owned owned' log _ h
    simp only [decodeRounds, Except.ok.injEq, Prod.mk.injEq] at h
    obtain ⟨rfl, rfl⟩ := h
    exact ⟨rfl, fun q hq => ⟨q.2, hq, rfl⟩, fun _ _ => rfl⟩
  | succ fuel ih =>
    intro round owned owned' log hnodup h
    rw [decodeRounds] at h
    split at h
    -- some sequence is active: one round of all of them, then the rest
    · rcases hround : eachSequence (decodeActive M cfg io round) owned with e | ⟨owned₁, log₁⟩
      · rw [hround] at h
        cases h
      · rw [hround] at h
        simp only at h
        rcases hrest : decodeRounds M cfg io fuel (round + 1) owned₁ with e | ⟨owned₂, log₂⟩
        · rw [hrest] at h
          cases h
        · rw [hrest] at h
          simp only [Except.ok.injEq, Prod.mk.injEq] at h
          obtain ⟨rfl, rfl⟩ := h
          obtain ⟨hkeys₁, hmem₁, hout₁⟩ := eachSequence_spec decodeActive_about hnodup hround
          obtain ⟨hkeys₂, hmem₂, hout₂⟩ := ih (hkeys₁ ▸ hnodup) hrest
          refine ⟨hkeys₂.trans hkeys₁, fun q hq => ?_, fun id hid => ?_⟩
          -- what a sequence does in the batch is its own round and its own rest
          · obtain ⟨r₁, hr₁, hstep⟩ := hmem₁ q hq
            obtain ⟨r₂, hr₂, halone⟩ := hmem₂ _ hr₁
            refine ⟨r₂, hr₂, ?_⟩
            rw [decodeAlone, hstep]
            simp only [halone, StepLog.only_append]
          · rw [StepLog.only_append, hout₁ id hid, hout₂ id (hkeys₁ ▸ hid),
              StepLog.append_empty]
    -- nobody is active, and an inactive sequence does nothing alone either
    · rename_i hidle
      simp only [Except.ok.injEq, Prod.mk.injEq] at h
      obtain ⟨rfl, rfl⟩ := h
      refine ⟨rfl, fun q hq => ⟨q.2, hq, ?_⟩, fun _ _ => rfl⟩
      obtain ⟨id, seq, active⟩ := q
      have hactive : active = false := by
        rw [← Bool.not_eq_true]
        intro hact
        exact hidle (List.any_eq_true.mpr ⟨_, hq, hact⟩)
      rw [hactive, decodeAlone_inactive]
      rfl

theorem decodeRounds_ok :
    ∀ {fuel round : ℕ} {owned : List (RequestId × Rounded κ σ)}, (owned.map Prod.fst).Nodup →
      (∀ q ∈ owned, q.2.1.nextToken.isSome) →
      ∃ r, decodeRounds M cfg io fuel round owned = .ok r := by
  intro fuel
  induction fuel with
  | zero => exact fun _ _ => ⟨_, rfl⟩
  | succ fuel ih =>
    intro round owned hnodup hpending
    rw [decodeRounds]
    split
    · obtain ⟨⟨owned', log⟩, hround⟩ := @eachSequence_ok _ (decodeActive M cfg io round)
        owned fun q hq => by
          rw [decodeActive]
          split
          · exact decodeToken_ok (hpending q hq)
          · exact ⟨_, rfl⟩
      rw [hround]
      simp only
      obtain ⟨hkeys, hmem, -⟩ := eachSequence_spec decodeActive_about hnodup hround
      obtain ⟨r, hr⟩ := @ih (round + 1) owned' (hkeys ▸ hnodup) fun q hq => by
        have hkey : q.1 ∈ owned.map Prod.fst := hkeys ▸ List.mem_map_of_mem hq
        obtain ⟨p, hp, hpq⟩ := List.mem_map.mp hkey
        obtain ⟨r, hr, hstep⟩ := hmem p hp
        have hsame : (p.1, r) = q :=
          List.inj_on_of_nodup_map (hkeys ▸ hnodup) hr hq hpq
        rw [← hsame]
        exact decodeActive_pending (hpending p hp) hstep
      rw [hr]
      exact ⟨_, rfl⟩
    · exact ⟨_, rfl⟩

theorem le_longestDraft {owned : Owned κ σ} {q : RequestId × RuntimeSequence κ σ}
    (h : q ∈ owned) : q.2.draft.length ≤ longestDraft owned := by
  rw [longestDraft]
  induction owned with
  | nil => cases h
  | cons p owned ih =>
    rw [List.map_cons, List.foldr_cons]
    rcases List.mem_cons.mp h with rfl | h
    · exact le_max_left _ _
    · exact le_trans (ih h) (le_max_right _ _)

/-- The rounds end because nobody is active. -/
theorem decodeRounds_idle {owned : Owned κ σ} {owned' : List (RequestId × Rounded κ σ)}
    {log : StepLog} (hnodup : (owned.map Prod.fst).Nodup)
    (h : decodeRounds M cfg io (longestDraft owned + 1) 0 (owned.map fun q => (q.1, q.2, true))
      = .ok (owned', log)) :
    owned'.map Prod.fst = owned.map Prod.fst ∧
      (∀ q ∈ owned, ∃ seq', (q.1, seq', false) ∈ owned' ∧
        decodeAlone M cfg io q.1 (longestDraft owned + 1) 0 (q.2, true)
          = .ok ((seq', false), log.only q.1)) ∧
      ∀ id, id ∉ owned.map Prod.fst → log.only id = StepLog.empty := by
  have hfst : (owned.map fun q => (q.1, q.2, true)).map Prod.fst = owned.map Prod.fst := by
    rw [List.map_map]
    rfl
  obtain ⟨hkeys, hmem, hout⟩ := decodeRounds_spec (hfst ▸ hnodup) h
  rw [hfst] at hkeys hout
  refine ⟨hkeys, fun q hq => ?_, hout⟩
  obtain ⟨⟨seq', active⟩, hr, halone⟩ := hmem (q.1, q.2, true)
    (List.mem_map.mpr ⟨q, hq, rfl⟩)
  have hidle : active = false := decodeAlone_draft halone
    (by have := le_longestDraft hq; simp only; omega) fun _ => Nat.zero_le _
  exact ⟨seq', hidle ▸ hr, hidle ▸ halone⟩

theorem DecodePath.share {verified : Bool} {id : RequestId} {seq seq' : RuntimeSequence κ σ}
    {log : StepLog} (h : DecodePath M cfg io id verified seq seq' log) :
    DecodeShare M cfg io id seq seq' log := by
  cases verified with
  | true => exact Or.inl h
  | false => exact Or.inr h

/-- The decode half of a step is each scheduled sequence's own part of one path,
which is the verify pass if it was built and a scheduled sequence drafts. -/
theorem executeDecodes_on {decodes : List RequestId} {seqs seqs' : Sequences κ σ} {log : StepLog}
    (h : executeDecodes M cfg io decodes seqs = .ok (seqs', log)) :
    decodes.Nodup ∧ decodes.length ≤ cfg.maxBatch ∧ ∃ verified : Bool,
      (cfg.verifyBuilt decodes.length = true → ∀ id ∈ decodes, ∀ seq, seqs.lookup id = some seq →
        seq.drafting = true → verified = true) ∧
      (∀ id ∈ decodes, ∃ seq seq', seqs.lookup id = some seq ∧ seqs'.lookup id = some seq' ∧
        DecodePath M cfg io id verified (seq.withDraft cfg (io.proposals id)) seq'
          (log.only id)) ∧
      ∀ id, id ∉ decodes → seqs'.lookup id = seqs.lookup id ∧ log.only id = StepLog.empty := by
  rw [executeDecodes] at h
  split at h
  · rename_i hnone
    simp only [Except.ok.injEq, Prod.mk.injEq] at h
    obtain ⟨rfl, rfl⟩ := h
    subst hnone
    exact ⟨List.nodup_nil, Nat.zero_le _, true, fun _ _ _ _ _ _ => rfl, by simp,
      fun _ _ => ⟨rfl, rfl⟩⟩
  · split at h
    · cases h
    · rename_i hwide
      rcases htake : takeSequences decodes seqs with e | ⟨owned, rest⟩
      · rw [htake] at h
        cases h
      · rw [htake] at h
        simp only at h
        obtain ⟨hnodup, hids, hlook, hrest⟩ := takeSequences_spec htake
        set drafted := owned.map fun q => (q.1, q.2.withDraft cfg (io.proposals q.1))
          with hdrafted
        have hfst : drafted.map Prod.fst = decodes := by
          rw [hdrafted, List.map_map, ← hids]
          rfl
        have hentry : ∀ id ∈ decodes, ∃ seq, seqs.lookup id = some seq ∧
            (id, seq.withDraft cfg (io.proposals id)) ∈ drafted := by
          intro id hid
          rw [← hids] at hid
          obtain ⟨q, hq, rfl⟩ := List.mem_map.mp hid
          exact ⟨q.2, hlook q hq, List.mem_map.mpr ⟨q, hq, rfl⟩⟩
        -- what either path leaves behind, once it is put back
        have hput : ∀ {after : Owned κ σ} {verified : Bool}, after.map Prod.fst = decodes →
            (∀ q ∈ drafted, ∃ seq', (q.1, seq') ∈ after ∧
              DecodePath M cfg io q.1 verified q.2 seq' (log.only q.1)) →
            (∀ id, id ∉ decodes → log.only id = StepLog.empty) →
            putSequences after rest = seqs' →
            (∀ id ∈ decodes, ∃ seq seq', seqs.lookup id = some seq ∧
              seqs'.lookup id = some seq' ∧
              DecodePath M cfg io id verified (seq.withDraft cfg (io.proposals id)) seq'
                (log.only id)) ∧
            ∀ id, id ∉ decodes →
              seqs'.lookup id = seqs.lookup id ∧ log.only id = StepLog.empty := by
          rintro after verified hkeys hmem hout rfl
          obtain ⟨hback, hothers⟩ := @putSequences_spec _ _ after rest (hkeys ▸ hnodup)
          refine ⟨fun id hid => ?_, fun id hid => ?_⟩
          · obtain ⟨seq, hseq, hin⟩ := hentry id hid
            obtain ⟨seq', hin', hpath⟩ := hmem _ hin
            exact ⟨seq, seq', hseq, hback _ hin', hpath⟩
          · exact ⟨(hothers id (hkeys ▸ hid)).trans (hrest id hid), hout id hid⟩
        refine ⟨hnodup, Nat.not_lt.mp hwide, ?_⟩
        -- the verify pass
        split at h
        · rcases hverify : verifyDecodeStep M cfg io drafted with e | ⟨after, log'⟩
          · rw [hverify] at h
            cases h
          · rw [hverify] at h
            simp only [Except.ok.injEq, Prod.mk.injEq] at h
            obtain ⟨hseqs, rfl⟩ := h
            obtain ⟨hkeys, hmem, hout⟩ :=
              eachSequence_spec verifySequence_about (hfst ▸ hnodup) hverify
            exact ⟨true, fun _ _ _ _ _ _ => rfl,
              hput (hkeys.trans hfst) (fun q hq => hmem q hq) (hfst ▸ hout) hseqs⟩
        -- token by token, which is idle for a sequence that finished in an earlier round
        · rename_i hplain
          rcases hrounds : decodeRounds M cfg io (longestDraft drafted + 1) 0
            (drafted.map fun q => (q.1, q.2, true)) with e | ⟨after, log'⟩
          · rw [hrounds] at h
            cases h
          · rw [hrounds] at h
            simp only [Except.ok.injEq, Prod.mk.injEq] at h
            obtain ⟨hseqs, rfl⟩ := h
            obtain ⟨hkeys, hmem, hout⟩ := decodeRounds_idle (hfst ▸ hnodup) hrounds
            refine ⟨false, fun hbuilt id hid seq hseq hdrafting => ?_,
              hput ?_ (fun q hq => ?_) (hfst ▸ hout) hseqs⟩
            -- a sequence that drafts, with a pass built for this width, would have chosen the
            -- other path
            · obtain ⟨seq', hseq', hin⟩ := hentry id hid
              obtain rfl : seq = seq' := Option.some.inj (hseq.symm.trans hseq')
              refine absurd ?_ hplain
              rw [verifies, Bool.and_eq_true]
              refine ⟨?_, List.any_eq_true.mpr ⟨_, hin, ?_⟩⟩
              · rw [← List.length_map (f := Prod.fst), hfst, hbuilt]
              · show (_ || seq.drafting) = true
                rw [hdrafting, Bool.or_true]
            · rw [List.map_map]
              exact hkeys.trans hfst
            · obtain ⟨seq', hin, hok⟩ := hmem q hq
              exact ⟨seq', List.mem_map.mpr ⟨_, hin, rfl⟩, _, le_longestDraft hq, hok⟩

/-- The decode half of a step is each scheduled sequence's own share. -/
theorem executeDecodes_spec {decodes : List RequestId} {seqs seqs' : Sequences κ σ} {log : StepLog}
    (h : executeDecodes M cfg io decodes seqs = .ok (seqs', log)) :
    decodes.Nodup ∧ decodes.length ≤ cfg.maxBatch ∧
      (∀ id ∈ decodes, ∃ seq seq', seqs.lookup id = some seq ∧ seqs'.lookup id = some seq' ∧
        DecodeShare M cfg io id (seq.withDraft cfg (io.proposals id)) seq' (log.only id)) ∧
      ∀ id, id ∉ decodes → seqs'.lookup id = seqs.lookup id ∧ log.only id = StepLog.empty := by
  obtain ⟨hnodup, hwide, verified, -, hin, hout⟩ := executeDecodes_on h
  refine ⟨hnodup, hwide, fun id hid => ?_, hout⟩
  obtain ⟨seq, seq', hseq, hseq', hpath⟩ := hin id hid
  exact ⟨seq, seq', hseq, hseq', hpath.share⟩

/-- A batch of distinct resident sequences with pending tokens never fails. -/
theorem executeDecodes_ok {decodes : List RequestId} {seqs : Sequences κ σ}
    (hnodup : decodes.Nodup) (hwide : decodes.length ≤ cfg.maxBatch)
    (hres : ∀ id ∈ decodes, ∃ seq, seqs.lookup id = some seq ∧ seq.nextToken.isSome) :
    ∃ r, executeDecodes M cfg io decodes seqs = .ok r := by
  rw [executeDecodes]
  split
  · exact ⟨_, rfl⟩
  · rw [if_neg (Nat.not_lt.mpr hwide)]
    obtain ⟨⟨owned, rest⟩, htake⟩ := @takeSequences_ok κ σ decodes seqs hnodup fun id hid => by
      obtain ⟨seq, hseq, -⟩ := hres id hid
      rw [hseq]
      rfl
    rw [htake]
    simp only
    obtain ⟨-, hids, hlook, -⟩ := takeSequences_spec htake
    set drafted := owned.map fun q => (q.1, q.2.withDraft cfg (io.proposals q.1)) with hdrafted
    have hfst : drafted.map Prod.fst = decodes := by
      rw [hdrafted, List.map_map, ← hids]
      rfl
    have hpending : ∀ q ∈ drafted, q.2.nextToken.isSome := by
      intro q hq
      obtain ⟨p, hp, rfl⟩ := List.mem_map.mp hq
      obtain ⟨seq, hseq, hsome⟩ := hres p.1 (hids ▸ List.mem_map_of_mem hp)
      rw [hlook p hp] at hseq
      cases hseq
      exact hsome
    split
    · obtain ⟨r, hr⟩ := eachSequence_ok fun q hq =>
        @verifySequence_ok _ _ _ M cfg io q.1 q.2 (hpending q hq)
      rw [verifyDecodeStep, hr]
      exact ⟨_, rfl⟩
    · have hfst' : (drafted.map fun q => (q.1, q.2, true)).map Prod.fst = decodes := by
        rw [List.map_map]
        exact hfst
      obtain ⟨r, hr⟩ := @decodeRounds_ok _ _ _ M cfg io (longestDraft drafted + 1) 0
        (drafted.map fun q => (q.1, q.2, true)) (hfst' ▸ hnodup) fun q hq => by
          obtain ⟨p, hp, rfl⟩ := List.mem_map.mp hq
          exact hpending p hp
      rw [hr]
      exact ⟨_, rfl⟩

end Batch
