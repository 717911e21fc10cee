/-
What a step does to the counters of one sequence.

* `DecodeShare.progress`: a decode share that leaves the sequence unfinished
  has consumed as many inputs as it has emitted tokens, and at least one;
* `prefillSequence_progress`: a prefill consumes its grant, and emits the
  first token exactly when it reaches the end of the prompt.

Both say where the step has written to the cache (`WritesBelow`).  `Emits`
says what either adds to the tokens emitted: those its log reports, unless the
end of the turn was met.
-/
import Llmxabe.Runtime.Prefill
import Llmxabe.Runtime.Speculation

variable {Row κ σ : Type}

/-- What admission fixes of a sequence. -/
structure Framed (seq seq' : RuntimeSequence κ σ) : Prop where
  prompt : seq'.prompt = seq.prompt
  capacity : seq'.capacity = seq.capacity
  maxOutput : seq'.maxOutput = seq.maxOutput
  images : seq'.images = seq.images

theorem Framed.refl (seq : RuntimeSequence κ σ) : Framed seq seq := ⟨rfl, rfl, rfl, rfl⟩

theorem Framed.trans {a b c : RuntimeSequence κ σ} (h : Framed a b) (h' : Framed b c) :
    Framed a c :=
  ⟨h'.prompt.trans h.prompt, h'.capacity.trans h.capacity, h'.maxOutput.trans h.maxOutput,
    h'.images.trans h.images⟩

/-- Every cache row written lies below `bound`. -/
def StepLog.WritesBelow (log : StepLog) (bound : ℕ) : Prop :=
  ∀ w ∈ log.writes, w.2.1 + w.2.2 ≤ bound

namespace StepLog

variable {l l' : StepLog} {bound bound' : ℕ}

theorem writesBelow_empty : empty.WritesBelow bound := fun _ h => absurd h List.not_mem_nil

theorem WritesBelow.append (h : l.WritesBelow bound) (h' : l'.WritesBelow bound) :
    (l ++ l').WritesBelow bound := fun w hw => by
  rcases List.mem_append.mp (show w ∈ l.writes ++ l'.writes from hw) with hw | hw
  · exact h w hw
  · exact h' w hw

theorem WritesBelow.mono (h : l.WritesBelow bound) (hle : bound ≤ bound') :
    l.WritesBelow bound' := fun w hw => (h w hw).trans hle

end StepLog

section Decode

variable {M : Target Row κ σ} {cfg : RuntimeConfig} {io : StepOracle} {id : RequestId}

theorem decodeToken_progress {round : ℕ} {seq : RuntimeSequence κ σ} {r : Rounded κ σ}
    {log : StepLog} (h : decodeToken M cfg io round id seq = .ok (r, log)) :
    Framed seq r.1 ∧ r.1.prefilled = seq.prefilled ∧ r.1.position = seq.position + 1 ∧
      (r.2 = true → r.1.emitted = seq.emitted + 1 ∧ ¬r.1.finished) ∧
      log.WritesBelow (seq.position + 1) := by
  rw [decodeToken] at h
  split at h
  · cases h
  · simp only at h
    split at h
    · simp only [Except.ok.injEq, Prod.mk.injEq] at h
      obtain ⟨rfl, rfl⟩ := h
      refine ⟨⟨?_, ?_, ?_, ?_⟩, ?_, ?_, fun hact => absurd hact Bool.false_ne_true, ?_⟩
      · simp only [retain_prompt]
      · simp only [retain_capacity]
      · simp only [retain_maxOutput]
      · simp only [retain_images]
      · simp only [retain_prefilled]
      · simp only [RuntimeSequence.position, retain_history, List.length_append,
          List.length_singleton]
      · intro w hw
        rw [List.mem_singleton.mp hw]
    · simp only [Except.ok.injEq, Prod.mk.injEq] at h
      obtain ⟨rfl, rfl⟩ := h
      refine ⟨⟨?_, ?_, ?_, ?_⟩, ?_, ?_, fun hact => ⟨?_, ?_⟩, ?_⟩
      · simp only [retain_prompt]
      · simp only [retain_capacity]
      · simp only [retain_maxOutput]
      · simp only [retain_images]
      · simp only [retain_prefilled]
      · simp only [RuntimeSequence.position, retain_history, List.length_append,
          List.length_singleton]
      · simp only [retain_emitted]
      · rw [Bool.and_eq_true, decide_eq_true_iff] at hact
        exact Nat.not_le.mpr hact.1
      · intro w hw
        rw [List.mem_singleton.mp hw]

theorem decodeAlone_progress :
    ∀ {fuel round : ℕ} {seq r : Rounded κ σ} {log : StepLog},
      decodeAlone M cfg io id fuel round seq = .ok (r, log) →
      (seq.2 = true → seq.1.nextToken.isSome ∧ ¬seq.1.finished) →
      Framed seq.1 r.1 ∧ r.1.prefilled = seq.1.prefilled ∧
        log.WritesBelow (seq.1.position + (seq.1.maxOutput - seq.1.emitted)) := by
  intro fuel
  induction fuel with
  | zero =>
    intro round seq r log h _
    simp only [decodeAlone, Except.ok.injEq, Prod.mk.injEq] at h
    obtain ⟨rfl, rfl⟩ := h
    exact ⟨Framed.refl _, rfl, StepLog.writesBelow_empty⟩
  | succ fuel ih =>
    intro round seq r log h hlive
    obtain ⟨seq, active⟩ := seq
    cases active with
    | false =>
      rw [decodeAlone_inactive] at h
      simp only [Except.ok.injEq, Prod.mk.injEq] at h
      obtain ⟨rfl, rfl⟩ := h
      exact ⟨Framed.refl _, rfl, StepLog.writesBelow_empty⟩
    | true =>
      obtain ⟨hpending, hopen⟩ := hlive rfl
      rw [decodeAlone] at h
      simp only [decodeActive, if_true] at h
      rcases htoken : decodeToken M cfg io round id seq with e | ⟨seq₁, log₁⟩
      · rw [htoken] at h
        cases h
      · rw [htoken] at h
        simp only at h
        rcases hrest : decodeAlone M cfg io id fuel (round + 1) seq₁ with e | ⟨seq₂, log₂⟩
        · rw [hrest] at h
          cases h
        · rw [hrest] at h
          simp only [Except.ok.injEq, Prod.mk.injEq] at h
          obtain ⟨rfl, rfl⟩ := h
          obtain ⟨hframe, hprefilled, hposition, hemitted, hwrites⟩ := decodeToken_progress htoken
          obtain ⟨-, hsome, -⟩ := decodeToken_active htoken
          obtain ⟨hframe', hprefilled', hwrites'⟩ := ih hrest fun hact => ⟨hsome, (hemitted hact).2⟩
          have hroom : seq.emitted < seq.maxOutput := Nat.not_le.mp hopen
          refine ⟨hframe.trans hframe', hprefilled'.trans hprefilled, ?_⟩
          show (log₁ ++ log₂).WritesBelow (seq.position + (seq.maxOutput - seq.emitted))
          refine (hwrites.mono (by omega)).append ?_
          obtain ⟨seq₁, active⟩ := seq₁
          cases active with
          -- it stopped after this token, so the rest writes nothing
          | false =>
            rw [decodeAlone_inactive] at hrest
            simp only [Except.ok.injEq, Prod.mk.injEq] at hrest
            rw [← hrest.2]
            exact StepLog.writesBelow_empty
          -- it goes on, with one token less of its budget
          | true =>
            obtain ⟨hone, -⟩ := hemitted rfl
            refine hwrites'.mono ?_
            rw [hposition, hone, hframe.maxOutput]
            omega

theorem verifySequence_progress {seq seq' : RuntimeSequence κ σ} {log : StepLog}
    (h : verifySequence M cfg io id seq = .ok (seq', log)) :
    Framed seq seq' ∧ seq'.prefilled = seq.prefilled ∧
      log.WritesBelow (seq.position + cfg.window) := by
  rw [verifySequence] at h
  split at h
  · cases h
  · simp only [Except.ok.injEq, Prod.mk.injEq] at h
    obtain ⟨rfl, rfl⟩ := h
    refine ⟨⟨?_, ?_, ?_, ?_⟩, ?_, ?_⟩
    · simp only [retain_prompt]
    · simp only [retain_capacity]
    · simp only [retain_maxOutput]
    · simp only [retain_images]
    · simp only [retain_prefilled]
    · intro w hw
      rw [List.mem_singleton.mp hw]

/-- A decode share that leaves the sequence unfinished has consumed as many
inputs as it has emitted tokens, and at least one. -/
theorem DecodeShare.progress {seq seq' : RuntimeSequence κ σ} {log : StepLog}
    (hpending : seq.nextToken.isSome) (hopen : ¬seq.finished)
    (hwindow : (io.proposals id).length ≤ cfg.window - 1)
    (hshare : DecodeShare M cfg io id (seq.withDraft cfg (io.proposals id)) seq' log) :
    Framed seq seq' ∧ seq'.prefilled = seq.prefilled ∧
      (¬seq'.finished → ∃ n, (log.tokens id).length = n + 1 ∧
        seq'.emitted = seq.emitted + (n + 1) ∧ seq'.position = seq.position + (n + 1) ∧
        seq'.nextToken.isSome) ∧
      log.WritesBelow (seq.position + (seq.maxOutput - seq.emitted) + (cfg.window - 1)) := by
  obtain ⟨pending, hpend⟩ := Option.isSome_iff_exists.mp hpending
  have hfollows : Follows (Decoding.start seq pending) seq [] :=
    ⟨rfl, hpend, rfl, rfl, fun _ => rfl⟩
  have hroom : seq.emitted < seq.maxOutput := Nat.not_le.mp hopen
  obtain ⟨n, hn, hmax⟩ := hshare.follows hfollows hopen hwindow
  have hcount : ¬seq'.finished → ∃ n, (log.tokens id).length = n + 1 ∧
      seq'.emitted = seq.emitted + (n + 1) ∧ seq'.position = seq.position + (n + 1) ∧
      seq'.nextToken.isSome := by
    intro hopen'
    have hspent : ¬(plainRun M cfg.eosToken seq.maxOutput (n + 1)
        (Decoding.start seq pending)).Spent seq.maxOutput := by
      have hnot := hn.not_spent hopen'
      rwa [hmax] at hnot
    obtain ⟨hemitted, hhistory, houtput⟩ := plainRun_open _ _ hspent
    rw [hn.output, List.nil_append] at houtput
    rw [hn.emitted] at hemitted
    rw [hn.history] at hhistory
    exact ⟨n, houtput.trans (Nat.zero_add _), hemitted, hhistory, by rw [hn.pending]; rfl⟩
  rcases hshare with hok | ⟨fuel, -, hok⟩
  · obtain ⟨hframe, hprefilled, hwrites⟩ := verifySequence_progress hok
    refine ⟨⟨hframe.prompt, hframe.capacity, hframe.maxOutput, hframe.images⟩, hprefilled,
      hcount, hwrites.mono ?_⟩
    show seq.position + cfg.window ≤ _
    omega
  · obtain ⟨hframe, hprefilled, hwrites⟩ := decodeAlone_progress hok fun _ => ⟨hpending, hopen⟩
    refine ⟨⟨hframe.prompt, hframe.capacity, hframe.maxOutput, hframe.images⟩, hprefilled,
      hcount, hwrites.mono ?_⟩
    exact Nat.le_add_right (seq.position + (seq.maxOutput - seq.emitted)) _

end Decode

/-! ### Prefill -/

section Prefill

variable {M : Target Row κ σ} {cfg : RuntimeConfig} {io : StepOracle} {id : RequestId}

theorem choosePrefillWidth_pos {position remaining : ℕ} :
    0 < choosePrefillWidth cfg position remaining := by
  rw [choosePrefillWidth]
  split
  · exact cfg.prefillChunk_pos
  · split
    · rename_i hinterval
      exact hinterval.1
    · split
      · rename_i width hfind
        have hmem := List.mem_of_find?_eq_some hfind
        exact cfg.tailWidths_pos width (List.mem_reverse.mp hmem)
      · exact Nat.lt_of_lt_of_le Nat.one_pos (le_max_right _ _)

/-- A piece is no wider than the work left. -/
theorem choosePrefillWidth_le {position remaining : ℕ} (h : 0 < remaining) :
    choosePrefillWidth cfg position remaining ≤ remaining := by
  rw [choosePrefillWidth]
  split
  · rename_i hchunk
    exact hchunk.1
  · split
    · rename_i hinterval
      exact hinterval.2.1
    · split
      · rename_i width hfind
        have hwidth := List.find?_some hfind
        rw [decide_eq_true_iff] at hwidth
        exact hwidth.1
      · exact max_le ((min_le_left _ _).trans (min_le_left _ _)) h

/-- A piece does not cross a retention boundary. -/
theorem choosePrefillWidth_boundary {position remaining : ℕ} (hinterval : 0 < cfg.retentionInterval) :
    choosePrefillWidth cfg position remaining ≤ cfg.toBoundary position := by
  have hboundary : cfg.toBoundary position
      = cfg.retentionInterval - position % cfg.retentionInterval :=
    if_neg (Nat.ne_of_gt hinterval)
  have hpos : 0 < cfg.toBoundary position :=
    hboundary ▸ Nat.sub_pos_of_lt (Nat.mod_lt _ hinterval)
  rw [choosePrefillWidth]
  split
  · rename_i hchunk
    exact hchunk.2
  · split
    · rename_i hwhole
      rw [hboundary, hwhole.2.2, Nat.sub_zero]
    · split
      · rename_i width hfind
        have hwidth := List.find?_some hfind
        rw [decide_eq_true_iff] at hwidth
        exact hwidth.2
      · exact max_le ((min_le_left _ _).trans (min_le_right _ _)) hpos

theorem inputsFrom_length (images : List SequenceImage) :
    ∀ (index : ℕ) (tokens : List Token), (inputsFrom images index tokens).length = tokens.length := by
  intro index tokens
  induction tokens generalizing index with
  | nil => rfl
  | cons token tokens ih => rw [inputsFrom, List.length_cons, ih, List.length_cons]

theorem inputsFrom_append (images : List SequenceImage) :
    ∀ (index : ℕ) (ts us : List Token), inputsFrom images index (ts ++ us)
      = inputsFrom images index ts ++ inputsFrom images (index + ts.length) us := by
  intro index ts
  induction ts generalizing index with
  | nil => exact fun _ => rfl
  | cons t ts ih =>
    intro us
    rw [List.cons_append, inputsFrom, ih, inputsFrom, List.length_cons, List.cons_append,
      Nat.add_right_comm, Nat.add_assoc]

theorem prefillPiece_history {granted : Bool} {piece : List Token} {seq : RuntimeSequence κ σ} :
    (prefillPiece M cfg granted piece seq).1.history
      = seq.history ++ inputsFrom seq.images seq.position piece := by
  rw [prefillPiece]
  simp only
  split
  · split
    · rw [retain_history]
    · rw [retain_history]
  · rfl

theorem prefillPiece_framed {granted : Bool} {piece : List Token} {seq : RuntimeSequence κ σ} :
    Framed seq (prefillPiece M cfg granted piece seq).1 ∧
      (prefillPiece M cfg granted piece seq).1.prefilled = seq.prefilled ∧
      (prefillPiece M cfg granted piece seq).1.emitted = seq.emitted := by
  rw [prefillPiece]
  simp only
  split
  · split
    · exact ⟨⟨retain_prompt .., retain_capacity .., retain_maxOutput .., retain_images ..⟩,
        retain_prefilled .., retain_emitted ..⟩
    · exact ⟨⟨retain_prompt .., retain_capacity .., retain_maxOutput .., retain_images ..⟩,
        retain_prefilled .., retain_emitted ..⟩
  · exact ⟨⟨rfl, rfl, rfl, rfl⟩, rfl, rfl⟩

theorem prefillPieces_progress :
    ∀ {fuel : ℕ} {work : List Token} {seq : RuntimeSequence κ σ}, work.length ≤ fuel →
      Framed seq (prefillPieces M cfg io id fuel work seq).1 ∧
        (prefillPieces M cfg io id fuel work seq).1.prefilled = seq.prefilled ∧
        (prefillPieces M cfg io id fuel work seq).1.emitted = seq.emitted ∧
        (prefillPieces M cfg io id fuel work seq).1.position = seq.position + work.length ∧
        (prefillPieces M cfg io id fuel work seq).2.tokens id = [] ∧
        (prefillPieces M cfg io id fuel work seq).2.About id ∧
        (prefillPieces M cfg io id fuel work seq).2.WritesBelow (seq.position + work.length) := by
  intro fuel
  induction fuel with
  | zero =>
    intro work seq hfuel
    have hnil : work = [] := List.length_eq_zero_iff.mp (Nat.le_zero.mp hfuel)
    subst hnil
    exact ⟨Framed.refl _, rfl, rfl, rfl, rfl, rfl, StepLog.writesBelow_empty⟩
  | succ fuel ih =>
    intro work seq hfuel
    rw [prefillPieces]
    split
    · rename_i hnil
      subst hnil
      exact ⟨Framed.refl _, rfl, rfl, rfl, rfl, rfl, StepLog.writesBelow_empty⟩
    · rename_i hne
      -- one piece: its width is at least one token and at most the work
      have hlen : 0 < work.length := List.length_pos_iff.mpr hne
      have hpos := @choosePrefillWidth_pos cfg seq.position work.length
      have hle := @choosePrefillWidth_le cfg seq.position work.length hlen
      simp only
      set width := choosePrefillWidth cfg seq.position work.length with hwidth
      set done := prefillPiece M cfg (io.arena id (seq.position + width)) (work.take width) seq
        with hdone
      have hdrop : (work.drop width).length = work.length - width := List.length_drop ..
      obtain ⟨hframe, hprefilled, hemitted, hposition, htokens, habout, hwrites⟩ :=
        @ih (work.drop width) done.1 (by omega)
      obtain ⟨hframe₀, hprefilled₀, hemitted₀⟩ :=
        @prefillPiece_framed _ _ _ M cfg (io.arena id (seq.position + width)) (work.take width) seq
      have hposition₀ : done.1.position = seq.position + width := by
        rw [RuntimeSequence.position, hdone, prefillPiece_history, List.length_append,
          inputsFrom_length, List.length_take, Nat.min_eq_left hle]
        rfl
      refine ⟨hframe₀.trans hframe, hprefilled.trans hprefilled₀, hemitted.trans hemitted₀, ?_,
        ?_, ?_, ?_⟩
      · rw [hposition, hposition₀, hdrop]
        omega
      · rw [StepLog.tokens_append, htokens]
        rfl
      -- the log is about this sequence alone
      · refine StepLog.about_append ?_ habout
        simp [StepLog.About, StepLog.only, List.filter_map, Function.comp_def]
      -- no row behind the end of the work is written
      · refine StepLog.WritesBelow.append (fun w hw => ?_) (hwrites.mono ?_)
        · rw [List.mem_singleton.mp hw]
          exact Nat.add_le_add_left hle _
        · rw [hposition₀, hdrop]
          omega

/-- A prefill consumes its grant, and emits the first token exactly when it
reaches the end of the prompt. -/
theorem prefillSequence_progress {tokens : ℕ} {seq seq' : RuntimeSequence κ σ} {log : StepLog}
    (h : prefillSequence M cfg io id tokens seq = .ok (seq', log)) :
    seq.prefilled + tokens ≤ seq.prompt.length ∧ Framed seq seq' ∧
      seq'.prefilled = seq.prefilled + tokens ∧ seq'.position = seq.position + tokens ∧
      (seq.prefilled + tokens < seq.prompt.length → seq'.emitted = seq.emitted) ∧
      (seq.prefilled + tokens = seq.prompt.length → ¬seq'.finished →
        seq'.emitted = seq.emitted + 1 ∧ seq'.nextToken.isSome) ∧
      log.About id ∧ log.WritesBelow (seq.position + tokens) := by
  rw [prefillSequence] at h
  simp only at h
  split at h
  · cases h
  · rename_i hgrant
    rw [not_lt] at hgrant
    have hwork : ((seq.prompt.drop seq.prefilled).take tokens).length = tokens := by
      rw [List.length_take, List.length_drop]
      omega
    obtain ⟨hframe, -, hemitted, hposition, -, habout, hwrites⟩ :=
      @prefillPieces_progress _ _ _ M cfg io id _ _ seq (le_refl
        ((seq.prompt.drop seq.prefilled).take tokens).length)
    rw [hwork] at hframe hemitted hposition habout hwrites h
    set pieces := prefillPieces M cfg io id tokens ((seq.prompt.drop seq.prefilled).take tokens)
      seq with hpieces
    refine ⟨hgrant, ?_⟩
    split at h
    · rename_i hlast
      have hend : seq.prefilled + tokens = seq.prompt.length := hframe.prompt ▸ hlast.1
      split at h
      · cases h
      · split at h
        -- the first token is the end token: the sequence is finished
        · simp only [Except.ok.injEq, Prod.mk.injEq] at h
          obtain ⟨rfl, rfl⟩ := h
          refine ⟨⟨hframe.prompt, hframe.capacity, hframe.maxOutput, hframe.images⟩, rfl,
            hposition, fun hlt => absurd hend (Nat.ne_of_lt hlt), fun _ hopen => ?_, ?_, ?_⟩
          · exact absurd (le_refl _) hopen
          · refine StepLog.about_append habout ?_
            simp [StepLog.About, StepLog.only]
          · exact hwrites.append fun w hw => absurd hw List.not_mem_nil
        -- it is an ordinary one, and is emitted
        · simp only [Except.ok.injEq, Prod.mk.injEq] at h
          obtain ⟨rfl, rfl⟩ := h
          refine ⟨⟨hframe.prompt, hframe.capacity, hframe.maxOutput, hframe.images⟩, rfl,
            hposition, fun hlt => absurd hend (Nat.ne_of_lt hlt), fun _ _ => ⟨?_, rfl⟩, ?_, ?_⟩
          · show pieces.1.emitted + 1 = _
            rw [hemitted]
          · refine StepLog.about_append habout ?_
            simp [StepLog.About, StepLog.only]
          · exact hwrites.append fun w hw => absurd hw List.not_mem_nil
    · rename_i hlast
      simp only [Except.ok.injEq, Prod.mk.injEq] at h
      obtain ⟨rfl, rfl⟩ := h
      refine ⟨⟨hframe.prompt, hframe.capacity, hframe.maxOutput, hframe.images⟩, rfl, hposition,
        fun _ => hemitted, fun hend hopen => ?_, habout, hwrites⟩
      -- nothing is drawn at the end of the prompt only without an output budget
      exfalso
      refine hlast ⟨hframe.prompt ▸ hend, ?_⟩
      exact lt_of_le_of_lt (Nat.zero_le _) (Nat.not_le.mp hopen)

end Prefill

/-! ### The tokens a log has of one sequence -/

/-- A sequence has emitted the tokens a log has of it, or it has met the end
of the turn and is finished. -/
structure Emits (id : RequestId) (seq seq' : RuntimeSequence κ σ) (log : StepLog) : Prop where
  maxOutput : seq'.maxOutput = seq.maxOutput
  stopped : id ∈ log.stopped → seq'.finished
  emitted : id ∉ log.stopped → seq'.emitted = seq.emitted + (log.tokens id).length

namespace Emits

variable {id : RequestId} {seq seq₁ seq₂ : RuntimeSequence κ σ} {log log' : StepLog}

theorem refl (id : RequestId) (seq : RuntimeSequence κ σ) : Emits id seq seq StepLog.empty :=
  ⟨rfl, fun h => absurd h List.not_mem_nil, fun _ => rfl⟩

/-- A finished sequence emits no less afterwards. -/
theorem append (h : Emits id seq seq₁ log) (h' : Emits id seq₁ seq₂ log') :
    Emits id seq seq₂ (log ++ log') := by
  have hstopped : id ∈ (log ++ log').stopped ↔ id ∈ log.stopped ∨ id ∈ log'.stopped :=
    List.mem_append
  refine ⟨h'.maxOutput.trans h.maxOutput, fun hstop => ?_, fun hstop => ?_⟩
  · by_cases hlater : id ∈ log'.stopped
    · exact h'.stopped hlater
    · have hfirst : seq₁.maxOutput ≤ seq₁.emitted :=
        h.stopped ((hstopped.mp hstop).resolve_right hlater)
      show seq₂.maxOutput ≤ seq₂.emitted
      rw [h'.emitted hlater, h'.maxOutput]
      exact hfirst.trans (Nat.le_add_right _ _)
  · rw [hstopped, not_or] at hstop
    rw [h'.emitted hstop.2, h.emitted hstop.1, StepLog.tokens_append, List.length_append,
      Nat.add_assoc]

/-- A sequence is finished once it has met the end of the turn or has emitted
its budget. -/
theorem finished_iff (h : Emits id seq seq₁ log) :
    seq₁.finished ↔ id ∈ log.stopped ∨ seq.maxOutput ≤ seq.emitted + (log.tokens id).length := by
  by_cases hstop : id ∈ log.stopped
  · exact ⟨fun _ => Or.inl hstop, fun _ => h.stopped hstop⟩
  · show seq₁.maxOutput ≤ seq₁.emitted ↔ _
    rw [h.emitted hstop, h.maxOutput]
    exact ⟨Or.inr, fun hor => hor.resolve_left hstop⟩

theorem of_only (h : Emits id seq seq₁ (log.only id)) : Emits id seq seq₁ log := by
  have hstopped : id ∈ (log.only id).stopped ↔ id ∈ log.stopped := by
    simp only [StepLog.only, List.mem_filter, decide_true, and_true]
  refine ⟨h.maxOutput, fun hstop => h.stopped (hstopped.mpr hstop), fun hstop => ?_⟩
  rw [h.emitted (mt hstopped.mp hstop), StepLog.tokens_only]

end Emits

section Emits

variable {M : Target Row κ σ} {cfg : RuntimeConfig} {io : StepOracle} {id : RequestId}

theorem decodeToken_emits {round : ℕ} {seq : RuntimeSequence κ σ} {r : Rounded κ σ}
    {log : StepLog} (h : decodeToken M cfg io round id seq = .ok (r, log)) :
    Emits id seq r.1 log := by
  rw [decodeToken] at h
  split at h
  · cases h
  · simp only at h
    split at h
    · simp only [Except.ok.injEq, Prod.mk.injEq] at h
      obtain ⟨rfl, rfl⟩ := h
      exact ⟨retain_maxOutput .., fun _ => le_refl _, fun hnot => absurd List.mem_cons_self hnot⟩
    · simp only [Except.ok.injEq, Prod.mk.injEq] at h
      obtain ⟨rfl, rfl⟩ := h
      refine ⟨retain_maxOutput .., fun hstop => absurd hstop List.not_mem_nil, fun _ => ?_⟩
      simp only [retain_emitted, StepLog.tokens, List.filter_cons, decide_true, if_true,
        List.filter_nil, List.map_cons, List.map_nil, List.length_singleton]

theorem decodeAlone_emits :
    ∀ {fuel round : ℕ} {seq r : Rounded κ σ} {log : StepLog},
      decodeAlone M cfg io id fuel round seq = .ok (r, log) → Emits id seq.1 r.1 log := by
  intro fuel
  induction fuel with
  | zero =>
    intro round seq r log h
    simp only [decodeAlone, Except.ok.injEq, Prod.mk.injEq] at h
    obtain ⟨rfl, rfl⟩ := h
    exact Emits.refl id seq.1
  | succ fuel ih =>
    intro round seq r log h
    obtain ⟨seq, active⟩ := seq
    cases active with
    | false =>
      rw [decodeAlone_inactive] at h
      simp only [Except.ok.injEq, Prod.mk.injEq] at h
      obtain ⟨rfl, rfl⟩ := h
      exact Emits.refl id seq
    | true =>
      rw [decodeAlone] at h
      simp only [decodeActive, if_true] at h
      rcases htoken : decodeToken M cfg io round id seq with e | ⟨seq₁, log₁⟩
      · rw [htoken] at h
        cases h
      · rw [htoken] at h
        simp only at h
        rcases hrest : decodeAlone M cfg io id fuel (round + 1) seq₁ with e | ⟨seq₂, log₂⟩
        · rw [hrest] at h
          cases h
        · rw [hrest] at h
          simp only [Except.ok.injEq, Prod.mk.injEq] at h
          obtain ⟨rfl, rfl⟩ := h
          exact (decodeToken_emits htoken).append (ih hrest)

theorem verifySequence_emits {seq seq' : RuntimeSequence κ σ} {log : StepLog}
    (h : verifySequence M cfg io id seq = .ok (seq', log)) : Emits id seq seq' log := by
  rw [verifySequence] at h
  split at h
  · cases h
  · simp only [Except.ok.injEq, Prod.mk.injEq] at h
    generalize truncateAtEos cfg.eosToken _ = truncated at h
    obtain ⟨rfl, rfl⟩ := h
    obtain ⟨emit, hitEos⟩ := truncated
    cases hitEos with
    | true =>
      -- an end of the turn uses up the whole budget
      exact ⟨retain_maxOutput .., fun _ => le_refl _, fun hnot => absurd List.mem_cons_self hnot⟩
    | false =>
      refine ⟨retain_maxOutput .., fun hstop => absurd hstop List.not_mem_nil, fun _ => ?_⟩
      simp [StepLog.tokens, List.filter_map, Function.comp_def]

theorem DecodeShare.emits {seq seq' : RuntimeSequence κ σ} {proposal : List Token}
    {log : StepLog} (hshare : DecodeShare M cfg io id (seq.withDraft cfg proposal) seq' log) :
    Emits id seq seq' log := by
  have hemits : Emits id (seq.withDraft cfg proposal) seq' log := by
    rcases hshare with hok | ⟨fuel, -, hok⟩
    · exact verifySequence_emits hok
    · exact decodeAlone_emits hok
  exact ⟨hemits.maxOutput, hemits.stopped, hemits.emitted⟩

theorem prefillPieces_emits :
    ∀ {fuel : ℕ} {work : List Token} {seq : RuntimeSequence κ σ},
      Emits id seq (prefillPieces M cfg io id fuel work seq).1
          (prefillPieces M cfg io id fuel work seq).2 ∧
        (prefillPieces M cfg io id fuel work seq).2.stopped = [] := by
  intro fuel
  induction fuel with
  | zero => exact fun {_ seq} => ⟨Emits.refl id seq, rfl⟩
  | succ fuel ih =>
    intro work seq
    rw [prefillPieces]
    split
    · exact ⟨Emits.refl id seq, rfl⟩
    · simp only
      set width := choosePrefillWidth cfg seq.position work.length
      obtain ⟨hframe, -, hemitted⟩ :=
        @prefillPiece_framed _ _ _ M cfg (io.arena id (seq.position + width)) (work.take width) seq
      set done := prefillPiece M cfg (io.arena id (seq.position + width)) (work.take width) seq
      obtain ⟨hrest, hsilent⟩ := @ih (work.drop width) done.1
      have hone : Emits id seq done.1
          ⟨[], done.2.map (id, ·), [], [(id, seq.position, width)]⟩ :=
        ⟨hframe.maxOutput, fun hstop => absurd hstop List.not_mem_nil, fun _ => hemitted⟩
      exact ⟨hone.append hrest, hsilent⟩

theorem prefillSequence_emits {tokens : ℕ} {seq seq' : RuntimeSequence κ σ} {log : StepLog}
    (h : prefillSequence M cfg io id tokens seq = .ok (seq', log)) : Emits id seq seq' log := by
  rw [prefillSequence] at h
  simp only at h
  split at h
  · cases h
  · obtain ⟨hpieces, -⟩ := @prefillPieces_emits _ _ _ M cfg io id
      ((seq.prompt.drop seq.prefilled).take tokens).length
      ((seq.prompt.drop seq.prefilled).take tokens) seq
    split at h
    · split at h
      · cases h
      · split at h
        · simp only [Except.ok.injEq, Prod.mk.injEq] at h
          obtain ⟨rfl, rfl⟩ := h
          refine Emits.append hpieces ⟨rfl, fun _ => le_refl _, fun hnot => ?_⟩
          exact absurd List.mem_cons_self hnot
        · simp only [Except.ok.injEq, Prod.mk.injEq] at h
          obtain ⟨rfl, rfl⟩ := h
          refine Emits.append hpieces ⟨rfl, fun hstop => absurd hstop List.not_mem_nil,
            fun _ => ?_⟩
          simp only [StepLog.tokens, List.filter_cons, decide_true, if_true, List.filter_nil,
            List.map_cons, List.map_nil, List.length_singleton]
    · simp only [Except.ok.injEq, Prod.mk.injEq] at h
      obtain ⟨rfl, rfl⟩ := h
      exact ⟨hpieces.maxOutput, hpieces.stopped, hpieces.emitted⟩

end Emits
