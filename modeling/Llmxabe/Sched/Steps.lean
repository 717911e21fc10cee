/-
What one scheduling step can do, said once.

`Decoded`, `Granted` and `Admitted` describe the three phases of `stepInto` as
relations between the queues before and after, with the batch items in
between; `stepInto_spec` shows that a step is their composition and spends at
most its token budget.  Every invariant of the scheduler is derived from these
relations, none by unfolding `stepInto`.

Phases 1 and 2 only move progress counters: they leave `pinned`, the request
without its counter, as it was.
-/
import Llmxabe.Sched.Scheduler

/-- A request without its progress counter. -/
def TrackedRequest.pinned (r : TrackedRequest) : TrackedRequest :=
  { r with computedTokens := 0 }

@[simp] theorem TrackedRequest.pinned_advance (r : TrackedRequest) (n : ℕ) :
    ({ r with computedTokens := n } : TrackedRequest).pinned = r.pinned := rfl

/-- The blocks phase 3 reserves for a request, in the source's arithmetic. -/
def SchedulerConfig.reservation (cfg : SchedulerConfig) (r : TrackedRequest) : ℕ :=
  (cfg.attentionBlocksNeeded r.fullSeqLen.val).val

/-- Phase 3's test: the reservation plus the watermark, as a `u32` sum. -/
def SchedulerConfig.headroom (cfg : SchedulerConfig) (total : U32) (r : TrackedRequest) : ℕ :=
  (cfg.reservation r + cfg.watermarkBlocks total) % 2 ^ 32

theorem TrackedRequest.fullSeqLen_lt (r : TrackedRequest) : r.fullSeqLen.val < 2 ^ 32 :=
  Nat.mod_lt _ (by norm_num)

theorem TrackedRequest.wantsDecode_val (r : TrackedRequest) :
    r.wantsDecode.val = true ↔
      (r.promptTokens : ℕ) ≤ r.computedTokens ∧ r.computedTokens < r.fullSeqLen.val := by
  by_cases h : (r.promptTokens : ℕ) ≤ r.computedTokens
  · simp [wantsDecode, isDecodeReady, h]
  · simp [wantsDecode, isDecodeReady, h]

theorem SchedulerConfig.attentionBlocksNeeded_val (cfg : SchedulerConfig) (n : ℕ) :
    (cfg.attentionBlocksNeeded n).val
      = divCeil ((n + cfg.draftTokensPerStep) % 2 ^ 32) cfg.blockSize := rfl

theorem SchedulerConfig.reservation_congr (cfg : SchedulerConfig) {r r' : TrackedRequest}
    (h : r.pinned = r'.pinned) : cfg.reservation r = cfg.reservation r' := by
  simp only [TrackedRequest.pinned, TrackedRequest.mk.injEq] at h
  obtain ⟨-, hp, hm, -, -⟩ := h
  simp only [SchedulerConfig.reservation, TrackedRequest.fullSeqLen, hp, hm]

namespace Scheduler

/-- Phase 1: some decode-ready requests advance by one token, each with an
item of the given cost. -/
inductive Decoded (cost : ℕ) :
    List TrackedRequest → List TrackedRequest → List DecodeItem → Prop where
  | nil : Decoded cost [] [] []
  | keep {r : TrackedRequest} {rs rs' : List TrackedRequest} {ds : List DecodeItem} :
      Decoded cost rs rs' ds → Decoded cost (r :: rs) (r :: rs') ds
  | decode {r : TrackedRequest} {rs rs' : List TrackedRequest} {ds : List DecodeItem} :
      (r.promptTokens : ℕ) ≤ r.computedTokens → r.computedTokens < r.fullSeqLen.val →
      Decoded cost rs rs' ds →
      Decoded cost (r :: rs) ({ r with computedTokens := r.computedTokens + 1 } :: rs')
        ({ id := r.id, tokens := cost } :: ds)

/-- Phase 2: a sequence of grants, each to a running request still short of
its prompt and never past it. -/
inductive Granted :
    List TrackedRequest → List PrefillItem → List TrackedRequest → Prop where
  | nil {rs : List TrackedRequest} : Granted rs [] rs
  | grant {rs rs' : List TrackedRequest} {items : List PrefillItem} {r : TrackedRequest}
      {i chunk : ℕ} :
      rs[i]? = some r → 0 < chunk → r.computedTokens + chunk ≤ r.promptTokens →
      Granted (rs.set i { r with computedTokens := r.computedTokens + chunk }) items rs' →
      Granted rs ({ id := r.id, tokens := chunk } :: items) rs'

/-- Phase 3: a sequence of admissions from the front of the waiting queue,
each with its reservation and its first grant. -/
inductive Admitted (cfg : SchedulerConfig) (total : U32) :
    List TrackedRequest → List TrackedRequest → ℕ → List PrefillItem →
    List TrackedRequest → List TrackedRequest → ℕ → Prop where
  | nil {waiting running : List TrackedRequest} {free : ℕ} :
      Admitted cfg total waiting running free [] waiting running free
  | pull {waiting running waiting' running' : List TrackedRequest} {free free' : ℕ}
      {items : List PrefillItem} {r : TrackedRequest} {chunk : ℕ} :
      running.length < cfg.maxConcurrentDecodes → cfg.headroom total r ≤ free →
      r.computedTokens + chunk ≤ r.promptTokens →
      Admitted cfg total waiting
        (running ++ [{ r with
          computedTokens := r.computedTokens + chunk, blocksReserved := cfg.reservation r }])
        (subU32 free (cfg.reservation r)).val items waiting' running' free' →
      Admitted cfg total (r :: waiting) running free
        ({ id := r.id, tokens := chunk } :: items) waiting' running' free'

/-! ### The phases satisfy their descriptions -/

/-- Total tokens of a list of decode items. -/
def decodeSum (ds : List DecodeItem) : ℕ := (ds.map (·.tokens)).sum

/-- Total tokens of a list of prefill items. -/
def prefillSum (ps : List PrefillItem) : ℕ := (ps.map (·.tokens)).sum

@[simp] theorem decodeSum_nil : decodeSum [] = 0 := rfl

@[simp] theorem decodeSum_cons (d : DecodeItem) (ds : List DecodeItem) :
    decodeSum (d :: ds) = d.tokens + decodeSum ds := by simp [decodeSum]

@[simp] theorem prefillSum_nil : prefillSum [] = 0 := rfl

@[simp] theorem prefillSum_cons (p : PrefillItem) (ps : List PrefillItem) :
    prefillSum (p :: ps) = p.tokens + prefillSum ps := by simp [prefillSum]

@[simp] theorem prefillSum_append (ps qs : List PrefillItem) :
    prefillSum (ps ++ qs) = prefillSum ps + prefillSum qs := by simp [prefillSum]

theorem Decoded.refl (cost : ℕ) : ∀ rs : List TrackedRequest, Decoded cost rs rs []
  | [] => Decoded.nil
  | _ :: rs => Decoded.keep (Decoded.refl cost rs)

theorem Decoded.length {cost : ℕ} {rs rs' : List TrackedRequest} {ds : List DecodeItem}
    (h : Decoded cost rs rs' ds) : rs'.length = rs.length := by
  induction h with
  | nil => rfl
  | keep _ ih => rw [List.length_cons, List.length_cons, ih]
  | decode _ _ _ ih => rw [List.length_cons, List.length_cons, ih]

theorem Granted.length {rs rs' : List TrackedRequest} {items : List PrefillItem}
    (h : Granted rs items rs') : rs'.length = rs.length := by
  induction h with
  | nil => rfl
  | grant _ _ _ _ ih => rw [ih, List.length_set]

theorem decodePhase_spec (cfg : SchedulerConfig) :
    ∀ (rs : List TrackedRequest) (budget : ℕ), budget < 2 ^ 32 →
      Decoded cfg.tokensPerDecodeStep.val rs (decodePhase cfg rs budget).val.1
          (decodePhase cfg rs budget).val.2.1 ∧
        decodeSum (decodePhase cfg rs budget).val.2.1 + (decodePhase cfg rs budget).val.2.2
          = budget := by
  intro rs
  induction rs with
  | nil => exact fun budget _ => ⟨Decoded.nil, by simp [decodePhase]⟩
  | cons r rs ih =>
    intro budget hbudget
    simp only [decodePhase, Wrapping.bind_val, Wrapping.ite_val, Wrapping.pure_val]
    split
    · rename_i hdec
      obtain ⟨hready, hshort⟩ := r.wantsDecode_val.mp hdec
      split
      · -- the budget is short of one decode: the walk stops here
        exact ⟨Decoded.refl _ _, by simp⟩
      · rename_i hcost
        have hle : cfg.tokensPerDecodeStep.val ≤ budget := by omega
        have hadd : (addU32 r.computedTokens 1).val = r.computedTokens + 1 :=
          Wrapping.add_val_of_lt (by have := r.fullSeqLen_lt; omega)
        rw [subU32_val hle hbudget, hadd]
        obtain ⟨hrest, hsum⟩ := ih (budget - cfg.tokensPerDecodeStep.val) (by omega)
        refine ⟨Decoded.decode hready hshort hrest, ?_⟩
        show decodeSum (_ :: _) + _ = budget
        rw [decodeSum_cons, Nat.add_assoc, hsum]
        exact Nat.add_sub_of_le hle
    · obtain ⟨hrest, hsum⟩ := ih budget hbudget
      exact ⟨Decoded.keep hrest, hsum⟩

/-- The granting case of phase 2. -/
theorem sharePrefill_grant {slice reserve start offset index chunk : ℕ} {offsets : List ℕ}
    {st : PrefillShare} {r : TrackedRequest} (hbudget : st.budget < 2 ^ 32)
    (hpos : st.budget ≠ 0) (hspend : st.budget - reserve ≠ 0)
    (hindex : index = (start + offset) % st.running.length)
    (hget : st.running[index]? = some r) (hshort : r.computedTokens < r.promptTokens)
    (hchunk : chunk = min (min ((r.promptTokens : ℕ) - r.computedTokens) slice)
      (st.budget - reserve)) (hne : chunk ≠ 0) :
    (sharePrefill slice reserve start (offset :: offsets) st).val
      = (sharePrefill slice reserve start offsets {
          running := st.running.set index
            { r with computedTokens := r.computedTokens + chunk }
          prefills := st.prefills ++ [{ id := r.id, tokens := chunk }]
          budget := st.budget - chunk
          granted := true }).val := by
  have hready : r.isDecodeReady = false := by
    simpa [TrackedRequest.isDecodeReady] using hshort
  have hrem : (subU32 r.promptTokens r.computedTokens).val = r.promptTokens - r.computedTokens :=
    subU32_val hshort.le (Fin.isLt _)
  have hle : chunk ≤ (r.promptTokens : ℕ) - r.computedTokens :=
    hchunk ▸ (Nat.min_le_left _ _).trans (Nat.min_le_left _ _)
  have hspent : chunk ≤ st.budget := hchunk ▸ (Nat.min_le_right _ _).trans (Nat.sub_le _ _)
  have hadd : (addU32 r.computedTokens chunk).val = r.computedTokens + chunk :=
    Wrapping.add_val_of_lt (by clear hchunk hrem; omega)
  have hsub : (subU32 st.budget chunk).val = st.budget - chunk := subU32_val hspent hbudget
  subst hindex
  rw [sharePrefill, if_neg hpos]
  simp only [hspend, if_false, hget, hready, Bool.false_eq_true, Wrapping.bind_val, hrem,
    ← hchunk, hne, hadd, hsub]

theorem sharePrefill_spec (slice reserve start : ℕ) :
    ∀ (offsets : List ℕ) (st : PrefillShare), st.budget < 2 ^ 32 →
      ∃ items,
        Granted st.running items (sharePrefill slice reserve start offsets st).val.running ∧
        (sharePrefill slice reserve start offsets st).val.prefills = st.prefills ++ items ∧
        prefillSum items + (sharePrefill slice reserve start offsets st).val.budget
          = st.budget := by
  intro offsets
  induction offsets with
  | nil => exact fun st _ => ⟨[], Granted.nil, by simp [sharePrefill], by simp [sharePrefill]⟩
  | cons offset offsets ih =>
    intro st hbudget
    have hstop : ∃ items, Granted st.running items st.running ∧
        st.prefills = st.prefills ++ items ∧ prefillSum items + st.budget = st.budget :=
      ⟨[], Granted.nil, by simp, by simp⟩
    -- the walk stops: no budget, or nothing beyond the reserve
    by_cases hpos : st.budget = 0
    · rw [sharePrefill, if_pos hpos]
      exact hstop
    by_cases hspend : st.budget - reserve = 0
    · rw [sharePrefill, if_neg hpos]
      simp only [hspend, if_true]
      exact hstop
    rcases hget : st.running[(start + offset) % st.running.length]? with _ | r
    · rw [sharePrefill, if_neg hpos]
      simp only [hspend, if_false, hget]
      exact hstop
    -- the requests passed over leave the state as it is
    have hskip : (sharePrefill slice reserve start (offset :: offsets) st).val
          = (sharePrefill slice reserve start offsets st).val →
        ∃ items, Granted st.running items
            (sharePrefill slice reserve start (offset :: offsets) st).val.running ∧
          (sharePrefill slice reserve start (offset :: offsets) st).val.prefills
            = st.prefills ++ items ∧
          prefillSum items + (sharePrefill slice reserve start (offset :: offsets) st).val.budget
            = st.budget := by
      intro heq
      rw [heq]
      exact ih st hbudget
    -- passed over, since it decodes
    by_cases hready : r.isDecodeReady = true
    · apply hskip
      rw [sharePrefill, if_neg hpos]
      simp only [hspend, if_false, hget, hready, if_true]
    have hshort : r.computedTokens < r.promptTokens := by
      simpa [TrackedRequest.isDecodeReady] using hready
    have hrem : (subU32 r.promptTokens r.computedTokens).val
        = r.promptTokens - r.computedTokens := subU32_val hshort.le (Fin.isLt _)
    obtain ⟨chunk, hchunk⟩ : ∃ chunk, chunk
        = min (min ((r.promptTokens : ℕ) - r.computedTokens) slice) (st.budget - reserve) :=
      ⟨_, rfl⟩
    -- passed over, since nothing would be granted
    by_cases hne : chunk = 0
    · apply hskip
      rw [sharePrefill, if_neg hpos]
      simp only [hspend, if_false, hget, hready, Bool.false_eq_true,
        Wrapping.bind_val, hrem, ← hchunk, hne, if_true]
    -- the grant keeps to the prompt and to the budget
    have hprompt : r.computedTokens + chunk ≤ r.promptTokens := by
      have : chunk ≤ (r.promptTokens : ℕ) - r.computedTokens :=
        hchunk ▸ (Nat.min_le_left _ _).trans (Nat.min_le_left _ _)
      omega
    have hspent : chunk ≤ st.budget :=
      hchunk ▸ (Nat.min_le_right _ _).trans (Nat.sub_le _ _)
    rw [sharePrefill_grant hbudget hpos hspend rfl hget hshort hchunk hne]
    obtain ⟨items, hgrant, hprefills, hsum⟩ := ih {
        running := st.running.set ((start + offset) % st.running.length)
          { r with computedTokens := r.computedTokens + chunk }
        prefills := st.prefills ++ [{ id := r.id, tokens := chunk }]
        budget := st.budget - chunk
        granted := true } (lt_of_le_of_lt (Nat.sub_le _ _) hbudget)
    refine ⟨{ id := r.id, tokens := chunk } :: items,
      Granted.grant hget (Nat.pos_of_ne_zero hne) hprompt hgrant, ?_, ?_⟩
    · rw [hprefills, List.append_assoc]
      rfl
    · rw [prefillSum_cons, Nat.add_assoc, hsum]
      exact Nat.add_sub_of_le hspent

/-- Phase 3 leaves its state when the budget, the slots or the blocks are short. -/
theorem admitPhase_stop {cfg : SchedulerConfig} {total : U32} {r : TrackedRequest}
    {waiting : List TrackedRequest} {st : Admissions}
    (h : st.budget = 0 ∨ (cfg.maxConcurrentDecodes : ℕ) ≤ st.running.length ∨
      st.free < cfg.headroom total r) :
    (admitPhase cfg total (r :: waiting) st).val = (r :: waiting, st) := by
  rw [admitPhase]
  by_cases hgate : st.budget = 0 ∨ (cfg.maxConcurrentDecodes : ℕ) ≤ st.running.length
  · rw [if_pos hgate, Wrapping.pure_val]
  · have hfree : st.free < cfg.headroom total r := by tauto
    rw [if_neg hgate, Wrapping.bind_val, Wrapping.bind_val, Wrapping.bind_val, addU32_val]
    exact (Wrapping.ite_val _ _ _).trans (if_pos hfree)

/-- What phase 3 makes of its state when it pulls `r`, granting `chunk` tokens. -/
def Admissions.pull (st : Admissions) (cfg : SchedulerConfig) (r : TrackedRequest)
    (chunk : ℕ) : Admissions where
  running := st.running ++ [{ r with
    computedTokens := r.computedTokens + chunk, blocksReserved := cfg.reservation r }]
  prefills := st.prefills ++ [{ id := r.id, tokens := chunk }]
  free := (subU32 st.free (cfg.reservation r)).val
  budget := st.budget - chunk

/-- The pulling case of phase 3. -/
theorem admitPhase_pull {cfg : SchedulerConfig} {total : U32} {r : TrackedRequest}
    {waiting : List TrackedRequest} {st : Admissions} {chunk : ℕ} (hbudget : st.budget < 2 ^ 32)
    (hpos : st.budget ≠ 0) (hslot : st.running.length < cfg.maxConcurrentDecodes)
    (hfree : cfg.headroom total r ≤ st.free) (hle : r.computedTokens ≤ r.promptTokens)
    (hchunk : chunk = min (min ((r.promptTokens : ℕ) - r.computedTokens) cfg.slice) st.budget) :
    (admitPhase cfg total (r :: waiting) st).val
      = if chunk < (r.promptTokens : ℕ) - r.computedTokens then (waiting, st.pull cfg r chunk)
        else (admitPhase cfg total waiting (st.pull cfg r chunk)).val := by
  have hgate : ¬(st.budget = 0 ∨ (cfg.maxConcurrentDecodes : ℕ) ≤ st.running.length) := by
    rintro (h | h)
    · exact hpos h
    · exact absurd hslot (Nat.not_lt.mpr h)
  have hrem : (subU32 r.promptTokens r.computedTokens).val = r.promptTokens - r.computedTokens :=
    subU32_val hle (Fin.isLt _)
  have hshort : chunk ≤ (r.promptTokens : ℕ) - r.computedTokens :=
    hchunk ▸ (Nat.min_le_left _ _).trans (Nat.min_le_left _ _)
  have hspent : chunk ≤ st.budget := hchunk ▸ Nat.min_le_right _ _
  have hadd : (addU32 r.computedTokens chunk).val = r.computedTokens + chunk :=
    Wrapping.add_val_of_lt (by clear hchunk hrem; omega)
  have hsub : (subU32 st.budget chunk).val = st.budget - chunk := subU32_val hspent hbudget
  rw [admitPhase, if_neg hgate, Wrapping.bind_val, Wrapping.bind_val, Wrapping.bind_val,
    addU32_val]
  refine (Wrapping.ite_val _ _ _).trans ((if_neg (Nat.not_lt.mpr hfree)).trans ?_)
  simp only [Wrapping.bind_val, Wrapping.ite_val, Wrapping.pure_val, hrem, ← hchunk, hadd, hsub]
  rfl

theorem admitPhase_spec (cfg : SchedulerConfig) (total : U32) :
    ∀ (waiting : List TrackedRequest) (st : Admissions), st.budget < 2 ^ 32 →
      (∀ r ∈ waiting, r.computedTokens ≤ r.promptTokens) →
      ∃ items,
        Admitted cfg total waiting st.running st.free items
          (admitPhase cfg total waiting st).val.1
          (admitPhase cfg total waiting st).val.2.running
          (admitPhase cfg total waiting st).val.2.free ∧
        (admitPhase cfg total waiting st).val.2.prefills = st.prefills ++ items ∧
        prefillSum items + (admitPhase cfg total waiting st).val.2.budget = st.budget ∧
        (∀ r rest, waiting = r :: rest → st.budget ≠ 0 →
          st.running.length < cfg.maxConcurrentDecodes → cfg.headroom total r ≤ st.free →
          items ≠ []) := by
  intro waiting
  induction waiting with
  | nil =>
    intro st _ _
    exact ⟨[], Admitted.nil, by simp [admitPhase], by simp [admitPhase], by simp⟩
  | cons r waiting ih =>
    intro st hbudget hrestored
    -- the phase stops: no budget, no slot, or no headroom for the front request
    by_cases hstop : st.budget = 0 ∨ (cfg.maxConcurrentDecodes : ℕ) ≤ st.running.length ∨
        st.free < cfg.headroom total r
    · rw [admitPhase_stop hstop]
      refine ⟨[], Admitted.nil, by simp, by simp, ?_⟩
      rintro q rest hcons hpos hslot hfree -
      rw [List.cons.injEq] at hcons
      rw [← hcons.1] at hfree
      omega
    simp only [not_or, not_le, not_lt] at hstop
    obtain ⟨hpos, hslot, hfree⟩ := hstop
    have hle : r.computedTokens ≤ r.promptTokens := hrestored r (by simp)
    obtain ⟨chunk, hchunk⟩ : ∃ chunk, chunk
        = min (min ((r.promptTokens : ℕ) - r.computedTokens) cfg.slice) st.budget := ⟨_, rfl⟩
    have hprompt : r.computedTokens + chunk ≤ r.promptTokens := by
      have : chunk ≤ (r.promptTokens : ℕ) - r.computedTokens :=
        hchunk ▸ (Nat.min_le_left _ _).trans (Nat.min_le_left _ _)
      omega
    have hspent : chunk ≤ st.budget := hchunk ▸ Nat.min_le_right _ _
    have hpull : ∀ items : List PrefillItem, (st.pull cfg r chunk).prefills ++ items
        = st.prefills ++ ({ id := r.id, tokens := chunk } :: items) := by
      intro items
      rw [Admissions.pull, List.append_assoc]
      rfl
    rw [admitPhase_pull hbudget hpos hslot hfree hle hchunk]
    split
    -- the chunk ends inside the prompt, and the phase with it
    · refine ⟨[{ id := r.id, tokens := chunk }],
        Admitted.pull hslot hfree hprompt Admitted.nil, rfl, ?_, by simp⟩
      rw [prefillSum_cons, prefillSum_nil, Nat.add_zero]
      exact Nat.add_sub_of_le hspent
    -- the whole prompt fits, and the next in line follows
    · obtain ⟨items, hadmit, hprefills, hsum, -⟩ := ih (st.pull cfg r chunk)
        (lt_of_le_of_lt (Nat.sub_le _ _) hbudget) (fun q hq => hrestored q (by simp [hq]))
      refine ⟨{ id := r.id, tokens := chunk } :: items,
        Admitted.pull hslot hfree hprompt hadmit, ?_, ?_, by simp⟩
      · rw [hprefills, hpull]
      · rw [prefillSum_cons, Nat.add_assoc, hsum]
        exact Nat.add_sub_of_le hspent

/-! ### A step is the composition of its phases -/

/-- Phase 1 of a step. -/
def stepDecoded (s : Scheduler) : List TrackedRequest × List DecodeItem × ℕ :=
  (decodePhase s.config s.running s.config.tokenBudget).val

/-- The budget phase 2 holds back. -/
def stepReserve (s : Scheduler) : ℕ :=
  if ({ s with running := s.stepDecoded.1 }).admissionCanProceed.val then
    s.config.tokenBudget / admissionReserveFraction
  else 0

/-- Phase 2 of a step. -/
def stepShared (s : Scheduler) : PrefillShare :=
  (sharePrefill s.config.slice s.stepReserve (s.prefillCursor % s.stepDecoded.1.length)
    (List.range s.stepDecoded.1.length)
    { running := s.stepDecoded.1, prefills := [], budget := s.stepDecoded.2.2
      granted := false }).val

/-- Phase 3 of a step. -/
def stepAdmitted (s : Scheduler) : List TrackedRequest × Admissions :=
  (admitPhase s.config s.totalAttentionBlocks s.waiting {
    running := s.stepShared.running, prefills := s.stepShared.prefills
    free := s.freeAttentionBlocks, budget := s.stepShared.budget }).val

theorem stepInto_val (s : Scheduler) :
    s.stepInto.val = ({ s with
        freeAttentionBlocks := s.stepAdmitted.2.free
        waiting := s.stepAdmitted.1
        running := s.stepAdmitted.2.running
        prefillCursor :=
          if s.stepShared.granted then (s.prefillCursor + 1) % 2 ^ 64 else s.prefillCursor },
      { decodes := s.stepDecoded.2.1, prefills := s.stepAdmitted.2.prefills }) := by
  rw [stepInto, Wrapping.bind_val]
  rfl

/-- What one `stepInto` from `s` to `s'` with the batch `b` does. -/
structure Stepped (s : Scheduler) (b : BatchDescription) (s' : Scheduler) : Prop where
  config : s'.config = s.config
  total : s'.totalAttentionBlocks = s.totalAttentionBlocks
  phases : ∃ decoded shared grants admissions,
    Decoded s.config.tokensPerDecodeStep.val s.running decoded b.decodes ∧
    Granted decoded grants shared ∧
    Admitted s.config s.totalAttentionBlocks s.waiting shared s.freeAttentionBlocks admissions
      s'.waiting s'.running s'.freeAttentionBlocks ∧
    b.prefills = grants ++ admissions ∧
    -- an unspent budget goes to the front of the queue
    (b.decodes = [] → grants = [] → ∀ r rest, s.waiting = r :: rest →
      s.running.length < s.config.maxConcurrentDecodes →
      s.config.headroom s.totalAttentionBlocks r ≤ s.freeAttentionBlocks → admissions ≠ [])
  budget : b.totalTokens ≤ s.config.tokenBudget

theorem stepInto_spec {s : Scheduler}
    (hrestored : ∀ r ∈ s.waiting, r.computedTokens ≤ r.promptTokens) :
    Stepped s s.stepInto.val.2 s.stepInto.val.1 := by
  rw [stepInto_val]
  obtain ⟨hdecoded, hspent⟩ :=
    decodePhase_spec s.config s.running s.config.tokenBudget (Fin.isLt _)
  have h1 : decodeSum s.stepDecoded.2.1 + s.stepDecoded.2.2 = s.config.tokenBudget := hspent
  have hbudget₁ : s.stepDecoded.2.2 < 2 ^ 32 :=
    lt_of_le_of_lt ((Nat.le_add_left _ _).trans h1.le) (Fin.isLt s.config.tokenBudget)
  obtain ⟨grants, hgranted, hgrants, hshared⟩ := sharePrefill_spec s.config.slice s.stepReserve
    (s.prefillCursor % s.stepDecoded.1.length) (List.range s.stepDecoded.1.length)
    { running := s.stepDecoded.1, prefills := [], budget := s.stepDecoded.2.2
      granted := false } hbudget₁
  have h2 : prefillSum grants + s.stepShared.budget = s.stepDecoded.2.2 := hshared
  have hbudget₂ : s.stepShared.budget < 2 ^ 32 :=
    lt_of_le_of_lt ((Nat.le_add_left _ _).trans h2.le) hbudget₁
  obtain ⟨admissions, hadmitted, hadmissions, hrest, hfront⟩ := admitPhase_spec s.config
    s.totalAttentionBlocks s.waiting {
      running := s.stepShared.running, prefills := s.stepShared.prefills
      free := s.freeAttentionBlocks, budget := s.stepShared.budget } hbudget₂ hrestored
  have hprefills : s.stepAdmitted.2.prefills = grants ++ admissions :=
    hadmissions.trans (congrArg (· ++ admissions) hgrants)
  have h3 : prefillSum admissions + s.stepAdmitted.2.budget = s.stepShared.budget := hrest
  refine ⟨rfl, rfl, ⟨s.stepDecoded.1, s.stepShared.running, grants, admissions, hdecoded,
    hgranted, hadmitted, hprefills, ?_⟩, ?_⟩
  · intro hdecodes hgrants r rest hwaiting hslot hfree
    have hwhole : s.stepShared.budget = s.config.tokenBudget := by
      have hd : s.stepDecoded.2.1 = [] := hdecodes
      rw [hd, decodeSum_nil] at h1
      rw [hgrants, prefillSum_nil] at h2
      omega
    refine hfront r rest hwaiting ?_ ?_ hfree
    · show s.stepShared.budget ≠ 0
      rw [hwhole]
      exact Nat.ne_of_gt s.config.tokenBudget_pos
    · show s.stepShared.running.length < _
      have hd : s.stepDecoded.1.length = s.running.length := hdecoded.length
      have hg : s.stepShared.running.length = s.stepDecoded.1.length := hgranted.length
      rw [hg, hd]
      exact hslot
  · show decodeSum s.stepDecoded.2.1 + prefillSum s.stepAdmitted.2.prefills ≤ _
    rw [hprefills, prefillSum_append]
    omega

end Scheduler
