/-
What holds of a scheduler after any sequence of calls.

`Books` makes no assumption on the requests: the arithmetic may have wrapped
any number of times on the way.  It is kept by every call (`Moved.books`) and
so by every run (`books_of_run`):

* the free counter and the reservations of the running requests add up to the
  pool modulo `2 ^ 32`;
* a running request holds the reservation phase 3 computes for it, a waiting
  one holds nothing and has restored no more than its prompt;
* no more requests run than there are decode slots.

The second half follows the requests themselves: a call keeps the multiset of
live requests, but for the one it submits or takes away (`Moved.requests`).
-/
import Llmxabe.Sched.Ops

/-- The request as its caller submitted it. -/
def TrackedRequest.request (r : TrackedRequest) : NewRequest where
  id := r.id
  promptTokens := r.promptTokens
  maxOutputTokens := r.maxOutputTokens

theorem TrackedRequest.request_congr {r r' : TrackedRequest} (h : r.pinned = r'.pinned) :
    r.request = r'.request := by
  simp only [pinned, mk.injEq] at h
  obtain ⟨hid, hp, hm, -, -⟩ := h
  simp only [request, hid, hp, hm]

theorem TrackedRequest.reserved_congr {r r' : TrackedRequest} (h : r.pinned = r'.pinned) :
    r.blocksReserved = r'.blocksReserved := by
  simp only [pinned, mk.injEq] at h
  exact h.2.2.2.2

namespace Scheduler

/-- Blocks held by a list of requests. -/
def reservedSum (rs : List TrackedRequest) : ℕ := (rs.map (·.blocksReserved)).sum

@[simp] theorem reservedSum_nil : reservedSum [] = 0 := rfl

@[simp] theorem reservedSum_cons (r : TrackedRequest) (rs : List TrackedRequest) :
    reservedSum (r :: rs) = r.blocksReserved + reservedSum rs := by simp [reservedSum]

@[simp] theorem reservedSum_append (rs qs : List TrackedRequest) :
    reservedSum (rs ++ qs) = reservedSum rs + reservedSum qs := by simp [reservedSum]

/-! ### Phases 1 and 2 pin everything but the progress counters -/

theorem Decoded.pinned {cost : ℕ} {rs rs' : List TrackedRequest} {ds : List DecodeItem}
    (h : Decoded cost rs rs' ds) : rs'.map TrackedRequest.pinned = rs.map TrackedRequest.pinned := by
  induction h with
  | nil => rfl
  | keep _ ih => rw [List.map_cons, List.map_cons, ih]
  | decode _ _ _ ih => rw [List.map_cons, List.map_cons, ih, TrackedRequest.pinned_advance]

theorem set_pinned {rs : List TrackedRequest} {i : ℕ} {r : TrackedRequest} (h : rs[i]? = some r)
    (n : ℕ) :
    (rs.set i { r with computedTokens := n }).map TrackedRequest.pinned
      = rs.map TrackedRequest.pinned := by
  rw [List.map_set, TrackedRequest.pinned_advance]
  apply List.ext_getElem?
  intro j
  rw [List.getElem?_set, List.getElem?_map]
  by_cases hij : i = j
  · subst hij
    have hlt : i < rs.length := (List.getElem?_eq_some_iff.mp h).1
    rw [if_pos rfl, List.length_map, if_pos hlt, h, Option.map_some]
  · rw [if_neg hij]

theorem Granted.pinned {rs rs' : List TrackedRequest} {items : List PrefillItem}
    (h : Granted rs items rs') : rs'.map TrackedRequest.pinned = rs.map TrackedRequest.pinned := by
  induction h with
  | nil => rfl
  | grant hget _ _ _ ih => rw [ih, set_pinned hget]

section Pinned

variable {rs rs' : List TrackedRequest}

theorem forall_of_pinned (h : rs'.map TrackedRequest.pinned = rs.map TrackedRequest.pinned)
    {P : TrackedRequest → Prop} (hP : ∀ r r' : TrackedRequest, r.pinned = r'.pinned → P r → P r')
    (hrs : ∀ r ∈ rs, P r) : ∀ r' ∈ rs', P r' := by
  intro r' hr'
  have hmem : r'.pinned ∈ rs.map TrackedRequest.pinned := h ▸ List.mem_map_of_mem hr'
  obtain ⟨r, hr, hpin⟩ := List.mem_map.mp hmem
  exact hP r r' hpin (hrs r hr)

theorem map_of_pinned {α : Type} {f : TrackedRequest → α}
    (h : rs'.map TrackedRequest.pinned = rs.map TrackedRequest.pinned)
    (hf : ∀ r r' : TrackedRequest, r.pinned = r'.pinned → f r = f r') : rs'.map f = rs.map f := by
  induction rs' generalizing rs with
  | nil =>
    rw [List.map_nil, eq_comm, List.map_eq_nil_iff] at h
    rw [h]
  | cons r' rs' ih =>
    cases rs with
    | nil => simp at h
    | cons r rs =>
      rw [List.map_cons, List.map_cons, List.cons.injEq] at h
      rw [List.map_cons, List.map_cons, hf r' r h.1, ih h.2]

theorem length_of_pinned (h : rs'.map TrackedRequest.pinned = rs.map TrackedRequest.pinned) :
    rs'.length = rs.length := by
  simpa using congrArg List.length h

theorem reservedSum_of_pinned
    (h : rs'.map TrackedRequest.pinned = rs.map TrackedRequest.pinned) :
    reservedSum rs' = reservedSum rs :=
  congrArg List.sum (map_of_pinned h fun _ _ => TrackedRequest.reserved_congr)

end Pinned

/-! ### Phase 3 keeps the books -/

theorem reservation_lt (cfg : SchedulerConfig) (r : TrackedRequest) :
    cfg.reservation r < 2 ^ 32 := by
  have hlt : (r.fullSeqLen.val + cfg.draftTokensPerStep) % 2 ^ 32 < 2 ^ 32 :=
    Nat.mod_lt _ (by norm_num)
  have hb := cfg.blockSize_pos
  rw [SchedulerConfig.reservation, SchedulerConfig.attentionBlocksNeeded_val]
  refine lt_of_le_of_lt ((divCeil_le_iff hb).mpr ?_) hlt
  exact Nat.le_mul_of_pos_right _ hb

theorem Admitted.waiting_sublist {cfg : SchedulerConfig} {total : U32}
    {waiting running waiting' running' : List TrackedRequest} {free free' : ℕ}
    {items : List PrefillItem}
    (h : Admitted cfg total waiting running free items waiting' running' free') :
    ∀ r ∈ waiting', r ∈ waiting := by
  induction h with
  | nil => exact fun _ h => h
  | pull _ _ _ _ ih => exact fun r hr => List.mem_cons_of_mem _ (ih r hr)

/-- The counters phase 3 works on: free blocks and running requests. -/
structure Ledgered (cfg : SchedulerConfig) (total : U32) (running : List TrackedRequest)
    (free : ℕ) : Prop where
  free_lt : free < 2 ^ 32
  balance : (free + reservedSum running) % 2 ^ 32 = total
  running_reserved : ∀ r ∈ running, r.blocksReserved = cfg.reservation r
  slots : running.length ≤ cfg.maxConcurrentDecodes

theorem Ledgered.of_pinned {cfg : SchedulerConfig} {total : U32}
    {rs rs' : List TrackedRequest} {free : ℕ} (hrs : Ledgered cfg total rs free)
    (h : rs'.map TrackedRequest.pinned = rs.map TrackedRequest.pinned) :
    Ledgered cfg total rs' free where
  free_lt := hrs.free_lt
  balance := by rw [reservedSum_of_pinned h, hrs.balance]
  running_reserved := by
    refine forall_of_pinned h (fun r r' hpin hr => ?_) hrs.running_reserved
    rw [← TrackedRequest.reserved_congr hpin, ← cfg.reservation_congr hpin, hr]
  slots := by rw [length_of_pinned h]; exact hrs.slots

theorem Admitted.ledgered {cfg : SchedulerConfig} {total : U32}
    {waiting running waiting' running' : List TrackedRequest} {free free' : ℕ}
    {items : List PrefillItem}
    (h : Admitted cfg total waiting running free items waiting' running' free')
    (hbooks : Ledgered cfg total running free) : Ledgered cfg total running' free' := by
  induction h with
  | nil => exact hbooks
  | @pull _ running _ _ free _ _ r chunk hslot _ _ _ ih =>
    apply ih
    have hlt := reservation_lt cfg r
    refine ⟨subU32_val_lt _ _, ?_, ?_, ?_⟩
    · -- what is taken from the counter is what the new entry holds
      have hsub : ((subU32 free (cfg.reservation r)).val + cfg.reservation r) % 2 ^ 32
          = free % 2 ^ 32 := Wrapping.sub_val_add_mod hlt.le
      have hbalance := hbooks.balance
      rw [reservedSum_append, reservedSum_cons, reservedSum_nil, Nat.add_zero]
      show ((subU32 free (cfg.reservation r)).val + (reservedSum running + cfg.reservation r))
        % 2 ^ 32 = total
      generalize (subU32 free (cfg.reservation r)).val = f at hsub ⊢
      omega
    · intro q hq
      rcases List.mem_append.mp hq with hq | hq
      · exact hbooks.running_reserved q hq
      · rw [List.mem_singleton] at hq
        subst hq
        rfl
    · rw [List.length_append, List.length_singleton]
      exact hslot

/-! ### The invariant -/

/-- The unconditional invariant of a scheduler. -/
structure Books (s : Scheduler) : Prop where
  ledgered : Ledgered s.config s.totalAttentionBlocks s.running s.freeAttentionBlocks
  waiting_free : ∀ r ∈ s.waiting, r.blocksReserved = 0
  waiting_restored : ∀ r ∈ s.waiting, r.computedTokens ≤ r.promptTokens
  slot_pos : s.waiting ≠ [] ∨ s.running ≠ [] → 0 < (s.config.maxConcurrentDecodes : ℕ)

theorem new_books (cfg : SchedulerConfig) (total : U32) : Books (new cfg total) where
  ledgered := ⟨Fin.isLt _, by
    rw [new, reservedSum_nil, Nat.add_zero]
    exact Nat.mod_eq_of_lt (Fin.isLt total), by simp [new], Nat.zero_le _⟩
  waiting_free := by simp [new]
  waiting_restored := by simp [new]
  slot_pos := by simp [new]

/-- Taking a running request out and returning its blocks. -/
theorem Ledgered.release {cfg : SchedulerConfig} {total : U32} {free : ℕ}
    {before after : List TrackedRequest} {r : TrackedRequest}
    (h : Ledgered cfg total (before ++ r :: after) free) :
    Ledgered cfg total (before ++ after) ((free + r.blocksReserved) % 2 ^ 32) where
  free_lt := Nat.mod_lt _ (by norm_num)
  balance := by
    have hbalance := h.balance
    simp only [reservedSum_append, reservedSum_cons] at hbalance ⊢
    omega
  running_reserved := fun q hq => h.running_reserved q (by
    rcases List.mem_append.mp hq with hq | hq <;> simp [hq])
  slots := by
    have hslots := h.slots
    rw [List.length_append, List.length_cons] at hslots
    rw [List.length_append]
    omega

theorem Stepped.books {s s' : Scheduler} {b : BatchDescription} (h : Stepped s b s')
    (hs : Books s) : Books s' := by
  obtain ⟨hcfg, htotal, ⟨decoded, shared, grants, admissions, hdec, hgrant, hadm, -⟩, -⟩ := h
  have hpinned : shared.map TrackedRequest.pinned = s.running.map TrackedRequest.pinned :=
    hgrant.pinned.trans hdec.pinned
  have hledger := hadm.ledgered (hs.ledgered.of_pinned hpinned)
  have hsub := hadm.waiting_sublist
  refine ⟨by rw [hcfg, htotal]; exact hledger, fun r hr => hs.waiting_free r (hsub r hr),
    fun r hr => hs.waiting_restored r (hsub r hr), fun hne => ?_⟩
  rw [hcfg]
  rcases hne with hne | hne
  · apply hs.slot_pos
    obtain ⟨r, hr⟩ := List.exists_mem_of_ne_nil _ hne
    exact Or.inl (List.ne_nil_of_mem (hsub r hr))
  · have hpos : 0 < s'.running.length := List.length_pos_of_ne_nil hne
    have hslots := hledger.slots
    omega

theorem Moved.books {s s' : Scheduler} {op : Op} {out : Outcome} (h : Moved s op out s')
    (hs : Books s) : Books s' := by
  cases h with
  | refused _ => exact hs
  | missing _ => exact hs
  | stepped hstep => exact hstep.books hs
  | queued _ hrestored _ hqueue =>
    refine ⟨hs.ledgered, fun r hr => ?_, fun r hr => ?_, fun _ => ?_⟩
    · rcases List.mem_append.mp hr with hr | hr
      · exact hs.waiting_free r hr
      · rw [List.mem_singleton.mp hr]
    · rcases List.mem_append.mp hr with hr | hr
      · exact hs.waiting_restored r hr
      · rw [List.mem_singleton.mp hr]
        exact hrestored
    · exact s.config.maxWaitingRequests_pos (lt_of_le_of_lt (Nat.zero_le _) hqueue)
  | @advanced id additional r before after hrs hid =>
    have hpinned : (before ++ { r with
          computedTokens := min (satAddU32 r.computedTokens additional) r.fullSeqLen.val }
            :: after).map TrackedRequest.pinned
        = s.running.map TrackedRequest.pinned := by
      rw [hrs, List.map_append, List.map_cons, TrackedRequest.pinned_advance, ← List.map_cons,
        ← List.map_append]
    refine ⟨hs.ledgered.of_pinned hpinned, hs.waiting_free, hs.waiting_restored, fun _ => ?_⟩
    exact hs.slot_pos (Or.inr (by simp [hrs]))
  | released _ hrs _ =>
    have hledger := hs.ledgered
    rw [hrs] at hledger
    refine ⟨hledger.release, hs.waiting_free, hs.waiting_restored, fun _ => ?_⟩
    exact hs.slot_pos (Or.inr (by simp [hrs]))
  | dequeued hrs _ =>
    have hmem : ∀ {before after : List TrackedRequest} {r q : TrackedRequest},
        q ∈ before ++ after → q ∈ before ++ r :: after := by
      intro before after r q hq
      rcases List.mem_append.mp hq with hq | hq <;> simp [hq]
    refine ⟨hs.ledgered, fun r hr => hs.waiting_free r (hrs ▸ hmem hr),
      fun r hr => hs.waiting_restored r (hrs ▸ hmem hr), fun _ => ?_⟩
    exact hs.slot_pos (Or.inl (by simp [hrs]))
  | preempted hrs _ =>
    have hledger := hs.ledgered
    rw [hrs] at hledger
    refine ⟨hledger.release, fun q hq => ?_, fun q hq => ?_, fun _ => ?_⟩
    · rcases List.mem_cons.mp hq with rfl | hq
      · rfl
      · exact hs.waiting_free q hq
    · rcases List.mem_cons.mp hq with rfl | hq
      · exact Nat.zero_le _
      · exact hs.waiting_restored q hq
    · exact hs.slot_pos (Or.inr (by simp [hrs]))

theorem Call.moved {s s' : Scheduler} {l : Op × Outcome} (h : Call s l s') (hs : Books s) :
    Moved s l.1 l.2 s' := by
  have hmoved := apply_moved hs.waiting_restored l.1
  rw [h] at hmoved
  exact hmoved

/-- The books balance in every reachable state. -/
theorem books_of_run {cfg : SchedulerConfig} {total : U32} {ls : List (Op × Outcome)}
    {s : Scheduler} (h : Run Call (new cfg total) ls s) : Books s :=
  h.invariant (new_books cfg total) fun hs hcall => (hcall.moved hs).books hs

theorem Moved.config {s s' : Scheduler} {op : Op} {out : Outcome} (h : Moved s op out s') :
    s'.config = s.config ∧ s'.totalAttentionBlocks = s.totalAttentionBlocks := by
  cases h with
  | stepped hstep => exact ⟨hstep.config, hstep.total⟩
  | _ => exact ⟨rfl, rfl⟩

theorem config_of_run {cfg : SchedulerConfig} {total : U32} {ls : List (Op × Outcome)}
    {s : Scheduler} (h : Run Call (new cfg total) ls s) :
    s.config = cfg ∧ s.totalAttentionBlocks = total := by
  have hboth : Books s ∧ s.config = cfg ∧ s.totalAttentionBlocks = total := by
    refine h.invariant (P := fun s => Books s ∧ s.config = cfg ∧ s.totalAttentionBlocks = total)
      ⟨new_books cfg total, rfl, rfl⟩ ?_
    rintro a b l ⟨hbooks, hcfg, htotal⟩ hcall
    have hmoved := hcall.moved hbooks
    exact ⟨hmoved.books hbooks, hmoved.config.1.trans hcfg, hmoved.config.2.trans htotal⟩
  exact hboth.2

/-! ### The live requests -/

/-- Everything the scheduler currently tracks. -/
def tracked (s : Scheduler) : List TrackedRequest := s.waiting ++ s.running

/-- The submitted requests behind it. -/
def requests (s : Scheduler) : List NewRequest := s.tracked.map TrackedRequest.request

theorem Admitted.requests {cfg : SchedulerConfig} {total : U32}
    {waiting running waiting' running' : List TrackedRequest} {free free' : ℕ}
    {items : List PrefillItem}
    (h : Admitted cfg total waiting running free items waiting' running' free') :
    ((waiting' ++ running').map TrackedRequest.request).Perm
      ((waiting ++ running).map TrackedRequest.request) := by
  induction h with
  | nil => exact List.Perm.refl _
  | @pull waiting running _ _ free _ _ r chunk _ _ _ _ ih =>
    refine ih.trans ?_
    simp only [List.map_append, List.map_cons, List.map_nil, ← List.append_assoc]
    exact List.perm_append_singleton _ _

theorem Stepped.requests {s s' : Scheduler} {b : BatchDescription} (h : Stepped s b s') :
    s'.requests.Perm s.requests := by
  obtain ⟨-, -, ⟨decoded, shared, grants, admissions, hdec, hgrant, hadm, -⟩, -⟩ := h
  have hpinned : shared.map TrackedRequest.pinned = s.running.map TrackedRequest.pinned :=
    hgrant.pinned.trans hdec.pinned
  refine hadm.requests.trans ?_
  rw [Scheduler.requests, tracked, List.map_append, List.map_append,
    map_of_pinned hpinned fun _ _ => TrackedRequest.request_congr]

/-- A call keeps the live requests, but for those it submits or takes away. -/
theorem Moved.requests {s s' : Scheduler} {op : Op} {out : Outcome} (h : Moved s op out s') :
    s'.requests.Perm s.requests ∨
      (∃ req computedPrefix, op.submission = some (req, computedPrefix) ∧
        out = .admission (.ok req.id) ∧ s'.requests.Perm (req :: s.requests)) ∨
      (∃ r ∈ s.tracked, s.requests.Perm (r.request :: s'.requests)) := by
  cases h with
  | refused _ => exact Or.inl (List.Perm.refl _)
  | missing _ => exact Or.inl (List.Perm.refl _)
  | stepped hstep => exact Or.inl hstep.requests
  | queued hop _ _ _ =>
    refine Or.inr (Or.inl ⟨_, _, hop, rfl, ?_⟩)
    simp only [Scheduler.requests, tracked, List.map_append, List.map_cons, List.map_nil]
    rw [List.append_assoc]
    exact List.perm_middle
  | advanced hrs _ =>
    left
    simp only [Scheduler.requests, tracked, hrs, List.map_append, List.map_cons]
    exact List.Perm.refl _
  | @released _ _ r _ _ _ hrs _ =>
    refine Or.inr (Or.inr ⟨r, by simp [tracked, hrs], ?_⟩)
    simp only [Scheduler.requests, tracked, hrs, List.map_append, List.map_cons]
    rw [← List.append_assoc, ← List.append_assoc]
    exact List.perm_middle
  | @dequeued _ r _ _ hrs _ =>
    refine Or.inr (Or.inr ⟨r, by simp [tracked, hrs], ?_⟩)
    simp only [Scheduler.requests, tracked, hrs, List.map_append, List.map_cons,
      List.append_assoc, List.cons_append]
    exact List.perm_middle
  | preempted hrs _ =>
    left
    simp only [Scheduler.requests, tracked, hrs, List.map_append, List.map_cons,
      List.cons_append]
    rw [← List.append_assoc, ← List.append_assoc]
    exact (List.perm_middle).symm

end Scheduler
