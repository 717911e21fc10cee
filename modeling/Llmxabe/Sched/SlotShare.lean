/-
Whether every decode slot can be used at once.

A request bounded by `perSlotTokenCeiling` needs at most an equal share of the
pool, but phase 3 asks for the watermark on top of it, and the share does not
set the watermark aside.

* `slot_share_iff`: from an empty scheduler, one such request per slot, all of
  them end up running together exactly when `FitsInOrder`: each request's
  blocks plus the watermark are within what the earlier ones left;
* `fitsInOrder_iff_sum`: that is, when all their blocks together plus one
  watermark are within the pool, as long as phase 3's sum does not wrap;
* `four_shares_starve`: four requests of one share each in a pool of forty
  blocks with a quarter kept free: the fourth waits for ever.

A step that leaves the queue waiting always makes progress: `weight`, the
tokens still to be computed and the requests still to be queued, decreases.
-/
import Llmxabe.Sched.Admission

namespace Scheduler

/-! ### Progress of a step -/

/-- Tokens a list of requests has still to compute. -/
def leftSum (rs : List TrackedRequest) : ℕ :=
  (rs.map fun r => (r.promptTokens : ℕ) + r.maxOutputTokens - r.computedTokens).sum

@[simp] theorem leftSum_nil : leftSum [] = 0 := rfl

@[simp] theorem leftSum_cons (r : TrackedRequest) (rs : List TrackedRequest) :
    leftSum (r :: rs)
      = ((r.promptTokens : ℕ) + r.maxOutputTokens - r.computedTokens) + leftSum rs := by
  simp [leftSum]

@[simp] theorem leftSum_append (rs qs : List TrackedRequest) :
    leftSum (rs ++ qs) = leftSum rs + leftSum qs := by simp [leftSum]

/-- What is left for the running requests to compute, and for the waiting ones
to compute and to leave the queue. -/
def weight (s : Scheduler) : ℕ := leftSum s.running + leftSum s.waiting + s.waiting.length

theorem Decoded.leftSum {cost : ℕ} {rs rs' : List TrackedRequest} {ds : List DecodeItem}
    (h : Decoded cost rs rs' ds) :
    Scheduler.leftSum rs' + ds.length = Scheduler.leftSum rs := by
  induction h with
  | nil => rfl
  | keep _ ih =>
    rw [leftSum_cons, leftSum_cons, Nat.add_assoc, ih]
  | @decode r rs rs' ds _ hshort _ ih =>
    have hfull : r.fullSeqLen.val ≤ r.promptTokens + r.maxOutputTokens := by
      rw [TrackedRequest.fullSeqLen, addU32_val]
      exact Nat.mod_le _ _
    rw [leftSum_cons, leftSum_cons, List.length_cons]
    simp only
    omega

theorem leftSum_set {r : TrackedRequest} {chunk : ℕ}
    (hle : r.computedTokens + chunk ≤ r.promptTokens) :
    ∀ {rs : List TrackedRequest} {i : ℕ}, rs[i]? = some r →
      leftSum (rs.set i { r with computedTokens := r.computedTokens + chunk }) + chunk
        = leftSum rs := by
  intro rs
  induction rs with
  | nil => intro i hget; simp at hget
  | cons q rs ih =>
    intro i hget
    cases i with
    | zero =>
      simp only [List.getElem?_cons_zero, Option.some.injEq] at hget
      subst hget
      rw [List.set_cons_zero, leftSum_cons, leftSum_cons]
      simp only
      omega
    | succ i =>
      rw [List.getElem?_cons_succ] at hget
      rw [List.set_cons_succ, leftSum_cons, leftSum_cons, Nat.add_assoc, ih hget]

theorem Granted.leftSum {rs rs' : List TrackedRequest} {items : List PrefillItem}
    (h : Granted rs items rs') :
    Scheduler.leftSum rs' + items.length ≤ Scheduler.leftSum rs := by
  induction h with
  | nil => exact le_refl _
  | grant hget hpos hle _ ih =>
    have hset := leftSum_set hle hget
    rw [List.length_cons]
    omega

theorem Admitted.leftSum {cfg : SchedulerConfig} {total : U32}
    {waiting running waiting' running' : List TrackedRequest} {free free' : ℕ}
    {items : List PrefillItem}
    (h : Admitted cfg total waiting running free items waiting' running' free') :
    Scheduler.leftSum running' + Scheduler.leftSum waiting' + waiting'.length + items.length
      ≤ Scheduler.leftSum running + Scheduler.leftSum waiting + waiting.length := by
  induction h with
  | nil => exact le_refl _
  | pull _ _ hle _ ih =>
    rw [leftSum_append, leftSum_cons, leftSum_nil] at ih
    rw [leftSum_cons, List.length_cons, List.length_cons]
    simp only at ih
    omega

/-- Every step that can take the front of the queue makes the scheduler lighter. -/
theorem Stepped.weight_lt {s s' : Scheduler} {b : BatchDescription} (h : Stepped s b s')
    {r : TrackedRequest} {rest : List TrackedRequest} (hwaiting : s.waiting = r :: rest)
    (hslot : s.running.length < s.config.maxConcurrentDecodes)
    (hfree : s.config.headroom s.totalAttentionBlocks r ≤ s.freeAttentionBlocks) :
    s'.weight < s.weight := by
  obtain ⟨-, -, ⟨decoded, shared, grants, admissions, hdec, hgrant, hadm, -, hfront⟩, -⟩ := h
  have hd := hdec.leftSum
  have hg := hgrant.leftSum
  have ha := hadm.leftSum
  have hsome : 0 < b.decodes.length ∨ 0 < grants.length ∨ 0 < admissions.length := by
    by_contra hnone
    simp only [not_or, Nat.not_lt, Nat.le_zero, List.length_eq_zero_iff] at hnone
    exact hfront hnone.1 hnone.2.1 r rest hwaiting hslot hfree hnone.2.2
  rw [weight, weight]
  omega

/-! ### Phase 3 takes the queue in order -/

/-- Each request's blocks plus the watermark, as phase 3 adds them, are within
what the earlier requests left of the pool; and each alone is within it. -/
def FitsInOrder (cfg : SchedulerConfig) (total : U32) : List NewRequest → ℕ → Prop
  | [], _ => True
  | req :: reqs, left =>
    cfg.exactBlocks req ≤ total ∧
      (cfg.exactBlocks req + cfg.watermarkBlocks total) % 2 ^ 32 ≤ left ∧
      FitsInOrder cfg total reqs (subU32 left (cfg.exactBlocks req)).val

/-- The free counter after these requests have been taken. -/
def leftAfter (cfg : SchedulerConfig) : List NewRequest → ℕ → ℕ
  | [], left => left
  | req :: reqs, left => leftAfter cfg reqs (subU32 left (cfg.exactBlocks req)).val

theorem fitsInOrder_append {cfg : SchedulerConfig} {total : U32} {qs : List NewRequest} :
    ∀ {reqs : List NewRequest} {left : ℕ}, FitsInOrder cfg total (reqs ++ qs) left ↔
      FitsInOrder cfg total reqs left ∧ FitsInOrder cfg total qs (leftAfter cfg reqs left) := by
  intro reqs
  induction reqs with
  | nil => simp [FitsInOrder, leftAfter]
  | cons req reqs ih =>
    intro left
    rw [List.cons_append, FitsInOrder, FitsInOrder, leftAfter, ih, and_assoc, and_assoc]

theorem leftAfter_append {cfg : SchedulerConfig} {qs : List NewRequest} :
    ∀ {reqs : List NewRequest} {left : ℕ},
      leftAfter cfg (reqs ++ qs) left = leftAfter cfg qs (leftAfter cfg reqs left) := by
  intro reqs
  induction reqs with
  | nil => exact fun {_} => rfl
  | cons req reqs ih =>
    intro left
    rw [List.cons_append, leftAfter, leftAfter, ih]

/-- Without a wrap, one sum says it all. -/
theorem fitsInOrder_iff_sum {cfg : SchedulerConfig} {total : U32} :
    ∀ {reqs : List NewRequest} {left : ℕ}, left ≤ total → reqs ≠ [] →
      (∀ req ∈ reqs, cfg.exactBlocks req + cfg.watermarkBlocks total < 2 ^ 32) →
      (FitsInOrder cfg total reqs left ↔
        (reqs.map cfg.exactBlocks).sum + cfg.watermarkBlocks total ≤ left) := by
  intro reqs
  induction reqs with
  | nil => exact fun _ hne => absurd rfl hne
  | cons req reqs ih =>
    intro left hleft _ hwrap
    have hpool : (total : ℕ) < 2 ^ 32 := Fin.isLt _
    have hreq := Nat.mod_eq_of_lt (hwrap req (by simp))
    have hsub : cfg.exactBlocks req ≤ left →
        (subU32 left (cfg.exactBlocks req)).val = left - cfg.exactBlocks req := fun hle =>
      subU32_val hle (by omega)
    rw [FitsInOrder, hreq, List.map_cons, List.sum_cons]
    rcases eq_or_ne reqs [] with rfl | hne
    · simp only [FitsInOrder, List.map_nil, List.sum_nil]
      constructor
      · rintro ⟨-, h, -⟩
        omega
      · intro h
        exact ⟨by omega, by omega, trivial⟩
    have hrest : ∀ q ∈ reqs, cfg.exactBlocks q + cfg.watermarkBlocks total < 2 ^ 32 :=
      fun q hq => hwrap q (by simp [hq])
    constructor
    · rintro ⟨-, h, hfits⟩
      rw [hsub (by omega), ih (by omega) hne hrest] at hfits
      omega
    · intro h
      refine ⟨by omega, by omega, ?_⟩
      rw [hsub (by omega), ih (by omega) hne hrest]
      omega

theorem headroom_exact {cfg : SchedulerConfig} {total : U32} {r : TrackedRequest}
    (h : cfg.footprint r.request < 2 ^ 32) : cfg.headroom total r
      = (cfg.exactBlocks r.request + cfg.watermarkBlocks total) % 2 ^ 32 := by
  rw [SchedulerConfig.headroom, SchedulerConfig.reservation_exact h]

/-- Phase 3 takes a prefix of the queue, and that prefix fits in order. -/
theorem Admitted.fitsInOrder {cfg : SchedulerConfig} {total : U32}
    {waiting running waiting' running' : List TrackedRequest} {free free' : ℕ}
    {items : List PrefillItem}
    (h : Admitted cfg total waiting running free items waiting' running' free')
    (hfoot : ∀ r ∈ waiting, cfg.footprint r.request < 2 ^ 32)
    (hneed : ∀ r ∈ waiting, cfg.exactBlocks r.request ≤ total) :
    ∃ pulled, waiting.map TrackedRequest.request
          = pulled ++ waiting'.map TrackedRequest.request ∧
      running'.map TrackedRequest.request = running.map TrackedRequest.request ++ pulled ∧
      FitsInOrder cfg total pulled free ∧ leftAfter cfg pulled free = free' := by
  induction h with
  | nil => exact ⟨[], rfl, by simp, trivial, rfl⟩
  | @pull waiting running _ _ free _ _ r chunk _ hroom _ _ ih =>
    have hr := hfoot r (by simp)
    obtain ⟨pulled, hwaiting, hrunning, hfits, hleft⟩ :=
      ih (fun q hq => hfoot q (by simp [hq])) (fun q hq => hneed q (by simp [hq]))
    rw [SchedulerConfig.reservation_exact hr] at hfits hleft
    rw [headroom_exact hr] at hroom
    refine ⟨r.request :: pulled, ?_, ?_, ⟨hneed r (by simp), hroom, hfits⟩, hleft⟩
    · rw [List.map_cons, hwaiting, List.cons_append]
    · rw [hrunning, List.map_append, List.append_assoc]
      rfl

/-! ### The queue of one request per slot -/

/-- Where the requests are while they are being taken in order: the first of
them running, the others waiting. -/
structure InOrder (cfg : SchedulerConfig) (total : U32) (reqs : List NewRequest)
    (s : Scheduler) : Prop where
  config : s.config = cfg
  total_eq : s.totalAttentionBlocks = total
  books : Books s
  order : s.running.map TrackedRequest.request ++ s.waiting.map TrackedRequest.request = reqs
  fits : FitsInOrder cfg total (s.running.map TrackedRequest.request) total
  left : leftAfter cfg (s.running.map TrackedRequest.request) total = s.freeAttentionBlocks

theorem InOrder.step {cfg : SchedulerConfig} {total : U32} {reqs : List NewRequest}
    {s s' : Scheduler} {b : BatchDescription} (h : InOrder cfg total reqs s)
    (hfoot : ∀ req ∈ reqs, cfg.footprint req < 2 ^ 32)
    (hneed : ∀ req ∈ reqs, cfg.exactBlocks req ≤ total) (hstep : Stepped s b s') :
    InOrder cfg total reqs s' := by
  have hbooks := hstep.books h.books
  obtain ⟨hcfg, htotal, ⟨decoded, shared, grants, admissions, hdec, hgrant, hadm, -⟩, -⟩ := hstep
  rw [h.config, h.total_eq] at hadm
  have hmem : ∀ r ∈ s.waiting, r.request ∈ reqs := fun r hr => by
    rw [← h.order]
    exact List.mem_append.mpr (Or.inr (List.mem_map_of_mem hr))
  obtain ⟨pulled, hwaiting, hrunning, hpulled, hleft⟩ :=
    hadm.fitsInOrder (fun r hr => hfoot _ (hmem r hr)) (fun r hr => hneed _ (hmem r hr))
  have hshared : shared.map TrackedRequest.request = s.running.map TrackedRequest.request :=
    map_of_pinned (hgrant.pinned.trans hdec.pinned) fun _ _ => TrackedRequest.request_congr
  rw [hshared] at hrunning
  refine ⟨hcfg.trans h.config, htotal.trans h.total_eq, hbooks, ?_, ?_, ?_⟩
  · rw [hrunning, List.append_assoc, ← hwaiting, h.order]
  · rw [hrunning, fitsInOrder_append, h.left]
    exact ⟨h.fits, hpulled⟩
  · rw [hrunning, leftAfter_append, h.left, hleft]

theorem InOrder.steps {cfg : SchedulerConfig} {total : U32} {reqs : List NewRequest}
    (hfoot : ∀ req ∈ reqs, cfg.footprint req < 2 ^ 32)
    (hneed : ∀ req ∈ reqs, cfg.exactBlocks req ≤ total) :
    ∀ (n : ℕ) {s : Scheduler}, InOrder cfg total reqs s →
      InOrder cfg total reqs (steps n s) := by
  intro n
  induction n with
  | zero => exact fun h => h
  | succ n ih =>
    exact fun h => ih (h.step hfoot hneed (stepInto_spec h.books.waiting_restored))

/-- An empty queue stays empty. -/
theorem steps_drained {s : Scheduler} (hbooks : Books s) (hwaiting : s.waiting = []) :
    ∀ n, (steps n s).waiting = [] := by
  intro n
  induction n generalizing s with
  | zero => exact hwaiting
  | succ n ih =>
    have hstep := stepInto_spec hbooks.waiting_restored
    refine ih (hstep.books hbooks) ?_
    obtain ⟨-, -, ⟨_, _, _, _, _, _, hadm, -⟩, -⟩ := hstep
    rw [List.eq_nil_iff_forall_not_mem]
    intro r hr
    have hmem := hadm.waiting_sublist r hr
    rw [hwaiting] at hmem
    exact List.not_mem_nil hmem

/-- If they fit in order, the queue drains: each step with somebody waiting
makes the scheduler lighter. -/
theorem InOrder.drains {cfg : SchedulerConfig} {total : U32} {reqs : List NewRequest}
    (hfoot : ∀ req ∈ reqs, cfg.footprint req < 2 ^ 32)
    (hlen : reqs.length ≤ cfg.maxConcurrentDecodes)
    (hfits : FitsInOrder cfg total reqs total) (hneed : ∀ req ∈ reqs, cfg.exactBlocks req ≤ total) :
    ∀ (w : ℕ) {s : Scheduler}, InOrder cfg total reqs s → s.weight ≤ w →
      ∃ n, (Scheduler.steps n s).waiting = [] := by
  intro w
  induction w with
  | zero =>
    intro s _ hw
    refine ⟨0, List.length_eq_zero_iff.mp ?_⟩
    rw [weight] at hw
    show s.waiting.length = 0
    omega
  | succ w ih =>
    intro s h hw
    rcases hwaiting : s.waiting with _ | ⟨r, rest⟩
    · exact ⟨0, hwaiting⟩
    have hstep := stepInto_spec h.books.waiting_restored
    have horder := h.order
    rw [hwaiting, List.map_cons] at horder
    have hslot : s.running.length < s.config.maxConcurrentDecodes := by
      have hlength := congrArg List.length horder
      rw [List.length_append, List.length_cons, List.length_map, List.length_map] at hlength
      rw [h.config]
      omega
    have hroom : s.config.headroom s.totalAttentionBlocks r ≤ s.freeAttentionBlocks := by
      have hr : r.request ∈ reqs := by
        rw [← horder]
        simp
      rw [← horder, fitsInOrder_append, h.left] at hfits
      rw [h.config, h.total_eq, headroom_exact (hfoot _ hr)]
      exact hfits.2.2.1
    have hlt := hstep.weight_lt hwaiting hslot hroom
    obtain ⟨n, hn⟩ := ih (h.step hfoot hneed hstep) (by omega)
    exact ⟨n + 1, hn⟩

/-! ### From an empty scheduler -/

/-- Submit requests one after the other, each with its restored prefix. -/
def admitAll (s : Scheduler) (reqs : List (NewRequest × U32)) : Scheduler :=
  reqs.foldl (fun s q => (s.admitWithPrefix q.1 q.2).val.1) s

theorem perSlotTokenCeiling_footprint {cfg : SchedulerConfig} {total : U32} {req : NewRequest}
    (h : (req.promptTokens : ℕ) + req.maxOutputTokens ≤ (new cfg total).perSlotTokenCeiling) :
    cfg.footprint req < 2 ^ 32 := by
  have hdraft : (cfg.draftTokensPerStep : ℕ) < 2 ^ 32 := Fin.isLt _
  have hceiling : (new cfg total).perSlotTokenCeiling
      ≤ 2 ^ 32 - 1 - cfg.draftTokensPerStep :=
    Nat.sub_le_sub_right (Nat.min_le_right _ _) _
  rw [SchedulerConfig.footprint]
  omega

theorem InOrder.new (cfg : SchedulerConfig) (total : U32) :
    InOrder cfg total [] (Scheduler.new cfg total) where
  config := rfl
  total_eq := rfl
  books := new_books cfg total
  order := rfl
  fits := trivial
  left := rfl

theorem admitWithPrefix_refused {s : Scheduler} {req : NewRequest} {computedPrefix : U32}
    (h : s.RefusedOnSight req computedPrefix) :
    (s.admitWithPrefix req computedPrefix).val.1 = s := by
  simp only [admitWithPrefix, Wrapping.ite_val, Wrapping.bind_val, Wrapping.pure_val]
  split
  · rfl
  split
  · rfl
  split
  · rfl
  · rcases h with h | h | h <;> contradiction

theorem admitWithPrefix_accepted {s : Scheduler} {req : NewRequest} {computedPrefix : U32}
    (h : ¬s.RefusedOnSight req computedPrefix) :
    (s.admitWithPrefix req computedPrefix).val.1 = { s with waiting := s.waiting ++ [{
      id := req.id, promptTokens := req.promptTokens
      maxOutputTokens := req.maxOutputTokens
      computedTokens := computedPrefix, blocksReserved := 0 }] } := by
  rw [RefusedOnSight, not_or, not_or] at h
  simp only [admitWithPrefix, Wrapping.bind_val, Wrapping.pure_val, h,
    if_false]

/-- With a slot left for everybody, admission refuses exactly the requests
that need more than the pool. -/
theorem InOrder.admitAll {cfg : SchedulerConfig} {total : U32} :
    ∀ {reqs : List (NewRequest × U32)} {queued : List NewRequest} {s : Scheduler},
      (∀ q ∈ reqs, cfg.footprint q.1 < 2 ^ 32) → (∀ q ∈ reqs, (q.2 : ℕ) ≤ q.1.promptTokens) →
      s.running = [] → queued.length + reqs.length ≤ cfg.maxConcurrentDecodes →
      InOrder cfg total queued s →
      InOrder cfg total
        (queued ++ (reqs.map Prod.fst).filter fun req => cfg.exactBlocks req ≤ total)
        (s.admitAll reqs) := by
  intro reqs
  induction reqs with
  | nil =>
    intro queued s _ _ _ _ h
    rw [List.map_nil, List.filter_nil, List.append_nil]
    exact h
  | cons q reqs ih =>
    intro queued s hfoot hrestored hidle hlen h
    obtain ⟨req, computedPrefix⟩ := q
    have hreq := hfoot (req, computedPrefix) (by simp)
    have hrest : ∀ q ∈ reqs, cfg.footprint q.1 < 2 ^ 32 := fun q hq => hfoot q (by simp [hq])
    have hrest' : ∀ q ∈ reqs, (q.2 : ℕ) ≤ q.1.promptTokens := fun q hq => hrestored q (by simp [hq])
    have hle : (computedPrefix : ℕ) ≤ req.promptTokens := hrestored (req, computedPrefix) (by simp)
    have hneeded : (s.config.attentionBlocksNeeded req.fullSeqLen).val = cfg.exactBlocks req := by
      rw [h.config]
      -- with a slot for everybody, the queue is shorter than its bound
      exact SchedulerConfig.attentionBlocksNeeded_exact hreq
    have hwaiting : s.waiting.length = queued.length := by
      have hlength := congrArg List.length h.order
      rw [hidle] at hlength
      simpa using hlength
    rw [List.length_cons] at hlen
    have hqueue : s.waiting.length % 2 ^ 32 < s.config.maxWaitingRequests := by
      have hslots := cfg.maxConcurrentDecodes_le_maxWaitingRequests
      rw [h.config, hwaiting]
      exact lt_of_le_of_lt (Nat.mod_le _ _) (by omega)
    rw [Scheduler.admitAll, List.foldl_cons, List.map_cons]
    -- admitted: it queues behind those before it
    by_cases hfits : cfg.exactBlocks req ≤ total
    · have haccepted : ¬s.RefusedOnSight req computedPrefix := by
        rw [RefusedOnSight, hneeded, h.total_eq]
        omega
      rw [List.filter_cons_of_pos (by simpa using hfits), admitWithPrefix_accepted haccepted,
        ← List.singleton_append, ← List.append_assoc]
      refine ih hrest hrest' hidle (by rw [List.length_append, List.length_singleton]; omega) ?_
      refine ⟨h.config, h.total_eq, ?_, ?_, h.fits, h.left⟩
      · have hqueued := Moved.queued (s := s)
          (show (Op.admitWithPrefix req computedPrefix).submission = some (req, computedPrefix)
            from rfl) hle (by rw [hneeded, h.total_eq]; exact hfits) hqueue
        exact hqueued.books h.books
      · rw [List.map_append, ← List.append_assoc, h.order]
        rfl
    -- refused, for the pool is too small for it
    · have hrefused : s.RefusedOnSight req computedPrefix := by
        rw [RefusedOnSight, hneeded, h.total_eq]
        omega
      rw [List.filter_cons_of_neg (by simpa using hfits), admitWithPrefix_refused hrefused]
      exact ih hrest hrest' hidle (by omega) h

/-- All of these requests, and nobody else, are running from some step on. -/
def AllRun (s : Scheduler) (reqs : List NewRequest) : Prop :=
  ∃ n, ∀ k, n ≤ k → (steps k s).waiting = [] ∧
    (steps k s).running.map TrackedRequest.request = reqs

theorem steps_add (n k : ℕ) : ∀ s : Scheduler, steps (n + k) s = steps k (steps n s) := by
  induction n with
  | zero =>
    intro s
    rw [Nat.zero_add]
    rfl
  | succ n ih =>
    intro s
    rw [Nat.succ_add, steps, steps, ih]

section SlotShare

variable {cfg : SchedulerConfig} {total : U32} {reqs : List (NewRequest × U32)}
  (hlen : reqs.length = cfg.maxConcurrentDecodes)
  (hceiling : ∀ q ∈ reqs, (q.1.promptTokens : ℕ) + q.1.maxOutputTokens
    ≤ (new cfg total).perSlotTokenCeiling)
  (hrestored : ∀ q ∈ reqs, (q.2 : ℕ) ≤ q.1.promptTokens)

include hlen hceiling hrestored

theorem admitAll_inOrder : InOrder cfg total
    ((reqs.map Prod.fst).filter fun req => cfg.exactBlocks req ≤ total)
    ((new cfg total).admitAll reqs) := by
  have h := InOrder.admitAll (fun q hq => perSlotTokenCeiling_footprint (hceiling q hq)) hrestored
    rfl (by rw [List.length_nil, Nat.zero_add, hlen]) (InOrder.new cfg total)
  rwa [List.nil_append] at h

omit hlen hrestored in
theorem footprint_of_ceiling : ∀ req ∈ reqs.map Prod.fst, cfg.footprint req < 2 ^ 32 := by
  intro req hreq
  obtain ⟨q, hq, rfl⟩ := List.mem_map.mp hreq
  exact perSlotTokenCeiling_footprint (hceiling q hq)

theorem fitsInOrder_of_allRun
    (h : AllRun ((new cfg total).admitAll reqs) (reqs.map Prod.fst)) :
    FitsInOrder cfg total (reqs.map Prod.fst) total := by
  obtain ⟨n, hn⟩ := h
  obtain ⟨-, hrunning⟩ := hn n le_rfl
  have hinit := admitAll_inOrder hlen hceiling hrestored
  have horder := InOrder.steps
    (fun req hreq => footprint_of_ceiling hceiling req (List.mem_of_mem_filter hreq))
    (fun req hreq => by simpa using (List.mem_filter.mp hreq).2) n hinit
  rw [← hrunning]
  exact horder.fits

theorem allRun_of_fitsInOrder (h : FitsInOrder cfg total (reqs.map Prod.fst) total) :
    AllRun ((new cfg total).admitAll reqs) (reqs.map Prod.fst) := by
  have hneed : ∀ {qs : List NewRequest} {left : ℕ}, FitsInOrder cfg total qs left →
      ∀ req ∈ qs, cfg.exactBlocks req ≤ total := by
    intro qs
    induction qs with
    | nil => simp
    | cons q qs ih =>
      rintro left ⟨hq, -, hqs⟩ req hreq
      rcases List.mem_cons.mp hreq with rfl | hreq
      · exact hq
      · exact ih hqs req hreq
  have hall := hneed h
  have hinit := admitAll_inOrder hlen hceiling hrestored
  rw [List.filter_eq_self.mpr (fun req hreq => by simpa using hall req hreq)] at hinit
  have hfoot := footprint_of_ceiling hceiling
  have hcount : (reqs.map Prod.fst).length ≤ cfg.maxConcurrentDecodes := by
    rw [List.length_map, hlen]
  obtain ⟨n, hn⟩ := InOrder.drains hfoot hcount h hall _ hinit le_rfl
  refine ⟨n, fun k hk => ?_⟩
  obtain ⟨d, rfl⟩ := Nat.exists_eq_add_of_le hk
  have hdrained : (steps (n + d) ((new cfg total).admitAll reqs)).waiting = [] := by
    rw [steps_add]
    exact steps_drained (hinit.steps hfoot hall n).books hn d
  refine ⟨hdrained, ?_⟩
  have horder := (hinit.steps hfoot hall (n + d)).order
  rw [hdrained, List.map_nil, List.append_nil] at horder
  exact horder

/-- One request within the slot ceiling for every slot: all of them come to
run together exactly when they fit the pool in order, watermark included. -/
theorem slot_share_iff :
    AllRun ((new cfg total).admitAll reqs) (reqs.map Prod.fst) ↔
      FitsInOrder cfg total (reqs.map Prod.fst) total :=
  ⟨fitsInOrder_of_allRun hlen hceiling hrestored, allRun_of_fitsInOrder hlen hceiling hrestored⟩

end SlotShare

/-- Four requests of seven blocks, ten kept free, in a pool of forty. -/
theorem slot_share_witness :
    AllRun ((new quarterWatermark 40).admitAll
      [(⟨1, 1700, 80⟩, 0), (⟨2, 1700, 80⟩, 256), (⟨3, 1700, 80⟩, 0), (⟨4, 1700, 80⟩, 0)])
      [⟨1, 1700, 80⟩, ⟨2, 1700, 80⟩, ⟨3, 1700, 80⟩, ⟨4, 1700, 80⟩] :=
  (slot_share_iff rfl (by decide) (by decide)).mpr (by simp only [List.map, FitsInOrder]; decide)

/-- Four requests of one share each, ten blocks, never run together: the
fourth asks for its ten and the watermark's when ten are left. -/
theorem four_shares_starve :
    (∀ q ∈ [(⟨1, 2480, 80⟩, 0), (⟨2, 2480, 80⟩, 0), (⟨3, 2480, 80⟩, 0), (⟨4, 2480, 80⟩, 0)],
      ((q : NewRequest × U32).1.promptTokens : ℕ) + q.1.maxOutputTokens
        ≤ (new quarterWatermark 40).perSlotTokenCeiling) ∧
    ¬AllRun ((new quarterWatermark 40).admitAll
        [(⟨1, 2480, 80⟩, 0), (⟨2, 2480, 80⟩, 0), (⟨3, 2480, 80⟩, 0), (⟨4, 2480, 80⟩, 0)])
      [⟨1, 2480, 80⟩, ⟨2, 2480, 80⟩, ⟨3, 2480, 80⟩, ⟨4, 2480, 80⟩] := by
  have hceiling : ∀ q ∈ [(⟨1, 2480, 80⟩, 0), (⟨2, 2480, 80⟩, 0), (⟨3, 2480, 80⟩, 0),
      (⟨4, 2480, 80⟩, 0)], ((q : NewRequest × U32).1.promptTokens : ℕ) + q.1.maxOutputTokens
        ≤ (new quarterWatermark 40).perSlotTokenCeiling := by decide
  refine ⟨hceiling, fun hall => ?_⟩
  have hfits := fitsInOrder_of_allRun rfl hceiling (by decide) hall
  simp only [List.map, FitsInOrder] at hfits
  exact absurd hfits (by decide)

end Scheduler
