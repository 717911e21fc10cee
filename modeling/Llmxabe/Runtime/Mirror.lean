/-
The physical caches of a worker mirror the scheduler's reservations.

`Mirrored` is the invariant of a worker between two calls, whatever its device
does: what the slots hold is what the scheduler has reserved for the running
requests that have been handed to the device, and a running request waits to
be handed over only while it is pending.

* `stepOn_mirrored`: a step keeps it and never fails for want of a block, a
  GDN slot or a reservation slot, on any device that serves only the requests
  it was given (`Device.Lawful`), whether or not the device fails;
* `deviceRuntime_lawful`: the modelled runtime is such a device;
* `cache_mirror`: the same along every run of admissions, steps and
  cancellations, failed steps included.

A step that fails while it hands requests over leaves those behind it running
but pending, without a reservation: `failed_handover_holds_nothing`.
-/
import Llmxabe.Runtime.Lockstep
import Llmxabe.Runtime.Slots
import Llmxabe.Sched.Admission

variable {Row κ σ : Type}

open Scheduler (Books HeadroomFits ids reservedSum)

/-! ### What the scheduler has reserved -/

/-- The blocks reserved for a request, none if it does not run. -/
def Scheduler.blocksOf (s : Scheduler) (id : RequestId) : ℕ :=
  (s.reservedAttentionBlocks id).getD 0

section Reserved

variable {s : Scheduler}

theorem reservedAttentionBlocks_of_mem (hnodup : (ids s.running).Nodup) {r : TrackedRequest}
    (hr : r ∈ s.running) : s.reservedAttentionBlocks r.id = some r.blocksReserved := by
  rcases hfind : s.running.find? (·.id == r.id) with _ | q
  · exact absurd (beq_self_eq_true r.id) (List.find?_eq_none.mp hfind r hr)
  · have hid : q.id = r.id := by simpa using List.find?_some hfind
    have hq : q = r := List.inj_on_of_nodup_map hnodup (List.mem_of_find?_eq_some hfind) hr hid
    rw [Scheduler.reservedAttentionBlocks, hfind, hq]
    rfl

theorem blocksOf_of_mem (hnodup : (ids s.running).Nodup) {r : TrackedRequest}
    (hr : r ∈ s.running) : s.blocksOf r.id = r.blocksReserved := by
  rw [Scheduler.blocksOf, reservedAttentionBlocks_of_mem hnodup hr]
  rfl

/-- Distinct running requests hold no more than is reserved. -/
theorem sum_blocksOf_le (hnodup : (ids s.running).Nodup) {owners : List RequestId}
    (howners : owners.Nodup) (hsub : ∀ id ∈ owners, id ∈ ids s.running) :
    (owners.map s.blocksOf).sum ≤ reservedSum s.running := by
  have hall : reservedSum s.running = ((ids s.running).map s.blocksOf).sum := by
    rw [reservedSum, ids, List.map_map]
    exact congrArg List.sum (List.map_congr_left fun r hr => (blocksOf_of_mem hnodup hr).symm)
  rw [hall, ← List.sum_toFinset _ howners, ← List.sum_toFinset _ hnodup]
  refine Finset.sum_le_sum_of_subset fun id hid => ?_
  rw [List.mem_toFinset] at hid ⊢
  exact hsub id hid

end Reserved

/-! ### The invariant -/

/-- The slots of a worker hold what its scheduler has reserved. -/
structure Mirrored (w : Worker κ σ) : Prop where
  books : Books w.scheduler
  balance : w.scheduler.freeAttentionBlocks + reservedSum w.scheduler.running
    = w.scheduler.totalAttentionBlocks
  nodup : (ids w.scheduler.tracked).Nodup
  housed : Housed w.scheduler.blocksOf w
  total : w.attentionPool.total = w.scheduler.totalAttentionBlocks
  width : w.reservations.length = w.scheduler.config.maxConcurrentDecodes
  gdn_enough : (w.scheduler.config.maxConcurrentDecodes : ℕ) ≤ w.gdnPool.total
  owners : ∀ id ∈ w.owners, id ∈ ids w.scheduler.running
  held : ∀ id ∈ ids w.scheduler.running, id ∈ w.owners ↔ w.pending.lookup id = none
  waiting : ∀ id ∈ ids w.scheduler.waiting, (w.pending.lookup id).isSome
  pending : ∀ id p, w.pending.lookup id = some p →
    p.request.id = id ∧ id ∈ ids w.scheduler.tracked
  resident : ∀ id, (w.runtime.lookup id).isSome → id ∈ w.owners

theorem ids_tracked (s : Scheduler) : ids s.tracked = ids s.waiting ++ ids s.running :=
  List.map_append

section Mirror

variable {w : Worker κ σ}

theorem Mirrored.running_nodup (h : Mirrored w) : (ids w.scheduler.running).Nodup := by
  have hnodup := h.nodup
  rw [ids_tracked] at hnodup
  exact (List.nodup_append.mp hnodup).2.1

theorem Mirrored.not_running (h : Mirrored w) {id : RequestId}
    (hid : id ∈ ids w.scheduler.waiting) : id ∉ ids w.scheduler.running := by
  have hnodup := h.nodup
  rw [ids_tracked] at hnodup
  exact fun hrun => (List.nodup_append.mp hnodup).2.2 id hid id hrun rfl

theorem Housed.congr {blocks blocks' : RequestId → ℕ} (h : Housed blocks w)
    (hblocks : ∀ id ∈ w.owners, blocks' id = blocks id) : Housed blocks' w := by
  refine ⟨h.attention, h.gdn, h.owners_nodup, fun slot hslot => ?_⟩
  rcases h.slot slot hslot with hempty | ⟨id, g, hid, hgdn, hlength⟩
  · exact Or.inl hempty
  · exact Or.inr ⟨id, g, hid, hgdn,
      hlength.trans (hblocks id (mem_owners.mpr ⟨slot, hslot, hid⟩)).symm⟩

/-- The slots, the pools and the owners do not depend on the rest. -/
theorem Housed.frame {blocks : RequestId → ℕ} {w' : Worker κ σ} (h : Housed blocks w)
    (hattention : w'.attentionPool = w.attentionPool) (hgdn : w'.gdnPool = w.gdnPool)
    (hslots : w'.reservations = w.reservations) : Housed blocks w' := by
  have howners : w'.owners = w.owners := by rw [Worker.owners, hslots, Worker.owners]
  have htables : w'.tables = w.tables := by rw [Worker.tables, hslots, Worker.tables]
  have hgdns : w'.gdnSlots = w.gdnSlots := by rw [Worker.gdnSlots, hslots, Worker.gdnSlots]
  exact ⟨by rw [hattention, htables]; exact h.attention, by rw [hgdn, hgdns]; exact h.gdn,
    by rw [howners]; exact h.owners_nodup, by rw [hslots]; exact h.slot⟩

/-! ### The scheduler moves -/

/-- The same requests, with those that ran still running on what they hold. -/
structure Rescheduled (s s' : Scheduler) : Prop where
  config : s'.config = s.config
  total : s'.totalAttentionBlocks = s.totalAttentionBlocks
  books : Books s'
  balance : s'.freeAttentionBlocks + reservedSum s'.running = s'.totalAttentionBlocks
  nodup : (ids s'.tracked).Nodup
  tracked : ∀ id, id ∈ ids s'.tracked ↔ id ∈ ids s.tracked
  running : ∀ r ∈ s.running, ∃ r' ∈ s'.running, r'.id = r.id ∧ r'.blocksReserved = r.blocksReserved

theorem Mirrored.rescheduled (h : Mirrored w) {s' : Scheduler}
    (hs : Rescheduled w.scheduler s') : Mirrored { w with scheduler := s' } := by
  have hrun : ∀ id ∈ ids w.scheduler.running, id ∈ ids s'.running := by
    intro id hid
    obtain ⟨r, hr, rfl⟩ := List.mem_map.mp hid
    obtain ⟨r', hr', hid', -⟩ := hs.running r hr
    exact hid' ▸ List.mem_map_of_mem hr'
  have hnodup := hs.nodup
  rw [ids_tracked] at hnodup
  obtain ⟨-, hnodup', hdisjoint⟩ := List.nodup_append.mp hnodup
  have hblocks : ∀ id ∈ w.owners, s'.blocksOf id = w.scheduler.blocksOf id := by
    intro id hid
    obtain ⟨r, hr, rfl⟩ := List.mem_map.mp (h.owners id hid)
    obtain ⟨r', hr', hid', hreserved⟩ := hs.running r hr
    rw [blocksOf_of_mem h.running_nodup hr, ← hid', blocksOf_of_mem hnodup' hr', hreserved]
  refine ⟨hs.books, hs.balance, hs.nodup, (h.housed.congr hblocks).frame rfl rfl rfl,
    h.total.trans (congrArg Fin.val hs.total).symm, ?_, ?_, fun id hid => hrun id (h.owners id hid),
    fun id hid => ?_, fun id hid => ?_, fun id p hp => ?_, h.resident⟩
  · rw [hs.config]
    exact h.width
  · rw [hs.config]
    exact h.gdn_enough
  · rcases Scheduler.mem_ids_tracked.mp ((hs.tracked id).mp
      (Scheduler.mem_ids_tracked.mpr (Or.inr hid))) with hwait | hold
    · -- just pulled from the queue: still pending, and without a slot
      refine ⟨fun howns => absurd (h.owners id howns) (h.not_running hwait), fun hnone => ?_⟩
      have hsome := h.waiting id hwait
      rw [hnone] at hsome
      cases hsome
    · exact h.held id hold
  · rcases Scheduler.mem_ids_tracked.mp ((hs.tracked id).mp
      (Scheduler.mem_ids_tracked.mpr (Or.inl hid))) with hwait | hold
    · exact h.waiting id hwait
    · exact absurd rfl (hdisjoint id hid id (hrun id hold))
  · obtain ⟨hid, htracked⟩ := h.pending id p hp
    exact ⟨hid, (hs.tracked id).mpr htracked⟩

theorem stepInto_rescheduled {s : Scheduler} (hbooks : Books s)
    (hbalance : s.freeAttentionBlocks + reservedSum s.running = s.totalAttentionBlocks)
    (hnodup : (ids s.tracked).Nodup)
    (hfits : ∀ r ∈ s.waiting, HeadroomFits s.config s.totalAttentionBlocks r) :
    Rescheduled s s.stepInto.val.1 := by
  have hstep := Scheduler.stepInto_spec hbooks.waiting_restored
  have hmoved := Scheduler.Moved.stepped hstep
  obtain ⟨decoded, shared, grants, admissions, hshape⟩ := hstep.shape hnodup
  refine ⟨hstep.config, hstep.total, hstep.books hbooks,
    hmoved.balance hbooks.ledgered.free_lt (fun _ => hfits) hbalance, hshape.nodup',
    hshape.tracked, fun r hr => ?_⟩
  have hpinned := hshape.grant.pinned.trans hshape.decode.pinned
  have hmem : r.pinned ∈ shared.map TrackedRequest.pinned :=
    hpinned.symm ▸ List.mem_map_of_mem hr
  obtain ⟨r', hr', hpin⟩ := List.mem_map.mp hmem
  exact ⟨r', hshape.admission.running_sublist r' hr',
    congrArg NewRequest.id (TrackedRequest.request_congr hpin), TrackedRequest.reserved_congr hpin⟩

theorem advanceDecode_rescheduled {s : Scheduler} (log : StepLog) (item : DecodeItem)
    (hbooks : Books s)
    (hbalance : s.freeAttentionBlocks + reservedSum s.running = s.totalAttentionBlocks)
    (hnodup : (ids s.tracked).Nodup) : Rescheduled s (Worker.advanceDecode log s item) := by
  have hsame : Rescheduled s s :=
    ⟨rfl, rfl, hbooks, hbalance, hnodup, fun _ => Iff.rfl, fun r hr => ⟨r, hr, rfl, rfl⟩⟩
  rw [Worker.advanceDecode]
  split
  · have hmoved := s.advanceSpeculative_moved item.id
      (Fin.ofNat (2 ^ 32) ((log.tokens item.id).length % 2 ^ 32 - 1))
    generalize (s.advanceSpeculative item.id _).val = result at hmoved ⊢
    obtain ⟨s', found⟩ := result
    simp only at hmoved ⊢
    have hbooks' := hmoved.books hbooks
    have hbalance' := hmoved.balance hbooks.ledgered.free_lt (fun h => by cases h) hbalance
    cases hmoved with
    | missing _ => exact hsame
    | @advanced _ _ r before after hrs hid =>
      have hids : ids (before ++ { r with
          computedTokens := min (satAddU32 r.computedTokens
            (Fin.ofNat (2 ^ 32) ((log.tokens item.id).length % 2 ^ 32 - 1))) r.fullSeqLen.val }
            :: after) = ids s.running := by
        rw [hrs]
        simp [ids]
      have htracked : ids s.tracked = ids s.waiting ++ ids s.running := ids_tracked s
      rw [← hids] at htracked
      refine ⟨rfl, rfl, hbooks', hbalance', ?_, fun id => ?_, fun q hq => ?_⟩
      · rw [ids_tracked, ← htracked]
        exact hnodup
      · rw [ids_tracked, htracked]
      · rw [hrs] at hq
        rcases List.mem_append.mp hq with hq | hq
        · exact ⟨q, List.mem_append_left _ hq, rfl, rfl⟩
        · rcases List.mem_cons.mp hq with rfl | hq
          · exact ⟨_, List.mem_append_right _ List.mem_cons_self, rfl, rfl⟩
          · exact ⟨q, List.mem_append_right _ (List.mem_cons_of_mem _ hq), rfl, rfl⟩
    | released hop _ _ => cases hop
  · exact hsame

theorem Mirrored.advanceDecodes (log : StepLog) :
    ∀ {items : List DecodeItem} {w : Worker κ σ}, Mirrored w →
      Mirrored { w with scheduler := items.foldl (Worker.advanceDecode log) w.scheduler } := by
  intro items
  induction items with
  | nil => exact fun h => h
  | cons item items ih =>
    intro w h
    exact ih (h.rescheduled (advanceDecode_rescheduled log item h.books h.balance h.nodup))

end Mirror

/-! ### The device serves the requests it was given -/

/-- A device that ends up with no requests but those it was given, and does
not keep those it has completed. -/
structure Device.Lawful (device : Device κ σ) : Prop where
  accept : ∀ {p : PendingSequence κ σ} {seqs seqs' : Sequences κ σ},
    device.accept p seqs = .ok seqs' →
    ∀ id, (seqs'.lookup id).isSome → id = p.request.id ∨ (seqs.lookup id).isSome
  accept_error : ∀ {p : PendingSequence κ σ} {seqs seqs' : Sequences κ σ} {e : RuntimeError},
    device.accept p seqs = .error (e, seqs') →
    ∀ id, (seqs'.lookup id).isSome → id = p.request.id ∨ (seqs.lookup id).isSome
  execute : ∀ {b : BatchDescription} {seqs seqs' : Sequences κ σ} {step : RuntimeStep},
    device.execute b seqs = .ok (seqs', step) →
    (∀ id, (seqs'.lookup id).isSome → (seqs.lookup id).isSome ∧ id ∉ step.completed) ∧
      ∀ id ∈ step.completed, (seqs.lookup id).isSome
  execute_error : ∀ {b : BatchDescription} {seqs seqs' : Sequences κ σ} {e : RuntimeError},
    device.execute b seqs = .error (e, seqs') →
    ∀ id, (seqs'.lookup id).isSome → (seqs.lookup id).isSome

/-! ### Slots fill, and slots empty -/

/-- Slots have been filled from the free lists, and none changed hands. -/
structure Filled (w w' : Worker κ σ) : Prop where
  owners : ∀ id ∈ w.owners, id ∈ w'.owners ∧ w'.slotOf id = w.slotOf id
  attention : ∀ b ∈ w'.attentionPool.free, b ∈ w.attentionPool.free
  gdn : ∀ g ∈ w'.gdnPool.free, g ∈ w.gdnPool.free
  taken : ∀ id ∈ w'.owners, id ∉ w.owners → (∀ b ∈ w'.table id, b ∈ w.attentionPool.free) ∧
    ∀ g, (w'.slotOf id).gdn = some g → g ∈ w.gdnPool.free

/-- Slots have been emptied into the free lists, and none changed hands. -/
structure Emptied (w w' : Worker κ σ) : Prop where
  owners : ∀ id ∈ w'.owners, id ∈ w.owners ∧ w'.slotOf id = w.slotOf id
  attention : ∀ b ∈ w.attentionPool.free, b ∈ w'.attentionPool.free
  gdn : ∀ g ∈ w.gdnPool.free, g ∈ w'.gdnPool.free
  returned : ∀ id ∈ w.owners, id ∉ w'.owners → (∀ b ∈ w.table id, b ∈ w'.attentionPool.free) ∧
    ∀ g, (w.slotOf id).gdn = some g → g ∈ w'.gdnPool.free

/-- A request that keeps its slot keeps what is in it, one that loses it gives
all of it back, and one that gains it takes what was free. -/
structure Exchanged (w w' : Worker κ σ) : Prop where
  kept : ∀ id ∈ w.owners, id ∈ w'.owners → w'.slotOf id = w.slotOf id
  returned : ∀ id ∈ w.owners, id ∉ w'.owners → (∀ b ∈ w.table id, b ∈ w'.attentionPool.free) ∧
    ∀ g, (w.slotOf id).gdn = some g → g ∈ w'.gdnPool.free
  taken : ∀ id ∈ w'.owners, id ∉ w.owners → (∀ b ∈ w'.table id, b ∈ w.attentionPool.free) ∧
    ∀ g, (w'.slotOf id).gdn = some g → g ∈ w.gdnPool.free

section Exchange

variable {w w₁ w' : Worker κ σ} {id : RequestId}

theorem Filled.refl (w : Worker κ σ) : Filled w w :=
  ⟨fun _ hid => ⟨hid, rfl⟩, fun _ h => h, fun _ h => h, fun _ hid hnot => absurd hid hnot⟩

theorem Filled.trans (h : Filled w w₁) (h' : Filled w₁ w') : Filled w w' := by
  refine ⟨fun id hid => ?_, fun b hb => h.attention b (h'.attention b hb),
    fun g hg => h.gdn g (h'.gdn g hg), fun id hid hnot => ?_⟩
  · obtain ⟨hid₁, hsame⟩ := h.owners id hid
    obtain ⟨hid', hsame'⟩ := h'.owners id hid₁
    exact ⟨hid', hsame'.trans hsame⟩
  · by_cases hid₁ : id ∈ w₁.owners
    · obtain ⟨-, hsame⟩ := h'.owners id hid₁
      rw [Worker.table, hsame]
      exact h.taken id hid₁ hnot
    · obtain ⟨hblocks, hgdn⟩ := h'.taken id hid hid₁
      exact ⟨fun b hb => h.attention b (hblocks b hb), fun g hg => h.gdn g (hgdn g hg)⟩

/-- Only the slots and the pools matter. -/
theorem Filled.frame (h : Filled w w') (s : Scheduler) (runtime : Sequences κ σ)
    (pending : AList fun _ : RequestId => PendingSequence κ σ) :
    Filled w { w' with scheduler := s, runtime, pending } :=
  ⟨h.owners, h.attention, h.gdn, h.taken⟩

theorem Emptied.refl (w : Worker κ σ) : Emptied w w :=
  ⟨fun _ hid => ⟨hid, rfl⟩, fun _ h => h, fun _ h => h, fun _ hid hnot => absurd hid hnot⟩

theorem Emptied.trans (h : Emptied w w₁) (h' : Emptied w₁ w') : Emptied w w' := by
  refine ⟨fun id hid => ?_, fun b hb => h'.attention b (h.attention b hb),
    fun g hg => h'.gdn g (h.gdn g hg), fun id hid hnot => ?_⟩
  · obtain ⟨hid₁, hsame'⟩ := h'.owners id hid
    obtain ⟨hid', hsame⟩ := h.owners id hid₁
    exact ⟨hid', hsame'.trans hsame⟩
  · by_cases hid₁ : id ∈ w₁.owners
    · obtain ⟨-, hsame⟩ := h.owners id hid₁
      rw [Worker.table, ← hsame]
      exact h'.returned id hid₁ hnot
    · obtain ⟨hblocks, hgdn⟩ := h.returned id hid hid₁
      exact ⟨fun b hb => h'.attention b (hblocks b hb), fun g hg => h'.gdn g (hgdn g hg)⟩

theorem Emptied.of_frame {s : Scheduler} {runtime : Sequences κ σ}
    {pending : AList fun _ : RequestId => PendingSequence κ σ}
    (h : Emptied { w with scheduler := s, runtime, pending } w') : Emptied w w' :=
  ⟨h.owners, h.attention, h.gdn, h.returned⟩

theorem Filled.emptied (h : Filled w w₁) (h' : Emptied w₁ w') : Exchanged w w' := by
  refine ⟨fun id hid hid' => ?_, fun id hid hnot => ?_, fun id hid hnot => ?_⟩
  · exact (h'.owners id hid').2.trans (h.owners id hid).2
  · obtain ⟨hid₁, hsame⟩ := h.owners id hid
    rw [Worker.table, ← hsame]
    exact h'.returned id hid₁ hnot
  · obtain ⟨hid₁, hsame⟩ := h'.owners id hid
    rw [Worker.table, hsame]
    exact h.taken id hid₁ hnot

theorem Taken.filled (h : Taken id w w') (hnew : id ∉ w.owners) : Filled w w' := by
  obtain ⟨g, hg, hfree⟩ := h.gdn
  refine ⟨fun id' hid => ⟨h.owners.mem_iff.mpr (List.mem_cons_of_mem _ hid),
    h.others id' fun heq => hnew (heq ▸ hid)⟩, fun b hb => ?_, fun g' hg' => ?_,
    fun id' hid hnot => ?_⟩
  · rw [h.table]
    exact List.mem_append_right _ hb
  · rw [hfree]
    exact List.mem_cons_of_mem _ hg'
  · have heq : id' = id := (List.mem_cons.mp (h.owners.mem_iff.mp hid)).resolve_right hnot
    subst heq
    refine ⟨fun b hb => ?_, fun g' hg' => ?_⟩
    · rw [h.table]
      exact List.mem_append_left _ hb
    · rw [hfree, Option.some.inj (hg'.symm.trans hg)]
      exact List.mem_cons_self

theorem Returned.emptied (h : Returned id w w') (hnodup : w.owners.Nodup) : Emptied w w' := by
  obtain ⟨g, hg, hfree⟩ := h.gdn
  have hnot : id ∉ w'.owners := (List.nodup_cons.mp (h.owners.nodup_iff.mp hnodup)).1
  refine ⟨fun id' hid => ⟨h.owners.mem_iff.mpr (List.mem_cons_of_mem _ hid),
    h.others id' fun heq => hnot (heq ▸ hid)⟩, fun b hb => ?_, fun g' hg' => ?_,
    fun id' hid hgone => ?_⟩
  · rw [h.table]
    exact List.mem_append_right _ hb
  · rw [hfree]
    exact List.mem_cons_of_mem _ hg'
  · have heq : id' = id := (List.mem_cons.mp (h.owners.mem_iff.mp hid)).resolve_right hgone
    subst heq
    refine ⟨fun b hb => ?_, fun g' hg' => ?_⟩
    · rw [h.table]
      exact List.mem_append_left _ (List.mem_reverse.mpr hb)
    · rw [hfree, Option.some.inj (hg'.symm.trans hg)]
      exact List.mem_cons_self

end Exchange

/-! ### Requests are handed over -/

section Step

variable {device : Device κ σ} {w : Worker κ σ}

theorem Mirrored.handOver (h : Mirrored w) {id : RequestId} {p : PendingSequence κ σ}
    (hp : w.pending.lookup id = some p) (hrun : id ∈ ids w.scheduler.running) :
    ∃ w₁, w.reserveCache id = .ok w₁ ∧ Filled w w₁ ∧ w₁.scheduler = w.scheduler ∧
      w₁.runtime = w.runtime ∧ w₁.pending = w.pending ∧
      ∀ runtime : Sequences κ σ,
        (∀ id', (runtime.lookup id').isSome → id' = id ∨ (w.runtime.lookup id').isSome) →
        Mirrored { w₁ with runtime, pending := w₁.pending.erase id } := by
  have hnodup := h.running_nodup
  have hid : id ∉ w.owners := fun howns => by
    rw [(h.held id hrun).mp howns] at hp
    cases hp
  -- the request and the owners are distinct running requests
  have hcons : (id :: w.owners).Nodup := List.nodup_cons.mpr ⟨hid, h.housed.owners_nodup⟩
  have hsub : ∀ id' ∈ id :: w.owners, id' ∈ ids w.scheduler.running := by
    rw [List.forall_mem_cons]
    exact ⟨hrun, h.owners⟩
  have hfew : w.owners.length + 1 ≤ w.scheduler.running.length := by
    have hle := (List.subperm_of_subset hcons hsub).length_le
    rwa [List.length_cons, ids, List.length_map] at hle
  -- what the other owners hold leaves the pool enough for this request's reservation
  have hsum := sum_blocksOf_le hnodup hcons hsub
  rw [List.map_cons, List.sum_cons] at hsum
  have hslots := h.books.ledgered.slots
  have hfree := h.housed.free_length
  have hgdn := h.housed.gdn_length
  have hbalance := h.balance
  have htotal := h.total
  have hwidth := h.width
  have henough := h.gdn_enough
  obtain ⟨r, hr, hrid⟩ := List.mem_map.mp hrun
  obtain ⟨w₁, hok, htaken, hhoused⟩ := reserveCache_taken h.housed hid
    (by rw [← show r.id = id from hrid, reservedAttentionBlocks_of_mem hnodup hr,
      blocksOf_of_mem hnodup hr])
    (by omega) (by omega) (by
      intro hnil
      rw [hnil, List.length_nil] at hgdn
      omega)
  refine ⟨w₁, hok, htaken.filled hid, htaken.scheduler, htaken.runtime, htaken.pending,
    fun runtime hruntime => ?_⟩
  -- the other pending entries, and the owners with the new one
  have hlook : ∀ id', id' ≠ id → (w₁.pending.erase id).lookup id' = w.pending.lookup id' :=
    fun id' hne => by rw [AList.lookup_erase_ne hne, htaken.pending]
  have howners : ∀ id', id' ∈ w₁.owners ↔ id' = id ∨ id' ∈ w.owners := fun id' => by
    rw [htaken.owners.mem_iff, List.mem_cons]
  have hsched := htaken.scheduler
  refine ⟨?_, ?_, ?_, ?_, ?_, ?_, ?_, fun id' hid' => ?_, fun id' hid' => ?_, fun id' hid' => ?_,
    fun id' p' hp' => ?_, fun id' hid' => ?_⟩
  · rw [hsched]
    exact h.books
  · rw [hsched]
    exact h.balance
  · rw [hsched]
    exact h.nodup
  · rw [hsched]
    exact hhoused.frame rfl rfl rfl
  · rw [hsched, htaken.total]
    exact h.total
  · rw [hsched, htaken.width]
    exact h.width
  · rw [hsched, htaken.gdn_total]
    exact h.gdn_enough
  · rw [hsched]
    rcases (howners id').mp hid' with rfl | hid'
    · exact hrun
    · exact h.owners id' hid'
  -- a running request has a slot exactly if it is not pending any more
  · rw [hsched] at hid'
    by_cases hne : id' = id
    · rw [hne, AList.lookup_erase]
      exact ⟨fun _ => rfl, fun _ => (howners id).mpr (Or.inl rfl)⟩
    · rw [hlook id' hne, ← h.held id' hid']
      exact (howners id').trans (or_iff_right hne)
  · rw [hsched] at hid'
    rw [hlook id' fun heq => h.not_running hid' (heq ▸ hrun)]
    exact h.waiting id' hid'
  · have hne : id' ≠ id := by
      rintro rfl
      rw [AList.lookup_erase] at hp'
      cases hp'
    rw [hsched]
    exact h.pending id' p' ((hlook id' hne).symm.trans hp')
  -- who is resident now was resident, or has just been handed over
  · refine (howners id').mpr ?_
    rcases hruntime id' hid' with heq | hold
    · exact Or.inl heq
    · exact Or.inr (h.resident id' hold)

/-- Handing over requests that run keeps the mirror, up to where it fails. -/
theorem Mirrored.admitScheduled (hdevice : device.Lawful) :
    ∀ {items : List PrefillItem} {w : Worker κ σ}, Mirrored w →
      (∀ item ∈ items, item.id ∈ ids w.scheduler.running) →
      (∀ w', w.admitScheduled device items = .ok w' →
        Mirrored w' ∧ Filled w w' ∧ w'.scheduler = w.scheduler ∧
          (∀ item ∈ items, w'.pending.lookup item.id = none) ∧
          ∀ id, w.pending.lookup id = none → w'.pending.lookup id = none) ∧
      ∀ e w', w.admitScheduled device items = .error (e, w') →
        Mirrored w' ∧ Filled w w' ∧ ∃ err, e = .runtime err := by
  intro items
  induction items with
  | nil =>
    intro w h _
    refine ⟨fun w' hok => ?_, fun e w' herr => ?_⟩
    · simp only [Worker.admitScheduled, Except.ok.injEq] at hok
      subst hok
      exact ⟨h, Filled.refl w, rfl, fun _ hitem => absurd hitem List.not_mem_nil, fun _ hid => hid⟩
    · cases herr
  | cons item items ih =>
    intro w h hitems
    rw [List.forall_mem_cons] at hitems
    rw [Worker.admitScheduled]
    rcases hpend : w.pending.lookup item.id with _ | p
    -- not pending: it has its slot already
    · simp only
      obtain ⟨hok, herr⟩ := ih h hitems.2
      refine ⟨fun w' hw' => ?_, herr⟩
      obtain ⟨hmirrored, hfilled, hsched, hdone, hkept⟩ := hok w' hw'
      refine ⟨hmirrored, hfilled, hsched, ?_, hkept⟩
      rw [List.forall_mem_cons]
      exact ⟨hkept item.id hpend, hdone⟩
    · obtain ⟨w₁, hreserve, hfilled₁, hsched₁, hruntime₁, hpending₁, hmirrored₁⟩ :=
        h.handOver hpend hitems.1
      have hpid : p.request.id = item.id := (h.pending item.id p hpend).1
      simp only [hreserve]
      -- the device refuses: the request keeps its slot, and the step ends
      rcases haccept : device.accept p w₁.runtime with ⟨e, runtime⟩ | runtime
      · simp only
        refine ⟨fun w' hw' => ?_, fun e' w' hw' => ?_⟩
        · cases hw'
        · simp only [Except.error.injEq, Prod.mk.injEq] at hw'
          obtain ⟨rfl, rfl⟩ := hw'
          refine ⟨hmirrored₁ runtime fun id' hid' => ?_, hfilled₁.frame _ _ _, e, rfl⟩
          rw [← hpid, ← hruntime₁]
          exact hdevice.accept_error haccept id' hid'
      -- the device accepts, and the rest of the batch follows
      · simp only
        have hmirrored := hmirrored₁ runtime fun id' hid' => by
          rw [← hpid, ← hruntime₁]
          exact hdevice.accept haccept id' hid'
        obtain ⟨hok, herr⟩ := ih hmirrored (by
          intro other hother
          rw [hsched₁]
          exact hitems.2 other hother)
        refine ⟨fun w' hw' => ?_, fun e w' hw' => ?_⟩
        · obtain ⟨hmirrored', hfilled', hsched', hdone, hkept⟩ := hok w' hw'
          refine ⟨hmirrored', (hfilled₁.frame _ _ _).trans hfilled', hsched'.trans hsched₁, ?_,
            fun id hid => hkept id ?_⟩
          · rw [List.forall_mem_cons]
            exact ⟨hkept item.id (AList.lookup_erase _ _), hdone⟩
          · by_cases hne : id = item.id
            · rw [hne]
              exact AList.lookup_erase _ _
            · exact (AList.lookup_erase_ne hne).trans (hpending₁ ▸ hid)
        · obtain ⟨hmirrored', hfilled', hruntime'⟩ := herr e w' hw'
          exact ⟨hmirrored', (hfilled₁.frame _ _ _).trans hfilled', hruntime'⟩

/-- The device may lose requests. -/
theorem Mirrored.reran (h : Mirrored w) {runtime : Sequences κ σ}
    (hruntime : ∀ id, (runtime.lookup id).isSome → (w.runtime.lookup id).isSome) :
    Mirrored { w with runtime } :=
  ⟨h.books, h.balance, h.nodup, h.housed.frame rfl rfl rfl, h.total, h.width, h.gdn_enough,
    h.owners, h.held, h.waiting, h.pending, fun id hid => h.resident id (hruntime id hid)⟩

/-- A request leaves all parts of the worker at once. -/
theorem Mirrored.drop (h : Mirrored w) {id : RequestId} {s' : Scheduler}
    {runtime : Sequences κ σ} {pending : AList fun _ : RequestId => PendingSequence κ σ}
    (hs : Cancelled id w.scheduler s') (hconfig : s'.config = w.scheduler.config)
    (htotal : s'.totalAttentionBlocks = w.scheduler.totalAttentionBlocks) (hbooks : Books s')
    (hbalance : s'.freeAttentionBlocks + reservedSum s'.running = s'.totalAttentionBlocks)
    (hruntime : ∀ id', (runtime.lookup id').isSome → id' ≠ id ∧ (w.runtime.lookup id').isSome)
    (hpending : pending.lookup id = none)
    (hothers : ∀ id', id' ≠ id → pending.lookup id' = w.pending.lookup id') :
    Mirrored (({ w with scheduler := s', runtime, pending }).releaseCache id) ∧
      Emptied w (({ w with scheduler := s', runtime, pending }).releaseCache id) := by
  set w₁ : Worker κ σ := { w with scheduler := s', runtime, pending } with hw₁
  have hhoused₁ : Housed w.scheduler.blocksOf w₁ := h.housed.frame rfl rfl rfl
  obtain ⟨hsched, hruntime', hpending'⟩ := releaseCache_spec id w₁
  have hnodup' : (ids s'.tracked).Nodup := hs.sub.nodup h.nodup
  -- whether or not the request had a slot, the others keep theirs
  have hreleased : (∀ id', id' ∈ (w₁.releaseCache id).owners ↔ id' ≠ id ∧ id' ∈ w.owners) ∧
      Housed w.scheduler.blocksOf (w₁.releaseCache id) ∧ Emptied w (w₁.releaseCache id) ∧
      (w₁.releaseCache id).attentionPool.total = w.attentionPool.total ∧
      (w₁.releaseCache id).gdnPool.total = w.gdnPool.total ∧
      (w₁.releaseCache id).reservations.length = w.reservations.length := by
    by_cases hid : id ∈ w₁.owners
    · obtain ⟨hreturned, hhoused⟩ := releaseCache_returned hhoused₁ hid
      refine ⟨fun id' => ?_, hhoused,
        (hreturned.emptied h.housed.owners_nodup).of_frame, hreturned.total,
        hreturned.gdn_total, hreturned.width⟩
      have hnot := (List.nodup_cons.mp
        (hreturned.owners.nodup_iff.mp h.housed.owners_nodup)).1
      constructor
      · intro hid'
        exact ⟨fun heq => hnot (heq ▸ hid'), hreturned.owners.mem_iff.mpr
          (List.mem_cons_of_mem _ hid')⟩
      · rintro ⟨hne, hid'⟩
        exact (List.mem_cons.mp (hreturned.owners.mem_iff.mp hid')).resolve_left hne
    · rw [releaseCache_stranger hid]
      exact ⟨fun id' => ⟨fun hid' => ⟨fun heq => hid (heq ▸ hid'), hid'⟩, fun hid' => hid'.2⟩,
        hhoused₁, (Emptied.refl w₁).of_frame, rfl, rfl, rfl⟩
  obtain ⟨howners, hhoused, hemptied, hpool, hgdn, hwidth⟩ := hreleased
  -- scheduler and queue lose this request and no other
  have hrunning : ∀ id', id' ∈ ids s'.running ↔ id' ∈ ids w.scheduler.running ∧ id' ≠ id := by
    intro id'
    constructor
    · intro hid'
      obtain ⟨r, hr, rfl⟩ := List.mem_map.mp hid'
      obtain ⟨hr', hne⟩ := (hs.running r).mp hr
      exact ⟨List.mem_map_of_mem hr', hne⟩
    · rintro ⟨hid', hne⟩
      obtain ⟨r, hr, rfl⟩ := List.mem_map.mp hid'
      exact List.mem_map_of_mem ((hs.running r).mpr ⟨hr, hne⟩)
  have hwaiting : ∀ id', id' ∈ ids s'.waiting ↔ id' ∈ ids w.scheduler.waiting ∧ id' ≠ id := by
    intro id'
    constructor
    · intro hid'
      obtain ⟨r, hr, rfl⟩ := List.mem_map.mp hid'
      obtain ⟨hr', hne⟩ := (hs.waiting r).mp hr
      exact ⟨List.mem_map_of_mem hr', hne⟩
    · rintro ⟨hid', hne⟩
      obtain ⟨r, hr, rfl⟩ := List.mem_map.mp hid'
      exact List.mem_map_of_mem ((hs.waiting r).mpr ⟨hr, hne⟩)
  -- the blocks of the other owners do not change
  have hblocks : ∀ id' ∈ (w₁.releaseCache id).owners,
      s'.blocksOf id' = w.scheduler.blocksOf id' := by
    intro id' hid'
    obtain ⟨hne, hold⟩ := (howners id').mp hid'
    obtain ⟨r, hr, rfl⟩ := List.mem_map.mp (h.owners id' hold)
    rw [ids_tracked] at hnodup'
    rw [blocksOf_of_mem h.running_nodup hr,
      blocksOf_of_mem (List.nodup_append.mp hnodup').2.1 ((hs.running r).mpr ⟨hr, hne⟩)]
  refine ⟨⟨?_, ?_, ?_, ?_, ?_, ?_, ?_, fun id' hid' => ?_, fun id' hid' => ?_, fun id' hid' => ?_,
    fun id' p hp => ?_, fun id' hid' => ?_⟩, hemptied⟩
  · rw [hsched]
    exact hbooks
  · rw [hsched]
    exact hbalance
  · rw [hsched]
    exact hnodup'
  · rw [hsched]
    exact hhoused.congr hblocks
  · rw [hsched, hpool, h.total]
    exact congrArg Fin.val htotal.symm
  · rw [hsched, hwidth]
    exact h.width.trans (congrArg (fun c : SchedulerConfig => (c.maxConcurrentDecodes : ℕ))
      hconfig.symm)
  · rw [hsched, hgdn]
    show (s'.config.maxConcurrentDecodes : ℕ) ≤ _
    rw [hconfig]
    exact h.gdn_enough
  · rw [hsched]
    obtain ⟨hne, hold⟩ := (howners id').mp hid'
    exact (hrunning id').mpr ⟨h.owners id' hold, hne⟩
  -- a running request has a slot exactly if it is not pending
  · rw [hsched] at hid'
    obtain ⟨hold, hne⟩ := (hrunning id').mp hid'
    rw [hpending']
    show _ ↔ pending.lookup id' = none
    rw [hothers id' hne, ← h.held id' hold, howners id']
    exact and_iff_right hne
  · rw [hsched] at hid'
    obtain ⟨hold, hne⟩ := (hwaiting id').mp hid'
    rw [hpending']
    show (pending.lookup id').isSome
    rw [hothers id' hne]
    exact h.waiting id' hold
  -- a pending entry belongs to a request that is still tracked
  · rw [hpending'] at hp
    have hp' : pending.lookup id' = some p := hp
    have hne : id' ≠ id := by
      rintro rfl
      rw [hpending] at hp'
      cases hp'
    rw [hothers id' hne] at hp'
    obtain ⟨hpid, htracked⟩ := h.pending id' p hp'
    refine ⟨hpid, ?_⟩
    rw [hsched]
    show id' ∈ ids s'.tracked
    rw [Scheduler.mem_ids_tracked] at htracked ⊢
    rw [hwaiting, hrunning]
    exact htracked.imp (fun hid => ⟨hid, hne⟩) fun hid => ⟨hid, hne⟩
  · rw [hruntime'] at hid'
    obtain ⟨hne, hold⟩ := hruntime id' hid'
    exact (howners id').mpr ⟨hne, h.resident id' hold⟩

/-- A call other than a step keeps the books and the balance. -/
theorem moved_kept {s s' : Scheduler} {op : Op} {out : Outcome} (hmoved : Scheduler.Moved s op out s')
    (hop : op ≠ .stepInto) (hbooks : Books s)
    (hbalance : s.freeAttentionBlocks + reservedSum s.running = s.totalAttentionBlocks) :
    s'.config = s.config ∧ s'.totalAttentionBlocks = s.totalAttentionBlocks ∧ Books s' ∧
      s'.freeAttentionBlocks + reservedSum s'.running = s'.totalAttentionBlocks :=
  ⟨hmoved.config.1, hmoved.config.2, hmoved.books hbooks,
    hmoved.balance hbooks.ledgered.free_lt (fun h => absurd h hop) hbalance⟩

theorem Mirrored.complete (h : Mirrored w) {id : RequestId} (hpending : w.pending.lookup id = none)
    (hruntime : w.runtime.lookup id = none) :
    Mirrored (w.complete id) ∧ Emptied w (w.complete id) := by
  have hwait : id ∉ ids w.scheduler.waiting := fun hid => by
    have hsome := h.waiting id hid
    rw [hpending] at hsome
    cases hsome
  have hfinished := finishRequest_finished id h.running_nodup
  have hcancelled : Cancelled id w.scheduler (w.scheduler.finishRequest id).val.1 := by
    refine ⟨fun r => ?_, fun r => ?_, ?_⟩
    · rw [hfinished.waiting]
      exact ⟨fun hr => ⟨hr, fun heq => hwait (heq ▸ List.mem_map_of_mem hr)⟩, fun hr => hr.1⟩
    · rw [hfinished.running r, List.mem_singleton]
    · rw [ids_tracked, ids_tracked, hfinished.waiting]
      exact (List.Sublist.refl _).append hfinished.sub
  have hkept : (w.scheduler.finishRequest id).val.1.config = w.scheduler.config ∧
      (w.scheduler.finishRequest id).val.1.totalAttentionBlocks
        = w.scheduler.totalAttentionBlocks ∧ Books (w.scheduler.finishRequest id).val.1 ∧
      (w.scheduler.finishRequest id).val.1.freeAttentionBlocks
          + reservedSum (w.scheduler.finishRequest id).val.1.running
        = (w.scheduler.finishRequest id).val.1.totalAttentionBlocks := by
    rcases w.scheduler.finishRequest_moved
      (show (Op.finishRequest id).released = some id from rfl) with hnone | ⟨-, hmoved⟩
    · rw [hnone]
      exact ⟨rfl, rfl, h.books, h.balance⟩
    · exact moved_kept hmoved (fun hop => by cases hop) h.books h.balance
  obtain ⟨hconfig, htotal, hbooks, hbalance⟩ := hkept
  refine h.drop hcancelled hconfig htotal hbooks hbalance (fun id' hid' => ⟨?_, hid'⟩) hpending
    fun _ _ => rfl
  rintro rfl
  rw [hruntime] at hid'
  cases hid'

theorem Mirrored.completes :
    ∀ {gone : List RequestId} {w : Worker κ σ}, Mirrored w →
      (∀ id ∈ gone, w.pending.lookup id = none) → (∀ id ∈ gone, w.runtime.lookup id = none) →
      Mirrored (gone.foldl Worker.complete w) ∧ Emptied w (gone.foldl Worker.complete w) := by
  intro gone
  induction gone with
  | nil => exact fun h _ _ => ⟨h, Emptied.refl _⟩
  | cons id gone ih =>
    intro w h hpending hruntime
    rw [List.forall_mem_cons] at hpending hruntime
    obtain ⟨hmirrored, hemptied⟩ := h.complete hpending.1 hruntime.1
    obtain ⟨-, hsame, hsame'⟩ := releaseCache_spec id
      { w with scheduler := (w.scheduler.finishRequest id).val.1 }
    obtain ⟨hmirrored', hemptied'⟩ := @ih (w.complete id) hmirrored
      (fun id' hid' => by rw [Worker.complete, hsame']; exact hpending.2 id' hid')
      (fun id' hid' => by rw [Worker.complete, hsame]; exact hruntime.2 id' hid')
    exact ⟨hmirrored', hemptied.trans hemptied'⟩

/-- No running request waits to be handed over. -/
def Worker.Settled (w : Worker κ σ) : Prop :=
  ∀ id ∈ ids w.scheduler.running, w.pending.lookup id = none

/-- The step gets its requests to the device. -/
def Worker.handsOver (device : Device κ σ) (w : Worker κ σ) : Bool :=
  (({ w with scheduler := w.scheduler.stepInto.val.1 }).admitScheduled device
    w.scheduler.stepInto.val.2.prefills).toOption.isSome

/-- The requests a batch prefills all run. -/
theorem Mirrored.prefills_running (h : Mirrored w) : ∀ item ∈ w.scheduler.stepInto.val.2.prefills,
    item.id ∈ ids w.scheduler.stepInto.val.1.running := by
  obtain ⟨_, _, _, _, hshape⟩ := (Scheduler.stepInto_spec h.books.waiting_restored).shape h.nodup
  intro item hitem
  rw [hshape.ids_running, List.mem_append]
  exact (hshape.mem_prefills.mp (List.mem_map_of_mem hitem)).imp hshape.grants_running id

/-- Once its requests are with the device, a settled worker is settled. -/
theorem Mirrored.settled_prefills (h : Mirrored w) (hsettled : w.Settled)
    {pending : AList fun _ : RequestId => PendingSequence κ σ}
    (hdone : ∀ item ∈ w.scheduler.stepInto.val.2.prefills, pending.lookup item.id = none)
    (hkept : ∀ id, w.pending.lookup id = none → pending.lookup id = none) :
    ∀ id ∈ ids w.scheduler.stepInto.val.1.running, pending.lookup id = none := by
  obtain ⟨_, _, _, _, hshape⟩ := (Scheduler.stepInto_spec h.books.waiting_restored).shape h.nodup
  intro id hid
  rw [hshape.ids_running, List.mem_append] at hid
  rcases hid with hid | hid
  · exact hkept id (hsettled id hid)
  · obtain ⟨item, hitem, rfl⟩ := List.mem_map.mp hid
    exact hdone item (hshape.prefills ▸ List.mem_append_right _ hitem)

theorem Mirrored.advanceDecodes_ids (log : StepLog) :
    ∀ {items : List DecodeItem} {w : Worker κ σ}, Mirrored w →
      ids (items.foldl (Worker.advanceDecode log) w.scheduler).running
        = ids w.scheduler.running := by
  intro items
  induction items with
  | nil => exact fun _ => rfl
  | cons item items ih =>
    intro w h
    have hmirrored := h.rescheduled (advanceDecode_rescheduled log item h.books h.balance h.nodup)
    exact (ih hmirrored).trans (advanceDecode_advanced log item h.running_nodup).ids_eq

/-- A step keeps the mirror, however far it gets, and fails for nothing but the
device. -/
theorem Mirrored.stepOn (h : Mirrored w) (hdevice : device.Lawful)
    (hfits : ∀ r ∈ w.scheduler.waiting,
      HeadroomFits w.scheduler.config w.scheduler.totalAttentionBlocks r) :
    (∀ w' step, w.stepOn device = .ok (w', step) →
      Mirrored w' ∧ Exchanged w w' ∧ (w.Settled → w'.Settled)) ∧
    ∀ e w', w.stepOn device = .error (e, w') →
      Mirrored w' ∧ Exchanged w w' ∧ (∃ err, e = .runtime err) ∧
        (w.handsOver device → w.Settled → w'.Settled) := by
  have hstepped := h.rescheduled (stepInto_rescheduled h.books h.balance h.nodup hfits)
  obtain ⟨hok, herr⟩ := hstepped.admitScheduled hdevice h.prefills_running
  have hsettled := @Mirrored.settled_prefills _ _ w h
  rcases hadmitted : ({ w with scheduler := w.scheduler.stepInto.val.1 }).admitScheduled device
    w.scheduler.stepInto.val.2.prefills with ⟨e, w₁⟩ | w₁
  -- the hand-over stopped at a request the device refused
  · simp only [Worker.stepOn, Worker.handsOver, hadmitted]
    refine ⟨fun w' step hw' => ?_, fun e' w' hw' => ?_⟩
    · cases hw'
    · simp only [Except.error.injEq, Prod.mk.injEq] at hw'
      obtain ⟨rfl, rfl⟩ := hw'
      obtain ⟨hmirrored, hfilled, hruntime⟩ := herr _ _ hadmitted
      exact ⟨hmirrored, Filled.emptied ⟨hfilled.owners, hfilled.attention, hfilled.gdn,
        hfilled.taken⟩ (Emptied.refl _), hruntime, fun hover => by cases hover⟩
  · obtain ⟨hmirrored, hfilled, hsched, hdone, hkept⟩ := hok w₁ hadmitted
    replace hsched : w₁.scheduler = w.scheduler.stepInto.val.1 := hsched
    have hfilled₁ : Filled w w₁ := ⟨hfilled.owners, hfilled.attention, hfilled.gdn, hfilled.taken⟩
    have hstill := fun hall => hsettled hall hdone hkept
    rcases hexec : device.execute w.scheduler.stepInto.val.2 w₁.runtime
      with ⟨e, runtime⟩ | ⟨runtime, step⟩
    -- everything was handed over, and the device failed in the execution
    · simp only [Worker.stepOn, Worker.handsOver, hadmitted, hexec]
      refine ⟨fun w' step hw' => ?_, fun e' w' hw' => ?_⟩
      · cases hw'
      · simp only [Except.error.injEq, Prod.mk.injEq] at hw'
        obtain ⟨rfl, rfl⟩ := hw'
        refine ⟨hmirrored.reran (hdevice.execute_error hexec),
          (hfilled₁.frame _ _ _).emptied (Emptied.refl _), ⟨e, rfl⟩, fun _ hall id hid => ?_⟩
        exact hstill hall id (hsched ▸ hid)
    -- the step succeeds: progress is recorded, then what has completed leaves
    · simp only [Worker.stepOn, Worker.handsOver, hadmitted, hexec]
      refine ⟨fun w' step' hw' => ?_, fun e' w' hw' => ?_⟩
      · simp only [Except.ok.injEq, Prod.mk.injEq] at hw'
        obtain ⟨rfl, -⟩ := hw'
        obtain ⟨hresident, hcompleted⟩ := hdevice.execute hexec
        have hran := hmirrored.reran fun id hid => (hresident id hid).1
        have hadvanced := @Mirrored.advanceDecodes _ _ step.log
          w.scheduler.stepInto.val.2.decodes _ hran
        -- what has completed was resident, so it had been handed over
        have hnone : ∀ id ∈ step.completed, w₁.pending.lookup id = none := fun id hid => by
          have howns := hmirrored.resident id (hcompleted id hid)
          exact (hmirrored.held id (hmirrored.owners id howns)).mp howns
        obtain ⟨hmirrored', hemptied⟩ := hadvanced.completes hnone fun id hid => by
          by_contra hsome
          exact (hresident id (Option.isSome_iff_ne_none.mpr hsome)).2 hid
        obtain ⟨hfinished, -, hpending⟩ := complete_finished hadvanced.running_nodup
        refine ⟨hmirrored', (hfilled₁.frame _ _ _).emptied hemptied, fun hall id hid => ?_⟩
        rw [hpending]
        have hid' := hfinished.sub.subset hid
        rw [hran.advanceDecodes_ids] at hid'
        exact hstill hall id (hsched ▸ hid')
      · cases hw'

end Step

/-! ### The calls between steps -/

section Calls

variable {cfg : RuntimeConfig} {w : Worker κ σ}

theorem Mirrored.cancel (h : Mirrored w) (id : RequestId) :
    Mirrored (w.cancel id).1 ∧ Exchanged w (w.cancel id).1 ∧
      (w.Settled → (w.cancel id).1.Settled) := by
  have hcancelled := cancelRequest_cancelled id h.nodup
  have hmoved := w.scheduler.cancelRequest_moved id
  obtain ⟨hconfig, htotal, hbooks, hbalance⟩ :=
    moved_kept hmoved (fun hop => by cases hop) h.books h.balance
  have hruntime : ∀ id', ((if w.scheduler.isRunning id then w.runtime.erase id
      else w.runtime).lookup id').isSome → id' ≠ id ∧ (w.runtime.lookup id').isSome := by
    intro id' hid'
    split at hid'
    · have hne : id' ≠ id := by
        rintro rfl
        rw [AList.lookup_erase] at hid'
        cases hid'
      exact ⟨hne, AList.lookup_erase_ne hne ▸ hid'⟩
    -- an id that does not run is not resident either
    · rename_i hrun
      refine ⟨?_, hid'⟩
      rintro rfl
      obtain ⟨r, hr, hrid⟩ := List.mem_map.mp (h.owners id' (h.resident id' hid'))
      exact hrun (List.any_eq_true.mpr ⟨r, hr, beq_iff_eq.mpr hrid⟩)
  obtain ⟨hmirrored, hemptied⟩ := h.drop hcancelled hconfig htotal hbooks hbalance hruntime
    (AList.lookup_erase _ _) fun id' hne => AList.lookup_erase_ne hne
  have hmissing : ∀ {s'}, Scheduler.Moved w.scheduler (.cancelRequest id) (.found false) s' →
      s' = w.scheduler := by
    intro s' hmoved
    cases hmoved
    rfl
  -- a request that is not found has no slot to release
  have hsame : (w.cancel id).1 = ({ w with
      scheduler := (w.scheduler.cancelRequest id).val.1
      runtime := if w.scheduler.isRunning id then w.runtime.erase id else w.runtime
      pending := w.pending.erase id }).releaseCache id := by
    rw [Worker.cancel]
    split
    · rfl
    · rename_i hnot
      refine (releaseCache_stranger fun howns => hnot ?_).symm
      obtain ⟨r, hr, hrid⟩ := List.mem_map.mp (h.owners id howns)
      rw [Bool.or_eq_true]
      left
      by_contra hfound
      rw [Bool.not_eq_true] at hfound
      rw [hfound] at hmoved
      rw [hmissing hmoved] at hcancelled
      exact ((hcancelled.running r).mp hr).2 hrid
  rw [hsame]
  refine ⟨hmirrored, (Filled.refl w).emptied hemptied, fun hall id' hid' => ?_⟩
  obtain ⟨hsched, -, hpending⟩ := releaseCache_spec id { w with
    scheduler := (w.scheduler.cancelRequest id).val.1
    runtime := if w.scheduler.isRunning id then w.runtime.erase id else w.runtime
    pending := w.pending.erase id }
  rw [hsched] at hid'
  rw [hpending]
  obtain ⟨r, hr, rfl⟩ := List.mem_map.mp hid'
  obtain ⟨hr', hne⟩ := (hcancelled.running r).mp hr
  exact (AList.lookup_erase_ne hne).trans (hall r.id (List.mem_map_of_mem hr'))

theorem Mirrored.admitValidated (h : Mirrored w) (p : PendingSequence κ σ)
    (computedPrefix : U32) :
    Mirrored (w.admitValidated cfg p computedPrefix).1 ∧
      Exchanged w (w.admitValidated cfg p computedPrefix).1 ∧
      (w.Settled → (w.admitValidated cfg p computedPrefix).1.Settled) := by
  have hsame : Mirrored w ∧ Exchanged w w ∧ (w.Settled → w.Settled) :=
    ⟨h, (Filled.refl w).emptied (Emptied.refl w), fun hall => hall⟩
  rw [Worker.admitValidated]
  rcases hvalid : w.validatePending cfg p with e | u
  -- invalid, or refused by the scheduler: nothing has changed
  · exact hsame
  · obtain ⟨hnone, hwaiting, hrunning, -, -⟩ := validatePending_ok hvalid
    have hmoved := w.scheduler.admitWithPrefix_moved
      (show (Op.admitWithPrefix p.request computedPrefix).submission
        = some (p.request, computedPrefix) from rfl)
    obtain ⟨hconfig, htotal, hbooks, hbalance⟩ :=
      moved_kept hmoved (fun hop => by cases hop) h.books h.balance
    rcases haccepted : (w.scheduler.admitWithPrefix p.request computedPrefix).val with ⟨s', out⟩
    rw [haccepted] at hmoved hconfig htotal hbooks hbalance
    simp only at hmoved hconfig htotal hbooks hbalance ⊢
    rcases out with e | id
    · cases hmoved with
      | refused _ => exact hsame
    · simp only
      cases hmoved with
      | @queued _ req prefix_ hop _ _ _ =>
        simp only [Op.submission, Option.some.injEq, Prod.mk.injEq] at hop
        obtain ⟨rfl, rfl⟩ := hop
        have hlook : ∀ id', id' ≠ p.request.id →
            (w.pending.insert p.request.id p).lookup id' = w.pending.lookup id' :=
          fun id' hne => AList.lookup_insert_ne hne
        have hpast : ∀ id' ∈ ids w.scheduler.running, id' ≠ p.request.id :=
          fun id' hid' heq => hrunning (heq ▸ hid')
        set queued : TrackedRequest := {
          id := p.request.id, promptTokens := p.request.promptTokens
          maxOutputTokens := p.request.maxOutputTokens
          computedTokens := computedPrefix, blocksReserved := 0 } with hqueued
        have hids : ids (w.scheduler.waiting ++ [queued])
            = ids w.scheduler.waiting ++ [p.request.id] := List.map_append
        refine ⟨⟨hbooks, hbalance, ?_, h.housed.frame rfl rfl rfl, h.total, h.width, h.gdn_enough,
          h.owners, fun id' hid' => ?_, fun id' hid' => ?_, fun id' p' hp' => ?_, h.resident⟩,
          ((Filled.refl w).frame _ _ _).emptied (Emptied.refl _), fun hall id' hid' => ?_⟩
        -- the id is new to both queues
        · rw [ids_tracked]
          show (ids (w.scheduler.waiting ++ [queued]) ++ ids w.scheduler.running).Nodup
          rw [hids, List.append_assoc]
          refine List.perm_middle.nodup_iff.mpr (List.nodup_cons.mpr ⟨fun hmem => ?_, ?_⟩)
          · exact (List.mem_append.mp hmem).elim hwaiting hrunning
          · have hnodup := h.nodup
            rw [ids_tracked] at hnodup
            exact hnodup
        -- running requests keep their slots; the new one waits with a pending entry
        · rw [hlook id' (hpast id' hid')]
          exact h.held id' hid'
        · by_cases hne : id' = p.request.id
          · rw [hne, AList.lookup_insert]
            rfl
          · rw [hlook id' hne]
            have hid'' : id' ∈ ids w.scheduler.waiting ++ [p.request.id] := hids ▸ hid'
            exact h.waiting id' ((List.mem_append.mp hid'').resolve_right fun hmem =>
              hne (List.mem_singleton.mp hmem))
        -- a pending entry belongs to a tracked request, the new one included
        · rw [Scheduler.mem_ids_tracked]
          show _ ∧ (id' ∈ ids (w.scheduler.waiting ++ [queued]) ∨ id' ∈ ids w.scheduler.running)
          rw [hids]
          by_cases hne : id' = p.request.id
          · rw [hne, AList.lookup_insert, Option.some.injEq] at hp'
            subst hp'
            exact ⟨hne.symm, Or.inl (List.mem_append_right _ (List.mem_singleton.mpr hne))⟩
          · rw [hlook id' hne] at hp'
            obtain ⟨hid', htracked⟩ := h.pending id' p' hp'
            exact ⟨hid', (Scheduler.mem_ids_tracked.mp htracked).imp
              (fun hmem => List.mem_append_left _ hmem) fun hmem => hmem⟩
        · exact (hlook id' (hpast id' hid')).trans (hall id' hid')

end Calls

/-! ### The modelled device -/

/-- The modelled runtime serves only the requests it was given. -/
theorem deviceRuntime_lawful (M : Target Row κ σ) (cfg : RuntimeConfig) (io : StepOracle) :
    (deviceRuntime M cfg io).Lawful where
  accept := by
    intro p seqs seqs' h id hid
    rcases haccepted : admitPending cfg p seqs with e | seqs₁
    · simp only [deviceRuntime, haccepted, Except.mapError] at h
      cases h
    · simp only [deviceRuntime, haccepted, Except.mapError] at h
      cases h
      -- an accepted request is the only one added
      by_cases hne : id = p.request.id
      · exact Or.inl hne
      · exact Or.inr ((admitPending_started haccepted).2 id hne ▸ hid)
  accept_error := by
    intro p seqs seqs' e h id hid
    rcases haccepted : admitPending cfg p seqs with e | seqs₁
    · simp only [deviceRuntime, haccepted, Except.mapError] at h
      cases h
      exact Or.inr hid
    · simp only [deviceRuntime, haccepted, Except.mapError] at h
      cases h
  execute := by
    intro b seqs seqs' step h
    rcases hexec : execute M cfg io b seqs with e | ⟨seqs₁, step₁⟩
    · simp only [deviceRuntime, hexec, Except.mapError] at h
      cases h
    · simp only [deviceRuntime, hexec, Except.mapError] at h
      cases h
      obtain ⟨seqs₂, seqs₃, decoded, prefilled, hdec, hpre, -, hcompleted, hlook⟩ :=
        execute_spec hexec
      -- neither half adds a request
      have hkeys : ∀ id, (seqs₃.lookup id).isSome → (seqs.lookup id).isSome := by
        intro id hid
        have hid₂ := (executePrefills_others hpre).2 id hid
        obtain ⟨-, -, hin, hout⟩ := executeDecodes_spec hdec
        by_cases hmem : id ∈ b.decodes.map (·.id)
        · obtain ⟨seq, _, hseq, -⟩ := hin id hmem
          rw [hseq]
          rfl
        · rw [(hout id hmem).1] at hid₂
          exact hid₂
      refine ⟨fun id hid => ?_, fun id hid => ?_⟩
      · rw [hlook] at hid
        split at hid
        · cases hid
        · rename_i hnot
          exact ⟨hkeys id hid, hnot⟩
      -- what completed was resident when the step began
      · rw [hcompleted] at hid
        obtain ⟨seq, hseq, -⟩ := finishedIds_spec.mp hid
        exact hkeys id (by rw [hseq]; rfl)
  execute_error := by
    intro b seqs seqs' e h id hid
    rcases hexec : execute M cfg io b seqs with e | ⟨seqs₁, step₁⟩
    · simp only [deviceRuntime, hexec, Except.mapError] at h
      cases h
      exact hid
    · simp only [deviceRuntime, hexec, Except.mapError] at h
      cases h

/-! ### Runs -/

/-- What a call reports.  A step that fails has or has not got its requests to
the device. -/
inductive CacheEvent where
  | admission (result : Except WorkerExecutionError RequestId)
  | stepped (step : DeviceStep)
  | failed (handedOver : Bool) (e : WorkerExecutionError)
  | cancelled (id : RequestId) (found : Bool)

/-- The calls on a worker, on a device that may fail at any point.  At a step
the blocks of a waiting request and the watermark add up in `u32`. -/
inductive CacheCall (cfg : RuntimeConfig) : Worker κ σ → CacheEvent → Worker κ σ → Prop where
  | admitTokens (w : Worker κ σ) (p : PendingSequence κ σ) :
      CacheCall cfg w (.admission (w.admitTokens cfg p).2) (w.admitTokens cfg p).1
  | admitTokensRestored (w : Worker κ σ) (p : PendingSequence κ σ) (snapshot : Snapshot) :
      CacheCall cfg w (.admission (w.admitTokensRestored cfg p snapshot).2)
        (w.admitTokensRestored cfg p snapshot).1
  | stepped {w w' : Worker κ σ} {device : Device κ σ} {step : DeviceStep} : device.Lawful →
      (∀ r ∈ w.scheduler.waiting,
        HeadroomFits w.scheduler.config w.scheduler.totalAttentionBlocks r) →
      w.stepOn device = .ok (w', step) → CacheCall cfg w (.stepped step) w'
  | failed {w w' : Worker κ σ} {device : Device κ σ} {e : WorkerExecutionError} : device.Lawful →
      (∀ r ∈ w.scheduler.waiting,
        HeadroomFits w.scheduler.config w.scheduler.totalAttentionBlocks r) →
      w.stepOn device = .error (e, w') → CacheCall cfg w (.failed (w.handsOver device) e) w'
  | cancel (w : Worker κ σ) (id : RequestId) :
      CacheCall cfg w (.cancelled id (w.cancel id).2) (w.cancel id).1

/-- The running requests that have been handed to the device. -/
def Worker.handed (w : Worker κ σ) : List TrackedRequest :=
  w.scheduler.running.filter fun r => (w.pending.lookup r.id).isNone

/-- Blocks out of the attention pool. -/
def Worker.allocatedAttention (w : Worker κ σ) : ℕ := w.attentionPool.total - w.attentionPool.freeCount

/-- The caches of the requests handed to the device, in one state. -/
structure CacheMirror (w : Worker κ σ) : Prop where
  allocated : w.allocatedAttention = (w.handed.map fun r => (w.table r.id).length).sum
  reserved : w.allocatedAttention = reservedSum w.handed
  table_length : ∀ r ∈ w.handed, (w.table r.id).length = r.blocksReserved
  -- every block is free or in one table, every GDN slot is free or one request's
  attention : (w.attentionPool.free ++ w.handed.flatMap fun r => w.table r.id).Perm
    (List.range w.attentionPool.total)
  gdn : (w.gdnPool.free ++ w.handed.filterMap fun r => (w.slotOf r.id).gdn).Perm
    (List.range w.gdnPool.total)
  disjoint : ∀ r ∈ w.scheduler.running, ∀ r' ∈ w.scheduler.running, r.id ≠ r'.id →
    (w.table r.id).Disjoint (w.table r'.id)
  one_slot : ∀ r ∈ w.handed, w.owners.count r.id = 1 ∧ (w.slotOf r.id).gdn.isSome
  waits : ∀ r ∈ w.scheduler.running, r ∉ w.handed → w.slotOf r.id = CacheReservation.empty

section Runs

variable {cfg : RuntimeConfig} {w w' : Worker κ σ}

theorem Mirrored.mem_handed (h : Mirrored w) {r : TrackedRequest} (hr : r ∈ w.scheduler.running) :
    r ∈ w.handed ↔ r.id ∈ w.owners := by
  rw [h.held r.id (List.mem_map_of_mem hr), Worker.handed, List.mem_filter, Option.isNone_iff_eq_none]
  exact and_iff_right hr

/-- The slots belong to the requests handed over. -/
theorem Mirrored.owners_perm (h : Mirrored w) : w.owners.Perm (ids w.handed) := by
  have hsub : w.handed.Sublist w.scheduler.running := List.filter_sublist
  refine (List.perm_ext_iff_of_nodup h.housed.owners_nodup
    ((hsub.map _).nodup h.running_nodup)).mpr fun id => ⟨fun hid => ?_, fun hid => ?_⟩
  · obtain ⟨r, hr, rfl⟩ := List.mem_map.mp (h.owners id hid)
    exact List.mem_map_of_mem ((h.mem_handed hr).mpr hid)
  · obtain ⟨r, hr, rfl⟩ := List.mem_map.mp hid
    exact (h.mem_handed (hsub.subset hr)).mp hr

theorem Mirrored.cacheMirror (h : Mirrored w) : CacheMirror w := by
  have hsub : w.handed.Sublist w.scheduler.running := List.filter_sublist
  have hlength : ∀ r ∈ w.handed, (w.table r.id).length = r.blocksReserved := by
    intro r hr
    obtain ⟨g, -, -, hlength, -⟩ :=
      h.housed.slotOf_owner ((h.mem_handed (hsub.subset hr)).mp hr)
    rw [hlength, blocksOf_of_mem h.running_nodup (hsub.subset hr)]
  have hallocated : w.allocatedAttention = reservedSum w.handed := by
    have hfree := h.housed.free_length
    have hsum : (w.owners.map w.scheduler.blocksOf).sum = reservedSum w.handed := by
      rw [(h.owners_perm.map _).sum_eq, reservedSum, ids, List.map_map]
      exact congrArg List.sum (List.map_congr_left fun r hr =>
        blocksOf_of_mem h.running_nodup (hsub.subset hr))
    rw [Worker.allocatedAttention, BlockPool.freeCount]
    omega
  have htables : w.tables.Perm (w.handed.flatMap fun r => w.table r.id) := by
    rw [h.housed.tables_eq]
    refine (h.owners_perm.flatMap_right _).trans (List.Perm.of_eq ?_)
    rw [ids, List.flatMap_map]
  have hgdns : w.gdnSlots.Perm (w.handed.filterMap fun r => (w.slotOf r.id).gdn) := by
    rw [h.housed.gdnSlots_eq]
    refine (h.owners_perm.filterMap _).trans (List.Perm.of_eq ?_)
    rw [ids, List.filterMap_map]
    rfl
  have hattention := (htables.symm.append_left _).trans h.housed.attention
  refine ⟨?_, hallocated, hlength, hattention, (hgdns.symm.append_left _).trans h.housed.gdn,
    fun r hr r' hr' hne => ?_, fun r hr => ?_, fun r hr hnot => ?_⟩
  · rw [hallocated, reservedSum]
    exact congrArg List.sum (List.map_congr_left fun r hr => (hlength r hr).symm)
  · -- two tables out of one pool share nothing
    have hnodup := (h.housed.attention.nodup_iff.mpr List.nodup_range)
    have htables' := (List.nodup_append.mp hnodup).2.1
    rw [h.housed.tables_eq, List.nodup_flatMap] at htables'
    by_cases howns : r.id ∈ w.owners
    · by_cases howns' : r'.id ∈ w.owners
      · have : Std.Symm (Function.onFun List.Disjoint w.table) := ⟨fun _ _ hd => hd.symm⟩
        exact htables'.2.forall howns howns' hne
      · rw [Worker.table, Worker.table, slotOf_stranger howns']
        exact List.disjoint_nil_right _
    · rw [Worker.table, slotOf_stranger howns]
      exact List.disjoint_nil_left _
  · have howns := (h.mem_handed (hsub.subset hr)).mp hr
    obtain ⟨g, -, hg, -⟩ := h.housed.slotOf_owner howns
    exact ⟨List.count_eq_one_of_mem h.housed.owners_nodup howns, by rw [hg]; rfl⟩
  · exact slotOf_stranger fun howns => hnot ((h.mem_handed hr).mpr howns)

theorem new_mirrored {sched : SchedulerConfig} {blocks : U32} {slots : ℕ}
    (hslots : (sched.maxConcurrentDecodes : ℕ) ≤ slots) :
    Mirrored (Worker.new sched blocks slots : Worker κ σ) := by
  have hempty : ∀ slot ∈ (Worker.new sched blocks slots : Worker κ σ).reservations,
      slot = CacheReservation.empty := fun slot hslot => List.eq_of_mem_replicate hslot
  have howners : (Worker.new sched blocks slots : Worker κ σ).owners = [] :=
    List.filterMap_eq_nil_iff.mpr fun slot hslot => by rw [hempty slot hslot]; rfl
  have htables : (Worker.new sched blocks slots : Worker κ σ).tables = [] :=
    List.flatMap_eq_nil_iff.mpr fun slot hslot => by rw [hempty slot hslot]; rfl
  have hgdns : (Worker.new sched blocks slots : Worker κ σ).gdnSlots = [] :=
    List.filterMap_eq_nil_iff.mpr fun slot hslot => by rw [hempty slot hslot]; rfl
  refine ⟨Scheduler.new_books sched blocks, rfl, List.nodup_nil, ⟨?_, ?_, ?_, ?_⟩, rfl,
    List.length_replicate, hslots, fun id hid => ?_, fun id hid => absurd hid List.not_mem_nil,
    fun id hid => absurd hid List.not_mem_nil, fun id p hp => ?_, fun id hid => ?_⟩
  · rw [htables, List.append_nil]
    exact List.Perm.refl _
  · rw [hgdns, List.append_nil]
    exact List.Perm.refl _
  · rw [howners]
    exact List.nodup_nil
  · exact fun slot hslot => Or.inl (hempty slot hslot)
  · rw [howners] at hid
    exact absurd hid List.not_mem_nil
  · cases hp
  · cases hid

/-- What one call does to the caches. -/
theorem CacheCall.mirrored {l : CacheEvent} (hcall : CacheCall cfg w l w') (h : Mirrored w) :
    Mirrored w' ∧ Exchanged w w' ∧ (∀ b e, l = .failed b e → ∃ err, e = .runtime err) ∧
      ((∀ e, l ≠ .failed false e) → w.Settled → w'.Settled) := by
  have hquiet : ∀ {l : CacheEvent}, (∀ b e, l ≠ .failed b e) →
      ∀ b e, l = .failed b e → ∃ err, e = .runtime err :=
    fun hnot b e heq => absurd heq (hnot b e)
  cases hcall with
  | admitTokens p =>
    obtain ⟨hmirrored, hexchanged, hsettled⟩ := h.admitValidated { p with snapshot := none } 0
    exact ⟨hmirrored, hexchanged, hquiet nofun, fun _ => hsettled⟩
  | admitTokensRestored p snapshot =>
    obtain ⟨hmirrored, hexchanged, hsettled⟩ :=
      h.admitValidated { p with snapshot := some snapshot }
        (Fin.ofNat (2 ^ 32) snapshot.position)
    exact ⟨hmirrored, hexchanged, hquiet nofun, fun _ => hsettled⟩
  | stepped hdevice hfits hstep =>
    obtain ⟨hmirrored, hexchanged, hsettled⟩ := (h.stepOn hdevice hfits).1 _ _ hstep
    exact ⟨hmirrored, hexchanged, hquiet nofun, fun _ => hsettled⟩
  | @failed _ device e hdevice hfits hstep =>
    obtain ⟨hmirrored, hexchanged, herr, hsettled⟩ := (h.stepOn hdevice hfits).2 _ _ hstep
    refine ⟨hmirrored, hexchanged, fun b e' heq => ?_, fun hnot => hsettled ?_⟩
    · cases heq
      exact herr
    · by_contra hover
      rw [Bool.not_eq_true] at hover
      exact hnot e (by rw [hover])
  | cancel id =>
    obtain ⟨hmirrored, hexchanged, hsettled⟩ := h.cancel id
    exact ⟨hmirrored, hexchanged, hquiet nofun, fun _ => hsettled⟩

/-- In every state of a run the physical pools hold the scheduler's
reservations of the requests handed to the device, and these are all that run
unless a step has failed while handing requests over.  A call moves blocks and
GDN slots only with their owner, and no step fails to reserve. -/
theorem cache_mirror {sched : SchedulerConfig} {blocks : U32} {slots : ℕ}
    (hslots : (sched.maxConcurrentDecodes : ℕ) ≤ slots) {ls : List CacheEvent}
    (hrun : Run (CacheCall cfg) (Worker.new sched blocks slots) ls w) :
    CacheMirror w ∧
      ((∀ e, .failed false e ∉ ls) → w.handed = w.scheduler.running) ∧
      ∀ l w', CacheCall cfg w l w' →
        Exchanged w w' ∧ ∀ b e, l = .failed b e → ∃ err, e = .runtime err := by
  have hmirrored : Mirrored w :=
    hrun.invariant (new_mirrored hslots) fun h hcall => (hcall.mirrored h).1
  refine ⟨hmirrored.cacheMirror, fun hnever => ?_, fun l w' hcall => ?_⟩
  · have hboth : Mirrored w ∧ w.Settled := by
      refine Run.invariant_of_labels (P := fun w => Mirrored w ∧ w.Settled)
        (Q := fun l => ∀ e, l ≠ .failed false e)
        ⟨new_mirrored hslots, fun id hid => absurd hid List.not_mem_nil⟩ ?_ hrun
        fun l hl e heq => hnever e (heq ▸ hl)
      rintro a b l hl ⟨ha, hsettled⟩ hcall
      obtain ⟨hb, -, -, hkept⟩ := hcall.mirrored ha
      exact ⟨hb, hkept hl hsettled⟩
    refine List.filter_eq_self.mpr fun r hr => ?_
    rw [hboth.2 r.id (List.mem_map_of_mem hr)]
    rfl
  · obtain ⟨-, hexchanged, herr, -⟩ := hcall.mirrored hmirrored
    exact ⟨hexchanged, herr⟩

/-- A request whose image has no patches, and one behind it. -/
def emptyImageRequest : PendingSequence Unit Unit :=
  { smallRequest with images := [⟨⟨0, 0, 1, 5⟩, 0⟩] }

/-- The same request under another id. -/
def secondRequest : PendingSequence Unit Unit := { smallRequest with request := ⟨1, 1, 6⟩ }

/-- The device refuses the first of two requests scheduled in one step: the
second runs on two reserved blocks, with no block table and no GDN slot. -/
theorem failed_handover_holds_nothing : ∃ ls, ∃ w : Worker Unit Unit,
    Run (CacheCall tallyConfig) (Worker.new smallSched 4 2) ls w ∧
      w.allocatedAttention ≠ reservedSum w.scheduler.running ∧
      ∃ r ∈ w.scheduler.running, r.blocksReserved = 2 ∧ w.slotOf r.id = CacheReservation.empty := by
  let w₀ : Worker Unit Unit := Worker.new smallSched 4 2
  let w₁ := (w₀.admitTokens tallyConfig emptyImageRequest).1
  let w₂ := (w₁.admitTokens tallyConfig secondRequest).1
  let device := deviceRuntime tallyTarget tallyConfig tallyRound.1
  have hfails : (match w₂.stepOn device with
      | .error (_, w) => some (w.allocatedAttention, reservedSum w.scheduler.running,
          w.scheduler.running.map fun r => (r.id, r.blocksReserved), w.slotOf 1)
      | .ok _ => none) = some (2, 4, [(0, 2), (1, 2)], CacheReservation.empty) := by decide
  rcases hstep : w₂.stepOn device with ⟨e, w⟩ | ⟨w, step⟩
  · rw [hstep] at hfails
    simp only [Option.some.injEq, Prod.mk.injEq] at hfails
    obtain ⟨hallocated, hreserved, hrunning, hslot⟩ := hfails
    have hrun : Run (CacheCall tallyConfig) w₀ _ w :=
      Run.cons (.admitTokens w₀ emptyImageRequest) (Run.cons (.admitTokens w₁ secondRequest)
        (Run.single (.failed (deviceRuntime_lawful _ _ _) (by decide) hstep)))
    refine ⟨_, w, hrun, by rw [hallocated, hreserved]; decide, ?_⟩
    have hmem : ((1, 2) : RequestId × ℕ)
        ∈ w.scheduler.running.map fun r => (r.id, r.blocksReserved) := by
      rw [hrunning]
      decide
    obtain ⟨r, hr, hpair⟩ := List.mem_map.mp hmem
    obtain ⟨hid, hblocks⟩ := Prod.mk.injEq .. ▸ hpair
    exact ⟨r, hr, hblocks, by rw [hid]; exact hslot⟩
  · rw [hstep] at hfails
    cases hfails

/-- The headroom of every waiting request fits. -/
def Worker.headroomFits (w : Worker Unit Unit) : Bool :=
  decide (∀ r ∈ w.scheduler.waiting,
    HeadroomFits w.scheduler.config w.scheduler.totalAttentionBlocks r)

/-- A third request of that size. -/
def thirdRequest : PendingSequence Unit Unit := { smallRequest with request := ⟨2, 1, 6⟩ }

/-- Two requests share the pools until one of them completes; a third then takes the blocks that
this one gave back, and the other keeps its own. -/
theorem cache_mirror_witness : ∃ w w' : Worker Unit Unit, ∃ step,
    w.stepOn (deviceRuntime tallyTarget tallyConfig tallyRound.1) = .ok (w', step) ∧
      w.table 0 = [0, 1] ∧ w.table 1 = [] ∧ w'.table 0 = [0, 1] ∧ w'.table 2 = [3, 2] ∧
      CacheMirror w' ∧ w'.handed = w'.scheduler.running := by
  let w₀ : Worker Unit Unit := Worker.new smallSched 4 2
  let w₁ := (w₀.admitTokens tallyConfig smallRequest).1
  let w₂ := (w₁.admitTokens tallyConfig stoppingRequest).1
  let device := deviceRuntime tallyTarget tallyConfig tallyRound.1
  have hplay : ((w₂.stepOn device).bind fun w => (w.1.stepOn device).bind fun w' =>
      ((w'.1.admitTokens tallyConfig thirdRequest).1.stepOn device).map fun w'' =>
        (w.1.headroomFits, (w'.1.admitTokens tallyConfig thirdRequest).1.headroomFits,
          [(w'.1.admitTokens tallyConfig thirdRequest).1.table 0,
            (w'.1.admitTokens tallyConfig thirdRequest).1.table 1, w''.1.table 0,
            w''.1.table 2])).toOption = some (true, true, [[0, 1], [], [0, 1], [3, 2]]) := by
    decide +kernel
  have hlawful : device.Lawful := deviceRuntime_lawful _ _ _
  rcases hfirst : w₂.stepOn device with e | ⟨w₃, step₃⟩
  · rw [hfirst] at hplay
    cases hplay
  rcases hsecond : w₃.stepOn device with e | ⟨w₄, step₄⟩
  · rw [hfirst, Except.bind, hsecond] at hplay
    cases hplay
  rcases hthird : (w₄.admitTokens tallyConfig thirdRequest).1.stepOn device with e | ⟨w₆, step₆⟩
  · rw [hfirst, Except.bind, hsecond, Except.bind, hthird] at hplay
    cases hplay
  rw [hfirst, Except.bind, hsecond, Except.bind, hthird] at hplay
  have hseen := Option.some.inj hplay
  simp only [Prod.mk.injEq, List.cons.injEq] at hseen
  obtain ⟨hfits, hfits', hbefore, hgone, hkept, htaken, -⟩ := hseen
  have hrun : Run (CacheCall tallyConfig) w₀
      [.admission (w₀.admitTokens tallyConfig smallRequest).2,
        .admission (w₁.admitTokens tallyConfig stoppingRequest).2, .stepped step₃, .stepped step₄,
        .admission (w₄.admitTokens tallyConfig thirdRequest).2, .stepped step₆] w₆ :=
    Run.cons (.admitTokens w₀ smallRequest) (Run.cons (.admitTokens w₁ stoppingRequest)
      (Run.cons (.stepped hlawful (by decide) hfirst)
        (Run.cons (.stepped hlawful (of_decide_eq_true hfits) hsecond)
          (Run.cons (.admitTokens w₄ thirdRequest)
            (Run.single (.stepped hlawful (of_decide_eq_true hfits') hthird))))))
  obtain ⟨hmirror, hheld, -⟩ := cache_mirror (show (2 : ℕ) ≤ 2 from le_rfl) hrun
  exact ⟨_, w₆, step₆, hthird, hbefore, hgone, hkept, htaken, hmirror, hheld (by simp)⟩

end Runs
