/-
Retained snapshots tile the prefix.

A snapshot copies the attention since its parent and leaves the rest to its
chain, so it can be restored only if the spans of the chain leave no gap.
`Tiling` is the invariant that says so while a sequence files its snapshots:
they sit on consecutive multiples of the retention interval, each starts where
the one before ends, and while retention is enabled the sequence is less than
an interval past the newest.

* `retain_tiling`: a pass that stops at the next boundary at the latest keeps
  the tiling, whether or not the arena grants the checkout;
* `prefillPieces_tiling`, `decodeAlone_tiling`, `verifySequence_tiling`: the
  three ways a sequence advances are such passes;
* `retained_tile`: the snapshots of any life.
-/
import Llmxabe.Runtime.Life

variable {Row κ σ : Type}

/-! ### Chains of snapshots -/

namespace Snapshot

/-- The attention positions a restore writes, in the order it writes them: the
parents' first. -/
def restoredPositions (s : Snapshot) : List ℕ :=
  s.spans.flatMap fun span => List.range' span.start (span.finish - span.start)

/-- What the copies to and from the pinned buffers check of every span: it is
not inverted, fills its buffer, and fits the cache. -/
def Fits (interval maxSeq : ℕ) (s : Snapshot) : Prop :=
  ∀ span ∈ s.spans, span.start ≤ span.finish ∧ span.finish - span.start = interval ∧
    span.finish ≤ maxSeq

/-- The snapshot was filed behind `s`. -/
structure Continues (s s' : Snapshot) : Prop where
  start : s'.start = s.position
  parents : s'.parents = s.spans

/-- The spans of `n` intervals, end to end. -/
def tiles (interval n : ℕ) : List Span :=
  (List.range n).map fun k => ⟨k * interval, (k + 1) * interval⟩

/-- The chain covers the prefix interval by interval. -/
structure Tiled (interval n : ℕ) (s : Snapshot) : Prop where
  spans : s.spans = tiles interval n
  position : s.position = n * interval

variable {interval n : ℕ} {s : Snapshot}

theorem tiles_succ (interval n : ℕ) :
    tiles interval (n + 1) = tiles interval n ++ [⟨n * interval, (n + 1) * interval⟩] := by
  rw [tiles, List.range_succ, List.map_append]
  rfl

/-- Restoring a tiled chain writes every position of the prefix once, in order. -/
theorem Tiled.restoredPositions (h : s.Tiled interval n) :
    s.restoredPositions = List.range s.position := by
  rw [Snapshot.restoredPositions, h.spans, h.position]
  clear h
  induction n with
  | zero =>
    rw [Nat.zero_mul]
    rfl
  | succ n ih =>
    have hlen : (n + 1) * interval - n * interval = interval := by
      rw [Nat.succ_mul]
      omega
    rw [tiles_succ, List.flatMap_append, ih, List.flatMap_singleton, hlen, Nat.succ_mul,
      List.range_eq_range', List.range_eq_range', ← List.range'_append_1, Nat.zero_add]

theorem Tiled.fits (h : s.Tiled interval n) {maxSeq : ℕ} (hle : s.position ≤ maxSeq) :
    s.Fits interval maxSeq := by
  intro span hspan
  rw [h.spans, tiles] at hspan
  obtain ⟨k, hk, rfl⟩ := List.mem_map.mp hspan
  have hk : k + 1 ≤ n := List.mem_range.mp hk
  have hsucc : (k + 1) * interval = k * interval + interval := Nat.succ_mul k interval
  have htop : (k + 1) * interval ≤ n * interval := Nat.mul_le_mul_right _ hk
  rw [h.position] at hle
  exact ⟨by simp only; omega, by simp only; omega, htop.trans hle⟩

/-- A tiled chain ends with the span its newest snapshot holds. -/
theorem Tiled.start (h : s.Tiled interval n) : s.start + interval = s.position := by
  have hspans := h.spans
  cases n with
  | zero => exact absurd hspans (by simp [Snapshot.spans, tiles])
  | succ n =>
    rw [Snapshot.spans, tiles_succ] at hspans
    have hlast := (List.append_inj' hspans rfl).2
    simp only [List.cons.injEq, Span.mk.injEq, and_true] at hlast
    rw [hlast.1, h.position, Nat.succ_mul]

end Snapshot

/-! ### The tiling of a sequence -/

/-- The multiples of the interval after one position and up to another. -/
def boundaries (interval a b : ℕ) : List ℕ :=
  (List.range' (a / interval + 1) (b / interval - a / interval)).map (· * interval)

/-- A sequence's snapshots, behind the one it was restored from, tile the
prefix up to the last of them. -/
structure Tiling (cfg : RuntimeConfig) (p : PendingSequence κ σ) (seq : RuntimeSequence κ σ)
    (filed : List Snapshot) : Prop where
  last : seq.lastSnapshotPosition = (seq.lastSnapshot.map Snapshot.position).getD 0
  newest : seq.lastSnapshot = (p.snapshot.toList ++ filed).getLast?
  tiled : ∀ s ∈ p.snapshot.toList ++ filed, ∃ n, s.Tiled cfg.retentionInterval n
  linked : (p.snapshot.toList ++ filed).IsChain Snapshot.Continues
  restored_le : p.restored ≤ seq.lastSnapshotPosition
  cadence : filed.map Snapshot.position
    = boundaries cfg.retentionInterval p.restored seq.lastSnapshotPosition
  near : seq.retentionDisabled = false → seq.lastSnapshotPosition ≤ seq.position ∧
    seq.position < seq.lastSnapshotPosition + cfg.retentionInterval

namespace Tiling

variable {cfg : RuntimeConfig} {p : PendingSequence κ σ} {seq seq' : RuntimeSequence κ σ}
  {filed : List Snapshot}

/-- Only what retention keeps of a sequence and its position matter. -/
theorem congr (h : Tiling cfg p seq filed) (hsnapshot : seq'.lastSnapshot = seq.lastSnapshot)
    (hlast : seq'.lastSnapshotPosition = seq.lastSnapshotPosition)
    (hdisabled : seq'.retentionDisabled = seq.retentionDisabled)
    (hposition : seq'.position = seq.position) : Tiling cfg p seq' filed where
  last := by rw [hlast, hsnapshot, h.last]
  newest := hsnapshot.trans h.newest
  tiled := h.tiled
  linked := h.linked
  restored_le := hlast ▸ h.restored_le
  cadence := hlast ▸ h.cadence
  near := by
    rw [hlast, hdisabled, hposition]
    exact h.near

/-- The newest snapshot sits on a boundary. -/
theorem dvd_last (h : Tiling cfg p seq filed) :
    cfg.retentionInterval ∣ seq.lastSnapshotPosition := by
  rw [h.last]
  rcases hnewest : seq.lastSnapshot with _ | s
  · exact dvd_zero _
  · obtain ⟨n, htiled⟩ := h.tiled s (List.mem_of_getLast? (h.newest ▸ hnewest))
    exact ⟨n, by rw [Nat.mul_comm]; exact htiled.position⟩

/-- The copy of a state one interval past the newest snapshot continues its
chain. -/
theorem capture (h : Tiling cfg p seq filed) (next : Option Token)
    (hsnapshot : seq'.lastSnapshot = seq.lastSnapshot)
    (hposition : seq'.position = seq.lastSnapshotPosition + cfg.retentionInterval) :
    (∃ n, (seq'.capture next).Tiled cfg.retentionInterval n) ∧
      ∀ s ∈ (p.snapshot.toList ++ filed).getLast?, s.Continues (seq'.capture next) := by
  have hlast := h.last
  have hstart : (seq'.capture next).start = seq.lastSnapshotPosition := by
    rw [hlast, ← hsnapshot]
    rfl
  rcases hnewest : seq.lastSnapshot with _ | s
  · rw [hnewest] at hlast
    have hzero : seq.lastSnapshotPosition = 0 := hlast
    have hparents : (seq'.capture next).parents = [] := by
      rw [RuntimeSequence.capture, hsnapshot, hnewest]
      rfl
    rw [hzero, Nat.zero_add] at hposition
    refine ⟨⟨1, ?_, by rw [Nat.one_mul]; exact hposition⟩, fun s hs => ?_⟩
    · rw [Snapshot.spans, hparents, hstart, hzero]
      show [(⟨0, seq'.position⟩ : Span)] = _
      rw [hposition, Snapshot.tiles, List.range_one]
      simp
    · rw [← h.newest, hnewest] at hs
      cases hs
  · rw [hnewest] at hlast
    have hpos : seq.lastSnapshotPosition = s.position := hlast
    have hparents : (seq'.capture next).parents = s.spans := by
      rw [RuntimeSequence.capture, hsnapshot, hnewest]
      rfl
    obtain ⟨n, htiled⟩ := h.tiled s (List.mem_of_getLast? (h.newest ▸ hnewest))
    have hend : seq'.position = (n + 1) * cfg.retentionInterval := by
      rw [hposition, hpos, htiled.position, Nat.succ_mul]
    refine ⟨⟨n + 1, ?_, hend⟩, fun s' hs' => ?_⟩
    · rw [Snapshot.spans, hparents, hstart, htiled.spans, Snapshot.tiles_succ, hpos,
        htiled.position]
      show _ ++ [(⟨_, seq'.position⟩ : Span)] = _
      rw [hend]
    · rw [← h.newest, hnewest] at hs'
      cases hs'
      exact ⟨hstart.trans hpos, hparents⟩

end Tiling

theorem boundaries_succ {interval a b : ℕ} (hpos : 0 < interval) (hle : a ≤ b)
    (hdvd : interval ∣ b) :
    boundaries interval a (b + interval) = boundaries interval a b ++ [b + interval] := by
  have hdiv : (b + interval) / interval = b / interval + 1 := Nat.add_div_right _ hpos
  have hmono : a / interval ≤ b / interval := Nat.div_le_div_right hle
  have hcount : b / interval + 1 - a / interval = (b / interval - a / interval) + 1 := by omega
  have hend : (a / interval + 1 + (b / interval - a / interval)) * interval = b + interval := by
    rw [show a / interval + 1 + (b / interval - a / interval) = b / interval + 1 by omega,
      Nat.succ_mul, Nat.div_mul_cancel hdvd]
  rw [boundaries, boundaries, hdiv, hcount, List.range'_1_concat, List.map_append, List.map_singleton,
    hend]

section Retain

variable {cfg : RuntimeConfig} {p : PendingSequence κ σ} {seq fed : RuntimeSequence κ σ}
  {filed : List Snapshot} (granted : Bool) (next : Option Token)

/-- While retention is enabled the next boundary is one interval past the
newest snapshot. -/
theorem Tiling.toBoundary (h : Tiling cfg p seq filed) (hinterval : 0 < cfg.retentionInterval)
    (henabled : seq.retentionDisabled = false) :
    seq.position + cfg.toBoundary seq.position
      = seq.lastSnapshotPosition + cfg.retentionInterval := by
  obtain ⟨k, hk⟩ := h.dvd_last
  obtain ⟨hle, hlt⟩ := h.near henabled
  have hmod : seq.position % cfg.retentionInterval = seq.position - seq.lastSnapshotPosition := by
    obtain ⟨d, hd⟩ := Nat.exists_eq_add_of_le hle
    rw [hd, hk, Nat.mul_add_mod, Nat.add_sub_cancel_left]
    exact Nat.mod_eq_of_lt (by omega)
  rw [RuntimeConfig.toBoundary, if_neg (Nat.ne_of_gt hinterval), hmod]
  omega

/-- A pass that ends at the next boundary at the latest, and files a snapshot
if it got there, keeps the tiling. -/
theorem retain_tiling (hinterval : 0 < cfg.retentionInterval) (h : Tiling cfg p seq filed)
    (hsnapshot : fed.lastSnapshot = seq.lastSnapshot)
    (hlast : fed.lastSnapshotPosition = seq.lastSnapshotPosition)
    (hdisabled : fed.retentionDisabled = seq.retentionDisabled)
    (hstep : seq.retentionDisabled = false → seq.position ≤ fed.position ∧
      fed.position ≤ seq.position + cfg.toBoundary seq.position) :
    Tiling cfg p (fed.retain cfg granted next).1 (filed ++ (fed.retain cfg granted next).2) := by
  have hdvd := h.dvd_last
  rw [RuntimeSequence.retain]
  by_cases hboundary : fed.atBoundary cfg
  · rw [if_pos hboundary]
    obtain ⟨-, henabled, hbeyond, hmod⟩ := hboundary
    rw [hdisabled] at henabled
    rw [hlast] at hbeyond
    have hnext := (hstep henabled).2
    rw [h.toBoundary hinterval henabled] at hnext
    -- the only multiple of the interval in reach
    have hposition : fed.position = seq.lastSnapshotPosition + cfg.retentionInterval := by
      obtain ⟨k, hk⟩ := hdvd
      obtain ⟨m, hm⟩ := Nat.dvd_of_mod_eq_zero hmod
      rw [hk] at hbeyond hnext ⊢
      rw [hm] at hbeyond hnext ⊢
      have hlt : k < m := Nat.lt_of_mul_lt_mul_left hbeyond
      rw [← Nat.mul_succ] at hnext ⊢
      have hle : m ≤ k + 1 := Nat.le_of_mul_le_mul_left hnext hinterval
      rw [Nat.le_antisymm hle hlt]
    by_cases hgranted : granted
    -- the snapshot is taken: it covers the positions since the last one
    · rw [if_pos hgranted]
      obtain ⟨htiled, hcontinues⟩ := h.capture next hsnapshot hposition
      refine ⟨rfl, ?_, fun s hs => ?_, ?_, ?_, ?_, fun _ => ?_⟩
      · rw [← List.append_assoc, List.getLast?_concat]
      · rw [← List.append_assoc] at hs
        rcases List.mem_append.mp hs with hs | hs
        · exact h.tiled s hs
        · rw [List.mem_singleton.mp hs]
          exact htiled
      -- it continues the newest snapshot there was
      · rw [← List.append_assoc, List.isChain_append]
        refine ⟨h.linked, List.isChain_singleton _, fun s hs s' hs' => ?_⟩
        obtain rfl : fed.capture next = s' := Option.some.inj hs'
        exact hcontinues s hs
      · simp only
        rw [hposition]
        exact h.restored_le.trans (Nat.le_add_right _ _)
      · simp only
        rw [List.map_append, h.cadence, hposition, boundaries_succ hinterval h.restored_le hdvd]
        show _ ++ [fed.position] = _
        rw [hposition]
      · exact ⟨le_rfl, Nat.lt_add_of_pos_right hinterval⟩
    -- the arena refuses: retention is off from here on, and nothing is filed
    · rw [if_neg hgranted, List.append_nil]
      refine ⟨?_, hsnapshot.trans h.newest, h.tiled, h.linked, ?_, ?_, fun hfalse => ?_⟩
      · simp only
        rw [hlast, hsnapshot, h.last]
      · exact hlast ▸ h.restored_le
      · exact hlast ▸ h.cadence
      · cases hfalse
  -- no boundary: the pass stays short of the next one
  · rw [if_neg hboundary, List.append_nil]
    refine ⟨?_, hsnapshot.trans h.newest, h.tiled, h.linked, hlast ▸ h.restored_le,
      hlast ▸ h.cadence, fun henabled => ?_⟩
    · rw [hlast, hsnapshot, h.last]
    · have henabled' : seq.retentionDisabled = false := hdisabled ▸ henabled
      obtain ⟨hge, hle⟩ := hstep henabled'
      rw [h.toBoundary hinterval henabled'] at hle
      have hnear := (h.near henabled').1
      rw [hlast]
      refine ⟨hnear.trans hge, lt_of_le_of_ne hle fun heq => hboundary ⟨hinterval, henabled, ?_, ?_⟩⟩
      · rw [hlast, heq]
        exact Nat.lt_add_of_pos_right hinterval
      · rw [heq, Nat.add_mod_right]
        exact Nat.mod_eq_zero_of_dvd hdvd

end Retain

/-! ### The passes of a sequence -/

namespace StepLog

variable {id : RequestId} {l l' : StepLog}

@[simp] theorem snapshots_append : (l ++ l').snapshots id = l.snapshots id ++ l'.snapshots id := by
  show (append l l').snapshots id = l.snapshots id ++ l'.snapshots id
  simp [snapshots, append]

@[simp] theorem snapshots_empty : empty.snapshots id = [] := rfl

@[simp] theorem snapshots_none (generated : List (RequestId × Token)) (stopped : List RequestId)
    (writes : List (RequestId × ℕ × ℕ)) :
    (StepLog.mk generated [] stopped writes).snapshots id = [] := rfl

/-- A log that retains nothing but some snapshots of one request. -/
theorem snapshots_pairs (id : RequestId) (l : StepLog) (snapshots : List Snapshot)
    (h : l.retained = snapshots.map (id, ·)) : l.snapshots id = snapshots := by
  rw [StepLog.snapshots, h]
  induction snapshots with
  | nil => rfl
  | cons s snapshots ih => simp [List.filter_map, Function.comp_def]

end StepLog

section Passes

variable {M : Target Row κ σ} {cfg : RuntimeConfig} {io : StepOracle} {id : RequestId}
  {p : PendingSequence κ σ} {seq : RuntimeSequence κ σ} {filed : List Snapshot}

theorem prefillPiece_tiling {granted : Bool} {piece : List Token}
    (hinterval : 0 < cfg.retentionInterval) (h : Tiling cfg p seq filed)
    (hpiece : piece.length ≤ cfg.toBoundary seq.position) :
    Tiling cfg p (prefillPiece M cfg granted piece seq).1
      (filed ++ (prefillPiece M cfg granted piece seq).2) := by
  set fed := { seq with
    history := seq.history ++ inputsFrom seq.images seq.position piece } with hfed
  have hposition : fed.position = seq.position + piece.length := by
    show (seq.history ++ inputsFrom seq.images seq.position piece).length = _
    rw [List.length_append, inputsFrom_length]
    rfl
  have hstep : seq.retentionDisabled = false → seq.position ≤ fed.position ∧
      fed.position ≤ seq.position + cfg.toBoundary seq.position := fun _ => by
    rw [hposition]
    exact ⟨Nat.le_add_right _ _, Nat.add_le_add_left hpiece _⟩
  rw [prefillPiece]
  simp only [← hfed]
  split
  · split
    · exact retain_tiling granted none hinterval h rfl rfl rfl hstep
    · exact retain_tiling granted _ hinterval h rfl rfl rfl hstep
  · rename_i hboundary
    have hkept := retain_tiling granted none hinterval h
      (show fed.lastSnapshot = seq.lastSnapshot from rfl) rfl rfl hstep
    rw [RuntimeSequence.retain, if_neg hboundary] at hkept
    exact hkept

/-- No piece of a prefill crosses a boundary. -/
theorem prefillPieces_tiling (hinterval : 0 < cfg.retentionInterval) :
    ∀ {fuel : ℕ} {work : List Token} {seq : RuntimeSequence κ σ} {filed : List Snapshot},
      Tiling cfg p seq filed →
      Tiling cfg p (prefillPieces M cfg io id fuel work seq).1
        (filed ++ (prefillPieces M cfg io id fuel work seq).2.snapshots id) := by
  intro fuel
  induction fuel with
  | zero =>
    intro work seq filed h
    rw [prefillPieces, StepLog.snapshots_empty, List.append_nil]
    exact h
  | succ fuel ih =>
    intro work seq filed h
    rw [prefillPieces]
    split
    · rw [StepLog.snapshots_empty, List.append_nil]
      exact h
    · simp only
      set width := choosePrefillWidth cfg seq.position work.length with hwidth
      have hpiece : (work.take width).length ≤ cfg.toBoundary seq.position :=
        (List.length_take_le _ _).trans (choosePrefillWidth_boundary hinterval)
      have hone := @prefillPiece_tiling _ _ _ M cfg p seq filed
        (io.arena id (seq.position + width)) (work.take width) hinterval h hpiece
      rw [StepLog.snapshots_append, StepLog.snapshots_pairs id _ _ rfl, ← List.append_assoc]
      exact ih hone

theorem prefillSequence_tiling {tokens : ℕ} {seq' : RuntimeSequence κ σ} {log : StepLog}
    (hinterval : 0 < cfg.retentionInterval) (h : Tiling cfg p seq filed)
    (hok : prefillSequence M cfg io id tokens seq = .ok (seq', log)) :
    Tiling cfg p seq' (filed ++ log.snapshots id) := by
  have hpieces := @prefillPieces_tiling _ _ _ M cfg io id p hinterval
    ((seq.prompt.drop seq.prefilled).take tokens).length
    ((seq.prompt.drop seq.prefilled).take tokens) seq filed h
  rw [prefillSequence] at hok
  simp only at hok
  split at hok
  · cases hok
  · split at hok
    · split at hok
      · cases hok
      · split at hok
        · simp only [Except.ok.injEq, Prod.mk.injEq] at hok
          obtain ⟨rfl, rfl⟩ := hok
          rw [StepLog.snapshots_append, StepLog.snapshots_none, List.append_nil]
          exact hpieces.congr rfl rfl rfl rfl
        · simp only [Except.ok.injEq, Prod.mk.injEq] at hok
          obtain ⟨rfl, rfl⟩ := hok
          rw [StepLog.snapshots_append, StepLog.snapshots_none, List.append_nil]
          exact hpieces.congr rfl rfl rfl rfl
    · simp only [Except.ok.injEq, Prod.mk.injEq] at hok
      obtain ⟨rfl, rfl⟩ := hok
      exact hpieces.congr rfl rfl rfl rfl

/-- One token at a time, no boundary is missed. -/
theorem decodeToken_tiling {round : ℕ} {r : Rounded κ σ} {log : StepLog}
    (hinterval : 0 < cfg.retentionInterval) (h : Tiling cfg p seq filed)
    (hok : decodeToken M cfg io round id seq = .ok (r, log)) :
    Tiling cfg p r.1 (filed ++ log.snapshots id) := by
  rw [decodeToken] at hok
  split at hok
  · cases hok
  · rename_i input hinput
    have hpos : 0 < cfg.toBoundary seq.position := by
      rw [RuntimeConfig.toBoundary, if_neg (Nat.ne_of_gt hinterval)]
      exact Nat.sub_pos_of_lt (Nat.mod_lt _ hinterval)
    simp only at hok
    set fed := { seq with
      history := seq.history ++ [Input.token input]
      choice := (seq.choice.decideRow M (M.logits (seq.history ++ [Input.token input]))).2 }
      with hfed
    have hposition : fed.position = seq.position + 1 := by
      show (seq.history ++ [Input.token input]).length = _
      rw [List.length_append, List.length_singleton]
      rfl
    have hkept := retain_tiling (io.arena id fed.position)
      (fed.recorded (seq.choice.decideRow M (M.logits (seq.history ++ [Input.token input]))).1)
      hinterval h (show fed.lastSnapshot = seq.lastSnapshot from rfl) rfl rfl fun _ => by
        rw [hposition]
        exact ⟨Nat.le_add_right _ _, Nat.add_le_add_left hpos _⟩
    split at hok
    · simp only [Except.ok.injEq, Prod.mk.injEq] at hok
      obtain ⟨rfl, rfl⟩ := hok
      rw [StepLog.snapshots_pairs id _ _ rfl]
      exact hkept.congr rfl rfl rfl rfl
    · simp only [Except.ok.injEq, Prod.mk.injEq] at hok
      obtain ⟨rfl, rfl⟩ := hok
      rw [StepLog.snapshots_pairs id _ _ rfl]
      exact hkept.congr rfl rfl rfl rfl

theorem decodeAlone_tiling (hinterval : 0 < cfg.retentionInterval) :
    ∀ {fuel round : ℕ} {seq r : Rounded κ σ} {log : StepLog} {filed : List Snapshot},
      Tiling cfg p seq.1 filed → decodeAlone M cfg io id fuel round seq = .ok (r, log) →
      Tiling cfg p r.1 (filed ++ log.snapshots id) := by
  intro fuel
  induction fuel with
  | zero =>
    intro round seq r log filed h hok
    simp only [decodeAlone, Except.ok.injEq, Prod.mk.injEq] at hok
    obtain ⟨rfl, rfl⟩ := hok
    rw [StepLog.snapshots_empty, List.append_nil]
    exact h
  | succ fuel ih =>
    intro round seq r log filed h hok
    rw [decodeAlone] at hok
    rcases hone : decodeActive M cfg io round id seq with e | ⟨seq₁, log₁⟩
    · rw [hone] at hok
      cases hok
    · rw [hone] at hok
      simp only at hok
      rcases hrest : decodeAlone M cfg io id fuel (round + 1) seq₁ with e | ⟨seq₂, log₂⟩
      · rw [hrest] at hok
        cases hok
      · rw [hrest] at hok
        simp only [Except.ok.injEq, Prod.mk.injEq] at hok
        obtain ⟨rfl, rfl⟩ := hok
        have hfirst : Tiling cfg p seq₁.1 (filed ++ log₁.snapshots id) := by
          rw [decodeActive] at hone
          split at hone
          · exact decodeToken_tiling hinterval h hone
          · simp only [Except.ok.injEq, Prod.mk.injEq] at hone
            obtain ⟨rfl, rfl⟩ := hone
            rw [StepLog.snapshots_empty, List.append_nil]
            exact h
        rw [StepLog.snapshots_append, ← List.append_assoc]
        exact ih hfirst hrest

theorem hostAccept_length {row : ℕ → Row} :
    ∀ (draft : List Token) (j : ℕ) (c : Choice κ σ),
      (hostAccept M row j draft c).1.length ≤ draft.length + 1 := by
  intro draft
  induction draft with
  | nil => exact fun _ _ => le_rfl
  | cons drafted draft ih =>
    intro j c
    rw [hostAccept]
    simp only
    split
    · exact Nat.succ_le_succ (Nat.zero_le _)
    · exact Nat.succ_le_succ (ih _ _)

theorem deviceAccept_length {row : ℕ → Row} :
    ∀ (draft : List Token) (j : ℕ), (deviceAccept M row j draft).length ≤ draft.length + 1 := by
  intro draft
  induction draft with
  | nil => exact fun _ => le_rfl
  | cons drafted draft ih =>
    intro j
    rw [deviceAccept]
    split
    · exact Nat.succ_le_succ (ih _)
    · exact Nat.succ_le_succ (Nat.zero_le _)

/-- A draft stops short of the next boundary while retention is enabled. -/
theorem withDraft_boundary (proposal : List Token) (hinterval : 0 < cfg.retentionInterval)
    (henabled : seq.retentionDisabled = false) :
    (seq.withDraft cfg proposal).draft.length + 1 ≤ cfg.toBoundary seq.position := by
  have hboundary : cfg.toBoundary seq.position
      = cfg.retentionInterval - seq.position % cfg.retentionInterval :=
    if_neg (Nat.ne_of_gt hinterval)
  have hlt := Nat.mod_lt seq.position hinterval
  have hboth : 0 < cfg.retentionInterval ∧ seq.retentionDisabled = false := ⟨hinterval, henabled⟩
  simp only [RuntimeSequence.withDraft, if_pos hboth, hboundary]
  split
  · show 0 + 1 ≤ _
    omega
  · rw [List.length_take]
    omega

/-- A verify window commits at most its draft and one token more. -/
theorem verifySequence_tiling {seq' : RuntimeSequence κ σ} {log : StepLog}
    (hinterval : 0 < cfg.retentionInterval) (h : Tiling cfg p seq filed)
    (hdraft : seq.retentionDisabled = false →
      seq.draft.length + 1 ≤ cfg.toBoundary seq.position)
    (hok : verifySequence M cfg io id seq = .ok (seq', log)) :
    Tiling cfg p seq' (filed ++ log.snapshots id) := by
  rw [verifySequence] at hok
  split at hok
  · cases hok
  · rename_i last hlast
    simp only at hok
    set row := fun j => M.logits
      (seq.history ++ ((verifyIds cfg.window last seq.draft).take (j + 1)).map Input.token)
      with hrow
    set accepted := if seq.choice.choosesOnTheHost then hostAccept M row 0 seq.draft seq.choice
      else (deviceAccept M row 0 seq.draft, seq.choice) with haccepted
    have haccept : accepted.1.length ≤ seq.draft.length + 1 := by
      rw [haccepted]
      split
      · exact hostAccept_length _ _ _
      · exact deviceAccept_length _ _
    have hemit : (truncateAtEos cfg.eosToken accepted.1).1.length ≤ seq.draft.length + 1 :=
      ( truncateAtEos_prefix _ _).length_le.trans haccept
    set emit := (truncateAtEos cfg.eosToken accepted.1).1 with hemit_
    set committed := { seq with
      history := seq.history
        ++ ((verifyIds cfg.window last seq.draft).take emit.length).map Input.token
      choice := accepted.2
      nextToken := emit.getLast? } with hcommitted
    have hposition : committed.position ≤ seq.position + emit.length ∧
        seq.position ≤ committed.position := by
      have hlength : committed.position = seq.position
          + ((verifyIds cfg.window last seq.draft).take emit.length).length := by
        show (seq.history ++ _).length = _
        rw [List.length_append, List.length_map]
        rfl
      rw [hlength]
      exact ⟨Nat.add_le_add_left (List.length_take_le _ _) _, Nat.le_add_right _ _⟩
    have hkept := retain_tiling (io.arena id committed.position)
      (if committed.choice.sampler.isNone then emit.getLast? else none) hinterval h
      (show committed.lastSnapshot = seq.lastSnapshot from rfl) rfl rfl fun henabled => by
        have hreach := hdraft henabled
        exact ⟨hposition.2, by omega⟩
    simp only [Except.ok.injEq, Prod.mk.injEq] at hok
    obtain ⟨rfl, rfl⟩ := hok
    rw [StepLog.snapshots_pairs id _ _ rfl]
    exact hkept.congr rfl rfl rfl rfl

theorem SequenceStep.tiling {seq' : RuntimeSequence κ σ} {log log' : StepLog} {move : SequenceMove}
    (hinterval : 0 < cfg.retentionInterval) (h : Tiling cfg p seq (log.snapshots id))
    (hstep : SequenceStep M cfg id (seq, log) move (seq', log')) :
    Tiling cfg p seq' (log'.snapshots id) := by
  cases hstep with
  | prefill _ hok =>
    rw [StepLog.snapshots_append]
    exact prefillSequence_tiling hinterval h hok
  | @decode _ _ _ _ io _ _ _ _ hshare =>
    rw [StepLog.snapshots_append]
    have hdrafted : Tiling cfg p (seq.withDraft cfg (io.proposals id)) (log.snapshots id) :=
      h.congr rfl rfl rfl rfl
    rcases hshare with hok | ⟨fuel, -, hok⟩
    · exact verifySequence_tiling hinterval hdrafted
        (fun henabled => withDraft_boundary _ hinterval henabled) hok
    · exact @decodeAlone_tiling _ _ _ M cfg io id p hinterval _ _ _ _ _ _ hdrafted hok

end Passes

/-! ### The snapshots of a life -/

/-- The snapshots sequences have filed, each of them started afresh or from
one filed before. -/
inductive Retained (M : Target Row κ σ) (cfg : RuntimeConfig) : Snapshot → Prop where
  | file {id : RequestId} {p : PendingSequence κ σ} {moves : List SequenceMove}
      {seq : RuntimeSequence κ σ} {log : StepLog} {s : Snapshot} :
      (∀ s₀, p.snapshot = some s₀ → Retained M cfg s₀) → Life M cfg id p moves seq log →
      s ∈ log.snapshots id → Retained M cfg s

section Lives

variable {M : Target Row κ σ} {cfg : RuntimeConfig} {id : RequestId} {p : PendingSequence κ σ}
  {moves : List SequenceMove} {seq : RuntimeSequence κ σ} {log : StepLog}

theorem Started.tiling (hinterval : 0 < cfg.retentionInterval)
    (hsnapshot : ∀ s, p.snapshot = some s → ∃ n, s.Tiled cfg.retentionInterval n)
    (h : Started cfg p seq) : Tiling cfg p seq [] := by
  refine ⟨?_, ?_, fun s hs => ?_, ?_, h.lastSnapshotPosition.ge, ?_, fun _ => ?_⟩
  · rw [h.lastSnapshotPosition, h.lastSnapshot]
    rfl
  · rw [h.lastSnapshot, List.append_nil]
    rcases p.snapshot with _ | s
    · rfl
    · rfl
  · rw [List.append_nil, Option.mem_toList] at hs
    exact hsnapshot s hs
  · rw [List.append_nil]
    rcases p.snapshot with _ | s
    · exact List.isChain_nil
    · exact List.isChain_singleton s
  · rw [h.lastSnapshotPosition, boundaries, Nat.sub_self]
    rfl
  · rw [h.lastSnapshotPosition, h.position]
    exact ⟨le_rfl, Nat.lt_add_of_pos_right hinterval⟩

theorem Life.tiling (hinterval : 0 < cfg.retentionInterval)
    (hsnapshot : ∀ s, p.snapshot = some s → ∃ n, s.Tiled cfg.retentionInterval n)
    (h : Life M cfg id p moves seq log) : Tiling cfg p seq (log.snapshots id) := by
  obtain ⟨seq₀, hstarted, hrun⟩ := h
  exact hrun.invariant (P := fun s => Tiling cfg p s.1 (s.2.snapshots id))
    (hstarted.tiling hinterval hsnapshot) fun h hstep => hstep.tiling hinterval h

theorem Retained.tiled (hinterval : 0 < cfg.retentionInterval) {s : Snapshot}
    (h : Retained M cfg s) : ∃ n, s.Tiled cfg.retentionInterval n := by
  induction h with
  | file _ hlife hs ih =>
    exact (hlife.tiling hinterval fun s₀ hs₀ => ih s₀ hs₀).tiled _ (List.mem_append_right _ hs)

theorem SequenceStep.framed {seq' : RuntimeSequence κ σ} {log' : StepLog} {move : SequenceMove}
    (hstep : SequenceStep M cfg id (seq, log) move (seq', log')) : Framed seq seq' := by
  cases hstep with
  | prefill _ hok => exact (prefillSequence_progress hok).2.1
  | decode _ hopen hpending hwindow hshare =>
    exact (hshare.progress hpending hopen hwindow).1

/-- A state is allocated for the prompt at least. -/
theorem Life.prompt_le_capacity (h : Life M cfg id p moves seq log) :
    p.prompt.length ≤ seq.capacity := by
  obtain ⟨seq₀, hstarted, hrun⟩ := h
  have hframed : Framed seq₀ seq := hrun.invariant (P := fun s => Framed seq₀ s.1)
    (Framed.refl seq₀) fun h hstep => h.trans hstep.framed
  have hle : (p.request.promptTokens : ℕ) ≤ p.request.fullSeqLen := by
    have hlt := p.request.promptTokens.isLt
    show _ ≤ min ((p.request.promptTokens : ℕ) + p.request.maxOutputTokens) (2 ^ 32 - 1)
    omega
  rw [hframed.capacity, hstarted.capacity, hstarted.length]
  exact hle.trans (Nat.le_add_right _ _)

/-- The snapshots of a life.  While retention is enabled they are at exactly
the boundaries passed, and each continues the one before.  Each of them, the
one the life started from included, restores every position of its prefix
once, in copies that pass their checks. -/
theorem retained_tile (hinterval : 0 < cfg.retentionInterval)
    (hsnapshot : ∀ s, p.snapshot = some s → Retained M cfg s)
    (h : Life M cfg id p moves seq log) :
    (seq.retentionDisabled = false → (log.snapshots id).map Snapshot.position
        = boundaries cfg.retentionInterval p.restored seq.position) ∧
      (p.snapshot.toList ++ log.snapshots id).IsChain Snapshot.Continues ∧
      (∀ s ∈ p.snapshot.toList ++ log.snapshots id,
        s.start + cfg.retentionInterval = s.position ∧
        s.restoredPositions = List.range s.position ∧
        s.Fits cfg.retentionInterval s.position) ∧
      ∀ s, p.snapshot = some s → s.Fits cfg.retentionInterval seq.capacity := by
  have htiling := h.tiling hinterval fun s hs => (hsnapshot s hs).tiled hinterval
  refine ⟨fun henabled => ?_, htiling.linked, fun s hs => ?_, fun s hs => ?_⟩
  · obtain ⟨hle, hlt⟩ := htiling.near henabled
    obtain ⟨k, hk⟩ := htiling.dvd_last
    have hdiv : seq.position / cfg.retentionInterval
        = seq.lastSnapshotPosition / cfg.retentionInterval := by
      rw [hk] at hle hlt ⊢
      rw [Nat.mul_div_cancel_left _ hinterval]
      refine Nat.div_eq_of_lt_le (by rwa [Nat.mul_comm]) ?_
      rwa [Nat.succ_mul, Nat.mul_comm k]
    rw [htiling.cadence, boundaries, boundaries, hdiv]
  · obtain ⟨n, htiled⟩ := htiling.tiled s hs
    exact ⟨htiled.start, htiled.restoredPositions, htiled.fits le_rfl⟩
  · obtain ⟨n, htiled⟩ := (hsnapshot s hs).tiled hinterval
    refine htiled.fits ?_
    have hrestored : p.restored = s.position := by
      rw [PendingSequence.restored, hs]
      rfl
    have hcapacity := h.prompt_le_capacity
    obtain ⟨seq₀, hstarted, -⟩ := h
    rw [← hrestored]
    exact hstarted.restored_le.trans hcapacity

/-- A prompt of ten tokens that may generate six; it crosses two boundaries. -/
def tenPrompt : PendingSequence Unit Unit where
  request := ⟨0, 10, 6⟩
  prompt := List.replicate 10 7
  images := []
  snapshot := none
  sampler := none
  constraint := none

theorem retained_tile_witness : ∃ seq log,
    Life tallyTarget tallyConfig 0 tenPrompt [.prefill tallyRound.1 10] seq log ∧
      (log.snapshots 0).map Snapshot.position = [4, 8] ∧
      ∀ s ∈ log.snapshots 0, s.restoredPositions = List.range s.position := by
  obtain ⟨seq₀, hadmit⟩ : ∃ seq₀, admitPending tallyConfig tenPrompt ∅
      = .ok (AList.insert 0 seq₀ ∅) := ⟨_, rfl⟩
  obtain ⟨⟨seq₁, hseq₁, hstarted⟩, -⟩ := admitPending_started hadmit
  obtain rfl : seq₀ = seq₁ := Option.some.inj hseq₁
  have hfiled : ((prefillSequence tallyTarget tallyConfig tallyRound.1 0 10 seq₀).map fun r =>
      (r.1.retentionDisabled, r.1.position)).toOption = some (false, 10) := by
    cases hadmit
    decide
  rcases hok : prefillSequence tallyTarget tallyConfig tallyRound.1 0 10 seq₀ with e | ⟨seq, log⟩
  · rw [hok] at hfiled
    cases hfiled
  · rw [hok] at hfiled
    obtain ⟨henabled, hposition⟩ := Prod.mk.inj (Option.some.inj hfiled)
    have hlife : Life tallyTarget tallyConfig 0 tenPrompt [.prefill tallyRound.1 10] seq
        (StepLog.empty ++ log) := ⟨seq₀, hstarted, Run.single (.prefill hstarted.emitted hok)⟩
    obtain ⟨hcadence, -, hwhole, -⟩ :=
      retained_tile (by decide) (fun s hs => by cases hs) hlife
    refine ⟨seq, _, hlife, ?_, fun s hs => (hwhole s hs).2.1⟩
    rw [hcadence henabled, hposition]
    decide

end Lives
