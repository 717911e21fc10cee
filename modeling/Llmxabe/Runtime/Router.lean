/-
Which worker serves a request (`xabe-engine/src/router.rs`).

Scores are in an ordered field.  A worker's utilisation is a fraction by its type, the
prefix share by its definition; the queue pressure has no bound, and so no
configuration makes one resident sequence outweigh it.

* `route_balances_iff`: when the router picks a least loaded worker;
* `balances_of_queues`: a sufficient bound on the queues;
* `queue_outweighs_residents`: the default weights and a busier worker.
-/
import Llmxabe.Sched.Request
import Mathlib.Algebra.Order.Field.Basic

namespace Router

variable {K : Type} [Field K] [LinearOrder K]

/-- Weights of the routing score. -/
structure RouterConfig (K : Type) where
  prefixWeight : K
  queueWeight : K
  kvWeight : K
  residencyWeight : K

namespace RouterConfig

/-- The default weights. -/
def balanced : RouterConfig K := ⟨1, 0.3, 0.5, 2.0⟩

/-- The most that cache and memory together can favour one worker. -/
def maxPreferenceSwing (cfg : RouterConfig K) : K := cfg.prefixWeight + cfg.kvWeight

/-- One resident sequence outweighs both. -/
def balancesBeforeItPrefersCache (cfg : RouterConfig K) : Bool :=
  decide (cfg.maxPreferenceSwing < cfg.residencyWeight)

end RouterConfig

/-- A worker's state as the router sees it. -/
structure WorkerLoad (K : Type) [Field K] [LinearOrder K] where
  id : ℕ
  matchedTokens : U32
  queuedTokens : U32
  kvUtilization : K
  residentSequences : U32
  canAdmit : Bool
  kv_nonneg : 0 ≤ kvUtilization
  kv_le_one : kvUtilization ≤ 1

namespace WorkerLoad

/-- Fraction of the request already cached. -/
def prefixFraction (load : WorkerLoad K) (promptTokens : U32) : K :=
  if (promptTokens : ℕ) = 0 then 0
  else ((min (load.matchedTokens : ℕ) promptTokens : ℕ) : K) / ((promptTokens : ℕ) : K)

/-- Queued work in steps. -/
def queuePressure (load : WorkerLoad K) (tokenBudget : U32) : K :=
  if (tokenBudget : ℕ) = 0 then 0
  else ((load.queuedTokens : ℕ) : K) / ((tokenBudget : ℕ) : K)

/-- The higher the better. -/
def score (load : WorkerLoad K) (cfg : RouterConfig K) (promptTokens tokenBudget : U32) : K :=
  cfg.prefixWeight * load.prefixFraction promptTokens -
    cfg.queueWeight * load.queuePressure tokenBudget -
    cfg.kvWeight * load.kvUtilization -
    cfg.residencyWeight * ((load.residentSequences : ℕ) : K)

end WorkerLoad

/-- Why no worker is chosen. -/
inductive RoutingError where
  | noWorkers
  | allWorkersSaturated
  deriving DecidableEq, Repr

/-- The chosen worker and what it was chosen for. -/
structure Routed (K : Type) where
  worker : ℕ
  score : K
  matchedTokens : U32

/-- One round of the loop: strictly greater, so that an earlier worker wins ties. -/
def better (cfg : RouterConfig K) (promptTokens tokenBudget : U32) (best : Option (Routed K))
    (load : WorkerLoad K) : Option (Routed K) :=
  let score := load.score cfg promptTokens tokenBudget
  match best with
  | some b => if b.score < score then some ⟨load.id, score, load.matchedTokens⟩ else some b
  | none => some ⟨load.id, score, load.matchedTokens⟩

/-- Pick the worker that should serve a request. -/
def route (cfg : RouterConfig K) (loads : List (WorkerLoad K)) (promptTokens tokenBudget : U32) :
    Except RoutingError (Routed K) :=
  if loads = [] then .error .noWorkers
  else
    match (loads.filter (·.canAdmit)).foldl (better cfg promptTokens tokenBudget) none with
    | some best => .ok best
    | none => .error .allWorkersSaturated

section Scan

variable (cfg : RouterConfig K) (promptTokens tokenBudget : U32)

/-- What the router answers for a worker. -/
def routed (load : WorkerLoad K) : Routed K where
  worker := load.id
  score := load.score cfg promptTokens tokenBudget
  matchedTokens := load.matchedTokens

/-- The loop keeps the first worker of the highest score. -/
theorem foldl_better : ∀ {loads : List (WorkerLoad K)}, loads ≠ [] →
    ∃ before load after, loads = before ++ load :: after ∧
      loads.foldl (better cfg promptTokens tokenBudget) none =
        some (routed cfg promptTokens tokenBudget load) ∧
      (∀ other ∈ before, other.score cfg promptTokens tokenBudget <
        load.score cfg promptTokens tokenBudget) ∧
      ∀ other ∈ after, other.score cfg promptTokens tokenBudget ≤
        load.score cfg promptTokens tokenBudget := by
  intro loads
  induction loads using List.reverseRecOn with
  | nil => exact fun hne => absurd rfl hne
  | append_singleton loads last ih =>
    intro _
    by_cases hnil : loads = []
    · subst hnil
      exact ⟨[], last, [], rfl, rfl, fun _ h => absurd h List.not_mem_nil,
        fun _ h => absurd h List.not_mem_nil⟩
    obtain ⟨before, load, after, hsplit, hfold, hbefore, hafter⟩ := ih hnil
    have hstep : (loads ++ [last]).foldl (better cfg promptTokens tokenBudget) none =
        if load.score cfg promptTokens tokenBudget < last.score cfg promptTokens tokenBudget then
          some (routed cfg promptTokens tokenBudget last)
        else some (routed cfg promptTokens tokenBudget load) := by
      rw [List.foldl_append, hfold]
      rfl
    by_cases hlt : load.score cfg promptTokens tokenBudget < last.score cfg promptTokens tokenBudget
    · rw [if_pos hlt] at hstep
      refine ⟨loads, last, [], rfl, hstep, fun other hother => ?_,
        fun _ h => absurd h List.not_mem_nil⟩
      rw [hsplit] at hother
      obtain h | h := List.mem_append.mp hother
      · exact (hbefore other h).trans hlt
      · obtain rfl | h := List.mem_cons.mp h
        · exact hlt
        · exact (hafter other h).trans_lt hlt
    · rw [if_neg hlt] at hstep
      refine ⟨before, load, after ++ [last], ?_, hstep, hbefore, fun other hother => ?_⟩
      · rw [hsplit, List.append_assoc]
        rfl
      · obtain h | h := List.mem_append.mp hother
        · exact hafter other h
        · rw [List.mem_singleton.mp h]
          exact not_lt.mp hlt

end Scan

/-! ### Balancing -/

section Balance

variable (cfg : RouterConfig K) (loads : List (WorkerLoad K)) (promptTokens tokenBudget : U32)

/-- The worker between the others is least loaded, then best by score, then first. -/
structure Best (before : List (WorkerLoad K)) (load : WorkerLoad K)
    (after : List (WorkerLoad K)) : Prop where
  before : ∀ other ∈ before, load.residentSequences < other.residentSequences ∨
    load.residentSequences = other.residentSequences ∧
      other.score cfg promptTokens tokenBudget < load.score cfg promptTokens tokenBudget
  after : ∀ other ∈ after, load.residentSequences < other.residentSequences ∨
    load.residentSequences = other.residentSequences ∧
      other.score cfg promptTokens tokenBudget ≤ load.score cfg promptTokens tokenBudget

/-- The router picks the best admissible worker, and none only if there is none. -/
def Balances : Prop :=
  match route cfg loads promptTokens tokenBudget with
  | .ok answer => ∃ before load after, loads.filter (·.canAdmit) = before ++ load :: after ∧
      answer = routed cfg promptTokens tokenBudget load ∧
      Best cfg promptTokens tokenBudget before load after
  | .error _ => loads.filter (·.canAdmit) = []

/-- How much prefix, queue and utilisation favour one worker over another. -/
def pull (busy idle : WorkerLoad K) : K :=
  cfg.prefixWeight * (busy.prefixFraction promptTokens - idle.prefixFraction promptTokens) +
    cfg.queueWeight * (idle.queuePressure tokenBudget - busy.queuePressure tokenBudget) +
    cfg.kvWeight * (idle.kvUtilization - busy.kvUtilization)

/-- What the sequences that one worker has beyond another's cost it. -/
def residency (busy idle : WorkerLoad K) : K :=
  cfg.residencyWeight *
    (((busy.residentSequences : ℕ) : K) - ((idle.residentSequences : ℕ) : K))

/-- Among the admissible workers nobody has fewer sequences. -/
def LeastLoaded (load : WorkerLoad K) : Prop :=
  ∀ other ∈ loads, other.canAdmit = true → load.residentSequences ≤ other.residentSequences

/-- Every busier worker is pulled back by its sequences below a least loaded one: strictly,
or at most if that one stands before it. -/
def Outweighed : Prop :=
  ∀ before busy after, loads.filter (·.canAdmit) = before ++ busy :: after →
    ¬LeastLoaded loads busy →
    (∃ idle ∈ before, LeastLoaded loads idle ∧
      pull cfg promptTokens tokenBudget busy idle ≤ residency cfg busy idle) ∨
    ∃ idle ∈ after, LeastLoaded loads idle ∧
      pull cfg promptTokens tokenBudget busy idle < residency cfg busy idle

variable {cfg loads promptTokens tokenBudget}

variable [IsStrictOrderedRing K]

omit [IsStrictOrderedRing K] in
theorem score_sub (busy idle : WorkerLoad K) :
    busy.score cfg promptTokens tokenBudget - idle.score cfg promptTokens tokenBudget =
      pull cfg promptTokens tokenBudget busy idle - residency cfg busy idle := by
  rw [WorkerLoad.score, WorkerLoad.score, pull, residency]
  ring

theorem score_lt_iff {busy idle : WorkerLoad K} :
    busy.score cfg promptTokens tokenBudget < idle.score cfg promptTokens tokenBudget ↔
      pull cfg promptTokens tokenBudget busy idle < residency cfg busy idle := by
  rw [← sub_neg, score_sub, sub_neg]

theorem score_le_iff {busy idle : WorkerLoad K} :
    busy.score cfg promptTokens tokenBudget ≤ idle.score cfg promptTokens tokenBudget ↔
      pull cfg promptTokens tokenBudget busy idle ≤ residency cfg busy idle := by
  rw [← sub_nonpos, score_sub, sub_nonpos]

omit [IsStrictOrderedRing K] in
theorem route_ok {before after : List (WorkerLoad K)} {load : WorkerLoad K}
    (hsplit : loads.filter (·.canAdmit) = before ++ load :: after)
    (hfold : (loads.filter (·.canAdmit)).foldl (better cfg promptTokens tokenBudget) none =
      some (routed cfg promptTokens tokenBudget load)) :
    route cfg loads promptTokens tokenBudget = .ok (routed cfg promptTokens tokenBudget load) := by
  have hne : loads ≠ [] := by
    rintro rfl
    exact absurd hsplit (by simp)
  rw [route, if_neg hne, hfold]

omit [IsStrictOrderedRing K] in
theorem mem_admissible {load : WorkerLoad K} :
    load ∈ loads.filter (·.canAdmit) ↔ load ∈ loads ∧ load.canAdmit = true := List.mem_filter

omit [IsStrictOrderedRing K] in
theorem Best.leastLoaded {before after : List (WorkerLoad K)} {load : WorkerLoad K}
    (h : Best cfg promptTokens tokenBudget before load after)
    (hsplit : loads.filter (·.canAdmit) = before ++ load :: after) : LeastLoaded loads load := by
  intro other hother hadmit
  have hmem := mem_admissible.mpr ⟨hother, hadmit⟩
  rw [hsplit] at hmem
  obtain hmem | hmem := List.mem_append.mp hmem
  · exact (h.before other hmem).elim le_of_lt fun heq => heq.1.le
  · obtain rfl | hmem := List.mem_cons.mp hmem
    · exact le_rfl
    · exact (h.after other hmem).elim le_of_lt fun heq => heq.1.le

omit [LinearOrder K] [Field K] [IsStrictOrderedRing K] in
/-- An element of a list without repeated keys splits it in one way. -/
theorem split_unique {α : Type} {f : α → ℕ} {before before' after after' : List α} {x x' : α}
    (hnodup : ((before ++ x :: after).map f).Nodup)
    (hsame : before ++ x :: after = before' ++ x' :: after') (hkey : f x = f x') :
    before = before' ∧ x = x' ∧ after = after' := by
  obtain ⟨middle, hbefore, htail⟩ | ⟨middle, hbefore, htail⟩ := List.append_eq_append_iff.mp hsame
  · cases middle with
    | nil =>
      rw [List.nil_append, List.cons.injEq] at htail
      exact ⟨by rw [hbefore, List.append_nil], htail⟩
    | cons y middle =>
      rw [List.cons_append, List.cons.injEq] at htail
      exfalso
      rw [htail.2, List.map_append, List.map_cons, List.map_append, List.map_cons] at hnodup
      have hcons := (List.nodup_append.mp hnodup).2.1
      rw [List.nodup_cons, hkey] at hcons
      exact hcons.1 (List.mem_append_right _ List.mem_cons_self)
  · cases middle with
    | nil =>
      rw [List.nil_append, List.cons.injEq] at htail
      exact ⟨by rw [hbefore, List.append_nil], htail.1.symm, htail.2.symm⟩
    | cons y middle =>
      rw [List.cons_append, List.cons.injEq] at htail
      exfalso
      rw [hbefore, ← htail.1, List.append_assoc, List.cons_append, List.map_append, List.map_cons,
        List.map_append, List.map_cons] at hnodup
      have hcons := (List.nodup_append.mp hnodup).2.1
      rw [List.nodup_cons, ← hkey] at hcons
      exact hcons.1 (List.mem_append_right _ List.mem_cons_self)

theorem balances_of_outweighed (hweighed : Outweighed cfg loads promptTokens tokenBudget) :
    Balances cfg loads promptTokens tokenBudget := by
  by_cases hnone : loads.filter (·.canAdmit) = []
  · have herror : ∃ e, route cfg loads promptTokens tokenBudget = .error e := by
      rw [route, hnone]
      by_cases hnil : loads = []
      · exact ⟨_, if_pos hnil⟩
      · exact ⟨_, if_neg hnil⟩
    obtain ⟨e, he⟩ := herror
    rw [Balances, he]
    exact hnone
  obtain ⟨before, load, after, hsplit, hfold, hbefore, hafter⟩ :=
    foldl_better cfg promptTokens tokenBudget hnone
  rw [Balances, route_ok hsplit hfold]
  have hleast : LeastLoaded loads load := by
    by_contra hbusy
    obtain ⟨idle, hidle, -, hpull⟩ | ⟨idle, hidle, -, hpull⟩ :=
      hweighed before load after hsplit hbusy
    · exact absurd (hbefore idle hidle) (not_lt.mpr (score_le_iff.mpr hpull))
    · exact absurd (hafter idle hidle) (not_le.mpr (score_lt_iff.mpr hpull))
  have hmem : ∀ other, other ∈ before ∨ other ∈ after →
      load.residentSequences ≤ other.residentSequences := by
    intro other hother
    have hin : other ∈ loads.filter (·.canAdmit) := by
      rw [hsplit]
      exact hother.elim (List.mem_append_left _)
        fun h => List.mem_append_right _ (List.mem_cons_of_mem _ h)
    obtain ⟨hload, hadmit⟩ := mem_admissible.mp hin
    exact hleast other hload hadmit
  refine ⟨before, load, after, hsplit, rfl, fun other hother => ?_, fun other hother => ?_⟩
  · exact (hmem other (Or.inl hother)).lt_or_eq.imp_right fun heq => ⟨heq, hbefore other hother⟩
  · exact (hmem other (Or.inr hother)).lt_or_eq.imp_right fun heq => ⟨heq, hafter other hother⟩

/-- The router balances exactly where no busier worker is pulled past the least loaded. -/
theorem route_balances_iff (hids : (loads.map (·.id)).Nodup) :
    Balances cfg loads promptTokens tokenBudget ↔
      Outweighed cfg loads promptTokens tokenBudget := by
  refine ⟨fun hbalances before₁ busy after₁ hsplit₁ hbusy => ?_, balances_of_outweighed⟩
  have hsome : loads.filter (·.canAdmit) ≠ [] := by
    rw [hsplit₁]
    simp
  obtain ⟨before, load, after, hsplit, hfold, hbefore, hafter⟩ :=
    foldl_better cfg promptTokens tokenBudget hsome
  rw [Balances, route_ok hsplit hfold] at hbalances
  obtain ⟨before', load', after', hsplit', hanswer, hbest⟩ := hbalances
  have hsub : ((before ++ load :: after).map (·.id)).Nodup :=
    hsplit ▸ hids.sublist (List.filter_sublist.map _)
  obtain ⟨rfl, rfl, rfl⟩ := split_unique hsub (hsplit.symm.trans hsplit')
    (congrArg Routed.worker hanswer)
  have hleast := hbest.leastLoaded hsplit
  obtain ⟨middle, rfl, htail⟩ | ⟨middle, rfl, htail⟩ :=
    List.append_eq_append_iff.mp (hsplit.symm.trans hsplit₁)
  · cases middle with
    | nil =>
      rw [List.nil_append, List.cons.injEq] at htail
      exact absurd (htail.1 ▸ hleast) hbusy
    | cons first middle =>
      -- the busier worker stands behind the answer
      rw [List.cons_append, List.cons.injEq] at htail
      refine Or.inl ⟨load, ?_, hleast, score_le_iff.mp (hafter busy ?_)⟩
      · rw [htail.1]
        exact List.mem_append_right _ List.mem_cons_self
      · rw [htail.2]
        exact List.mem_append_right _ List.mem_cons_self
  · cases middle with
    | nil =>
      rw [List.nil_append, List.cons.injEq] at htail
      exact absurd (htail.1 ▸ hleast) hbusy
    | cons first middle =>
      -- it stands in front of it
      rw [List.cons_append, List.cons.injEq] at htail
      refine Or.inr ⟨load, ?_, hleast, score_lt_iff.mp (hbefore busy ?_)⟩
      · rw [htail.2]
        exact List.mem_append_right _ List.mem_cons_self
      · rw [htail.1]
        exact List.mem_append_right _ List.mem_cons_self

omit [IsStrictOrderedRing K] in
theorem exists_leastLoaded {load : WorkerLoad K} (hload : load ∈ loads.filter (·.canAdmit)) :
    ∃ idle ∈ loads.filter (·.canAdmit), LeastLoaded loads idle := by
  classical
  obtain ⟨idle, hidle, hleast⟩ := (loads.filter (·.canAdmit)).toFinset.exists_min_image
    WorkerLoad.residentSequences ⟨load, List.mem_toFinset.mpr hload⟩
  refine ⟨idle, List.mem_toFinset.mp hidle, fun other hother hadmit => ?_⟩
  exact hleast other (List.mem_toFinset.mpr (mem_admissible.mpr ⟨hother, hadmit⟩))

variable (promptTokens) in
theorem prefixFraction_mem (load : WorkerLoad K) :
    0 ≤ load.prefixFraction promptTokens ∧ load.prefixFraction promptTokens ≤ 1 := by
  rw [WorkerLoad.prefixFraction]
  by_cases hzero : (promptTokens : ℕ) = 0
  · rw [if_pos hzero]
    exact ⟨le_rfl, zero_le_one⟩
  · rw [if_neg hzero]
    have hpos : (0 : K) < ((promptTokens : ℕ) : K) := Nat.cast_pos.mpr (Nat.pos_of_ne_zero hzero)
    refine ⟨div_nonneg (Nat.cast_nonneg _) hpos.le, (div_le_one hpos).mpr ?_⟩
    exact Nat.cast_le.mpr (min_le_right _ _)

/-- A configuration that is accepted does balance where a worker with fewer sequences has no
longer queue. -/
theorem balances_of_queues (hcfg : cfg.balancesBeforeItPrefersCache = true)
    (hcache : 0 ≤ cfg.prefixWeight) (hkv : 0 ≤ cfg.kvWeight) (hqueues : ∀ busy ∈ loads, ∀ idle ∈ loads,
      idle.residentSequences < busy.residentSequences →
      cfg.queueWeight * (idle.queuePressure tokenBudget - busy.queuePressure tokenBudget) ≤ 0) :
    Balances cfg loads promptTokens tokenBudget := by
  refine balances_of_outweighed fun before busy after hsplit hbusy => ?_
  have hin : busy ∈ loads.filter (·.canAdmit) := by
    rw [hsplit]
    exact List.mem_append_right _ List.mem_cons_self
  obtain ⟨idle, hidle, hleast⟩ := exists_leastLoaded hin
  have hfewer : idle.residentSequences < busy.residentSequences := by
    by_contra hnot
    exact hbusy fun other hother hadmit => (not_lt.mp hnot).trans (hleast other hother hadmit)
  have hpull : pull cfg promptTokens tokenBudget busy idle < residency cfg busy idle := by
    have hswing : cfg.prefixWeight + cfg.kvWeight < cfg.residencyWeight := of_decide_eq_true hcfg
    have hq := hqueues busy (mem_admissible.mp hin).1 idle (mem_admissible.mp hidle).1 hfewer
    have hb := prefixFraction_mem promptTokens busy
    have hi := prefixFraction_mem promptTokens idle
    have hcached : cfg.prefixWeight *
        (busy.prefixFraction promptTokens - idle.prefixFraction promptTokens) ≤ cfg.prefixWeight :=
      mul_le_of_le_one_right hcache (by linarith)
    have hused : cfg.kvWeight * (idle.kvUtilization - busy.kvUtilization) ≤ cfg.kvWeight :=
      mul_le_of_le_one_right hkv (by linarith [idle.kv_le_one, busy.kv_nonneg])
    have hone : (1 : K) ≤ ((busy.residentSequences : ℕ) : K) - ((idle.residentSequences : ℕ) : K) := by
      have hcast : ((idle.residentSequences : ℕ) : K) + 1 ≤ ((busy.residentSequences : ℕ) : K) := by
        exact_mod_cast Nat.succ_le_of_lt hfewer
      linarith
    have hcost : cfg.residencyWeight ≤ residency cfg busy idle :=
      le_mul_of_one_le_right (by linarith) hone
    rw [pull]
    linarith
  rw [hsplit] at hidle
  obtain hmem | hmem := List.mem_append.mp hidle
  · exact Or.inl ⟨idle, hmem, hleast, hpull.le⟩
  · obtain rfl | hmem := List.mem_cons.mp hmem
    · exact absurd hleast hbusy
    · exact Or.inr ⟨idle, hmem, hleast, hpull⟩

end Balance

/-- A worker with five running sequences and the whole prompt cached, and one with four
that wait. -/
def unevenLoads (queued : U32) : List (WorkerLoad ℚ) :=
  [⟨0, 1000, 5, 1 / 10, 5, true, by norm_num, by norm_num⟩,
    ⟨1, 0, queued, 0, 4, true, le_rfl, zero_le_one⟩]

/-- With an even queue the router picks the worker with four sequences. -/
theorem route_balances_witness :
    Balances RouterConfig.balanced (unevenLoads 5) 1000 4096 ∧
      Outweighed RouterConfig.balanced (unevenLoads 5) 1000 4096 := by
  have hbalances : Balances RouterConfig.balanced (unevenLoads 5) 1000 4096 := by
    refine balances_of_queues (by decide +kernel) (by decide +kernel) (by decide +kernel)
      fun busy hbusy idle hidle _ => ?_
    have hqueue : ∀ load ∈ unevenLoads 5, load.queuePressure 4096 = 5 / 4096 := by
      intro load hload
      obtain rfl | hload := List.mem_cons.mp hload
      · rfl
      · rw [List.mem_singleton.mp hload]
        rfl
    rw [hqueue busy hbusy, hqueue idle hidle, sub_self, mul_zero]
  exact ⟨hbalances, (route_balances_iff (by decide)).mp hbalances⟩

/-- A waiting sequence is charged a whole budget: four of them weigh more than five running
ones with their prefix cached. -/
theorem queue_outweighs_residents :
    (RouterConfig.balanced : RouterConfig ℚ).balancesBeforeItPrefersCache = true ∧
      ¬Balances RouterConfig.balanced (unevenLoads (4 * 4096)) 1000 4096 := by
  refine ⟨by decide +kernel, fun hbalances => ?_⟩
  have hpicked : (route RouterConfig.balanced (unevenLoads (4 * 4096)) 1000 4096).toOption.map
      Routed.worker = some 0 := by decide +kernel
  rw [Balances] at hbalances
  cases hroute : route RouterConfig.balanced (unevenLoads (4 * 4096)) 1000 4096 with
  | error e =>
    rw [hroute] at hpicked
    exact absurd hpicked (by simp [Except.toOption])
  | ok answer =>
    rw [hroute] at hbalances hpicked
    obtain ⟨before, load, after, hsplit, hanswer, hbest⟩ := hbalances
    have hfirst : load.id = 0 := by
      rw [hanswer] at hpicked
      exact Option.some.inj hpicked
    -- worker 0 has a sequence more than worker 1
    have hfive : ∀ other ∈ unevenLoads (4 * 4096), other.id = 0 → other.residentSequences = 5 := by
      intro other hother hid
      obtain rfl | hother := List.mem_cons.mp hother
      · rfl
      · rw [List.mem_singleton.mp hother] at hid
        exact absurd hid (by decide)
    have hleast := hbest.leastLoaded hsplit
    have hload : load ∈ unevenLoads (4 * 4096) :=
      (mem_admissible.mp (by rw [hsplit]; exact List.mem_append_right _ List.mem_cons_self)).1
    have hidle := hleast ⟨1, 0, 4 * 4096, 0, 4, true, le_rfl, zero_le_one⟩
      (List.mem_cons_of_mem _ List.mem_cons_self) rfl
    rw [hfive load hload hfirst] at hidle
    exact absurd hidle (by decide)

end Router
