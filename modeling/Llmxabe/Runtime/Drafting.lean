/-
The caches of the drafters (`mtp_draft_chain`, `mtp_catchup`, `dflash_draft` and
`inject_context` behind `xabe-engine/src/runtime.rs`, and the session of
`xabe-engine/src/speculative.rs`).

A drafter attends to its own keys and values, one slot for each position.  A
slot is worth something if it was written for the input the target consumed
there.  `mtpDraftChain` writes one slot for each token it feeds its head; it
feeds as many as it drafts, the pending token and all drafts but the last.
`dflashDraft` writes a query block, which is replaced by the context of the
positions that the verify pass commits.  Prefill catches both up piece by piece.

What a drafter proposes is up to it (`DraftOracle`).  A step with its caches is
the device step with these proposals (`executeDrafted_execute`).
-/
import Llmxabe.Lib.SlotCache
import Llmxabe.Runtime.Batch
import Llmxabe.Runtime.Prefill

variable {Row κ σ : Type}

/-- What a draft slot was last written for. -/
inductive DraftRow where
  | context (input : Input)
  /-- A row of a query block. -/
  | query
  deriving DecidableEq, Repr

/-- The draft head's own cache. -/
abbrev DraftCache := SlotCache DraftRow

/-- The rows of some inputs. -/
def contextRows (inputs : List Input) : List DraftRow := inputs.map DraftRow.context

/-- The drafters that keep a cache; a runtime has one of them at most. -/
inductive Drafter where
  | mtp
  | dflash
  deriving DecidableEq, Repr

/-- What the drafters compute in a step: the token sampled in each round of the
chain, whether its probability is below the gate, and the tokens of a block. -/
structure DraftOracle where
  sampled : RequestId → ℕ → Token
  unsure : RequestId → ℕ → Bool
  block : RequestId → List Token

/-- The resident sequences with the caches of those that have one. -/
structure Drafted (κ σ : Type) where
  seqs : Sequences κ σ
  caches : RequestId → Option DraftCache

/-- Tokens drafted in a step. -/
def RuntimeConfig.drafts (cfg : RuntimeConfig) : ℕ := cfg.window - 1

/-- With a drafter the window holds a draft, and every width has its verify
pass. -/
structure RuntimeConfig.BuiltToDraft (cfg : RuntimeConfig) : Prop where
  window : 2 ≤ cfg.window
  verify : ∀ width, 1 ≤ width → width ≤ cfg.maxBatch → cfg.verifyBuilt width = true

/-! ### Drafting -/

/-- A participant of the batched draft. -/
structure ChainRow where
  id : RequestId
  base : ℕ
  tok : Token
  active : Bool
  draft : List Token
  cache : DraftCache

/-- One round of the head for one participant.  A participant below the gate
proposes nothing more, but its row keeps running. -/
def ChainRow.round (o : DraftOracle) (j : ℕ) (r : ChainRow) : ChainRow :=
  let sampled := o.sampled r.id j
  let active := r.active && !o.unsure r.id j
  { r with
    cache := r.cache.write (r.base + j) [.context (.token r.tok)]
    active
    draft := if active then r.draft ++ [sampled] else r.draft
    tok := sampled }

/-- Rounds, until the drafts are drafted or nobody proposes any more. -/
def mtpRounds (o : DraftOracle) : ℕ → ℕ → List ChainRow → List ChainRow
  | 0, _, rows => rows
  | fuel + 1, j, rows =>
    let rows := rows.map (·.round o j)
    if rows.any (·.active) then mtpRounds o fuel (j + 1) rows else rows

/-- A sequence takes part with a cache and a pending token. -/
def chainRow (s : Drafted κ σ) (id : RequestId) : Option ChainRow :=
  match s.seqs.lookup id, s.caches id with
  | some seq, some cache => seq.nextToken.map fun tok =>
    { id, base := seq.position, tok, active := true, draft := [], cache }
  | _, _ => none

/-- The rows of the sequences that decode. -/
def chainRows (decodes : List RequestId) (s : Drafted κ σ) : List ChainRow :=
  decodes.filterMap (chainRow s)

/-- The chain drafts one token a round. -/
def mtpDraftChain (cfg : RuntimeConfig) (o : DraftOracle) (decodes : List RequestId)
    (s : Drafted κ σ) : List ChainRow :=
  mtpRounds o cfg.drafts 0 (chainRows decodes s)

/-- One query block: the pending token and a mask for each draft. -/
def ChainRow.block (cfg : RuntimeConfig) (o : DraftOracle) (r : ChainRow) : ChainRow :=
  { r with
    draft := (o.block r.id).take cfg.drafts
    cache := r.cache.write r.base (List.replicate (cfg.drafts + 1) .query) }

/-- The block drafts all tokens at once. -/
def dflashDraft (cfg : RuntimeConfig) (o : DraftOracle) (decodes : List RequestId)
    (s : Drafted κ σ) : List ChainRow :=
  (chainRows decodes s).map (·.block cfg o)

/-- What a drafter drafts. -/
def Drafter.draft (kind : Drafter) (cfg : RuntimeConfig) (o : DraftOracle)
    (decodes : List RequestId) (s : Drafted κ σ) : List ChainRow :=
  match kind with
  | .mtp => mtpDraftChain cfg o decodes s
  | .dflash => dflashDraft cfg o decodes s

/-- What was drafted for a request. -/
def proposalOf (rows : List ChainRow) (id : RequestId) : List Token :=
  ((rows.find? (·.id = id)).map (·.draft)).getD []

/-- The caches as drafting leaves them. -/
def cachesAfter (rows : List ChainRow) (caches : RequestId → Option DraftCache) :
    RequestId → Option DraftCache :=
  fun id => match rows.find? (·.id = id) with
    | some r => some r.cache
    | none => caches id

/-! ### Context -/

/-- The context of the positions a verify pass has committed: the tokens of the
window, from the position before the pass. -/
def injectContext (cfg : RuntimeConfig) (proposal : List Token)
    (before after : RuntimeSequence κ σ) (cache : DraftCache) : DraftCache :=
  match before.nextToken with
  | none => cache
  | some last =>
    cache.write before.position (contextRows
      (((verifyIds cfg.window last (before.withDraft cfg proposal).draft).take
        (after.position - before.position)).map Input.token))

/-- The caches once the scheduled sequences have committed. -/
def committedContext (cfg : RuntimeConfig) (proposals : RequestId → List Token)
    (decodes : List RequestId) (before after : Sequences κ σ)
    (caches : RequestId → Option DraftCache) : RequestId → Option DraftCache :=
  fun id =>
    if id ∈ decodes then
      match before.lookup id, after.lookup id with
      | some seq, some seq' => (caches id).map (injectContext cfg (proposals id) seq seq')
      | _, _ => caches id
    else caches id

/-- Catch a cache up over granted work, piece by piece. -/
def catchUp (cfg : RuntimeConfig) : ℕ → ℕ → List Token → DraftCache → DraftCache
  | 0, _, _, cache => cache
  | fuel + 1, position, work, cache =>
    if work = [] then cache
    else
      let width := choosePrefillWidth cfg position work.length
      catchUp cfg fuel (position + width) (work.drop width)
        (cache.write position (contextRows ((work.take width).map Input.token)))

/-! ### The steps -/

/-- The draft, the decode half of the step, and what it commits to the caches.
A sequence with a cache is drafting, so that a step that has one verifies. -/
def decodesDrafted (kind : Drafter) (M : Target Row κ σ) (cfg : RuntimeConfig) (o : DraftOracle)
    (arena : RequestId → ℕ → Bool) (decodes : List RequestId) (s : Drafted κ σ) :
    Except RuntimeError (Drafted κ σ × StepLog) :=
  let rows := kind.draft cfg o decodes s
  match executeDecodes M cfg ⟨proposalOf rows, arena⟩ decodes s.seqs with
  | .error e => .error e
  | .ok (seqs, log) =>
    let caches := cachesAfter rows s.caches
    .ok (⟨seqs, match kind with
      | .mtp => caches
      | .dflash =>
        if cfg.verifyBuilt decodes.length then
          committedContext cfg (proposalOf rows) decodes s.seqs seqs caches
        else caches⟩, log)

/-- One grant, with the catch-up that rides on its pieces. -/
def prefillDrafted (M : Target Row κ σ) (cfg : RuntimeConfig) (io : StepOracle) (item : PrefillItem)
    (s : Drafted κ σ) : Except RuntimeError (Drafted κ σ × StepLog) :=
  match executePrefill M cfg io item.id item.tokens s.seqs with
  | .error e => .error e
  | .ok (seqs, log) =>
    .ok (⟨seqs, fun id =>
      if id = item.id then
        match s.seqs.lookup id with
        | some seq =>
          let work := (seq.prompt.drop seq.prefilled).take item.tokens
          (s.caches id).map (catchUp cfg work.length seq.position work)
        | none => s.caches id
      else s.caches id⟩, log)

/-- The prefills of a step, in order. -/
def prefillsDrafted (M : Target Row κ σ) (cfg : RuntimeConfig) (io : StepOracle) :
    List PrefillItem → Drafted κ σ → Except RuntimeError (Drafted κ σ × StepLog)
  | [], s => .ok (s, StepLog.empty)
  | item :: items, s =>
    match prefillDrafted M cfg io item s with
    | .error e => .error e
    | .ok (s, log) =>
      match prefillsDrafted M cfg io items s with
      | .error e => .error e
      | .ok (s, log') => .ok (s, log ++ log')

/-- One step with its drafts: decode, then prefill. -/
def executeDrafted (kind : Drafter) (M : Target Row κ σ) (cfg : RuntimeConfig) (o : DraftOracle)
    (arena : RequestId → ℕ → Bool) (scheduled : BatchDescription) (s : Drafted κ σ) :
    Except RuntimeError (Drafted κ σ × RuntimeStep) :=
  let decodes := scheduled.decodes.map (·.id)
  match decodesDrafted kind M cfg o arena decodes s with
  | .error e => .error e
  | .ok (s', decoded) =>
    match prefillsDrafted M cfg ⟨proposalOf (kind.draft cfg o decodes s), arena⟩
        scheduled.prefills s' with
    | .error e => .error e
    | .ok (s', prefilled) =>
      let completed := finishedIds s'.seqs
      .ok (⟨completed.foldl (fun seqs id => seqs.erase id) s'.seqs,
          fun id => if id ∈ completed then none else s'.caches id⟩,
        { log := decoded ++ prefilled, completed })

/-- The cache a request is admitted with: none if it has images or resumes. -/
def admittedCache (cfg : RuntimeConfig) (p : PendingSequence κ σ) : Option DraftCache :=
  if cfg.draftHead && p.images.isEmpty && p.snapshot.isNone then some SlotCache.empty else none

/-- What happens to a runtime that drafts. -/
inductive DraftEvent (κ σ : Type) where
  | accept (p : PendingSequence κ σ)
  | step (o : DraftOracle) (arena : RequestId → ℕ → Bool) (scheduled : BatchDescription)
  | remove (id : RequestId)

/-- What an event does to the sequences and their draft caches. -/
def Drafted.step (kind : Drafter) (M : Target Row κ σ) (cfg : RuntimeConfig) (s : Drafted κ σ) :
    DraftEvent κ σ → Except RuntimeError (Drafted κ σ)
  | .accept p =>
    (admitPending cfg p s.seqs).map fun seqs => ⟨seqs, fun id =>
      if id = p.request.id then admittedCache cfg p else s.caches id⟩
  | .step o arena scheduled => (executeDrafted kind M cfg o arena scheduled s).map Prod.fst
  | .remove id => .ok ⟨s.seqs.erase id, fun id' => if id' = id then none else s.caches id'⟩

/-- A runtime with nothing resident. -/
def Drafted.start : Drafted κ σ := ⟨∅, fun _ => none⟩

/-! ### The session of a single sequence -/

/-- The target's state, the pending token, and the draft head's cache with its
own position. -/
structure SpeculativeSession where
  history : List Input
  idLast : Token
  draftPos : ℕ
  cache : DraftCache

namespace SpeculativeSession

/-- Prefill the prompt and catch the draft head up over it; an empty prompt is
refused. -/
def new (M : Target Row κ σ) (prompt : List Token) : Option SpeculativeSession :=
  if prompt = [] then none
  else
    let history := prompt.map Input.token
    some {
      history
      idLast := M.argmaxDevice (M.logits history)
      draftPos := prompt.length
      cache := SlotCache.empty.write 0 (contextRows history) }

/-- Drafts from the `i`-th on, fed one after another. -/
def draftFrom (sampled : ℕ → Token) (draftPos : ℕ) :
    ℕ → ℕ → Token → DraftCache → List Token × DraftCache
  | 0, _, _, cache => ([], cache)
  | fuel + 1, i, tok, cache =>
    let rest := draftFrom sampled draftPos fuel (i + 1) (sampled i)
      (cache.write (draftPos + i) [.context (.token tok)])
    (sampled i :: rest.1, rest.2)

/-- Draft `d` tokens. -/
def draft (d : ℕ) (sampled : ℕ → Token) (s : SpeculativeSession) :
    List Token × SpeculativeSession :=
  let drafted := draftFrom sampled s.draftPos d 0 s.idLast s.cache
  (drafted.1, { s with cache := drafted.2, draftPos := s.draftPos + d })

/-- One draft-verify-accept-commit round. -/
def step (M : Target Row κ σ) (d : ℕ) (sampled : ℕ → Token) (s : SpeculativeSession) :
    SpeculativeSession :=
  let drafts := (s.draft d sampled).1
  let s := (s.draft d sampled).2
  let window := s.idLast :: drafts
  let predicted := fun i =>
    M.logits (s.history ++ (window.take (i + 1)).map Input.token)
  let emitted := deviceAccept M predicted 0 drafts
  let accepted := emitted.length - 1
  { s with
    history := s.history ++ (window.take (accepted + 1)).map Input.token
    idLast := emitted.getLast?.getD s.idLast
    draftPos := s.draftPos - d + accepted + 1 }

end SpeculativeSession

/-! ### The caches never touch the sequences -/

section Execute

variable {kind : Drafter} {M : Target Row κ σ} {cfg : RuntimeConfig} {o : DraftOracle}
  {arena : RequestId → ℕ → Bool} {io : StepOracle}

theorem decodesDrafted_execute {decodes : List RequestId} {s s' : Drafted κ σ} {log : StepLog}
    (h : decodesDrafted kind M cfg o arena decodes s = .ok (s', log)) :
    executeDecodes M cfg ⟨proposalOf (kind.draft cfg o decodes s), arena⟩ decodes s.seqs
      = .ok (s'.seqs, log) := by
  rw [decodesDrafted] at h
  simp only at h
  split at h
  · cases h
  · rename_i seqs log' hexec
    simp only [Except.ok.injEq, Prod.mk.injEq] at h
    obtain ⟨rfl, rfl⟩ := h
    exact hexec

theorem prefillDrafted_execute {item : PrefillItem} {s s' : Drafted κ σ} {log : StepLog}
    (h : prefillDrafted M cfg io item s = .ok (s', log)) :
    executePrefill M cfg io item.id item.tokens s.seqs = .ok (s'.seqs, log) := by
  rw [prefillDrafted] at h
  split at h
  · cases h
  · rename_i seqs log' hexec
    simp only [Except.ok.injEq, Prod.mk.injEq] at h
    obtain ⟨rfl, rfl⟩ := h
    exact hexec

theorem prefillsDrafted_execute :
    ∀ {items : List PrefillItem} {s s' : Drafted κ σ} {log : StepLog},
      prefillsDrafted M cfg io items s = .ok (s', log) →
      executePrefills M cfg io items s.seqs = .ok (s'.seqs, log) := by
  intro items
  induction items with
  | nil =>
    intro s s' log h
    simp only [prefillsDrafted, Except.ok.injEq, Prod.mk.injEq] at h
    obtain ⟨rfl, rfl⟩ := h
    rfl
  | cons item items ih =>
    intro s s' log h
    rw [prefillsDrafted] at h
    rcases hone : prefillDrafted M cfg io item s with e | ⟨s₁, log₁⟩
    · rw [hone] at h
      cases h
    · rw [hone] at h
      simp only at h
      rcases hrest : prefillsDrafted M cfg io items s₁ with e | ⟨s₂, log₂⟩
      · rw [hrest] at h
        cases h
      · rw [hrest] at h
        simp only [Except.ok.injEq, Prod.mk.injEq] at h
        obtain ⟨rfl, rfl⟩ := h
        rw [executePrefills, prefillDrafted_execute hone]
        simp only [ih hrest]

/-- A step with its caches is the device step with what was drafted. -/
theorem executeDrafted_execute {scheduled : BatchDescription} {s s' : Drafted κ σ}
    {done : RuntimeStep}
    (h : executeDrafted kind M cfg o arena scheduled s = .ok (s', done)) :
    execute M cfg ⟨proposalOf (kind.draft cfg o (scheduled.decodes.map (·.id)) s), arena⟩
      scheduled s.seqs = .ok (s'.seqs, done) := by
  rw [executeDrafted] at h
  simp only at h
  rcases hdecodes : decodesDrafted kind M cfg o arena (scheduled.decodes.map (·.id)) s
    with e | ⟨s₁, log₁⟩
  · rw [hdecodes] at h
    cases h
  · rw [hdecodes] at h
    simp only at h
    split at h
    · cases h
    · rename_i s₂ log₂ hprefills
      simp only [Except.ok.injEq, Prod.mk.injEq] at h
      obtain ⟨rfl, rfl⟩ := h
      rw [execute, decodesDrafted_execute hdecodes]
      simp only [prefillsDrafted_execute hprefills]

end Execute
