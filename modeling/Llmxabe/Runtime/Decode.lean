/-
The decode half of a device step (`DeviceRuntime::execute_decodes` and
`verify_decode_step` of `xabe-engine/src/runtime.rs`).

Every scheduled sequence has a draft, truncated so that the step neither
outgrows the output budget nor crosses a retention boundary.  With a verify
pass the whole window is fed at once and `verifySequence` keeps the accepted
prefix; without one, `decodeRounds` feeds one token a round to the sequences
whose last token agreed with their draft.

A pass appends the inputs it is fed to the sequence's history and reads the
rows the target has for it.  Only what decides the tokens is modelled: the
draft heads, their caches and the accept feedback are in the proposals.
-/
import Mathlib.Data.List.AList
import Llmxabe.Runtime.Sequence

variable {Row κ σ : Type}

/-- The resident sequences. -/
abbrev Sequences (κ σ : Type) := AList fun _ : RequestId => RuntimeSequence κ σ

/-- Sequences moved out of the map for a pass. -/
abbrev Owned (κ σ : Type) := List (RequestId × RuntimeSequence κ σ)

/-- Move the scheduled sequences out of the map. -/
def takeSequences : List RequestId → Sequences κ σ → Except RuntimeError (Owned κ σ × Sequences κ σ)
  | [], seqs => .ok ([], seqs)
  | id :: ids, seqs =>
    match seqs.lookup id with
    | none => .error (.unknownRequest id)
    | some seq =>
      match takeSequences ids (seqs.erase id) with
      | .error e => .error e
      | .ok (owned, rest) => .ok ((id, seq) :: owned, rest)

/-- Move them back. -/
def putSequences (owned : Owned κ σ) (seqs : Sequences κ σ) : Sequences κ σ :=
  owned.foldl (fun seqs q => seqs.insert q.1 q.2) seqs

namespace RuntimeSequence

/-- The draft a step runs with: what was proposed, within the output budget
after one plain token, short of the next retention boundary, and dropped if
fewer than `draftNMin` tokens are left. -/
def withDraft (cfg : RuntimeConfig) (proposal : List Token) (seq : RuntimeSequence κ σ) :
    RuntimeSequence κ σ :=
  let draft := proposal.take (seq.maxOutput - (seq.emitted + 1))
  -- a verify step must not jump over a boundary
  let draft := if 0 < cfg.retentionInterval ∧ seq.retentionDisabled = false then
      draft.take (cfg.retentionInterval - seq.position % cfg.retentionInterval - 1)
    else draft
  { seq with draft := if draft.length < cfg.draftNMin then [] else draft }

/-- The token a snapshot records: a sampled token is the sequence's own draw. -/
def recorded (seq : RuntimeSequence κ σ) (output : Token) : Option Token :=
  if seq.choice.sampler.isNone then some output else none

end RuntimeSequence

/-- A pass over sequences moved out, one after another. -/
def eachSequence {α : Type} (step : RequestId → α → Except RuntimeError (α × StepLog)) :
    List (RequestId × α) → Except RuntimeError (List (RequestId × α) × StepLog)
  | [] => .ok ([], StepLog.empty)
  | (id, seq) :: owned =>
    match step id seq with
    | .error e => .error e
    | .ok (seq, log) =>
      match eachSequence step owned with
      | .error e => .error e
      | .ok (owned, log') => .ok ((id, seq) :: owned, log ++ log')

/-! ### The round-gated path -/

/-- A sequence moved out for the rounds, and whether it is still active. -/
abbrev Rounded (κ σ : Type) := RuntimeSequence κ σ × Bool

/-- One token of one sequence, which stays active if the token is its draft's. -/
def decodeToken (M : Target Row κ σ) (cfg : RuntimeConfig) (io : StepOracle) (round : ℕ)
    (id : RequestId) (seq : RuntimeSequence κ σ) :
    Except RuntimeError (Rounded κ σ × StepLog) :=
  match seq.nextToken with
  | none => .error (.unknownRequest id)
  | some input =>
    let history := seq.history ++ [.token input]
    let decided := seq.choice.decideRow M (M.logits history)
    let output := decided.1
    let fed := { seq with history, choice := decided.2 }
    let kept := fed.retain cfg (io.arena id fed.position) (fed.recorded output)
    let log : StepLog := {
      generated := [], retained := kept.2.map (id, ·), stopped := []
      writes := [(id, seq.position, 1)] }
    -- the end of the turn is not reported, and ends the sequence
    if cfg.eosToken = some output then
      .ok (({ kept.1 with nextToken := some output, emitted := kept.1.maxOutput }, false),
        { log with stopped := [id] })
    else
      .ok (({ kept.1 with nextToken := some output, emitted := kept.1.emitted + 1 },
          decide (kept.1.emitted + 1 < kept.1.maxOutput) && kept.1.draft[round]? == some output),
        { log with generated := [(id, output)] })

/-- One sequence's part of a round. -/
def decodeActive (M : Target Row κ σ) (cfg : RuntimeConfig) (io : StepOracle) (round : ℕ)
    (id : RequestId) (seq : Rounded κ σ) : Except RuntimeError (Rounded κ σ × StepLog) :=
  if seq.2 then decodeToken M cfg io round id seq.1 else .ok (seq, StepLog.empty)

/-- Rounds until nobody is active.  Each active sequence has matched one more
token of its draft, so one round more than the longest draft is enough fuel. -/
def decodeRounds (M : Target Row κ σ) (cfg : RuntimeConfig) (io : StepOracle) :
    ℕ → ℕ → List (RequestId × Rounded κ σ) →
      Except RuntimeError (List (RequestId × Rounded κ σ) × StepLog)
  | 0, _, owned => .ok (owned, StepLog.empty)
  | fuel + 1, round, owned =>
    if owned.any (·.2.2) then
      match eachSequence (decodeActive M cfg io round) owned with
      | .error e => .error e
      | .ok (owned, log) =>
        match decodeRounds M cfg io fuel (round + 1) owned with
        | .error e => .error e
        | .ok (owned, log') => .ok (owned, log ++ log')
    else .ok (owned, StepLog.empty)

/-! ### The verify path -/

/-- The window a verify pass is fed: the pending token, the draft, and the
pending token again as padding. -/
def verifyIds (window : ℕ) (last : Token) (draft : List Token) : List Token :=
  last :: (List.range (window - 1)).map fun j => draft[j]?.getD last

/-- Acceptance on the host: the sequence's own choice row by row, until it
leaves the draft or its constraint arms. -/
def hostAccept (M : Target Row κ σ) (row : ℕ → Row) :
    ℕ → List Token → Choice κ σ → List Token × Choice κ σ
  | j, draft, c =>
    let token := (c.choose M (row j)).1
    let c' := (c.choose M (row j)).2.observe M token
    match draft with
    | [] => ([token], c')
    | drafted :: draft =>
      -- a constraint that arms here leaves the rest to the next step
      if token ≠ drafted ∨ (c.isMasking M = false ∧ c'.isMasking M = true) then ([token], c')
      else
        let accepted := hostAccept M row (j + 1) draft c'
        (token :: accepted.1, accepted.2)

/-- Acceptance on the device: the rows' argmax, by equality. -/
def deviceAccept (M : Target Row κ σ) (row : ℕ → Row) : ℕ → List Token → List Token
  | j, [] => [M.argmaxDevice (row j)]
  | j, drafted :: draft =>
    if M.argmaxDevice (row j) = drafted then drafted :: deviceAccept M row (j + 1) draft
    else [M.argmaxDevice (row j)]

/-- Cut a step's tokens after the first end-of-turn, and say whether one was there. -/
def truncateAtEos (eos : Option Token) (emit : List Token) : List Token × Bool :=
  match eos with
  | none => (emit, false)
  | some eos =>
    match emit.findIdx? (· = eos) with
    | some at_ => (emit.take (at_ + 1), true)
    | none => (emit, false)

/-- One sequence's share of a verify step. -/
def verifySequence (M : Target Row κ σ) (cfg : RuntimeConfig) (io : StepOracle) (id : RequestId)
    (seq : RuntimeSequence κ σ) : Except RuntimeError (RuntimeSequence κ σ × StepLog) :=
  match seq.nextToken with
  | none => .error (.unknownRequest id)
  | some last =>
    let ids := verifyIds cfg.window last seq.draft
    -- row `j` has consumed the window up to its `j`th id
    let row := fun j => M.logits (seq.history ++ (ids.take (j + 1)).map Input.token)
    let accepted :=
      if seq.choice.choosesOnTheHost then hostAccept M row 0 seq.draft seq.choice
      else (deviceAccept M row 0 seq.draft, seq.choice)
    let truncated := truncateAtEos cfg.eosToken accepted.1
    let emit := truncated.1
    let hitEos := truncated.2
    -- the inputs of the rows that are kept
    let committed := { seq with
      history := seq.history ++ (ids.take emit.length).map Input.token
      choice := accepted.2
      nextToken := emit.getLast? }
    let kept := committed.retain cfg (io.arena id committed.position)
      (if committed.choice.sampler.isNone then emit.getLast? else none)
    -- an end of turn is not reported
    let real := if hitEos then emit.dropLast else emit
    .ok ({ kept.1 with
        emitted := if hitEos then kept.1.maxOutput else kept.1.emitted + real.length },
      { generated := real.map (id, ·), retained := kept.2.map (id, ·)
        stopped := if hitEos then [id] else []
        writes := [(id, seq.position, cfg.window)] })

/-- One verify pass over all its sequences. -/
def verifyDecodeStep (M : Target Row κ σ) (cfg : RuntimeConfig) (io : StepOracle)
    (owned : Owned κ σ) : Except RuntimeError (Owned κ σ × StepLog) :=
  eachSequence (verifySequence M cfg io) owned

/-! ### The decode half of a step -/

/-- Whether a step verifies its drafts in one pass. -/
def verifies (cfg : RuntimeConfig) (owned : Owned κ σ) : Bool :=
  cfg.verifyBuilt owned.length && owned.any fun q => q.2.draft ≠ [] || q.2.drafting

/-- Length of the longest draft. -/
def longestDraft (owned : Owned κ σ) : ℕ := (owned.map (·.2.draft.length)).foldr max 0

/-- The decodes of a step: a verify pass where one was built, else one token each. -/
def executeDecodes (M : Target Row κ σ) (cfg : RuntimeConfig) (io : StepOracle)
    (decodes : List RequestId) (seqs : Sequences κ σ) :
    Except RuntimeError (Sequences κ σ × StepLog) :=
  if decodes = [] then .ok (seqs, StepLog.empty)
  else if cfg.maxBatch < decodes.length then .error (.batchTooWide decodes.length cfg.maxBatch)
  else
    match takeSequences decodes seqs with
    | .error e => .error e
    | .ok (owned, rest) =>
      let owned := owned.map fun q => (q.1, q.2.withDraft cfg (io.proposals q.1))
      if verifies cfg owned then
        match verifyDecodeStep M cfg io owned with
        | .error e => .error e
        | .ok (owned, log) => .ok (putSequences owned rest, log)
      else
        match decodeRounds M cfg io (longestDraft owned + 1) 0
            (owned.map fun q => (q.1, q.2, true)) with
        | .error e => .error e
        | .ok (owned, log) =>
          .ok (putSequences (owned.map fun q => (q.1, q.2.1)) rest, log)
