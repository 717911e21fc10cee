/-
Admission, prefill and the whole device step (`DeviceRuntime` of
`xabe-engine/src/runtime.rs`).

`executePrefill` feeds a grant in pieces whose widths are those of prebuilt
passes.  A piece never crosses a retention boundary, and at one a snapshot is
filed with the prediction made there.  The piece that reaches the end of the
prompt yields the first output token.

Left out: the vision tower, the allocations on the device and the caches of
the draft heads.
-/
import Llmxabe.Runtime.Decode

variable {Row κ σ : Type}

/-- What a caller asks of the runtime for one request. -/
structure PendingSequence (κ σ : Type) where
  request : NewRequest
  prompt : List Token
  images : List SequenceImage
  snapshot : Option Snapshot
  sampler : Option σ
  constraint : Option κ

/-- The first token outside the vocabulary. -/
def outOfVocab (vocab : ℕ) (prompt : List Token) : Option Token :=
  prompt.find? fun token => decide (token < 0 ∨ (vocab : ℤ) ≤ token)

/-- Admit a request with nothing computed. -/
def admitSequence (cfg : RuntimeConfig) (p : PendingSequence κ σ) (seqs : Sequences κ σ) :
    Except RuntimeError (Sequences κ σ) :=
  if (seqs.lookup p.request.id).isSome then .error (.duplicateRequest p.request.id)
  else if p.prompt.length ≠ p.request.promptTokens then
    .error (.promptLength p.request.promptTokens p.prompt.length)
  else
    match outOfVocab cfg.vocab p.prompt with
    | some token => .error (.tokenOutOfRange token cfg.vocab)
    | none =>
      match validatePlacements p.prompt.length 0 0 (p.images.map (·.placement)) with
      | .error reason => .error (.imagePlacement reason)
      | .ok () => .ok (seqs.insert p.request.id {
          history := []
          -- the last window of a verify pass is written in full
          capacity := p.request.fullSeqLen + (cfg.window - 1)
          prompt := p.prompt
          prefilled := 0
          nextToken := none
          drafting := cfg.draftHead && p.images.isEmpty
          draft := []
          emitted := 0
          maxOutput := p.request.maxOutputTokens
          lastSnapshotPosition := 0
          lastSnapshot := none
          retentionDisabled := false
          choice := ⟨p.sampler, p.constraint⟩
          images := p.images })

/-- What restoring a snapshot makes of a sequence just admitted. -/
def RuntimeSequence.restore (snapshot : Snapshot) (seq : RuntimeSequence κ σ) :
    RuntimeSequence κ σ :=
  { seq with
    history := snapshot.history
    prefilled := snapshot.position
    lastSnapshotPosition := snapshot.position
    lastSnapshot := some snapshot
    retentionDisabled := false
    drafting := false
    nextToken := if snapshot.position = seq.prompt.length then snapshot.nextToken
      else seq.nextToken }

/-- Admit a request, with a prefix restored if it brings a snapshot. -/
def admitPending (cfg : RuntimeConfig) (p : PendingSequence κ σ) (seqs : Sequences κ σ) :
    Except RuntimeError (Sequences κ σ) :=
  match p.snapshot with
  | none => admitSequence cfg p seqs
  | some snapshot =>
    if p.prompt.length < snapshot.position then
      .error (.snapshotPrefix snapshot.position p.prompt.length)
    else
      match admitSequence cfg p seqs with
      | .error e => .error e
      | .ok seqs =>
        .ok (match seqs.lookup p.request.id with
          | some seq => seqs.insert p.request.id (seq.restore snapshot)
          | none => seqs)

/-- Capture a resident request at its computed position. -/
def takeSnapshot (id : RequestId) (seqs : Sequences κ σ) : Except RuntimeError Snapshot :=
  match seqs.lookup id with
  | none => .error (.unknownRequest id)
  | some seq => .ok (seq.capture (if seq.choice.sampler.isNone then seq.nextToken else none))

/-! ### Prefill -/

/-- Positions to the next retention boundary. -/
def RuntimeConfig.toBoundary (cfg : RuntimeConfig) (position : ℕ) : ℕ :=
  if cfg.retentionInterval = 0 then 2 ^ 64 - 1
  else cfg.retentionInterval - position % cfg.retentionInterval

/-- Width of the next prefill piece. -/
def choosePrefillWidth (cfg : RuntimeConfig) (position remaining : ℕ) : ℕ :=
  if cfg.prefillChunk ≤ remaining ∧ cfg.prefillChunk ≤ cfg.toBoundary position then
    cfg.prefillChunk
  else if 0 < cfg.retentionInterval ∧ cfg.retentionInterval ≤ remaining ∧
      position % cfg.retentionInterval = 0 then cfg.retentionInterval
  else
    match cfg.tailWidths.reverse.find? fun width =>
      width ≤ remaining ∧ width ≤ cfg.toBoundary position with
    | some width => width
    | none => max (min (min remaining (cfg.toBoundary position)) cfg.maxBatch) 1

/-- Draw from the logits of a prefill pass: with the sampler if there is one,
by argmax on the device otherwise.  No constraint is asked. -/
def Choice.drawPrefill (M : Target Row κ σ) (c : Choice κ σ) (row : Row) : Token × Choice κ σ :=
  match c.sampler with
  | some s => ((M.sample s row).1, { c with sampler := some (M.sample s row).2 })
  | none => (M.argmaxDevice row, c)

/-- One prefill piece, with its snapshot if it ends at a boundary.  Inside the
prompt the recorded token is a prediction; at its end a sampler draws it, and
it is not recorded. -/
def prefillPiece (M : Target Row κ σ) (cfg : RuntimeConfig) (granted : Bool) (piece : List Token)
    (seq : RuntimeSequence κ σ) : RuntimeSequence κ σ × List Snapshot :=
  let fed := { seq with history := seq.history ++ inputsFrom seq.images seq.position piece }
  if fed.atBoundary cfg then
    if fed.position = fed.prompt.length ∧ fed.choice.sampler.isSome then
      let drawn := fed.choice.drawPrefill M (M.logits fed.history)
      ({ fed with choice := drawn.2, nextToken := some drawn.1 }).retain cfg granted none
    else
      let next := M.argmaxDevice (M.logits fed.history)
      ({ fed with nextToken := some next }).retain cfg granted (some next)
  else (fed, [])

/-- Piece by piece through the granted work. -/
def prefillPieces (M : Target Row κ σ) (cfg : RuntimeConfig) (io : StepOracle) (id : RequestId) :
    ℕ → List Token → RuntimeSequence κ σ → RuntimeSequence κ σ × StepLog
  | 0, _, seq => (seq, StepLog.empty)
  | fuel + 1, work, seq =>
    if work = [] then (seq, StepLog.empty)
    else
      let width := choosePrefillWidth cfg seq.position work.length
      let done := prefillPiece M cfg (io.arena id (seq.position + width)) (work.take width) seq
      let rest := prefillPieces M cfg io id fuel (work.drop width) done.1
      (rest.1, { generated := [], retained := done.2.map (id, ·), stopped := []
                 writes := [(id, seq.position, width)] } ++ rest.2)

/-- The first output token, once the prompt is complete: the one a boundary or
a snapshot recorded, or drawn from the last piece. -/
def firstToken (M : Target Row κ σ) (work : List Token) (seq : RuntimeSequence κ σ) :
    Except RuntimeError (Token × Choice κ σ) :=
  if work = [] ∨ seq.position = seq.lastSnapshotPosition then
    match seq.nextToken with
    | none => .error (.snapshotPrefix seq.prefilled seq.prompt.length)
    | some next => .ok (next, seq.choice)
  else .ok (seq.choice.drawPrefill M (M.logits seq.history))

/-- One sequence's prefill of its granted work. -/
def prefillSequence (M : Target Row κ σ) (cfg : RuntimeConfig) (io : StepOracle) (id : RequestId)
    (tokens : ℕ) (seq : RuntimeSequence κ σ) :
    Except RuntimeError (RuntimeSequence κ σ × StepLog) :=
  let stop := seq.prefilled + tokens
  if seq.prompt.length < stop then .error (.grantPastPrompt stop seq.prompt.length)
  else
    let work := (seq.prompt.drop seq.prefilled).take tokens
    let pieces := prefillPieces M cfg io id work.length work seq
    let seq := { pieces.1 with prefilled := stop }
    if seq.prefilled = seq.prompt.length ∧ 0 < seq.maxOutput then
      match firstToken M work seq with
      | .error e => .error e
      | .ok (next, choice) =>
        let seq := { seq with nextToken := some next, choice := choice.observe M next }
        if cfg.eosToken = some next then
          .ok ({ seq with emitted := seq.maxOutput },
            pieces.2 ++ { generated := [], retained := [], stopped := [id], writes := [] })
        else
          .ok ({ seq with emitted := seq.emitted + 1 },
            pieces.2 ++ { generated := [(id, next)], retained := [], stopped := [], writes := [] })
    else .ok (seq, pieces.2)

/-- One prefill item; an id that is not resident is an error. -/
def executePrefill (M : Target Row κ σ) (cfg : RuntimeConfig) (io : StepOracle) (id : RequestId)
    (tokens : ℕ) (seqs : Sequences κ σ) : Except RuntimeError (Sequences κ σ × StepLog) :=
  match seqs.lookup id with
  | none => .error (.unknownRequest id)
  | some seq =>
    match prefillSequence M cfg io id tokens seq with
    | .error e => .error e
    | .ok (seq, log) => .ok (seqs.insert id seq, log)

/-- The items in order, up to the first error. -/
def executePrefills (M : Target Row κ σ) (cfg : RuntimeConfig) (io : StepOracle) :
    List PrefillItem → Sequences κ σ → Except RuntimeError (Sequences κ σ × StepLog)
  | [], seqs => .ok (seqs, StepLog.empty)
  | item :: items, seqs =>
    match executePrefill M cfg io item.id item.tokens seqs with
    | .error e => .error e
    | .ok (seqs, log) =>
      match executePrefills M cfg io items seqs with
      | .error e => .error e
      | .ok (seqs, log') => .ok (seqs, log ++ log')

/-! ### The whole step -/

/-- The requests that have emitted all they may. -/
def finishedIds (seqs : Sequences κ σ) : List RequestId :=
  (seqs.entries.filter fun q => decide q.2.finished).map (·.1)

/-- What a device step reports, with the log behind it. -/
structure RuntimeStep where
  log : StepLog
  completed : List RequestId
  deriving DecidableEq, Repr

/-- One step: decodes, then prefills. -/
def execute (M : Target Row κ σ) (cfg : RuntimeConfig) (io : StepOracle)
    (scheduled : BatchDescription) (seqs : Sequences κ σ) :
    Except RuntimeError (Sequences κ σ × RuntimeStep) :=
  match executeDecodes M cfg io (scheduled.decodes.map (·.id)) seqs with
  | .error e => .error e
  | .ok (seqs, decoded) =>
    match executePrefills M cfg io scheduled.prefills seqs with
    | .error e => .error e
    | .ok (seqs, prefilled) =>
      let completed := finishedIds seqs
      .ok (completed.foldl (fun seqs id => seqs.erase id) seqs,
        { log := decoded ++ prefilled, completed })
