/-
What the device runtime keeps for one request (`xabe-engine/src/runtime.rs`).

The model itself is a parameter: a `Target` maps the inputs a sequence has
consumed to a row of logits.  A `SequenceState` is then the list of those
inputs, and its position is their number.  A constraint and a sampler are
parameters too, through what the runtime asks of them.

`Choice` is how a sequence picks its tokens: on the device by argmax, or on
the host after the constraint has masked the row, by argmax or by a sampler.
-/
import Llmxabe.Sched.Request

/-- A vocabulary id, the source's `i32`. -/
abbrev Token := ℤ

/-- What a sequence consumes at one position: a token, or the row of an image
that stands in for it. -/
inductive Input where
  | token (t : Token)
  | patch (pixels offset : ℕ)
  deriving DecidableEq, Repr

/-- One image's placement inside a prompt. -/
structure ImagePlacement where
  start : ℕ
  gridH : ℕ
  gridW : ℕ
  contentHash : ℕ
  deriving DecidableEq, Repr

namespace ImagePlacement

/-- Language-model tokens the image occupies. -/
def tokens (img : ImagePlacement) : ℕ := img.gridH * img.gridW

/-- One past the last token index. -/
def finish (img : ImagePlacement) : ℕ := img.start + img.tokens

/-- The span holds this position. -/
def covers (img : ImagePlacement) (index : ℕ) : Bool :=
  decide (img.start ≤ index ∧ index < img.finish)

end ImagePlacement

/-- Placements are sorted, disjoint and inside the prompt; if not, the first
violation. -/
def validatePlacements (promptLen : ℕ) : ℕ → ℕ → List ImagePlacement → Except String Unit
  | _, _, [] => .ok ()
  | i, previousEnd, p :: placements =>
    if p.gridH = 0 ∨ p.gridW = 0 then .error s!"image {i} has an empty grid"
    else if p.start < previousEnd then .error s!"image {i} overlaps its predecessor"
    else if promptLen < p.finish then
      .error s!"image {i} spans tokens {p.start}..{p.finish} of a {promptLen}-token prompt"
    else validatePlacements promptLen (i + 1) p.finish placements

/-- A placement with the preprocessed image behind it. -/
structure SequenceImage where
  placement : ImagePlacement
  pixels : ℕ
  deriving DecidableEq, Repr

/-- The input at a position, given the token id the prompt has there. -/
def inputAt (images : List SequenceImage) (index : ℕ) (token : Token) : Input :=
  match images.find? (·.placement.covers index) with
  | some img => .patch img.pixels (index - img.placement.start)
  | none => .token token

/-- The inputs of a stretch of tokens that starts at a position. -/
def inputsFrom (images : List SequenceImage) : ℕ → List Token → List Input
  | _, [] => []
  | index, token :: tokens => inputAt images index token :: inputsFrom images (index + 1) tokens

/-- The model, and what the runtime asks of a sampler and of a constraint. -/
structure Target (Row κ σ : Type) where
  logits : List Input → Row
  argmaxDevice : Row → Token
  argmax : Row → Token
  sample : σ → Row → Token × σ
  mask : κ → Row → Row
  observe : κ → Token → κ
  isMasking : κ → Bool

/-- How a sequence picks its tokens. -/
structure Choice (κ σ : Type) where
  sampler : Option σ
  constraint : Option κ
  deriving DecidableEq, Repr

variable {Row κ σ : Type}

namespace Choice

/-- The next token has to be picked on the host. -/
def choosesOnTheHost (c : Choice κ σ) : Bool := c.sampler.isSome || c.constraint.isSome

/-- Pick one token from a row on the host, with the constraint applied first. -/
def choose (M : Target Row κ σ) (c : Choice κ σ) (row : Row) : Token × Choice κ σ :=
  -- the constraint masks the row before it is picked from
  let row := match c.constraint with
    | some k => M.mask k row
    | none => row
  match c.sampler with
  | some s => ((M.sample s row).1, { c with sampler := some (M.sample s row).2 })
  | none => (M.argmax row, c)

/-- Advance the constraint over an emitted token. -/
def observe (M : Target Row κ σ) (c : Choice κ σ) (token : Token) : Choice κ σ :=
  { c with constraint := c.constraint.map (M.observe · token) }

/-- The constraint, if any, masks the next row. -/
def isMasking (M : Target Row κ σ) (c : Choice κ σ) : Bool :=
  c.constraint.any M.isMasking

/-- The token a row decides, and the choice once it has been observed. -/
def decideRow (M : Target Row κ σ) (c : Choice κ σ) (row : Row) : Token × Choice κ σ :=
  if c.choosesOnTheHost then
    ((c.choose M row).1, (c.choose M row).2.observe M (c.choose M row).1)
  else (M.argmaxDevice row, c.observe M (M.argmaxDevice row))

end Choice

/-- The attention positions one snapshot holds itself. -/
structure Span where
  start : ℕ
  finish : ℕ
  deriving DecidableEq, Repr

/-- A retained recurrent state: what it has consumed, and the token recorded
as following.  Of the attention it holds the positions from `start` on; those
before are its parent's, whose own spans and parents `parents` lists, oldest
first. -/
structure Snapshot where
  history : List Input
  start : ℕ
  nextToken : Option Token
  parents : List Span
  deriving DecidableEq, Repr

namespace Snapshot

/-- Inputs the snapshot has consumed. -/
def position (snapshot : Snapshot) : ℕ := snapshot.history.length

/-- The chain a snapshot is the newest of. -/
def spans (snapshot : Snapshot) : List Span :=
  snapshot.parents ++ [⟨snapshot.start, snapshot.position⟩]

end Snapshot

/-- One request's half of the runtime. -/
structure RuntimeSequence (κ σ : Type) where
  /-- The sequence state: every input consumed so far. -/
  history : List Input
  capacity : ℕ
  prompt : List Token
  prefilled : ℕ
  nextToken : Option Token
  /-- The sequence has a draft head of its own. -/
  drafting : Bool
  draft : List Token
  emitted : ℕ
  maxOutput : ℕ
  lastSnapshotPosition : ℕ
  lastSnapshot : Option Snapshot
  retentionDisabled : Bool
  choice : Choice κ σ
  images : List SequenceImage
  deriving DecidableEq, Repr

/-- Inputs the sequence has consumed. -/
def RuntimeSequence.position (seq : RuntimeSequence κ σ) : ℕ := seq.history.length

/-- The prompt as the target sees it. -/
def RuntimeSequence.inputs (seq : RuntimeSequence κ σ) : List Input :=
  inputsFrom seq.images 0 seq.prompt

/-- The sequence has emitted all it may. -/
def RuntimeSequence.finished (seq : RuntimeSequence κ σ) : Prop := seq.maxOutput ≤ seq.emitted

instance (seq : RuntimeSequence κ σ) : Decidable seq.finished :=
  inferInstanceAs (Decidable (_ ≤ _))

/-- The runtime's shapes and switches. -/
structure RuntimeConfig where
  /-- Verify window, one more than the tokens drafted; zero without drafting. -/
  window : ℕ
  /-- A verify pass was built for this decode width. -/
  verifyBuilt : ℕ → Bool
  /-- A draft head runs beside the model. -/
  draftHead : Bool
  draftNMin : ℕ
  retentionInterval : ℕ
  prefillChunk : ℕ
  tailWidths : List ℕ
  maxBatch : ℕ
  vocab : ℕ
  eosToken : Option Token
  prefillChunk_pos : 0 < prefillChunk
  maxBatch_pos : 0 < maxBatch
  tailWidths_pos : ∀ width ∈ tailWidths, 0 < width

/-- Why a call of the runtime fails. -/
inductive RuntimeError where
  | duplicateRequest (id : RequestId)
  | unknownRequest (id : RequestId)
  | promptLength (declared actual : ℕ)
  | tokenOutOfRange (token : Token) (vocab : ℕ)
  | batchTooWide (requested maximum : ℕ)
  | snapshotPrefix (snapshot prompt : ℕ)
  | imagePlacement (reason : String)
  /-- A slice past the prompt, on which the source panics. -/
  | grantPastPrompt (stop prompt : ℕ)
  /-- The device itself failed. -/
  | device
  deriving DecidableEq, Repr

/-- What one step reports.  `writes` lists the cache rows each pass wrote: the
request, the first position and their number. -/
structure StepLog where
  generated : List (RequestId × Token)
  retained : List (RequestId × Snapshot)
  stopped : List RequestId
  writes : List (RequestId × ℕ × ℕ)
  deriving DecidableEq, Repr

namespace StepLog

/-- Nothing reported. -/
def empty : StepLog := ⟨[], [], [], []⟩

/-- One report behind another. -/
def append (l l' : StepLog) : StepLog where
  generated := l.generated ++ l'.generated
  retained := l.retained ++ l'.retained
  stopped := l.stopped ++ l'.stopped
  writes := l.writes ++ l'.writes

instance : Append StepLog := ⟨append⟩

/-- The tokens generated for one request. -/
def tokens (l : StepLog) (id : RequestId) : List Token :=
  (l.generated.filter (·.1 = id)).map (·.2)

/-- The snapshots retained of one request. -/
def snapshots (l : StepLog) (id : RequestId) : List Snapshot :=
  (l.retained.filter (·.1 = id)).map (·.2)

end StepLog

/-- What the world decides during a step: the drafts proposed for each
request, and whether the arena had a slot for a snapshot at a position. -/
structure StepOracle where
  proposals : RequestId → List Token
  arena : RequestId → ℕ → Bool

/-- The position is a retention boundary not yet filed. -/
def RuntimeSequence.atBoundary (cfg : RuntimeConfig) (seq : RuntimeSequence κ σ) : Prop :=
  0 < cfg.retentionInterval ∧ seq.retentionDisabled = false ∧
    seq.lastSnapshotPosition < seq.position ∧ seq.position % cfg.retentionInterval = 0

instance (cfg : RuntimeConfig) (seq : RuntimeSequence κ σ) : Decidable (seq.atBoundary cfg) :=
  inferInstanceAs (Decidable (_ ∧ _))

/-- Copy the state, with the attention since the last snapshot. -/
def RuntimeSequence.capture (next : Option Token) (seq : RuntimeSequence κ σ) : Snapshot where
  history := seq.history
  start := (seq.lastSnapshot.map Snapshot.position).getD 0
  nextToken := next
  parents := (seq.lastSnapshot.map Snapshot.spans).getD []

/-- File a snapshot at a boundary.  An exhausted arena ends retention for the
sequence. -/
def RuntimeSequence.retain (cfg : RuntimeConfig) (granted : Bool) (next : Option Token)
    (seq : RuntimeSequence κ σ) : RuntimeSequence κ σ × List Snapshot :=
  if seq.atBoundary cfg then
    -- the snapshot holds only the attention since the last one
    if granted then
      ({ seq with lastSnapshotPosition := seq.position, lastSnapshot := some (seq.capture next) },
        [seq.capture next])
    -- no slot: no later boundary is filed either
    else ({ seq with retentionDisabled := true }, [])
  else (seq, [])

/-! ### Retention touches its own fields -/

section Retain

variable (cfg : RuntimeConfig) (granted : Bool) (next : Option Token) (seq : RuntimeSequence κ σ)

theorem retain_fields : (seq.retain cfg granted next).1 = { seq with
    lastSnapshotPosition := (seq.retain cfg granted next).1.lastSnapshotPosition
    lastSnapshot := (seq.retain cfg granted next).1.lastSnapshot
    retentionDisabled := (seq.retain cfg granted next).1.retentionDisabled } := by
  rw [RuntimeSequence.retain]
  split
  · split
    · rfl
    · rfl
  · rfl

@[simp] theorem retain_history : (seq.retain cfg granted next).1.history = seq.history := by
  rw [retain_fields]

@[simp] theorem retain_position : (seq.retain cfg granted next).1.position = seq.position := by
  rw [RuntimeSequence.position, retain_history]
  rfl

@[simp] theorem retain_capacity : (seq.retain cfg granted next).1.capacity = seq.capacity := by
  rw [retain_fields]

@[simp] theorem retain_prompt : (seq.retain cfg granted next).1.prompt = seq.prompt := by
  rw [retain_fields]

@[simp] theorem retain_prefilled : (seq.retain cfg granted next).1.prefilled = seq.prefilled := by
  rw [retain_fields]

@[simp] theorem retain_nextToken : (seq.retain cfg granted next).1.nextToken = seq.nextToken := by
  rw [retain_fields]

@[simp] theorem retain_draft : (seq.retain cfg granted next).1.draft = seq.draft := by
  rw [retain_fields]

@[simp] theorem retain_drafting : (seq.retain cfg granted next).1.drafting = seq.drafting := by
  rw [retain_fields]

@[simp] theorem retain_emitted : (seq.retain cfg granted next).1.emitted = seq.emitted := by
  rw [retain_fields]

@[simp] theorem retain_maxOutput : (seq.retain cfg granted next).1.maxOutput = seq.maxOutput := by
  rw [retain_fields]

@[simp] theorem retain_choice : (seq.retain cfg granted next).1.choice = seq.choice := by
  rw [retain_fields]

@[simp] theorem retain_images : (seq.retain cfg granted next).1.images = seq.images := by
  rw [retain_fields]

end Retain
