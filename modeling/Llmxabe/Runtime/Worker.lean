/-
One worker (`xabe-engine/src/worker.rs`): a scheduler, the device runtime it
drives and the cache pools behind it.

`stepDevice` schedules a step, hands the requests that were just pulled to the
runtime, executes the batch, and tells the scheduler what came of it: the
tokens a sequence emitted beyond the one it was charged for, and the requests
that have completed.  A request waits in `pending` until its first prefill.

A `Device` is the runtime as the worker calls it; `deviceRuntime` is the one
modelled, another may fail wherever the device does.  A step that fails returns
what it leaves behind.

The arithmetic of the scheduler is read as a release build computes it.
-/
import Llmxabe.Cache.Pool
import Llmxabe.Runtime.Prefill
import Llmxabe.Sched.Scheduler

variable {Row κ σ : Type}

/-- What one reservation slot holds. -/
structure CacheReservation where
  request : Option RequestId
  attention : List BlockId
  gdn : Option BlockId
  deriving DecidableEq, Repr

/-- A slot that is free. -/
def CacheReservation.empty : CacheReservation := ⟨none, [], none⟩

/-- The scheduler, the runtime's sequences, the requests not yet handed to it, and what the cache
has reserved for each. -/
structure Worker (κ σ : Type) where
  scheduler : Scheduler
  runtime : Sequences κ σ
  pending : AList fun _ : RequestId => PendingSequence κ σ
  attentionPool : BlockPool
  gdnPool : BlockPool
  reservations : List CacheReservation

/-- The device runtime as its worker calls it.  A failing call says what it
leaves resident. -/
structure Device (κ σ : Type) where
  accept : PendingSequence κ σ → Sequences κ σ →
    Except (RuntimeError × Sequences κ σ) (Sequences κ σ)
  execute : BatchDescription → Sequences κ σ →
    Except (RuntimeError × Sequences κ σ) (Sequences κ σ × RuntimeStep)

/-- The modelled runtime. -/
def deviceRuntime (M : Target Row κ σ) (cfg : RuntimeConfig) (io : StepOracle) : Device κ σ where
  accept p seqs := (admitPending cfg p seqs).mapError (·, seqs)
  execute scheduled seqs := (execute M cfg io scheduled seqs).mapError (·, seqs)

/-- Why an execution fails. -/
inductive WorkerExecutionError where
  | runtime (e : RuntimeError)
  | admission (e : AdmissionError)
  | cache
  /-- An `expect` on the reservations, on which the source panics. -/
  | noReservation (id : RequestId)
  deriving DecidableEq, Repr

/-- What a device step hands to the engine, with its batch. -/
structure DeviceStep where
  scheduled : BatchDescription
  log : StepLog
  completed : List RequestId
  deriving DecidableEq, Repr

namespace Worker

/-- Nothing admitted, both pools full. -/
def new (sched : SchedulerConfig) (attentionBlocks : U32) (gdnSlots : ℕ) : Worker κ σ where
  scheduler := Scheduler.new sched attentionBlocks
  runtime := ∅
  pending := ∅
  attentionPool := BlockPool.new attentionBlocks
  gdnPool := BlockPool.new gdnSlots
  reservations := List.replicate sched.maxConcurrentDecodes CacheReservation.empty

/-- What admission checks before the scheduler is asked. -/
def validatePending (cfg : RuntimeConfig) (p : PendingSequence κ σ) (w : Worker κ σ) :
    Except WorkerExecutionError Unit :=
  if (w.pending.lookup p.request.id).isSome ∨ w.scheduler.isWaiting p.request.id ∨
      w.scheduler.isRunning p.request.id then
    .error (.runtime (.duplicateRequest p.request.id))
  else if p.prompt.length ≠ p.request.promptTokens then
    .error (.runtime (.promptLength p.request.promptTokens p.prompt.length))
  else
    match outOfVocab cfg.vocab p.prompt with
    -- the first token that is out of range is the one reported
    | some token => .error (.runtime (.tokenOutOfRange token cfg.vocab))
    | none =>
      match p.snapshot with
      | some snapshot =>
        if p.prompt.length < snapshot.position then
          .error (.runtime (.snapshotPrefix snapshot.position p.prompt.length))
        else .ok ()
      | none => .ok ()

/-- Admit the scheduler's half of a request, and keep the rest until its first
prefill. -/
def admitValidated (cfg : RuntimeConfig) (p : PendingSequence κ σ) (computedPrefix : U32)
    (w : Worker κ σ) : Worker κ σ × Except WorkerExecutionError RequestId :=
  match w.validatePending cfg p with
  | .error e => (w, .error e)
  | .ok () =>
    match (w.scheduler.admitWithPrefix p.request computedPrefix).val with
    | (scheduler, .error e) => ({ w with scheduler }, .error (.admission e))
    | (scheduler, .ok id) =>
      ({ w with scheduler, pending := w.pending.insert id p }, .ok id)

/-- Admit a request with its prompt. -/
def admitTokens (cfg : RuntimeConfig) (p : PendingSequence κ σ) (w : Worker κ σ) :
    Worker κ σ × Except WorkerExecutionError RequestId :=
  w.admitValidated cfg { p with snapshot := none } 0

/-- Admit a request that resumes from a snapshot. -/
def admitTokensRestored (cfg : RuntimeConfig) (p : PendingSequence κ σ) (snapshot : Snapshot)
    (w : Worker κ σ) : Worker κ σ × Except WorkerExecutionError RequestId :=
  -- the prefix is cast to a `u32`
  w.admitValidated cfg { p with snapshot := some snapshot } (Fin.ofNat (2 ^ 32) snapshot.position)

/-- Take the pages a first prefill needs, in the first empty slot. -/
def reserveCache (id : RequestId) (w : Worker κ σ) :
    Except (WorkerExecutionError × Worker κ σ) (Worker κ σ) :=
  match w.scheduler.reservedAttentionBlocks id with
  | none => .error (.noReservation id, w)
  | some blocks =>
    match w.reservations.find? (·.request.isNone) with
    | none => .error (.noReservation id, w)
    | some slot =>
      let fill := fun filled : CacheReservation => w.reservations.replaceF fun slot =>
        if slot.request.isNone then some filled else none
      -- the pages first, then the recurrent slot; failing, the pages go back
      match w.attentionPool.allocInto blocks slot.attention with
      | none => .error (.cache, w)
      | some (attention, attentionPool) =>
        match w.gdnPool.alloc with
        | none => .error (.cache, { w with
            attentionPool := attentionPool.freeBlocks attention
            reservations := fill { slot with attention := [] } })
        | some (gdn, gdnPool) =>
          .ok { w with
            attentionPool, gdnPool, reservations := fill ⟨some id, attention, some gdn⟩ }

/-- Return them. -/
def releaseCache (id : RequestId) (w : Worker κ σ) : Worker κ σ :=
  match w.reservations.find? (·.request = some id) with
  | none => w
  | some slot => { w with
      attentionPool := w.attentionPool.freeBlocks slot.attention
      gdnPool := slot.gdn.elim w.gdnPool w.gdnPool.freeBlock
      reservations := w.reservations.replaceF fun slot =>
        if slot.request = some id then some CacheReservation.empty else none }

/-- Hand the requests whose first prefill was scheduled to the runtime. -/
def admitScheduled (device : Device κ σ) :
    List PrefillItem → Worker κ σ → Except (WorkerExecutionError × Worker κ σ) (Worker κ σ)
  | [], w => .ok w
  | item :: items, w =>
    match w.pending.lookup item.id with
    -- an earlier step handed it over
    | none => admitScheduled device items w
    | some p =>
      match w.reserveCache item.id with
      | .error e => .error e
      | .ok w =>
        -- taken out whether or not the runtime accepts it
        let pending := w.pending.erase item.id
        match device.accept p w.runtime with
        | .error (e, runtime) => .error (.runtime e, { w with runtime, pending })
        | .ok runtime => admitScheduled device items { w with runtime, pending }

/-- Account for what a decode emitted beyond the token it was charged for. -/
def advanceDecode (log : StepLog) (scheduler : Scheduler) (item : DecodeItem) : Scheduler :=
  -- cast to a `u32`, as in the source
  let emitted := (log.tokens item.id).length % 2 ^ 32
  if 1 < emitted then
    (scheduler.advanceSpeculative item.id (Fin.ofNat (2 ^ 32) (emitted - 1))).val.1
  else scheduler

/-- Drop a completed request. -/
def complete (w : Worker κ σ) (id : RequestId) : Worker κ σ :=
  ({ w with scheduler := (w.scheduler.finishRequest id).val.1 }).releaseCache id

/-- Schedule and execute one step on a device. -/
def stepOn (device : Device κ σ) (w : Worker κ σ) :
    Except (WorkerExecutionError × Worker κ σ) (Worker κ σ × DeviceStep) :=
  let stepped := w.scheduler.stepInto.val
  match admitScheduled device stepped.2.prefills { w with scheduler := stepped.1 } with
  | .error e => .error e
  | .ok w =>
    match device.execute stepped.2 w.runtime with
    | .error (e, runtime) => .error (.runtime e, { w with runtime })
    | .ok (runtime, step) =>
      let scheduler := stepped.2.decodes.foldl (advanceDecode step.log) w.scheduler
      .ok (step.completed.foldl complete { w with scheduler, runtime },
        { scheduled := stepped.2, log := step.log, completed := step.completed })

/-- Schedule and execute one device step. -/
def stepDevice (M : Target Row κ σ) (cfg : RuntimeConfig) (io : StepOracle) (w : Worker κ σ) :
    Except (WorkerExecutionError × Worker κ σ) (Worker κ σ × DeviceStep) :=
  w.stepOn (deviceRuntime M cfg io)

/-- Cancel a waiting or running request. -/
def cancel (id : RequestId) (w : Worker κ σ) : Worker κ σ × Bool :=
  let pending := (w.pending.lookup id).isSome
  -- only a running request has a sequence
  let runtime := if w.scheduler.isRunning id then w.runtime.erase id else w.runtime
  let cancelled := (w.scheduler.cancelRequest id).val
  let w := { w with scheduler := cancelled.1, runtime, pending := w.pending.erase id }
  if cancelled.2 || pending then (w.releaseCache id, true) else (w, false)

end Worker

/-- One call on a worker. -/
inductive WorkerOp (κ σ : Type) where
  | admitTokens (p : PendingSequence κ σ)
  | admitTokensRestored (p : PendingSequence κ σ) (snapshot : Snapshot)
  | stepDevice (io : StepOracle)
  | cancel (id : RequestId)

/-- What a call returns, when nothing went wrong on the device. -/
inductive WorkerOutcome where
  | admission (result : Except WorkerExecutionError RequestId)
  | step (step : DeviceStep)
  | found (b : Bool)

/-- The calls of a run without device errors.  The drafts of a step fit the
verify window. -/
inductive WorkerCall (M : Target Row κ σ) (cfg : RuntimeConfig) :
    Worker κ σ → WorkerOp κ σ × WorkerOutcome → Worker κ σ → Prop where
  | admitTokens (w : Worker κ σ) (p : PendingSequence κ σ) :
      WorkerCall M cfg w (.admitTokens p, .admission (w.admitTokens cfg p).2)
        (w.admitTokens cfg p).1
  | admitTokensRestored (w : Worker κ σ) (p : PendingSequence κ σ) (snapshot : Snapshot) :
      WorkerCall M cfg w (.admitTokensRestored p snapshot,
        .admission (w.admitTokensRestored cfg p snapshot).2)
        (w.admitTokensRestored cfg p snapshot).1
  | stepDevice {w w' : Worker κ σ} {io : StepOracle} {step : DeviceStep} :
      (∀ id, (io.proposals id).length ≤ cfg.window - 1) →
      w.stepDevice M cfg io = .ok (w', step) →
      WorkerCall M cfg w (.stepDevice io, .step step) w'
  | cancel (w : Worker κ σ) (id : RequestId) :
      WorkerCall M cfg w (.cancel id, .found (w.cancel id).2) (w.cancel id).1
