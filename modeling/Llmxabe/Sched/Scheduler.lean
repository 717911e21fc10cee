/-
The chunked prefill scheduler (`xabe-sched/src/scheduler.rs`).

A `Scheduler` owns the waiting and running queues and a count of free
attention blocks.  Every `u32` operation of the source is an operation of
`Wrapping`, in the order the source performs them, so the value of a function
is what a release build computes and its overflow flag is the panic of a
checked build.

`stepInto` shares one token budget between three phases:

* `decodePhase`: every decode-ready running request, until the budget is
  short of one decode's cost;
* `sharePrefill`: the running requests still mid-prompt, walked from a
  rotating start, holding back `admissionReserve`;
* `admitPhase`: requests pulled from the waiting queue, as long as a slot, the
  budget and the blocks above the watermark allow.
-/
import Llmxabe.Sched.Config

/-- Scheduler-internal bookkeeping for one request. -/
structure TrackedRequest where
  id : RequestId
  promptTokens : U32
  maxOutputTokens : U32
  computedTokens : ℕ
  blocksReserved : ℕ
  deriving DecidableEq, Repr

namespace TrackedRequest

/-- Unlike `NewRequest.fullSeqLen`, an ordinary `u32` sum. -/
def fullSeqLen (r : TrackedRequest) : Wrapping ℕ :=
  addU32 r.promptTokens r.maxOutputTokens

/-- The whole prompt has been computed. -/
def isDecodeReady (r : TrackedRequest) : Bool :=
  decide ((r.promptTokens : ℕ) ≤ r.computedTokens)

/-- Phase 1's filter; the length is only added up for a decode-ready request. -/
def wantsDecode (r : TrackedRequest) : Wrapping Bool :=
  if r.isDecodeReady then do
    let full ← r.fullSeqLen
    return decide (r.computedTokens < full)
  else return false

end TrackedRequest

/-- How much of a step's budget is held back for admission, as a divisor. -/
def admissionReserveFraction : ℕ := 2

/-- The two queues and the block account. -/
structure Scheduler where
  config : SchedulerConfig
  totalAttentionBlocks : U32
  freeAttentionBlocks : ℕ
  waiting : List TrackedRequest
  running : List TrackedRequest
  prefillCursor : ℕ

namespace Scheduler

/-- Nothing queued, every block free. -/
def new (config : SchedulerConfig) (totalAttentionBlocks : U32) : Scheduler where
  config
  totalAttentionBlocks
  freeAttentionBlocks := totalAttentionBlocks
  waiting := []
  running := []
  prefillCursor := 0

/-- The id is in the running queue. -/
def isRunning (s : Scheduler) (id : RequestId) : Bool := s.running.any (·.id == id)

/-- The id is in the waiting queue. -/
def isWaiting (s : Scheduler) (id : RequestId) : Bool := s.waiting.any (·.id == id)

/-- Attention blocks held for a running request's full lifetime. -/
def reservedAttentionBlocks (s : Scheduler) (id : RequestId) : Option ℕ :=
  (s.running.find? (·.id == id)).map (·.blocksReserved)

end Scheduler

/-- Blocks for `fullSeqLen` tokens and one draft window of scratch. -/
def SchedulerConfig.attentionBlocksNeeded (cfg : SchedulerConfig) (fullSeqLen : ℕ) :
    Wrapping ℕ := do
  let footprint ← addU32 fullSeqLen cfg.draftTokensPerStep
  return divCeil footprint cfg.blockSize

namespace Scheduler

/-- The longest sequence one slot may speculatively reserve. -/
def perSlotTokenCeiling (s : Scheduler) : ℕ :=
  let slots := max (s.config.maxConcurrentDecodes : ℕ) 1
  let share := (s.totalAttentionBlocks : ℕ) / slots
  satMulU32 share s.config.blockSize - s.config.draftTokensPerStep

/-- Why `canAdmit` says no, or `none` if it says yes. -/
def refusalFor (s : Scheduler) (req : NewRequest) : Wrapping (Option AdmissionError) := do
  let neededBlocks ← s.config.attentionBlocksNeeded req.fullSeqLen
  if (s.totalAttentionBlocks : ℕ) < neededBlocks then
    return some (.exceedsTotalCapacity req.fullSeqLen neededBlocks s.totalAttentionBlocks)
  if s.config.maxWaitingRequests ≤ s.waiting.length % 2 ^ 32 then
    return some (.waitingQueueFull s.config.maxWaitingRequests)
  return none

/-- Whether the request would be admitted. -/
def canAdmit (s : Scheduler) (req : NewRequest) : Wrapping Bool :=
  (fun refusal => refusal.isNone) <$> s.refusalFor req

/-- Admit a request whose first `computedPrefix` prompt tokens have been
restored from a shared cache snapshot. -/
def admitWithPrefix (s : Scheduler) (req : NewRequest) (computedPrefix : U32) :
    Wrapping (Scheduler × Except AdmissionError RequestId) := do
  if (req.promptTokens : ℕ) < computedPrefix then
    return (s, .error (.invalidReusablePrefix computedPrefix req.promptTokens))
  let neededBlocks ← s.config.attentionBlocksNeeded req.fullSeqLen
  if (s.totalAttentionBlocks : ℕ) < neededBlocks then
    return (s, .error
      (.exceedsTotalCapacity req.fullSeqLen neededBlocks s.totalAttentionBlocks))
  if s.config.maxWaitingRequests ≤ s.waiting.length % 2 ^ 32 then
    return (s, .error (.waitingQueueFull s.config.maxWaitingRequests))
  return ({ s with waiting := s.waiting ++ [{
      id := req.id, promptTokens := req.promptTokens
      maxOutputTokens := req.maxOutputTokens
      computedTokens := computedPrefix, blocksReserved := 0 }] }, .ok req.id)

/-- Admit a request that restores no prefix. -/
def admitRequest (s : Scheduler) (req : NewRequest) :
    Wrapping (Scheduler × Except AdmissionError RequestId) :=
  s.admitWithPrefix req 0

/-- Mark a request as finished, freeing its reserved blocks. -/
def finishRequest (s : Scheduler) (id : RequestId) : Wrapping (Scheduler × Bool) :=
  match s.running.find? (·.id == id) with
  | some req => do
    let free ← addU32 s.freeAttentionBlocks req.blocksReserved
    return ({ s with
      freeAttentionBlocks := free
      running := s.running.eraseP (·.id == id) }, true)
  | none => return (s, false)

/-- Cancel a request regardless of whether it is waiting or running. -/
def cancelRequest (s : Scheduler) (id : RequestId) : Wrapping (Scheduler × Bool) := do
  let (s, finished) ← s.finishRequest id
  if finished then
    return (s, true)
  if s.isWaiting id then
    return ({ s with waiting := s.waiting.eraseP (·.id == id) }, true)
  return (s, false)

/-- Preempt a running request by recompute. -/
def preempt (s : Scheduler) (id : RequestId) : Wrapping (Scheduler × Bool) :=
  match s.running.find? (·.id == id) with
  | some req => do
    let free ← addU32 s.freeAttentionBlocks req.blocksReserved
    return ({ s with
      freeAttentionBlocks := free
      running := s.running.eraseP (·.id == id)
      waiting := { req with blocksReserved := 0, computedTokens := 0 } :: s.waiting }, true)
  | none => return (s, false)

/-- Account for target tokens accepted by a speculative step beyond the one
charged by `stepInto`. -/
def advanceSpeculative (s : Scheduler) (id : RequestId) (additional : U32) :
    Wrapping (Scheduler × Bool) :=
  match s.running.find? (·.id == id) with
  | some req => do
    let full ← req.fullSeqLen
    let computed := min (satAddU32 req.computedTokens additional) full
    let advanced := { req with computedTokens := computed }
    return ({ s with
      running := s.running.replaceF (fun r => if r.id == id then some advanced else none) },
      true)
  | none => return (s, false)

/-- Phase 1: every decode-ready running request, until the budget is short of
one decode's cost. -/
def decodePhase (cfg : SchedulerConfig) :
    List TrackedRequest → ℕ → Wrapping (List TrackedRequest × List DecodeItem × ℕ)
  | [], budget => return ([], [], budget)
  | req :: rest, budget => do
    let wanted ← req.wantsDecode
    if wanted then
      let cost ← cfg.tokensPerDecodeStep
      if budget < cost then
        return (req :: rest, [], budget)
      let computed ← addU32 req.computedTokens 1
      let budget ← subU32 budget cost
      let (rest, decodes, budget) ← decodePhase cfg rest budget
      return ({ req with computedTokens := computed } :: rest,
        { id := req.id, tokens := cost } :: decodes, budget)
    else
      let (rest, decodes, budget) ← decodePhase cfg rest budget
      return (req :: rest, decodes, budget)

/-- Whether phase 3 of a step could actually admit somebody. -/
def admissionCanProceed (s : Scheduler) : Wrapping Bool :=
  if (s.config.maxConcurrentDecodes : ℕ) ≤ s.running.length then return false
  else match s.waiting with
    | [] => return false
    | candidate :: _ => do
      let full ← candidate.fullSeqLen
      let neededBlocks ← s.config.attentionBlocksNeeded full
      let headroom ← addU32 neededBlocks (s.config.watermarkBlocks s.totalAttentionBlocks)
      return decide (headroom ≤ s.freeAttentionBlocks)

/-- What phase 2 carries from one running request to the next. -/
structure PrefillShare where
  running : List TrackedRequest
  prefills : List PrefillItem
  budget : ℕ
  granted : Bool
  deriving DecidableEq, Repr

/-- Phase 2: walk the running requests from `start`, holding back `reserve`. -/
def sharePrefill (slice reserve start : ℕ) :
    List ℕ → PrefillShare → Wrapping PrefillShare
  | [], st => return st
  | offset :: offsets, st =>
    if st.budget = 0 then return st
    else
      let spendable := st.budget - reserve
      if spendable = 0 then return st
      else
        let index := (start + offset) % st.running.length
        match st.running[index]? with
        | none => return st
        | some req =>
          if req.isDecodeReady then sharePrefill slice reserve start offsets st
          else do
            let remaining ← subU32 req.promptTokens req.computedTokens
            let chunk := min (min remaining slice) spendable
            if chunk = 0 then
              sharePrefill slice reserve start offsets st
            else
              let computed ← addU32 req.computedTokens chunk
              let budget ← subU32 st.budget chunk
              sharePrefill slice reserve start offsets {
                running := st.running.set index { req with computedTokens := computed }
                prefills := st.prefills ++ [{ id := req.id, tokens := chunk }]
                budget
                granted := true }

/-- What phase 3 carries from one admission to the next. -/
structure Admissions where
  running : List TrackedRequest
  prefills : List PrefillItem
  free : ℕ
  budget : ℕ
  deriving DecidableEq, Repr

/-- Phase 3: pull requests from the waiting queue, watermark-gated. -/
def admitPhase (cfg : SchedulerConfig) (total : U32) :
    List TrackedRequest → Admissions → Wrapping (List TrackedRequest × Admissions)
  | [], st => return ([], st)
  | candidate :: waiting, st =>
    if st.budget = 0 ∨ (cfg.maxConcurrentDecodes : ℕ) ≤ st.running.length then
      return (candidate :: waiting, st)
    else do
      let full ← candidate.fullSeqLen
      let neededBlocks ← cfg.attentionBlocksNeeded full
      let headroom ← addU32 neededBlocks (cfg.watermarkBlocks total)
      if st.free < headroom then
        return (candidate :: waiting, st)
      let free ← subU32 st.free neededBlocks
      let remaining ← subU32 candidate.promptTokens candidate.computedTokens
      let chunk := min (min remaining cfg.slice) st.budget
      let computed ← addU32 candidate.computedTokens chunk
      let budget ← subU32 st.budget chunk
      let st := {
        running := st.running ++ [{ candidate with
          computedTokens := computed, blocksReserved := neededBlocks }]
        prefills := st.prefills ++ [{ id := candidate.id, tokens := chunk }]
        free, budget }
      -- one partially-prefilled newcomer per step
      if chunk < remaining then
        return (waiting, st)
      admitPhase cfg total waiting st

/-- Run one scheduling step. -/
def stepInto (s : Scheduler) : Wrapping (Scheduler × BatchDescription) := do
  let (running, decodes, budget) ← decodePhase s.config s.running s.config.tokenBudget
  let s := { s with running }
  let canProceed ← s.admissionCanProceed
  let reserve := if canProceed then s.config.tokenBudget / admissionReserveFraction else 0
  let share ← sharePrefill s.config.slice reserve (s.prefillCursor % s.running.length)
    (List.range s.running.length)
    { running := s.running, prefills := [], budget, granted := false }
  let cursor := if share.granted then (s.prefillCursor + 1) % 2 ^ 64 else s.prefillCursor
  let (waiting, admitted) ← admitPhase s.config s.totalAttentionBlocks s.waiting {
    running := share.running, prefills := share.prefills
    free := s.freeAttentionBlocks, budget := share.budget }
  return ({ s with
      freeAttentionBlocks := admitted.free
      waiting
      running := admitted.running
      prefillCursor := cursor },
    { decodes, prefills := admitted.prefills })

end Scheduler
