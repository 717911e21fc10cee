/-
The scheduler as a state machine.

`Op` lists the calls a worker can make, `Scheduler.apply` runs one, and
`Moved` says, once for all of them, what a call can do to the state.  Every
invariant below is a case analysis on `Moved`.

`Books` is what holds after any sequence of calls, whatever the arithmetic
did on the way: the free counter and the reservations add up to the pool
modulo `2 ^ 32`, and every running request holds the reservation phase 3
computed for it.  What holds of the exact numbers is the subject of
`Llmxabe.Sched.Accounting`.
-/
import Llmxabe.Lib.Run
import Llmxabe.Sched.Steps

/-- One call on a scheduler. -/
inductive Op where
  | admitRequest (req : NewRequest)
  | admitWithPrefix (req : NewRequest) (computedPrefix : U32)
  | stepInto
  | advanceSpeculative (id : RequestId) (additional : U32)
  | finishRequest (id : RequestId)
  | cancelRequest (id : RequestId)
  | preempt (id : RequestId)
  deriving DecidableEq, Repr

/-- What a call returns. -/
inductive Outcome where
  | admission (result : Except AdmissionError RequestId)
  | batch (b : BatchDescription)
  | found (b : Bool)

/-- The request an admission call submits, and its restored prefix. -/
def Op.submission : Op → Option (NewRequest × U32)
  | .admitRequest req => some (req, 0)
  | .admitWithPrefix req computedPrefix => some (req, computedPrefix)
  | _ => none

/-- The id a call takes out of the running set for good. -/
def Op.released : Op → Option RequestId
  | .finishRequest id => some id
  | .cancelRequest id => some id
  | _ => none

namespace Scheduler

/-- The scheduler after a call, and what the call answers. -/
def apply (s : Scheduler) : Op → Wrapping (Scheduler × Outcome)
  | .admitRequest req => do
    let (s, result) ← s.admitRequest req
    return (s, .admission result)
  | .admitWithPrefix req computedPrefix => do
    let (s, result) ← s.admitWithPrefix req computedPrefix
    return (s, .admission result)
  | .stepInto => do
    let (s, b) ← s.stepInto
    return (s, .batch b)
  | .advanceSpeculative id additional => do
    let (s, b) ← s.advanceSpeculative id additional
    return (s, .found b)
  | .finishRequest id => do
    let (s, b) ← s.finishRequest id
    return (s, .found b)
  | .cancelRequest id => do
    let (s, b) ← s.cancelRequest id
    return (s, .found b)
  | .preempt id => do
    let (s, b) ← s.preempt id
    return (s, .found b)

/-- One call as a labelled transition. -/
def Call (s : Scheduler) (l : Op × Outcome) (s' : Scheduler) : Prop :=
  (s.apply l.1).val = (s', l.2)

/-- A script of calls, with their outcomes. -/
def play (s : Scheduler) : List Op → List (Op × Outcome) × Scheduler
  | [] => ([], s)
  | op :: ops =>
    let moved := (s.apply op).val
    let rest := play moved.1 ops
    ((op, moved.2) :: rest.1, rest.2)

theorem play_run (s : Scheduler) (ops : List Op) : Run Call s (s.play ops).1 (s.play ops).2 := by
  induction ops generalizing s with
  | nil => exact Run.nil
  | cons op ops ih => exact Run.cons rfl (ih _)

/-- What a call can do to the state, and what it returns then. -/
inductive Moved (s : Scheduler) : Op → Outcome → Scheduler → Prop where
  | refused {op : Op} {req : NewRequest} {computedPrefix : U32} {e : AdmissionError} :
      op.submission = some (req, computedPrefix) → Moved s op (.admission (.error e)) s
  | queued {op : Op} {req : NewRequest} {computedPrefix : U32} :
      op.submission = some (req, computedPrefix) →
      (computedPrefix : ℕ) ≤ req.promptTokens →
      (s.config.attentionBlocksNeeded req.fullSeqLen).val ≤ s.totalAttentionBlocks →
      s.waiting.length % 2 ^ 32 < s.config.maxWaitingRequests →
      Moved s op (.admission (.ok req.id)) { s with waiting := s.waiting ++ [{
        id := req.id, promptTokens := req.promptTokens
        maxOutputTokens := req.maxOutputTokens
        computedTokens := computedPrefix, blocksReserved := 0 }] }
  | stepped {b : BatchDescription} {s' : Scheduler} :
      Stepped s b s' → Moved s .stepInto (.batch b) s'
  | missing {op : Op} : op.submission = none → Moved s op (.found false) s
  | advanced {id : RequestId} {additional : U32} {r : TrackedRequest}
      {before after : List TrackedRequest} :
      s.running = before ++ r :: after → r.id = id →
      Moved s (.advanceSpeculative id additional) (.found true) { s with
        running := before ++ { r with
          computedTokens := min (satAddU32 r.computedTokens additional) r.fullSeqLen.val }
          :: after }
  | released {op : Op} {id : RequestId} {r : TrackedRequest}
      {before after : List TrackedRequest} :
      op.released = some id → s.running = before ++ r :: after → r.id = id →
      Moved s op (.found true) { s with
        freeAttentionBlocks := (s.freeAttentionBlocks + r.blocksReserved) % 2 ^ 32
        running := before ++ after }
  | dequeued {id : RequestId} {r : TrackedRequest} {before after : List TrackedRequest} :
      s.waiting = before ++ r :: after → r.id = id →
      Moved s (.cancelRequest id) (.found true) { s with waiting := before ++ after }
  | preempted {id : RequestId} {r : TrackedRequest} {before after : List TrackedRequest} :
      s.running = before ++ r :: after → r.id = id →
      Moved s (.preempt id) (.found true) { s with
        freeAttentionBlocks := (s.freeAttentionBlocks + r.blocksReserved) % 2 ^ 32
        running := before ++ after
        waiting := { r with blocksReserved := 0, computedTokens := 0 } :: s.waiting }

/-- Looking a request up by id splits the list around it. -/
theorem find_split {rs : List TrackedRequest} {id : RequestId} {r : TrackedRequest}
    (h : rs.find? (·.id == id) = some r) :
    ∃ before after, rs = before ++ r :: after ∧ r.id = id ∧
      rs.eraseP (·.id == id) = before ++ after ∧
      ∀ r', rs.replaceF (fun q => if q.id == id then some r' else none)
        = before ++ r' :: after := by
  -- along the list, up to the first request with the id
  induction rs with
  | nil => simp at h
  | cons q rs ih =>
    by_cases hq : q.id = id
    · have hr : q = r := by simpa [hq] using h
      subst hr
      exact ⟨[], rs, rfl, hq, by simp [hq], fun r' => by simp [hq]⟩
    · obtain ⟨before, after, hrs, hid, herase, hreplace⟩ := ih (by simpa [hq] using h)
      refine ⟨q :: before, after, by rw [hrs]; rfl, hid, ?_, fun r' => ?_⟩
      · rw [List.eraseP_cons_of_neg (by simpa using hq), herase]
        rfl
      · rw [List.replaceF_cons_of_none _ (by simp [hq]), hreplace]
        rfl

theorem admitWithPrefix_moved (s : Scheduler) {op : Op} {req : NewRequest}
    {computedPrefix : U32} (hop : op.submission = some (req, computedPrefix)) :
    Moved s op (.admission (s.admitWithPrefix req computedPrefix).val.2)
      (s.admitWithPrefix req computedPrefix).val.1 := by
  simp only [admitWithPrefix, Wrapping.ite_val, Wrapping.bind_val, Wrapping.pure_val]
  split
  · exact Moved.refused hop
  split
  · exact Moved.refused hop
  split
  · exact Moved.refused hop
  rename_i hrestored hneeded hqueue
  exact Moved.queued hop (by omega) (by omega) (by omega)

theorem finishRequest_moved (s : Scheduler) {op : Op} {id : RequestId}
    (hop : op.released = some id) :
    ((s.finishRequest id).val = (s, false)) ∨
      ((s.finishRequest id).val.2 = true ∧
        Moved s op (.found true) (s.finishRequest id).val.1) := by
  unfold finishRequest
  split
  · rename_i r hfind
    obtain ⟨before, after, hrs, hid, herase, -⟩ := find_split hfind
    refine Or.inr ⟨rfl, ?_⟩
    simp only [Wrapping.bind_val, Wrapping.pure_val, addU32_val, herase]
    exact Moved.released hop hrs hid
  · exact Or.inl rfl

theorem preempt_moved (s : Scheduler) (id : RequestId) :
    Moved s (.preempt id) (.found (s.preempt id).val.2) (s.preempt id).val.1 := by
  unfold preempt
  split
  · rename_i r hfind
    obtain ⟨before, after, hrs, hid, herase, -⟩ := find_split hfind
    simp only [Wrapping.bind_val, Wrapping.pure_val, addU32_val, herase]
    exact Moved.preempted hrs hid
  · exact Moved.missing rfl

theorem advanceSpeculative_moved (s : Scheduler) (id : RequestId) (additional : U32) :
    Moved s (.advanceSpeculative id additional)
      (.found (s.advanceSpeculative id additional).val.2)
      (s.advanceSpeculative id additional).val.1 := by
  unfold advanceSpeculative
  split
  · rename_i r hfind
    obtain ⟨before, after, hrs, hid, -, hreplace⟩ := find_split hfind
    simp only [Wrapping.bind_val, Wrapping.pure_val, hreplace]
    exact Moved.advanced hrs hid
  · exact Moved.missing rfl

theorem cancelRequest_moved (s : Scheduler) (id : RequestId) :
    Moved s (.cancelRequest id) (.found (s.cancelRequest id).val.2)
      (s.cancelRequest id).val.1 := by
  simp only [cancelRequest, Wrapping.bind_val, Wrapping.ite_val, Wrapping.pure_val]
  rcases s.finishRequest_moved (show (Op.cancelRequest id).released = some id from rfl) with
    hnone | ⟨hsome, hmoved⟩
  · rw [hnone]
    by_cases hwaiting : s.isWaiting id = true
    · have hany : (s.waiting.find? (·.id == id)).isSome := by
        rw [List.find?_isSome]
        simpa [isWaiting] using hwaiting
      obtain ⟨r, hfind⟩ := Option.isSome_iff_exists.mp hany
      obtain ⟨before, after, hrs, hid, herase, -⟩ := find_split hfind
      simp only [hwaiting, if_true, herase, Bool.false_eq_true, if_false]
      exact Moved.dequeued hrs hid
    · simp only [hwaiting, if_false, Bool.false_eq_true]
      exact Moved.missing rfl
  · simp only [hsome, if_true]
    exact hmoved

/-- A call does nothing but what `Moved` lists. -/
theorem apply_moved {s : Scheduler} (hrestored : ∀ r ∈ s.waiting, r.computedTokens ≤ r.promptTokens)
    (op : Op) : Moved s op (s.apply op).val.2 (s.apply op).val.1 := by
  cases op with
  | admitRequest req =>
    exact s.admitWithPrefix_moved (show (Op.admitRequest req).submission = some (req, 0) from rfl)
  | admitWithPrefix req computedPrefix =>
    exact s.admitWithPrefix_moved
      (show (Op.admitWithPrefix req computedPrefix).submission = some (req, computedPrefix) from rfl)
  | stepInto => exact Moved.stepped (stepInto_spec hrestored)
  | advanceSpeculative id additional => exact s.advanceSpeculative_moved id additional
  | finishRequest id =>
    rcases s.finishRequest_moved (show (Op.finishRequest id).released = some id from rfl) with
      hnone | ⟨hsome, hmoved⟩
    · simp only [apply, Wrapping.bind_val, Wrapping.pure_val, hnone]
      exact Moved.missing rfl
    · simp only [apply, Wrapping.bind_val, Wrapping.pure_val, hsome]
      exact hmoved
  | cancelRequest id => exact s.cancelRequest_moved id
  | preempt id => exact s.preempt_moved id

end Scheduler
