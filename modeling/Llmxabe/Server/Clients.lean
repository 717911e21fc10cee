/-
The clients of the server and the loops that drive the workers
(`xabe-server/src/http/mod.rs`, `xabe-server/src/http/generate.rs`).

A handler names its request, puts its client into a map and only then places the request.
One loop for each worker takes a step and hands its tokens out under the lock of the map; a
client whose receiver is gone leaves the map at the first send that fails, and its request is
cancelled once the lock is free.  The loops, the handlers and the clients that hang up are
not synchronized: `Step` is one action of any of them.

A step says of a request only what its worker does: it names requests that were placed
there and are neither complete nor cancelled.  The tokens of a request (`emitted`) and the
reason it completed for (`finished`) are recorded.
-/
import Llmxabe.Lib.Run
import Llmxabe.Server.Delivery

/-- How far a handler has come with its request. -/
inductive Phase where
  | unused
  | named
  | entered
  | placed (worker : ℕ)
  | refused
  deriving DecidableEq

/-- The worker the request of a handler was placed on. -/
def Phase.worker : Phase → Option ℕ
  | .placed w => some w
  | _ => none

/-- What a loop holds of a step it took. -/
structure StepOutput where
  generated : List (ℕ × ℕ)
  completed : List ℕ
  stopped : List ℕ

namespace StepOutput

/-- Why a request of the step has completed. -/
def reason (out : StepOutput) (id : ℕ) : EngineFinish :=
  if id ∈ out.stopped then .eos else .length

end StepOutput

/-- The clients, and what they were sent. -/
structure Clients where
  entries : Finset ℕ
  /-- The receiver was dropped. -/
  gone : ℕ → Bool
  inbox : ℕ → List ClientEvent

namespace Clients

/-- `client.send`: fails once the receiver is gone. -/
def send (c : Clients) (id : ℕ) (event : ClientEvent) : Clients :=
  if c.gone id then c
  else { c with inbox := Function.update c.inbox id (c.inbox id ++ [event]) }

/-- A token of a step is for a client in the map whose receiver is gone. -/
def disconnected (c : Clients) (id : ℕ) : Bool := decide (id ∈ c.entries) && c.gone id

/-- A token of a step is sent to its client; a client that is gone leaves the map. -/
def deliver (c : Clients) (id token : ℕ) : Clients :=
  if c.disconnected id then { c with entries := c.entries.erase id }
  else if id ∈ c.entries then c.send id (.token token)
  else c

/-- A request of a step has completed. -/
def complete (c : Clients) (reason : EngineFinish) (id : ℕ) : Clients :=
  if id ∈ c.entries then { c with entries := c.entries.erase id }.send id (.done reason)
  else c

/-- Every client is told that the step failed. -/
def drain (c : Clients) (message : String) : Clients where
  entries := ∅
  gone := c.gone
  inbox := fun id =>
    if id ∈ c.entries ∧ c.gone id = false then c.inbox id ++ [.error message] else c.inbox id

section Lemmas

variable {c : Clients} {id id' token : ℕ} {reason : EngineFinish}

@[simp] theorem send_entries (event : ClientEvent) : (c.send id event).entries = c.entries := by
  unfold send; split <;> rfl

@[simp] theorem gone_send (event : ClientEvent) : (c.send id event).gone = c.gone := by
  unfold send; split <;> rfl

@[simp] theorem gone_deliver : (c.deliver id token).gone = c.gone := by
  unfold deliver
  split
  · rfl
  · split <;> simp

@[simp] theorem gone_complete : (c.complete reason id).gone = c.gone := by
  unfold complete; split <;> simp

theorem send_inbox_of_ne (hne : id' ≠ id) (event : ClientEvent) :
    (c.send id' event).inbox id = c.inbox id := by
  unfold send
  split
  · rfl
  · exact Function.update_of_ne hne.symm _ _

theorem send_inbox (event : ClientEvent) :
    (c.send id event).inbox id = if c.gone id then c.inbox id else c.inbox id ++ [event] := by
  unfold send
  split
  · rfl
  · exact Function.update_self _ _ _

@[simp] theorem deliver_outside (hout : id ∉ c.entries) : c.deliver id token = c := by
  simp [deliver, disconnected, hout]

@[simp] theorem complete_outside (hout : id ∉ c.entries) : c.complete reason id = c := by
  simp [complete, hout]

theorem deliver_gone (hin : id ∈ c.entries) (hgone : c.gone id = true) :
    c.deliver id token = { c with entries := c.entries.erase id } := by
  simp [deliver, disconnected, hin, hgone]

theorem deliver_listening (hin : id ∈ c.entries) (hgone : c.gone id = false) :
    c.deliver id token = c.send id (.token token) := by
  simp [deliver, disconnected, hin, hgone]

theorem deliver_inbox_of_ne (hne : id' ≠ id) : (c.deliver id' token).inbox id = c.inbox id := by
  unfold deliver
  split
  · rfl
  · split
    · exact send_inbox_of_ne hne _
    · rfl

theorem deliver_entries_of_ne (hne : id' ≠ id) :
    id ∈ (c.deliver id' token).entries ↔ id ∈ c.entries := by
  unfold deliver
  split
  · simp [hne.symm]
  · split <;> simp

theorem complete_inbox_of_ne (hne : id' ≠ id) :
    (c.complete reason id').inbox id = c.inbox id := by
  unfold complete
  split
  · exact send_inbox_of_ne hne _
  · rfl

theorem complete_entries_of_ne (hne : id' ≠ id) :
    id ∈ (c.complete reason id').entries ↔ id ∈ c.entries := by
  unfold complete
  split
  · simp [hne.symm]
  · rfl

theorem complete_entries : id ∉ (c.complete reason id).entries := by
  unfold complete
  split
  · simp
  · assumption

end Lemmas

end Clients

/-- The map of the clients, what the loops hold, and what the engine knows. -/
structure Server where
  nextId : ℕ
  clients : Clients
  /-- Which loop holds the lock of the map. -/
  holder : Option ℕ
  carrying : ℕ → Option StepOutput
  /-- The requests a loop still has to cancel. -/
  dropping : ℕ → List ℕ
  phase : ℕ → Phase
  finished : ℕ → Option EngineFinish
  cancelled : ℕ → Bool
  emitted : ℕ → List ℕ

namespace Server

/-- No client, no request, and every loop idle. -/
def start : Server where
  nextId := 1
  clients := ⟨∅, fun _ => false, fun _ => []⟩
  holder := none
  carrying := fun _ => none
  dropping := fun _ => []
  phase := fun _ => .unused
  finished := fun _ => none
  cancelled := fun _ => false
  emitted := fun _ => []

/-- The worker that a request was placed on. -/
def placed (s : Server) (id : ℕ) : Option ℕ := (s.phase id).worker

/-- The worker runs the request. -/
structure Runs (s : Server) (w id : ℕ) : Prop where
  placed_eq : s.placed id = some w
  not_finished : s.finished id = none
  not_cancelled : s.cancelled id = false

/-- The tokens of one request in a step. -/
def tokensOf (id : ℕ) (generated : List (ℕ × ℕ)) : List ℕ :=
  (generated.filter fun p => p.1 = id).map Prod.snd

/-- How far a handler has come. -/
@[simps]
def setPhase (s : Server) (id : ℕ) (phase : Phase) : Server :=
  { s with phase := Function.update s.phase id phase }

/-- What the loop of a worker still has to hand out of a step. -/
@[simps]
def carry (s : Server) (w : ℕ) (out : Option StepOutput) : Server :=
  { s with carrying := Function.update s.carrying w out }

/-- What the loop of a worker still has to cancel. -/
@[simps]
def setDropping (s : Server) (w : ℕ) (ids : List ℕ) : Server :=
  { s with dropping := Function.update s.dropping w ids }

/-- The engine lets go of a request that a worker has; it does not know any other. -/
def cancel (s : Server) (id : ℕ) : Server :=
  if (s.placed id).isSome && (s.finished id).isNone then
    { s with cancelled := Function.update s.cancelled id true }
  else s

/-- The engine steps a worker. -/
@[simps]
def take (s : Server) (out : StepOutput) : Server :=
  { s with
    finished := fun id => if id ∈ out.completed then some (out.reason id) else s.finished id
    emitted := fun id => s.emitted id ++ tokensOf id out.generated }

/-- One action of a handler, a loop or a client. -/
inductive Action where
  | name
  | enter (id : ℕ)
  | place (id worker : ℕ)
  | refuse (id : ℕ)
  | reject (id : ℕ)
  | step (worker : ℕ) (out : StepOutput)
  | lock (worker : ℕ)
  | token (worker : ℕ)
  | completion (worker : ℕ)
  | unlock (worker : ℕ)
  | fail (worker : ℕ) (message : String)
  | cancel (worker : ℕ)
  | hangUp (id : ℕ)
  | release (id : ℕ)

/-- What the handlers, the loops and the clients can do. -/
inductive Step : Server → Action → Server → Prop
  | name {s : Server} :
      Step s .name ({ s with nextId := s.nextId + 1 }.setPhase s.nextId .named)
  /-- A handler enters its client, before the request reaches the engine. -/
  | enter {s : Server} {id : ℕ} (hlock : s.holder = none) (hphase : s.phase id = .named) :
      Step s (.enter id) ({ s with
        clients := { s.clients with entries := insert id s.clients.entries } }.setPhase id .entered)
  | place {s : Server} {id w : ℕ} (hphase : s.phase id = .entered) :
      Step s (.place id w) (s.setPhase id (.placed w))
  | refuse {s : Server} {id : ℕ} (hphase : s.phase id = .entered) :
      Step s (.refuse id) (s.setPhase id .refused)
  /-- The engine refused the request, and its client leaves the map. -/
  | reject {s : Server} {id : ℕ} (hlock : s.holder = none) (hphase : s.phase id = .refused) :
      Step s (.reject id)
        { s with clients := { s.clients with entries := s.clients.entries.erase id } }
  /-- A loop steps its worker. -/
  | step {s : Server} {w : ℕ} {out : StepOutput} (hidle : s.carrying w = none)
      (hdropped : s.dropping w = [])
      (hgenerated : ∀ p ∈ out.generated, s.Runs w p.1)
      (hcompleted : ∀ id ∈ out.completed, s.Runs w id) :
      Step s (.step w out) ((s.take out).carry w (some out))
  | lock {s : Server} {w : ℕ} {out : StepOutput} (hlock : s.holder = none)
      (hcarry : s.carrying w = some out) : Step s (.lock w) { s with holder := some w }
  | token {s : Server} {w : ℕ} {out : StepOutput} {p : ℕ × ℕ} {more : List (ℕ × ℕ)}
      (hlock : s.holder = some w) (hcarry : s.carrying w = some out)
      (hnext : out.generated = p :: more) :
      Step s (.token w)
        ((({ s with clients := s.clients.deliver p.1 p.2 }.carry w
          (some { out with generated := more })).setDropping w
          (if s.clients.disconnected p.1 then s.dropping w ++ [p.1] else s.dropping w)))
  | completion {s : Server} {w id : ℕ} {out : StepOutput} {more : List ℕ}
      (hlock : s.holder = some w) (hcarry : s.carrying w = some out)
      (hgenerated : out.generated = []) (hnext : out.completed = id :: more) :
      Step s (.completion w) ({ s with
        clients := s.clients.complete (out.reason id) id }.carry w
          (some { out with completed := more }))
  | unlock {s : Server} {w : ℕ} {out : StepOutput} (hlock : s.holder = some w)
      (hcarry : s.carrying w = some out) (hgenerated : out.generated = [])
      (hcompleted : out.completed = []) :
      Step s (.unlock w) ({ s with holder := none }.carry w none)
  /-- A step failed: every client is told, whichever worker serves it. -/
  | fail {s : Server} {w : ℕ} {message : String} {failed : List ℕ} (hlock : s.holder = none)
      (hidle : s.carrying w = none) (hdropped : s.dropping w = [])
      (hfailed : ∀ id, id ∈ failed ↔ id ∈ s.clients.entries) :
      Step s (.fail w message)
        ({ s with clients := s.clients.drain message }.setDropping w failed)
  /-- With the lock free, a loop cancels the requests whose clients it removed. -/
  | cancel {s : Server} {w id : ℕ} {more : List ℕ} (hidle : s.carrying w = none)
      (hdropped : s.dropping w = id :: more) :
      Step s (.cancel w) ((s.cancel id).setDropping w more)
  /-- The response is dropped, and its receiver with it. -/
  | hangUp {s : Server} {id w : ℕ} (hphase : s.phase id = .placed w) :
      Step s (.hangUp id)
        { s with clients := { s.clients with gone := Function.update s.clients.gone id true } }
  /-- The guard of a response cancels its request, at a stop sequence or when it is dropped. -/
  | release {s : Server} {id w : ℕ} (hphase : s.phase id = .placed w) :
      Step s (.release id) (s.cancel id)

/-! ### What a client sees -/

/-- The tokens of a request that its loop still has to hand out. -/
def pendingTokens (s : Server) (id : ℕ) : List ℕ :=
  (((s.placed id).bind s.carrying).map fun out => tokensOf id out.generated).getD []

/-- The request is among those its loop still has to report as completed. -/
def Completing (s : Server) (id : ℕ) : Prop :=
  ∃ w out, s.phase id = .placed w ∧ s.carrying w = some out ∧ id ∈ out.completed

/-- What the client of a request was sent: tokens as the engine emitted them, then at most
one event that ends the stream. -/
structure Served (s : Server) (id : ℕ) (tokens : List ℕ) (ending : List ClientEvent) : Prop where
  inbox_eq : s.clients.inbox id = tokens.map .token ++ ending
  tokens_prefix : tokens <+: s.emitted id
  /-- While the client is in the map nothing is lost and nothing has ended. -/
  waiting : id ∈ s.clients.entries → ending = [] ∧ tokens ++ s.pendingTokens id = s.emitted id
  ended : ending = [] ∨ (∃ message, ending = [.error message]) ∨
    ∃ reason, ending = [.done reason] ∧ tokens = s.emitted id ∧ s.finished id = some reason

/-- The books of the loops and the handlers. -/
structure Books (s : Server) : Prop where
  fresh : ∀ id, s.nextId ≤ id → s.phase id = .unused
  unplaced : ∀ id, s.placed id = none → s.emitted id = [] ∧ s.finished id = none
  generated : ∀ w out, s.carrying w = some out → ∀ p ∈ out.generated, s.placed p.1 = some w
  completed : ∀ w out, s.carrying w = some out → ∀ id ∈ out.completed,
    s.placed id = some w ∧ s.finished id = some (out.reason id)
  absent : ∀ id, s.phase id = .unused ∨ s.phase id = .named →
    id ∉ s.clients.entries ∧ s.clients.inbox id = []

section Lemmas

variable {s s' : Server} {id w : ℕ} {out : StepOutput} {l : Action}

@[simp] theorem worker_eq_some {phase : Phase} : phase.worker = some w ↔ phase = .placed w := by
  cases phase <;> simp [Phase.worker]

@[simp] theorem worker_eq_none {phase : Phase} :
    phase.worker = none ↔ ∀ w, phase ≠ .placed w := by
  cases phase <;> simp [Phase.worker]

theorem placed_eq_some : s.placed id = some w ↔ s.phase id = .placed w := worker_eq_some

theorem cancel_eq : s.cancel id = { s with cancelled := (s.cancel id).cancelled } := by
  unfold cancel; split <;> rfl

@[simp] theorem cancel_clients : (s.cancel id).clients = s.clients := by rw [cancel_eq]

@[simp] theorem cancel_nextId : (s.cancel id).nextId = s.nextId := by rw [cancel_eq]

@[simp] theorem cancel_carrying : (s.cancel id).carrying = s.carrying := by rw [cancel_eq]

@[simp] theorem cancel_dropping : (s.cancel id).dropping = s.dropping := by rw [cancel_eq]

@[simp] theorem cancel_phase : (s.cancel id).phase = s.phase := by rw [cancel_eq]

@[simp] theorem cancel_finished : (s.cancel id).finished = s.finished := by rw [cancel_eq]

@[simp] theorem cancel_emitted : (s.cancel id).emitted = s.emitted := by rw [cancel_eq]

/-- The phase of a request moves with its handler only, and stays once it is placed. -/
theorem Step.phase_placed (hstep : Step s l s') (hfresh : ∀ id, s.nextId ≤ id → s.phase id = .unused)
    (h : s.phase id = .placed w) : s'.phase id = .placed w := by
  have hkeep : ∀ id' phase, s.phase id' ≠ .placed w →
      Function.update s.phase id' phase id = .placed w := by
    intro id' phase hne
    rw [Function.update_of_ne (by rintro rfl; exact hne h), h]
  cases hstep with
  | name => exact hkeep _ _ (by simp [hfresh])
  | enter _ hold => exact hkeep _ _ (by simp [hold])
  | place hold => exact hkeep _ _ (by simp [hold])
  | refuse hold => exact hkeep _ _ (by simp [hold])
  | _ => simpa using h

theorem Books.fresh_step (hb : Books s) (hstep : Step s l s') (hid : s'.nextId ≤ id) :
    s'.phase id = .unused := by
  have hkeep : ∀ id' phase, s.nextId ≤ id → s.phase id' ≠ .unused →
      Function.update s.phase id' phase id = .unused := by
    intro id' phase hid hne
    rw [Function.update_of_ne (by rintro rfl; exact hne (hb.fresh _ hid)), hb.fresh id hid]
  cases hstep with
  | name =>
    have hlt : s.nextId < id := hid
    simp [Function.update_of_ne hlt.ne', hb.fresh id hlt.le]
  | enter _ hold => exact hkeep _ _ hid (by simp [hold])
  | place hold => exact hkeep _ _ hid (by simp [hold])
  | refuse hold => exact hkeep _ _ hid (by simp [hold])
  | _ => simpa using hb.fresh id (by simpa using hid)

theorem tokensOf_eq_nil {generated : List (ℕ × ℕ)} (h : ∀ p ∈ generated, p.1 ≠ id) :
    tokensOf id generated = [] := by
  simpa [tokensOf, List.filter_eq_nil_iff] using fun a b hab => h (a, b) hab

/-- What a loop holds it held before the action, but for what it handed out, or it took the
step just now. -/
theorem Step.carrying (hstep : Step s l s') {out' : StepOutput} (h : s'.carrying w = some out') :
    (∃ out, s.carrying w = some out ∧ out'.generated ⊆ out.generated ∧
      out'.completed ⊆ out.completed ∧ out'.stopped = out.stopped) ∨
    l = .step w out' ∧ (∀ p ∈ out'.generated, s.Runs w p.1) ∧ ∀ id ∈ out'.completed, s.Runs w id := by
  have hkeep : s.carrying w = some out' → ∃ out, s.carrying w = some out ∧
      out'.generated ⊆ out.generated ∧ out'.completed ⊆ out.completed ∧
      out'.stopped = out.stopped :=
    fun h => ⟨out', h, List.Subset.refl _, List.Subset.refl _, rfl⟩
  cases hstep with
  | @step w' out hidle hdropped hgenerated hcompleted =>
    rcases eq_or_ne w w' with rfl | hne
    · obtain rfl : out = out' := by simpa using h
      exact .inr ⟨rfl, hgenerated, hcompleted⟩
    · exact .inl (hkeep (by simpa [hne] using h))
  | @token w' out p more hlock hcarry hnext =>
    rcases eq_or_ne w w' with rfl | hne
    · obtain rfl : _ = out' := by simpa using h
      exact .inl ⟨out, hcarry, by simp [hnext], List.Subset.refl _, rfl⟩
    · exact .inl (hkeep (by simpa [hne] using h))
  | @completion w' id out more hlock hcarry hgenerated hnext =>
    rcases eq_or_ne w w' with rfl | hne
    · obtain rfl : _ = out' := by simpa using h
      exact .inl ⟨out, hcarry, List.Subset.refl _, by simp [hnext], rfl⟩
    · exact .inl (hkeep (by simpa [hne] using h))
  | @unlock w' =>
    rcases eq_or_ne w w' with rfl | hne
    · simp at h
    · exact .inl (hkeep (by simpa [hne] using h))
  | _ => exact .inl (hkeep (by simpa using h))

/-- A completed request emits nothing more, and the reason stays. -/
theorem Step.finished_stays (hstep : Step s l s') {reason : EngineFinish}
    (h : s.finished id = some reason) :
    s'.finished id = some reason ∧ s'.emitted id = s.emitted id := by
  cases hstep with
  | @step w out hidle hdropped hgenerated hcompleted =>
    have hnotin : id ∉ out.completed := by
      intro hmem
      simpa [h] using (hcompleted id hmem).not_finished
    have hsilent : tokensOf id out.generated = [] := by
      refine tokensOf_eq_nil ?_
      rintro p hp rfl
      simpa [h] using (hgenerated p hp).not_finished
    simp [hnotin, hsilent, h]
  | _ => simp [h]

/-- Only the requests placed on a worker are touched by its steps. -/
theorem Step.unplaced (hstep : Step s l s') (h : s.placed id = none) :
    s'.emitted id = s.emitted id ∧ s'.finished id = s.finished id := by
  cases hstep with
  | @step w out hidle hdropped hgenerated hcompleted =>
    have hnotin : id ∉ out.completed := by
      intro hmem
      simpa [h] using (hcompleted id hmem).placed_eq
    have hsilent : tokensOf id out.generated = [] := by
      refine tokensOf_eq_nil ?_
      rintro p hp rfl
      simpa [h] using (hgenerated p hp).placed_eq
    simp [hnotin, hsilent]
  | _ => simp

theorem Step.emitted_prefix (hstep : Step s l s') : s.emitted id <+: s'.emitted id := by
  cases hstep with
  | step => exact List.prefix_append _ _
  | _ => simp

theorem Step.phase_absent (hstep : Step s l s') (hfresh : ∀ id, s.nextId ≤ id → s.phase id = .unused)
    (h : s'.phase id = .unused ∨ s'.phase id = .named) :
    s.phase id = .unused ∨ s.phase id = .named := by
  have hkeep : ∀ id' phase, phase ≠ .unused ∧ phase ≠ .named →
      (s.setPhase id' phase).phase id = .unused ∨ (s.setPhase id' phase).phase id = .named →
      s.phase id = .unused ∨ s.phase id = .named := by
    intro id' phase hne h
    rcases eq_or_ne id id' with rfl | hother
    · simp [hne] at h
    · simpa [hother] using h
  cases hstep with
  | name =>
    rcases eq_or_ne id s.nextId with rfl | hother
    · exact .inl (hfresh _ le_rfl)
    · simpa [hother] using h
  | enter => exact hkeep _ _ (by simp) h
  | place => exact hkeep _ _ (by simp) h
  | refuse => exact hkeep _ _ (by simp) h
  | _ => simpa using h

/-- A client outside the map is sent nothing, and only its handler puts it in. -/
theorem Step.outside (hstep : Step s l s') (hout : id ∉ s.clients.entries) :
    s'.clients.inbox id = s.clients.inbox id ∧
      (id ∈ s'.clients.entries → s.phase id = .named ∧ s'.phase id = .entered) := by
  cases hstep with
  | @enter id' hlock hphase =>
    refine ⟨rfl, fun hin => ?_⟩
    obtain rfl : id = id' := by simpa [hout] using hin
    simp [hphase]
  | reject => exact ⟨rfl, fun hin => absurd (Finset.mem_of_mem_erase hin) hout⟩
  | @token w out p =>
    rcases eq_or_ne p.1 id with rfl | hne
    · exact ⟨by simp [hout], fun hin => by simp [hout] at hin⟩
    · refine ⟨Clients.deliver_inbox_of_ne hne, fun hin => ?_⟩
      exact absurd ((Clients.deliver_entries_of_ne hne).mp hin) hout
  | @completion w id' =>
    rcases eq_or_ne id' id with rfl | hne
    · exact ⟨by simp [hout], fun hin => by simp [hout] at hin⟩
    · refine ⟨Clients.complete_inbox_of_ne hne, fun hin => ?_⟩
      exact absurd ((Clients.complete_entries_of_ne hne).mp hin) hout
  | fail => exact ⟨if_neg fun h => hout h.1, fun hin => absurd hin (Finset.notMem_empty _)⟩
  | _ => exact ⟨by simp, fun hin => absurd (by simpa using hin) hout⟩

theorem books_start : Books start where
  fresh _ _ := rfl
  unplaced _ _ := ⟨rfl, rfl⟩
  generated _ _ h := by cases h
  completed _ _ h := by cases h
  absent _ _ := ⟨Finset.notMem_empty _, rfl⟩

theorem Books.step (hb : Books s) (hstep : Step s l s') : Books s' where
  fresh id hid := hb.fresh_step hstep hid
  unplaced id hid := by
    have hbefore : s.placed id = none := by
      simp only [placed, worker_eq_none] at hid ⊢
      exact fun w h => hid w (hstep.phase_placed hb.fresh h)
    obtain ⟨hemitted, hfinished⟩ := hstep.unplaced hbefore
    rw [hemitted, hfinished]
    exact hb.unplaced id hbefore
  generated w out' h p hp := by
    rcases hstep.carrying h with ⟨out, hout, hsub, -⟩ | ⟨-, hruns, -⟩
    · exact placed_eq_some.mpr
        (hstep.phase_placed hb.fresh (placed_eq_some.mp (hb.generated w out hout p (hsub hp))))
    · exact placed_eq_some.mpr
        (hstep.phase_placed hb.fresh (placed_eq_some.mp (hruns p hp).placed_eq))
  completed w out' h id hid := by
    rcases hstep.carrying h with ⟨out, hout, -, hsub, hstopped⟩ | ⟨rfl, -, hruns⟩
    · obtain ⟨hplaced, hfinished⟩ := hb.completed w out hout id (hsub hid)
      refine ⟨placed_eq_some.mpr (hstep.phase_placed hb.fresh (placed_eq_some.mp hplaced)), ?_⟩
      rw [(hstep.finished_stays hfinished).1, StepOutput.reason, StepOutput.reason, hstopped]
    · refine ⟨placed_eq_some.mpr
        (hstep.phase_placed hb.fresh (placed_eq_some.mp (hruns id hid).placed_eq)), ?_⟩
      cases hstep with
      | step => simp [hid]
  absent id hid := by
    obtain ⟨hout, hinbox⟩ := hb.absent id (hstep.phase_absent hb.fresh hid)
    obtain ⟨hsame, hentered⟩ := hstep.outside hout
    refine ⟨fun hin => ?_, hsame.trans hinbox⟩
    rw [(hentered hin).2] at hid
    simp at hid

/-- What is left to hand out to the client of a placed request. -/
theorem pendingTokens_placed (h : s.phase id = .placed w) :
    s.pendingTokens id = ((s.carrying w).map fun out => tokensOf id out.generated).getD [] := by
  simp [pendingTokens, placed_eq_some.mpr h]

theorem pendingTokens_unplaced (h : s.placed id = none) : s.pendingTokens id = [] := by
  simp [pendingTokens, h]

theorem pendingTokens_idle (h : s.phase id = .placed w) (hidle : s.carrying w = none) :
    s.pendingTokens id = [] := by
  simp [pendingTokens_placed h, hidle]

theorem pendingTokens_carrying (h : s.phase id = .placed w) (hcarry : s.carrying w = some out) :
    s.pendingTokens id = tokensOf id out.generated := by
  simp [pendingTokens_placed h, hcarry]

theorem pendingTokens_carry (h : s.phase id = .placed w) (out : StepOutput) :
    (s.carry w (some out)).pendingTokens id = tokensOf id out.generated :=
  pendingTokens_carrying h (by simp)

theorem pendingTokens_congr (hphase : s'.phase id = s.phase id)
    (hcarry : ∀ w, s.phase id = .placed w → s'.carrying w = s.carrying w) :
    s'.pendingTokens id = s.pendingTokens id := by
  have hplaced : s'.placed id = s.placed id := by simp [placed, hphase]
  cases h : s.placed id with
  | none => rw [pendingTokens_unplaced h, pendingTokens_unplaced (hplaced.trans h)]
  | some w =>
    have hw := placed_eq_some.mp h
    rw [pendingTokens_placed hw, pendingTokens_placed (hphase.trans hw), hcarry w hw]

theorem Served.left {tokens : List ℕ} {ending : List ClientEvent} (h : Served s id tokens ending)
    (hstep : Step s l s') (hinbox : s'.clients.inbox id = s.clients.inbox id)
    (hout : id ∉ s'.clients.entries) : Served s' id tokens ending where
  inbox_eq := hinbox.trans h.inbox_eq
  tokens_prefix := h.tokens_prefix.trans hstep.emitted_prefix
  waiting hin := absurd hin hout
  ended := by
    refine h.ended.imp_right (Or.imp_right ?_)
    rintro ⟨reason, hending, htokens, hfinished⟩
    obtain ⟨hfinished', hemitted⟩ := hstep.finished_stays hfinished
    exact ⟨reason, hending, htokens.trans hemitted.symm, hfinished'⟩

/-- A request that is not placed is in no step. -/
theorem Books.tokensOf_unplaced (hb : Books s) (h : s.placed id = none)
    (hcarry : s.carrying w = some out) : tokensOf id out.generated = [] := by
  refine tokensOf_eq_nil ?_
  rintro p hp rfl
  simpa [h] using hb.generated w out hcarry p hp

theorem Books.pendingTokens_setPhase (hb : Books s) {id' : ℕ} (h : s.placed id' = none)
    (phase : Phase) : (s.setPhase id' phase).pendingTokens id = s.pendingTokens id := by
  rcases eq_or_ne id id' with rfl | hne
  · rw [pendingTokens_unplaced h]
    cases hphase : (s.setPhase id phase).placed id with
    | none => exact pendingTokens_unplaced hphase
    | some w =>
      rw [pendingTokens_placed (placed_eq_some.mp hphase)]
      cases hcarry : s.carrying w with
      | none => simp [hcarry]
      | some out => simp [hcarry, hb.tokensOf_unplaced h hcarry]
  · exact pendingTokens_congr (by simp [hne]) fun _ _ => rfl

theorem Served.still {tokens : List ℕ} (h : Served s id tokens [])
    (hinbox : s'.clients.inbox id = s.clients.inbox id)
    (hwait : tokens ++ s'.pendingTokens id = s'.emitted id) : Served s' id tokens [] where
  inbox_eq := hinbox.trans h.inbox_eq
  tokens_prefix := ⟨_, hwait⟩
  waiting _ := ⟨rfl, hwait⟩
  ended := .inl rfl

/-- An action that hands out nothing and takes no step. -/
theorem Served.quiet {tokens : List ℕ} (h : Served s id tokens []) (hin : id ∈ s.clients.entries)
    (hinbox : s'.clients.inbox id = s.clients.inbox id)
    (hpending : s'.pendingTokens id = s.pendingTokens id) (hemitted : s'.emitted id = s.emitted id) :
    Served s' id tokens [] :=
  h.still hinbox (by rw [hpending, hemitted, (h.waiting hin).2])

theorem pendingTokens_carry_of_ne (hne : s.placed id ≠ some w) (out : Option StepOutput) :
    (s.carry w out).pendingTokens id = s.pendingTokens id := by
  refine pendingTokens_congr rfl fun w' hw' => ?_
  have hother : w' ≠ w := by
    rintro rfl
    exact hne (placed_eq_some.mpr hw')
  simp [hother]

/-- A loop steps its worker: what the step says of the request is what is now to be handed
out. -/
theorem pendingTokens_take (hidle : s.carrying w = none)
    (hruns : ∀ p ∈ out.generated, s.Runs w p.1) :
    ((s.take out).carry w (some out)).pendingTokens id =
      s.pendingTokens id ++ tokensOf id out.generated := by
  by_cases hplaced : s.placed id = some w
  · have hphase := placed_eq_some.mp hplaced
    rw [pendingTokens_idle hphase hidle, List.nil_append]
    exact pendingTokens_carry hphase _
  · have hsilent : tokensOf id out.generated = [] := by
      refine tokensOf_eq_nil ?_
      rintro p hp rfl
      exact hplaced (hruns p hp).placed_eq
    rw [hsilent, List.append_nil]
    exact pendingTokens_carry_of_ne hplaced _

/-- A client that enters the map has been sent nothing. -/
theorem Books.served_entered (hb : Books s) (hstep : Step s l s') (hout : id ∉ s.clients.entries)
    (hin : id ∈ s'.clients.entries) : Served s' id [] [] := by
  obtain ⟨hsame, hentered⟩ := hstep.outside hout
  obtain ⟨hnamed, hphase⟩ := hentered hin
  have hinbox : s'.clients.inbox id = [] := hsame.trans (hb.absent id (.inr hnamed)).2
  have hplaced : s'.placed id = none := by simp [placed, hphase]
  have hemitted : s'.emitted id = [] := ((hb.step hstep).unplaced id hplaced).1
  exact {
    inbox_eq := hinbox
    tokens_prefix := List.nil_prefix
    waiting := fun _ => ⟨rfl, by rw [pendingTokens_unplaced hplaced, hemitted]; rfl⟩
    ended := .inl rfl }

theorem pendingTokens_carry_congr (hcarry : s.carrying w = some out) {out' : StepOutput}
    (hsame : tokensOf id out'.generated = tokensOf id out.generated) :
    (s.carry w (some out')).pendingTokens id = s.pendingTokens id := by
  by_cases hplaced : s.placed id = some w
  · have hphase := placed_eq_some.mp hplaced
    rw [pendingTokens_carrying hphase hcarry, ← hsame]
    exact pendingTokens_carry hphase _
  · exact pendingTokens_carry_of_ne hplaced _

theorem Served.deliver (hb : Books s) (hstep : Step s l s') {p : ℕ × ℕ} {more : List (ℕ × ℕ)}
    (hcarry : s.carrying w = some out) (hnext : out.generated = p :: more) {tokens : List ℕ}
    (h : Served s id tokens []) (hin : id ∈ s.clients.entries)
    (hclients : s'.clients = s.clients.deliver p.1 p.2)
    (hpending : s'.pendingTokens id =
      (s.carry w (some { out with generated := more })).pendingTokens id)
    (hemitted : s'.emitted id = s.emitted id) : ∃ tokens', Served s' id tokens' [] := by
  rcases eq_or_ne p.1 id with rfl | hne
  · cases hgone : s.clients.gone p.1 with
    | true =>
      rw [Clients.deliver_gone hin hgone] at hclients
      exact ⟨tokens, h.left hstep (by rw [hclients]) (by simp [hclients])⟩
    | false =>
      rw [Clients.deliver_listening hin hgone] at hclients
      have hplaced : s.phase p.1 = .placed w :=
        placed_eq_some.mp (hb.generated w out hcarry p (by simp [hnext]))
      have hbefore : s.pendingTokens p.1 = p.2 :: tokensOf p.1 more := by
        rw [pendingTokens_carrying hplaced hcarry]
        simp [tokensOf, hnext]
      have hafter : s'.pendingTokens p.1 = tokensOf p.1 more := by
        rw [hpending]
        exact pendingTokens_carry hplaced _
      have hall : (tokens ++ [p.2]) ++ s'.pendingTokens p.1 = s'.emitted p.1 := by
        rw [hafter, hemitted, ← (h.waiting hin).2, hbefore]
        simp
      refine ⟨tokens ++ [p.2], ⟨?_, ⟨_, hall⟩, fun _ => ⟨rfl, hall⟩, .inl rfl⟩⟩
      rw [hclients, Clients.send_inbox, hgone, h.inbox_eq]
      simp
  · refine ⟨tokens, h.quiet hin (by rw [hclients, Clients.deliver_inbox_of_ne hne]) ?_ hemitted⟩
    rw [hpending]
    exact pendingTokens_carry_congr hcarry (by simp [tokensOf, hnext, hne])

theorem Served.complete (hb : Books s) (hstep : Step s l s') {id' : ℕ} {more : List ℕ}
    (hcarry : s.carrying w = some out) (hgenerated : out.generated = [])
    (hnext : out.completed = id' :: more) {tokens : List ℕ}
    (h : Served s id tokens []) (hin : id ∈ s.clients.entries)
    (hclients : s'.clients = s.clients.complete (out.reason id') id')
    (hpending : s'.pendingTokens id =
      (s.carry w (some { out with completed := more })).pendingTokens id)
    (hemitted : s'.emitted id = s.emitted id) : ∃ ending, Served s' id tokens ending := by
  rcases eq_or_ne id' id with rfl | hne
  · have hout : id' ∉ s'.clients.entries := by
      rw [hclients]
      exact Clients.complete_entries
    have hinbox : s'.clients.inbox id' = if s.clients.gone id' then s.clients.inbox id'
        else s.clients.inbox id' ++ [.done (out.reason id')] := by
      rw [hclients, Clients.complete, if_pos hin, Clients.send_inbox]
    cases hgone : s.clients.gone id' with
    | true => exact ⟨[], h.left hstep (by simp [hinbox, hgone]) hout⟩
    | false =>
      obtain ⟨hplaced, hfinished⟩ := hb.completed w out hcarry id' (by simp [hnext])
      -- its loop has nothing left to hand out, so the client has every token
      have hall : tokens = s.emitted id' := by
        rw [← (h.waiting hin).2, pendingTokens_carrying (placed_eq_some.mp hplaced) hcarry,
          hgenerated]
        simp [tokensOf]
      refine ⟨[.done (out.reason id')], ?_, ?_, fun hin' => absurd hin' hout, ?_⟩
      · rw [hinbox, hgone, h.inbox_eq]
        simp
      · exact h.tokens_prefix.trans hstep.emitted_prefix
      · exact .inr (.inr ⟨_, rfl, hall.trans hemitted.symm, (hstep.finished_stays hfinished).1⟩)
  · refine ⟨[], h.quiet hin (by rw [hclients, Clients.complete_inbox_of_ne hne]) ?_ hemitted⟩
    rw [hpending]
    exact pendingTokens_carry_congr hcarry rfl

/-- One action, as the client of one request sees it. -/
theorem Served.step (hb : Books s) (hstep : Step s l s') {tokens : List ℕ}
    {ending : List ClientEvent} (h : Served s id tokens ending) :
    ∃ tokens' ending', Served s' id tokens' ending' := by
  -- a client without an entry gets one now, or keeps what it was told
  by_cases hin : id ∈ s.clients.entries
  swap
  · by_cases hin' : id ∈ s'.clients.entries
    · exact ⟨[], [], hb.served_entered hstep hin hin'⟩
    · exact ⟨tokens, ending, h.left hstep (hstep.outside hin).1 hin'⟩
  obtain ⟨rfl, hwait⟩ := h.waiting hin
  have hstep' := hstep
  cases hstep with
  | name =>
    have hnew : s.placed s.nextId = none := by simp [placed, hb.fresh]
    exact ⟨tokens, [], h.quiet hin rfl (hb.pendingTokens_setPhase hnew _) rfl⟩
  | @enter id' _ hphase =>
    have hnew : s.placed id' = none := by simp [placed, hphase]
    exact ⟨tokens, [], h.quiet hin rfl (hb.pendingTokens_setPhase hnew _) rfl⟩
  | @place id' _ hphase =>
    have hnew : s.placed id' = none := by simp [placed, hphase]
    exact ⟨tokens, [], h.quiet hin rfl (hb.pendingTokens_setPhase hnew _) rfl⟩
  | @refuse id' hphase =>
    have hnew : s.placed id' = none := by simp [placed, hphase]
    exact ⟨tokens, [], h.quiet hin rfl (hb.pendingTokens_setPhase hnew _) rfl⟩
  | reject => exact ⟨tokens, [], h.quiet hin rfl rfl rfl⟩
  -- a step puts the tokens of the batch in front of its worker
  | @step w out hidle hdropped hgenerated hcompleted =>
    refine ⟨tokens, [], h.still rfl ?_⟩
    rw [pendingTokens_take hidle hgenerated, ← List.append_assoc, hwait]
    rfl
  | lock => exact ⟨tokens, [], h.quiet hin rfl rfl rfl⟩
  -- the next token is sent, to this client or to another
  | token hlock hcarry hnext =>
    obtain ⟨tokens', h'⟩ := h.deliver hb hstep' hcarry hnext hin rfl rfl rfl
    exact ⟨tokens', [], h'⟩
  | completion hlock hcarry hgenerated hnext =>
    obtain ⟨ending, h'⟩ := h.complete hb hstep' hcarry hgenerated hnext hin rfl rfl rfl
    exact ⟨tokens, ending, h'⟩
  -- nothing is left to send for this worker
  | @unlock w out hlock hcarry hgenerated =>
    refine ⟨tokens, [], h.quiet hin rfl ?_ rfl⟩
    by_cases hplaced : s.placed id = some w
    · have hphase := placed_eq_some.mp hplaced
      rw [pendingTokens_carrying hphase hcarry, hgenerated]
      exact pendingTokens_idle hphase (by simp)
    · exact pendingTokens_carry_of_ne hplaced _
  -- a failure is the last thing any client in the map hears
  | @fail w message =>
    have hout : id ∉ (s.clients.drain message).entries := Finset.notMem_empty _
    cases hgone : s.clients.gone id with
    | true =>
      exact ⟨tokens, [], h.left hstep' (if_neg (by simp [hgone])) hout⟩
    | false =>
      refine ⟨tokens, [.error message], ?_, h.tokens_prefix, fun hin' => absurd hin' hout,
        .inr (.inl ⟨message, rfl⟩)⟩
      have hinbox := h.inbox_eq
      simp [Clients.drain, hin, hgone] at *
      exact hinbox
  | cancel => exact ⟨tokens, [], h.quiet hin (by simp) (pendingTokens_congr (by simp) (by simp)) (by simp)⟩
  | hangUp => exact ⟨tokens, [], h.quiet hin rfl rfl rfl⟩
  | release => exact ⟨tokens, [], h.quiet hin (by simp) (pendingTokens_congr (by simp) (by simp)) (by simp)⟩

/-- A completed request whose client is in the map stays about to be reported. -/
theorem Completing.step (hstep : Step s l s') (h : s.Completing id)
    (hfresh : ∀ id, s.nextId ≤ id → s.phase id = .unused) (hin : id ∈ s'.clients.entries) :
    s'.Completing id := by
  obtain ⟨w, out, hphase, hcarry, hmem⟩ := h
  have hphase' := hstep.phase_placed hfresh hphase
  have hkeep : s'.carrying w = s.carrying w → s'.Completing id :=
    fun hsame => ⟨w, out, hphase', hsame.trans hcarry, hmem⟩
  cases hstep with
  | @step w' out' hidle =>
    have hne : w ≠ w' := by
      rintro rfl
      simp [hcarry] at hidle
    exact hkeep (by simp [hne])
  | @token w' out' p more hlock hcarry' hnext =>
    rcases eq_or_ne w w' with rfl | hne
    · obtain rfl : out = out' := Option.some.inj (hcarry.symm.trans hcarry')
      exact ⟨w, { out with generated := more }, hphase', by simp, hmem⟩
    · exact hkeep (by simp [hne])
  | @completion w' id' out' more hlock hcarry' hgenerated hnext =>
    rcases eq_or_ne w w' with rfl | hne
    · obtain rfl : out = out' := Option.some.inj (hcarry.symm.trans hcarry')
      refine ⟨w, { out with completed := more }, hphase', by simp, ?_⟩
      rw [hnext, List.mem_cons] at hmem
      refine hmem.resolve_left ?_
      rintro rfl
      exact Clients.complete_entries hin
    · exact hkeep (by simp [hne])
  | @unlock w' out' hlock hcarry' hgenerated hcompleted =>
    have hne : w ≠ w' := by
      rintro rfl
      obtain rfl : out = out' := Option.some.inj (hcarry.symm.trans hcarry')
      simp [hcompleted] at hmem
    exact hkeep (by simp [hne])
  | _ => exact hkeep (by simp)

/-- A request that has just completed is about to be reported. -/
theorem Step.completing (hstep : Step s l s') (hbefore : s.finished id = none)
    (hafter : s'.finished id ≠ none) : s'.Completing id := by
  cases hstep with
  | @step w out hidle hdropped hgenerated hcompleted =>
    have hmem : id ∈ out.completed := by
      by_contra hnot
      simp [hnot, hbefore] at hafter
    have hphase := placed_eq_some.mp (hcompleted id hmem).placed_eq
    exact ⟨w, out, by simpa using hphase, by simp, hmem⟩
  | _ => simp [hbefore] at hafter

/-- What holds of the server whatever the handlers, the loops and the clients do. -/
structure Inv (s : Server) : Prop extends Books s where
  served : ∀ id, ∃ tokens ending, Served s id tokens ending
  /-- A client leaves the map when its request has completed. -/
  leaves : ∀ id, s.finished id ≠ none → id ∈ s.clients.entries → s.Completing id

theorem inv_start : Inv start where
  toBooks := books_start
  served id := by
    refine ⟨[], [], rfl, List.nil_prefix, fun hin => absurd hin (Finset.notMem_empty _), .inl rfl⟩
  leaves _ h := absurd rfl h

theorem Inv.step (hinv : Inv s) (hstep : Step s l s') : Inv s' where
  toBooks := hinv.toBooks.step hstep
  served id := by
    obtain ⟨tokens, ending, hserved⟩ := hinv.served id
    exact hserved.step hinv.toBooks hstep
  leaves id hfinished hin := by
    by_cases hbefore : s.finished id = none
    · exact hstep.completing hbefore hfinished
    · by_cases hin' : id ∈ s.clients.entries
      · exact (hinv.leaves id hbefore hin').step hstep hinv.fresh hin
      · -- its handler has just entered it, so no worker has the request
        have hphase := ((hstep.outside hin').2 hin).2
        have hplaced : s'.placed id = none := by simp [placed, hphase]
        exact absurd ((hinv.toBooks.step hstep).unplaced id hplaced).2 hfinished

theorem Inv.of_run {ls : List Action} (hrun : Run Step start ls s) : Inv s :=
  hrun.invariant inv_start fun hinv hstep => hinv.step hstep

/-- The request was cancelled, has completed, or a loop will cancel it. -/
def Dropped (s : Server) (id : ℕ) : Prop :=
  s.finished id ≠ none ∨ s.cancelled id = true ∨ ∃ w, id ∈ s.dropping w

/-- On the way to the state a step failed while the request waited to be placed: its client
was in the map, and was told of the failure and of nothing else. -/
structure ToldFirst (ls : List Action) (s : Server) (id : ℕ) (before : List Action) (w : ℕ)
    (message : String) (after : List Action) (t t' : Server) : Prop where
  split : ls = before ++ .fail w message :: after
  before : Run Step start before t
  failed : Step t (.fail w message) t'
  after : Run Step t' after s
  /-- The handler had entered its client and not yet placed its request. -/
  waiting : t.phase id = .entered
  listed : id ∈ t.clients.entries
  told : s.clients.inbox id = [.error message]

/-- A step failed before the request was placed. -/
def FailedFirst (ls : List Action) (s : Server) (id : ℕ) : Prop :=
  ∃ before w message after t t', s.ToldFirst ls id before w message after t t'

/-- A request outside the map is not left running. -/
structure Watched (ls : List Action) (s : Server) : Prop where
  hears : ∀ id, s.clients.gone id = true → s.placed id ≠ none
  entered : ∀ id, s.phase id = .entered → id ∉ s.clients.entries → s.FailedFirst ls id
  placed : ∀ id, s.placed id ≠ none → id ∉ s.clients.entries →
    s.Dropped id ∨ s.FailedFirst ls id

theorem watched_start : Watched [] start where
  hears _ h := by cases h
  entered _ h := by cases h
  placed _ h := absurd rfl h

/-- A client outside the map is told nothing more. -/
theorem FailedFirst.snoc {ls : List Action} (h : s.FailedFirst ls id) (hstep : Step s l s')
    (hout : id ∉ s.clients.entries) : s'.FailedFirst (ls ++ [l]) id := by
  obtain ⟨before, w, message, after, t, t', h⟩ := h
  refine ⟨before, w, message, after ++ [l], t, t', ?_, h.before, h.failed, h.after.snoc hstep,
    h.waiting, h.listed, ?_⟩
  · rw [h.split, List.append_assoc]
    rfl
  · rw [(hstep.outside hout).1, h.told]

theorem cancelled_cancel (hplaced : s.placed id ≠ none) :
    (s.cancel id).finished id ≠ none ∨ (s.cancel id).cancelled id = true := by
  by_cases hfinished : s.finished id = none
  · right
    simp [cancel, hfinished, Option.isSome_iff_ne_none.mpr hplaced]
  · left
    simpa using hfinished

theorem cancelled_mono {id' : ℕ} (h : s.cancelled id = true) :
    (s.cancel id').cancelled id = true := by
  unfold cancel
  split
  · rcases eq_or_ne id id' with rfl | hne
    · simp
    · simpa [hne] using h
  · exact h

theorem Step.cancelled_stays (hstep : Step s l s') (h : s.cancelled id = true) :
    s'.cancelled id = true := by
  cases hstep with
  | cancel => exact cancelled_mono h
  | release => exact cancelled_mono h
  | _ => exact h

theorem Dropped.step (hstep : Step s l s') (h : s.Dropped id) (hplaced : s.placed id ≠ none) :
    s'.Dropped id := by
  rcases h with hfinished | hcancelled | ⟨w, hmem⟩
  · obtain ⟨reason, hreason⟩ := Option.ne_none_iff_exists'.mp hfinished
    exact .inl (by simp [(hstep.finished_stays hreason).1])
  · exact .inr (.inl (hstep.cancelled_stays hcancelled))
  have hkeep : s.dropping w ⊆ s'.dropping w → s'.Dropped id :=
    fun hsub => .inr (.inr ⟨w, hsub hmem⟩)
  cases hstep with
  | @token w' out p =>
    refine hkeep ?_
    rcases eq_or_ne w w' with rfl | hne
    · by_cases hgone : s.clients.disconnected p.1 <;> simp [hgone]
    · simp [hne]
  | @fail w' message failed hlock hidle hdropped =>
    have hne : w ≠ w' := by
      rintro rfl
      simp [hdropped] at hmem
    exact hkeep (by simp [hne])
  | @cancel w' id' more hidle hdropped =>
    rcases eq_or_ne w w' with rfl | hne
    · rw [hdropped, List.mem_cons] at hmem
      rcases hmem with rfl | hmem
      · exact (cancelled_cancel hplaced).imp_right .inl
      · exact .inr (.inr ⟨w, by simpa using hmem⟩)
    · exact hkeep (by simp [hne])
  | _ => exact hkeep (by simp)

/-- Why a client leaves the map. -/
theorem Step.leaving (hb : Books s) (hstep : Step s l s') (hin : id ∈ s.clients.entries)
    (hout : id ∉ s'.clients.entries) :
    s.phase id = .refused ∨ (s.clients.gone id = true ∧ ∃ w, id ∈ s'.dropping w) ∨
      s.finished id ≠ none ∨ ∃ w message, l = .fail w message ∧ id ∈ s'.dropping w ∧
        (s.clients.gone id = false →
          s'.clients.inbox id = s.clients.inbox id ++ [.error message]) := by
  cases hstep with
  | @reject id' hlock hphase =>
    obtain rfl : id = id' := by
      by_contra hne
      exact hout (Finset.mem_erase.mpr ⟨hne, hin⟩)
    exact .inl hphase
  | @token w out p =>
    rcases eq_or_ne p.1 id with rfl | hne
    · cases hgone : s.clients.gone p.1 with
      | true =>
        have hdisconnected : s.clients.disconnected p.1 = true := by
          simp [Clients.disconnected, hin, hgone]
        exact .inr (.inl ⟨rfl, w, by simp [hdisconnected]⟩)
      | false =>
        exact absurd (by simpa [Clients.deliver_listening hin hgone] using hin) hout
    · exact absurd ((Clients.deliver_entries_of_ne hne).mpr hin) hout
  | @completion w id' out more hlock hcarry hgenerated hnext =>
    rcases eq_or_ne id' id with rfl | hne
    · have hfinished := (hb.completed w out hcarry id' (by simp [hnext])).2
      exact .inr (.inr (.inl (by simp [hfinished])))
    · exact absurd ((Clients.complete_entries_of_ne hne).mpr hin) hout
  | @fail w message failed hlock hidle hdropped hfailed =>
    refine .inr (.inr (.inr ⟨w, message, rfl, by simpa using (hfailed id).mpr hin, fun hgone => ?_⟩))
    exact if_pos ⟨hin, hgone⟩
  | enter => exact absurd (Finset.mem_insert_of_mem hin) hout
  | _ => exact absurd (by simpa using hin) hout

theorem Step.placed_stays (hstep : Step s l s')
    (hfresh : ∀ id, s.nextId ≤ id → s.phase id = .unused) (h : s.placed id ≠ none) :
    s'.placed id ≠ none := by
  obtain ⟨w, hw⟩ := Option.ne_none_iff_exists'.mp h
  rw [placed_eq_some.mpr (hstep.phase_placed hfresh (placed_eq_some.mp hw))]
  exact Option.some_ne_none w

/-- A request becomes entered, or placed, by an action of its handler. -/
theorem Step.entering (hstep : Step s l s') (h : s'.phase id = .entered) :
    s.phase id = .entered ∨ id ∈ s'.clients.entries := by
  have hkeep : ∀ id' phase, phase ≠ .entered → (s.setPhase id' phase).phase id = .entered →
      s.phase id = .entered := by
    intro id' phase hne h
    rcases eq_or_ne id id' with rfl | hother
    · exact absurd (by simpa using h) hne
    · simpa [hother] using h
  cases hstep with
  | name => exact .inl (hkeep _ _ (by simp) h)
  | @enter id' =>
    rcases eq_or_ne id id' with rfl | hother
    · exact .inr (by simp)
    · exact .inl (by simpa [hother] using h)
  | place => exact .inl (hkeep _ _ (by simp) h)
  | refuse => exact .inl (hkeep _ _ (by simp) h)
  | _ => exact .inl (by simpa using h)

theorem Step.placing (hstep : Step s l s') (h : s'.placed id ≠ none) (hbefore : s.placed id = none) :
    s.phase id = .entered ∧ s'.clients = s.clients := by
  have hkeep : ∀ id' phase, phase.worker = none → (s.setPhase id' phase).placed id = none := by
    intro id' phase hnone
    rcases eq_or_ne id id' with rfl | hother
    · simpa [Server.placed] using hnone
    · simpa [Server.placed, hother] using hbefore
  cases hstep with
  | name => exact absurd (hkeep _ _ rfl) h
  | enter => exact absurd (hkeep _ _ rfl) h
  | @place id' _ hphase =>
    rcases eq_or_ne id id' with rfl | hother
    · exact ⟨hphase, rfl⟩
    · exact absurd (by simpa [Server.placed, hother] using hbefore) h
  | refuse => exact absurd (hkeep _ _ rfl) h
  | _ => exact absurd (by simpa [Server.placed] using hbefore) h

theorem Watched.step {ls : List Action} (hrun : Run Step start ls s) (hwatched : Watched ls s)
    (hstep : Step s l s') : Watched (ls ++ [l]) s' where
  hears id hgone := by
    refine hstep.placed_stays (Inv.of_run hrun).fresh ?_
    -- a client is only dropped once it is placed
    cases hstep with
    | @hangUp id' w hphase =>
      rcases eq_or_ne id id' with rfl | hne
      · simp [Server.placed, hphase, Phase.worker]
      · exact hwatched.hears id (by simpa [hne] using hgone)
    | fail => exact hwatched.hears id hgone
    | _ => exact hwatched.hears id (by simpa using hgone)
  entered id hphase hout := by
    have hinv := Inv.of_run hrun
    have hentered : s.phase id = .entered := (hstep.entering hphase).resolve_right hout
    have hplaced : s.placed id = none := by simp [Server.placed, hentered]
    have hlistens : s.clients.gone id = false := by
      by_contra hgone
      exact hwatched.hears id (by simpa using hgone) hplaced
    -- it has been told and forgotten by this action, or was so before
    by_cases hin : id ∈ s.clients.entries
    · rcases hstep.leaving hinv.toBooks hin hout with h | ⟨h, -⟩ | h | ⟨w, message, rfl, -, h⟩
      · simp [hentered] at h
      · simp [hlistens] at h
      · exact absurd (hinv.unplaced id hplaced).2 h
      · obtain ⟨tokens, ending, hserved⟩ := hinv.served id
        obtain ⟨rfl, hwait⟩ := hserved.waiting hin
        obtain rfl : tokens = [] := by
          rw [(hinv.unplaced id hplaced).1, List.append_eq_nil_iff] at hwait
          exact hwait.1
        -- nothing was sent before the failure: the request was not placed yet
        refine ⟨ls, w, message, [], s, s', rfl, hrun, hstep, .nil, hentered, hin, ?_⟩
        rw [h hlistens, hserved.inbox_eq]
        rfl
    · exact (hwatched.entered id hentered hin).snoc hstep hin
  placed id hplaced hout := by
    -- it is placed by this action, or was before
    by_cases hbefore : s.placed id = none
    · obtain ⟨hphase, hclients⟩ := hstep.placing hplaced hbefore
      rw [hclients] at hout
      exact .inr ((hwatched.entered id hphase hout).snoc hstep hout)
    -- this action may be what took it out of the map
    by_cases hin : id ∈ s.clients.entries
    · left
      rcases hstep.leaving (Inv.of_run hrun).toBooks hin hout with
        h | ⟨-, h⟩ | h | ⟨w, message, -, h, -⟩
      · exact absurd (by simp [Server.placed, h]) hbefore
      · exact .inr (.inr h)
      · obtain ⟨reason, hreason⟩ := Option.ne_none_iff_exists'.mp h
        exact .inl (by simp [(hstep.finished_stays hreason).1])
      · exact .inr (.inr ⟨w, h⟩)
    · rcases hwatched.placed id hbefore hin with h | h
      · exact .inl (h.step hstep hbefore)
      · exact .inr (h.snoc hstep hin)

theorem Watched.of_run {ls : List Action} (hrun : Run Step start ls s) : Watched ls s := by
  induction hrun with
  | nil => exact watched_start
  | snoc hrun hstep ih => exact ih.step hrun hstep

end Lemmas

section Runs

variable {ls : List Action} {s : Server}

/-- Whatever the order of the actions, a client is sent the tokens of its request in the order
the engine emitted them, none lost or doubled while it is in the map, then at most one event
that ends the stream: the failure of a step, or the reason its request completed for, after
all its tokens.  A client stays in the map only until its request is reported complete. -/
theorem clients_served (hrun : Run Step start ls s) (id : ℕ) :
    (∃ tokens ending, Served s id tokens ending) ∧
      (s.finished id ≠ none → id ∈ s.clients.entries → s.Completing id) :=
  have hinv := Inv.of_run hrun
  ⟨hinv.served id, hinv.leaves id⟩

/-- The step of a worker that emits one token of request 1 and completes it. -/
def lastStep : StepOutput := ⟨[(1, 7)], [1], [1]⟩

theorem lastStep_runs {s : Server} (hruns : s.Runs 0 1) :
    (∀ p ∈ lastStep.generated, s.Runs 0 p.1) ∧ ∀ id ∈ lastStep.completed, s.Runs 0 id := by
  simpa [lastStep] using hruns

/-- A request that emits one token and ends. -/
theorem clients_served_witness :
    ∃ s, s.clients.inbox 1 = [.token 7, .done .eos] ∧
      (∃ tokens ending, Served s 1 tokens ending) ∧
      (s.finished 1 ≠ none → 1 ∈ s.clients.entries → s.Completing 1) := by
  have hplaced : ∃ ls s, Run Step start ls s ∧ s.holder = none ∧ s.clients.inbox 1 = [] ∧
      s.clients.gone 1 = false ∧ 1 ∈ s.clients.entries ∧ s.carrying 0 = none ∧
      s.dropping 0 = [] ∧ s.Runs 0 1 :=
    ⟨_, _, .cons .name (.cons (@Step.enter _ 1 rfl rfl) (.single (@Step.place _ 1 0 rfl))),
      rfl, rfl, rfl, by decide, rfl, rfl, rfl, rfl, rfl⟩
  obtain ⟨ls, s, hrun, hlock, hinbox, hgone, hin, hidle, hdropped, hruns⟩ := hplaced
  have hlast := lastStep_runs hruns
  have hserve := (hrun.snoc (.step hidle hdropped hlast.1 hlast.2)).append
    (.cons (@Step.lock _ 0 lastStep hlock rfl) (.cons (@Step.token _ 0 lastStep (1, 7) [] rfl rfl rfl)
      (.single (@Step.completion _ 0 1 { lastStep with generated := [] } [] rfl rfl rfl rfl))))
  refine ⟨_, ?_, clients_served hserve 1⟩
  change ((s.clients.deliver 1 7).complete .eos 1).inbox 1 = _
  rw [Clients.deliver_listening hin hgone, Clients.complete, if_pos (by simpa using hin),
    Clients.send_inbox]
  simp [Clients.send_inbox, hgone, hinbox]

/-- A request is not left running when its client has left the map, unless a step failed
before the request was placed: then its client was told of that failure and of nothing else. -/
theorem runs_watched (hrun : Run Step start ls s) {id w : ℕ} (hruns : s.Runs w id)
    (hidle : ∀ w', id ∉ s.dropping w') :
    id ∈ s.clients.entries ∨ s.FailedFirst ls id := by
  by_contra hnot
  rw [not_or] at hnot
  have hplaced : s.placed id ≠ none := by simp [hruns.placed_eq]
  rcases (Watched.of_run hrun).placed id hplaced hnot.1 with (h | h | ⟨w', h⟩) | h
  · exact h hruns.not_finished
  · simp [hruns.not_cancelled] at h
  · exact hidle w' h
  · exact hnot.2 h

/-- Request 1 is placed after a failed step has told its client; the loop cancels what it
does not know yet, and the request runs on. -/
theorem runs_watched_witness :
    ∃ ls s, Run Step start ls s ∧ s.Runs 0 1 ∧ 1 ∉ s.clients.entries ∧
      (1 ∈ s.clients.entries ∨ s.FailedFirst ls 1) := by
  have hfailed : Run Step start [.name, .enter 1, .fail 0 "lost", .cancel 0, .place 1 0] _ :=
    .cons .name (.cons (@Step.enter _ 1 rfl rfl) (.cons
      (@Step.fail _ 0 "lost" [1] rfl rfl rfl fun id => by simp [start, setPhase])
      (.cons (@Step.cancel _ 0 1 [] rfl rfl) (.single (@Step.place _ 1 0 rfl)))))
  refine ⟨_, _, hfailed, ⟨rfl, rfl, rfl⟩, Finset.notMem_empty _, ?_⟩
  refine runs_watched hfailed ⟨rfl, rfl, rfl⟩ fun w => ?_
  show 1 ∉ Function.update (Function.update (fun _ => []) 0 [1]) 0 [] w
  rw [Function.update_idem]
  rcases eq_or_ne w 0 with rfl | hne
  · simp
  · simp [hne]

end Runs

end Server
