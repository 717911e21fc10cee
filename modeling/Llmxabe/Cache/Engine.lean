/-
The prefix cache of an engine, lock by lock (`xabe-engine/src/engine.rs`).

A handler places one request at a time: it matches the tree, takes a snapshot, scores, admits
the request to a worker, references the blocks that were matched, records them and names the
sequence.  The loop of a worker takes a step and folds it in: it extends the chains with what
was generated, then installs each snapshot the step retained under the name its chain gives.
A cancellation and a completed request take back a chain and a record.  `Step` is one action
between two locks, of any of them.

The order in which requests are cancelled or complete is left open, as are the entries a
reclaim drops and what makes an installation stop early.  What each request consumed, and the
snapshot it resumed from, is recorded (`Session`).
-/
import Llmxabe.Cache.Chain
import Llmxabe.Cache.Recency
import Llmxabe.Cache.Snapshots
import Llmxabe.Lib.Run

/-- A request of a worker. -/
abbrev RequestKey := WorkerId × ℕ

/-- A request as a handler brings it. -/
structure Incoming where
  prompt : List Token
  images : List ImagePlacement
  greedy : Bool

/-- A retained recurrent state, with the tokens behind it as the cache sees them. -/
structure SequenceSnapshot where
  position : ℕ
  nextToken : Option Token
  consumed : List ℕ

/-- A request that was admitted. -/
structure Session extends Incoming where
  generated : List Token
  resumed : Option SequenceSnapshot

/-- The prompt and what has been generated behind it. -/
def Session.tokens (session : Session) : List Token := session.prompt ++ session.generated

/-- How far the handler under the routing lock has come. -/
inductive Placing where
  | idle
  | matched (req : Incoming) (hash : Option BlockHash)
  | took (req : Incoming) (snapshot : Option SequenceSnapshot)
  | scored (req : Incoming) (snapshot : Option SequenceSnapshot) (referenced : ℕ)
  | admitted (key : RequestKey) (chain : SequenceChain) (hashes : List BlockHash)
  | counted (key : RequestKey) (chain : SequenceChain) (hashes : List BlockHash)
  | recorded (key : RequestKey) (chain : SequenceChain)

/-- The request that is admitted and not yet named, with its chain. -/
def Placing.chain? : Placing → Option (RequestKey × SequenceChain)
  | admitted key chain _ => some (key, chain)
  | counted key chain _ => some (key, chain)
  | recorded key chain => some (key, chain)
  | _ => none

/-- The request whose chain the placement has built. -/
def Placing.key? (placing : Placing) : Option RequestKey := placing.chain?.map Prod.fst

/-- How far the installation of a snapshot has come. -/
inductive Install where
  | idle
  | cloned (snapshot : SequenceSnapshot) (chain : SequenceChain)
  | named (snapshot : SequenceSnapshot) (hashes : List BlockHash)
  | inserted (snapshot : SequenceSnapshot) (leaf : BlockHash)
  | published
  | evicted (hashes : List BlockHash)

/-- The installation may end here: nothing is to be shared, or nothing more to be evicted. -/
def Install.mayStop : Install → Bool
  | cloned _ _ => true
  | named _ _ => true
  | published => true
  | _ => false

/-- A step that a loop folds in: what its worker generated, by request, and retained. -/
structure Applying where
  generated : List (ℕ × Token)
  pushed : Bool
  retained : List (ℕ × SequenceSnapshot)
  install : Install

/-- What the placements and the workers share, and the sessions a reader follows. -/
structure Engine where
  tree : RadixTree
  snapshots : SharedSnapshots SequenceSnapshot
  requestChains : RequestKey → Option SequenceChain
  requestRefs : AList fun _ : RequestKey => List BlockHash
  placing : Placing
  applying : WorkerId → Option Applying
  /-- Records taken out of the map whose references are not released yet. -/
  releasing : List (List BlockHash)
  sessions : RequestKey → Option Session

/-- The tokens of one request in a step. -/
def generatedBy (id : ℕ) (generated : List (ℕ × Token)) : List Token :=
  (generated.filter fun p => p.1 = id).map Prod.snd

/-- The blocks an installation inserts: the last one has the snapshot. -/
def prefixBlocks (hashes : List BlockHash) : List PrefixBlock :=
  hashes.mapIdx fun index hash => ⟨hash, index, if index + 1 = hashes.length then some 0 else none⟩

namespace Engine

variable (hashBlock : BlockHash → List ℕ → BlockHash) (mix : ℕ → ℕ → ℕ) (blockSize : ℕ)

/-- Nothing placed, nothing cached. -/
def start : Engine where
  tree := .new blockSize
  snapshots := .new
  requestChains := fun _ => none
  requestRefs := ∅
  placing := .idle
  applying := fun _ => none
  releasing := []
  sessions := fun _ => none

/-- The chain that names a request's own blocks. -/
def chainOf (req : Incoming) : SequenceChain :=
  .new hashBlock mix blockSize req.prompt req.images

/-- What the tree holds of a request. -/
def matched (s : Engine) (req : Incoming) : PrefixMatch :=
  s.tree.matchPrefix (chainOf hashBlock mix blockSize req).hashes

/-- A snapshot that covers the whole prompt must say what a greedy request emits first. -/
def reusable (req : Incoming) (snapshot : SequenceSnapshot) : Bool :=
  decide (snapshot.position < req.prompt.length) || (req.greedy && snapshot.nextToken.isSome)

/-- Push what a worker generated onto the chains there are. -/
def extendChains (w : WorkerId) (generated : List (ℕ × Token))
    (chains : RequestKey → Option SequenceChain) : RequestKey → Option SequenceChain :=
  fun key => (chains key).map fun chain =>
    if key.1 = w then chain.extend hashBlock mix (generatedBy key.2 generated) else chain

/-- The chain and the runtime do not disagree about the token behind a snapshot. -/
def agrees (chain : SequenceChain) (snapshot : SequenceSnapshot) : Bool :=
  match chain.generatedTokenAt snapshot.position, snapshot.nextToken with
  | some followed, some predicted => followed == (predicted % 2 ^ 32).toNat
  | _, _ => true

/-- What the device did in a step. -/
def stepped (w : WorkerId) (generated : List (ℕ × Token)) (sessions : RequestKey → Option Session) :
    RequestKey → Option Session :=
  fun key => (sessions key).map fun session =>
    if key.1 = w then
      { session with generated := session.generated ++ generatedBy key.2 generated }
    else session

/-- A snapshot the runtime retains of a session has consumed its first tokens. -/
structure Retained (session : Session) (snapshot : SequenceSnapshot) : Prop where
  position_le : snapshot.position ≤ session.tokens.length
  consumed_eq : snapshot.consumed =
    (substituted mix session.images session.tokens).take snapshot.position

/-- A worker's step in progress. -/
@[simps]
def setApplying (s : Engine) (w : WorkerId) (applying : Option Applying) : Engine :=
  { s with applying := Function.update s.applying w applying }

/-- Who takes a step: the placement in progress or a worker. -/
inductive Action where
  | matchPrefix
  | take
  | score
  | refuse
  | place
  | count
  | skip
  | record
  | name
  | step (worker : WorkerId)
  | extend (worker : WorkerId)
  | clone (worker : WorkerId)
  | stop (worker : WorkerId)
  | reclaim (worker : WorkerId)
  | insert (worker : WorkerId)
  | publish (worker : WorkerId)
  | evict (worker : WorkerId)
  | forget (worker : WorkerId)
  | finish (worker : WorkerId)
  | unname (key : RequestKey)
  | unrecord (key : RequestKey)
  | release

/-- One critical section, or what happens between two of them. -/
inductive Step : Engine → Action → Engine → Prop
  -- the handler under the routing lock
  | matchPrefix {s : Engine} {req : Incoming} (hplacing : s.placing = .idle) :
      Step s .matchPrefix { s with
        placing := .matched req (matched hashBlock mix blockSize s req).gdnSnapshotHash }
  | take {s : Engine} {req : Incoming} {hash : BlockHash}
      (hplacing : s.placing = .matched req (some hash)) :
      Step s .take { s with
        snapshots := (s.snapshots.takeForReuse hash).2
        placing := .took req ((s.snapshots.takeForReuse hash).1.filter (reusable req)) }
  | takeNone {s : Engine} {req : Incoming} (hplacing : s.placing = .matched req none) :
      Step s .take { s with placing := .took req none }
  /-- `held`: the snapshot that is matched now is still shared. -/
  | score {s : Engine} {req : Incoming} {snapshot : Option SequenceSnapshot} (held : Bool)
      (hplacing : s.placing = .took req snapshot) :
      Step s .score { s with
        placing := .scored req snapshot (if held then
          (matched hashBlock mix blockSize s req).gdnMatchedTokens / blockSize else 0) }
  | refuse {s : Engine} {req : Incoming} {snapshot : Option SequenceSnapshot} {referenced : ℕ}
      (hplacing : s.placing = .scored req snapshot referenced) :
      Step s .refuse { s with placing := .idle }
  | place {s : Engine} {req : Incoming} {snapshot : Option SequenceSnapshot} {referenced : ℕ}
      {key : RequestKey} (hplacing : s.placing = .scored req snapshot referenced)
      (hnew : s.sessions key = none) :
      Step s .place { s with
        sessions := Function.update s.sessions key (some ⟨req, [], snapshot⟩)
        placing := .admitted key (chainOf hashBlock mix blockSize req)
          ((chainOf hashBlock mix blockSize req).hashes.take referenced) }
  | count {s : Engine} {key : RequestKey} {chain : SequenceChain} {hashes : List BlockHash}
      (hplacing : s.placing = .admitted key chain hashes) (hsome : hashes ≠ []) :
      Step s .count { s with
        tree := s.tree.incrRefChain hashes
        placing := .counted key chain hashes }
  | skip {s : Engine} {key : RequestKey} {chain : SequenceChain}
      (hplacing : s.placing = .admitted key chain []) :
      Step s .skip { s with placing := .recorded key chain }
  | record {s : Engine} {key : RequestKey} {chain : SequenceChain} {hashes : List BlockHash}
      (hplacing : s.placing = .counted key chain hashes) :
      Step s .record { s with
        requestRefs := s.requestRefs.insert key hashes
        placing := .recorded key chain }
  | name {s : Engine} {key : RequestKey} {chain : SequenceChain}
      (hplacing : s.placing = .recorded key chain) :
      Step s .name { s with
        requestChains := Function.update s.requestChains key (some chain)
        placing := .idle }
  -- the loop of a worker
  | step {s : Engine} {w : WorkerId} {generated : List (ℕ × Token)}
      {retained : List (ℕ × SequenceSnapshot)} (hidle : s.applying w = none)
      (hgenerated : ∀ p ∈ generated, s.sessions (w, p.1) ≠ none)
      (hretained : ∀ p ∈ retained, ∃ session, stepped w generated s.sessions (w, p.1) = some session ∧
        Retained mix session p.2) :
      Step s (.step w) ({ s with sessions := stepped w generated s.sessions }.setApplying w
        (some ⟨generated, false, retained, .idle⟩))
  | extend {s : Engine} {w : WorkerId} {a : Applying} (happlying : s.applying w = some a)
      (hpushed : a.pushed = false) :
      Step s (.extend w) ({ s with
        requestChains := extendChains hashBlock mix w a.generated s.requestChains }.setApplying w
          (some { a with pushed := true }))
  | clone {s : Engine} {w : WorkerId} {a : Applying} {p : ℕ × SequenceSnapshot}
      {more : List (ℕ × SequenceSnapshot)} {chain : SequenceChain}
      (happlying : s.applying w = some a) (hpushed : a.pushed = true) (hidle : a.install = .idle)
      (hnext : a.retained = p :: more) (hchain : s.requestChains (w, p.1) = some chain) :
      Step s (.clone w)
        (s.setApplying w (some { a with retained := more, install := .cloned p.2 chain }))
  | unnamed {s : Engine} {w : WorkerId} {a : Applying} {p : ℕ × SequenceSnapshot}
      {more : List (ℕ × SequenceSnapshot)} (happlying : s.applying w = some a)
      (hpushed : a.pushed = true) (hidle : a.install = .idle) (hnext : a.retained = p :: more)
      (hchain : s.requestChains (w, p.1) = none) :
      Step s (.clone w) (s.setApplying w (some { a with retained := more }))
  /-- The snapshot is not shared after all, or there is nothing more to evict. -/
  | stop {s : Engine} {w : WorkerId} {a : Applying} (happlying : s.applying w = some a)
      (hstop : a.install.mayStop = true) :
      Step s (.stop w) (s.setApplying w (some { a with install := .idle }))
  | reclaim {s : Engine} {w : WorkerId} {a : Applying} {snapshot : SequenceSnapshot}
      {chain : SequenceChain} {hashes dropped : List BlockHash}
      (happlying : s.applying w = some a) (hinstall : a.install = .cloned snapshot chain)
      (hnamed : chain.hashesFor snapshot.position = some hashes)
      (hagrees : agrees chain snapshot = true) :
      Step s (.reclaim w) ({ s with
        snapshots := dropped.foldl SharedSnapshots.remove s.snapshots }.setApplying w
          (some { a with install := .named snapshot hashes }))
  | insert {s : Engine} {w : WorkerId} {a : Applying} {snapshot : SequenceSnapshot}
      {hashes : List BlockHash} {leaf : BlockHash} (happlying : s.applying w = some a)
      (hinstall : a.install = .named snapshot hashes) (hleaf : hashes.getLast? = some leaf) :
      Step s (.insert w) ({ s with
        tree := s.tree.insertPrefix (prefixBlocks hashes) }.setApplying w
          (some { a with install := .inserted snapshot leaf }))
  | publish {s : Engine} {w : WorkerId} {a : Applying} {snapshot : SequenceSnapshot}
      {leaf : BlockHash} (happlying : s.applying w = some a)
      (hinstall : a.install = .inserted snapshot leaf) :
      Step s (.publish w) ({ s with
        snapshots := (s.snapshots.publish (fun _ world => world) leaf w snapshot ()).1
          }.setApplying w (some { a with install := .published }))
  | evict {s : Engine} {w : WorkerId} {a : Applying} (order : WalkOrder) (excess : ℕ)
      (happlying : s.applying w = some a) (hinstall : a.install = .published) :
      Step s (.evict w) ({ s with
        tree := (s.tree.evictUnreferencedEntries order excess).1 }.setApplying w
          (some { a with
            install := .evicted ((s.tree.evictUnreferencedEntries order excess).2.map EvictedPrefix.hash) }))
  | forget {s : Engine} {w : WorkerId} {a : Applying} {hashes : List BlockHash}
      (happlying : s.applying w = some a) (hinstall : a.install = .evicted hashes) :
      Step s (.forget w) ({ s with
        snapshots := hashes.foldl SharedSnapshots.remove s.snapshots }.setApplying w
          (some { a with install := .idle }))
  /-- The step is folded in, or an installation failed and the rest is dropped. -/
  | finish {s : Engine} {w : WorkerId} {a : Applying} (happlying : s.applying w = some a)
      (hpushed : a.pushed = true) :
      Step s (.finish w) (s.setApplying w none)
  -- a request that was cancelled, or has completed
  | unname {s : Engine} {key : RequestKey} :
      Step s (.unname key) { s with requestChains := Function.update s.requestChains key none }
  | unrecord {s : Engine} {key : RequestKey} {hashes : List BlockHash}
      (hrecord : s.requestRefs.lookup key = some hashes) :
      Step s (.unrecord key) { s with
        requestRefs := s.requestRefs.erase key
        releasing := hashes :: s.releasing }
  | release {s : Engine} {before after : List (List BlockHash)} {hashes : List BlockHash}
      (hreleasing : s.releasing = before ++ hashes :: after) :
      Step s .release { s with
        tree := s.tree.decrRefChain hashes
        releasing := before ++ after }

/-- A step taken under a condition. -/
def StepUnder (P : Engine → Action → Prop) (s : Engine) (l : Action) (s' : Engine) : Prop :=
  Step hashBlock mix blockSize s l s' ∧ P s l

/-- No token is pushed for a request that is admitted and not yet named. -/
def Timely (s : Engine) (l : Action) : Prop :=
  ∀ w a key, l = .extend w → s.applying w = some a → s.placing.key? = some key → key.1 = w →
    generatedBy key.2 a.generated = []

/-- The chain that is counted, if one is, stands whole in the tree. -/
def Whole (s : Engine) (l : Action) : Prop :=
  ∀ key chain hashes, l = .count → s.placing = .admitted key chain hashes →
    ∀ h ∈ hashes, s.tree.nodes.lookup h ≠ none

/-! ### A prefix that is published and found -/

section Published

/-- A hash without collisions. -/
def pairHash (parent : BlockHash) (block : List ℕ) : BlockHash :=
  Nat.pair parent (Encodable.encode block) + 1

theorem pairHash_collisionFree : CollisionFree pairHash rootHash Set.univ := by
  refine CollisionFree.of_injective2 ?_ fun _ _ => Nat.succ_ne_zero _
  intro _ _ _ _ h
  obtain ⟨hparent, hblock⟩ := Nat.pair_eq_pair.mp (Nat.succ_injective h)
  exact ⟨hparent, Encodable.encode_injective hblock⟩

/-- A prompt of one block of two tokens. -/
def firstReq : Incoming := ⟨[7, 8], [], true⟩

/-- The same block and one token more. -/
def secondReq : Incoming := ⟨[7, 8, 5], [], true⟩

/-- What the first request retains at its block's end. -/
def firstSnapshot : SequenceSnapshot := ⟨2, some 9, [7, 8]⟩

variable {s s' : Engine} {l : Action} {ls : List Action}

/-- Neither condition concerns an action that neither pushes nor counts. -/
def StepBoth : Engine → Action → Engine → Prop :=
  StepUnder pairHash Nat.pair 2 fun s l => Timely s l ∧ Whole s l

theorem Step.both (hstep : Step pairHash Nat.pair 2 s l s') (hextend : ∀ w, l ≠ .extend w)
    (hcount : l ≠ .count) : StepBoth s l s' :=
  ⟨hstep, fun w _ _ hl => absurd hl (hextend w), fun _ _ _ hl => absurd hl hcount⟩

theorem Step.idle (hstep : Step pairHash Nat.pair 2 s l s') (hidle : s.placing = .idle) :
    StepBoth s l s' := by
  refine ⟨hstep, fun _ _ _ _ _ hkey => ?_, fun _ _ _ _ hplacing => ?_⟩
  · rw [hidle] at hkey
    cases hkey
  · rw [hidle] at hplacing
    cases hplacing

theorem Step.counting (hstep : Step pairHash Nat.pair 2 s .count s') (hwhole : Whole s .count) :
    StepBoth s .count s' := by
  refine ⟨hstep, fun _ _ _ hl => ?_, hwhole⟩
  cases hl

/-- The first request is served and its prefix published. -/
theorem first_published : ∃ ls s, Run StepBoth (start 2) ls s ∧ s.placing = .idle ∧
    s.sessions (0, 2) = none ∧ s.requestRefs = ∅ ∧ s.releasing = [] ∧
    s.tree.nodes.lookup (pairHash 0 [7, 8]) ≠ none ∧
    (matched pairHash Nat.pair 2 s secondReq).gdnSnapshotHash = some (pairHash 0 [7, 8]) ∧
    (matched pairHash Nat.pair 2 s secondReq).gdnMatchedTokens = 2 ∧
    (s.snapshots.takeForReuse (pairHash 0 [7, 8])).1 = some firstSnapshot := by
  refine ⟨_, _,
    .cons ((@Step.matchPrefix _ _ _ _ firstReq rfl).idle rfl)
    (.cons ((@Step.takeNone _ _ _ _ firstReq rfl).both (by simp) (by simp))
    (.cons ((@Step.score _ _ _ _ firstReq none false rfl).both (by simp) (by simp))
    (.cons ((@Step.place _ _ _ _ firstReq none 0 (0, 1) rfl rfl).both (by simp) (by simp))
    (.cons ((@Step.skip _ _ _ _ (0, 1) _ rfl).both (by simp) (by simp))
    (.cons ((@Step.name _ _ _ _ (0, 1) _ rfl).both (by simp) (by simp))
    (.cons ((@Step.step _ _ _ _ 0 [(1, 9)] [(1, firstSnapshot)] rfl ?_ ?_).idle rfl)
    (.cons ((@Step.extend _ _ _ _ 0 _ rfl rfl).idle rfl)
    (.cons ((@Step.clone _ _ _ _ 0 _ (1, firstSnapshot) [] _ rfl rfl rfl rfl rfl).idle rfl)
    (.cons ((@Step.reclaim _ _ _ _ 0 _ firstSnapshot _ [pairHash 0 [7, 8]] [] rfl rfl rfl rfl).idle
      rfl)
    (.cons ((@Step.insert _ _ _ _ 0 _ firstSnapshot [pairHash 0 [7, 8]] _ rfl rfl rfl).idle rfl)
    (.cons ((@Step.publish _ _ _ _ 0 _ firstSnapshot _ rfl rfl).idle rfl)
    (.cons ((@Step.stop _ _ _ _ 0 _ rfl rfl).idle rfl)
    (.single ((@Step.finish _ _ _ _ 0 _ rfl rfl).idle rfl)))))))))))))),
    rfl, rfl, rfl, rfl, Option.some_ne_none _, rfl, rfl, rfl⟩
  · decide
  · intro p hp
    rw [List.mem_singleton] at hp
    subst hp
    exact ⟨_, rfl, ⟨by decide, rfl⟩⟩

/-- The second request is placed on it, and the prefix is referenced. -/
theorem second_counted : ∃ ls s, Run StepBoth (start 2) ls s ∧
    (∃ chain, s.placing = .counted (0, 2) chain [pairHash 0 [7, 8]]) ∧
    s.requestRefs = ∅ ∧ s.releasing = [] ∧
    s.sessions (0, 2) = some ⟨secondReq, [], some firstSnapshot⟩ := by
  obtain ⟨ls, s, hrun, hidle, hnew, hrefs, hreleasing, hthere, hfound, hmatched, htaken⟩ :=
    first_published
  have hfind : Placing.matched secondReq (matched pairHash Nat.pair 2 s secondReq).gdnSnapshotHash =
      .matched secondReq (some (pairHash 0 [7, 8])) := by rw [hfound]
  have htake : Placing.took secondReq
      ((s.snapshots.takeForReuse (pairHash 0 [7, 8])).1.filter (reusable secondReq)) =
        .took secondReq (some firstSnapshot) := by
    rw [htaken]
    rfl
  have hscore : Placing.scored secondReq (some firstSnapshot) (if true then
      (matched pairHash Nat.pair 2 s secondReq).gdnMatchedTokens / 2 else 0) =
        .scored secondReq (some firstSnapshot) 1 := by rw [hmatched]; rfl
  have hplaced := hrun.append (.cons ((@Step.matchPrefix _ _ _ _ secondReq hidle).idle hidle)
    (.cons ((@Step.take _ _ _ _ secondReq (pairHash 0 [7, 8]) hfind).both (by simp) (by simp))
    (.cons ((@Step.score _ _ _ _ secondReq (some firstSnapshot) true (by exact htake)).both
      (by simp) (by simp))
    (.single ((@Step.place _ _ _ _ secondReq (some firstSnapshot) 1 (0, 2) (by exact hscore)
      (by exact hnew)).both (by simp) (by simp))))))
  refine ⟨_, _, hplaced.snoc ((@Step.count _ _ _ _ (0, 2) (chainOf pairHash Nat.pair 2 secondReq)
    [pairHash 0 [7, 8]] (by rfl) (List.cons_ne_nil _ _)).counting ?_), ⟨_, rfl⟩, hrefs,
    hreleasing, ?_⟩
  · rintro key chain hashes - hplacing h hmem
    obtain ⟨-, -, rfl⟩ := Placing.admitted.inj hplacing
    obtain rfl : h = pairHash 0 [7, 8] := List.mem_singleton.mp hmem
    exact hthere
  · change Function.update s.sessions (0, 2) (some ⟨secondReq, [], some firstSnapshot⟩) (0, 2) = _
    rw [Function.update_self]

end Published

end Engine
