/-
A request resumes only from its own prefix (`xabe-engine/src/engine.rs`).

A snapshot is shared under a name that its producer's chain gives, and found again by the
names of a request's own blocks.  If no token is pushed for a request before its chain is in
place, a chain names what its session consumed (`Tracks.chains`), so a snapshot is filed
under the name of exactly the tokens it consumed (`Filed`), and where names do not collide a
request that finds it starts with these tokens (`Fits`).
-/
import Llmxabe.Cache.Engine

open Blocks (blocks)

namespace Engine

section Reuse

variable {hashBlock : BlockHash → List ℕ → BlockHash} {mix : ℕ → ℕ → ℕ} {blockSize : ℕ}
  {s s' : Engine} {l : Action} {hash : BlockHash} {snapshot : SequenceSnapshot} {req : Incoming}

/-- The name is that of the tokens the snapshot consumed. -/
structure Filed (hashBlock : BlockHash → List ℕ → BlockHash) (blockSize : ℕ) (hash : BlockHash)
    (snapshot : SequenceSnapshot) : Prop where
  length_eq : snapshot.consumed.length = snapshot.position
  dvd : max blockSize 1 ∣ snapshot.position
  name_eq : hash = chainHash hashBlock rootHash (blocks (max blockSize 1) snapshot.consumed)

/-- The request starts with the tokens the snapshot consumed. -/
structure Fits (mix : ℕ → ℕ → ℕ) (req : Incoming) (snapshot : SequenceSnapshot) : Prop where
  length_eq : snapshot.consumed.length = snapshot.position
  consumed_prefix : snapshot.consumed <+: substituted mix req.images req.prompt

/-- A snapshot found by a request's own names. -/
theorem Filed.fits (hfree : CollisionFree hashBlock rootHash Set.univ)
    (hfiled : Filed hashBlock blockSize hash snapshot)
    (hmem : hash ∈ (chainOf hashBlock mix blockSize req).hashes) : Fits mix req snapshot := by
  refine ⟨hfiled.length_eq, ?_⟩
  have hn : 0 < max blockSize 1 := by omega
  have hnames := @SequenceChain.new_names hashBlock mix blockSize req.prompt req.images
  rw [chainOf, hnames.hashes, blockHashes, mem_chainHashes] at hmem
  obtain ⟨i, hi, hname⟩ := hmem
  rw [Blocks.blocks_length, Nat.lt_iff_add_one_le, Nat.le_div_iff_mul_le hn] at hi
  have hblocks := hfree.injOn (Set.mem_univ _) (Set.mem_univ _) (hfiled.name_eq.symm.trans hname)
  rw [← Blocks.blocks_take hn hi] at hblocks
  obtain ⟨k, hk⟩ := hfiled.dvd
  have hconsumed := Blocks.flatten_blocks hn (hfiled.length_eq.trans (hk.trans (Nat.mul_comm _ _)))
  rw [← hconsumed, hblocks, Blocks.flatten_blocks hn (List.length_take_of_le hi)]
  exact List.take_prefix _ _

/-- What a loop took of a request and has not pushed onto its chain. -/
def unpushed (s : Engine) (key : RequestKey) : List Token :=
  match s.applying key.1 with
  | some a => if a.pushed then [] else generatedBy key.2 a.generated
  | none => []

/-- A chain that names the tokens of a session but for those a loop still has to push. -/
def NamesSession (hashBlock : BlockHash → List ℕ → BlockHash) (mix : ℕ → ℕ → ℕ) (blockSize : ℕ)
    (chain : SequenceChain) (session : Session) (unpushed : List Token) : Prop :=
  ∃ tokens, chain.Names hashBlock mix (max blockSize 1) session.images tokens ∧
    tokens ++ unpushed = session.tokens

/-- The installation of a snapshot knows what the snapshot consumed. -/
def InstallSound (hashBlock : BlockHash → List ℕ → BlockHash) (mix : ℕ → ℕ → ℕ) (blockSize : ℕ) :
    Install → Prop
  | .cloned snapshot chain => ∃ images tokens,
      chain.Names hashBlock mix (max blockSize 1) images tokens ∧
        snapshot.consumed = (substituted mix images tokens).take snapshot.position
  | .named snapshot hashes => ∀ leaf, hashes.getLast? = some leaf →
      Filed hashBlock blockSize leaf snapshot
  | .inserted snapshot leaf => Filed hashBlock blockSize leaf snapshot
  | _ => True

/-- The handler has a snapshot that fits its request. -/
def PlacingSound (hashBlock : BlockHash → List ℕ → BlockHash) (mix : ℕ → ℕ → ℕ) (blockSize : ℕ) :
    Placing → Prop
  | .matched req (some hash) => hash ∈ (chainOf hashBlock mix blockSize req).hashes
  | .took req (some snapshot) => Fits mix req snapshot
  | .scored req (some snapshot) _ => Fits mix req snapshot
  | _ => True

/-- Every snapshot, published or on its way to be, belongs to a prefix of the session it is filed
under, and every chain names its own session. -/
structure Tracks (hashBlock : BlockHash → List ℕ → BlockHash) (mix : ℕ → ℕ → ℕ) (blockSize : ℕ)
    (s : Engine) : Prop where
  shared : ∀ hash held, s.snapshots.entries.lookup hash = some held →
    Filed hashBlock blockSize hash held.value
  chains : ∀ key chain, s.requestChains key = some chain → ∃ session, s.sessions key = some session ∧
    NamesSession hashBlock mix blockSize chain session (s.unpushed key)
  placing : PlacingSound hashBlock mix blockSize s.placing
  coming : ∀ key chain, s.placing.chain? = some (key, chain) →
    ∃ session, s.sessions key = some session ∧
      NamesSession hashBlock mix blockSize chain session (s.unpushed key)
  generated : ∀ w a, s.applying w = some a → ∀ p ∈ a.generated, s.sessions (w, p.1) ≠ none
  retained : ∀ w a, s.applying w = some a → ∀ p ∈ a.retained, ∃ session,
    s.sessions (w, p.1) = some session ∧ Retained mix session p.2
  install : ∀ w a, s.applying w = some a → InstallSound hashBlock mix blockSize a.install
  resumed : ∀ key session, s.sessions key = some session → ∀ snapshot,
    session.resumed = some snapshot → Fits mix session.toIncoming snapshot

theorem tracks_start : Tracks hashBlock mix blockSize (start blockSize) where
  shared _ _ h := by cases h
  chains _ _ h := by cases h
  placing := trivial
  coming _ _ h := by cases h
  generated _ _ h := by cases h
  retained _ _ h := by cases h
  install _ _ h := by cases h
  resumed _ _ h := by cases h

/-! ### The shared snapshots -/

/-- Every snapshot that is shared is filed under what it consumed. -/
def SharedSound (hashBlock : BlockHash → List ℕ → BlockHash) (blockSize : ℕ)
    (shared : SharedSnapshots SequenceSnapshot) : Prop :=
  ∀ hash held, shared.entries.lookup hash = some held → Filed hashBlock blockSize hash held.value

theorem SharedSound.remove {shared : SharedSnapshots SequenceSnapshot}
    (h : SharedSound hashBlock blockSize shared) (hashes : List BlockHash) :
    SharedSound hashBlock blockSize (hashes.foldl SharedSnapshots.remove shared) := by
  induction hashes generalizing shared with
  | nil => exact h
  | cons hash hashes ih =>
    refine ih fun other held hheld => h other held ?_
    rcases eq_or_ne other hash with rfl | hne
    · rw [SharedSnapshots.remove, AList.lookup_erase] at hheld
      cases hheld
    · rwa [SharedSnapshots.remove, AList.lookup_erase_ne hne] at hheld

theorem SharedSound.takeForReuse {shared : SharedSnapshots SequenceSnapshot}
    (h : SharedSound hashBlock blockSize shared) (hash : BlockHash) :
    SharedSound hashBlock blockSize (shared.takeForReuse hash).2 ∧
      ∀ snapshot, (shared.takeForReuse hash).1 = some snapshot →
        Filed hashBlock blockSize hash snapshot := by
  constructor
  · intro other held hheld
    have hvalue : ((shared.takeForReuse hash).2.entries.lookup other).map Held.value =
        (shared.entries.lookup other).map Held.value := by
      refine AList.lookup_modify_map ?_ hash other shared.entries
      exact fun _ => rfl
    rw [hheld, Option.map_some, eq_comm, Option.map_eq_some_iff] at hvalue
    obtain ⟨held', hlookup, hsame⟩ := hvalue
    rw [← hsame]
    exact h other held' hlookup
  · intro snapshot htaken
    obtain ⟨held, hlookup, rfl⟩ := Option.map_eq_some_iff.mp htaken
    exact h hash held hlookup

theorem SharedSound.publish {shared : SharedSnapshots SequenceSnapshot}
    (h : SharedSound hashBlock blockSize shared) (hfiled : Filed hashBlock blockSize hash snapshot)
    (w : WorkerId) :
    SharedSound hashBlock blockSize
      (shared.publish (fun _ (world : Unit) => world) hash w snapshot ()).1 := by
  intro other held hheld
  rcases eq_or_ne other hash with rfl | hne
  · have hheld' := (AList.lookup_insert shared.entries).symm.trans hheld
    cases hheld'
    exact hfiled
  · exact h other held ((AList.lookup_insert_ne hne).symm.trans hheld)

/-! ### The names of a match -/

/-- What a match finds is among the names it was asked for. -/
theorem gdnSnapshotHash_mem {t : RadixTree} {hashes : List BlockHash}
    (h : (t.matchPrefix hashes).gdnSnapshotHash = some hash) : hash ∈ hashes := by
  have hfrom : ∀ (hashes : List BlockHash) (result : PrefixMatch),
      (t.matchFrom hashes result).gdnSnapshotHash = some hash →
        result.gdnSnapshotHash = some hash ∨ hash ∈ hashes := by
    intro hashes
    induction hashes with
    | nil => exact fun result h => .inl h
    | cons h hashes ih =>
      intro result hfound
      rw [RadixTree.matchFrom] at hfound
      split at hfound
      · exact .inl hfound
      · rename_i node _
        rcases ih _ hfound with hbefore | hmem
        · rw [RadixTree.extendMatch] at hbefore
          dsimp only at hbefore
          split at hbefore
          · obtain rfl : h = hash := Option.some.inj hbefore
            exact .inr List.mem_cons_self
          · exact .inl hbefore
        · exact .inr (List.mem_cons_of_mem _ hmem)
  exact (hfrom hashes _ h).resolve_left (by simp)

/-- A chain names a snapshot by what it consumed. -/
theorem filed_of_named {chain : SequenceChain} {images : List ImagePlacement} {tokens : List Token}
    {hashes : List BlockHash} {leaf : BlockHash}
    (hnames : chain.Names hashBlock mix (max blockSize 1) images tokens)
    (hconsumed : snapshot.consumed = (substituted mix images tokens).take snapshot.position)
    (hnamed : chain.hashesFor snapshot.position = some hashes) (hleaf : hashes.getLast? = some leaf) :
    Filed hashBlock blockSize leaf snapshot := by
  have hn : 0 < max blockSize 1 := by omega
  obtain ⟨⟨-, hdvd, hle⟩, rfl⟩ := (hnames.hashesFor hn snapshot.position hashes).mp hnamed
  have hlength : (substituted mix images tokens).length = tokens.length := substituted_length
  rw [← hlength] at hle
  refine ⟨by rw [hconsumed, List.length_take_of_le hle], hdvd, ?_⟩
  rw [hconsumed, ← getLast?_chainHashes]
  exact (congrArg (fun o => Option.getD o rootHash) hleaf).symm

/-! ### One action -/

theorem generatedBy_eq_nil {id : ℕ} {generated : List (ℕ × Token)} (h : ∀ p ∈ generated, p.1 ≠ id) :
    generatedBy id generated = [] := by
  simpa [generatedBy, List.filter_eq_nil_iff] using fun a b hab => h (a, b) hab

theorem unpushed_congr {key : RequestKey} (h : s'.applying key.1 = s.applying key.1) :
    s'.unpushed key = s.unpushed key := by
  rw [unpushed, unpushed, h]

/-- An action of a loop that pushes nothing: its installation moves on. -/
theorem Tracks.installing (h : Tracks hashBlock mix blockSize s) {w : WorkerId} {a a' : Applying}
    (happlying : s.applying w = some a)
    (hafter : s'.applying = Function.update s.applying w (some a'))
    (hgenerated : a'.generated = a.generated) (hpushed : a'.pushed = a.pushed)
    (hretained : a'.retained ⊆ a.retained)
    (hinstall : InstallSound hashBlock mix blockSize a'.install)
    (hchains : s'.requestChains = s.requestChains) (hsessions : s'.sessions = s.sessions)
    (hplacing : s'.placing = s.placing)
    (hshared : SharedSound hashBlock blockSize s'.snapshots) :
    Tracks hashBlock mix blockSize s' := by
  have hunpushed : ∀ key, s'.unpushed key = s.unpushed key := by
    intro key
    rcases eq_or_ne key.1 w with hw | hne
    · rw [unpushed, unpushed, hafter, hw, Function.update_self, happlying]
      simp only [hgenerated, hpushed]
    · exact unpushed_congr (by rw [hafter, Function.update_of_ne hne])
  have hold : ∀ w' b, s'.applying w' = some b → w' = w ∧ b = a' ∨ s.applying w' = some b := by
    intro w' b hb
    rw [hafter] at hb
    rcases eq_or_ne w' w with rfl | hne
    · rw [Function.update_self] at hb
      exact .inl ⟨rfl, (Option.some.inj hb).symm⟩
    · rw [Function.update_of_ne hne] at hb
      exact .inr hb
  refine ⟨hshared, ?_, hplacing ▸ h.placing, ?_, ?_, ?_, ?_, ?_⟩
  · intro key chain hchain
    rw [hunpushed, hsessions]
    exact h.chains key chain (hchains ▸ hchain)
  · intro key chain hchain
    rw [hunpushed, hsessions]
    exact h.coming key chain (hplacing ▸ hchain)
  · intro w' b hb p hp
    rw [hsessions]
    rcases hold w' b hb with ⟨rfl, rfl⟩ | hb
    · exact h.generated w' a happlying p (hgenerated ▸ hp)
    · exact h.generated w' b hb p hp
  · intro w' b hb p hp
    rw [hsessions]
    rcases hold w' b hb with ⟨rfl, rfl⟩ | hb
    · exact h.retained w' a happlying p (hretained hp)
    · exact h.retained w' b hb p hp
  · intro w' b hb
    rcases hold w' b hb with ⟨rfl, rfl⟩ | hb
    · exact hinstall
    · exact h.install w' b hb
  · rw [hsessions]
    exact h.resumed

/-- An action of the handler that admits and names nothing. -/
theorem Tracks.moving (h : Tracks hashBlock mix blockSize s) (hchains : s'.requestChains = s.requestChains)
    (hsessions : s'.sessions = s.sessions) (happlying : s'.applying = s.applying)
    (hplacing : PlacingSound hashBlock mix blockSize s'.placing)
    (hcoming : ∀ entry, s'.placing.chain? = some entry → s.placing.chain? = some entry)
    (hshared : SharedSound hashBlock blockSize s'.snapshots) :
    Tracks hashBlock mix blockSize s' := by
  have hunpushed : ∀ key, s'.unpushed key = s.unpushed key :=
    fun key => unpushed_congr (by rw [happlying])
  refine ⟨hshared, ?_, hplacing, ?_, ?_, ?_, ?_, ?_⟩
  · intro key chain hchain
    rw [hunpushed, hsessions]
    exact h.chains key chain (hchains ▸ hchain)
  · intro key chain hchain
    rw [hunpushed, hsessions]
    exact h.coming key chain (hcoming _ hchain)
  · rw [happlying, hsessions]
    exact h.generated
  · rw [happlying, hsessions]
    exact h.retained
  · rw [happlying]
    exact h.install
  · rw [hsessions]
    exact h.resumed

/-- A handler admits its request. -/
theorem Tracks.place (h : Tracks hashBlock mix blockSize s) {snapshot : Option SequenceSnapshot}
    {referenced : ℕ} {key : RequestKey} (hplacing : s.placing = .scored req snapshot referenced)
    (hnew : s.sessions key = none) {hashes : List BlockHash} :
    Tracks hashBlock mix blockSize { s with
      sessions := Function.update s.sessions key (some ⟨req, [], snapshot⟩)
      placing := .admitted key (chainOf hashBlock mix blockSize req) hashes } := by
  have hother : ∀ {key' session}, s.sessions key' = some session →
      Function.update s.sessions key (some ⟨req, [], snapshot⟩) key' = some session := by
    intro key' session hsession
    have hne : key' ≠ key := by
      rintro rfl
      simp [hnew] at hsession
    rw [Function.update_of_ne hne, hsession]
  -- no loop holds a token of a request that is not admitted
  have hsilent : s.unpushed key = [] := by
    rw [unpushed]
    split
    · rename_i a ha
      split
      · rfl
      · refine generatedBy_eq_nil fun p hp hid => ?_
        have hkey : (key.1, p.1) = key := by rw [hid]
        exact h.generated key.1 a ha p hp (hkey ▸ hnew)
    · rfl
  refine ⟨h.shared, ?_, trivial, ?_, ?_, ?_, h.install, ?_⟩
  -- chains that were there name the sessions they named
  · intro key' chain hchain
    obtain ⟨session, hsession, hnames⟩ := h.chains key' chain hchain
    exact ⟨session, hother hsession, hnames⟩
  -- the chain that is coming names the new prompt, of which nothing is pushed yet
  · intro key' chain hchain
    obtain ⟨rfl, rfl⟩ := Prod.mk.inj (Option.some.inj hchain)
    refine ⟨⟨req, [], snapshot⟩, Function.update_self _ _ _, req.prompt, ?_, ?_⟩
    · exact SequenceChain.new_names blockSize req.prompt req.images
    · change req.prompt ++ s.unpushed key = req.prompt ++ []
      rw [hsilent]
  -- no session went away, so the loops still serve sessions
  · intro w a ha p hp
    obtain ⟨session, hsession⟩ := Option.ne_none_iff_exists'.mp (h.generated w a ha p hp)
    exact ne_of_eq_of_ne (hother hsession) (Option.some_ne_none _)
  · intro w a ha p hp
    obtain ⟨session, hsession, hretained⟩ := h.retained w a ha p hp
    exact ⟨session, hother hsession, hretained⟩
  -- the new session resumes the snapshot that the placement checked
  · intro key' session hsession snapshot' hresumed
    dsimp only at hsession
    rcases eq_or_ne key' key with rfl | hne
    · rw [Function.update_self] at hsession
      obtain rfl := Option.some.inj hsession
      have hsound := h.placing
      rw [hplacing] at hsound
      obtain rfl : snapshot = some snapshot' := hresumed
      exact hsound
    · rw [Function.update_of_ne hne] at hsession
      exact h.resumed key' session hsession snapshot' hresumed

/-- A loop steps its worker. -/
theorem Tracks.step (h : Tracks hashBlock mix blockSize s) {w : WorkerId}
    {generated : List (ℕ × Token)} {retained : List (ℕ × SequenceSnapshot)}
    (hidle : s.applying w = none) (hgenerated : ∀ p ∈ generated, s.sessions (w, p.1) ≠ none)
    (hretained : ∀ p ∈ retained, ∃ session,
      stepped w generated s.sessions (w, p.1) = some session ∧ Retained mix session p.2) :
    Tracks hashBlock mix blockSize ({ s with sessions := stepped w generated s.sessions
      }.setApplying w (some ⟨generated, false, retained, .idle⟩)) := by
  set s' := ({ s with sessions := stepped w generated s.sessions }.setApplying w
    (some ⟨generated, false, retained, .idle⟩)) with hs'
  have hsessions : s'.sessions = stepped w generated s.sessions := rfl
  have hother : ∀ {w'}, w' ≠ w → s'.applying w' = s.applying w' :=
    fun hne => Function.update_of_ne hne _ _
  have hself : s'.applying w = some ⟨generated, false, retained, .idle⟩ :=
    Function.update_self _ _ _
  have hnames : ∀ {key chain}, (∃ session, s.sessions key = some session ∧
      NamesSession hashBlock mix blockSize chain session (s.unpushed key)) →
      ∃ session, s'.sessions key = some session ∧
        NamesSession hashBlock mix blockSize chain session (s'.unpushed key) := by
    rintro key chain ⟨session, hsession, tokens, hchain, htokens⟩
    rw [hsessions, stepped, hsession, Option.map_some]
    refine ⟨_, rfl, tokens, ?_⟩
    rcases eq_or_ne key.1 w with hw | hne
    -- on this worker the tokens of the step are exactly what its chains have yet to take
    · have hbefore : s.unpushed key = [] := by
        rw [unpushed, hw, hidle]
      have hafter : s'.unpushed key = generatedBy key.2 generated := by
        rw [unpushed, hw, hself]
        rfl
      rw [hbefore, List.append_nil] at htokens
      rw [if_pos hw, hafter]
      refine ⟨hchain, ?_⟩
      rw [htokens]
      exact List.append_assoc _ _ _
    -- another worker's session does not change
    · rw [if_neg hne, unpushed_congr (hother hne)]
      exact ⟨hchain, htokens⟩
  refine ⟨h.shared, fun key chain hchain => hnames (h.chains key chain hchain), h.placing,
    fun key chain hchain => hnames (h.coming key chain hchain), ?_, ?_, ?_, ?_⟩
  -- the worker's tokens and snapshots belong to sessions; other workers have theirs as before
  · intro w' a ha p hp
    rw [hsessions, Ne, stepped, Option.map_eq_none_iff]
    rcases eq_or_ne w' w with rfl | hne
    · rw [hself] at ha
      obtain rfl := Option.some.inj ha
      exact hgenerated p hp
    · exact h.generated w' a (hother hne ▸ ha) p hp
  · intro w' a ha p hp
    rcases eq_or_ne w' w with rfl | hne
    · rw [hself] at ha
      obtain rfl := Option.some.inj ha
      exact hretained p hp
    · obtain ⟨session, hsession, hfirst⟩ := h.retained w' a (hother hne ▸ ha) p hp
      refine ⟨session, ?_, hfirst⟩
      rw [hsessions, stepped, hsession, Option.map_some, if_neg hne]
  · intro w' a ha
    rcases eq_or_ne w' w with rfl | hne
    · rw [hself] at ha
      obtain rfl := Option.some.inj ha
      trivial
    · exact h.install w' a (hother hne ▸ ha)
  -- what a session resumed stays what it was, whatever is generated behind it
  · intro key session hsession snapshot hresumed
    obtain ⟨before, hbefore, rfl⟩ := Option.map_eq_some_iff.mp hsession
    by_cases hw : key.1 = w
    · rw [if_pos hw] at hresumed ⊢
      exact h.resumed key before hbefore snapshot hresumed
    · rw [if_neg hw] at hresumed ⊢
      exact h.resumed key before hbefore snapshot hresumed

/-- A loop pushes what it took, none of it for a request that is not named yet. -/
theorem Tracks.extend (h : Tracks hashBlock mix blockSize s) {w : WorkerId} {a : Applying}
    (happlying : s.applying w = some a) (hpushed : a.pushed = false)
    (htimely : ∀ key, s.placing.key? = some key → key.1 = w → generatedBy key.2 a.generated = []) :
    Tracks hashBlock mix blockSize ({ s with
      requestChains := extendChains hashBlock mix w a.generated s.requestChains }.setApplying w
        (some { a with pushed := true })) := by
  set s' := ({ s with requestChains := extendChains hashBlock mix w a.generated s.requestChains
    }.setApplying w (some { a with pushed := true })) with hs'
  have hother : ∀ {w'}, w' ≠ w → s'.applying w' = s.applying w' :=
    fun hne => Function.update_of_ne hne _ _
  have hself : s'.applying w = some { a with pushed := true } := Function.update_self _ _ _
  -- what the loop took is pushed to the chains of this worker, all at once
  have hbefore : ∀ {key : RequestKey}, key.1 = w → s.unpushed key = generatedBy key.2 a.generated := by
    intro key hw
    rw [unpushed, hw, happlying]
    simp [hpushed]
  have hafter : ∀ {key : RequestKey}, key.1 = w → s'.unpushed key = [] := by
    intro key hw
    rw [unpushed, hw, hself]
    rfl
  have hold : ∀ w' b, s'.applying w' = some b → ∃ b', s.applying w' = some b' ∧
      b.generated = b'.generated ∧ b.retained = b'.retained ∧ b.install = b'.install := by
    intro w' b hb
    rcases eq_or_ne w' w with rfl | hne
    · rw [hself] at hb
      obtain rfl := Option.some.inj hb
      exact ⟨a, happlying, rfl, rfl, rfl⟩
    · exact ⟨b, hother hne ▸ hb, rfl, rfl, rfl⟩
  have hn : 0 < max blockSize 1 := by omega
  refine ⟨h.shared, ?_, h.placing, ?_, ?_, ?_, ?_, h.resumed⟩
  -- a chain of this worker grows by the tokens it lacked
  · intro key chain hchain
    obtain ⟨before, hchain', rfl⟩ := Option.map_eq_some_iff.mp hchain
    obtain ⟨session, hsession, tokens, hnames, htokens⟩ := h.chains key before hchain'
    refine ⟨session, hsession, ?_⟩
    by_cases hw : key.1 = w
    · rw [if_pos hw, hafter hw]
      refine ⟨tokens ++ generatedBy key.2 a.generated, hnames.extend hn _, ?_⟩
      rw [List.append_nil, ← hbefore hw, htokens]
    · rw [if_neg hw, unpushed_congr (hother hw)]
      exact ⟨tokens, hnames, htokens⟩
  -- the chain of the placement in progress takes none, since none of these tokens are its own
  · intro key chain hchain
    obtain ⟨session, hsession, tokens, hnames, htokens⟩ := h.coming key chain hchain
    refine ⟨session, hsession, tokens, hnames, ?_⟩
    by_cases hw : key.1 = w
    · have hkey : s.placing.key? = some key := by
        rw [Placing.key?, show s.placing.chain? = some (key, chain) from hchain]
        rfl
      rw [hbefore hw, htimely key hkey hw] at htokens
      rw [hafter hw, htokens]
    · rw [unpushed_congr (hother hw), htokens]
  -- generated tokens, snapshots and installations are those of before
  · intro w' b hb p hp
    obtain ⟨b', hb', hgenerated, -, -⟩ := hold w' b hb
    exact h.generated w' b' hb' p (hgenerated ▸ hp)
  · intro w' b hb p hp
    obtain ⟨b', hb', -, hretained, -⟩ := hold w' b hb
    exact h.retained w' b' hb' p (hretained ▸ hp)
  · intro w' b hb
    obtain ⟨b', hb', -, -, hinstall⟩ := hold w' b hb
    exact hinstall ▸ h.install w' b' hb'

/-- A step is folded in. -/
theorem Tracks.finish (h : Tracks hashBlock mix blockSize s) {w : WorkerId} {a : Applying}
    (happlying : s.applying w = some a) (hpushed : a.pushed = true) :
    Tracks hashBlock mix blockSize (s.setApplying w none) := by
  have hunpushed : ∀ key, (s.setApplying w none).unpushed key = s.unpushed key := by
    intro key
    rcases eq_or_ne key.1 w with hw | hne
    · rw [unpushed, unpushed, setApplying_applying, hw, Function.update_self, happlying]
      simp [hpushed]
    · exact unpushed_congr (Function.update_of_ne hne _ _)
  have hold : ∀ w' b, (s.setApplying w none).applying w' = some b → s.applying w' = some b := by
    intro w' b hb
    rw [setApplying_applying] at hb
    rcases eq_or_ne w' w with rfl | hne
    · rw [Function.update_self] at hb
      cases hb
    · rwa [Function.update_of_ne hne] at hb
  refine ⟨h.shared, fun key chain hchain => ?_, h.placing, fun key chain hchain => ?_,
    fun w' b hb => h.generated w' b (hold w' b hb), fun w' b hb => h.retained w' b (hold w' b hb),
    fun w' b hb => h.install w' b (hold w' b hb), h.resumed⟩
  · rw [hunpushed]
    exact h.chains key chain hchain
  · rw [hunpushed]
    exact h.coming key chain hchain

theorem Tracks.timelyStep (hfree : CollisionFree hashBlock rootHash Set.univ)
    (h : Tracks hashBlock mix blockSize s) (hstep : StepUnder hashBlock mix blockSize Timely s l s') :
    Tracks hashBlock mix blockSize s' := by
  obtain ⟨hstep, htimely⟩ := hstep
  cases hstep with
  -- what the tree names for resumption is one of the request's own hashes
  | @matchPrefix req hplacing =>
    refine h.moving rfl rfl rfl ?_ (fun _ hentry => by cases hentry) h.shared
    dsimp only
    cases hfound : (matched hashBlock mix blockSize s req).gdnSnapshotHash with
    | none => trivial
    | some hash => exact gdnSnapshotHash_mem hfound
  -- a snapshot taken is filed under that hash, so it fits the prompt
  | @take req hash hplacing =>
    obtain ⟨hshared, htaken⟩ := SharedSound.takeForReuse h.shared hash
    refine h.moving rfl rfl rfl ?_ (fun _ hentry => by cases hentry) hshared
    dsimp only
    cases hsnapshot : (s.snapshots.takeForReuse hash).1.filter (reusable req) with
    | none => trivial
    | some snapshot =>
      have hsound := h.placing
      rw [hplacing] at hsound
      exact (htaken snapshot (Option.filter_eq_some_iff.mp hsnapshot).1).fits hfree hsound
  | takeNone hplacing => exact h.moving rfl rfl rfl trivial (fun _ hentry => by cases hentry) h.shared
  | @score req snapshot held hplacing =>
    refine h.moving rfl rfl rfl ?_ (fun _ hentry => by cases hentry) h.shared
    have hsound := h.placing
    rw [hplacing] at hsound
    cases snapshot with
    | none => trivial
    | some snapshot => exact hsound
  | refuse => exact h.moving rfl rfl rfl trivial (fun _ hentry => by cases hentry) h.shared
  | place hplacing hnew => exact h.place hplacing hnew
  -- counting, skipping and recording leave chains and sessions alone
  | count hplacing =>
    exact h.moving rfl rfl rfl trivial (fun _ hentry => by rw [hplacing]; exact hentry) h.shared
  | skip hplacing =>
    exact h.moving rfl rfl rfl trivial (fun _ hentry => by rw [hplacing]; exact hentry) h.shared
  | record hplacing =>
    exact h.moving rfl rfl rfl trivial (fun _ hentry => by rw [hplacing]; exact hentry) h.shared
  -- the chain that was coming is now filed under its key
  | @name key chain hplacing =>
    refine ⟨h.shared, fun key' chain' hchain => ?_, trivial, (fun _ _ hentry => by cases hentry),
      h.generated, h.retained, h.install, h.resumed⟩
    dsimp only at hchain
    rcases eq_or_ne key' key with rfl | hne
    · rw [Function.update_self] at hchain
      obtain rfl := Option.some.inj hchain
      exact h.coming key' chain (by rw [hplacing]; rfl)
    · rw [Function.update_of_ne hne] at hchain
      exact h.chains key' chain' hchain
  | step hidle hgenerated hretained => exact h.step hidle hgenerated hretained
  | @extend w a happlying hpushed =>
    exact h.extend happlying hpushed fun key => htimely w a key rfl happlying
  -- the installation takes the chain as it is: everything generated has been pushed to it
  | @clone w a p more chain happlying hpushed hidle hnext hchain =>
    refine h.installing happlying rfl rfl rfl (by rw [hnext]; exact List.subset_cons_self _ _) ?_
      rfl rfl rfl h.shared
    obtain ⟨session, hsession, tokens, hnames, htokens⟩ := h.chains (w, p.1) chain hchain
    obtain ⟨session', hsession', hretained⟩ :=
      h.retained w a happlying p (by rw [hnext]; exact List.mem_cons_self)
    obtain rfl : session = session' := Option.some.inj (hsession.symm.trans hsession')
    have hunpushed : s.unpushed (w, p.1) = [] := by
      rw [unpushed, happlying]
      simp [hpushed]
    rw [hunpushed, List.append_nil] at htokens
    exact ⟨session.images, tokens, hnames, htokens ▸ hretained.consumed_eq⟩
  | @unnamed w a p more happlying hpushed hidle hnext hchain =>
    exact h.installing happlying rfl rfl rfl (by rw [hnext]; exact List.subset_cons_self _ _)
      (h.install w a happlying) rfl rfl rfl h.shared
  | stop happlying =>
    exact h.installing happlying rfl rfl rfl (List.Subset.refl _) trivial rfl rfl rfl h.shared
  -- what is reclaimed leaves the map, and what was named is filed under its hash
  | @reclaim w a snapshot chain hashes dropped happlying hinstall hnamed hagrees =>
    have hsound := h.install w a happlying
    rw [hinstall] at hsound
    obtain ⟨images, tokens, hnames, hconsumed⟩ := hsound
    exact h.installing happlying rfl rfl rfl (List.Subset.refl _)
      (fun leaf hleaf => filed_of_named hnames hconsumed hnamed hleaf) rfl rfl rfl
      (SharedSound.remove h.shared dropped)
  | @insert w a snapshot hashes leaf happlying hinstall hleaf =>
    have hsound := h.install w a happlying
    rw [hinstall] at hsound
    exact h.installing happlying rfl rfl rfl (List.Subset.refl _) (hsound leaf hleaf) rfl rfl rfl
      h.shared
  -- the leaf's snapshot enters the map under the hash it was filed for
  | @publish w a snapshot leaf happlying hinstall =>
    have hsound := h.install w a happlying
    rw [hinstall] at hsound
    exact h.installing happlying rfl rfl rfl (List.Subset.refl _) trivial rfl rfl rfl
      (SharedSound.publish h.shared hsound w)
  | evict order excess happlying hinstall =>
    exact h.installing happlying rfl rfl rfl (List.Subset.refl _) trivial rfl rfl rfl h.shared
  | forget happlying hinstall =>
    exact h.installing happlying rfl rfl rfl (List.Subset.refl _) trivial rfl rfl rfl
      (SharedSound.remove h.shared _)
  | finish happlying hpushed => exact h.finish happlying hpushed
  -- a chain is dropped; the others stay
  | @unname key =>
    refine ⟨h.shared, fun key' chain hchain => ?_, h.placing, h.coming, h.generated, h.retained,
      h.install, h.resumed⟩
    dsimp only at hchain
    rcases eq_or_ne key' key with rfl | hne
    · rw [Function.update_self] at hchain
      cases hchain
    · rw [Function.update_of_ne hne] at hchain
      exact h.chains key' chain hchain
  | unrecord =>
    exact ⟨h.shared, h.chains, h.placing, h.coming, h.generated, h.retained, h.install, h.resumed⟩
  | release =>
    exact ⟨h.shared, h.chains, h.placing, h.coming, h.generated, h.retained, h.install, h.resumed⟩

variable {ls : List Action}

/-- A request resumes only from a snapshot that consumed the first tokens of its own prompt,
in every interleaving that pushes no token for a request before it is named. -/
theorem resumes_own_prefix (hfree : CollisionFree hashBlock rootHash Set.univ)
    (hrun : Run (StepUnder hashBlock mix blockSize Timely) (start blockSize) ls s) :
    ∀ key session snapshot, s.sessions key = some session → session.resumed = some snapshot →
      snapshot.consumed.length = snapshot.position ∧
        snapshot.consumed <+: substituted mix session.images session.prompt := by
  intro key session snapshot hsession hresumed
  have htracks := hrun.invariant tracks_start fun h hstep => h.timelyStep hfree hstep
  have hfits := htracks.resumed key session hsession snapshot hresumed
  exact ⟨hfits.length_eq, hfits.consumed_prefix⟩

end Reuse

/-- A second request resumes from the prefix of the first. -/
theorem resumes_own_prefix_witness : ∃ s : Engine,
    s.sessions (0, 2) = some ⟨secondReq, [], some firstSnapshot⟩ ∧
      firstSnapshot.consumed.length = firstSnapshot.position ∧
        firstSnapshot.consumed <+: substituted Nat.pair secondReq.images secondReq.prompt := by
  obtain ⟨ls, s, hrun, -, -, -, hsession⟩ := second_counted
  exact ⟨s, hsession, resumes_own_prefix pairHash_collisionFree (hrun.mono fun h => ⟨h.1, h.2.1⟩)
    (0, 2) _ _ hsession rfl⟩

end Engine
