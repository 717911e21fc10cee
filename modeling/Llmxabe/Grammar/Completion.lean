/-
While the constraint masks, the call can be completed.

The cursors of a constraint that masks are those after some bytes
(`Masked`), a run that waits in the machine can go on to `accept`
(`Machine.completes`), and a byte on the way there is a token of any vocabulary
with single bytes (`exists_allowed`).  All of it rests on every tool being able to
write what the machine requires of it (`Completable`), which is so for up to 65536
tools: the index of a tool is cast to sixteen bits, and past them it looks up
another tool's required parameters.

* `constraint_never_deadlocks`: the cursors stay alive, and a token is admitted;
* `wrapped_tool_never_completes`: with 65537 tools the last one cannot be called.
-/
import Llmxabe.Grammar.Constraint

open Computability

namespace Grammar

open Reference (this oneOf)
open ToolConstraint (observe observeBytes feedArmed triggerAt tokenBytes)

/-- Each value can be written, and a tool has the parameters that are required under
its index. -/
structure Completable (tools : List ToolSpec) : Prop where
  values : ∀ tool ∈ tools, ∀ param ∈ tool.params, param.value ≠ .literals []
  covered : ∀ index tool, tools[index]? = some tool → ∀ j < 64,
    ((tools.map requiredBits).getD (index % 65536) 0).getLsbD j = true →
      ∃ k < tool.params.length, k % 256 = j

theorem Completable.of_length {tools : List ToolSpec} (hlen : tools.length ≤ 65536)
    (hvalues : ∀ tool ∈ tools, ∀ param ∈ tool.params, param.value ≠ .literals []) :
    Completable tools where
  values := hvalues
  covered index tool htool j hj hbit := by
    obtain ⟨hlt, -⟩ := List.getElem?_eq_some_iff.mp htool
    rw [Nat.mod_eq_of_lt (by omega), List.getD_eq_getElem?_getD, List.getElem?_map, htool] at hbit
    obtain ⟨param, k, hparam, -, hk⟩ := (requiredBits_getLsbD hj).mp hbit
    exact ⟨k, (List.getElem?_eq_some_iff.mp hparam).1, hk⟩

/-! ### Every part of a call has a word -/

theorem exists_value {spec : ValueSpec} (h : spec ≠ .literals []) :
    ∃ w, w ∈ Reference.value Reference.exponentInteger spec := by
  have hclose : ∃ w, w ∈ ({CLOSE} : Language UInt8) := ⟨CLOSE, mem_self CLOSE⟩
  have hsign : ∃ w, w ∈ 1 + this "-" := exists_optional _
  cases spec with
  | text => exact ⟨CLOSE, List.suffix_refl CLOSE, fun p hpre hsuf =>
      hpre.eq_of_length (Nat.le_antisymm hpre.length_le hsuf.length_le)⟩
  | literals literals =>
    obtain ⟨word, rest, rfl⟩ := List.exists_cons_of_ne_nil (fun hnil => h (hnil ▸ rfl))
    exact exists_mul ⟨word, List.mem_cons_self⟩ hclose
  | boolean => exact exists_mul ⟨bytes "true", Or.inl rfl⟩ hclose
  | integer =>
    exact exists_mul (exists_mul hsign (exists_mul exists_magnitude (exists_optional _))) hclose
  | number =>
    exact exists_mul (exists_mul hsign (exists_mul exists_magnitude
      (exists_mul (exists_optional _) (exists_optional _)))) hclose
  | null => exact exists_mul ⟨bytes "null", rfl⟩ hclose

theorem exists_parameterWords {param : ParamSpec} (h : param.value ≠ .literals []) :
    ∃ w, w ∈ parameterWords param :=
  exists_mul ⟨_, mem_self _⟩ (exists_value h)

/-- Whatever is written, the parameters of a list can be marked too. -/
theorem exists_writes {spec : ToolSpec}
    (hvalues : ∀ param ∈ spec.params, param.value ≠ .literals []) (indices : List ℕ)
    (hindices : ∀ k ∈ indices, k < spec.params.length) (written : BitVec 64) :
    ∃ args written', Writes spec written args written' ∧
      (∀ j < 64, written.getLsbD j = true → written'.getLsbD j = true) ∧
      ∀ k ∈ indices, k % 256 < 64 → written'.getLsbD (k % 256) = true := by
  induction indices generalizing written with
  | nil => exact ⟨[], written, .nil written, fun _ _ h => h, fun k hk => absurd hk List.not_mem_nil⟩
  | cons k indices ih =>
    have hrest := fun k' hk' => hindices k' (List.mem_cons_of_mem k hk')
    by_cases hfree : written &&& paramBit (k % 256) = 0
    · -- not written yet
      have hparam := List.getElem?_eq_getElem (hindices k List.mem_cons_self)
      obtain ⟨word, hword⟩ := exists_parameterWords (hvalues _ (List.mem_of_getElem? hparam))
      obtain ⟨args, written', hwrites, hkept, hmarked⟩ := ih hrest (written ||| paramBit (k % 256))
      have hor : ∀ j < 64, (written ||| paramBit (k % 256)).getLsbD j =
          (written.getLsbD j || decide (k % 256 = j)) := fun j hj => by
        rw [BitVec.getLsbD_or, paramBit_getLsbD hj]
      refine ⟨(k, word) :: args, written', .cons hparam hword hfree hwrites, ?_, ?_⟩
      · intro j hj hbit
        refine hkept j hj ?_
        rw [hor j hj, hbit, Bool.true_or]
      · rintro k' (_ | ⟨_, hk'⟩) hlt
        · refine hkept _ hlt ?_
          rw [hor _ hlt, decide_eq_true rfl, Bool.or_true]
        · exact hmarked k' hk' hlt
    · -- its bit is set
      obtain ⟨args, written', hwrites, hkept, hmarked⟩ := ih hrest written
      refine ⟨args, written', hwrites, hkept, ?_⟩
      rintro k' (_ | ⟨_, hk'⟩) hlt
      · refine hkept _ hlt ?_
        by_contra hbit
        exact hfree (and_paramBit_eq_zero.mpr fun _ => Bool.not_eq_true _ ▸ hbit)
      · exact hmarked k' hk' hlt

section Completes

attribute [local irreducible] build

variable {tools : List ToolSpec} {parallel : Bool}

theorem exists_arguments (parallel : Bool) (hcompletable : Completable tools) {index : ℕ} {spec : ToolSpec}
    (hspec : tools[index]? = some spec) (written : BitVec 64) :
    ∃ w, w ∈ argumentsFrom spec
      ((Machine.compile tools parallel).required.getD (index % 65536) 0) written := by
  obtain ⟨args, written', hwrites, -, hmarked⟩ := exists_writes
    (hcompletable.values spec (List.mem_of_getElem? hspec)) (List.range spec.params.length)
    (fun k hk => List.mem_range.mp hk) written
  refine ⟨_, args, written', hwrites, and_eq_self_iff.mpr fun j hj hbit => ?_, rfl⟩
  obtain ⟨k, hk, rfl⟩ := hcompletable.covered index spec hspec j hj hbit
  exact hmarked k (List.mem_range.mpr hk) hj

theorem exists_call (parallel : Bool) (hcompletable : Completable tools) (htools : tools ≠ []) :
    ∃ w, w ∈ anyWords (Machine.compile tools parallel) tools := by
  obtain ⟨spec, rest, rfl⟩ := List.exists_cons_of_ne_nil htools
  have hfirst : (spec :: rest)[0]? = some spec := rfl
  obtain ⟨call, hcall⟩ : ∃ w, w ∈ callWords (Machine.compile (spec :: rest) parallel) spec 0 :=
    exists_mul ⟨_, mem_self _⟩ (exists_mul (exists_arguments parallel hcompletable hfirst 0)
      (exists_mul ⟨_, mem_self _⟩ ⟨_, mem_self _⟩))
  exact ⟨call, 0, spec, hfirst, hcall⟩

/-- Bytes that leave a cursor waiting begin a word of the machine. -/
theorem Machine.completes (hcompletable : Completable tools) (htools : tools ≠ [])
    {w : List UInt8}
    (halive : (Machine.compile tools parallel).feed (Machine.compile tools parallel).start w ≠ []) :
    ∃ v, (Machine.compile tools parallel).Accepts (w ++ v) := by
  have hstops : ∀ s : State, s.Waiting → s.Waiting := fun _ h => h
  obtain ⟨accept, haccept, hfragment⟩ := compile_fragment
    (fun spec hspec param hparam =>
      Or.inl (exists_value (hcompletable.values spec hspec param hparam)))
    (fun index spec hspec written => Or.inl (exists_arguments parallel hcompletable hspec written))
    (Or.inl (exists_call parallel hcompletable htools)) hstops
  obtain ⟨c, hc⟩ := List.exists_mem_of_ne_nil _ halive
  obtain ⟨hwaiting, hpath⟩ := (Machine.mem_feed (compile_settles tools parallel) w).mp hc
  simp only [accepts_iff_rootWords]
  rcases (hfragment 65535 0).passes hpath hwaiting with ⟨u, v, hu, rfl, d, rfl, hpath⟩ | ⟨v, hv, -⟩
  · -- nothing is read behind the end
    have hstuck : ((Machine.compile tools parallel).moves State.Waiting).Stuck d := by
      refine ⟨fun e => Machine.not_silent (haccept ▸ trivial), fun b e hread => ?_⟩
      simp [Machine.moves, Machine.advance, haccept] at hread
    obtain ⟨rfl, -⟩ := hpath.of_stuck hstuck
    refine ⟨[], ?_⟩
    rwa [List.append_nil, List.append_nil]
  · exact ⟨v, hv⟩

end Completes

/-! ### The constraint while it masks -/

/-- What holds of a constraint after any tokens. -/
structure Masked (m : Machine) (s : ToolConstraint) : Prop where
  idle : s.armed = false → s.broken = false
  armed : s.armed = true →
    ∃ w, s.cursors = m.feed m.start w ∧ s.broken = decide (m.feed m.start w = [])

section Masked

variable {m : Machine} {s : ToolConstraint} {w piece : List UInt8}

theorem Masked.new : Masked m ToolConstraint.new :=
  ⟨fun _ => rfl, fun h => Bool.noConfusion h⟩

theorem Masked.feedArmed (harmed : s.armed = true) (hbroken : s.broken = false)
    (hcursors : s.cursors = m.feed m.start w) (halive : m.feed m.start w ≠ []) :
    Masked m (feedArmed m s piece) ∧
      (ToolConstraint.feedArmed m s piece).cursors = m.feed s.cursors piece := by
  have hfeed : m.feed s.cursors piece = m.feed m.start (w ++ piece) := by
    rw [hcursors]
    exact (List.foldl_append ..).symm
  rw [ToolConstraint.feedArmed_eq hbroken (hcursors ▸ halive)]
  refine ⟨⟨fun h => absurd (harmed.symm.trans h) (by decide), fun _ => ⟨w ++ piece, hfeed, ?_⟩⟩, rfl⟩
  rw [hfeed]

variable (hstart : m.start ≠ [])
include hstart

theorem Masked.observeBytes (h : Masked m s) (piece : List UInt8) :
    Masked m (observeBytes m s piece) := by
  unfold ToolConstraint.observeBytes
  by_cases hbroken : s.broken = true
  · rwa [if_pos hbroken]
  · rw [if_neg hbroken]
    rw [Bool.not_eq_true] at hbroken
    by_cases harmed : s.armed = true
    · rw [if_pos harmed]
      obtain ⟨w, hcursors, hend⟩ := h.armed harmed
      exact (Masked.feedArmed harmed hbroken hcursors
        (of_decide_eq_false (hend.symm.trans hbroken))).1
    · rw [if_neg harmed]
      rw [Bool.not_eq_true] at harmed
      dsimp only
      split
      · refine (Masked.feedArmed (w := []) ?_ ?_ ?_ hstart).1
        · rfl
        · exact hbroken
        · rfl
      · exact ⟨fun _ => hbroken, fun h' => absurd (harmed.symm.trans h') (by decide)⟩

theorem Masked.observe (h : Masked m s) (v : Vocab) (token : ℤ) : Masked m (observe m v s token) := by
  unfold ToolConstraint.observe
  split
  · exact h
  · exact h.observeBytes hstart _

theorem Masked.foldl (h : Masked m s) (v : Vocab) (tokens : List ℤ) :
    Masked m (tokens.foldl (ToolConstraint.observe m v) s) := by
  induction tokens generalizing s with
  | nil => exact h
  | cons token tokens ih => exact ih (h.observe hstart v token)

end Masked

/-- A token the mask leaves and that does not end the generation. -/
def Allowed (m : Machine) (v : Vocab) (s : ToolConstraint) (token : ℕ) : Prop :=
  token < v.len ∧ token ∉ v.eog ∧ BitWords.test (v.allow m s.cursors) token = true

/-- Tokens emitted one after another, each of them allowed. -/
def AllowedRun (m : Machine) (v : Vocab) : ToolConstraint → List ℕ → Prop
  | _, [] => True
  | s, token :: tokens =>
    Allowed m v s token ∧ AllowedRun m v (observe m v s token) tokens

section Run

variable {m : Machine} {s : ToolConstraint} {pieces : List (List UInt8)} {eog : List ℕ}

theorem isMasking_iff : s.isMasking = true ↔ s.armed = true ∧ s.broken = false := by
  unfold ToolConstraint.isMasking
  rw [Bool.and_eq_true, Bool.not_eq_true']

theorem after_masking {w : List UInt8} {i : ℕ} (hfirst : triggerAt m w = some i)
    (halive : m.feed m.start (w.drop i) ≠ []) :
    (ToolConstraint.after m w).isMasking = true ∧
      (ToolConstraint.after m w).cursors = m.feed m.start (w.drop i) := by
  unfold ToolConstraint.after
  simp only [hfirst]
  exact ⟨isMasking_iff.mpr ⟨rfl, decide_eq_false halive⟩, trivial⟩

theorem Masked.alive (h : Masked m s) (hmasking : s.isMasking = true) :
    ∃ w, s.cursors = m.feed m.start w ∧ m.feed m.start w ≠ [] := by
  obtain ⟨harmed, hbroken⟩ := isMasking_iff.mp hmasking
  obtain ⟨w, hcursors, hend⟩ := h.armed harmed
  exact ⟨w, hcursors, of_decide_eq_false (hend.symm.trans hbroken)⟩

/-- An allowed token keeps the constraint masking. -/
theorem isMasking_observe (h : Masked m s) (hmasking : s.isMasking = true) {token : ℕ}
    (hallowed : Allowed m (Vocab.new pieces eog) s token) :
    (observe m (Vocab.new pieces eog) s token).isMasking = true := by
  obtain ⟨harmed, hbroken⟩ := isMasking_iff.mp hmasking
  obtain ⟨w, hcursors, halive⟩ := h.alive hmasking
  obtain ⟨hlt, heog, htest⟩ := hallowed
  have hfeed : m.feed s.cursors (pieces.getD token []) ≠ [] := by
    rcases (Vocab.test_allow eog m s.cursors hlt).2.mp htest with hadmits | ⟨hmem, -⟩
    · obtain ⟨-, piece, hpiece, hne, hfeed⟩ := hadmits
      have hspelt : pieces.getD token [] = piece := by
        rw [List.getD_eq_getElem?_getD]
        exact congrArg (Option.getD · []) hpiece
      rw [hspelt]
      by_cases hfree : m.isFreeText s.cursors = true
      · rw [if_pos hfree] at hfeed
        rcases hfeed with hfirst | hfeed
        · exact (Vocab.survives_iff hne).mp
            (Vocab.survives_freeText hfree (hcursors ▸ halive) hfirst)
        · exact hfeed
      · rw [if_neg hfree] at hfeed
        exact hfeed.2
    · exact absurd hmem heog
  have hobserve : observe m (Vocab.new pieces eog) s token =
      feedArmed m s (pieces.getD token []) := by
    have hnonneg : ¬(token : ℤ) < 0 := by omega
    unfold ToolConstraint.observe ToolConstraint.observeBytes
    rw [if_neg hnonneg, if_neg (by rw [hbroken]; decide), if_pos harmed, Int.toNat_natCast]
    rfl
  rw [hobserve, ToolConstraint.feedArmed_eq hbroken (hcursors ▸ halive)]
  exact isMasking_iff.mpr ⟨harmed, decide_eq_false hfeed⟩

theorem AllowedRun.isMasking (hstart : m.start ≠ []) {tokens : List ℕ}
    (hrun : AllowedRun m (Vocab.new pieces eog) s tokens) (h : Masked m s)
    (hmasking : s.isMasking = true) :
    (tokens.foldl (fun s token => observe m (Vocab.new pieces eog) s token) s).isMasking = true ∧
      Masked m (tokens.foldl (fun s token => observe m (Vocab.new pieces eog) s token) s) := by
  induction tokens generalizing s with
  | nil => exact ⟨hmasking, h⟩
  | cons token tokens ih =>
    obtain ⟨hallowed, hrun⟩ := hrun
    exact ih hrun (h.observe hstart _ _) (isMasking_observe h hmasking hallowed)

/-- A token is admitted on the way to the end. -/
theorem exists_allowed {cursors : List Cursor} {v : List UInt8}
    (hend : m.acceptsEnd (m.feed cursors v) = true)
    (hbytes : ∀ byte, ∃ token, pieces[token]? = some [byte] ∧ token ∉ eog)
    (heog : ∃ token ∈ eog, token < pieces.length) :
    ∃ token < pieces.length,
      BitWords.test ((Vocab.new pieces eog).allow m cursors) token = true := by
  cases v with
  | nil =>
    obtain ⟨token, hmem, hlt⟩ := heog
    exact ⟨token, hlt, (Vocab.test_allow eog m cursors hlt).2.mpr (Or.inr ⟨hmem, hend⟩)⟩
  | cons byte v =>
    have hfeed : m.feed cursors [byte] ≠ [] := by
      intro hnil
      have hdead : m.feed cursors (byte :: v) = [] := by
        change m.feed (m.feed cursors [byte]) v = []
        rw [hnil, Vocab.feed_nil]
      rw [hdead] at hend
      cases hend
    -- the last token with that byte
    obtain ⟨token, hlast⟩ : ∃ token, Vocab.LastOf pieces eog [byte] token := by
      obtain ⟨first, hfirst, hfree⟩ := hbytes byte
      have hbound : ∀ t, pieces[t]? = some [byte] ∧ t ∉ eog → t ≤ pieces.length := fun t ht =>
        (List.getElem?_eq_some_iff.mp ht.1).1.le
      have hgreatest := Nat.findGreatest_spec (P := fun t => pieces[t]? = some [byte] ∧ t ∉ eog)
        (hbound first ⟨hfirst, hfree⟩) ⟨hfirst, hfree⟩
      refine ⟨_, hgreatest.1, hgreatest.2, fun later hlater hpiece => ?_⟩
      by_contra hnot
      exact Nat.findGreatest_is_greatest hlater (hbound later ⟨hpiece, hnot⟩) ⟨hpiece, hnot⟩
    have hlt : token < pieces.length := (List.getElem?_eq_some_iff.mp hlast.1).1
    refine ⟨token, hlt, (Vocab.test_allow eog m cursors hlt).2.mpr (Or.inl ?_)⟩
    refine ⟨hlast.2.1, [byte], hlast.1, List.cons_ne_nil _ _, ?_⟩
    split
    · exact Or.inr hfeed
    · exact ⟨hlast, hfeed⟩

end Run

section Compiled

attribute [local irreducible] build

variable {tools : List ToolSpec} {parallel : Bool}

/-- A constraint that masks goes on masking through allowed tokens, its cursors can
get to the end of the call, and a vocabulary with single bytes and an
end-of-generation token has a token for it. -/
theorem constraint_never_deadlocks (htools : tools ≠ []) (hcompletable : Completable tools)
    (pieces : List (List UInt8)) (eog : List ℕ) (before : List ℤ)
    (hmasking : (before.foldl (observe (Machine.compile tools parallel)
      (Vocab.new pieces eog)) ToolConstraint.new).isMasking = true)
    (tokens : List ℕ)
    (hrun : AllowedRun (Machine.compile tools parallel) (Vocab.new pieces eog)
      (before.foldl (observe (Machine.compile tools parallel)
        (Vocab.new pieces eog)) ToolConstraint.new) tokens)
    {s : ToolConstraint}
    (hs : s = tokens.foldl (fun s token => observe (Machine.compile tools parallel)
      (Vocab.new pieces eog) s token) (before.foldl (observe (Machine.compile tools parallel)
        (Vocab.new pieces eog)) ToolConstraint.new)) :
    s.isMasking = true ∧ s.cursors ≠ [] ∧
      (∃ w, (Machine.compile tools parallel).acceptsEnd
        ((Machine.compile tools parallel).feed s.cursors w) = true) ∧
      ((∀ byte, ∃ token, pieces[token]? = some [byte] ∧ token ∉ eog) →
        (∃ token ∈ eog, token < pieces.length) → ∃ token < pieces.length,
          BitWords.test ((Vocab.new pieces eog).allow (Machine.compile tools parallel) s.cursors)
            token = true) := by
  subst hs
  have hstart := compile_start_ne_nil tools parallel
  obtain ⟨hkeeps, hmasked⟩ :=
    hrun.isMasking hstart (Masked.new.foldl hstart (Vocab.new pieces eog) before) hmasking
  obtain ⟨w, hcursors, halive⟩ := hmasked.alive hkeeps
  obtain ⟨v, haccepts⟩ := Machine.completes hcompletable htools halive
  have hend : (Machine.compile tools parallel).acceptsEnd
      ((Machine.compile tools parallel).feed
        ((Machine.compile tools parallel).feed (Machine.compile tools parallel).start w) v) =
      true := by
    have happend : (Machine.compile tools parallel).feed
        ((Machine.compile tools parallel).feed (Machine.compile tools parallel).start w) v =
        (Machine.compile tools parallel).feed (Machine.compile tools parallel).start (w ++ v) :=
      (List.foldl_append ..).symm
    rw [happend]
    exact haccepts
  rw [hcursors]
  exact ⟨hkeeps, halive, ⟨v, hend⟩, exists_allowed hend⟩

/-- A tool with a required text, and a vocabulary whose first token opens a call of it. -/
def askingTool : List ToolSpec := [⟨bytes "c", [⟨bytes "p", true, .text⟩]⟩]

/-- Two tokens: the opening of a call and the opening of its parameter. -/
def askingVocab : Vocab := Vocab.new [bytes "<function=c>", bytes "\n<parameter=p>\n"] []

theorem askingTool_completable : Completable askingTool := by
  refine .of_length (by decide) fun tool htool param hparam => ?_
  obtain rfl := List.mem_singleton.mp htool
  obtain rfl := List.mem_singleton.mp hparam
  exact nofun

/-- Within the call, behind the opening of its parameter, the end can still be reached. -/
theorem constraint_never_deadlocks_witness :
    ∃ w, (Machine.compile askingTool true).acceptsEnd
      ((Machine.compile askingTool true).feed
        ([1].foldl (fun s (token : ℕ) => observe (Machine.compile askingTool true) askingVocab s token)
          ([0].foldl (observe (Machine.compile askingTool true) askingVocab)
            ToolConstraint.new)).cursors w) = true := by
  have hmasking : ([0].foldl (observe (Machine.compile askingTool true) askingVocab)
      ToolConstraint.new).isMasking = true := by
    decide +kernel
  have hallowed : BitWords.test (askingVocab.allow (Machine.compile askingTool true)
      ([0].foldl (observe (Machine.compile askingTool true) askingVocab)
        ToolConstraint.new).cursors) 1 = true := by
    decide +kernel
  have hlen : 1 < askingVocab.len := Nat.one_lt_two
  have hrun : AllowedRun (Machine.compile askingTool true) askingVocab
      ([0].foldl (observe (Machine.compile askingTool true) askingVocab) ToolConstraint.new) [1] :=
    ⟨⟨hlen, List.not_mem_nil, hallowed⟩, trivial⟩
  obtain ⟨-, -, hend, -⟩ := constraint_never_deadlocks (List.cons_ne_nil _ _) askingTool_completable
    [bytes "<function=c>", bytes "\n<parameter=p>\n"] [] [0] hmasking [1] hrun rfl
  exact hend

end Compiled

/-! ### More tools than an index holds -/

/-- `n` and four letters. -/
def numberedName (i : ℕ) : List UInt8 :=
  0x6e :: (List.range 4).map fun k => 0x41 + UInt8.ofNat (i / 16 ^ k % 16)

/-- Tools whose indices fill sixteen bits, the first with a required parameter, and
one more without any. -/
def wrappedTools : List ToolSpec :=
  ⟨bytes "r", [⟨bytes "p", true, .text⟩]⟩ ::
    (List.range 65535).map (fun i => ⟨numberedName i, []⟩) ++ [⟨bytes "c", []⟩]

/-- The single bytes, and a token that ends the generation. -/
def byteVocab : Vocab :=
  Vocab.new ((List.range 256).map (fun i => [UInt8.ofNat i]) ++ [bytes "<|im_end|>"]) [256]

theorem wrapped_cases {index : ℕ} {spec : ToolSpec} (h : wrappedTools[index]? = some spec) :
    spec.name[0]? ≠ some 0x63 ∨ index = 65536 ∧ spec = ⟨bytes "c", []⟩ := by
  have hlen : ((List.range 65535).map fun i =>
      (⟨numberedName i, []⟩ : ToolSpec)).length = 65535 := by
    rw [List.length_map, List.length_range]
  unfold wrappedTools at h
  cases index with
  | zero =>
    rw [List.cons_append, List.getElem?_cons_zero] at h
    obtain rfl := Option.some.inj h
    exact Or.inl (by decide)
  | succ index =>
    rw [List.cons_append, List.getElem?_cons_succ] at h
    rcases Nat.lt_or_ge index 65535 with hlt | hge
    · rw [List.getElem?_append_left (by omega), List.getElem?_map] at h
      obtain ⟨i, -, rfl⟩ := Option.map_eq_some_iff.mp h
      left
      change some (0x6e : UInt8) ≠ some 0x63
      decide
    · rw [List.getElem?_append_right (by omega), hlen, List.getElem?_singleton] at h
      split at h
      · obtain rfl := Option.some.inj h
        exact Or.inr ⟨by omega, rfl⟩
      · cases h

theorem mem_wrapped : ⟨bytes "c", []⟩ ∈ wrappedTools := by
  unfold wrappedTools
  exact List.mem_append_right _ (List.mem_singleton_self _)

theorem wrapped_names : ∀ tool ∈ wrappedTools, 0x3c ∉ tool.name := by
  have hletter : ∀ x < 16, (0x3c : UInt8) ≠ 0x41 + UInt8.ofNat x := by decide
  intro tool htool
  rcases List.mem_append.mp htool with htool | htool
  · rcases List.mem_cons.mp htool with rfl | htool
    · decide
    · obtain ⟨i, -, rfl⟩ := List.mem_map.mp htool
      intro hmem
      rcases List.mem_cons.mp hmem with h | hmem
      · exact absurd h (by decide)
      · obtain ⟨k, -, hk⟩ := List.mem_map.mp hmem
        exact hletter _ (Nat.mod_lt _ (by decide)) hk.symm
  · obtain rfl := List.mem_singleton.mp htool
    decide

section Wrapped

attribute [local irreducible] build

/-- What the last tool would have to write cannot be written. -/
theorem callWords_wrapped (w : List UInt8) :
    w ∉ callWords (Machine.compile wrappedTools true) ⟨bytes "c", []⟩ 65536 := by
  intro hw
  obtain ⟨head, -, _, htail, rfl⟩ := Language.mem_mul.mp hw
  obtain ⟨_, ⟨args, written', hwrites, hcover, -⟩, -⟩ := Language.mem_mul.mp htail
  have hrequired : (Machine.compile wrappedTools true).required.getD (65536 % 65536) 0 = 1 := rfl
  rw [hrequired] at hcover
  cases hwrites with
  | nil => exact absurd hcover (by decide)
  | cons hparam => cases hparam

/-- No word of the machine calls it. -/
theorem rootWords_wrapped (v : List UInt8) :
    bytes "<function=c>" ++ v ∉
      rootWords (Machine.compile wrappedTools true) wrappedTools true := by
  intro hw
  have htag : (bytes "<function=c>" ++ v)[1]? = some 0x66 := rfl
  have hname : (bytes "<function=c>" ++ v)[10]? = some 0x63 := rfl
  obtain ⟨opener, hopener, body, hbody, hsplit⟩ := Language.mem_mul.mp hw
  rw [← hsplit] at htag hname
  rcases mem_one_add.mp hopener with rfl | rfl
  · obtain ⟨word, ⟨index, spec, hspec, hcall⟩, rest, -, rfl⟩ := Language.mem_mul.mp hbody
    rcases wrapped_cases hspec with hother | ⟨rfl, rfl⟩
    · obtain ⟨_, rfl, args, -, rfl⟩ := Language.mem_mul.mp hcall
      have hlen : (bytes "<function=").length = 10 := by decide
      cases hcase : spec.name with
      | nil =>
        rw [hcase] at hname
        exact absurd (Option.some.inj hname) (by decide)
      | cons letter name =>
        rw [hcase] at hname hother
        exact hother hname
    · exact callWords_wrapped word hcall
  · exact absurd (Option.some.inj htag) (by decide)

attribute [local irreducible] wrappedTools

/-- The last of 65537 tools can be begun and never completed. -/
theorem wrapped_tool_never_completes :
    ((bytes "<function=c>").foldl (fun s byte => observe (Machine.compile wrappedTools true)
        byteVocab s byte.toNat) ToolConstraint.new).isMasking = true ∧
      ¬∃ w, (Machine.compile wrappedTools true).acceptsEnd
        ((Machine.compile wrappedTools true).feed
          ((bytes "<function=c>").foldl (fun s byte => observe (Machine.compile wrappedTools true)
            byteVocab s byte.toNat) ToolConstraint.new).cursors w) = true := by
  have htrigger : bytes "<function=c>" ∈ (Machine.compile wrappedTools true).triggers :=
    List.mem_cons_of_mem _ (List.mem_map.mpr ⟨⟨bytes "c", []⟩, mem_wrapped, rfl⟩)
  have hstate : (bytes "<function=c>").foldl (fun s byte =>
      observe (Machine.compile wrappedTools true) byteVocab s byte.toNat) ToolConstraint.new =
      ToolConstraint.after (Machine.compile wrappedTools true) (bytes "<function=c>") := by
    have hbytes : ((bytes "<function=c>").map fun byte => (byte.toNat : ℤ)).flatMap
        (tokenBytes byteVocab) = bytes "<function=c>" := by decide +kernel
    have hafter := ToolConstraint.foldl_observe (compile_headed true wrapped_names)
      (compile_start_ne_nil wrappedTools true) byteVocab
      ((bytes "<function=c>").map fun byte => (byte.toNat : ℤ))
    rw [hbytes, List.foldl_map] at hafter
    exact hafter
  have hfirst : triggerAt (Machine.compile wrappedTools true) (bytes "<function=c>") = some 0 :=
    Markers.firstAt_eq_some_iff.mpr
      ⟨⟨_, htrigger, by decide, List.prefix_refl _⟩, fun k hk => absurd hk (Nat.not_lt_zero k)⟩
  have halive := compile_feed_trigger htrigger
  obtain ⟨hmasking, hcursors⟩ := after_masking hfirst halive
  rw [hstate]
  refine ⟨hmasking, ?_⟩
  rw [hcursors, List.drop_zero]
  rintro ⟨w, hend⟩
  refine rootWords_wrapped w ((accepts_iff_rootWords _).mp ?_)
  have happend : (Machine.compile wrappedTools true).feed
      ((Machine.compile wrappedTools true).feed (Machine.compile wrappedTools true).start
        (bytes "<function=c>")) w = (Machine.compile wrappedTools true).feed
      (Machine.compile wrappedTools true).start (bytes "<function=c>" ++ w) :=
    (List.foldl_append ..).symm
  rw [happend] at hend
  exact hend

end Wrapped

end Grammar
