/-
What a sequence carries: idle until a trigger appears, masking from there on.

The state after any tokens is a function of the bytes they spell (`after`): before
the first trigger the tail of them, from it on the machine fed from the trigger.
Triggers start with `<` and have no other, so they do not overlap and more bytes do
not move the first one.

* `constraint_chunk_invariant`: the state depends on the bytes alone, the constraint
  arms at the first trigger, and a trigger does not break it.
-/
import Llmxabe.Grammar.Language
import Llmxabe.Grammar.Vocab
import Llmxabe.Lib.Markers

namespace Grammar

/-- What a sequence carries: the bytes that may begin a trigger, or cursors. -/
structure ToolConstraint where
  tail : List UInt8
  cursors : List Cursor
  armed : Bool
  broken : Bool
  deriving DecidableEq

namespace ToolConstraint

/-- Nothing seen yet. -/
def new : ToolConstraint := { tail := [], cursors := [], armed := false, broken := false }

/-- Armed, and not broken. -/
def isMasking (s : ToolConstraint) : Bool := s.armed && !s.broken

variable (m : Machine) (v : Vocab)

/-- The bytes of the longest trigger. -/
def longestTrigger : ℕ := (m.triggers.map List.length).max?.getD 0

/-- Where the first trigger stands. -/
def triggerAt (tail : List UInt8) : Option ℕ := Markers.firstAt m.triggers tail

/-- The armed part of `observe_bytes`. -/
def feedArmed (s : ToolConstraint) : List UInt8 → ToolConstraint
  | [] => s
  | byte :: piece =>
    let cursors := m.step s.cursors byte
    -- no cursor is left: the constraint gives up masking
    if cursors = [] then { s with cursors, broken := true }
    else feedArmed { s with cursors } piece

/-- Some bytes more; the one that arms the machine is fed to it. -/
def observeBytes (s : ToolConstraint) (piece : List UInt8) : ToolConstraint :=
  if s.broken then s
  else if s.armed then feedArmed m s piece
  else
    let tail := s.tail ++ piece
    match triggerAt m tail with
    | some at' =>
      feedArmed m { s with cursors := m.start, armed := true, tail := [] } (tail.drop at')
    -- keep what may still begin a trigger
    | none => { s with tail := tail.drop (tail.length - (longestTrigger m - 1)) }

/-- The bytes of the token that was emitted; a negative id is none. -/
def tokenBytes (token : ℤ) : List UInt8 := if token < 0 then [] else v.piece token.toNat

/-- A token more. -/
def observe (s : ToolConstraint) (token : ℤ) : ToolConstraint :=
  -- a negative id is no token
  if token < 0 then s else observeBytes m s (v.piece token.toNat)

/-! ### The state as a function of the bytes -/

/-- The state that some bytes leave. -/
def after (w : List UInt8) : ToolConstraint :=
  match triggerAt m w with
  | none =>
    { tail := w.drop (w.length - (longestTrigger m - 1)), cursors := [], armed := false,
      broken := false }
  | some at' =>
    let cursors := m.feed m.start (w.drop at')
    { tail := [], cursors, armed := true, broken := cursors = [] }

variable {m v} {s : ToolConstraint} {w piece : List UInt8} {i : ℕ}

theorem feedArmed_eq (hbroken : s.broken = false) (hcursors : s.cursors ≠ []) :
    feedArmed m s piece =
      { s with cursors := m.feed s.cursors piece, broken := m.feed s.cursors piece = [] } := by
  induction piece generalizing s with
  | nil =>
    have hnot : decide (m.feed s.cursors [] = []) = false := decide_eq_false hcursors
    simp only [feedArmed, hnot, ← hbroken]
    rfl
  | cons byte piece ih =>
    unfold feedArmed
    by_cases hstep : m.step s.cursors byte = []
    · have hfeed : m.feed s.cursors (byte :: piece) = [] := by
        change m.feed (m.step s.cursors byte) piece = []
        rw [hstep, Vocab.feed_nil]
      simp only [hstep, if_true, hfeed, decide_true]
    · rw [if_neg hstep, ih (by exact hbroken) hstep]
      rfl

theorem length_le_longest {t : List UInt8} (ht : t ∈ m.triggers) : t.length ≤ longestTrigger m := by
  unfold longestTrigger
  have hmem : t.length ∈ m.triggers.map List.length := List.mem_map_of_mem ht
  rcases hmax : (m.triggers.map List.length).max? with _ | n
  · rw [List.max?_eq_none_iff.mp hmax] at hmem
    cases hmem
  · exact (List.max?_eq_some_iff.mp hmax).2 _ hmem

variable (hheaded : Markers.Headed 0x3c m.triggers) (hstart : m.start ≠ [])
include hheaded hstart

omit hheaded hstart in
/-- What is kept of the bytes is enough to see a trigger. -/
theorem triggerAt_append_tail (hnone : triggerAt m w = none) (piece : List UInt8) :
    triggerAt m (w ++ piece) =
      (triggerAt m (w.drop (w.length - (longestTrigger m - 1)) ++ piece)).map
        (· + (w.length - (longestTrigger m - 1))) := by
  have hdrop : w.drop (w.length - (longestTrigger m - 1)) ++ piece =
      (w ++ piece).drop (w.length - (longestTrigger m - 1)) :=
    (List.drop_append_of_le_length (Nat.sub_le _ _)).symm
  rw [hdrop]
  have hlate : ∀ k, Markers.Occurs m.triggers (w ++ piece) k →
      w.length - (longestTrigger m - 1) ≤ k := by
    intro k hk
    rcases hk.of_append with hold | ⟨t, ht, hne, -, hlt⟩
    · exact absurd hold (Markers.firstAt_eq_none_iff.mp hnone k)
    · have := length_le_longest ht
      have := List.length_pos_iff.mpr hne
      omega
  unfold triggerAt
  rcases hfirst : Markers.firstAt m.triggers
      ((w ++ piece).drop (w.length - (longestTrigger m - 1))) with _ | k
  · refine Markers.firstAt_eq_none_iff.mpr fun k hk => ?_
    obtain ⟨n, rfl⟩ := Nat.exists_eq_add_of_le (hlate k hk)
    exact Markers.firstAt_eq_none_iff.mp hfirst n (Markers.occurs_drop.mpr hk)
  · obtain ⟨hoccurs, hleast⟩ := Markers.firstAt_eq_some_iff.mp hfirst
    rw [Option.map_some, Nat.add_comm]
    refine Markers.firstAt_eq_some_iff.mpr ⟨Markers.occurs_drop.mp hoccurs, fun n hn hn' => ?_⟩
    obtain ⟨n', rfl⟩ := Nat.exists_eq_add_of_le (hlate n hn')
    exact hleast n' (by omega) (Markers.occurs_drop.mpr hn')

theorem observeBytes_after (w piece : List UInt8) :
    observeBytes m (after m w) piece = after m (w ++ piece) := by
  rcases hfirst : triggerAt m w with _ | i
  · -- idle so far
    have hshift := triggerAt_append_tail hfirst piece
    have htail : w.drop (w.length - (longestTrigger m - 1)) ++ piece =
        (w ++ piece).drop (w.length - (longestTrigger m - 1)) :=
      (List.drop_append_of_le_length (Nat.sub_le _ _)).symm
    unfold after
    simp only [hfirst, observeBytes, Bool.false_eq_true, if_false]
    rw [hshift]
    rcases hnext : triggerAt m (w.drop (w.length - (longestTrigger m - 1)) ++ piece) with _ | k
    · simp only [Option.map_none, ToolConstraint.mk.injEq, and_true]
      rw [htail, List.drop_drop, List.length_drop, List.length_append]
      congr 1
      omega
    · simp only [Option.map_some]
      rw [feedArmed_eq rfl hstart, htail, List.drop_drop, Nat.add_comm]
  · -- armed: the machine goes on
    have hmore := Markers.firstAt_append hheaded hfirst piece
    have hle : i ≤ w.length := by
      obtain ⟨t, -, hne, hpre⟩ := (Markers.firstAt_eq_some_iff.mp hfirst).1
      have := Markers.length_of_prefix_drop hpre hne
      omega
    have hfeed : m.feed m.start ((w ++ piece).drop i) =
        m.feed (m.feed m.start (w.drop i)) piece := by
      rw [List.drop_append_of_le_length hle]
      exact List.foldl_append ..
    have hmore' : triggerAt m (w ++ piece) = some i := hmore
    unfold after
    simp only [hfirst, hmore', hfeed]
    by_cases halive : m.feed m.start (w.drop i) = []
    · simp [observeBytes, halive, Vocab.feed_nil]
    · simp only [observeBytes, halive, decide_false, Bool.false_eq_true, if_false, if_true]
      rw [feedArmed_eq rfl halive]

omit hheaded hstart in
theorem new_eq_after : new = after m [] := by
  have hnone : triggerAt m [] = none := by
    refine Markers.firstAt_eq_none_iff.mpr ?_
    rintro i ⟨t, -, hne, hpre⟩
    rw [List.drop_nil] at hpre
    exact hne (List.prefix_nil.mp hpre)
  unfold after
  simp only [hnone, List.drop_nil]
  rfl

/-- The state after any tokens is the state after the bytes they spell. -/
theorem foldl_observe (v : Vocab) (tokens : List ℤ) :
    tokens.foldl (observe m v) new = after m (tokens.flatMap (tokenBytes v)) := by
  induction tokens using List.reverseRecOn with
  | nil => exact new_eq_after
  | append_singleton tokens token ih =>
    rw [List.foldl_append, ih, List.flatMap_append, List.flatMap_singleton]
    change observe m v (after m _) token = _
    unfold observe tokenBytes
    split
    · rw [List.append_nil]
    · exact observeBytes_after hheaded hstart _ _

end ToolConstraint

/-! ### The compiled machine on its triggers -/

section Compiled

attribute [local irreducible] build

variable {tools : List ToolSpec} {parallel : Bool}

theorem feed_ne_nil {m : Machine} {w v : List UInt8} {b : UInt8} {d : Cursor}
    (hsettles : ∀ i, m.Settles m.states.length i)
    (hpath : (m.moves State.Waiting).Path ⟨m.root, 65535, 0⟩ (w ++ b :: v) d) :
    m.feed m.start w ≠ [] := by
  obtain ⟨e, f, hpath, hread⟩ := hpath.before_read
  have hwaiting : (m.state e.state).Waiting := by
    by_contra hnot
    exact Machine.not_read hnot hread
  exact List.ne_nil_of_mem ((Machine.mem_feed hsettles w).mpr ⟨hwaiting, hpath⟩)

/-- Fed a trigger, the machine is alive. -/
theorem compile_feed_trigger {t : List UInt8}
    (ht : t ∈ (Machine.compile tools parallel).triggers) :
    (Machine.compile tools parallel).feed (Machine.compile tools parallel).start t ≠ [] := by
  obtain ⟨accept, after, entry, callClose, openers, _, _, _, _, haccept, hclose, hentry, htools,
    hopeners, htail⟩ := (compile_cells tools parallel).spells
  obtain ⟨opened, again, _, _, _, _, hspaces, hafter, hagain, hopened, hroot⟩ := htail.spells
  have hsettles := compile_settles tools parallel
  have hfallback : (Machine.compile tools parallel).fallback = kmpFallback CLOSE := rfl
  have hlast : ∀ {kind name}, opening kind name ++ bytes "\n" = opening kind name ++ [0x0a] :=
    fun {_ _} => rfl
  rcases List.mem_cons.mp ht with rfl | ht
  · -- through the opened literal
    obtain ⟨d, -, hpath⟩ := (hopened.spans _ rfl hfallback State.Waiting (fun _ h => h)
      65535 0).spells (mem_self (bytes "<tool_call>\n"))
    refine feed_ne_nil hsettles (b := 0x0a) (v := []) (d := d) ?_
    exact .silent ((Machine.silent_split (state_of_cell rfl hroot)).mpr ⟨opened, by simp, rfl⟩)
      hpath
  · -- through the tool's own opening
    obtain ⟨tool, htool, rfl⟩ := List.mem_map.mp ht
    obtain ⟨index, hindex⟩ := List.getElem?_of_mem htool
    obtain ⟨r, hr, _, _, hcells⟩ := htools index tool hindex
    obtain ⟨named, _, _, _, _, _, _, _, _, henter, hnamed, -⟩ := hcells.spells
    obtain ⟨d, -, hpath⟩ := (hnamed.spans _ rfl hfallback State.Waiting (fun _ h => h)
      (index % 65536) 0).spells (mem_self _)
    refine feed_ne_nil hsettles (b := 0x0a) (v := []) (d := d) ?_
    rw [← hlast]
    exact .silent ((Machine.silent_split (state_of_cell rfl hroot)).mpr ⟨entry, by simp, rfl⟩) <|
      .silent ((Machine.silent_split (state_of_cell rfl hentry)).mpr ⟨r, hr, rfl⟩) <|
      .silent ((Machine.silent_enterTool (state_of_cell rfl henter)).mpr rfl) hpath

theorem compile_start_ne_nil (tools : List ToolSpec) (parallel : Bool) :
    (Machine.compile tools parallel).start ≠ [] := by
  intro hnil
  have htrigger : bytes "<tool_call>" ∈ (Machine.compile tools parallel).triggers :=
    List.mem_cons_self
  refine compile_feed_trigger htrigger ?_
  rw [hnil, Vocab.feed_nil]

theorem compile_headed (parallel : Bool) (hnames : ∀ tool ∈ tools, 0x3c ∉ tool.name) :
    Markers.Headed 0x3c (Machine.compile tools parallel).triggers := by
  intro t ht
  rcases List.mem_cons.mp ht with rfl | ht
  · exact ⟨bytes "tool_call>", by decide, by decide⟩
  · obtain ⟨tool, htool, rfl⟩ := List.mem_map.mp ht
    refine ⟨bytes "function=" ++ tool.name ++ bytes ">", rfl, ?_⟩
    have hkind : (0x3c : UInt8) ∉ bytes "function=" := by decide
    have hclose : (0x3c : UInt8) ∉ bytes ">" := by decide
    simp only [List.mem_append, not_or]
    exact ⟨⟨hkind, hnames tool htool⟩, hclose⟩

open ToolConstraint

/-- The state depends on the bytes alone, the constraint arms where the first trigger
is, and no trigger kills the machine. -/
theorem constraint_chunk_invariant (hnames : ∀ tool ∈ tools, 0x3c ∉ tool.name) :
    (∀ (v v' : Vocab) (tokens tokens' : List ℤ),
      tokens.flatMap (tokenBytes v) = tokens'.flatMap (tokenBytes v') →
      tokens.foldl (observe (Machine.compile tools parallel) v) new =
        tokens'.foldl (observe (Machine.compile tools parallel) v') new) ∧
    (∀ (v : Vocab) (tokens : List ℤ),
      (∀ i, ¬Markers.Occurs (Machine.compile tools parallel).triggers
          (tokens.flatMap (tokenBytes v)) i) →
        (tokens.foldl (observe (Machine.compile tools parallel) v) new).armed = false ∧
        (tokens.foldl (observe (Machine.compile tools parallel) v) new).broken = false) ∧
    (∀ (v : Vocab) (tokens : List ℤ) (i : ℕ),
      Markers.Occurs (Machine.compile tools parallel).triggers (tokens.flatMap (tokenBytes v)) i →
      (∀ k < i, ¬Markers.Occurs (Machine.compile tools parallel).triggers
          (tokens.flatMap (tokenBytes v)) k) →
        (tokens.foldl (observe (Machine.compile tools parallel) v) new).armed = true ∧
        (tokens.foldl (observe (Machine.compile tools parallel) v) new).cursors =
          (Machine.compile tools parallel).feed (Machine.compile tools parallel).start
            ((tokens.flatMap (tokenBytes v)).drop i)) ∧
    ∀ t ∈ (Machine.compile tools parallel).triggers,
      (Machine.compile tools parallel).feed (Machine.compile tools parallel).start t ≠ [] := by
  have hstate := fun v tokens => foldl_observe
    (compile_headed parallel hnames) (compile_start_ne_nil tools parallel) v tokens
  refine ⟨fun v v' tokens tokens' hbytes => ?_, fun v tokens hnone => ?_,
    fun v tokens i hoccurs hleast => ?_, fun t ht => compile_feed_trigger ht⟩
  · rw [hstate, hstate, hbytes]
  · rw [hstate]
    have hfirst := Markers.firstAt_eq_none_iff.mpr hnone
    unfold after triggerAt
    simp only [hfirst]
    exact ⟨trivial, trivial⟩
  · rw [hstate]
    have hfirst := Markers.firstAt_eq_some_iff.mpr ⟨hoccurs, hleast⟩
    unfold after triggerAt
    simp only [hfirst]
    exact ⟨trivial, trivial⟩

theorem constraint_chunk_invariant_witness :
    ([0, 1].foldl (observe (Machine.compile [⟨bytes "c", []⟩] false)
        (Vocab.new [bytes "x<tool", bytes "_call>"] [])) new) =
      ([0].foldl (observe (Machine.compile [⟨bytes "c", []⟩] false)
        (Vocab.new [bytes "x<tool_call>"] [])) new) :=
  (constraint_chunk_invariant (by decide)).1 _ _ [0, 1] [0] (by decide +kernel)

end Compiled

end Grammar
