/-
The machine as a system of silent moves and byte reads.

The cursor list that `feed` computes is the set of waiting cursors the runs over
the bytes fed get to (`mem_feed`), as long as silent runs are short (`Settles`).
`Spans i next L` is a stretch of the machine as a fragment, with the tool and the
written parameters left as they are; what a state adds to a stretch is said once
for each kind of state.
-/
import Llmxabe.Grammar.Machine
import Llmxabe.Lib.Fragment

open Computability

namespace Grammar

/-- The machine waits there for a byte, or for the end. -/
def State.Waiting : State → Prop
  | .byte _ _ | .untilClose _ _ | .accept => True
  | _ => False

namespace Machine

variable (m : Machine)

/-- The cursors that `stops` marks are where a run may be left. -/
def moves (stops : State → Prop) : Moves Cursor UInt8 where
  silent := Worklist.Moves m.expand
  read cursor byte next := m.advance cursor byte = some next
  waits cursor := stops (m.state cursor.state)

/-- No silent run from the state is longer than `n`. -/
def Settles (n i : ℕ) : Prop := ∀ tool written, Worklist.Bounded m.expand n ⟨i, tool, written⟩

variable {m} {stops : State → Prop} {c d e : Cursor} {i next n k tool : ℕ} {written : BitVec 64}
  {byte : UInt8} {alts : List ℕ}

theorem state_of_getElem? {s : State} (h : m.states[i]? = some s) : m.state i = s := by
  rw [state, List.getD_eq_getElem?_getD, h, Option.getD_some]

theorem expand_eq_none : m.expand c = none ↔ (m.state c.state).Waiting := by
  unfold expand
  rcases m.state c.state with _ | _ | _ | ⟨param, next⟩ | next | _ | _
  all_goals simp only [State.Waiting, iff_false, reduceCtorEq]
  · split <;> simp
  · split <;> simp

theorem not_silent (h : (m.state c.state).Waiting) : ¬(m.moves stops).silent c d := by
  rintro ⟨cs, hcs, -⟩
  rw [expand_eq_none.mpr h] at hcs
  cases hcs

/-! ### One state -/

theorem not_read (h : ¬(m.state c.state).Waiting) : ¬(m.moves stops).read c byte d := by
  intro hread
  unfold moves advance at hread
  rcases hs : m.state c.state with _ | _ | _ | _ | _ | _ | _
  all_goals simp only [hs, State.Waiting, not_true_eq_false] at h hread
  all_goals cases hread

theorem silent_iff {cs : List Cursor} (h : m.expand c = some cs) :
    (m.moves stops).silent c d ↔ d ∈ cs := by
  constructor
  · rintro ⟨cs', hcs', hd⟩
    obtain rfl := Option.some.inj (h.symm.trans hcs')
    exact hd
  · exact fun hd => ⟨cs, h, hd⟩

theorem silent_split (h : m.state i = .split alts) :
    (m.moves stops).silent ⟨i, tool, written⟩ d ↔ ∃ alt ∈ alts, d = ⟨alt, tool, written⟩ := by
  have hexpand : m.expand ⟨i, tool, written⟩ = some (alts.map fun alt => ⟨alt, tool, written⟩) := by
    simp only [expand, h]
  rw [silent_iff hexpand, List.mem_map]
  simp only [eq_comm]

theorem silent_enterTool {entered : ℕ} (h : m.state i = .enterTool entered next) :
    (m.moves stops).silent ⟨i, tool, written⟩ d ↔ d = ⟨next, entered, 0⟩ := by
  have hexpand : m.expand ⟨i, tool, written⟩ = some [⟨next, entered, 0⟩] := by
    simp only [expand, h]
  rw [silent_iff hexpand, List.mem_singleton]

theorem silent_mark {param : ℕ} (h : m.state i = .mark param next) :
    (m.moves stops).silent ⟨i, tool, written⟩ d ↔
      written &&& paramBit param = 0 ∧ d = ⟨next, tool, written ||| paramBit param⟩ := by
  have hexpand : m.expand ⟨i, tool, written⟩ = if written &&& paramBit param = 0 then
      some [⟨next, tool, written ||| paramBit param⟩] else some [] := by
    simp only [expand, h]
  by_cases hfree : written &&& paramBit param = 0
  · rw [if_pos hfree] at hexpand
    rw [silent_iff hexpand, List.mem_singleton, and_iff_right hfree]
  · rw [if_neg hfree] at hexpand
    rw [silent_iff hexpand]
    simp only [List.not_mem_nil, hfree, false_and]

theorem silent_requireAll (h : m.state i = .requireAll next) :
    (m.moves stops).silent ⟨i, tool, written⟩ d ↔
      written &&& m.required.getD tool 0 = m.required.getD tool 0 ∧
        d = ⟨next, tool, written⟩ := by
  have hexpand : m.expand ⟨i, tool, written⟩ =
      if written &&& m.required.getD tool 0 = m.required.getD tool 0 then
        some [⟨next, tool, written⟩] else some [] := by
    simp only [expand, h]
  by_cases hall : written &&& m.required.getD tool 0 = m.required.getD tool 0
  · rw [if_pos hall] at hexpand
    rw [silent_iff hexpand, List.mem_singleton, and_iff_right hall]
  · rw [if_neg hall] at hexpand
    rw [silent_iff hexpand]
    simp only [List.not_mem_nil, hall, false_and]

theorem read_byte (h : m.state i = .byte byte next) (b : UInt8) :
    (m.moves stops).read ⟨i, tool, written⟩ b d ↔ b = byte ∧ d = ⟨next, tool, written⟩ := by
  by_cases hb : byte = b
  · simp [moves, advance, h, hb, eq_comm]
  · simp [moves, advance, h, hb, Ne.symm hb]

theorem read_untilClose (h : m.state i = .untilClose k next) (b : UInt8) :
    (m.moves stops).read ⟨i, tool, written⟩ b d ↔
      d = ⟨if m.advanceClose k b = CLOSE.length then next else i - k + m.advanceClose k b, tool,
        written⟩ := by
  simp [moves, advance, h, eq_comm]

/-! ### Silent runs are short -/

theorem Settles.mono {n' : ℕ} (h : m.Settles n i) (hn : n ≤ n') : m.Settles n' i :=
  fun tool written => (h tool written).mono hn

theorem Settles.waiting (h : (m.state i).Waiting) : m.Settles n i :=
  fun _ _ => Worklist.Bounded.of_none (expand_eq_none.mpr h)

theorem Settles.of_silent
    (h : ∀ tool written d, (m.moves State.Waiting).silent ⟨i, tool, written⟩ d →
      m.Settles n d.state) :
    m.Settles (n + 1) i :=
  fun tool written cs hcs d hd => h tool written d ⟨cs, hcs, hd⟩ d.tool d.written

theorem Settles.split (h : m.state i = .split alts) (halts : ∀ alt ∈ alts, m.Settles n alt) :
    m.Settles (n + 1) i := by
  refine Settles.of_silent fun tool written d hd => ?_
  obtain ⟨alt, halt, rfl⟩ := (silent_split h).mp hd
  exact halts alt halt

/-! ### The cursor list and the runs -/

theorem path_settles (hpath : (m.moves stops).Path c w d) (hd : (m.state d.state).Waiting) :
    ∃ e, Relation.ReflTransGen (Worklist.Moves m.expand) c e ∧ m.expand e = none ∧
      (m.moves stops).Path e w d := by
  induction hpath with
  | nil c => exact ⟨c, .refl, expand_eq_none.mpr hd, .nil c⟩
  | silent hs _ ih =>
    obtain ⟨e, hrun, he, hpath⟩ := ih hd
    exact ⟨e, .head hs hrun, he, hpath⟩
  | @read c c' e' b w hr hp =>
    refine ⟨c, .refl, ?_, .read hr hp⟩
    by_contra hne
    exact not_read (mt expand_eq_none.mpr hne) hr

theorem path_of_silent (hrun : Relation.ReflTransGen (Worklist.Moves m.expand) c e)
    (hpath : (m.moves stops).Path e w d) : (m.moves stops).Path c w d := by
  induction hrun using Relation.ReflTransGen.head_induction_on with
  | refl => exact hpath
  | head hs _ ih => exact .silent hs ih

theorem mem_advanceAll (cursors : List Cursor) (byte : UInt8) :
    d ∈ m.advanceAll cursors byte ↔ ∃ c ∈ cursors, m.advance c byte = some d := by
  unfold Machine.advanceAll
  rw [Worklist.mem_foldl_iff (P := fun c => m.advance c byte = some d)]
  · exact or_iff_right List.not_mem_nil
  · intro out c
    rcases hc : m.advance c byte with _ | next
    · simp
    · rw [Worklist.mem_pushUnique, Option.some.injEq, eq_comm]

section Settled

variable (hsettles : ∀ i, m.Settles m.states.length i)
include hsettles

theorem mem_step {cursors : List Cursor} :
    d ∈ m.step cursors byte ↔ m.expand d = none ∧ ∃ c ∈ cursors, ∃ c', m.advance c byte = some c' ∧
      Relation.ReflTransGen (Worklist.Moves m.expand) c' d := by
  unfold step close
  rw [Worklist.mem_close fun c _ => hsettles c.state c.tool c.written]
  refine and_congr_right fun _ => ?_
  constructor
  · rintro ⟨c', hc', hrun⟩
    obtain ⟨c, hc, hadv⟩ := (mem_advanceAll cursors byte).mp hc'
    exact ⟨c, hc, c', hadv, hrun⟩
  · rintro ⟨c, hc, c', hadv, hrun⟩
    exact ⟨c', (mem_advanceAll cursors byte).mpr ⟨c, hc, hadv⟩, hrun⟩

theorem mem_feed_waiting {cursors : List Cursor} (hcursors : ∀ c ∈ cursors, m.expand c = none)
    (w : List UInt8) :
    d ∈ m.feed cursors w ↔
      m.expand d = none ∧ ∃ c ∈ cursors, (m.moves stops).Path c w d := by
  induction w generalizing cursors with
  | nil =>
    refine ⟨fun hd => ⟨hcursors d hd, d, hd, .nil d⟩, ?_⟩
    rintro ⟨-, c, hc, hpath⟩
    cases hpath with
    | nil => exact hc
    | silent hs _ => exact absurd hs (not_silent (expand_eq_none.mp (hcursors c hc)))
  | cons b w ih =>
    have hwait : ∀ c ∈ m.step cursors b, m.expand c = none := fun c hc =>
      ((mem_step hsettles).mp hc).1
    change d ∈ m.feed (m.step cursors b) w ↔ _
    rw [ih hwait]
    refine and_congr_right fun hd => ?_
    constructor
    · rintro ⟨c', hc', hpath⟩
      obtain ⟨-, c, hc, c₁, hadv, hrun⟩ := (mem_step hsettles).mp hc'
      exact ⟨c, hc, .read hadv (path_of_silent hrun hpath)⟩
    · rintro ⟨c, hc, hpath⟩
      cases hpath with
      | silent hs _ => exact absurd hs (not_silent (expand_eq_none.mp (hcursors c hc)))
      | read hr hpath =>
        obtain ⟨e, hrun, he, hpath⟩ := path_settles hpath (expand_eq_none.mp hd)
        exact ⟨e, (mem_step hsettles).mpr ⟨he, c, hc, _, hr, hrun⟩, hpath⟩

/-- The cursors after a word are where its runs wait. -/
theorem mem_feed (w : List UInt8) :
    d ∈ m.feed m.start w ↔
      (m.state d.state).Waiting ∧ (m.moves stops).Path ⟨m.root, 65535, 0⟩ w d := by
  have hstart : ∀ c, c ∈ m.start ↔ m.expand c = none ∧
      Relation.ReflTransGen (Worklist.Moves m.expand) ⟨m.root, 65535, 0⟩ c := by
    intro c
    unfold start close
    rw [Worklist.mem_close fun c _ => hsettles c.state c.tool c.written]
    simp
  rw [mem_feed_waiting hsettles fun c hc => ((hstart c).mp hc).1, expand_eq_none]
  refine and_congr_right fun hd => ?_
  constructor
  · rintro ⟨c, hc, hpath⟩
    exact path_of_silent ((hstart c).mp hc).2 hpath
  · intro hpath
    obtain ⟨e, hrun, he, hpath⟩ := path_settles hpath hd
    exact ⟨e, (hstart e).mpr ⟨he, hrun⟩, hpath⟩

theorem accepts_iff (stops : State → Prop) (w : List UInt8) :
    m.Accepts w ↔ ∃ d, m.state d.state = .accept ∧
      (m.moves stops).Path ⟨m.root, 65535, 0⟩ w d := by
  unfold Accepts acceptsEnd
  rw [List.any_eq_true]
  constructor
  · rintro ⟨d, hd, haccept⟩
    exact ⟨d, of_decide_eq_true haccept, ((mem_feed hsettles w).mp hd).2⟩
  · rintro ⟨d, haccept, hpath⟩
    refine ⟨d, (mem_feed hsettles w).mpr ⟨?_, hpath⟩, decide_eq_true haccept⟩
    rw [haccept]
    trivial

end Settled

end Machine

end Grammar
