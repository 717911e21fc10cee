/-
Calls, and the pieces of the machine that read them.

Behind `args` a run writes one parameter after another, marking each, and leaves
once the required ones are marked (`Loop.fragment`).  `build` puts the calls behind
each other (`builds_build`); whatever its cells settle in has the fuel it needs
(`compile_settles`), and from its root the machine spells calls with whitespace and
more calls behind them (`compile_fragment`).
-/
import Llmxabe.Grammar.Values

open Computability

namespace Grammar

open Reference (this oneOf)
open Arena (Builds)

variable {m : Machine} {stops : State → Prop} {i next n tool lo hi : ℕ} {written : BitVec 64}
  {L L' : Language UInt8} {t : List State} {spec : ToolSpec}

/-- A fragment that can be put behind another one. -/
def Live (m : Machine) (stops : State → Prop) (L : Language UInt8) : Prop :=
  (∃ w, w ∈ L) ∨ (m.moves stops).Halting

theorem Live.mul (h : Live m stops L) (h' : Live m stops L') : Live m stops (L * L') := by
  rcases h with h | h
  · rcases h' with h' | h'
    · exact Or.inl (exists_mul h h')
    · exact Or.inr h'
  · exact Or.inr h

theorem live_self (w : List UInt8) : Live m stops {w} := Or.inl ⟨w, mem_self w⟩

/-! ### The arguments of one call -/

/-- What the machine reads of a parameter. -/
def parameterWords (param : ParamSpec) : Language UInt8 :=
  Reference.parameter Reference.exponentInteger param

/-- Parameters written one after another from a bit set to a bit set. -/
inductive Writes (spec : ToolSpec) : BitVec 64 → List (ℕ × List UInt8) → BitVec 64 → Prop where
  | nil (written : BitVec 64) : Writes spec written [] written
  | cons {written written' : BitVec 64} {i : ℕ} {word : List UInt8} {param : ParamSpec}
      {rest : List (ℕ × List UInt8)} :
      spec.params[i]? = some param → word ∈ parameterWords param →
      written &&& paramBit (i % 256) = 0 →
      Writes spec (written ||| paramBit (i % 256)) rest written' →
      Writes spec written ((i, word) :: rest) written'

/-- What is left to spell of a call's arguments. -/
def argumentsFrom (spec : ToolSpec) (required written : BitVec 64) : Language UInt8 :=
  {w | ∃ args written', Writes spec written args written' ∧ written' &&& required = required ∧
    w = (args.map Prod.snd).flatten}

/-- The states of a tool's argument loop. -/
structure Loop (m : Machine) (stops : State → Prop) (spec : ToolSpec) (args closing : ℕ) :
    Prop where
  alts : ∃ alts finish, m.state args = .split (alts ++ [finish]) ∧
    m.state finish = .requireAll closing ∧
    (∀ i param, spec.params[i]? = some param → ∃ alt ∈ alts, ∃ opened,
      m.state alt = .mark (i % 256) opened ∧ Spans m stops opened args (parameterWords param)) ∧
    ∀ alt ∈ alts, ∃ i param opened, spec.params[i]? = some param ∧
      m.state alt = .mark (i % 256) opened ∧ Spans m stops opened args (parameterWords param)

theorem parameterWords_ne_nil {param : ParamSpec} {w : List UInt8} (hw : w ∈ parameterWords param) :
    w ≠ [] := by
  rintro rfl
  obtain ⟨u, rfl, v, -, h⟩ := Language.mem_mul.mp hw
  have hopen : bytes "<parameter=" ≠ [] := by decide
  simp [opening, hopen] at h

section Loop

variable {args closing : ℕ} (hloop : Loop m stops spec args closing)
  (hstops : ∀ s, stops s → s.Waiting)
include hloop hstops

omit hstops in
theorem Loop.not_waiting : ¬(m.state args).Waiting := by
  obtain ⟨alts, finish, hargs, -⟩ := hloop.alts
  rw [hargs]
  exact id

omit hstops in
theorem Loop.spells {ps : List (ℕ × List UInt8)} {written' : BitVec 64}
    (hw : Writes spec written ps written')
    (hcover : written' &&& m.required.getD tool 0 = m.required.getD tool 0) :
    (m.moves stops).Path ⟨args, tool, written⟩ (ps.map Prod.snd).flatten
      ⟨closing, tool, written'⟩ := by
  obtain ⟨alts, finish, hargs, hfinish, hparams, -⟩ := hloop.alts
  induction hw with
  | nil written =>
    refine .silent ((Machine.silent_split hargs).mpr ⟨finish, by simp, rfl⟩) ?_
    exact .silent ((Machine.silent_requireAll hfinish).mpr ⟨hcover, rfl⟩) (.nil _)
  | @cons written _ i word param rest hparam hword hfree _ ih =>
    obtain ⟨alt, halt, opened, hmark, hspans⟩ := hparams i param hparam
    obtain ⟨d, rfl, hpath⟩ := (hspans tool (written ||| paramBit (i % 256))).spells hword
    refine .silent ((Machine.silent_split hargs).mpr ⟨alt, List.mem_append_left _ halt, rfl⟩) ?_
    refine .silent ((Machine.silent_mark hmark).mpr ⟨hfree, rfl⟩) ?_
    rw [List.map_cons, List.flatten_cons]
    exact hpath.trans (ih hcover)

theorem Loop.fragment
    (hlive : ∀ written, Live m stops (argumentsFrom spec (m.required.getD tool 0) written)) :
    (m.moves stops).Fragment ⟨args, tool, written⟩ {c | ∃ written', c = ⟨closing, tool, written'⟩}
      (argumentsFrom spec (m.required.getD tool 0) written) where
  spells hw := by
    obtain ⟨ps, written', hwrites, hcover, rfl⟩ := hw
    exact ⟨_, ⟨written', rfl⟩, hloop.spells hwrites hcover⟩
  passes {w e} hpath he := by
    -- a round spells a parameter, so what is left is shorter
    induction hn : w.length using Nat.strong_induction_on generalizing w written with
    | _ n ih =>
      subst hn
      obtain ⟨alts, finish, hargs, hfinish, -, halts⟩ := hloop.alts
      have hnot := hloop.not_waiting
      cases hpath with
      | nil => exact absurd (hstops _ he) hnot
      | read hr _ => exact absurd hr (Machine.not_read hnot)
      | silent hs hpath =>
        obtain ⟨alt, halt, rfl⟩ := (Machine.silent_split hargs).mp hs
        rcases List.mem_append.mp halt with halt | halt
        -- a parameter that has not been written
        · obtain ⟨i, param, opened, hparam, hmark, hspans⟩ := halts alt halt
          have hnot' : ¬(m.state alt).Waiting := by
            rw [hmark]
            exact id
          cases hpath with
          | nil => exact absurd (hstops _ he) hnot'
          | read hr _ => exact absurd hr (Machine.not_read hnot')
          | silent hs hpath =>
            obtain ⟨hfree, rfl⟩ := (Machine.silent_mark hmark).mp hs
            have hcons : ∀ {u v}, u ∈ parameterWords param →
                v ∈ argumentsFrom spec (m.required.getD tool 0)
                  (written ||| paramBit (i % 256)) →
                u ++ v ∈ argumentsFrom spec (m.required.getD tool 0) written := by
              rintro u v hu ⟨ps, written', hwrites, hcover, rfl⟩
              exact ⟨(i, u) :: ps, written', .cons hparam hu hfree hwrites, hcover, rfl⟩
            rcases (hspans tool _).passes hpath he with
              ⟨u, v, hu, rfl, c, rfl, hpath⟩ | ⟨v, hv, c, rfl, hback⟩
            -- its words were read to the end: the rest begins another round
            · have hlt : v.length < (u ++ v).length := by
                rw [List.length_append]
                have := List.length_pos_iff.mpr (parameterWords_ne_nil hu)
                omega
              rcases ih v.length hlt hpath rfl with ⟨u', v', hu', rfl, hd⟩ | ⟨v', hv', hd⟩
              · exact Or.inl ⟨u ++ u', v', hcons hu hu', (List.append_assoc ..).symm, hd⟩
              · refine Or.inr ⟨v', ?_, hd⟩
                rw [List.append_assoc]
                exact hcons hu hv'
            -- the run ends within it, and what is missing of it and of the loop can be spelt
            · rcases hlive (written ||| paramBit (i % 256)) with ⟨u, hu⟩ | hhalt
              · obtain ⟨ps, written', hwrites, hcover, rfl⟩ := hu
                refine Or.inr ⟨v ++ (ps.map Prod.snd).flatten, ?_, _, ⟨written', rfl⟩,
                  hback.trans (hloop.spells hwrites hcover)⟩
                rw [← List.append_assoc]
                exact hcons hv ⟨ps, written', hwrites, hcover, rfl⟩
              · obtain ⟨-, rfl⟩ := hback.of_stuck (hhalt e he)
                exact absurd (hstops _ he) hnot
        -- the closing branch, which asks for the required parameters
        · obtain rfl := List.mem_singleton.mp halt
          have hnot' : ¬(m.state alt).Waiting := by
            rw [hfinish]
            exact id
          cases hpath with
          | nil => exact absurd (hstops _ he) hnot'
          | read hr _ => exact absurd hr (Machine.not_read hnot')
          | silent hs hpath =>
            obtain ⟨hcover, rfl⟩ := (Machine.silent_requireAll hfinish).mp hs
            exact Or.inl ⟨[], w, ⟨[], written, .nil _, hcover, rfl⟩, rfl, _, ⟨written, rfl⟩, hpath⟩

end Loop

/-! ### What the builder makes of a tool -/

theorem settles_mark {param : ℕ} (h : m.state i = .mark param next) (hn : m.Settles n next) :
    m.Settles (n + 1) i := by
  refine Machine.Settles.of_silent fun tool written d hd => ?_
  obtain ⟨-, rfl⟩ := (Machine.silent_mark h).mp hd
  exact hn

theorem settles_enterTool {entered : ℕ} (h : m.state i = .enterTool entered next)
    (hn : m.Settles n next) : m.Settles (n + 1) i := by
  refine Machine.Settles.of_silent fun tool written d hd => ?_
  obtain rfl := (Machine.silent_enterTool h).mp hd
  exact hn

theorem settles_requireAll (h : m.state i = .requireAll next) (hn : m.Settles n next) :
    m.Settles (n + 1) i := by
  refine Machine.Settles.of_silent fun tool written d hd => ?_
  obtain ⟨-, rfl⟩ := (Machine.silent_requireAll h).mp hd
  exact hn

/-- The cells of one parameter, and that they settle. -/
structure ParamCells (args : ℕ) (param : ParamSpec) (index : ℕ) (t : List State) (lo hi i : ℕ) :
    Prop where
  spells : ∃ opened value lo' hi' lo'' hi'', t[i]? = some (.mark (index % 256) opened) ∧
    Piece value {opening "<parameter=" param.name ++ bytes "\n"} 0 t lo' hi' opened ∧
    Piece args (Reference.value Reference.exponentInteger param.value) 8 t lo'' hi'' value
  settles : ∀ m : Machine, m.states = t → m.Settles 1 i
  covered : ∀ m : Machine, m.states = t → ∀ n, m.Settles n args → Covered m (n + 8) lo hi

theorem opening_ne_nil (kind : String) (name : List UInt8) (rest : String)
    (h : bytes kind ≠ []) : opening kind name ++ bytes rest ≠ [] := by
  simp [opening, h]

theorem builds_parameter (args : ℕ) (param : ParamSpec) (index : ℕ) :
    Builds ∅ (parameter args param index) (ParamCells args param index) := by
  unfold parameter
  refine ((builds_value param.value args).andThen fun value =>
    (builds_literal _ value).andThen fun opened => Builds.add _).mono ?_
  rintro t lo hi i - ⟨mid, value, -, -, hvalue, _, opened, -, -, ⟨hopened, -, hopened'⟩,
    rfl, rfl, hmark⟩
  have hfirst : ∀ m : Machine, m.states = t → m.Settles 1 i := fun m hm =>
    settles_mark (state_of_cell hm hmark)
      (hopened' m hm (opening_ne_nil _ _ _ (by decide)))
  refine ⟨⟨opened, value, mid, i, lo, mid, hmark, hopened, hvalue⟩, hfirst, fun m hm n hn => ?_⟩
  exact (hvalue.covered hm hn (Nat.le_refl _)).trans <|
    (hopened.covered hm (hvalue.settles_entry hm hn (Nat.le_refl _)) (by omega)).trans <|
    Covered.one ((hfirst m hm).mono (by omega))

/-- The cells of one tool, and that they settle. -/
structure ToolCells (callClose : ℕ) (spec : ToolSpec) (index : ℕ) (t : List State)
    (lo hi i : ℕ) : Prop where
  spells : ∃ named args finish closing alts lo' hi' lo'' hi'',
    t[i]? = some (.enterTool (index % 65536) named) ∧
    Piece args {opening "<function=" spec.name ++ bytes "\n"} 0 t lo' hi' named ∧
    t[args]? = some (.split (alts ++ [finish])) ∧ t[finish]? = some (.requireAll closing) ∧
    Piece callClose (this "</function>\n") 0 t lo'' hi'' closing ∧
    (∀ j param, spec.params[j]? = some param →
      ∃ alt ∈ alts, ∃ a b, ParamCells args param j t a b alt) ∧
    ∀ alt ∈ alts, ∃ j param, spec.params[j]? = some param ∧ ∃ a b, ParamCells args param j t a b alt
  settles : ∀ m : Machine, m.states = t → m.Settles 1 i
  covered : ∀ m : Machine, m.states = t → m.Settles 0 callClose → Covered m 10 lo hi

theorem builds_toolCall (callClose : ℕ) (spec : ToolSpec) (index : ℕ) :
    Builds ∅ (toolCall callClose spec index) (ToolCells callClose spec index) := by
  -- `args` is reserved, and patched once its alternatives are there
  have hbody : ∀ args, Builds {args} (do
      let alts ← spec.params.zipIdx.mapM fun p => parameter args p.1 p.2
      let closing ← literal (bytes "</function>\n") callClose
      let finish ← Arena.add (.requireAll closing)
      Arena.patch args (.split (alts ++ [finish]))
      let named ← literal (opening "<function=" spec.name ++ bytes "\n") args
      Arena.add (.enterTool (index % 65536) named)) _ := fun args => by
    have hlast := fun alts finish => (Builds.patch args (State.split (alts ++ [finish]))).bind
      (fun _ => (builds_literal (opening "<function=" spec.name ++ bytes "\n") args).andThen
        fun named => Builds.add (.enterTool (index % 65536) named)) (Set.disjoint_empty _)
    rw [Set.union_empty] at hlast
    have hparams : Builds ∅ (spec.params.zipIdx.mapM fun p => parameter args p.1 p.2) _ :=
      Builds.mapM (P := fun p => ParamCells args p.1 p.2) spec.params.zipIdx
        fun p _ => builds_parameter args p.1 p.2
    exact hparams.andThen
      fun alts => (builds_literal (bytes "</function>\n") callClose).andThen fun closing =>
      (Builds.add (.requireAll closing)).andThen fun finish => hlast alts finish
  have hall := Builds.reserve (H := ∅) (State.split []) fun args _ =>
    insert_empty_eq (β := Set ℕ) args ▸ hbody args
  refine Builds.mono hall ?_
  rintro t args hi i - ⟨mid, alts, -, -, ⟨hparams, halts, hcells⟩, mid', closing, -, -,
    ⟨hclosing, -, hclosing'⟩, _, finish, -, -, ⟨rfl, rfl, hfinish⟩, _, _, -, -, ⟨rfl, hargs⟩,
    _, named, -, -, ⟨hnamed, -, hnamed'⟩, rfl, rfl, henter⟩
  have hindex : ∀ j param, (param, j) ∈ spec.params.zipIdx ↔ spec.params[j]? = some param :=
    fun j param => List.mk_mem_zipIdx_iff_getElem?
  have hfirst : ∀ m : Machine, m.states = t → m.Settles 1 i := fun m hm =>
    settles_enterTool (state_of_cell hm henter) (hnamed' m hm (opening_ne_nil _ _ _ (by decide)))
  have hlast : ∀ m : Machine, m.states = t → m.Settles 1 finish := fun m hm =>
    settles_requireAll (state_of_cell hm hfinish) (hclosing' m hm (by decide))
  refine ⟨⟨named, args, finish, closing, alts, _, _, _, _, henter, hnamed, hargs, hfinish,
    hclosing, ?_, ?_⟩, hfirst, fun m hm hclose => ?_⟩
  · intro j param hj
    obtain ⟨alt, halt, a, b, -, -, hran⟩ := hparams (param, j) ((hindex j param).mpr hj)
    exact ⟨alt, halt, a, b, hran⟩
  · intro alt halt
    obtain ⟨⟨param, j⟩, hp, a, b, -, -, hran⟩ := halts alt halt
    exact ⟨j, param, (hindex j param).mp hp, a, b, hran⟩
  -- every cell settles: the loop in two silent steps, the ranges in the order of the arena
  · have hloop : m.Settles 2 args := by
      refine Machine.Settles.split (state_of_cell hm hargs) fun alt halt => ?_
      rcases List.mem_append.mp halt with halt | halt
      · obtain ⟨_, _, _, _, -, -, hran⟩ := halts alt halt
        exact hran.settles m hm
      · obtain rfl := List.mem_singleton.mp halt
        exact hlast m hm
    have hparameters : Covered m 10 (args + 1) mid := by
      intro j hlo hhi
      obtain ⟨p, -, r, a, b, ha, hb, hran⟩ := hcells j hlo hhi
      exact hran.covered m hm 2 hloop j ha hb
    exact (Covered.one (hloop.mono (by omega))).trans <|
      hparameters.trans <|
      (hclosing.covered hm hclose (by omega)).trans <|
      (Covered.one ((hlast m hm).mono (by omega))).trans <|
      (hnamed.covered hm hloop (by omega)).trans <|
      Covered.one ((hfirst m hm).mono (by omega))

/-! ### A call of the machine -/

/-- The words of a call, with the required set the machine looks up for it. -/
def callWords (m : Machine) (spec : ToolSpec) (index : ℕ) : Language UInt8 :=
  {opening "<function=" spec.name ++ bytes "\n"} *
    (argumentsFrom spec (m.required.getD (index % 65536) 0) 0 *
      (this "</function>\n" * this "</tool_call>"))

section ToolCells

variable {callClose after index a b : ℕ} (hm : m.states = t)
  (hfallback : m.fallback = kmpFallback CLOSE) (hstops : ∀ s, stops s → s.Waiting)
include hm hfallback hstops

/-- A tool's cells hold its argument loop. -/
theorem ToolCells.loop (h : ToolCells callClose spec index t lo hi i)
    (hlive : ∀ param ∈ spec.params,
      Live m stops (Reference.value Reference.exponentInteger param.value)) :
    ∃ named args closing, m.state i = .enterTool (index % 65536) named ∧
      Spans m stops named args {opening "<function=" spec.name ++ bytes "\n"} ∧
      Loop m stops spec args closing ∧ Spans m stops closing callClose (this "</function>\n") := by
  obtain ⟨named, args, finish, closing, alts, _, _, _, _, henter, hnamed, hargs, hfinish, hclosing,
    hparams, halts⟩ := h.spells
  have hmarked : ∀ {j alt a b : ℕ} {param : ParamSpec}, spec.params[j]? = some param →
      ParamCells args param j t a b alt → ∃ opened, m.state alt = .mark (j % 256) opened ∧
        Spans m stops opened args (parameterWords param) := by
    intro j alt a b param hparam hcells
    obtain ⟨opened, value, _, _, _, _, hmark, hopened, hvalue⟩ := hcells.spells
    refine ⟨opened, state_of_cell hm hmark, ?_⟩
    exact (hopened.spans m hm hfallback stops hstops).seq
      (hvalue.spans m hm hfallback stops hstops) (hlive param (List.mem_of_getElem? hparam))
  refine ⟨named, args, closing, state_of_cell hm henter,
    hnamed.spans m hm hfallback stops hstops,
    ⟨alts, finish, state_of_cell hm hargs, state_of_cell hm hfinish, ?_, ?_⟩,
    hclosing.spans m hm hfallback stops hstops⟩
  · intro j param hj
    obtain ⟨alt, halt, a, b, hcells⟩ := hparams j param hj
    obtain ⟨opened, hopened⟩ := hmarked hj hcells
    exact ⟨alt, halt, opened, hopened⟩
  · intro alt halt
    obtain ⟨j, param, hj, a, b, hcells⟩ := halts alt halt
    obtain ⟨opened, hopened⟩ := hmarked hj hcells
    exact ⟨j, param, opened, hj, hopened⟩

/-- Cursors at a state, whatever they committed to and wrote. -/
def At (state : ℕ) : Set Cursor := {c | c.state = state}

theorem ToolCells.fragment (h : ToolCells callClose spec index t lo hi i)
    (hparams : ∀ param ∈ spec.params,
      Live m stops (Reference.value Reference.exponentInteger param.value))
    (hargs : ∀ written,
      Live m stops (argumentsFrom spec (m.required.getD (index % 65536) 0) written))
    (hclose : Spans m stops callClose after (this "</tool_call>")) :
    (m.moves stops).Fragment ⟨i, tool, written⟩ (At after) (callWords m spec index) := by
  obtain ⟨named, args, closing, henter, hnamed, hloop, hclosing⟩ :=
    h.loop hm hfallback hstops hparams
  have hnot : ¬(m.state i).Waiting := by
    rw [henter]
    exact id
  refine Moves.Fragment.silent (m := ⟨named, index % 65536, 0⟩)
    (fun e => Machine.silent_enterTool henter) (fun b e => Machine.not_read hnot)
    (fun hw => hnot (hstops _ hw)) ?_
  have hend : Live m stops (this "</function>\n" * this "</tool_call>") :=
    (live_self _).mul (live_self _)
  refine (hnamed _ _).seq ?_ ((hargs 0).mul hend)
  rintro c rfl
  refine (hloop.fragment hstops hargs).seq ?_ hend
  rintro c ⟨written', rfl⟩
  refine ((hclosing.seq hclose (live_self _)) _ _).widen ?_
  rintro c rfl
  rfl

end ToolCells

/-! ### What the builder makes of the tools -/

theorem builds_reopen (parallel : Bool) (entry : ℕ) :
    Builds ∅ (reopen parallel entry) (fun t lo hi again =>
      (if parallel then ∃ a, again = [a] ∧ Piece entry Reference.opener 0 t lo hi a
        else again = []) ∧
      (∀ m : Machine, m.states = t → ∀ a ∈ again, m.Settles 0 a) ∧
      ∀ m : Machine, m.states = t → ∀ n, m.Settles n entry → Covered m n lo hi) := by
  unfold reopen
  cases parallel
  · refine (Builds.pure []).mono ?_
    rintro t lo hi again - ⟨rfl, rfl⟩
    refine ⟨rfl, fun m hm a ha => absurd ha List.not_mem_nil, fun m hm n hn j hlo hhi => ?_⟩
    omega
  · refine ((builds_literal (bytes "<tool_call>\n") entry).andThen fun a =>
      Builds.pure [a]).mono ?_
    rintro t lo hi again - ⟨_, a, -, -, ⟨hpiece, -, hsettles⟩, rfl, rfl⟩
    refine ⟨⟨a, rfl, hpiece⟩, fun m hm a' ha' => ?_, fun m hm n hn => ?_⟩
    · obtain rfl := List.mem_singleton.mp ha'
      exact hsettles m hm (by decide)
    · exact hpiece.covered hm hn (Nat.le_refl _)

/-- What stands behind the calls: spaces, another call or the end, and the opening
of the first. -/
structure TailCells (accept after entry : ℕ) (parallel : Bool) (t : List State)
    (lo hi root : ℕ) : Prop where
  spells : ∃ opened again a b c d, Letters t lo (bytes " \t\n\r") after ∧
    t[after]? = some (.split (accept :: List.range' lo (bytes " \t\n\r").length ++ again)) ∧
    (if parallel then ∃ a', again = [a'] ∧ Piece entry Reference.opener 0 t a b a'
      else again = []) ∧
    Piece entry Reference.opener 0 t c d opened ∧
    t[root]? = some (.split [opened, entry])
  settles : ∀ m : Machine, m.states = t → m.Settles 0 accept → m.Settles 1 after
  covered : ∀ m : Machine, m.states = t → ∀ n, m.Settles n entry → Covered m (n + 1) lo hi

theorem builds_tail (accept after entry : ℕ) (parallel : Bool) :
    Builds {after} (do
      let spaces ← (bytes " \t\n\r").mapM fun byte => Arena.add (State.byte byte after)
      let again ← reopen parallel entry
      Arena.patch after (.split (accept :: spaces ++ again))
      let opened ← literal (bytes "<tool_call>\n") entry
      split [opened, entry]) (TailCells accept after entry parallel) := by
  have hclosing := fun spaces again =>
    (Builds.patch after (State.split (accept :: spaces ++ again))).bind
    (fun _ => (builds_literal (bytes "<tool_call>\n") entry).andThen
      fun opened => Builds.add (.split [opened, entry])) (Set.disjoint_empty _)
  rw [Set.union_empty] at hclosing
  refine ((Builds.addEach (fun byte => State.byte byte after) (bytes " \t\n\r")).andThen
    fun spaces => (builds_reopen parallel entry).andThen fun again => hclosing spaces again).mono ?_
  rintro t lo hi root - ⟨_, _, -, -, ⟨rfl, rfl, hletters⟩, mid, again, -, -,
    ⟨hagain, hagain', hagain''⟩, _, _, -, -, ⟨rfl, hafter⟩, _, opened, -, -,
    ⟨hopened, -, hopened'⟩, rfl, rfl, hroot⟩
  have hspaces : Letters t lo (bytes " \t\n\r") after := hletters
  refine ⟨⟨opened, again, _, _, _, _, hspaces, hafter, hagain, hopened, hroot⟩, ?_, ?_⟩
  · intro m hm haccept
    refine Machine.Settles.split (state_of_cell hm hafter) fun alt halt => ?_
    rcases List.mem_append.mp halt with halt | halt
    · rcases List.mem_cons.mp halt with rfl | halt
      · exact haccept
      · obtain ⟨k, hk, rfl⟩ := List.mem_range'.mp halt
        exact hspaces.settles hm (by omega) (by omega)
    · exact hagain' m hm alt halt
  · intro m hm n hn
    have hentry : m.Settles (n + 1) root := by
      refine Machine.Settles.split (state_of_cell hm hroot) fun alt halt => ?_
      rcases List.mem_pair.mp halt with rfl | rfl
      · exact (hopened' m hm (by decide)).mono (Nat.zero_le n)
      · exact hn
    refine Covered.trans (fun j hlo hhi => hspaces.settles hm hlo hhi) <|
      Covered.trans (fun j hlo hhi => (hagain'' m hm n hn j hlo hhi).mono (by omega)) <|
      Covered.trans (hopened.covered hm hn (by omega)) ?_
    exact Covered.one hentry

/-- The cells of the whole grammar. -/
structure CallCells (tools : List ToolSpec) (parallel : Bool) (t : List State) (lo hi root : ℕ) :
    Prop where
  spells : ∃ accept after entry callClose openers a b c d,
    t[accept]? = some .accept ∧
    Piece after (this "</tool_call>") 0 t a b callClose ∧
    t[entry]? = some (.split openers) ∧
    (∀ index spec, tools[index]? = some spec →
      ∃ r ∈ openers, ∃ a b, ToolCells callClose spec index t a b r) ∧
    (∀ r ∈ openers, ∃ index spec, tools[index]? = some spec ∧
      ∃ a b, ToolCells callClose spec index t a b r) ∧
    TailCells accept after entry parallel t c d root
  covered : ∀ m : Machine, m.states = t → Covered m 10 lo hi
  long : lo + 10 ≤ hi

theorem builds_build (tools : List ToolSpec) (parallel : Bool) :
    Builds ∅ (build tools parallel) (CallCells tools parallel) := by
  -- `after` and `entry` are reserved: calls lead back to them
  have hafter : ∀ accept entry after, entry ∉ ({after} : Set ℕ) → Builds (insert entry {after}) (do
      let callClose ← literal (bytes "</tool_call>") after
      let openers ← tools.zipIdx.mapM fun p => toolCall callClose p.1 p.2
      Arena.patch entry (.split openers)
      let spaces ← (bytes " \t\n\r").mapM fun byte => Arena.add (.byte byte after)
      let again ← reopen parallel entry
      Arena.patch after (.split (accept :: spaces ++ again))
      let opened ← literal (bytes "<tool_call>\n") entry
      split [opened, entry]) _ := fun accept entry after hne => by
    have hentry := fun openers => (Builds.patch entry (State.split openers)).bind
      (fun _ => builds_tail accept after entry parallel) (Set.disjoint_singleton_left.mpr hne)
    rw [Set.singleton_union] at hentry
    have htools : ∀ callClose, Builds ∅ (tools.zipIdx.mapM fun p =>
        toolCall callClose p.1 p.2) _ := fun callClose =>
      Builds.mapM (P := fun p => ToolCells callClose p.1 p.2) tools.zipIdx
        fun p _ => builds_toolCall callClose p.1 p.2
    exact (builds_literal (bytes "</tool_call>") after).andThen fun callClose =>
      (htools callClose).andThen fun openers => hentry openers
  have hall := (Builds.add State.accept).andThen fun accept =>
    Builds.reserve (H := ∅) (State.split []) fun after _ =>
      Builds.reserve (H := insert after ∅) (State.split []) fun entry hne => by
        rw [insert_empty_eq] at hne ⊢
        exact hafter accept entry after hne
  refine Builds.mono hall ?_
  rintro t lo hi root - ⟨_, accept, -, -, ⟨rfl, rfl, haccept⟩, mid, callClose, -, hmid,
    ⟨hclose, rfl, hclose'⟩, _, openers, hle, hle', ⟨htools, hopeners, hcells⟩, mid', -, -, hle'',
    ⟨rfl, hentry⟩, htail⟩
  have hindex : ∀ j tool, (tool, j) ∈ tools.zipIdx ↔ tools[j]? = some tool :=
    fun j tool => List.mk_mem_zipIdx_iff_getElem?
  have hlen : (bytes "</tool_call>").length = 12 := by decide
  refine ⟨⟨accept, accept + 1, accept + 1 + 1, callClose, openers, _, _, _, _, haccept, hclose,
    hentry, ?_, ?_, htail⟩, ?_, by omega⟩
  · intro index tool hj
    obtain ⟨r, hr, a, b, -, -, hran⟩ := htools (tool, index) ((hindex index tool).mpr hj)
    exact ⟨r, hr, a, b, hran⟩
  · intro r hr
    obtain ⟨⟨tool, index⟩, hp, a, b, -, -, hran⟩ := hopeners r hr
    exact ⟨index, tool, (hindex index tool).mp hp, a, b, hran⟩
  -- every cell settles, range by range
  · intro m hm
    have haccept' : m.Settles 0 accept := Machine.Settles.waiting (by
      rw [state_of_cell hm haccept]
      trivial)
    have hcall : m.Settles 0 callClose := hclose' m hm (by decide)
    have hafter' := htail.settles m hm haccept'
    have hentry' : m.Settles 2 (accept + 1 + 1) := by
      refine Machine.Settles.split (state_of_cell hm hentry) fun alt halt => ?_
      obtain ⟨p, -, a, b, -, -, hran⟩ := hopeners alt halt
      exact hran.settles m hm
    have hcalls : Covered m 10 (accept + 1 + 1 + 1 + (bytes "</tool_call>").length) mid' := by
      intro j hlo hhi
      obtain ⟨p, -, r, a, b, ha, hb, hran⟩ := hcells j hlo hhi
      exact hran.covered m hm hcall j ha hb
    have htail' : Covered m 10 mid' hi := fun j hlo hhi =>
      (htail.covered m hm 2 hentry' j hlo hhi).mono (by omega)
    exact (Covered.one (haccept'.mono (by omega))).trans <|
      (Covered.one (hafter'.mono (by omega))).trans <|
      (Covered.one (hentry'.mono (by omega))).trans <|
      (hclose.covered hm hafter' (by omega)).trans <|
      hcalls.trans htail'

/-! ### The compiled machine -/

attribute [local irreducible] build

theorem compile_cells (tools : List ToolSpec) (parallel : Bool) :
    CallCells tools parallel (Machine.compile tools parallel).states 0
      (Machine.compile tools parallel).states.length (Machine.compile tools parallel).root :=
  (builds_build tools parallel).run

/-- The closure of a cursor list always has the fuel it needs. -/
theorem compile_settles (tools : List ToolSpec) (parallel : Bool) (i : ℕ) :
    (Machine.compile tools parallel).Settles (Machine.compile tools parallel).states.length i := by
  have hcells := compile_cells tools parallel
  have hlong := hcells.long
  refine Machine.Settles.mono (n := 10) ?_ (by omega)
  rcases Nat.lt_or_ge i (Machine.compile tools parallel).states.length with hlt | hge
  · exact hcells.covered _ rfl i (Nat.zero_le i) hlt
  · have hnone : (Machine.compile tools parallel).state i = .split [] := by
      unfold Machine.state
      rw [List.getD_eq_getElem?_getD, List.getElem?_eq_none hge, Option.getD_none]
    exact Machine.Settles.split hnone fun alt halt => absurd halt List.not_mem_nil

/-- What the machine reads of a call. -/
def anyWords (m : Machine) (tools : List ToolSpec) : Language UInt8 :=
  {w | ∃ index spec, tools[index]? = some spec ∧ w ∈ callWords m spec index}

/-- What the machine reads from its root. -/
def rootWords (m : Machine) (tools : List ToolSpec) (parallel : Bool) : Language UInt8 :=
  (1 + Reference.opener) * (anyWords m tools *
    (oneOf (bytes " \t\n\r") + if parallel then Reference.opener * anyWords m tools else 0)∗)

section Machine

variable {tools : List ToolSpec} {parallel : Bool}
  (hparams : ∀ spec ∈ tools, ∀ param ∈ spec.params, Live (Machine.compile tools parallel) stops
    (Reference.value Reference.exponentInteger param.value))
  (hargs : ∀ index spec, tools[index]? = some spec → ∀ written,
    Live (Machine.compile tools parallel) stops (argumentsFrom spec
      ((Machine.compile tools parallel).required.getD (index % 65536) 0) written))
  (hany : Live (Machine.compile tools parallel) stops
    (anyWords (Machine.compile tools parallel) tools))
  (hstops : ∀ s, stops s → s.Waiting)
include hparams hargs hany hstops

theorem compile_fragment : ∃ accept, (Machine.compile tools parallel).state accept = .accept ∧
    ∀ tool written, ((Machine.compile tools parallel).moves stops).Fragment
      ⟨(Machine.compile tools parallel).root, tool, written⟩ (At accept)
      (rootWords (Machine.compile tools parallel) tools parallel) := by
  obtain ⟨accept, after, entry, callClose, openers, _, _, _, _, haccept, hclose, hentry, htools,
    hopeners, htail⟩ := (compile_cells tools parallel).spells
  obtain ⟨opened, again, _, _, _, _, hspaces, hafter, hagain, hopened, hroot⟩ := htail.spells
  generalize hm : Machine.compile tools parallel = m at *
  have hfallback : m.fallback = kmpFallback CLOSE := hm ▸ rfl
  have hclosing := hclose.spans m rfl hfallback stops hstops
  refine ⟨accept, state_of_cell rfl haccept, fun tool written => ?_⟩
  -- a call, from the split over the tools
  have hcall : ∀ tool written, (m.moves stops).Fragment ⟨entry, tool, written⟩ (At after)
      (anyWords m tools) := by
    intro tool written
    have hnot : ¬(m.state entry).Waiting := by
      rw [state_of_cell rfl hentry]
      exact id
    have hone : ∀ {index spec r a b}, tools[index]? = some spec →
        ToolCells callClose spec index m.states a b r →
        (m.moves stops).Fragment ⟨r, tool, written⟩ (At after) (callWords m spec index) := by
      intro index spec r a b hspec hcells
      exact hcells.fragment rfl hfallback hstops (hparams spec (List.mem_of_getElem? hspec))
        (hargs index spec hspec) hclosing
    refine Moves.Fragment.alts (fun e he => ?_) (fun w hw => ?_)
      (fun byte e => Machine.not_read hnot) fun hw => hnot (hstops _ hw)
    · obtain ⟨r, hr, rfl⟩ := (Machine.silent_split (state_of_cell rfl hentry)).mp he
      obtain ⟨index, spec, hspec, a, b, hcells⟩ := hopeners r hr
      exact ⟨_, fun w hw => ⟨index, spec, hspec, hw⟩, hone hspec hcells⟩
    · obtain ⟨index, spec, hspec, hw⟩ := hw
      obtain ⟨r, hr, a, b, hcells⟩ := htools index spec hspec
      exact ⟨_, _, (Machine.silent_split (state_of_cell rfl hentry)).mpr ⟨r, hr, rfl⟩, hw,
        hone hspec hcells⟩
  -- another round behind a call: a space, or another call
  have hround : ∀ alt tool written, alt ∈ again → (m.moves stops).Fragment ⟨alt, tool, written⟩
      (At after) (Reference.opener * anyWords m tools) ∧ parallel = true := by
    intro alt tool written halt
    cases parallel
    · obtain rfl : again = [] := hagain
      cases halt
    · obtain ⟨a', rfl, hpiece⟩ := hagain
      obtain rfl := List.mem_singleton.mp halt
      refine ⟨(hpiece.spans m rfl hfallback stops hstops tool written).seq ?_ hany, rfl⟩
      rintro c rfl
      exact hcall tool written
  -- behind a call the machine may stop, read a space, or begin another call
  have hspaceCells := hspaces.spans (m := m) rfl stops
  have hnot : ¬(m.state after).Waiting := by
    rw [state_of_cell rfl hafter]
    exact id
  have hloop : ∀ c ∈ At after, (m.moves stops).Fragment c (At accept)
      (oneOf (bytes " \t\n\r") + if parallel then Reference.opener * anyWords m tools else 0)∗ := by
    intro c hc
    refine Moves.Fragment.star (A := At after) ?_ ?_ ?_ ?_ ?_ ?_ hc
    · rintro ⟨_, tool, written⟩ rfl
      exact ⟨⟨accept, tool, written⟩, rfl,
        (Machine.silent_split (state_of_cell rfl hafter)).mpr ⟨accept, by simp, rfl⟩⟩
    · rintro ⟨_, tool, written⟩ rfl w (⟨byte, hbyte, rfl⟩ | hw)
      · obtain ⟨alt, halt, hspans⟩ := hspaceCells.2 byte hbyte
        refine ⟨⟨alt, tool, written⟩, _, (Machine.silent_split (state_of_cell rfl hafter)).mpr
          ⟨alt, ?_, rfl⟩, mem_self _, (hspans tool written).widen ?_⟩
        · exact List.mem_append_left _ (List.mem_cons_of_mem _ halt)
        · rintro c rfl
          rfl
      · cases parallel
        · exact absurd hw (Language.notMem_zero w)
        · obtain ⟨a', rfl, hpiece⟩ := hagain
          refine ⟨⟨a', tool, written⟩, _, (Machine.silent_split (state_of_cell rfl hafter)).mpr
            ⟨a', List.mem_append_right _ List.mem_cons_self, rfl⟩, hw, (hround a' tool written ?_).1⟩
          exact List.mem_cons_self
    -- each alternative of the split is the way out, a space or the opener of a call
    · rintro ⟨_, tool, written⟩ rfl e he
      obtain ⟨alt, halt, rfl⟩ := (Machine.silent_split (state_of_cell rfl hafter)).mp he
      rcases List.mem_append.mp halt with halt | halt
      · rcases List.mem_cons.mp halt with rfl | halt
        · exact Or.inl rfl
        · obtain ⟨byte, hbyte, hspans⟩ := hspaceCells.1 alt halt
          refine Or.inr ⟨{[byte]}, ?_, (hspans tool written).widen ?_⟩
          · rintro w rfl
            exact Or.inl ⟨byte, hbyte, rfl⟩
          · rintro c rfl
            rfl
      · obtain ⟨hfragment, rfl⟩ := hround alt tool written halt
        exact Or.inr ⟨_, le_add_self, hfragment⟩
    · rintro ⟨_, tool, written⟩ rfl byte e
      exact Machine.not_read hnot
    · rintro ⟨_, tool, written⟩ rfl hw
      exact hnot (hstops _ hw)
    -- no round is empty, so the star makes progress
    · rintro (⟨byte, -, h⟩ | hw)
      · cases h
      · cases parallel
        · exact absurd hw (Language.notMem_zero [])
        · obtain ⟨u, rfl, v, -, h⟩ := Language.mem_mul.mp hw
          have hopen : bytes "<tool_call>\n" ≠ [] := by decide
          simp [hopen] at h
  -- the root: at the trigger itself, or in front of the opener
  have hfirst : Spans m stops m.root entry (1 + Reference.opener) :=
    (Spans.either hstops (state_of_cell rfl hroot) (hopened.spans m rfl hfallback stops hstops)
      (Spans.nil entry)).congr (add_comm _ _)
  refine (hfirst tool written).seq ?_ (hany.mul (Or.inl ⟨[], Language.nil_mem_kstar _⟩))
  rintro c rfl
  exact (hcall tool written).seq hloop (Or.inl ⟨[], Language.nil_mem_kstar _⟩)

end Machine

end Grammar
