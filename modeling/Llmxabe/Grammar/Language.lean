/-
The language of the compiled machine.

A run of the machine keeps its books in one word of bits; `writes_iff` reads them
back as the documented conditions on the parameters a call writes.  With at most
65536 tools of at most 256 parameters each the machine spells the documented
grammar with its bookkeeping for the first 64 parameters only, and with integers
that may carry an exponent (`accepts_iff_mem_root`).

* `accepts_reference`: the language, as far as it is by design;
* `untracked_parameter_left_out`: past the 64th a required parameter may be missing.
-/
import Llmxabe.Grammar.Calls

open Computability

namespace Grammar

open Reference (this oneOf)

variable {spec : ToolSpec} {required written written' : BitVec 64} {i j : ℕ}
  {args : List (ℕ × List UInt8)}

/-! ### Parameters as bits -/

/-- The parameter has a bit. -/
def tracked (param : ℕ) : Bool := decide (param < TRACKED_PARAMS)

theorem paramBit_getLsbD (hj : j < 64) : (paramBit i).getLsbD j = decide (i = j) := by
  unfold paramBit TRACKED_PARAMS
  split
  case isTrue hi =>
    rw [BitVec.getLsbD_shiftLeft, BitVec.getLsbD_one]
    by_cases hij : i = j
    · subst hij
      simp [hj]
    · by_cases hlt : j < i
      · simp [hlt, hij]
      · have : ¬j - i = 0 := by omega
        simp [hij, this]
  case isFalse hi =>
    have : i ≠ j := by omega
    simp [this]

theorem and_paramBit_eq_zero :
    written &&& paramBit i = 0 ↔ (i < 64 → written.getLsbD i = false) := by
  constructor
  · intro h hi
    have hbit := congrArg (fun v : BitVec 64 => v.getLsbD i) h
    simpa [paramBit_getLsbD hi] using hbit
  · intro h
    refine BitVec.eq_of_getLsbD_eq fun j hj => ?_
    rw [BitVec.getLsbD_and, paramBit_getLsbD hj]
    by_cases hij : i = j
    · subst hij
      simp [h hj]
    · simp [hij]

theorem and_eq_self_iff {a b : BitVec 64} :
    a &&& b = b ↔ ∀ j < 64, b.getLsbD j = true → a.getLsbD j = true := by
  constructor
  · intro h j _ hb
    have hbit := congrArg (fun v : BitVec 64 => v.getLsbD j) h
    simpa [hb] using hbit
  · intro h
    refine BitVec.eq_of_getLsbD_eq fun j hj => ?_
    rw [BitVec.getLsbD_and]
    by_cases hb : b.getLsbD j = true
    · rw [h j hj hb, hb, Bool.true_and]
    · rw [Bool.not_eq_true] at hb
      rw [hb, Bool.and_false]

/-- The bits of a fold over numbered parameters. -/
theorem foldl_required_getLsbD (params : List (ParamSpec × ℕ)) (bits : BitVec 64) (hj : j < 64) :
    (params.foldl (fun bits (param, k) =>
      if param.required then bits ||| paramBit (k % 256) else bits) bits).getLsbD j = true ↔
      bits.getLsbD j = true ∨ ∃ param k, (param, k) ∈ params ∧ param.required ∧ k % 256 = j := by
  induction params generalizing bits with
  | nil => simp
  | cons p params ih =>
    obtain ⟨param, k⟩ := p
    rw [List.foldl_cons, ih]
    by_cases hrequired : param.required
    · simp only [hrequired, if_true, BitVec.getLsbD_or, Bool.or_eq_true, paramBit_getLsbD hj,
        decide_eq_true_eq, List.mem_cons, Prod.mk.injEq]
      constructor
      · rintro ((h | h) | ⟨q, k', hq, h⟩)
        · exact Or.inl h
        · exact Or.inr ⟨param, k, Or.inl ⟨rfl, rfl⟩, hrequired, h⟩
        · exact Or.inr ⟨q, k', Or.inr hq, h⟩
      · rintro (h | ⟨q, k', ⟨rfl, rfl⟩ | hq, h⟩)
        · exact Or.inl (Or.inl h)
        · exact Or.inl (Or.inr h.2)
        · exact Or.inr ⟨q, k', hq, h⟩
    · simp only [hrequired, List.mem_cons, Prod.mk.injEq]
      refine or_congr_right ⟨?_, ?_⟩
      · rintro ⟨q, k', hq, h⟩
        exact ⟨q, k', Or.inr hq, h⟩
      · rintro ⟨q, k', ⟨rfl, rfl⟩ | hq, h⟩
        · exact absurd h.1 hrequired
        · exact ⟨q, k', hq, h⟩

theorem requiredBits_getLsbD (hj : j < 64) :
    (requiredBits spec).getLsbD j = true ↔
      ∃ param k, spec.params[k]? = some param ∧ param.required ∧ k % 256 = j := by
  unfold requiredBits
  rw [foldl_required_getLsbD _ _ hj]
  simp only [List.mk_mem_zipIdx_iff_getElem?, BitVec.ofNat_eq_ofNat, BitVec.getLsbD_zero,
    Bool.false_eq_true, false_or]

/-! ### The books of a call -/

theorem Writes.getLsbD (h : Writes spec written args written') (hj : j < 64) :
    written'.getLsbD j = true ↔
      written.getLsbD j = true ∨ ∃ p ∈ args, p.1 % 256 = j := by
  induction h with
  | nil => simp
  | @cons written _ i word param rest _ _ _ _ ih =>
    rw [ih, BitVec.getLsbD_or, paramBit_getLsbD hj, Bool.or_eq_true, decide_eq_true_eq, or_assoc]
    simp only [List.exists_mem_cons_iff]

section Books

variable (hsmall : spec.params.length ≤ 256)
include hsmall

theorem mod_of_getElem? {param : ParamSpec} (h : spec.params[i]? = some param) : i % 256 = i := by
  obtain ⟨hlt, -⟩ := List.getElem?_eq_some_iff.mp h
  exact Nat.mod_eq_of_lt (by omega)

/-- What can be written from a bit set: offered parameters, the tracked ones once
and not again. -/
theorem exists_writes_iff :
    (∃ written', Writes spec written args written') ↔
      (∀ p ∈ args, ∃ param, spec.params[p.1]? = some param ∧ p.2 ∈ parameterWords param) ∧
      ((args.map Prod.fst).filter tracked).Nodup ∧
      ∀ p ∈ args, tracked p.1 → written.getLsbD p.1 = false := by
  induction args generalizing written with
  | nil => exact ⟨fun _ => by simp, fun _ => ⟨written, .nil _⟩⟩
  | cons p rest ih =>
    obtain ⟨i, word⟩ := p
    simp only [List.forall_mem_cons, List.map_cons, List.filter_cons]
    constructor
    · rintro ⟨written', h⟩
      cases h with
      | @cons _ _ _ _ param _ hparam hword hfree hrest =>
        rw [mod_of_getElem? hsmall hparam] at hfree hrest
        obtain ⟨hoffered, hnodup, hfresh⟩ := ih.mp ⟨_, hrest⟩
        have hfree' := and_paramBit_eq_zero.mp hfree
        refine ⟨⟨⟨param, hparam, hword⟩, hoffered⟩, ?_, fun hi => hfree' (of_decide_eq_true hi),
          fun q hq htracked => ?_⟩
        · split
          case isFalse => exact hnodup
          case isTrue hi =>
            refine List.nodup_cons.mpr ⟨fun hmem => ?_, hnodup⟩
            obtain ⟨hmem, -⟩ := List.mem_filter.mp hmem
            obtain ⟨q, hq, rfl⟩ := List.mem_map.mp hmem
            have := hfresh q hq hi
            rw [BitVec.getLsbD_or, paramBit_getLsbD (of_decide_eq_true hi)] at this
            simp at this
        · have := hfresh q hq htracked
          rw [BitVec.getLsbD_or, Bool.or_eq_false_iff] at this
          exact this.1
    · rintro ⟨⟨⟨param, hparam, hword⟩, hoffered⟩, hnodup, hfree, hfresh⟩
      have hmod := mod_of_getElem? hsmall hparam
      have hrest : ∃ written', Writes spec (written ||| paramBit (i % 256)) rest written' := by
        refine ih.mpr ⟨hoffered, ?_, fun q hq htracked => ?_⟩
        · split at hnodup
          case isTrue => exact (List.nodup_cons.mp hnodup).2
          case isFalse => exact hnodup
        · rw [hmod, BitVec.getLsbD_or, hfresh q hq htracked,
            paramBit_getLsbD (of_decide_eq_true htracked), Bool.false_or, decide_eq_false_iff_not]
          rintro rfl
          rw [if_pos htracked] at hnodup
          refine (List.nodup_cons.mp hnodup).1 (List.mem_filter.mpr ⟨?_, htracked⟩)
          exact List.mem_map_of_mem hq
      obtain ⟨written', hrest⟩ := hrest
      refine ⟨written', .cons hparam hword (and_paramBit_eq_zero.mpr ?_) hrest⟩
      rw [hmod]
      exact fun hi => hfree (decide_eq_true hi)

/-- The machine's books are the documented conditions. -/
theorem arguments_eq :
    argumentsFrom spec (requiredBits spec) 0 =
      Reference.arguments tracked Reference.exponentInteger spec := by
  ext w
  constructor
  · rintro ⟨args, written', hwrites, hcover, rfl⟩
    obtain ⟨hoffered, honce, -⟩ := (exists_writes_iff hsmall).mp ⟨written', hwrites⟩
    refine ⟨args, ⟨hoffered, honce, fun i param hparam hrequired htracked => ?_⟩, rfl⟩
    have hi : i < 64 := of_decide_eq_true htracked
    have hbit := and_eq_self_iff.mp hcover i hi
      ((requiredBits_getLsbD hi).mpr ⟨param, i, hparam, hrequired, mod_of_getElem? hsmall hparam⟩)
    rcases (hwrites.getLsbD hi).mp hbit with h | ⟨p, hp, hmod⟩
    · simp at h
    · obtain ⟨param', hparam', -⟩ := hoffered p hp
      rw [mod_of_getElem? hsmall hparam'] at hmod
      exact hmod ▸ List.mem_map_of_mem hp
  · rintro ⟨args, hwritten, rfl⟩
    obtain ⟨written', hwrites⟩ : ∃ written', Writes spec 0 args written' :=
      (exists_writes_iff hsmall).mpr
        ⟨hwritten.offered, hwritten.once, fun p _ _ => BitVec.getLsbD_zero⟩
    refine ⟨args, written', hwrites, and_eq_self_iff.mpr fun j hj hbit => ?_, rfl⟩
    obtain ⟨param, k, hparam, hrequired, rfl⟩ := (requiredBits_getLsbD hj).mp hbit
    have hmod := mod_of_getElem? hsmall hparam
    have hmem := hwritten.complete k param hparam hrequired (decide_eq_true (hmod ▸ hj))
    obtain ⟨p, hp, rfl⟩ := List.mem_map.mp hmem
    exact (hwrites.getLsbD hj).mpr (Or.inr ⟨p, hp, rfl⟩)

end Books

/-! ### The language -/

theorem kstar_add (a b : Language UInt8) : (a + b)∗ = a∗ * (b * a∗)∗ := by
  refine le_antisymm ?_ ?_
  · refine kstar_le_of_mul_le_right ?_ ?_
    · exact one_le_kstar.trans (le_mul_of_one_le_right' one_le_kstar)
    · rw [add_mul, ← mul_assoc, ← mul_assoc]
      refine add_le ?_ ?_
      · exact mul_le_mul_left mul_kstar_le_kstar _
      · exact mul_kstar_le_kstar.trans (le_mul_of_one_le_left' one_le_kstar)
  · have ha : a∗ ≤ (a + b)∗ := kstar_mono le_self_add
    have hb : b ≤ (a + b)∗ := le_trans (le_add_self : b ≤ a + b) le_kstar
    have hba : (b * a∗)∗ ≤ (a + b)∗ := by
      rw [← kstar_idem (a + b)]
      refine kstar_mono ((mul_le_mul' hb ha).trans ?_)
      rw [kstar_mul_kstar]
    refine (mul_le_mul' ha hba).trans ?_
    rw [kstar_mul_kstar]

section Compiled

attribute [local irreducible] build

variable {tools : List ToolSpec} {parallel : Bool}

/-- Runs that end in `accept` spell the machine's language, whatever the tools. -/
theorem accepts_iff_rootWords (w : List UInt8) :
    (Machine.compile tools parallel).Accepts w ↔
      w ∈ rootWords (Machine.compile tools parallel) tools parallel := by
  have hstops : ∀ s, s = State.accept → s.Waiting := by
    rintro s rfl
    trivial
  have hhalt : ((Machine.compile tools parallel).moves (· = .accept)).Halting := by
    intro e he
    have he : (Machine.compile tools parallel).state e.state = .accept := he
    refine ⟨fun d => Machine.not_silent (by rw [he]; trivial), fun b d hread => ?_⟩
    simp [Machine.moves, Machine.advance, he] at hread
  obtain ⟨accept, haccept, hfragment⟩ := compile_fragment
    (fun _ _ _ _ => Or.inr hhalt) (fun _ _ _ _ => Or.inr hhalt) (Or.inr hhalt) hstops
  have hend : ∀ c ∈ At accept, (Machine.compile tools parallel).state c.state = .accept := by
    rintro c rfl
    exact haccept
  rw [Machine.accepts_iff (compile_settles tools parallel) (· = .accept)]
  constructor
  · rintro ⟨d, hd, hpath⟩
    rcases (hfragment _ _).passes hpath hd with ⟨u, v, hu, rfl, c, hc, hpath⟩ | ⟨v, hv, c, -, hpath⟩
    · obtain ⟨rfl, -⟩ := hpath.of_stuck (hhalt c (hend c hc))
      rwa [List.append_nil]
    · obtain ⟨rfl, -⟩ := hpath.of_stuck (hhalt d hd)
      rwa [List.append_nil] at hv
  · intro hw
    obtain ⟨d, hd, hpath⟩ := (hfragment 65535 0).spells hw
    exact ⟨d, hend d hd, hpath⟩

theorem compile_required {index : ℕ} (htools : tools.length ≤ 65536)
    (hspec : tools[index]? = some spec) :
    (Machine.compile tools parallel).required.getD (index % 65536) 0 = requiredBits spec := by
  obtain ⟨hlt, -⟩ := List.getElem?_eq_some_iff.mp hspec
  change (tools.map requiredBits).getD (index % 65536) 0 = _
  rw [Nat.mod_eq_of_lt (by omega), List.getD_eq_getElem?_getD, List.getElem?_map, hspec]
  rfl

theorem anyWords_eq (htools : tools.length ≤ 65536)
    (hparams : ∀ spec ∈ tools, spec.params.length ≤ 256) :
    anyWords (Machine.compile tools parallel) tools =
      Reference.anyCall tracked Reference.exponentInteger tools := by
  have hcall : ∀ {index spec}, tools[index]? = some spec →
      callWords (Machine.compile tools parallel) spec index =
        Reference.call tracked Reference.exponentInteger spec := by
    intro index spec hspec
    unfold callWords Reference.call
    rw [compile_required htools hspec, arguments_eq (hparams spec (List.mem_of_getElem? hspec))]
  ext w
  constructor
  · rintro ⟨index, spec, hspec, hw⟩
    rw [hcall hspec] at hw
    exact ⟨spec, List.mem_of_getElem? hspec, hw⟩
  · rintro ⟨spec, hmem, hw⟩
    obtain ⟨index, hspec⟩ := List.getElem?_of_mem hmem
    rw [← hcall hspec] at hw
    exact ⟨index, spec, hspec, hw⟩

theorem accepts_iff_mem_root (htools : tools.length ≤ 65536)
    (hparams : ∀ spec ∈ tools, spec.params.length ≤ 256) (w : List UInt8) :
    (Machine.compile tools parallel).Accepts w ↔
      w ∈ Reference.root tracked Reference.exponentInteger tools parallel := by
  rw [accepts_iff_rootWords]
  unfold rootWords Reference.root
  rw [anyWords_eq htools hparams]
  cases parallel
  · simp only [Bool.false_eq_true, if_false, add_zero]
    rfl
  · simp only [if_true]
    rw [kstar_add, ← mul_assoc (Reference.anyCall _ _ _), mul_assoc Reference.opener]
    rfl

/-- With at most 65536 tools of at most 256 parameters the machine takes every word
of the documented grammar, with its books kept for the first 64 parameters, and no
other; at an integer value only the documented words are settled. -/
theorem accepts_reference (htools : tools.length ≤ 65536)
    (hparams : ∀ spec ∈ tools, spec.params.length ≤ 256) :
    (∀ w ∈ Reference.root tracked Reference.integer tools parallel,
      (Machine.compile tools parallel).Accepts w) ∧
    (∀ w, (Machine.compile tools parallel).Accepts w →
      w ∈ Reference.root tracked Reference.exponentInteger tools parallel) ∧
    ((∀ spec ∈ tools, ∀ param ∈ spec.params, param.value ≠ .integer) → ∀ w,
      (Machine.compile tools parallel).Accepts w ↔
        w ∈ Reference.root tracked Reference.integer tools parallel) := by
  have hle : Reference.integer ≤ Reference.exponentInteger := by
    unfold Reference.integer Reference.exponentInteger
    refine mul_le_mul_right ?_ _
    rw [mul_one_add]
    exact le_self_add
  have haccepts : ∀ w, (Machine.compile tools parallel).Accepts w ↔
      w ∈ Reference.root tracked Reference.exponentInteger tools parallel :=
    accepts_iff_mem_root htools hparams
  have hsub : ∀ w ∈ Reference.root tracked Reference.integer tools parallel,
      (Machine.compile tools parallel).Accepts w := by
    intro w hw
    rw [haccepts]
    exact Reference.mem_of_le
      (Reference.root_mono fun spec _ param _ => Reference.value_mono hle param.value) hw
  refine ⟨hsub, fun w hw => (haccepts w).mp hw, fun hints w => ⟨fun hw => ?_, hsub w⟩⟩
  refine Reference.mem_of_le (Reference.root_mono fun spec hspec param hparam => ?_)
    ((haccepts w).mp hw)
  have hvalue := hints spec hspec param hparam
  rcases hkind : param.value with _ | _ | _ | _ | _ | _
  case integer => exact absurd hkind hvalue
  all_goals exact le_refl _

end Compiled

/-! ### A required parameter past the 64th -/

/-- 65 parameters, the last of them required. -/
def wideTool : ToolSpec where
  name := bytes "t"
  params := (List.range 65).map fun i =>
    { name := List.replicate (i + 1) 0x70, required := i == 64, value := .null }

/-- A call without any parameter. -/
def emptyCall : List UInt8 := bytes "<function=t>\n</function>\n</tool_call>"

theorem emptyCall_mem (integer : Language UInt8) :
    emptyCall ∈ Reference.root tracked integer [wideTool] false := by
  have hargs : [] ∈ Reference.arguments tracked integer wideTool := by
    refine ⟨[], ⟨fun p hp => absurd hp List.not_mem_nil, List.nodup_nil, ?_⟩, rfl⟩
    intro i param hparam hrequired htracked
    simp only [wideTool, List.getElem?_map, Option.map_eq_some_iff] at hparam
    obtain ⟨k, hk, rfl⟩ := hparam
    obtain ⟨hlt, hk⟩ := List.getElem?_eq_some_iff.mp hk
    rw [List.getElem_range] at hk
    subst hk
    have hlast : i = 64 := by simpa using hrequired
    subst hlast
    exact absurd htracked (by decide)
  have hcall : emptyCall ∈ Reference.anyCall tracked integer [wideTool] :=
    ⟨wideTool, List.mem_singleton_self _, Language.append_mem_mul
      (mem_self (opening "<function=" (bytes "t") ++ bytes "\n"))
      (Language.append_mem_mul hargs (Language.append_mem_mul
        (mem_self (bytes "</function>\n")) (mem_self (bytes "</tool_call>"))))⟩
  have hbody := Language.append_mem_mul hcall (Language.nil_mem_kstar (oneOf (bytes " \t\n\r")))
  rw [List.append_nil] at hbody
  exact Language.append_mem_mul (mem_one_add.mpr (Or.inl rfl)) hbody

theorem accepts_reference_witness : (Machine.compile [wideTool] false).Accepts emptyCall :=
  (accepts_reference (by decide) (by decide)).1 emptyCall (emptyCall_mem _)

/-- A call that must write a parameter has an opening tag in it. -/
theorem opens_parameter {integer : Language UInt8} {w : List UInt8}
    (hrequired : ∃ (i : ℕ) (param : ParamSpec), spec.params[i]? = some param ∧ param.required)
    (hw : w ∈ Reference.call (fun _ => true) integer spec) : bytes "<parameter=" <:+: w := by
  obtain ⟨i, param, hparam, hparamRequired⟩ := hrequired
  obtain ⟨head, -, _, htail, rfl⟩ := Language.mem_mul.mp hw
  obtain ⟨_, ⟨args, hargs, rfl⟩, closing, -, rfl⟩ := Language.mem_mul.mp htail
  obtain ⟨p, hp, -⟩ := List.mem_map.mp (hargs.complete i param hparam hparamRequired rfl)
  obtain ⟨param', -, hword⟩ := hargs.offered p hp
  obtain ⟨_, rfl, value, -, hspelt⟩ := Language.mem_mul.mp hword
  obtain ⟨before, after, hflat⟩ := List.append_of_mem (List.mem_map_of_mem (f := Prod.snd) hp)
  refine ⟨head ++ before.flatten,
    param'.name ++ bytes ">" ++ bytes "\n" ++ value ++ after.flatten ++ closing, ?_⟩
  rw [hflat, List.flatten_append, List.flatten_cons, ← hspelt]
  simp [opening, List.append_assoc]

theorem untracked_parameter_left_out :
    (Machine.compile [wideTool] false).Accepts emptyCall ∧
      emptyCall ∉ Reference.root (fun _ => true) Reference.integer [wideTool] false := by
  refine ⟨(accepts_iff_mem_root (by decide) (by decide) _).mpr (emptyCall_mem _), ?_⟩
  intro hw
  obtain ⟨head, -, _, hbody, hsplit⟩ := Language.mem_mul.mp hw
  obtain ⟨word, ⟨spec, hspec, hcall⟩, spaces, -, rfl⟩ := Language.mem_mul.mp hbody
  obtain rfl := List.mem_singleton.mp hspec
  have hrequired : ∃ (i : ℕ) (param : ParamSpec),
      wideTool.params[i]? = some param ∧ param.required :=
    ⟨64, ⟨List.replicate 65 0x70, true, .null⟩, by decide, rfl⟩
  have hinfix : bytes "<parameter=" <:+: emptyCall := by
    rw [← hsplit]
    exact (opens_parameter hrequired hcall).trans ⟨head, spaces, List.append_assoc ..⟩
  revert hinfix
  decide

end Grammar
