/-
The calls that a text of the grammar writes.

The documented grammar is about bytes.  A text whose bytes it derives is a list of calls in the
markup (`calls_of_root`), and each of them names a tool that was offered, writes parameters that
the tool declares, and leaves out none that is required and kept in the books (`Conforms`).
-/
import Llmxabe.Grammar.Language
import Llmxabe.Grammar.Offered
import Llmxabe.Lib.Spelled
import Llmxabe.Server.CallRoundTrip

open Computability

namespace Grammar

open CallBlock (argumentText functionText)
open Encoding (Spells utf8)

/-- A call as an answer writes it, and the whitespace behind it. -/
structure WrittenCall where
  opened : Bool
  name : String
  arguments : List (String × List Char)
  space : List Char

namespace WrittenCall

/-- What stands in front of the closer, but for the opener `<tool_call>`. -/
def body (call : WrittenCall) : List Char :=
  (if call.opened then ['\n'] else []) ++ functionText call.name call.arguments

/-- The text of a call. -/
def source (call : WrittenCall) : List Char :=
  (if call.opened then callOpen else []) ++ (call.body ++ callClose)

/-- A parameter of the grammar, and the argument that writes it. -/
def Writing (spec : ToolSpec) (p : ℕ × List UInt8) (argument : String × List Char) : Prop :=
  (∃ param, spec.params[p.1]? = some param ∧ param.name = bytes argument.1) ∧
    p.2 = utf8 (argumentText argument)

/-- The call is one of those that the grammar derives. -/
structure Conforms (specs : List ToolSpec) (call : WrittenCall) : Prop where
  written : ∃ spec ∈ specs, spec.name = bytes call.name ∧ ∃ args,
    Reference.Written tracked Reference.exponentInteger spec args ∧
      List.Forall₂ (Writing spec) args call.arguments
  writable : ∀ argument ∈ call.arguments, writable argument.1 = true
  white : ∀ c ∈ call.space, isWhite c = true

end WrittenCall

variable {integer : Language UInt8} {spec : ToolSpec} {param : ParamSpec} {key name : String}
  {specs : List ToolSpec}

/-! ### Pieces of the markup -/

/-- Every value ends where its tag is closed. -/
theorem close_suffix (value : ValueSpec) {a : List UInt8} (h : a ∈ Reference.value integer value) :
    utf8 "\n</parameter>\n".toList <:+ a := by
  rw [← bytes_eq]
  rcases value with _ | literals | _ | _ | _ | _
  case text => exact h.1
  all_goals
    obtain ⟨text, -, closing, hclosing, rfl⟩ := Language.mem_mul.mp h
    obtain rfl := Set.mem_singleton_iff.mp hclosing
    exact List.suffix_append _ _

/-- A parameter of the grammar is an argument in the markup. -/
theorem spells_parameter (hkey : param.name = bytes key) :
    Spells (Reference.parameter integer param) {u | ∃ text, u = argumentText (key, text)} := by
  have hopening : opening "<parameter=" param.name ++ bytes "\n" =
      utf8 ("<parameter=".toList ++ (key.toList ++ ['>', '\n'])) := by
    unfold opening
    rw [hkey, bytes_eq, bytes_eq, bytes_eq, bytes_eq]
    simp only [Encoding.utf8_append, List.append_assoc]
    rfl
  have hvalue : Spells (Reference.value integer param.value)
      {u | ∃ text, u = text ++ "\n</parameter>\n".toList} :=
    Encoding.spells_closed (by decide) fun a ha => close_suffix param.value ha
  unfold Reference.parameter
  rw [hopening]
  refine ((Encoding.spells_word _).mul hvalue).mono ?_
  intro u hu
  obtain ⟨first, hfirst, second, ⟨text, rfl⟩, rfl⟩ := Language.mem_mul.mp hu
  obtain rfl := Set.mem_singleton_iff.mp hfirst
  have hclose : "\n</parameter>\n".toList = ['\n'] ++ ("</parameter>".toList ++ ['\n']) := by decide
  refine ⟨text, ?_⟩
  unfold argumentText
  rw [hclose]
  simp only [List.append_assoc, List.cons_append, List.nil_append]

/-- The texts of what a call of the tool may write. -/
def argumentTexts (spec : ToolSpec) : Language Char :=
  {u | ∃ (arguments : List (String × List Char)) (args : List (ℕ × List UInt8)),
    u = arguments.flatMap argumentText ∧
      Reference.Written tracked Reference.exponentInteger spec args ∧
        List.Forall₂ (WrittenCall.Writing spec) args arguments ∧
          ∀ argument ∈ arguments, writable argument.1 = true}

/-- The parameters of a call, one behind the other. -/
theorem spells_arguments
    (hkeys : ∀ param ∈ spec.params, ∃ key, param.name = bytes key ∧ writable key = true) :
    Spells (Reference.arguments tracked Reference.exponentInteger spec) (argumentTexts spec) := by
  rintro w a b ⟨args, hwritten, rfl⟩ hw
  have hread : ∀ args : List (ℕ × List UInt8), (∀ p ∈ args, ∃ param, spec.params[p.1]? = some param ∧
      p.2 ∈ Reference.parameter Reference.exponentInteger param) →
        ∀ w, utf8 w = (args.map Prod.snd).flatten ++ b →
          ∃ (arguments : List (String × List Char)) (v : List Char),
            w = arguments.flatMap argumentText ++ v ∧ utf8 v = b ∧
              List.Forall₂ (WrittenCall.Writing spec) args arguments ∧
                ∀ argument ∈ arguments, writable argument.1 = true := by
    intro args
    induction args with
    | nil => exact fun _ w hw => ⟨[], w, rfl, hw, .nil, List.forall_mem_nil _⟩
    | cons p args ih =>
      intro hargs w hw
      obtain ⟨param, hparam, hword⟩ := hargs p List.mem_cons_self
      obtain ⟨key, hkey, hwritable⟩ := hkeys param (List.mem_of_getElem? hparam)
      rw [List.map_cons, List.flatten_cons, List.append_assoc] at hw
      obtain ⟨-, ⟨text, rfl⟩, v, rfl, htext, hv⟩ := spells_parameter hkey hword hw
      obtain ⟨arguments, v, rfl, hb, hwriting, hall⟩ :=
        ih (fun p hmem => hargs p (List.mem_cons_of_mem _ hmem)) v hv
      refine ⟨(key, text) :: arguments, v, ?_, hb, .cons ⟨⟨param, hparam, hkey⟩, htext.symm⟩ hwriting,
        List.forall_mem_cons.mpr ⟨hwritable, hall⟩⟩
      rw [List.flatMap_cons, List.append_assoc]
  obtain ⟨arguments, v, rfl, hb, hwriting, hall⟩ := hread args hwritten.offered w hw
  refine ⟨_, ⟨arguments, args, rfl, hwritten, hwriting, hall⟩, v, rfl, ?_, hb⟩
  -- both are what stands in front of `b`
  rw [Encoding.utf8_append, hb] at hw
  exact List.append_cancel_right hw

/-! ### Calls -/

/-- The texts of calls that conform. -/
def callTexts (specs : List ToolSpec) (opened : Bool) : Language Char :=
  {u | ∃ call : WrittenCall, call.Conforms specs ∧ call.opened = opened ∧ u = call.source ++ call.space}

/-- What the grammar reads can be written back. -/
def Spellable (specs : List ToolSpec) : Prop :=
  ∀ spec ∈ specs, (∃ name, spec.name = bytes name) ∧
    ∀ param ∈ spec.params, ∃ key, param.name = bytes key ∧ writable key = true

theorem spaces_eq : " \t\n\r".toList = [' ', '\t', '\n', '\r'] := by decide

theorem spells_space : Spells Reference.space {u | ∀ c ∈ u, isWhite c = true} := by
  have hletters : Spells (Reference.oneOf (bytes " \t\n\r"))
      {u | ∃ c ∈ [' ', '\t', '\n', '\r'], u = [c]} := by
    rw [bytes_eq, spaces_eq]
    refine Encoding.spells_letters fun c hc => ?_
    simp only [List.mem_cons, List.not_mem_nil, or_false] at hc
    rcases hc with rfl | rfl | rfl | rfl
    · exact ⟨0x20, rfl⟩
    · exact ⟨0x09, rfl⟩
    · exact ⟨0x0a, rfl⟩
    · exact ⟨0x0d, rfl⟩
  refine hletters.kstar.mono ?_
  intro u hu
  obtain ⟨texts, rfl, htexts⟩ := Language.mem_kstar.mp hu
  intro c hc
  obtain ⟨text, htext, hct⟩ := List.mem_flatten.mp hc
  obtain ⟨x, hx, rfl⟩ := htexts text htext
  rw [List.mem_singleton.mp hct]
  simp only [List.mem_cons, List.not_mem_nil, or_false] at hx
  rcases hx with rfl | rfl | rfl | rfl
  all_goals rfl

theorem spells_body (hspecs : Spellable specs) :
    Spells (Reference.anyCall tracked Reference.exponentInteger specs * Reference.space)
      (callTexts specs false) := by
  have hcall : Spells (Reference.anyCall tracked Reference.exponentInteger specs)
      {u | ∃ call : WrittenCall, call.Conforms specs ∧ call.opened = false ∧ call.space = [] ∧
        u = call.source} := by
    rintro w a b ⟨spec, hspec, ha⟩ hw
    obtain ⟨⟨name, hname⟩, hkeys⟩ := hspecs spec hspec
    have hopening : opening "<function=" spec.name ++ bytes "\n" =
        utf8 ("<function=".toList ++ (name.toList ++ ['>', '\n'])) := by
      unfold opening
      rw [hname, bytes_eq, bytes_eq, bytes_eq, bytes_eq]
      simp only [Encoding.utf8_append, List.append_assoc]
      rfl
    unfold Reference.call Reference.this at ha
    rw [hopening, bytes_eq, bytes_eq] at ha
    have hspells := (Encoding.spells_word ("<function=".toList ++ (name.toList ++ ['>', '\n']))).mul
      ((spells_arguments hkeys).mul
        ((Encoding.spells_word "</function>\n".toList).mul
          (Encoding.spells_word "</tool_call>".toList)))
    obtain ⟨u, hu, v, rfl, rfl, hv⟩ := hspells ha hw
    obtain ⟨first, hfirst, second, hsecond, rfl⟩ := Language.mem_mul.mp hu
    obtain ⟨third, ⟨arguments, args, rfl, hwritten, hwords, hall⟩, fourth, hfourth, rfl⟩ :=
      Language.mem_mul.mp hsecond
    obtain ⟨fifth, hfifth, sixth, hsixth, rfl⟩ := Language.mem_mul.mp hfourth
    obtain rfl := Set.mem_singleton_iff.mp hfirst
    obtain rfl := Set.mem_singleton_iff.mp hfifth
    obtain rfl := Set.mem_singleton_iff.mp hsixth
    refine ⟨_, ⟨⟨false, name, arguments, []⟩, ⟨⟨spec, hspec, hname, args, hwritten, hwords⟩, hall,
      List.forall_mem_nil _⟩, rfl, rfl, ?_⟩, v, rfl, rfl, hv⟩
    have hclose : "</function>\n".toList = "</function>".toList ++ ['\n'] := by decide
    unfold WrittenCall.source WrittenCall.body functionText callClose
    rw [hclose]
    simp only [Bool.false_eq_true, if_false, List.append_assoc, List.cons_append, List.nil_append]
  refine (hcall.mul spells_space).mono ?_
  intro u hu
  obtain ⟨first, ⟨call, hconforms, hopened, hspace, rfl⟩, second, hwhite, rfl⟩ :=
    Language.mem_mul.mp hu
  exact ⟨{ call with space := second }, ⟨hconforms.written, hconforms.writable, hwhite⟩, hopened, rfl⟩

/-- A call behind its opener. -/
theorem spells_opened (hspecs : Spellable specs) :
    Spells (Reference.opener * (Reference.anyCall tracked Reference.exponentInteger specs *
      Reference.space)) (callTexts specs true) := by
  have hopener : Spells Reference.opener {"<tool_call>\n".toList} := by
    unfold Reference.opener Reference.this
    rw [bytes_eq]
    exact Encoding.spells_word _
  refine (hopener.mul (spells_body hspecs)).mono ?_
  intro u hu
  obtain ⟨first, hfirst, second, ⟨call, hconforms, hopened, rfl⟩, rfl⟩ := Language.mem_mul.mp hu
  obtain rfl := Set.mem_singleton_iff.mp hfirst
  refine ⟨{ call with opened := true },
    ⟨hconforms.written, hconforms.writable, hconforms.white⟩, rfl, ?_⟩
  have hopen : "<tool_call>\n".toList = callOpen ++ ['\n'] := by decide
  unfold WrittenCall.source WrittenCall.body
  rw [hopen, hopened]
  simp only [Bool.false_eq_true, if_false, if_true, List.append_assoc, List.cons_append,
    List.nil_append]

/-- A text of the grammar is a list of calls, all but the first of them behind an opener. -/
theorem calls_of_root (hspecs : Spellable specs) {w : List Char}
    (h : utf8 w ∈ Reference.root tracked Reference.exponentInteger specs true) :
    ∃ (call : WrittenCall) (calls : List WrittenCall),
      w = (call :: calls).flatMap (fun call => call.source ++ call.space) ∧
      (∀ call' ∈ call :: calls, call'.Conforms specs) ∧ ∀ call' ∈ calls, call'.opened = true := by
  unfold Reference.root at h
  simp only [if_true] at h
  rw [← mul_assoc, one_add_mul] at h
  have hbody := spells_body hspecs
  have hspells := (hbody.add (spells_opened hspecs)).mul (spells_opened hspecs).kstar
  obtain ⟨first, hfirst, second, hsecond, rfl⟩ := Language.mem_mul.mp (hspells.mem h)
  obtain ⟨call, hconforms, rfl⟩ : ∃ call : WrittenCall, call.Conforms specs ∧
      first = call.source ++ call.space := by
    rcases hfirst with ⟨call, hconforms, -, rfl⟩ | ⟨call, hconforms, -, rfl⟩
    · exact ⟨call, hconforms, rfl⟩
    · exact ⟨call, hconforms, rfl⟩
  obtain ⟨texts, rfl, htexts⟩ := Language.mem_kstar.mp hsecond
  obtain ⟨calls, rfl, hcalls⟩ : ∃ calls : List WrittenCall,
      texts = calls.map (fun call => call.source ++ call.space) ∧
        ∀ call ∈ calls, call.Conforms specs ∧ call.opened = true := by
    clear hsecond h
    induction texts with
    | nil => exact ⟨[], rfl, List.forall_mem_nil _⟩
    | cons text texts ih =>
      obtain ⟨later, hlater, hopened, rfl⟩ := htexts text List.mem_cons_self
      obtain ⟨calls, rfl, hcalls⟩ := ih fun text hmem => htexts text (List.mem_cons_of_mem _ hmem)
      exact ⟨later :: calls, rfl, List.forall_mem_cons.mpr ⟨⟨hlater, hopened⟩, hcalls⟩⟩
  refine ⟨call, calls, ?_, ?_, fun call' hmem => (hcalls call' hmem).2⟩
  · rw [List.flatMap_cons, List.flatMap_def]
  · exact List.forall_mem_cons.mpr ⟨hconforms, fun call' hmem => (hcalls call' hmem).1⟩

end Grammar
