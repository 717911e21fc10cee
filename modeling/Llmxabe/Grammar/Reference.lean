/-
The documented grammar, as languages of byte strings.

A call names an offered tool and writes parameters the tool declares, in any
order; the ones that are `tracked` it writes at most once each, and those of them
that are required it does not leave out.  `integer` is the language of an integer
value.  Nothing here is read off the machine.
-/
import Mathlib
import Llmxabe.Grammar.Machine

open Computability

namespace Grammar

namespace Reference

/-- One of the letters. -/
def oneOf (letters : List UInt8) : Language UInt8 := {w | ∃ b ∈ letters, w = [b]}

/-- The word alone. -/
def this (word : String) : Language UInt8 := {bytes word}

/-- One of the words. -/
def oneWord (words : List (List UInt8)) : Language UInt8 := {w | w ∈ words}

/-! ### Values -/

/-- One decimal digit. -/
def digit : Language UInt8 := oneOf (bytes "0123456789")

/-- No zero in front of other digits. -/
def magnitude : Language UInt8 := this "0" + oneOf (bytes "123456789") * digit∗

/-- A point and digits. -/
def fraction : Language UInt8 := this "." * (digit * digit∗)

/-- `e` or `E`, a sign or not, digits. -/
def exponent : Language UInt8 :=
  oneOf (bytes "eE") * ((1 + oneOf (bytes "+-")) * (digit * digit∗))

/-- An integer. -/
def integer : Language UInt8 := (1 + this "-") * magnitude

/-- An integer, which may have an exponent. -/
def exponentInteger : Language UInt8 := (1 + this "-") * (magnitude * (1 + exponent))

/-- A number. -/
def number : Language UInt8 :=
  (1 + this "-") * (magnitude * ((1 + fraction) * (1 + exponent)))

/-- The value of a parameter, with the tag that closes it. -/
def value (integer : Language UInt8) : ValueSpec → Language UInt8
  | .text => {w | Scan.Ends CLOSE w}
  | .literals literals => oneWord literals * {CLOSE}
  | .boolean => (this "true" + this "false") * {CLOSE}
  | .integer => integer * {CLOSE}
  | .number => number * {CLOSE}
  | .null => this "null" * {CLOSE}

/-! ### Calls -/

/-- A parameter and its value. -/
def parameter (integer : Language UInt8) (spec : ParamSpec) : Language UInt8 :=
  {opening "<parameter=" spec.name ++ bytes "\n"} * value integer spec.value

/-- The parameters a call writes, in order, each with what it spells. -/
structure Written (tracked : ℕ → Bool) (integer : Language UInt8) (tool : ToolSpec)
    (args : List (ℕ × List UInt8)) : Prop where
  offered : ∀ p ∈ args, ∃ spec, tool.params[p.1]? = some spec ∧ p.2 ∈ parameter integer spec
  once : ((args.map Prod.fst).filter tracked).Nodup
  complete : ∀ i spec, tool.params[i]? = some spec → spec.required → tracked i →
    i ∈ args.map Prod.fst

/-- The parameters of a call, one behind the other. -/
def arguments (tracked : ℕ → Bool) (integer : Language UInt8) (tool : ToolSpec) :
    Language UInt8 :=
  {w | ∃ args, Written tracked integer tool args ∧ w = (args.map Prod.snd).flatten}

/-- A call of one tool. -/
def call (tracked : ℕ → Bool) (integer : Language UInt8) (tool : ToolSpec) : Language UInt8 :=
  {opening "<function=" tool.name ++ bytes "\n"} *
    (arguments tracked integer tool * (this "</function>\n" * this "</tool_call>"))

/-- A call of one of the tools. -/
def anyCall (tracked : ℕ → Bool) (integer : Language UInt8) (tools : List ToolSpec) :
    Language UInt8 :=
  {w | ∃ tool ∈ tools, w ∈ call tracked integer tool}

/-- Whitespace behind a call. -/
def space : Language UInt8 := (oneOf (bytes " \t\n\r"))∗

/-- The line in front of a call. -/
def opener : Language UInt8 := this "<tool_call>\n"

/-- A call, and in parallel mode more of them. -/
def root (tracked : ℕ → Bool) (integer : Language UInt8) (tools : List ToolSpec)
    (parallel : Bool) : Language UInt8 :=
  let body := anyCall tracked integer tools * space
  (1 + opener) * if parallel then body * (opener * body)∗ else body

theorem mem_of_le {L L' : Language UInt8} {w : List UInt8} (h : L ≤ L') (hw : w ∈ L) : w ∈ L' :=
  h hw

theorem value_mono {integer integer' : Language UInt8} (h : integer ≤ integer')
    (spec : ValueSpec) : value integer spec ≤ value integer' spec := by
  cases spec
  case integer => exact mul_le_mul_left h _
  all_goals exact le_refl _

theorem Written.mono {tracked : ℕ → Bool} {integer integer' : Language UInt8} {tool : ToolSpec}
    {args : List (ℕ × List UInt8)} (hw : Written tracked integer tool args)
    (h : ∀ spec ∈ tool.params, value integer spec.value ≤ value integer' spec.value) :
    Written tracked integer' tool args where
  offered p hp := by
    obtain ⟨spec, hspec, hmem⟩ := hw.offered p hp
    exact ⟨spec, hspec, mem_of_le (mul_le_mul_right (h spec (List.mem_of_getElem? hspec)) _) hmem⟩
  once := hw.once
  complete := hw.complete

theorem root_mono {tracked : ℕ → Bool} {integer integer' : Language UInt8}
    {tools : List ToolSpec} {parallel : Bool}
    (h : ∀ tool ∈ tools, ∀ spec ∈ tool.params,
      value integer spec.value ≤ value integer' spec.value) :
    root tracked integer tools parallel ≤ root tracked integer' tools parallel := by
  have hcall : anyCall tracked integer tools ≤ anyCall tracked integer' tools := by
    rintro w ⟨tool, htool, hw⟩
    refine ⟨tool, htool, mem_of_le (mul_le_mul_right (mul_le_mul_left ?_ _) _) hw⟩
    rintro v ⟨args, hargs, rfl⟩
    exact ⟨args, hargs.mono (h tool htool), rfl⟩
  have hbody := mul_le_mul_left hcall space
  refine mul_le_mul_right ?_ _
  split
  · exact mul_le_mul' hbody (kstar_mono (mul_le_mul_right hbody _))
  · exact hbody

end Reference

end Grammar
