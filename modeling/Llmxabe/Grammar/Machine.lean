/-
The tool-call grammar, compiled to a byte-level nondeterministic machine.

  root      := "<tool_call>\n"? body ( "<tool_call>\n" body )*
  body      := tool "</tool_call>" space
  tool      := "<function=" NAME ">\n" args "</function>\n"
  parameter := "<parameter=" PNAME ">\n" value

A cursor is a state, the tool it committed to and the parameters it has written.
Names are byte strings; the state vector of the builder is a list, and an index
out of it is an ℕ.  The builder's casts `index as u16` and `param as u8` are the
remainders they are.
-/
import Llmxabe.Lib.Arena
import Llmxabe.Lib.Scan
import Llmxabe.Lib.Worklist

namespace Grammar

/-- The UTF-8 of a string. -/
def bytes (s : String) : List UInt8 := s.toUTF8.data.toList

/-! ### The tools offered -/

/-- What a parameter may hold. -/
inductive ValueSpec where
  | text
  | literals (literals : List (List UInt8))
  | boolean
  | integer
  | number
  | null
  deriving DecidableEq

/-- A parameter that a tool declares. -/
structure ParamSpec where
  name : List UInt8
  required : Bool
  value : ValueSpec
  deriving DecidableEq

/-- A tool that was offered. -/
structure ToolSpec where
  name : List UInt8
  params : List ParamSpec
  deriving DecidableEq

/-! ### The machine -/

/-- The delimiter that closes every parameter value. -/
def CLOSE : List UInt8 := bytes "\n</parameter>\n"

/-- How many parameters of a tool have a bit. -/
def TRACKED_PARAMS : ℕ := 64

/-- The states: a byte to read, a choice, a step of the bookkeeping, a value's end to find. -/
inductive State where
  | byte (byte : UInt8) (next : ℕ)
  | split (alts : List ℕ)
  | enterTool (tool next : ℕ)
  | mark (param next : ℕ)
  | requireAll (next : ℕ)
  | untilClose (k next : ℕ)
  | accept
  deriving DecidableEq

/-- One run of the machine. -/
structure Cursor where
  state : ℕ
  tool : ℕ
  written : BitVec 64
  deriving DecidableEq

/-- A compiled grammar. -/
structure Machine where
  states : List State
  root : ℕ
  required : List (BitVec 64)
  fallback : List ℕ
  triggers : List (List UInt8)

/-- The bit a parameter index occupies, or none once past `TRACKED_PARAMS`. -/
def paramBit (param : ℕ) : BitVec 64 :=
  if param < TRACKED_PARAMS then 1#64 <<< param else 0

/-- The inner loop of `kmpFallback`. -/
def shrinkBorder (needle : List UInt8) (fallback : List ℕ) (byte : Option UInt8) : ℕ → ℕ → ℕ
  | 0, border => border
  | fuel + 1, border =>
    if 0 < border ∧ byte ≠ needle[border]? then
      shrinkBorder needle fallback byte fuel (fallback.getD border 0)
    else border

/-- For each prefix length, the longest proper border. -/
def kmpFallback (needle : List UInt8) : List ℕ :=
  ((List.range' 1 (needle.length - 1)).foldl
    (fun (fallback, border) at' =>
      let shrunk := shrinkBorder needle fallback needle[at']? border border
      let border := if needle[at']? = needle[shrunk]? then shrunk + 1 else shrunk
      (fallback.set (at' + 1) border, border))
    (List.replicate (needle.length + 1) 0, 0)).1

namespace Machine

variable (m : Machine)

/-- The state at an index; there is nowhere to go from one out of it. -/
def state (i : ℕ) : State := m.states.getD i (.split [])

/-- One byte of the scan for `CLOSE`. -/
def advanceClose (k : ℕ) (byte : UInt8) : ℕ := Scan.advance CLOSE m.fallback byte (k + 1) k

/-- Where a cursor goes without a byte; `none` where it waits for one. -/
def expand (cursor : Cursor) : Option (List Cursor) :=
  match m.state cursor.state with
  | .byte _ _ | .untilClose _ _ | .accept => none
  | .split alts => some (alts.map fun alt => { cursor with state := alt })
  | .enterTool tool next => some [{ state := next, tool, written := 0 }]
  | .mark param next =>
    -- a parameter that is written already leads nowhere
    if cursor.written &&& paramBit param = 0 then
      some [{ cursor with state := next, written := cursor.written ||| paramBit param }]
    else some []
  | .requireAll next =>
    -- a call cannot close while a required parameter is missing
    let required := m.required.getD cursor.tool 0
    if cursor.written &&& required = required then some [{ cursor with state := next }] else some []

/-- Where a cursor goes on one byte. -/
def advance (cursor : Cursor) (byte : UInt8) : Option Cursor :=
  match m.state cursor.state with
  | .byte want next => if want = byte then some { cursor with state := next } else none
  | .untilClose k next =>
    -- a mismatch falls back to a shorter border and never fails
    let matched := m.advanceClose k byte
    some { cursor with
      state := if matched = CLOSE.length then next else cursor.state - k + matched }
  -- `close` has left no other state
  | _ => none

/-- Expand epsilon states, leaving only byte-consuming ones. -/
def close (cursors : List Cursor) : List Cursor := Worklist.close m.expand m.states.length cursors

/-- The cursors before the first byte. -/
def start : List Cursor := m.close [{ state := m.root, tool := 65535, written := 0 }]

/-- The cursors that one byte leaves, none of them twice. -/
def advanceAll (cursors : List Cursor) (byte : UInt8) : List Cursor :=
  cursors.foldl (fun out cursor =>
    match m.advance cursor byte with
    | some next => Worklist.pushUnique out next
    | none => out) []

/-- Advance every cursor over one byte; the source also returns whether any is left. -/
def step (cursors : List Cursor) (byte : UInt8) : List Cursor := m.close (m.advanceAll cursors byte)

/-- A call is complete, and the turn may end. -/
def acceptsEnd (cursors : List Cursor) : Bool :=
  cursors.any fun cursor => m.state cursor.state = .accept

/-- Every cursor is inside of a free text, with no delimiter begun. -/
def isFreeText (cursors : List Cursor) : Bool :=
  cursors.all fun cursor =>
    match m.state cursor.state with
    | .untilClose 0 _ => true
    | _ => false

/-- A whole word, byte by byte. -/
def feed (cursors : List Cursor) (word : List UInt8) : List Cursor := word.foldl m.step cursors

/-- The machine reads the word and may end behind it. -/
def Accepts (word : List UInt8) : Prop := m.acceptsEnd (m.feed m.start word) = true

end Machine

/-! ### The builder -/

/-- Adds states, and returns the one to enter by. -/
abbrev Builder := StateM (List State)

open Arena (add patch size)

/-- A chain consuming `bytes`, ending at `next`, built back to front. -/
def literal (bytes : List UInt8) (next : ℕ) : Builder ℕ :=
  bytes.foldrM (fun byte next => add (.byte byte next)) next

/-- A choice between states. -/
def split (alts : List ℕ) : Builder ℕ := add (.split alts)

/-- One state per matched prefix of `CLOSE`, laid out from `k = 0`. -/
def untilChain (next : ℕ) : Builder ℕ := do
  let first ← size
  let _ ← (List.range CLOSE.length).mapM fun k => add (.untilClose k next)
  pure first

/-- One decimal digit. -/
def digit (next : ℕ) : Builder ℕ := do
  let alts ← (bytes "0123456789").mapM fun byte => add (.byte byte next)
  add (.split alts)

/-- One or more digits; `more` loops back through itself. -/
def digits (next : ℕ) : Builder ℕ := do
  -- patched below, once its digit exists
  let more ← add (.split [])
  let again ← digit more
  patch more (.split [again, next])
  digit more

/-- `tail` with a fraction in front of it, or not. -/
def fraction (fractional : Bool) (tail : ℕ) : Builder ℕ :=
  if fractional then do
    let afterPoint ← digits tail
    let point ← add (.byte 0x2e afterPoint)
    split [tail, point]
  else pure tail

/-- `e` or `E`, a sign or not, digits. -/
def exponent (next : ℕ) : Builder ℕ := do
  let exponentDigits ← digits next
  let plus ← add (.byte 0x2b exponentDigits)
  let minusExponent ← add (.byte 0x2d exponentDigits)
  let signed ← split [plus, minusExponent, exponentDigits]
  let lower ← add (.byte 0x65 signed)
  let upper ← add (.byte 0x45 signed)
  split [lower, upper]

/-- `0` | [1-9] digit* -/
def magnitude (tail : ℕ) : Builder ℕ := do
  let zeroByte ← add (.byte 0x30 tail)
  let more ← digits tail
  let rest ← split [tail, more]
  let leading ← (bytes "123456789").mapM fun byte => add (.byte byte rest)
  split (zeroByte :: leading)

/-- `-`? magnitude ( `.` digit+ )? exponent?, built back to front.  The source has
it all in one function. -/
def number (next : ℕ) (fractional : Bool) : Builder ℕ := do
  let exponent ← exponent next
  let tail ← split [next, exponent]
  let tail ← fraction fractional tail
  let magnitude ← magnitude tail
  let minus ← add (.byte 0x2d magnitude)
  split [magnitude, minus]

/-- The value of one parameter, ending back at its tool's argument loop. -/
def value (spec : ValueSpec) (args : ℕ) : Builder ℕ :=
  match spec with
  | .text => untilChain args
  | .literals literals => do
    let close ← literal CLOSE args
    let alts ← literals.mapM fun text => literal text close
    split alts
  | .boolean => do
    let close ← literal CLOSE args
    let yes ← literal (bytes "true") close
    let no ← literal (bytes "false") close
    split [yes, no]
  | .null => do
    let close ← literal CLOSE args
    literal (bytes "null") close
  | .integer => do
    let close ← literal CLOSE args
    number close false
  | .number => do
    let close ← literal CLOSE args
    number close true

/-- The opening tag of a function or a parameter. -/
def opening (kind : String) (name : List UInt8) : List UInt8 := bytes kind ++ name ++ bytes ">"

/-- The bits of the required parameters. -/
def requiredBits (tool : ToolSpec) : BitVec 64 :=
  tool.params.zipIdx.foldl (fun bits (spec, param) =>
    if spec.required then bits ||| paramBit (param % 256) else bits) 0

/-- One parameter: its mark, its opening tag and its value. -/
def parameter (args : ℕ) (spec : ParamSpec) (param : ℕ) : Builder ℕ := do
  let value ← value spec.value args
  let opened ← literal (opening "<parameter=" spec.name ++ bytes "\n") value
  add (.mark (param % 256) opened)

/-- The body of the builder's loop over the tools. -/
def toolCall (callClose : ℕ) (tool : ToolSpec) (index : ℕ) : Builder ℕ := do
  -- the loop's head, patched once its alternatives exist
  let args ← add (.split [])
  let alts ← tool.params.zipIdx.mapM fun (spec, param) => parameter args spec param
  let closing ← literal (bytes "</function>\n") callClose
  let finish ← add (.requireAll closing)
  patch args (.split (alts ++ [finish]))
  let named ← literal (opening "<function=" tool.name ++ bytes "\n") args
  add (.enterTool (index % 65536) named)

/-- Another call behind the first, in parallel mode. -/
def reopen (parallel : Bool) (entry : ℕ) : Builder (List ℕ) :=
  if parallel then do
    let again ← literal (bytes "<tool_call>\n") entry
    pure [again]
  else pure []

/-- The whole grammar, back to front; the root it is entered by. -/
def build (tools : List ToolSpec) (parallel : Bool) : Builder ℕ := do
  let accept ← add .accept
  let after ← add (.split [])
  -- the choice of a tool, patched once every tool exists
  let entry ← add (.split [])
  let callClose ← literal (bytes "</tool_call>") after
  let openers ← tools.zipIdx.mapM fun (tool, index) => toolCall callClose tool index
  patch entry (.split openers)
  let spaces ← (bytes " \t\n\r").mapM fun byte => add (.byte byte after)
  let again ← reopen parallel entry
  patch after (.split (accept :: spaces ++ again))
  -- the opening tag is optional
  let opened ← literal (bytes "<tool_call>\n") entry
  split [opened, entry]

/-- The required sets are pushed tool by tool while the states are built. -/
def Machine.compile (tools : List ToolSpec) (parallel : Bool) : Machine :=
  { states := (build tools parallel []).2
    root := (build tools parallel []).1
    required := tools.map requiredBits
    fallback := kmpFallback CLOSE
    triggers := bytes "<tool_call>" :: tools.map fun tool => opening "<function=" tool.name }

end Grammar
