/-
Reading tool calls out of the model's answer (`xabe-server/src/http/tools.rs`).

`push` scans the decoded text for call blocks while it arrives.  Text that may still
begin an opener or the closer is held back.

A text is a list of characters, so a position counts characters where the source's
counts bytes; only the limit on a block is in bytes.  An event remembers the text it was
read from (`source`), and a block its opener; the source of the parser has neither.
-/
import Llmxabe.Lib.Holding
import Llmxabe.Server.Chat
import Llmxabe.Server.Detokenizer

/-! ### One block -/

namespace CallBlock

/-- `str::trim_start` -/
def trimStart (text : List Char) : List Char := text.dropWhile isWhite

/-- `str::trim` -/
def trim (text : List Char) : List Char := (trimStart (trimStart text).reverse).reverse

/-- `str::strip_prefix` -/
def strip (word text : List Char) : Option (List Char) :=
  if word <+: text then some (text.drop word.length) else none

/-- `str::strip_suffix` -/
def stripEnd (word text : List Char) : Option (List Char) :=
  if word <:+ text then some (text.take (text.length - word.length)) else none

/-- What stands before the first occurrence of a word, and behind it. -/
def cut (word text : List Char) : Option (List Char × List Char) :=
  (Markers.find text word).map fun i => (text.take i, text.drop (i + word.length))

/-- A name that the markup can hold. -/
def named (name : List Char) : Bool := name ≠ [] ∧ '<' ∉ name ∧ '\n' ∉ name

/-- `Map::insert`: a key keeps its place. -/
def insert (members : JsonMap) (key : String) (value : Json) : JsonMap :=
  if key ∈ members.map Prod.fst then
    members.map fun member => if member.1 = key then (key, value) else member
  else members ++ [(key, value)]

section

variable (codec : Codec) (params : Option (List (String × Bool)))

/-- A parameter that is declared a string takes its text; any other is JSON if it parses. -/
def typed (key value : List Char) : Json :=
  let isString := (params.bind (·.lookup (String.ofList key))).getD false
  if isString then .string (String.ofList value)
  else (codec.parse (String.ofList (trim value))).getD (.string (String.ofList value))

/-- One parameter, and what stands behind it. -/
def parseParameter (rest : List Char) : Option ((String × Json) × List Char) := do
  let rest ← strip "<parameter=".toList rest
  let (key, rest) ← cut ['>'] rest
  if ¬ named key then none
  else
    let rest := (strip ['\n'] rest).getD rest
    let (value, rest) ← cut "</parameter>".toList rest
    let value := (stripEnd ['\n'] value).getD value
    some ((String.ofList key, typed codec params key value), rest)

/-- The parameters up to the end of the function; every turn takes some of the text. -/
def parseParameters : ℕ → List Char → JsonMap → Option JsonMap
  | 0, _, _ => none
  | fuel + 1, rest, arguments =>
    let rest := trimStart rest
    match strip "</function>".toList rest with
    | some after => if trim after = [] then some arguments else none
    | none =>
      match parseParameter codec params rest with
      | none => none
      | some ((key, value), rest) => parseParameters fuel rest (insert arguments key value)

end

/-- The call of a block; the schemas are those of the tools, of which the last of a name
counts. -/
def parseCall (codec : Codec) (schemas : List (String × List (String × Bool)))
    (raw : List Char) : Option ParsedToolCall := do
  let rest ← strip "<function=".toList (trim raw)
  let (name, rest) ← cut ['>'] rest
  if ¬ named name then none
  else
    let params := schemas.reverse.lookup (String.ofList name)
    let arguments ← parseParameters codec params (rest.length + 1) rest []
    some ⟨String.ofList name, arguments⟩

end CallBlock

/-! ### The parser -/

/-- What the parser hands back for a piece of decoded output. -/
inductive ToolEvent where
  | text (text source : List Char)
  | call (call : ParsedToolCall) (source : List Char)

/-- A block that grows longer is given back as text. -/
def maxCallBytes : ℕ := 256 * 1024

/-- The tag in front of a block. -/
def callOpen : List Char := "<tool_call>".toList

/-- The tag behind a block. -/
def callClose : List Char := "</tool_call>".toList

/-- Outside of a block, or inside of one. -/
inductive ParserState where
  | text
  /-- `raw` is what a failing block is given back from. -/
  | inCall (opener raw : List Char)
  deriving DecidableEq

/-- The parser: what it looks for, what it holds back, and where it stands. -/
structure ToolCallParser where
  openers : List (List Char)
  schemas : List (String × List (String × Bool))
  pending : List Char
  state : ParserState
  swallowWhitespace : Bool

namespace ToolCallParser

/-- The parser of a request's tools. -/
def new (tools : List ToolDefinition) : ToolCallParser where
  openers := callOpen :: tools.map fun tool => "<function=".toList ++ tool.name.toList ++ ['>']
  schemas := tools.map fun tool => (tool.name, tool.stringParams)
  pending := []
  state := .text
  swallowWhitespace := false

/-- A text event, unless there is nothing to it; whitespace behind a call is dropped. -/
def emitText (p : ToolCallParser) (text source : List Char) : ToolCallParser × List ToolEvent :=
  if p.swallowWhitespace then
    if CallBlock.trimStart text = [] then (p, [])
    else ({ p with swallowWhitespace := false },
      [.text (CallBlock.trimStart text) (CallBlock.trimStart source)])
  else if text = [] then (p, [])
  else (p, [.text text source])

/-- A bare `<function=...>` opener is part of the block's body. -/
def bodyStart (opener : List Char) : List Char := if opener = callOpen then [] else opener

/-- The text that a block was read from, but for its closer. -/
def blockText (opener raw : List Char) : List Char :=
  if opener = callOpen then callOpen ++ raw else raw

variable (codec : Codec)

/-- One turn of the loop in `push`; the flag says that it returns. -/
def turn (p : ToolCallParser) : (ToolCallParser × List ToolEvent) × Bool :=
  match p.state with
  | .text =>
    match Markers.firstOf p.openers p.pending with
    | some (i, opener) =>
      let out := p.emitText (p.pending.take i) (p.pending.take i)
      (({ out.1 with
          pending := p.pending.drop (i + opener.length)
          state := .inCall opener (bodyStart opener) }, out.2), false)
    | none =>
      let text := Markers.released p.openers p.pending
      let out := p.emitText text text
      (({ out.1 with pending := Markers.held p.openers p.pending }, out.2), true)
  | .inCall opener raw =>
    match Markers.find p.pending callClose with
    | some i =>
      let raw := raw ++ p.pending.take i
      let p := { p with pending := p.pending.drop (i + callClose.length), state := .text }
      match CallBlock.parseCall codec p.schemas raw with
      | some call =>
        (({ p with swallowWhitespace := true }, [.call call (blockText opener raw ++ callClose)]),
          false)
      | none =>
        (p.emitText (callOpen ++ raw ++ callClose) (blockText opener raw ++ callClose), false)
    | none =>
      let raw := raw ++ Markers.released [callClose] p.pending
      let p := { p with pending := Markers.held [callClose] p.pending }
      if Detokenizer.byteLen raw > maxCallBytes then
        ({ p with state := .text }.emitText (callOpen ++ raw) (blockText opener raw), true)
      else (({ p with state := .inCall opener raw }, []), true)

/-- The loop in `push`; a turn that does not return takes some of the pending text. -/
def loop : ℕ → ToolCallParser → ToolCallParser × List ToolEvent
  | 0, p => (p, [])
  | fuel + 1, p =>
    let out := p.turn codec
    if out.2 then out.1
    else
      let rest := loop fuel out.1.1
      (rest.1, out.1.2 ++ rest.2)

/-- Feed decoded text. -/
def push (p : ToolCallParser) (text : List Char) : ToolCallParser × List ToolEvent :=
  let p := { p with pending := p.pending ++ text }
  loop codec (p.pending.length + 1) p

/-- Pieces one after another. -/
def pushAll (p : ToolCallParser) : List (List Char) → ToolCallParser × List ToolEvent
  | [] => (p, [])
  | text :: texts =>
    let first := p.push codec text
    let rest := pushAll first.1 texts
    (rest.1, first.2 ++ rest.2)

/-- End of output: whatever is held back was never going to become a call. -/
def finish (p : ToolCallParser) : List ToolEvent :=
  match p.state with
  | .text => (p.emitText p.pending p.pending).2
  | .inCall opener raw =>
    (p.emitText (callOpen ++ raw ++ p.pending) (blockText opener raw ++ p.pending)).2

/-- The events of an answer that arrives in pieces. -/
def parse (tools : List ToolDefinition) (pieces : List (List Char)) : List ToolEvent :=
  let out := (new tools).pushAll codec pieces
  out.2 ++ out.1.finish

end ToolCallParser
