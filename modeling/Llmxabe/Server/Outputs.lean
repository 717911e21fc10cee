/-
What a completed generation is served as (`xabe-server/src/http`).

A generation is a list of chunks; `collect` runs it to completion.  The three
dialects serve what was collected as a list of output items (`Envelope.output`),
as a list of content blocks (`contentBlocks`) and as one message (`chatMessage`).

How a JSON value is spelled is a parameter.  Constant fields, token counts and
time stamps are left out.
-/
import Mathlib.Data.String.Basic
import Mathlib.Tactic

/-- A JSON value; a number is known by its spelling. -/
inductive Json where
  | null
  | bool (b : Bool)
  | number (spelling : String)
  | string (s : String)
  | array (values : List Json)
  | object (members : List (String × Json))

/-- The members of an object, in order. -/
abbrev JsonMap := List (String × Json)

/-- One call parsed out of the model's output. -/
structure ParsedToolCall where
  name : String
  arguments : JsonMap

/-- A piece of a response. -/
inductive Chunk where
  | reasoning (text : String)
  | text (text : String)
  | toolCall (call : ParsedToolCall)

/-- Why a generation ended. -/
inductive Finish where
  | endOfTurn
  | length
  | stopSequence (sequence : String)
  deriving DecidableEq, Repr

/-- Everything a completed, non-streaming response carries. -/
structure Collected where
  reasoning : String
  text : String
  toolCalls : List ParsedToolCall

/-- One chunk more. -/
def Collected.push (c : Collected) : Chunk → Collected
  | .reasoning part => { c with reasoning := c.reasoning ++ part }
  | .text part => { c with text := c.text ++ part }
  | .toolCall call => { c with toolCalls := c.toolCalls ++ [call] }

/-- Everything a generation handed on. -/
def collect (chunks : List Chunk) : Collected := chunks.foldl Collected.push ⟨"", "", []⟩

/-- Split at the first separator. -/
def splitOnce (separator : Char) (s : String) : Option (String × String) :=
  match s.toList.dropWhile (· ≠ separator) with
  | [] => none
  | _ :: rest => some (String.ofList (s.toList.takeWhile (· ≠ separator)), String.ofList rest)

section Spelling

variable (spell : JsonMap → String)

/-- The arguments as a JSON string. -/
def ParsedToolCall.argumentsJson (call : ParsedToolCall) : String := spell call.arguments

/-! ### Responses -/

/-- One item of a response's output. -/
inductive OutputItem where
  | reasoning (id text : String)
  | message (id status text : String)
  | functionCall (id status callId name : String) (group : Option String) (arguments : String)
  deriving DecidableEq, Repr

namespace OutputItem

/-- The id of an item. -/
def id : OutputItem → String
  | reasoning id _ => id
  | message id _ _ => id
  | functionCall id _ _ _ _ _ => id

/-- What the item's deltas add up to. -/
def content : OutputItem → String
  | reasoning _ text => text
  | message _ _ text => text
  | functionCall _ _ _ _ _ arguments => arguments

end OutputItem

/-- What a response says about itself beside its output. -/
structure Envelope where
  requestId : ℕ
  namespaces : List String

/-- A response cut short is incomplete. -/
def statusOf : Finish → String
  | .length => "incomplete"
  | _ => "completed"

namespace Envelope

/-- The response's id without its `resp_`. -/
def stem (e : Envelope) : String := toString e.requestId

/-- The id of the reasoning item. -/
def reasoningItemId (e : Envelope) : String := "rs_" ++ e.stem

/-- The id of the message item. -/
def messageItemId (e : Envelope) : String := "msg_" ++ e.stem

/-- The id of the item of a call. -/
def functionCallItemId (e : Envelope) (index : ℕ) : String :=
  "fc_" ++ e.stem ++ "_" ++ toString index

/-- The id a result names its call by. -/
def functionCallId (e : Envelope) (index : ℕ) : String :=
  "call_" ++ e.stem ++ "_" ++ toString index

/-- The reasoning of a response. -/
def reasoningItem (e : Envelope) (text : String) : OutputItem := .reasoning e.reasoningItemId text

/-- The text of a response. -/
def messageItem (e : Envelope) (text : String) : OutputItem :=
  .message e.messageItemId "completed" text

/-- Split a served call name into its tool name and namespace. -/
def splitNamespace (e : Envelope) (name : String) : String × Option String :=
  match splitOnce '.' name with
  | some (group, member) => if group ∈ e.namespaces then (member, some group) else (name, none)
  | none => (name, none)

/-- A call of a response; one that has just begun has no arguments yet. -/
def functionCallItem (e : Envelope) (index : ℕ) (call : ParsedToolCall) (status : String) :
    OutputItem :=
  let split := e.splitNamespace call.name
  .functionCall (e.functionCallItemId index) status (e.functionCallId index) split.1 split.2
    (if status = "in_progress" then "" else call.argumentsJson spell)

/-- The output items of a completed response. -/
def output (e : Envelope) (c : Collected) : List OutputItem :=
  (if c.reasoning = "" then [] else [e.reasoningItem c.reasoning]) ++
    (if c.text ≠ "" ∨ c.toolCalls = [] then [e.messageItem c.text] else []) ++
    c.toolCalls.mapIdx fun index call => e.functionCallItem spell index call "completed"

end Envelope

/-! ### Messages -/

/-- A content block; a tool's input is whatever stands for its JSON. -/
inductive ContentBlock (ι : Type) where
  | thinking (words signature : String)
  | text (words : String)
  | toolUse (id name : String) (input : ι)
  deriving DecidableEq, Repr

/-- The block with its input as it is spelled. -/
def ContentBlock.spelled : ContentBlock JsonMap → ContentBlock String
  | .thinking words signature => .thinking words signature
  | .text words => .text words
  | .toolUse id name input => .toolUse id name (spell input)

/-- Why a message ended, in the words of Messages. -/
def stopReason (finish : Finish) (toolCalls : ℕ) : String :=
  match finish with
  | .endOfTurn => if 0 < toolCalls then "tool_use" else "end_turn"
  | .length => "max_tokens"
  | .stopSequence _ => "stop_sequence"

/-- The signature a served thinking block carries. -/
def thinkingSignature (requestId : ℕ) : String := "xabe-unverified-" ++ toString requestId

/-- The id a served `tool_use` block carries. -/
def toolUseId (requestId index : ℕ) : String :=
  "toolu_" ++ toString requestId ++ "_" ++ toString index

/-- The content of a non-streaming message: never an empty text block, unless
there is nothing else. -/
def contentBlocks (c : Collected) (requestId : ℕ) : List (ContentBlock JsonMap) :=
  let content : List (ContentBlock JsonMap) :=
    (if c.reasoning = "" then [] else [.thinking c.reasoning (thinkingSignature requestId)]) ++
      (if c.text = "" then [] else [.text c.text]) ++
      c.toolCalls.mapIdx fun index call =>
        .toolUse (toolUseId requestId index) call.name call.arguments
  if content = [] then [.text ""] else content

/-! ### Chat completions -/

/-- The wire shape of one emitted call; a delta says at which index. -/
structure ToolCallValue where
  id : String
  name : String
  arguments : String
  index : Option ℕ
  deriving DecidableEq, Repr

/-- A call in the words of chat completions. -/
def toolCallValue (requestId index : ℕ) (call : ParsedToolCall) : ToolCallValue where
  id := "call_" ++ toString requestId ++ "_" ++ toString index
  name := call.name
  arguments := call.argumentsJson spell
  index := none

/-- A message or a delta of one.  The content is absent, null or a string. -/
structure ChatDelta where
  role : Option String
  content : Option (Option String)
  reasoningContent : Option String
  toolCalls : Option (List ToolCallValue)
  deriving DecidableEq, Repr

/-- A delta that carries nothing. -/
def ChatDelta.default : ChatDelta := ⟨none, none, none, none⟩

/-- Why a message ended, in the words of chat completions. -/
def finishReason : Finish → String
  | .endOfTurn => "stop"
  | .length => "length"
  | .stopSequence _ => "stop"

/-- A turn the model ended after calling tools says so. -/
def chatFinishReason (finish : Finish) (toolCalls : ℕ) : String :=
  match finish with
  | .endOfTurn => if 0 < toolCalls then "tool_calls" else finishReason finish
  | finish => finishReason finish

/-- The message of a non-streaming chat completion. -/
def chatMessage (c : Collected) (requestId : ℕ) : ChatDelta where
  role := some "assistant"
  content := some (if c.toolCalls = [] ∨ c.text ≠ "" then some c.text else none)
  reasoningContent := if c.reasoning = "" then none else some c.reasoning
  toolCalls := if c.toolCalls = [] then none
    else some (c.toolCalls.mapIdx (toolCallValue spell requestId))

end Spelling
