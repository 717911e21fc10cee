/-
The conversation a request holds, in the three dialects
(`xabe-server/src/http/{anthropic,openai,responses}.rs`).

Each dialect folds its messages, or items, into the turns of a conversation one
after the other: `Message.append`, `ChatMessage.append` and `InputItem.append`.
-/
import Llmxabe.Server.Chat

/-- A text without a character that is not white space. -/
def blank (s : String) : Bool := s.toList.all isWhite

namespace Conversation

/-- Results, one after another. -/
def pushToolResults (conversation : Conversation) (results : List ToolResult) : Conversation :=
  results.foldl pushToolResult conversation

/-- Images that travel beside the conversation. -/
def pushImages (conversation : Conversation) (images : List DecodedImage) : Conversation :=
  { conversation with images := conversation.images ++ images }

/-- System text joins the leading system text as long as there is no turn. -/
def pushSystem (conversation : Conversation) (text : Text) : Conversation :=
  if conversation.turns.isEmpty then
    { conversation with system := some ((conversation.system.getD []).join text) }
  else conversation.pushTurn (.system text)

end Conversation

variable (codec : Codec)

/-! ### Messages -/

/-- One message of a Messages request. -/
structure Message where
  role : String
  content : Content

/-- What a Messages request says. -/
structure MessagesRequest where
  messages : List Message
  system : Option Content

/-- A message with its content folded. -/
def Message.appendFolded (conversation : Conversation) (role : String) (folded : FoldedContent) :
    Except String Conversation :=
  match role with
  | "user" =>
    let onlyResults := ¬folded.toolResults.isEmpty ∧ folded.text.isEmpty
    let conversation := conversation.pushToolResults folded.toolResults
    if onlyResults then .ok conversation
    else .ok ((conversation.pushImages folded.images).pushTurn (.user folded.text))
  | "assistant" =>
    if ¬folded.toolResults.isEmpty then .error "`tool_result` blocks belong in user messages"
    else if folded.images ≠ [] then .error imageMisplaced
    else .ok (conversation.pushTurn (.assistant folded.thinking folded.text folded.toolCalls))
  | "tool" =>
    let conversation := conversation.pushToolResults folded.toolResults
    if folded.text.isEmpty then .ok conversation
    else .ok (conversation.pushToolResult ⟨folded.text, folded.images⟩)
  | "system" | "developer" => .ok (conversation.pushSystem folded.text)
  | role => .error (unsupportedRole role)

/-- A message more. -/
def Message.append (conversation : Conversation) (message : Message) :
    Except String Conversation :=
  match message.content.fold codec with
  | .error failure => .error failure
  | .ok folded => appendFolded conversation message.role folded

/-- A conversation with a turn in it, or the failure that there is none. -/
def Conversation.nonempty (failure : String) (conversation : Conversation) :
    Except String Conversation :=
  if conversation.turns.isEmpty then .error failure else .ok conversation

/-- The error for a request without a turn. -/
def MessagesRequest.empty : String := "`messages` must contain at least one message"

/-- The conversation of a Messages request. -/
def MessagesRequest.conversation (request : MessagesRequest) : Except String Conversation := do
  let system ← request.system.mapM (Content.plainText codec)
  let conversation ← request.messages.foldlM (Message.append codec) ⟨system, [], [], []⟩
  conversation.nonempty MessagesRequest.empty

/-! ### Chat completions -/

/-- One message of a chat request. -/
structure ChatMessage where
  role : String
  content : Option Content
  reasoningContent : Option String
  toolCalls : Option (List Json)

/-- The arguments of a replayed call, which are a JSON string. -/
def replayedArguments (name : String) (arguments : Option Json) : Except String JsonMap :=
  let failure := "tool call `" ++ name ++ "` has `arguments` that are not a JSON object"
  match arguments with
  | none | some .null => .ok []
  | some (.string text) =>
    if blank text then .ok []
    else
      match (codec.parse text).bind Json.asObject with
      | none => .error failure
      | some members => .ok members
  | some (.object members) => .ok members
  | some _ => .error failure

/-- A call that a client sends back; the function may stand by itself. -/
def replayedToolCall (value : Json) : Except String ParsedToolCall :=
  let function := (value.get "function").getD value
  match (function.str "name").filter (· ≠ "") with
  | none => .error "every replayed tool call needs a function `name`"
  | some name => (replayedArguments codec name (function.get "arguments")).map (⟨name, ·⟩)

/-- The calls of a message, in order. -/
def replayedToolCalls (raw : Option (List Json)) : Except String (List ParsedToolCall) :=
  (raw.getD []).mapM (replayedToolCall codec)

/-- What the loop over chat messages keeps: the leading system texts are joined
at its end. -/
structure ChatLoop where
  conversation : Conversation
  system : List Text

namespace ChatLoop

/-- Nothing read yet. -/
def start : ChatLoop := ⟨.default, []⟩

/-- A turn more. -/
def pushTurn (loop : ChatLoop) (turn : Turn) : ChatLoop :=
  { loop with conversation := loop.conversation.pushTurn turn }

/-- The system messages, one line each, in front of the turns. -/
def finish (loop : ChatLoop) : Conversation :=
  if loop.system.isEmpty then loop.conversation
  else { loop.conversation with
    system := some (List.intercalate (Text.of "\n") loop.system) }

end ChatLoop

/-- A message more, by its role. -/
def ChatMessage.appendFolded (loop : ChatLoop) (message : ChatMessage) (folded : FoldedContent) :
    Except String ChatLoop :=
  let conversation := loop.conversation.pushToolResults folded.toolResults
  let loop := { loop with conversation := conversation }
  if folded.images ≠ [] ∧ ¬(message.role = "user" ∨ message.role = "tool") then
    .error imageMisplaced
  else
    match message.role with
    | "system" | "developer" =>
      if conversation.turns.isEmpty then .ok { loop with system := loop.system ++ [folded.text] }
      else .ok (loop.pushTurn (.system folded.text))
    | "user" =>
      let conversation := conversation.pushImages folded.images
      if folded.text.isEmpty then .ok { loop with conversation := conversation }
      else .ok { loop with conversation := conversation.pushTurn (.user folded.text) }
    | "assistant" =>
      (replayedToolCalls codec message.toolCalls).map fun calls =>
        loop.pushTurn (.assistant ((message.reasoningContent.map Text.of).getD folded.thinking)
          folded.text (calls ++ folded.toolCalls))
    | "tool" =>
      .ok { loop with conversation := conversation.pushToolResult ⟨folded.text, folded.images⟩ }
    | role => .error (unsupportedRole role)

/-- A message more. -/
def ChatMessage.append (loop : ChatLoop) (message : ChatMessage) : Except String ChatLoop :=
  match foldOption codec message.content with
  | .error failure => .error failure
  | .ok folded => appendFolded codec loop message folded

/-- The error for a request without a turn. -/
def ChatLoop.empty : String := "`messages` must contain at least one user or assistant message"

/-- Fold chat messages into a conversation. -/
def chatConversation (messages : List ChatMessage) : Except String Conversation := do
  let loop ← messages.foldlM (ChatMessage.append codec) .start
  loop.finish.nonempty ChatLoop.empty

/-! ### Responses -/

/-- A `function_call_output`'s output.  A value of an array is known by what it
parses as, too. -/
inductive CallOutput where
  | text (text : String)
  | array (values : List (Json × ContentPart))
  | other (value : Json)

/-- One item of a Responses request. -/
structure InputItem where
  kind : Option String
  role : Option String
  content : Option Content
  name : Option String
  arguments : Option String
  output : Option CallOutput
  summary : Option Content

/-- What a Responses request asks. -/
inductive ResponsesInput where
  | text (text : String)
  | items (items : List InputItem)

/-- What a Responses request says. -/
structure ResponsesRequest where
  input : ResponsesInput
  instructions : Option String
  system : Option String
  tools : List Json

/-- A list of typed content blocks, rather than data a tool returned. -/
def isContentBlocks (values : List Json) : Bool :=
  !values.isEmpty && values.all fun value => (value.str "type").isSome

/-- Anything that is not content reaches the model as its JSON spelling. -/
def CallOutput.fold : Option CallOutput → Except String ToolResult
  | none => .ok .default
  | some (.text words) => .ok (.ofText words)
  | some (.array values) =>
    if isContentBlocks (values.map Prod.fst) then foldBlocks codec (values.map Prod.snd)
    else .ok (.ofText (codec.spell (.array (values.map Prod.fst))))
  | some (.other value) => .ok (.ofText (codec.spell value))

namespace InputItem

/-- A call that a client sends back. -/
def functionCall (item : InputItem) : Except String ParsedToolCall :=
  match item.name.filter (· ≠ "") with
  | none => .error "a `function_call` item needs a `name`"
  | some name =>
    match item.arguments with
    | none | some "" => .ok ⟨name, []⟩
    | some text =>
      match (codec.parse text).bind Json.asObject with
      | none =>
        .error ("function_call `" ++ name ++ "` has `arguments` that are not a JSON object")
      | some members => .ok ⟨name, members⟩

/-- A piece of reasoning joins what is there unless it is empty. -/
def joinPiece (thinking piece : Text) : Text := if piece = [] then thinking else thinking.join piece

/-- The reasoning of a `reasoning` item: its content, then its summary. -/
def thinking (item : InputItem) : Except String Text := do
  let content ← foldOption codec item.content
  let summary ← foldOption codec item.summary
  return [content.thinking, content.text, summary.thinking, summary.text].foldl joinPiece []

/-- The call belongs to the assistant turn before it. -/
def appendCall (conversation : Conversation) (call : ParsedToolCall) : Conversation :=
  match conversation.turns.getLast? with
  | some (.assistant reasoning content calls) =>
    { conversation with
      turns := conversation.turns.dropLast ++ [.assistant reasoning content (calls ++ [call])] }
  | _ => conversation.pushTurn (.assistant [] [] [call])

/-- Reasoning, for the last turn if that has none, or for a new one. -/
def appendReasoning (conversation : Conversation) (thinking : Text) : Conversation :=
  if thinking = [] then conversation
  else
    match conversation.turns.getLast? with
    | some (.assistant [] content calls) =>
      { conversation with
        turns := conversation.turns.dropLast ++ [.assistant thinking content calls] }
    | _ => conversation.pushTurn (.assistant thinking [] [])

/-- A message of the assistant, which joins the turn right before it. -/
def appendAssistant (conversation : Conversation) (folded : FoldedContent) : Conversation :=
  match conversation.turns.getLast? with
  | some (.assistant reasoning content calls) =>
    { conversation with
      turns := conversation.turns.dropLast ++
        [.assistant (if reasoning = [] then folded.thinking else reasoning)
          (joinPiece content folded.text) (calls ++ folded.toolCalls)] }
  | _ => conversation.pushTurn (.assistant folded.thinking folded.text folded.toolCalls)

/-- A `message` item with its content folded. -/
def appendFolded (conversation : Conversation) (role : Option String) (folded : FoldedContent) :
    Except String Conversation :=
  let conversation := conversation.pushToolResults folded.toolResults
  if folded.images ≠ [] ∧ role ≠ some "user" then .error imageMisplaced
  else
    match role with
    | some "system" | some "developer" => .ok (conversation.pushSystem folded.text)
    | some "user" =>
      let conversation := conversation.pushImages folded.images
      if folded.text.isEmpty then .ok conversation
      else .ok (conversation.pushTurn (.user folded.text))
    | some "assistant" => .ok (appendAssistant conversation folded)
    | some role => .error (unsupportedRole role)
    | none => .error "every input item needs a `role`"

/-- An item more. -/
def append (conversation : Conversation) (item : InputItem) : Except String Conversation :=
  match item.kind with
  | none | some "message" =>
    match foldOption codec item.content with
    | .error failure => .error failure
    | .ok folded => appendFolded conversation item.role folded
  | some "function_call" => (item.functionCall codec).map (appendCall conversation)
  | some "function_call_output" =>
    (CallOutput.fold codec item.output).map conversation.pushToolResult
  | some "reasoning" => (item.thinking codec).map (appendReasoning conversation)
  | some kind =>
    -- traces of work a provider did are skipped
    if "_call".toList <:+ kind.toList ∨ "_call_output".toList <:+ kind.toList ∨
        "mcp_".toList <+: kind.toList then .ok conversation
    else
      .error ("input items of type `" ++ kind ++ "` are not supported; send `message`, " ++
        "`reasoning`, `function_call`, or `function_call_output` items")

end InputItem

namespace ResponsesRequest

/-- The system text a request starts from. -/
def leading (request : ResponsesRequest) : Option Text :=
  (request.instructions.or request.system).map Text.of

/-- What the loop over items starts from. -/
def start (request : ResponsesRequest) : Conversation := ⟨request.leading, [], [], []⟩

/-- The error for a request without a turn. -/
def empty : String := "`input` must contain at least one user or assistant item"

/-- The items, one after another. -/
def loop (request : ResponsesRequest) : Except String Conversation :=
  match request.input with
  | .text text => .ok (request.start.pushTurn (.user (Text.of text)))
  | .items items => items.foldlM (InputItem.append codec) request.start

/-- The conversation of a Responses request. -/
def conversation (request : ResponsesRequest) : Except String Conversation := do
  let conversation ← request.loop codec
  conversation.nonempty empty

/-- The names of the `namespace` groups the caller offered. -/
def namespaces (request : ResponsesRequest) : List String := namespacesOf request.tools

end ResponsesRequest
