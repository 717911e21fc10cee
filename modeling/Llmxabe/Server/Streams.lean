/-
The streams of the three dialects (`xabe-server/src/http`).

Each dialect has a loop over the chunks of a generation that says what is open,
and a strict client that reads the events back: it refuses an item that opens
before the last one is closed, an index other than the number of items closed,
and a done event other than the concatenation of the item's deltas.  A stream
agrees with the body of the non-streaming response if the client reads that
body from it.

An error ends a stream, and is left out; the sequence number of an event is its
position.
-/
import Llmxabe.Server.Outputs

/-! ### Responses -/

/-- The kind of item that is open between two chunks. -/
inductive OpenItem where
  | reasoning
  | message
  deriving DecidableEq, Repr

/-- The events of a Responses stream. -/
inductive ResponsesEvent where
  | created
  | inProgress
  | outputItemAdded (index : ℕ) (item : OutputItem)
  | contentPartAdded (itemId : String) (index : ℕ)
  | reasoningTextDelta (itemId : String) (index : ℕ) (delta : String)
  | outputTextDelta (itemId : String) (index : ℕ) (delta : String)
  | argumentsDelta (itemId : String) (index : ℕ) (delta : String)
  | reasoningTextDone (itemId : String) (index : ℕ) (text : String)
  | outputTextDone (itemId : String) (index : ℕ) (text : String)
  | contentPartDone (itemId : String) (index : ℕ) (text : String)
  | argumentsDone (itemId : String) (index : ℕ) (arguments : String)
  | outputItemDone (index : ℕ) (item : OutputItem)
  | completed (status : String) (output : List OutputItem)
  deriving DecidableEq, Repr

/-- What the loop of a Responses stream keeps. -/
structure ResponsesLoop where
  reasoning : String
  text : String
  calls : List ParsedToolCall
  outputIndex : ℕ
  opened : Option OpenItem

/-- A tool call is an item of its own, and leaves nothing open. -/
def Chunk.openItem : Chunk → Option OpenItem
  | reasoning _ => some .reasoning
  | text _ => some .message
  | toolCall _ => none

namespace ResponsesLoop

variable (spell : JsonMap → String) (e : Envelope)

/-- No item yet. -/
def start : ResponsesLoop := ⟨"", "", [], 0, none⟩

/-- Close whatever is open. -/
def closeItem (s : ResponsesLoop) : List ResponsesEvent × ResponsesLoop :=
  match s.opened with
  | some .reasoning =>
    ([.reasoningTextDone e.reasoningItemId s.outputIndex s.reasoning,
      .outputItemDone s.outputIndex (e.reasoningItem s.reasoning)],
      { s with outputIndex := s.outputIndex + 1 })
  | some .message =>
    ([.outputTextDone e.messageItemId s.outputIndex s.text,
      .contentPartDone e.messageItemId s.outputIndex s.text,
      .outputItemDone s.outputIndex (e.messageItem s.text)],
      { s with outputIndex := s.outputIndex + 1 })
  | none => ([], s)

/-- The events that open an item. -/
def openEvents (kind : Option OpenItem) (s : ResponsesLoop) : List ResponsesEvent :=
  match kind with
  | some .reasoning => [.outputItemAdded s.outputIndex (.reasoning e.reasoningItemId "")]
  | some .message =>
    [.outputItemAdded s.outputIndex (.message e.messageItemId "in_progress" ""),
      .contentPartAdded e.messageItemId s.outputIndex]
  | none => []

/-- Close what is open before opening the next item. -/
def turnTo (kind : Option OpenItem) (s : ResponsesLoop) : List ResponsesEvent × ResponsesLoop :=
  if s.opened = kind then ([], s)
  else
    let closed := s.closeItem e
    (closed.1 ++ openEvents e kind closed.2, { closed.2 with opened := kind })

/-- The events of a chunk whose item is open. -/
def emit (s : ResponsesLoop) : Chunk → List ResponsesEvent × ResponsesLoop
  | .reasoning delta =>
    ([.reasoningTextDelta e.reasoningItemId s.outputIndex delta],
      { s with reasoning := s.reasoning ++ delta })
  | .text delta =>
    ([.outputTextDelta e.messageItemId s.outputIndex delta], { s with text := s.text ++ delta })
  | .toolCall call =>
    let index := s.calls.length
    let itemId := e.functionCallItemId index
    ([.outputItemAdded s.outputIndex (e.functionCallItem spell index call "in_progress"),
      .argumentsDelta itemId s.outputIndex (call.argumentsJson spell),
      .argumentsDone itemId s.outputIndex (call.argumentsJson spell),
      .outputItemDone s.outputIndex (e.functionCallItem spell index call "completed")],
      { s with outputIndex := s.outputIndex + 1, calls := s.calls ++ [call] })

/-- The chunks, one after another, and the end of the last item. -/
def loop : ResponsesLoop → List Chunk → List ResponsesEvent × ResponsesLoop
  | s, [] => s.turnTo e none
  | s, chunk :: chunks =>
    let turned := s.turnTo e chunk.openItem
    let emitted := turned.2.emit spell e chunk
    let rest := loop emitted.2 chunks
    (turned.1 ++ emitted.1 ++ rest.1, rest.2)

/-- The items of the closing event. -/
def output (s : ResponsesLoop) : List OutputItem := e.output spell ⟨s.reasoning, s.text, s.calls⟩

end ResponsesLoop

/-- The events of a Responses stream. -/
def responsesStream (spell : JsonMap → String) (e : Envelope) (finish : Finish)
    (chunks : List Chunk) : List ResponsesEvent :=
  let run := ResponsesLoop.start.loop spell e chunks
  [.created, .inProgress] ++ run.1 ++ [.completed (statusOf finish) (run.2.output spell e)]

/-- A client that puts a response together from its events: the items closed,
the open one with what its deltas add up to, and the response it was told. -/
structure ResponsesClient where
  closed : List OutputItem
  opened : Option (String × String)
  response : Option (List OutputItem)
  deriving DecidableEq, Repr

namespace ResponsesClient

/-- Nothing read yet. -/
def start : ResponsesClient := ⟨[], none, none⟩

/-- The text of the open item, if it is the one an event names. -/
def holding (c : ResponsesClient) (itemId : String) (index : ℕ) : Option String :=
  match c.opened with
  | some (id, text) => if id = itemId ∧ index = c.closed.length then some text else none
  | none => none

/-- One event, unless it is out of place. -/
def read (c : ResponsesClient) : ResponsesEvent → Option ResponsesClient
  | .created => some c
  | .inProgress => some c
  | .outputItemAdded index item =>
    if c.opened = none ∧ index = c.closed.length then some { c with opened := some (item.id, "") }
    else none
  | .contentPartAdded itemId index => if (c.holding itemId index).isSome then some c else none
  | .reasoningTextDelta itemId index delta | .outputTextDelta itemId index delta
  | .argumentsDelta itemId index delta =>
    (c.holding itemId index).map fun text => { c with opened := some (itemId, text ++ delta) }
  | .reasoningTextDone itemId index text | .outputTextDone itemId index text
  | .contentPartDone itemId index text | .argumentsDone itemId index text =>
    if c.holding itemId index = some text then some c else none
  | .outputItemDone index item =>
    if c.holding item.id index = some item.content then
      some { c with closed := c.closed ++ [item], opened := none }
    else none
  | .completed _ output =>
    if c.opened = none then some { c with response := some output } else none

end ResponsesClient

/-- The client reads the non-streaming body from the stream, and is told the
same at its end. -/
def ResponsesAgrees (spell : JsonMap → String) (e : Envelope) (finish : Finish)
    (chunks : List Chunk) : Prop :=
  let body := e.output spell (collect chunks)
  (responsesStream spell e finish chunks).foldlM ResponsesClient.read ResponsesClient.start
      = some ⟨body, none, some body⟩ ∧ (body.map OutputItem.id).Nodup

/-! ### Messages -/

/-- The kind of block that is open between two chunks. -/
inductive OpenBlock where
  | thinking
  | text
  deriving DecidableEq, Repr

/-- What is added to a block. -/
inductive BlockDelta where
  | thinking (words : String)
  | text (words : String)
  | inputJson (partialJson : String)
  | signature (signature : String)
  deriving DecidableEq, Repr

/-- The events of a Messages stream. -/
inductive MessageEvent where
  | messageStart
  | contentBlockStart (index : ℕ) (block : ContentBlock String)
  | contentBlockDelta (index : ℕ) (delta : BlockDelta)
  | contentBlockStop (index : ℕ)
  | messageDelta (stopReason : String) (stopSequence : Option String)
  | messageStop
  deriving DecidableEq, Repr

/-- The events that close whatever content block is open. -/
def closeBlock (opened : Option OpenBlock) (index requestId : ℕ) : List MessageEvent :=
  match opened with
  | none => []
  | some kind =>
    (if kind = .thinking then
        [.contentBlockDelta index (.signature (thinkingSignature requestId))] else []) ++
      [.contentBlockStop index]

/-- The stop sequence that was met. -/
def stopSequence : Finish → Option String
  | .stopSequence sequence => some sequence
  | _ => none

/-- What the loop of a messages stream keeps. -/
structure MessagesLoop where
  index : ℕ
  opened : Option OpenBlock
  emittedCalls : ℕ
  deriving DecidableEq, Repr

namespace MessagesLoop

variable (spell : JsonMap → String) (requestId : ℕ)

/-- No block yet. -/
def start : MessagesLoop := ⟨0, none, 0⟩

/-- Close the open block, if any. -/
def close (s : MessagesLoop) : List MessageEvent × MessagesLoop :=
  if s.opened.isSome then
    (closeBlock s.opened s.index requestId, { s with index := s.index + 1, opened := none })
  else ([], s)

/-- The block a delta of this kind opens. -/
def emptyBlock : OpenBlock → ContentBlock String
  | .thinking => .thinking "" ""
  | .text => .text ""

/-- Open a block of this kind, unless one is open. -/
def turnTo (kind : OpenBlock) (s : MessagesLoop) : List MessageEvent × MessagesLoop :=
  if s.opened = some kind then ([], s)
  else
    let closed := s.close requestId
    (closed.1 ++ [.contentBlockStart closed.2.index (emptyBlock kind)],
      { closed.2 with opened := some kind })

/-- The events of one chunk. -/
def emit (s : MessagesLoop) : Chunk → List MessageEvent × MessagesLoop
  | .reasoning words =>
    let turned := s.turnTo requestId .thinking
    (turned.1 ++ [.contentBlockDelta turned.2.index (.thinking words)], turned.2)
  | .text words =>
    let turned := s.turnTo requestId .text
    (turned.1 ++ [.contentBlockDelta turned.2.index (.text words)], turned.2)
  | .toolCall call =>
    let closed := s.close requestId
    let index := closed.2.index
    -- the empty input object of the start event is not part of the input
    (closed.1 ++
      [.contentBlockStart index (.toolUse (toolUseId requestId closed.2.emittedCalls) call.name ""),
        .contentBlockDelta index (.inputJson (call.argumentsJson spell)),
        .contentBlockStop index],
      { closed.2 with index := index + 1, emittedCalls := closed.2.emittedCalls + 1 })

/-- A message carries at least one block. -/
def finish (s : MessagesLoop) : List MessageEvent :=
  if s.opened = none ∧ s.index = 0 then
    .contentBlockStart s.index (.text "") :: closeBlock (some .text) s.index requestId
  else closeBlock s.opened s.index requestId

/-- The chunks, one after another, and the end of the message. -/
def loop : MessagesLoop → List Chunk → List MessageEvent
  | s, [] => s.finish requestId
  | s, chunk :: chunks =>
    let emitted := s.emit spell requestId chunk
    emitted.1 ++ loop emitted.2 chunks

end MessagesLoop

/-- The events of a messages stream. -/
def messagesStream (spell : JsonMap → String) (requestId : ℕ) (finish : Finish)
    (chunks : List Chunk) : List MessageEvent :=
  .messageStart :: MessagesLoop.start.loop spell requestId chunks ++
    [.messageDelta (stopReason finish (collect chunks).toolCalls.length) (stopSequence finish),
      .messageStop]

/-- A client that puts a message together: the blocks closed, and the open one. -/
structure MessagesClient where
  closed : List (ContentBlock String)
  opened : Option (ContentBlock String)
  deriving DecidableEq, Repr

namespace MessagesClient

/-- Nothing read yet. -/
def start : MessagesClient := ⟨[], none⟩

/-- Add a delta to a block of its kind. -/
def grow : ContentBlock String → BlockDelta → Option (ContentBlock String)
  | .thinking words signature, .thinking more => some (.thinking (words ++ more) signature)
  | .thinking words signature, .signature more => some (.thinking words (signature ++ more))
  | .text words, .text more => some (.text (words ++ more))
  | .toolUse id name input, .inputJson more => some (.toolUse id name (input ++ more))
  | _, _ => none

/-- One event, unless it is out of place. -/
def read (c : MessagesClient) : MessageEvent → Option MessagesClient
  | .messageStart => some c
  | .contentBlockStart index block =>
    if c.opened = none ∧ index = c.closed.length then some { c with opened := some block } else none
  | .contentBlockDelta index delta =>
    if index = c.closed.length then
      (c.opened.bind (grow · delta)).map fun block => { c with opened := some block }
    else none
  | .contentBlockStop index =>
    if index = c.closed.length then c.opened.map fun block => ⟨c.closed ++ [block], none⟩ else none
  | .messageDelta _ _ => if c.opened = none then some c else none
  | .messageStop => some c

end MessagesClient

/-- The id a block carries, if it does. -/
def ContentBlock.id {ι : Type} : ContentBlock ι → Option String
  | toolUse id _ _ => some id
  | _ => none

/-- The client reads the content of the non-streaming message from the stream. -/
def MessagesAgrees (spell : JsonMap → String) (requestId : ℕ) (finish : Finish)
    (chunks : List Chunk) : Prop :=
  let body := contentBlocks (collect chunks) requestId
  (messagesStream spell requestId finish chunks).foldlM MessagesClient.read MessagesClient.start
      = some ⟨body.map (ContentBlock.spelled spell), none⟩ ∧ (body.filterMap ContentBlock.id).Nodup

/-! ### Chat completions -/

/-- The delta of one chunk, given the calls emitted before. -/
def chatDelta (spell : JsonMap → String) (requestId emittedCalls : ℕ) : Chunk → ChatDelta
  | .text words => { ChatDelta.default with content := some (some words) }
  | .reasoning words => { ChatDelta.default with reasoningContent := some words }
  | .toolCall call => { ChatDelta.default with
      toolCalls := some
        [{ toolCallValue spell requestId emittedCalls call with index := some emittedCalls }] }

/-- The calls emitted once this chunk has been. -/
def countCall (emittedCalls : ℕ) : Chunk → ℕ
  | .toolCall _ => emittedCalls + 1
  | _ => emittedCalls

/-- The deltas of the chunks, up to the one that names the finish reason. -/
def chatLoop (spell : JsonMap → String) (requestId : ℕ) :
    ℕ → List Chunk → List ChatDelta
  | _, [] => [ChatDelta.default]
  | emittedCalls, chunk :: chunks =>
    chatDelta spell requestId emittedCalls chunk ::
      chatLoop spell requestId (countCall emittedCalls chunk) chunks

/-- The deltas of a chat completion stream. -/
def chatStream (spell : JsonMap → String) (requestId : ℕ) (chunks : List Chunk) : List ChatDelta :=
  { ChatDelta.default with role := some "assistant", content := some (some "") } ::
    chatLoop spell requestId 0 chunks

/-- The message a client puts together.  Its fields are those of a delta: one
that no delta has named is absent. -/
abbrev ChatClient := ChatDelta

namespace ChatClient

/-- Nothing read yet. -/
def start : ChatClient := ChatDelta.default

/-- A call goes to the index behind the calls before it. -/
def call (calls : List ToolCallValue) (entry : ToolCallValue) : Option (List ToolCallValue) :=
  if entry.index = some calls.length then some (calls ++ [{ entry with index := none }]) else none

/-- Merge a delta into the message.  A null content stays null until a string
follows. -/
def read (c : ChatClient) (delta : ChatDelta) : Option ChatClient :=
  let merged : ChatClient := { c with
    role := delta.role.or c.role
    content := match delta.content with
      | some (some words) => some (some (c.content.join.getD "" ++ words))
      | some none => some c.content.join
      | none => c.content
    reasoningContent := match delta.reasoningContent with
      | some words => some (c.reasoningContent.getD "" ++ words)
      | none => c.reasoningContent }
  match delta.toolCalls with
  | none => some merged
  | some entries =>
    (entries.foldlM call (c.toolCalls.getD [])).map fun calls =>
      { merged with toolCalls := some calls }

end ChatClient

/-- The client reads the message of the non-streaming body from the stream,
the absent and the null content kept apart. -/
def ChatAgrees (spell : JsonMap → String) (requestId : ℕ) (chunks : List Chunk) : Prop :=
  let body := chatMessage spell (collect chunks) requestId
  (chatStream spell requestId chunks).foldlM ChatClient.read ChatClient.start = some body ∧
    ((body.toolCalls.getD []).map ToolCallValue.id).Nodup
