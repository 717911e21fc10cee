/-
Message content and the prompt it renders to (`xabe-server/src/http/chat.rs`).

Content is folded part by part (`foldPart`): text parts join by a newline, an
image leaves its marker in the text and its pixels in a list beside it.  A
conversation renders to the ChatML prompt (`Conversation.render`).

A marker stands for the string `imageMarker` (`Text.spell`) and remembers the
image of the part it came from, which no function here reads.  How JSON is
parsed and spelled, and how base64 is decoded to pixels, are parameters; parts
are taken as parsed.
-/
import Llmxabe.Server.Tools

/-- Unicode's `White_Space`. -/
def isWhite (c : Char) : Bool :=
  let n := c.toNat
  (9 ≤ n && n ≤ 13) || n == 32 || n == 133 || n == 160 || n == 5760 || (8192 ≤ n && n ≤ 8202) ||
    n == 8232 || n == 8233 || n == 8239 || n == 8287 || n == 12288

/-- An image decoded to interleaved RGB. -/
structure DecodedImage where
  rgb : List UInt8
  width : ℕ
  height : ℕ
  deriving DecidableEq

/-- A character of a text, or an image's marker. -/
inductive Glyph where
  | char (c : Char)
  | marker (image : DecodedImage)
  deriving DecidableEq

/-- Text in which an image is one glyph. -/
abbrev Text := List Glyph

/-- The markup one image renders as. -/
def imageMarker : String := "<|vision_start|><|image_pad|><|vision_end|>"

namespace Glyph

/-- A character that is whitespace; an image is not. -/
def white : Glyph → Bool
  | char c => isWhite c
  | marker _ => false

/-- The characters that the prompt shows. -/
def spell : Glyph → List Char
  | char c => [c]
  | marker _ => imageMarker.toList

/-- The image of a marker. -/
def image? : Glyph → Option DecodedImage
  | char _ => none
  | marker image => some image

end Glyph

namespace Text

/-- Text without images. -/
def of (s : String) : Text := s.toList.map Glyph.char

/-- The string a text is. -/
def spell (text : Text) : List Char := text.flatMap Glyph.spell

/-- The images its markers came from, in order. -/
def images (text : Text) : List DecodedImage := text.filterMap Glyph.image?

/-- Without the whitespace in front. -/
def trimStart (text : Text) : Text := text.dropWhile Glyph.white

/-- Without the whitespace on both sides. -/
def trim (text : Text) : Text := (trimStart (trimStart text).reverse).reverse

/-- A value joins what is there after a newline. -/
def join (target value : Text) : Text :=
  (if target = [] then [] else target ++ of "\n") ++ value

end Text

/-! ### Content parts -/

/-- An Anthropic image source. -/
structure ImageSource where
  kind : String
  data : Option String
  url : Option String

/-- What a `tool_result` block carries. -/
inductive ResultContent (π : Type) where
  | absent
  | text (text : String)
  | blocks (blocks : List π)
  | other

/-- A part of a message, in any of the dialects' spellings. -/
inductive ContentPart where
  | text (text : String)
  | inputText (text : String)
  | outputText (text : String)
  | thinking (thinking : String)
  | reasoningText (text : String)
  | refusal (refusal : String)
  | summaryText (text : String)
  | toolUse (name : String) (input : Json)
  | toolResult (content : ResultContent ContentPart)
  | imageUrl (url : String)
  | image (source : ImageSource)
  | inputImage (imageUrl : Option String)
  | other (value : Json)

/-- What a message holds. -/
inductive Content where
  | text (text : String)
  | parts (parts : List ContentPart)
  | single (part : ContentPart)

/-- One tool result: its text, and the images of the text's markers. -/
structure ToolResult where
  text : Text
  images : List DecodedImage

namespace ToolResult

/-- No result. -/
def default : ToolResult := ⟨[], []⟩

/-- A result that is text. -/
def ofText (text : String) : ToolResult := ⟨Text.of text, []⟩

end ToolResult

/-- Content folded down to what the prompt renders. -/
structure FoldedContent where
  text : Text
  thinking : Text
  toolCalls : List ParsedToolCall
  toolResults : List ToolResult
  images : List DecodedImage

namespace FoldedContent

/-- Nothing folded yet. -/
def default : FoldedContent := ⟨[], [], [], [], []⟩

/-- More text, on a line of its own. -/
def pushText (folded : FoldedContent) (value : String) : FoldedContent :=
  { folded with text := folded.text.join (Text.of value) }

/-- More reasoning, on a line of its own. -/
def pushThinking (folded : FoldedContent) (value : String) : FoldedContent :=
  { folded with thinking := folded.thinking.join (Text.of value) }

/-- An image, on a line of its own. -/
def pushImage (folded : FoldedContent) (image : DecodedImage) : FoldedContent :=
  { folded with text := folded.text.join [.marker image], images := folded.images ++ [image] }

/-- A call that was replayed. -/
def pushCall (folded : FoldedContent) (call : ParsedToolCall) : FoldedContent :=
  { folded with toolCalls := folded.toolCalls ++ [call] }

/-- A result of a tool. -/
def pushResult (folded : FoldedContent) (result : ToolResult) : FoldedContent :=
  { folded with toolResults := folded.toolResults ++ [result] }

end FoldedContent

/-- The caller's material, which is refused rather than skipped. -/
def contentThisServerCannotRead : List String :=
  ["input_file", "file", "document", "input_audio", "audio", "output_audio", "container_upload",
    "video", "video_url", "input_video"]

/-- The error for an image where none may be. -/
def imageMisplaced : String := "image content is only supported in user messages and tool results"

/-- The error for a role that no turn has. -/
def unsupportedRole (role : String) : String := "the `" ++ role ++ "` role is not supported"

/-- The outside of this module: JSON text and its values, and pixels. -/
structure Codec where
  /-- `serde_json::from_str` -/
  parse : String → Option Json
  /-- `serde_json::to_string` -/
  spell : Json → String
  /-- `prompt_json` -/
  prompt : Json → String
  /-- `decode_base64_image` -/
  decode : String → Except String DecodedImage

section Folding

variable (codec : Codec)

/-- Only base64 `data:` URLs are read. -/
def decodeImageUrl (url : String) : Except String DecodedImage :=
  -- remote images are not fetched
  if "data:".toList <+: url.toList then
    match splitOnce ',' (String.ofList (url.toList.drop "data:".length)) with
    | none => .error "a `data:` URL needs a comma between its media type and its payload"
    | some (metadata, payload) =>
      if ";base64".toList <:+ metadata.toList then codec.decode payload
      else .error "only base64 `data:` URLs are supported"
  else
    .error ("only `data:` image URLs are supported — this server does not fetch remote images " ++
      "(got a `" ++ String.ofList (url.toList.takeWhile (· ≠ ':')) ++ ":` URL); send the image " ++
      "inline as base64")

/-- An image that is sent in the request, or none that can be fetched. -/
def ImageSource.decode (source : ImageSource) : Except String DecodedImage :=
  if source.kind = "base64" then
    match source.data with
    | none => .error "a base64 image source needs a `data` field"
    | some data => codec.decode data
  else if source.kind = "url" then
    match source.url with
    | none => .error "a url image source needs a `url` field"
    | some url => decodeImageUrl codec url
  else .error ("image source type `" ++ source.kind ++ "` is not supported")

/-- The arguments of a replayed `tool_use` block. -/
def toolUseArguments : Json → JsonMap
  | .object members => members
  -- arguments may come as JSON inside of a string
  | .string s => ((codec.parse s).bind Json.asObject).getD []
  | _ => []

/-- A part no known one parses as: refused by name, read for its text, or skipped. -/
def foldOther (value : Json) (folded : FoldedContent) : Except String FoldedContent :=
  let kind := (value.str "type").getD "(untyped)"
  -- the caller's material must not be dropped in silence
  if kind ∈ contentThisServerCannotRead then
    .error ("content parts of type `" ++ kind ++ "` are not supported; this server reads text " ++
      "and images. Dropping one would answer about something it never saw")
  else
    match value.asStr.or (value.str "text") with
    | some text => .ok (folded.pushText text)
    | none => .ok folded

mutual

/-- One part more. -/
def foldPart (part : ContentPart) (folded : FoldedContent) : Except String FoldedContent :=
  match part with
  | .text value | .inputText value | .outputText value | .refusal value =>
    .ok (folded.pushText value)
  | .thinking value | .reasoningText value | .summaryText value => .ok (folded.pushThinking value)
  | .toolUse name input => .ok (folded.pushCall ⟨name, toolUseArguments codec input⟩)
  | .toolResult content => (foldToolResult content).map folded.pushResult
  | .imageUrl url => (decodeImageUrl codec url).map folded.pushImage
  | .image source => (source.decode codec).map folded.pushImage
  | .inputImage none =>
    .error "an `input_image` part needs an `image_url`; file ids are not supported"
  | .inputImage (some url) => (decodeImageUrl codec url).map folded.pushImage
  | .other value => foldOther value folded

/-- A `tool_result` block's content: a bare string, or content blocks. -/
def foldToolResult (content : ResultContent ContentPart) : Except String ToolResult :=
  match content with
  | .absent => .ok .default
  | .text text => .ok (.ofText text)
  | .other => .error "tool_result `content` must be a string or a list of blocks"
  | .blocks blocks =>
    match foldParts blocks .default with
    | .error failure => .error failure
    | .ok folded =>
      -- results do not nest
      if folded.toolCalls.isEmpty ∧ folded.toolResults.isEmpty then
        .ok ⟨folded.text, folded.images⟩
      else .error "a tool result cannot contain tool blocks of its own"

/-- Some parts more, in order; the first error ends it. -/
def foldParts (parts : List ContentPart) (folded : FoldedContent) : Except String FoldedContent :=
  match parts with
  | [] => .ok folded
  | part :: parts =>
    match foldPart part folded with
    | .error failure => .error failure
    | .ok folded => foldParts parts folded

end

/-- A list of content blocks folded into one tool result. -/
def foldBlocks (blocks : List ContentPart) : Except String ToolResult :=
  foldToolResult codec (.blocks blocks)

/-- Content folded into its text, reasoning, and replayed tool blocks. -/
def Content.fold : Content → Except String FoldedContent
  | .text words => .ok { FoldedContent.default with text := Text.of words }
  | .single one => foldPart codec one .default
  | .parts all => foldParts codec all .default

/-- The fold of content that may be absent. -/
def foldOption (content : Option Content) : Except String FoldedContent :=
  match content with
  | none => .ok .default
  | some content => content.fold codec

/-- The text of content that holds no tool block and no image. -/
def Content.plainText (content : Content) : Except String Text :=
  match content.fold codec with
  | .error failure => .error failure
  | .ok folded =>
    -- neither a call nor a result may stand here
    if ¬(folded.toolCalls.isEmpty ∧ folded.toolResults.isEmpty) then
      .error "`tool_use` and `tool_result` content blocks are not valid here"
    else if folded.images ≠ [] then .error imageMisplaced
    else .ok folded.text

end Folding

/-! ### Conversations -/

/-- A turn of a conversation. -/
inductive Turn where
  | user (content : Text)
  | system (content : Text)
  | assistant (reasoning content : Text) (toolCalls : List ParsedToolCall)
  /-- Consecutive tool results, which render as one user turn. -/
  | toolResults (results : List Text)

/-- What is rendered, and the images that travel beside it. -/
structure Conversation where
  system : Option Text
  turns : List Turn
  tools : List ToolDefinition
  images : List DecodedImage

/-- How a replayed call argument appears between its tags. -/
def parameterValue (codec : Codec) : Json → String
  | .string text => text
  | .bool value => if value then "True" else "False"
  | .null => "None"
  | other => codec.prompt other

/-- How the model is to call a tool. -/
def toolInstructions : String := "\n\nIf you choose to call a function ONLY reply in the following " ++
  "format with NO suffix:\n\n<tool_call>\n<function=example_function_name>\n" ++
  "<parameter=example_parameter_1>\nvalue_1\n</parameter>\n<parameter=example_parameter_2>\n" ++
  "This is the value for the second parameter\nthat can span\nmultiple lines\n</parameter>\n" ++
  "</function>\n</tool_call>\n\n<IMPORTANT>\nReminder:\n- Function calls MUST follow the " ++
  "specified format: an inner <function=...></function> block must be nested within " ++
  "<tool_call></tool_call> XML tags\n- Required parameters MUST be specified\n- You may " ++
  "provide optional reasoning for your function call in natural language BEFORE the function " ++
  "call, but NOT after\n- If there is no function call available, answer the question like " ++
  "normal with your current knowledge and do not tell the user about function calls\n" ++
  "</IMPORTANT>"

namespace Turn

/-- A question of the caller's, which a tool response is not. -/
def question : Turn → Bool
  | user content =>
    ¬(Text.of "<tool_response>" <+: content.trim ∧ Text.of "</tool_response>" <:+ content.trim)
  | _ => false

end Turn

namespace Conversation

/-- An empty conversation. -/
def default : Conversation := ⟨none, [], [], []⟩

/-- Append a tool result, merging into a results turn before it. -/
def pushToolResult (conversation : Conversation) (result : ToolResult) : Conversation :=
  let turns := match conversation.turns.getLast? with
    | some (.toolResults results) =>
      conversation.turns.dropLast ++ [.toolResults (results ++ [result.text])]
    | _ => conversation.turns ++ [.toolResults [result.text]]
  { conversation with turns := turns, images := conversation.images ++ result.images }

/-- A turn more. -/
def pushTurn (conversation : Conversation) (turn : Turn) : Conversation :=
  { conversation with turns := conversation.turns ++ [turn] }

/-- The index of the last question, or of the last turn where there is none. -/
def lastQuery (turns : List Turn) : ℕ :=
  turns.length - 1 - (turns.reverse.findIdx? Turn.question).getD 0

section Rendering

variable (codec : Codec)

/-- One parameter of a call. -/
def renderArgument (argument : String × Json) : Text :=
  Text.of "<parameter=" ++ Text.of argument.1 ++ Text.of ">\n" ++
    Text.of (parameterValue codec argument.2) ++ Text.of "\n</parameter>\n"

/-- One call, in its block. -/
def renderCall (call : ParsedToolCall) : Text :=
  Text.of "<tool_call>\n<function=" ++ Text.of call.name ++ Text.of ">\n" ++
    call.arguments.flatMap (renderArgument codec) ++ Text.of "</function>\n</tool_call>"

/-- The calls of a turn, the first after a blank line if there is content. -/
def renderCalls (content : Text) (calls : List ParsedToolCall) : Text :=
  (calls.mapIdx fun index call =>
    (if 0 < index then Text.of "\n" else if content = [] then [] else Text.of "\n\n") ++
      renderCall codec call).flatten

/-- An assistant turn replays its reasoning after the last question only. -/
def renderTurn (replayed : Bool) : Turn → Text
  | .user content => Text.of "<|im_start|>user\n" ++ content.trim ++ Text.of "<|im_end|>\n"
  | .system content => Text.of "<|im_start|>system\n" ++ content.trim ++ Text.of "<|im_end|>\n"
  | .assistant reasoning content calls =>
    (if replayed then
      Text.of "<|im_start|>assistant\n<think>\n" ++ reasoning.trim ++ Text.of "\n</think>\n\n" ++
        content.trim
    else Text.of "<|im_start|>assistant\n" ++ content.trim) ++
      renderCalls codec content.trim calls ++ Text.of "<|im_end|>\n"
  | .toolResults results =>
    Text.of "<|im_start|>user" ++
      results.flatMap (fun result =>
        Text.of "\n<tool_response>\n" ++ result.trim ++ Text.of "\n</tool_response>") ++
      Text.of "<|im_end|>\n"

/-- The system turn: instructions and tools, if there are any. -/
def renderSystem (conversation : Conversation) : Text :=
  let system := (conversation.system.map Text.trim).filter (· ≠ [])
  if conversation.tools.isEmpty then
    match system with
    | none => []
    | some system => Text.of "<|im_start|>system\n" ++ system ++ Text.of "<|im_end|>\n"
  else
    Text.of "<|im_start|>system\n# Tools\n\nYou have access to the following functions:\n\n<tools>" ++
      conversation.tools.flatMap (fun tool => Text.of "\n" ++ Text.of (codec.prompt tool.wrapper)) ++
      Text.of "\n</tools>" ++ Text.of toolInstructions ++
      (match system with
        | none => []
        | some system => Text.of "\n\n" ++ system) ++
      Text.of "<|im_end|>\n"

/-- The ChatML prompt, ending with the assistant's generation prompt. -/
def render (conversation : Conversation) (thinking : Bool) : Text :=
  conversation.renderSystem codec ++
    (conversation.turns.mapIdx fun index turn =>
      renderTurn codec (decide (lastQuery conversation.turns < index)) turn).flatten ++
    Text.of "<|im_start|>assistant\n" ++
    (if thinking then Text.of "<think>\n" else Text.of "<think>\n\n</think>\n\n")

end Rendering

end Conversation
