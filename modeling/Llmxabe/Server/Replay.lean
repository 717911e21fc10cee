/-
A completed generation fed back as the assistant part of the next request.

What a dialect serves (`Server.Outputs`) is read back as the content of a
message, or as items (`ContentBlock.part`, `ChatDelta.message`,
`OutputItem.item`).  Messages and chat completions reconstruct the turn
(`messages_replays`, `chat_replays`).  An item of a Responses request has no
namespace, so a call that was served with one comes back under its bare name,
and an item joins an assistant turn before it: `replay_reconstructs_iff`.
-/
import Llmxabe.Server.Requests

/-! ### What is read of what was served -/

/-- A served block, as a content part. -/
def ContentBlock.part : ContentBlock JsonMap → ContentPart
  | .thinking words _ => .thinking words
  | .text words => .text words
  | .toolUse _ name input => .toolUse name (.object input)

/-- A call as a client sends it back. -/
def ToolCallValue.json (value : ToolCallValue) : Json :=
  .object [("id", .string value.id), ("type", .string "function"),
    ("function", .object [("name", .string value.name), ("arguments", .string value.arguments)])]

/-- A served message, as the message of a request. -/
def ChatDelta.message (delta : ChatDelta) : ChatMessage where
  role := delta.role.getD ""
  content := delta.content.join.map .text
  reasoningContent := delta.reasoningContent
  toolCalls := delta.toolCalls.map (·.map ToolCallValue.json)

/-- A served item, as an item of a request, which has no namespace. -/
def OutputItem.item : OutputItem → InputItem
  | .reasoning _ text =>
    ⟨some "reasoning", none, some (.parts [.reasoningText text]), none, none, none,
      some (.parts [])⟩
  | .message _ _ text =>
    ⟨some "message", some "assistant", some (.parts [.outputText text]), none, none, none, none⟩
  | .functionCall _ _ _ name _ arguments =>
    ⟨some "function_call", none, none, some name, some arguments, none, none⟩

section Replaying

variable (codec : Codec)

/-- The spelling of a call's arguments. -/
def Codec.spellMap (members : JsonMap) : String := codec.spell (.object members)

/-- The arguments round trip through their spelling, which is not blank. -/
structure Codec.RoundTrips (members : JsonMap) : Prop where
  parse_spell : codec.parse (codec.spellMap members) = some (.object members)
  not_blank : blank (codec.spellMap members) = false

/-- The turn a generation was. -/
def Collected.turn (c : Collected) : Turn :=
  .assistant (Text.of c.reasoning) (Text.of c.text) c.toolCalls

/-- The message of a Messages request that holds what was served. -/
def servedMessage (requestId : ℕ) (c : Collected) : Message :=
  ⟨"assistant", .parts ((contentBlocks c requestId).map ContentBlock.part)⟩

/-- The message of a chat request that holds what was served. -/
def servedChatMessage (requestId : ℕ) (c : Collected) : ChatMessage :=
  (chatMessage codec.spellMap c requestId).message

/-- The items of a Responses request that hold what was served. -/
def servedItems (e : Envelope) (c : Collected) : List InputItem :=
  (e.output codec.spellMap c).map OutputItem.item

/-- Served back after any request, the reply becomes the turn it was, and the
messages that follow it go on from there. -/
def MessagesReplays (requestId : ℕ) (c : Collected) : Prop :=
  ∀ system before conversation after,
    (⟨before, system⟩ : MessagesRequest).conversation codec = .ok conversation →
    (⟨before ++ servedMessage requestId c :: after, system⟩ : MessagesRequest).conversation codec =
      after.foldlM (Message.append codec) (conversation.pushTurn c.turn) >>=
        Conversation.nonempty MessagesRequest.empty

/-- The same of chat completions, whose loop holds the leading system texts apart. -/
def ChatReplays (requestId : ℕ) (c : Collected) : Prop :=
  ∀ before loop after,
    before.foldlM (ChatMessage.append codec) .start = .ok loop →
    chatConversation codec (before ++ servedChatMessage codec requestId c :: after) =
      after.foldlM (ChatMessage.append codec) (loop.pushTurn c.turn) >>= fun loop =>
        loop.finish.nonempty ChatLoop.empty

/-- The reply starts a turn of its own: no assistant turn comes before it, or
both have reasoning, and the one never joins the other. -/
def Conversation.OpensReply (conversation : Conversation) (c : Collected) : Prop :=
  ∀ reasoning content calls,
    conversation.turns.getLast? = some (.assistant reasoning content calls) →
      reasoning ≠ [] ∧ c.reasoning ≠ ""

/-- The same of Responses, behind the items `before`. -/
def ResponsesReplays (instructions system : Option String) (tools : List Json)
    (before : List InputItem) (requestId : ℕ) (c : Collected) : Prop :=
  ∀ conversation after,
    let request : List InputItem → ResponsesRequest := fun items =>
      ⟨.items items, instructions, system, tools⟩
    (request before).loop codec = .ok conversation →
    (request (before ++ servedItems codec ⟨requestId, namespacesOf tools⟩ c ++ after)).conversation
        codec =
      after.foldlM (InputItem.append codec) (conversation.pushTurn c.turn) >>=
        Conversation.nonempty ResponsesRequest.empty

/-! ### Messages -/

variable {codec} {c : Collected} {requestId : ℕ}

theorem foldParts_append {parts more : List ContentPart} :
    ∀ {folded next}, foldParts codec parts folded = .ok next →
      foldParts codec (parts ++ more) folded = foldParts codec more next := by
  induction parts with
  | nil =>
    rintro folded next ⟨⟩
    rfl
  | cons part parts ih =>
    intro folded next h
    simp only [List.cons_append, foldParts] at h ⊢
    rcases hpart : foldPart codec part folded with failure | between
    · rw [hpart] at h
      cases h
    · rw [hpart] at h
      exact ih h

variable (codec) in
/-- Served calls fold to the calls they were. -/
theorem foldParts_calls (calls : List ParsedToolCall) (id : ℕ → String) :
    ∀ folded, foldParts codec ((calls.mapIdx fun index call =>
        ContentBlock.toolUse (id index) call.name call.arguments).map ContentBlock.part) folded =
      .ok { folded with toolCalls := folded.toolCalls ++ calls } := by
  induction calls generalizing id with
  | nil =>
    intro folded
    rw [List.append_nil]
    rfl
  | cons call calls ih =>
    intro folded
    rw [List.mapIdx_cons, List.map_cons, foldParts]
    refine (ih (fun index => id (index + 1)) _).trans ?_
    simp only [FoldedContent.pushCall, toolUseArguments, List.append_assoc, List.singleton_append]

theorem fold_contentBlocks :
    foldParts codec ((contentBlocks c requestId).map ContentBlock.part) .default =
      .ok ⟨Text.of c.text, Text.of c.reasoning, c.toolCalls, [], []⟩ := by
  have hreasoning : foldParts codec ((if c.reasoning = "" then []
      else [ContentBlock.thinking c.reasoning (thinkingSignature requestId)]).map
        ContentBlock.part) .default = .ok ⟨[], Text.of c.reasoning, [], [], []⟩ := by
    split
    case isTrue h => rw [h]; rfl
    case isFalse => rfl
  have htext : foldParts codec ((if c.text = "" then []
      else [ContentBlock.text c.text]).map ContentBlock.part)
        ⟨[], Text.of c.reasoning, [], [], []⟩ = .ok ⟨Text.of c.text, Text.of c.reasoning, [], [], []⟩ := by
    split
    case isTrue h => rw [h]; rfl
    case isFalse => rfl
  have hcalls := foldParts_calls codec c.toolCalls (toolUseId requestId)
    ⟨Text.of c.text, Text.of c.reasoning, [], [], []⟩
  have hcontent := foldParts_append hreasoning
    |>.trans (foldParts_append htext) |>.trans hcalls
  rw [← List.append_assoc, ← List.map_append, ← List.map_append] at hcontent
  have hblocks : contentBlocks c requestId = if _ = [] then [.text ""] else _ := rfl
  rw [hblocks]
  generalize _ ++ List.mapIdx _ _ = content at hcontent ⊢
  by_cases hempty : content = []
  · -- the one empty block folds to what no block does
    rw [if_pos hempty]
    rw [hempty] at hcontent
    exact hcontent
  · rw [if_neg hempty]
    exact hcontent

theorem append_servedMessage (conversation : Conversation) :
    Message.append codec conversation (servedMessage requestId c) =
      .ok (conversation.pushTurn c.turn) := by
  simp only [Message.append, servedMessage, Content.fold, fold_contentBlocks]
  rfl

theorem Conversation.nonempty_eq_ok {failure : String} {conversation checked : Conversation}
    (h : conversation.nonempty failure = .ok checked) : checked = conversation := by
  unfold Conversation.nonempty at h
  split at h <;> cases h
  rfl

/-- A Messages reply is served back as the turn it was. -/
theorem messages_replays : MessagesReplays codec requestId c := by
  intro system before conversation after h
  simp only [MessagesRequest.conversation, Except.bind_eq_ok_iff] at h
  obtain ⟨text, htext, loop, hbefore, hloop⟩ := h
  obtain rfl := Conversation.nonempty_eq_ok hloop
  simp only [MessagesRequest.conversation, htext, Except.ok_bind, List.foldlM_append, hbefore,
    List.foldlM_cons, append_servedMessage]

/-! ### Chat completions -/

theorem replayedToolCall_served (index : ℕ) {call : ParsedToolCall}
    (hcodec : codec.RoundTrips call.arguments) (hname : call.name ≠ "") :
    replayedToolCall codec (toolCallValue codec.spellMap requestId index call).json = .ok call := by
  have hname' : (some call.name).filter (· ≠ "") = some call.name :=
    Option.filter_eq_some_iff.mpr ⟨rfl, decide_eq_true hname⟩
  have hstr : (((toolCallValue codec.spellMap requestId index call).json.get "function").getD
      (toolCallValue codec.spellMap requestId index call).json).str "name" = some call.name := rfl
  have harguments : (((toolCallValue codec.spellMap requestId index call).json.get "function").getD
      (toolCallValue codec.spellMap requestId index call).json).get "arguments" =
        some (.string (codec.spellMap call.arguments)) := rfl
  unfold replayedToolCall
  dsimp only
  rw [hstr, hname', harguments]
  simp only [replayedArguments, hcodec.not_blank, hcodec.parse_spell]
  rfl

theorem mapM_served {calls : List ParsedToolCall} :
    ∀ id : ℕ → ℕ, (∀ call ∈ calls, codec.RoundTrips call.arguments) →
      (∀ call ∈ calls, call.name ≠ "") →
      ((calls.mapIdx fun index => toolCallValue codec.spellMap requestId (id index)).map
        ToolCallValue.json).mapM (replayedToolCall codec) = .ok calls := by
  induction calls with
  | nil => exact fun _ _ _ => rfl
  | cons call calls ih =>
    intro id hcodec hnames
    rw [List.forall_mem_cons] at hcodec hnames
    rw [List.mapIdx_cons, List.map_cons, List.mapM_cons,
      replayedToolCall_served _ hcodec.1 hnames.1, Except.ok_bind,
      ih (fun index => id (index + 1)) hcodec.2 hnames.2]
    rfl

variable (requestId) in
/-- The calls of a served message are read back as they were. -/
theorem replayedToolCalls_served (hcodec : ∀ call ∈ c.toolCalls, codec.RoundTrips call.arguments)
    (hnames : ∀ call ∈ c.toolCalls, call.name ≠ "") :
    replayedToolCalls codec (servedChatMessage codec requestId c).toolCalls = .ok c.toolCalls := by
  simp only [servedChatMessage, ChatDelta.message, chatMessage]
  split
  case isTrue h => rw [h]; rfl
  case isFalse =>
    exact mapM_served id hcodec hnames

theorem append_servedChatMessage (hcodec : ∀ call ∈ c.toolCalls, codec.RoundTrips call.arguments)
    (hnames : ∀ call ∈ c.toolCalls, call.name ≠ "") (loop : ChatLoop) :
    ChatMessage.append codec loop (servedChatMessage codec requestId c) =
      .ok (loop.pushTurn c.turn) := by
  have hcontent : foldOption codec (servedChatMessage codec requestId c).content =
      .ok { FoldedContent.default with text := Text.of c.text } := by
    simp only [servedChatMessage, ChatDelta.message, chatMessage, Option.join_some]
    split
    case isTrue => rfl
    case isFalse h =>
      rw [not_or, not_not] at h
      rw [h.2]
      rfl
  have hreasoning : ((servedChatMessage codec requestId c).reasoningContent.map Text.of).getD [] =
      Text.of c.reasoning := by
    simp only [servedChatMessage, ChatDelta.message, chatMessage]
    split
    case isTrue h => rw [h]; rfl
    case isFalse => rfl
  have hcalls := replayedToolCalls_served requestId hcodec hnames
  simp only [ChatMessage.append, hcontent]
  show (replayedToolCalls codec (servedChatMessage codec requestId c).toolCalls).map _ = _
  rw [hcalls]
  refine congrArg (fun turn => Except.ok (loop.pushTurn turn)) ?_
  show Turn.assistant (Option.getD _ []) _ (c.toolCalls ++ []) = _
  rw [hreasoning, List.append_nil]
  rfl

/-- A chat reply is served back as the turn it was. -/
theorem chat_replays (hcodec : ∀ call ∈ c.toolCalls, codec.RoundTrips call.arguments)
    (hnames : ∀ call ∈ c.toolCalls, call.name ≠ "") :
    ChatReplays codec requestId c := by
  intro before loop after hbefore
  simp only [chatConversation, List.foldlM_append, hbefore, Except.ok_bind, List.foldlM_cons,
    append_servedChatMessage hcodec hnames]

/-! ### Responses -/

variable {tools : List Json} {e : Envelope} {conversation : Conversation}

theorem splitOnce_eq_some {separator : Char} {s before after : String}
    (h : splitOnce separator s = some (before, after)) :
    s.toList = before.toList ++ separator :: after.toList := by
  have hsplit := List.takeWhile_append_dropWhile (p := (· ≠ separator)) (l := s.toList)
  have hhead := List.head?_dropWhile_not (· ≠ separator) s.toList
  unfold splitOnce at h
  rcases hdrop : s.toList.dropWhile (· ≠ separator) with _ | ⟨head, rest⟩
  · rw [hdrop] at h
    cases h
  · rw [hdrop] at h hsplit hhead
    obtain rfl : head = separator := by simpa using hhead
    cases h
    rw [String.toList_ofList, String.toList_ofList]
    exact hsplit.symm

/-- The call an item of a served call is read back as. -/
def replayCall (e : Envelope) (call : ParsedToolCall) : ParsedToolCall :=
  { call with name := (e.splitNamespace call.name).1 }

/-- A name is split, or served as it is. -/
theorem splitNamespace_cases (e : Envelope) (name : String) :
    e.splitNamespace name = (name, none) ∨
      ∃ group member, splitOnce '.' name = some (group, member) ∧ group ∈ e.namespaces ∧
        e.splitNamespace name = (member, some group) := by
  unfold Envelope.splitNamespace
  rcases splitOnce '.' name with _ | ⟨group, member⟩
  · exact Or.inl rfl
  · by_cases hgroup : group ∈ e.namespaces
    · exact Or.inr ⟨group, member, rfl, hgroup, if_pos hgroup⟩
    · exact Or.inl (if_neg hgroup)

/-- The call comes back under its name unless the name is split. -/
theorem replayCall_eq_iff {call : ParsedToolCall} :
    replayCall e call = call ↔ (e.splitNamespace call.name).2 = none := by
  constructor
  · intro h
    have hname : (e.splitNamespace call.name).1 = call.name := congrArg ParsedToolCall.name h
    rcases splitNamespace_cases e call.name with hsame | ⟨group, member, hsplit, -, hpair⟩
    · rw [hsame]
    · have hmember : member = call.name := by
        rw [← hname, hpair]
      have hlength := congrArg List.length (splitOnce_eq_some hsplit)
      rw [hmember, List.length_append, List.length_cons] at hlength
      omega
  · intro h
    rcases splitNamespace_cases e call.name with hsame | ⟨group, member, -, -, hpair⟩
    · unfold replayCall
      rw [hsame]
    · rw [hpair] at h
      cases h

theorem append_functionCall {call : ParsedToolCall} (hcodec : codec.RoundTrips call.arguments)
    (index : ℕ) :
    InputItem.append codec conversation
        (e.functionCallItem codec.spellMap index call "completed").item =
      if (e.splitNamespace call.name).1 = "" then
        .error "a `function_call` item needs a `name`"
      else .ok (InputItem.appendCall conversation (replayCall e call)) := by
  have hparse := hcodec.parse_spell
  have hspelled : codec.spellMap call.arguments ≠ "" := by
    intro hempty
    have hblank := hcodec.not_blank
    rw [hempty] at hblank
    cases hblank
  show ((InputItem.functionCall codec ⟨some "function_call", none, none,
    some (e.splitNamespace call.name).1, some (codec.spellMap call.arguments), none, none⟩).map
      (InputItem.appendCall conversation)) = _
  by_cases hname : (e.splitNamespace call.name).1 = ""
  · rw [if_pos hname, hname]
    rfl
  · have hfilter : (some (e.splitNamespace call.name).1).filter (· ≠ "") =
        some (e.splitNamespace call.name).1 :=
      Option.filter_eq_some_iff.mpr ⟨rfl, decide_eq_true hname⟩
    rw [if_neg hname]
    simp only [InputItem.functionCall, hfilter, hparse, Option.bind_some, Json.asObject]
    rfl

/-- Calls that are served back join the assistant turn before them. -/
theorem appendCall_pushTurn (reasoning content : Text) (calls : List ParsedToolCall)
    (call : ParsedToolCall) :
    InputItem.appendCall (conversation.pushTurn (.assistant reasoning content calls)) call =
      conversation.pushTurn (.assistant reasoning content (calls ++ [call])) := by
  simp only [InputItem.appendCall, Conversation.pushTurn, List.getLast?_concat, List.dropLast_concat]

/-- The items of the calls of a response. -/
def callItems (codec : Codec) (e : Envelope) (offset : ℕ → ℕ) (calls : List ParsedToolCall) :
    List InputItem :=
  (calls.mapIdx fun index call =>
    e.functionCallItem codec.spellMap (offset index) call "completed").map OutputItem.item

theorem callItems_cons (offset : ℕ → ℕ) (call : ParsedToolCall) (calls : List ParsedToolCall) :
    callItems codec e offset (call :: calls) =
      (e.functionCallItem codec.spellMap (offset 0) call "completed").item ::
        callItems codec e (fun index => offset (index + 1)) calls := by
  simp only [callItems, List.mapIdx_cons, List.map_cons]

/-- Served back, the calls join the turn under the names they come back under. -/
theorem append_callItems (reasoning content : Text) {calls : List ParsedToolCall}
    (hcodec : ∀ call ∈ calls, codec.RoundTrips call.arguments) {after : Conversation} :
    ∀ {before : List ParsedToolCall} {offset : ℕ → ℕ},
      (callItems codec e offset calls).foldlM (InputItem.append codec)
          (conversation.pushTurn (.assistant reasoning content before)) = .ok after ↔
        (∀ call ∈ calls, (e.splitNamespace call.name).1 ≠ "") ∧
          after = conversation.pushTurn
            (.assistant reasoning content (before ++ calls.map (replayCall e))) := by
  induction calls with
  | nil =>
    intro before offset
    rw [List.map_nil, List.append_nil]
    constructor
    · rintro ⟨⟩
      exact ⟨fun call hcall => absurd hcall List.not_mem_nil, rfl⟩
    · rintro ⟨-, rfl⟩
      rfl
  | cons call calls ih =>
    intro before offset
    rw [List.forall_mem_cons] at hcodec
    rw [callItems_cons, List.foldlM_cons, append_functionCall hcodec.1]
    split
    case isTrue hempty =>
      rw [Except.error_bind]
      constructor
      · rintro ⟨⟩
      · rintro ⟨hnames, -⟩
        exact absurd hempty (hnames call List.mem_cons_self)
    case isFalse hname =>
      rw [Except.ok_bind, appendCall_pushTurn, ih hcodec.2, List.forall_mem_cons, List.map_cons,
        List.append_assoc, List.singleton_append, and_assoc, and_iff_right hname]

theorem appendReasoning_opens (hopens : conversation.OpensReply c) {thinking : Text}
    (hthinking : thinking ≠ []) :
    InputItem.appendReasoning conversation thinking =
      conversation.pushTurn (.assistant thinking [] []) := by
  unfold InputItem.appendReasoning
  rw [if_neg hthinking]
  split
  case h_1 content calls hlast => exact absurd rfl (hopens _ _ _ hlast).1
  case h_2 => rfl

theorem appendAssistant_opens (hopens : conversation.OpensReply c) (hreasoning : c.reasoning = "")
    (folded : FoldedContent) :
    InputItem.appendAssistant conversation folded =
      conversation.pushTurn (.assistant folded.thinking folded.text folded.toolCalls) := by
  unfold InputItem.appendAssistant
  split
  case h_1 reasoning content calls hlast => exact absurd hreasoning (hopens _ _ _ hlast).2
  case h_2 => rfl

theorem appendCall_opens (hopens : conversation.OpensReply c) (hreasoning : c.reasoning = "")
    (call : ParsedToolCall) :
    InputItem.appendCall conversation call =
      InputItem.appendCall (conversation.pushTurn (.assistant [] [] [])) call := by
  rw [appendCall_pushTurn]
  unfold InputItem.appendCall
  split
  case h_1 reasoning content calls hlast => exact absurd hreasoning (hopens _ _ _ hlast).2
  case h_2 => rfl

theorem append_reasoningItem (text : String) :
    InputItem.append codec conversation (e.reasoningItem text).item =
      .ok (InputItem.appendReasoning conversation (Text.of text)) := by
  rcases htext : Text.of text with _ | ⟨head, rest⟩
  all_goals simp only [InputItem.append, Envelope.reasoningItem, OutputItem.item,
    InputItem.thinking, foldOption, Content.fold, foldParts, foldPart, FoldedContent.pushThinking,
    FoldedContent.default, htext, Except.ok_bind]
  all_goals rfl

theorem append_messageItem (text : String) :
    InputItem.append codec conversation (e.messageItem text).item =
      .ok (InputItem.appendAssistant conversation ⟨Text.of text, [], [], [], []⟩) := rfl

theorem Text.of_eq_nil_iff {s : String} : Text.of s = [] ↔ s = "" := by
  rw [Text.of, List.map_eq_nil_iff, String.toList_eq_nil_iff]

/-- A message item joins the turn its reasoning opened. -/
theorem appendAssistant_pushTurn (reasoning : Text) (text : String) :
    InputItem.appendAssistant (conversation.pushTurn (.assistant reasoning [] []))
        ⟨Text.of text, [], [], [], []⟩ =
      conversation.pushTurn (.assistant reasoning (Text.of text) []) := by
  have hreasoning : (if reasoning = [] then [] else reasoning) = reasoning := by
    split
    case isTrue h => exact h.symm
    case isFalse => rfl
  have htext : InputItem.joinPiece [] (Text.of text) = Text.of text := by
    unfold InputItem.joinPiece
    split
    case isTrue h => exact h.symm
    case isFalse => rfl
  simp only [InputItem.appendAssistant, Conversation.pushTurn, List.getLast?_concat,
    List.dropLast_concat, hreasoning, htext, List.append_nil]

/-- The items a response is served as. -/
theorem servedItems_eq (reasoning text : String) (calls : List ParsedToolCall) :
    servedItems codec e ⟨reasoning, text, calls⟩ =
      (if reasoning = "" then [] else [(e.reasoningItem reasoning).item]) ++
        ((if text ≠ "" ∨ calls = [] then [(e.messageItem text).item] else []) ++
          callItems codec e id calls) := by
  simp only [servedItems, Envelope.output, callItems, List.map_append, id, apply_ite (List.map _),
    List.map_cons, List.map_nil, List.append_assoc]

/-- Served back where a reply may start, a response is one assistant turn that
its calls join. -/
theorem append_servedItems (hcodec : ∀ call ∈ c.toolCalls, codec.RoundTrips call.arguments)
    (hopens : conversation.OpensReply c) :
    (servedItems codec e c).foldlM (InputItem.append codec) conversation =
      (callItems codec e id c.toolCalls).foldlM (InputItem.append codec)
        (conversation.pushTurn (.assistant (Text.of c.reasoning) (Text.of c.text) [])) := by
  rcases c with ⟨reasoning, text, calls⟩
  rw [servedItems_eq]
  show _ = (callItems codec e id calls).foldlM (InputItem.append codec)
    (conversation.pushTurn (.assistant (Text.of reasoning) (Text.of text) []))
  by_cases hreasoning : reasoning = ""
  · rw [if_pos hreasoning, List.nil_append, Text.of_eq_nil_iff.mpr hreasoning]
    by_cases hmessage : text ≠ "" ∨ calls = []
    · rw [if_pos hmessage, List.singleton_append, List.foldlM_cons, append_messageItem,
        Except.ok_bind, appendAssistant_opens hopens hreasoning]
    · -- nothing but calls: the first of them opens the turn
      rw [if_neg hmessage, List.nil_append]
      rw [not_or, not_not] at hmessage
      obtain ⟨htext, hcalls⟩ := hmessage
      rw [Text.of_eq_nil_iff.mpr htext]
      rcases calls with _ | ⟨call, calls⟩
      · exact absurd rfl hcalls
      · have hcall := hcodec call List.mem_cons_self
        rw [callItems_cons, List.foldlM_cons, List.foldlM_cons, append_functionCall hcall,
          append_functionCall hcall, appendCall_opens hopens hreasoning]
  · rw [if_neg hreasoning, List.singleton_append, List.foldlM_cons, append_reasoningItem,
      Except.ok_bind, appendReasoning_opens hopens (fun h => hreasoning (Text.of_eq_nil_iff.mp h))]
    by_cases hmessage : text ≠ "" ∨ calls = []
    · rw [if_pos hmessage, List.singleton_append, List.foldlM_cons, append_messageItem,
        Except.ok_bind, appendAssistant_pushTurn]
    · rw [if_neg hmessage, List.nil_append]
      rw [not_or, not_not] at hmessage
      rw [Text.of_eq_nil_iff.mpr hmessage.1]

/-! A reply that joins the assistant turn before it opens none. -/

/-- As many turns, and the last of them the assistant's. -/
def Conversation.Joins (turns : ℕ) (conversation : Conversation) : Prop :=
  ∃ before reasoning content calls,
    conversation.turns = before ++ [.assistant reasoning content calls] ∧
      before.length + 1 = turns

theorem appendCall_joins {turns : ℕ} (h : conversation.Joins turns) (call : ParsedToolCall) :
    (InputItem.appendCall conversation call).Joins turns := by
  obtain ⟨before, reasoning, content, calls, hturns, hlength⟩ := h
  refine ⟨before, reasoning, content, calls ++ [call], ?_, hlength⟩
  simp only [InputItem.appendCall, hturns, List.getLast?_concat, List.dropLast_concat]

theorem appendAssistant_joins {turns : ℕ} (h : conversation.Joins turns) (folded : FoldedContent) :
    (InputItem.appendAssistant conversation folded).Joins turns := by
  obtain ⟨before, reasoning, content, calls, hturns, hlength⟩ := h
  refine ⟨before, if reasoning = [] then folded.thinking else reasoning,
    InputItem.joinPiece content folded.text, calls ++ folded.toolCalls, ?_, hlength⟩
  simp only [InputItem.appendAssistant, hturns, List.getLast?_concat, List.dropLast_concat]

theorem append_callItems_joins {turns : ℕ} {calls : List ParsedToolCall}
    (hcodec : ∀ call ∈ calls, codec.RoundTrips call.arguments) :
    ∀ {conversation after : Conversation} {offset : ℕ → ℕ}, conversation.Joins turns →
      (callItems codec e offset calls).foldlM (InputItem.append codec) conversation = .ok after →
      after.Joins turns := by
  induction calls with
  | nil =>
    rintro conversation after offset hjoins ⟨⟩
    exact hjoins
  | cons call calls ih =>
    intro conversation after offset hjoins h
    rw [List.forall_mem_cons] at hcodec
    rw [callItems_cons, List.foldlM_cons, append_functionCall hcodec.1] at h
    split at h
    case isTrue => cases h
    case isFalse =>
      rw [Except.ok_bind] at h
      exact ih hcodec.2 (appendCall_joins hjoins _) h

/-- Where a reply may not start, the turns stay as many as they were. -/
theorem append_servedItems_joins (hcodec : ∀ call ∈ c.toolCalls, codec.RoundTrips call.arguments)
    (hopens : ¬conversation.OpensReply c) {after : Conversation}
    (h : (servedItems codec e c).foldlM (InputItem.append codec) conversation = .ok after) :
    after.turns.length = conversation.turns.length := by
  rcases c with ⟨reasoning, text, calls⟩
  simp only [Conversation.OpensReply, not_forall] at hopens
  obtain ⟨reasoning', content, calls', hlast, hboth⟩ := hopens
  obtain ⟨turns, hturns⟩ := List.getLast?_eq_some_iff.mp hlast
  have hjoins : conversation.Joins conversation.turns.length := by
    refine ⟨turns, reasoning', content, calls', hturns, ?_⟩
    rw [hturns, List.length_append, List.length_singleton]
  rw [servedItems_eq, List.foldlM_append] at h
  obtain ⟨thought, hthought, h⟩ := Except.bind_eq_ok_iff.mp h
  have hthought : thought.Joins conversation.turns.length := by
    split at hthought
    · cases hthought
      exact hjoins
    · -- the reasoning before it is empty, so this one takes its place
      rename_i hreasoning
      have hempty : reasoning' = [] := by
        by_contra hne
        exact hboth ⟨hne, hreasoning⟩
      subst hempty
      rw [List.foldlM_cons, append_reasoningItem, Except.ok_bind, List.foldlM_nil] at hthought
      cases hthought
      refine ⟨turns, Text.of reasoning, content, calls', ?_, ?_⟩
      · have hne : Text.of reasoning ≠ [] := fun hnil => hreasoning (Text.of_eq_nil_iff.mp hnil)
        simp only [InputItem.appendReasoning, hne, if_false, hturns, List.getLast?_concat,
          List.dropLast_concat]
      · rw [hturns, List.length_append, List.length_singleton]
  rw [List.foldlM_append] at h
  obtain ⟨answered, hanswered, h⟩ := Except.bind_eq_ok_iff.mp h
  have hanswered : answered.Joins conversation.turns.length := by
    split at hanswered
    · rw [List.foldlM_cons, append_messageItem, Except.ok_bind, List.foldlM_nil] at hanswered
      cases hanswered
      exact appendAssistant_joins hthought _
    · cases hanswered
      exact hthought
  obtain ⟨before, _, _, _, hafter, hlength⟩ := append_callItems_joins hcodec hanswered h
  rw [hafter, List.length_append, List.length_singleton, hlength]

/-- The names that come back as they were offered. -/
def Unsplit (namespaces : List String) (name : String) : Prop :=
  ∀ group member, splitOnce '.' name = some (group, member) → group ∉ namespaces

theorem unsplit_iff {name : String} :
    Unsplit e.namespaces name ↔ (e.splitNamespace name).2 = none := by
  constructor
  · intro h
    rcases splitNamespace_cases e name with hsame | ⟨group, member, hsplit, hgroup, -⟩
    · rw [hsame]
    · exact absurd hgroup (h group member hsplit)
  · intro h group member hsplit hgroup
    rcases splitNamespace_cases e name with hsame | ⟨_, _, _, _, hpair⟩
    · simp only [Envelope.splitNamespace, hsplit, if_pos hgroup] at hsame
      cases hsame
    · rw [hpair] at h
      cases h

/-- The calls come back as they were if no name is split. -/
theorem replayCalls_eq_iff (e : Envelope) (calls : List ParsedToolCall) :
    calls.map (replayCall e) = calls ↔ ∀ call ∈ calls, Unsplit e.namespaces call.name := by
  have hself : calls.map (replayCall e) = calls ↔ ∀ call ∈ calls, replayCall e call = id call := by
    rw [← List.map_inj_left, List.map_id]
  rw [hself]
  refine forall₂_congr fun call _ => ?_
  rw [unsplit_iff, ← replayCall_eq_iff, id]

variable {instructions system : Option String} {before : List InputItem}

/-- A Responses reply is served back as the turn it was if and only if none of
its calls was served with a namespace and it starts a turn of its own. -/
theorem responses_replays_iff (hcodec : ∀ call ∈ c.toolCalls, codec.RoundTrips call.arguments)
    (hnames : ∀ call ∈ c.toolCalls, call.name ≠ "")
    (hbefore : (⟨.items before, instructions, system, tools⟩ : ResponsesRequest).loop codec
      = .ok conversation) :
    ResponsesReplays codec instructions system tools before requestId c ↔
      (∀ call ∈ c.toolCalls, Unsplit (namespacesOf tools) call.name) ∧
        conversation.OpensReply c := by
  have hcalls := replayCalls_eq_iff ⟨requestId, namespacesOf tools⟩ c.toolCalls
  have hloop : before.foldlM (InputItem.append codec)
      (ResponsesRequest.start ⟨.items before, instructions, system, tools⟩) = .ok conversation :=
    hbefore
  constructor
  -- the reply is read back: take the conversation with nothing behind it
  · intro h
    have hreply := h conversation [] hbefore
    have hnonempty : Conversation.nonempty ResponsesRequest.empty (conversation.pushTurn c.turn)
        = .ok (conversation.pushTurn c.turn) := by
      have hne : (conversation.turns ++ [c.turn]).isEmpty = false := by
        rw [List.isEmpty_eq_false_iff]
        exact List.append_ne_nil_of_right_ne_nil _ (List.cons_ne_nil _ _)
      rw [Conversation.nonempty, Conversation.pushTurn, hne]
      rfl
    simp only [ResponsesRequest.conversation, ResponsesRequest.loop, List.append_nil,
      List.foldlM_nil] at hreply
    obtain ⟨loop, hloop', hchecked⟩ := Except.bind_eq_ok_iff.mp (hreply.trans hnonempty)
    obtain rfl := Conversation.nonempty_eq_ok hchecked
    rw [List.foldlM_append] at hloop'
    obtain ⟨asked, hasked, hserved⟩ := Except.bind_eq_ok_iff.mp hloop'
    obtain rfl : conversation = asked := Except.ok.inj (hloop.symm.trans hasked)
    -- it is the turn served only if it starts one of its own
    by_cases hopens : conversation.OpensReply c
    · refine ⟨hcalls.mp ?_, hopens⟩
      rw [append_servedItems hcodec hopens] at hserved
      obtain ⟨-, hafter⟩ := (append_callItems _ _ hcodec).mp hserved
      have hturns : conversation.turns ++ [c.turn] = conversation.turns ++
          [.assistant (Text.of c.reasoning) (Text.of c.text)
            (c.toolCalls.map (replayCall ⟨requestId, namespacesOf tools⟩))] :=
        congrArg Conversation.turns hafter
      have hturn := List.singleton_inj.mp (List.append_cancel_left hturns)
      simp only [Collected.turn, Turn.assistant.injEq] at hturn
      exact hturn.2.2.symm
    · -- the reply has joined a turn, and the conversation is one turn short
      have hlength := append_servedItems_joins hcodec hopens hserved
      rw [Conversation.pushTurn, List.length_append, List.length_singleton] at hlength
      omega
  · rintro ⟨hunsplit, hopens⟩ conversation' after request hbefore'
    obtain rfl : conversation = conversation' := Except.ok.inj (hbefore.symm.trans hbefore')
    -- conversely, the items served are read back as the turn
    have hserved : (servedItems codec ⟨requestId, namespacesOf tools⟩ c).foldlM
        (InputItem.append codec) conversation = .ok (conversation.pushTurn c.turn) := by
      rw [append_servedItems hcodec hopens]
      refine (append_callItems _ _ hcodec).mpr ⟨fun call hcall => ?_, ?_⟩
      · have hsame : replayCall ⟨requestId, namespacesOf tools⟩ call = call :=
          replayCall_eq_iff.mpr (unsplit_iff.mp (hunsplit call hcall))
        exact fun hempty => hnames call hcall
          ((congrArg ParsedToolCall.name hsame).symm.trans hempty)
      · rw [hcalls.mpr hunsplit]
        rfl
    show ((before ++ _ ++ after).foldlM (InputItem.append codec) (request before).start) >>= _ = _
    have hloop' : before.foldlM (InputItem.append codec) (request before).start =
        .ok conversation := hloop
    rw [List.foldlM_append, List.foldlM_append, hloop', Except.ok_bind, hserved, Except.ok_bind]

/-- A completed generation served back is the turn it was, in all three dialects,
if and only if no call of it was served with a namespace and, of Responses, it
starts a turn of its own behind the items before it. -/
theorem replay_reconstructs_iff (hcodec : ∀ call ∈ c.toolCalls, codec.RoundTrips call.arguments)
    (hnames : ∀ call ∈ c.toolCalls, call.name ≠ "")
    (hbefore : (⟨.items before, instructions, system, tools⟩ : ResponsesRequest).loop codec
      = .ok conversation) :
    MessagesReplays codec requestId c ∧ ChatReplays codec requestId c ∧
        ResponsesReplays codec instructions system tools before requestId c ↔
      (∀ call ∈ c.toolCalls, Unsplit (namespacesOf tools) call.name) ∧
        conversation.OpensReply c := by
  rw [and_iff_right messages_replays, and_iff_right (chat_replays hcodec hnames)]
  exact responses_replays_iff hcodec hnames hbefore

end Replaying

/-- A question, which a reply may follow. -/
def askingItem : InputItem :=
  ⟨some "message", some "user", some (.text "?"), none, none, none, none⟩

/-- The beginning of an answer, which a reply joins. -/
def partialItem : InputItem :=
  ⟨some "message", some "assistant", some (.text "Well,"), none, none, none, none⟩

/-- A group `fs` that holds a tool `search`. -/
def searchTools : List Json :=
  [.object [("type", .string "namespace"), ("name", .string "fs"),
    ("tools", .array [.object [("name", .string "search")]])]]

/-- JSON, as far as the empty object. -/
def emptyCodec : Codec where
  parse := fun text => if text = "\x7b\x7d" then some (.object []) else none
  spell := fun value =>
    match value with
    | .object [] => "\x7b\x7d"
    | _ => ""
  prompt := fun _ => "\x7b\x7d"
  decode := fun _ => .error "no image"

theorem emptyCodec_roundTrips : emptyCodec.RoundTrips [] where
  parse_spell := rfl
  not_blank := rfl

/-- A reply that calls `search` flat, beside a group that has one, comes back
behind a question but not behind the beginning of an answer. -/
theorem replay_reconstructs_witness :
    (MessagesReplays emptyCodec 0 ⟨"hm", "ok", [⟨"search", []⟩]⟩ ∧
      ChatReplays emptyCodec 0 ⟨"hm", "ok", [⟨"search", []⟩]⟩ ∧
      ResponsesReplays emptyCodec none none searchTools [askingItem] 0
        ⟨"hm", "ok", [⟨"search", []⟩]⟩) ∧
      ¬(MessagesReplays emptyCodec 0 ⟨"hm", "ok", [⟨"search", []⟩]⟩ ∧
        ChatReplays emptyCodec 0 ⟨"hm", "ok", [⟨"search", []⟩]⟩ ∧
        ResponsesReplays emptyCodec none none searchTools [askingItem, partialItem] 0
          ⟨"hm", "ok", [⟨"search", []⟩]⟩) := by
  have hcodec : ∀ call ∈ [(⟨"search", []⟩ : ParsedToolCall)],
      emptyCodec.RoundTrips call.arguments := by
    simp only [List.mem_singleton, forall_eq]
    exact emptyCodec_roundTrips
  have hnames : ∀ call ∈ [(⟨"search", []⟩ : ParsedToolCall)], call.name ≠ "" := by
    simp only [List.mem_singleton, forall_eq]
    decide
  refine ⟨(replay_reconstructs_iff hcodec hnames rfl).mpr ⟨?_, by rintro _ _ _ ⟨⟩⟩, fun h => ?_⟩
  · simp only [List.mem_singleton, forall_eq]
    rintro group member ⟨⟩
  · obtain ⟨-, hopens⟩ := (replay_reconstructs_iff hcodec hnames rfl).mp h
    exact (hopens [] (Text.of "Well,") [] rfl).1 rfl

/-- The group's tool is offered as `fs.search` and comes back as `search`. -/
theorem namespace_lost_on_replay :
    (OfferedTools.fromResponses searchTools).map (·.definitions.map (·.name)) = .ok ["fs.search"] ∧
      ¬ResponsesReplays emptyCodec none none searchTools [askingItem] 0
        ⟨"", "", [⟨"fs.search", []⟩]⟩ := by
  refine ⟨rfl, ?_⟩
  have hcodec : ∀ call ∈ [(⟨"fs.search", []⟩ : ParsedToolCall)],
      emptyCodec.RoundTrips call.arguments := by
    simp only [List.mem_singleton, forall_eq]
    exact emptyCodec_roundTrips
  have hnames : ∀ call ∈ [(⟨"fs.search", []⟩ : ParsedToolCall)], call.name ≠ "" := by
    simp only [List.mem_singleton, forall_eq]
    decide
  rw [responses_replays_iff hcodec hnames rfl]
  rintro ⟨hunsplit, -⟩
  exact hunsplit _ List.mem_cons_self "fs" "search" rfl (by decide)
