/-
When a Responses stream agrees with its body.

The chunks of a generation are its reasoning, then text and tool calls in any
order (`Delivered`).  `ResponsesLoop.Tracks` relates the loop to the client that
has read its events, as long as no text follows a call.  Otherwise the message
opens behind a call, where no body has it.

* `responses_agrees_iff`: the stream agrees if and only if no text follows a
  call, and there is a text or a call at all.
-/
import Llmxabe.Server.Streams

/-- The chunks a generation may deliver: no piece of text is empty. -/
structure Delivered (reasonings : List String) (answer : List Chunk) : Prop where
  reasonings : ∀ words ∈ reasonings, words ≠ ""
  answered : ∀ chunk ∈ answer, ∀ words, chunk ≠ .reasoning words
  texts : ∀ words, .text words ∈ answer → words ≠ ""

/-- No text follows a call. -/
def TextsFirst (answer : List Chunk) : Prop :=
  ∃ (texts : List String) (calls : List ParsedToolCall),
    answer = texts.map Chunk.text ++ calls.map Chunk.toolCall

/-! ### The ids of items -/

section Ids

variable {e : Envelope}

theorem prefix_ne {s t : String} (a b : String) (hne : a.toList.head? ≠ b.toList.head?)
    (ha : a.toList ≠ []) (hb : b.toList ≠ []) : a ++ s ≠ b ++ t := by
  intro heq
  have hlist := congrArg (fun x => x.toList.head?) heq
  simp only [String.toList_append, List.head?_append_of_ne_nil _ ha,
    List.head?_append_of_ne_nil _ hb] at hlist
  exact hne hlist

theorem reasoningItemId_ne_message : e.reasoningItemId ≠ e.messageItemId :=
  prefix_ne "rs_" "msg_" (by decide) (by decide) (by decide)

theorem functionCallItemId_eq (e : Envelope) (index : ℕ) :
    e.functionCallItemId index = "fc_" ++ (e.stem ++ ("_" ++ toString index)) := by
  rw [Envelope.functionCallItemId, String.append_assoc, String.append_assoc]

theorem functionCallItemId_ne_reasoning (index : ℕ) :
    e.functionCallItemId index ≠ e.reasoningItemId := by
  rw [functionCallItemId_eq]
  exact prefix_ne "fc_" "rs_" (by decide) (by decide) (by decide)

theorem functionCallItemId_ne_message (index : ℕ) :
    e.functionCallItemId index ≠ e.messageItemId := by
  rw [functionCallItemId_eq]
  exact prefix_ne "fc_" "msg_" (by decide) (by decide) (by decide)

/-- An id made of a number tells the numbers apart. -/
theorem numbered_inj (stem : String) {i j : ℕ}
    (h : stem ++ toString i = stem ++ toString j) : i = j := by
  have hdigits := congrArg String.toList h
  rw [String.toList_append, String.toList_append, List.append_cancel_left_eq,
    Nat.toString_eq_ofList_toDigits, Nat.toString_eq_ofList_toDigits, String.toList_ofList,
    String.toList_ofList] at hdigits
  have hvalue := congrArg (fun digits => Nat.ofDigitChars 10 digits 0) hdigits
  simp only [Nat.ofDigitChars_toDigits (by decide : 1 < 10) le_rfl] at hvalue
  exact hvalue

theorem numbered_nodup {α : Type} (stem : String) (l : List α) :
    (l.mapIdx fun index _ => stem ++ toString index).Nodup := by
  refine List.nodup_iff_getElem?_ne_getElem?.mpr fun i j hij hj => ?_
  rw [List.length_mapIdx] at hj
  rw [List.getElem?_mapIdx, List.getElem?_mapIdx, List.getElem?_eq_getElem (by omega),
    List.getElem?_eq_getElem hj]
  intro heq
  have hindex := numbered_inj stem (Option.some.inj heq)
  omega

end Ids

/-! ### The Responses client follows its loop -/

namespace ResponsesLoop

variable {spell : JsonMap → String} {e : Envelope} {s : ResponsesLoop} {c : ResponsesClient}

/-- The item that is open, as it would be closed now. -/
def held (e : Envelope) (s : ResponsesLoop) : Option OutputItem :=
  match s.opened with
  | some .reasoning => some (e.reasoningItem s.reasoning)
  | some .message => some (e.messageItem s.text)
  | none => none

/-- The items of everything so far, in the order of a body. -/
def served (spell : JsonMap → String) (e : Envelope) (s : ResponsesLoop) : List OutputItem :=
  (if s.reasoning = "" then [] else [e.reasoningItem s.reasoning]) ++
    (if s.text = "" then [] else [e.messageItem s.text]) ++
    s.calls.mapIdx fun index call => e.functionCallItem spell index call "completed"

/-- The client has what the loop has sent. -/
structure Holds (e : Envelope) (s : ResponsesLoop) (c : ResponsesClient) : Prop where
  index : s.outputIndex = c.closed.length
  opened : c.opened = (s.held e).map fun item => (item.id, item.content)
  response : c.response = none

theorem Holds.closeItem (h : s.Holds e c) :
    (s.closeItem e).1.foldlM ResponsesClient.read c
        = some ⟨c.closed ++ (s.held e).toList, none, none⟩ ∧
      (s.closeItem e).2 = { s with outputIndex := (c.closed ++ (s.held e).toList).length } := by
  obtain ⟨closed, opened, response⟩ := c
  obtain ⟨reasoning, text, calls, outputIndex, kind⟩ := s
  obtain ⟨hindex, hopened, hresponse⟩ := h
  simp only at hindex hopened hresponse
  subst hindex hopened hresponse
  match kind with
  | none => simp [ResponsesLoop.closeItem, held]
  | some .reasoning =>
    simp [ResponsesLoop.closeItem, held, ResponsesClient.read, ResponsesClient.holding,
      Envelope.reasoningItem, OutputItem.id, OutputItem.content]
  | some .message =>
    simp [ResponsesLoop.closeItem, held, ResponsesClient.read, ResponsesClient.holding,
      Envelope.messageItem, OutputItem.id, OutputItem.content]

/-- Turning to another kind closes the open item and opens one of that kind. -/
theorem Holds.turnTo (h : s.Holds e c) {kind : Option OpenItem} (hne : s.opened ≠ kind)
    (hreasoning : kind = some .reasoning → s.reasoning = "")
    (htext : kind = some .message → s.text = "") :
    ∃ c', (s.turnTo e kind).1.foldlM ResponsesClient.read c = some c' ∧
      c'.closed = c.closed ++ (s.held e).toList ∧ (s.turnTo e kind).2.Holds e c' ∧
      (s.turnTo e kind).2 = { s with outputIndex := c'.closed.length, opened := kind } := by
  obtain ⟨hread, hloop⟩ := h.closeItem
  have hturn : s.turnTo e kind
      = ((s.closeItem e).1 ++ openEvents e kind (s.closeItem e).2,
        { (s.closeItem e).2 with opened := kind }) := if_neg hne
  rw [hturn, List.foldlM_append, hread, hloop]
  set closed := c.closed ++ (s.held e).toList with hclosed
  match kind, hreasoning, htext with
  | none, _, _ => exact ⟨⟨closed, none, none⟩, rfl, rfl, ⟨rfl, rfl, rfl⟩, rfl⟩
  | some .reasoning, hreasoning, _ =>
    refine ⟨⟨closed, some (e.reasoningItemId, ""), none⟩, ?_, rfl, ⟨rfl, ?_, rfl⟩, rfl⟩
    · simp [openEvents, ResponsesClient.read, OutputItem.id]
    · simp [held, Envelope.reasoningItem, OutputItem.id, OutputItem.content, hreasoning rfl]
  | some .message, _, htext =>
    refine ⟨⟨closed, some (e.messageItemId, ""), none⟩, ?_, rfl, ⟨rfl, ?_, rfl⟩, rfl⟩
    · simp [openEvents, ResponsesClient.read, ResponsesClient.holding, OutputItem.id]
    · simp [held, Envelope.messageItem, OutputItem.id, OutputItem.content, htext rfl]

/-- A delta of the open item is added to it. -/
theorem Holds.delta (spell : JsonMap → String) (h : s.Holds e c) {chunk : Chunk}
    (hkind : s.opened = chunk.openItem)
    (hsome : chunk.openItem ≠ none) :
    ∃ c', (s.emit spell e chunk).1.foldlM ResponsesClient.read c = some c' ∧
      c'.closed = c.closed ∧ (s.emit spell e chunk).2.Holds e c' := by
  obtain ⟨reasoning, text, calls, outputIndex, kind⟩ := s
  obtain ⟨closed, opened, response⟩ := c
  obtain ⟨hindex, hopened, hresponse⟩ := h
  simp only at hindex hopened hresponse hkind
  subst hkind hindex hopened hresponse
  match chunk, hsome with
  | .reasoning words, _ =>
    refine ⟨⟨closed, some (e.reasoningItemId, reasoning ++ words), none⟩, ?_, rfl, rfl, ?_, rfl⟩
    · simp [emit, ResponsesClient.read, ResponsesClient.holding, held, Chunk.openItem,
        Envelope.reasoningItem, OutputItem.id, OutputItem.content]
    · simp [emit, held, Chunk.openItem, Envelope.reasoningItem, OutputItem.id, OutputItem.content]
  | .text words, _ =>
    refine ⟨⟨closed, some (e.messageItemId, text ++ words), none⟩, ?_, rfl, rfl, ?_, rfl⟩
    · simp [emit, ResponsesClient.read, ResponsesClient.holding, held, Chunk.openItem,
        Envelope.messageItem, OutputItem.id, OutputItem.content]
    · simp [emit, held, Chunk.openItem, Envelope.messageItem, OutputItem.id, OutputItem.content]
  | .toolCall _, hsome => exact absurd rfl hsome

/-- A call is an item of its own. -/
theorem Holds.call (spell : JsonMap → String) (h : s.Holds e c) (hnone : s.opened = none)
    (call : ParsedToolCall) :
    ∃ c', (s.emit spell e (.toolCall call)).1.foldlM ResponsesClient.read c = some c' ∧
      c'.closed = c.closed ++ [e.functionCallItem spell s.calls.length call "completed"] ∧
      (s.emit spell e (.toolCall call)).2.Holds e c' := by
  obtain ⟨reasoning, text, calls, outputIndex, kind⟩ := s
  obtain ⟨closed, opened, response⟩ := c
  obtain ⟨hindex, hopened, hresponse⟩ := h
  simp only at hindex hopened hresponse hnone
  subst hnone hindex hopened hresponse
  refine ⟨⟨closed ++ [e.functionCallItem spell calls.length call "completed"], none, none⟩, ?_,
    rfl, ?_, rfl, rfl⟩
  · simp [emit, ResponsesClient.read, ResponsesClient.holding, held, Envelope.functionCallItem,
      OutputItem.id, OutputItem.content]
  · simp [emit]

/-- The client has what the loop has sent, and it is in the order of a body. -/
structure Tracks (spell : JsonMap → String) (e : Envelope) (s : ResponsesLoop)
    (c : ResponsesClient) : Prop where
  holds : s.Holds e c
  items : c.closed ++ (s.held e).toList = s.served spell e
  idle : s.opened = none → s.calls = [] → s.reasoning = "" ∧ s.text = ""
  thinking : s.opened = some .reasoning → s.reasoning ≠ "" ∧ s.text = "" ∧ s.calls = []
  answering : s.opened = some .message → s.text ≠ "" ∧ s.calls = []

/-- No body has the chunk behind what has been sent. -/
def Admits (s : ResponsesLoop) : Chunk → Prop
  | .reasoning words => words ≠ "" ∧ s.text = "" ∧ s.calls = []
  | .text words => words ≠ "" ∧ s.calls = []
  | .toolCall _ => True

theorem append_ne_empty {s t : String} (h : t ≠ "") : s ++ t ≠ "" :=
  fun happend => h (String.append_eq_empty_iff.mp happend).2

/-- The events of one chunk, and the loop behind them. -/
def sent (spell : JsonMap → String) (e : Envelope) (s : ResponsesLoop) (chunk : Chunk) :
    List ResponsesEvent × ResponsesLoop :=
  let turned := s.turnTo e chunk.openItem
  let emitted := turned.2.emit spell e chunk
  (turned.1 ++ emitted.1, emitted.2)

theorem loop_cons (chunk : Chunk) (chunks : List Chunk) : s.loop spell e (chunk :: chunks)
    = ((s.sent spell e chunk).1 ++ ((s.sent spell e chunk).2.loop spell e chunks).1,
      ((s.sent spell e chunk).2.loop spell e chunks).2) := rfl

/-- A chunk extends the open item, or closes it and opens one of its kind. -/
theorem Holds.sent_delta (spell : JsonMap → String) (h : s.Holds e c) (chunk : Chunk)
    (hsome : chunk.openItem ≠ none)
    (hreasoning : s.opened ≠ some .reasoning → chunk.openItem = some .reasoning → s.reasoning = "")
    (htext : s.opened ≠ some .message → chunk.openItem = some .message → s.text = "") :
    ∃ c', (s.sent spell e chunk).1.foldlM ResponsesClient.read c = some c' ∧
      c'.closed = (if s.opened = chunk.openItem then c.closed
        else c.closed ++ (s.held e).toList) ∧
      (s.sent spell e chunk).2.Holds e c' := by
  by_cases hkind : s.opened = chunk.openItem
  · obtain ⟨c', hread, hclosed, hholds⟩ := h.delta spell hkind hsome
    have hturn : s.turnTo e chunk.openItem = ([], s) := if_pos hkind
    rw [sent, hturn, if_pos hkind]
    exact ⟨c', hread, hclosed, hholds⟩
  · obtain ⟨c', hread, hclosed, hholds, hloop⟩ := h.turnTo hkind
      (fun heq => hreasoning (heq ▸ hkind) heq) (fun heq => htext (heq ▸ hkind) heq)
    have hopened : (s.turnTo e chunk.openItem).2.opened = chunk.openItem := by rw [hloop]
    obtain ⟨c'', hread', hclosed', hholds'⟩ := hholds.delta spell hopened hsome
    rw [if_neg hkind]
    refine ⟨c'', ?_, hclosed'.trans hclosed, hholds'⟩
    rw [sent, List.foldlM_append, hread]
    exact hread'

/-- What a chunk adds to what the loop keeps. -/
def keeps (s : ResponsesLoop) (outputIndex : ℕ) : Chunk → ResponsesLoop
  | .reasoning words => ⟨s.reasoning ++ words, s.text, s.calls, outputIndex, some .reasoning⟩
  | .text words => ⟨s.reasoning, s.text ++ words, s.calls, outputIndex, some .message⟩
  | .toolCall call => ⟨s.reasoning, s.text, s.calls ++ [call], outputIndex, none⟩

theorem sent_keeps (chunk : Chunk) :
    ∃ outputIndex, (s.sent spell e chunk).2 = s.keeps outputIndex chunk := by
  have hturn : ∃ outputIndex, (s.turnTo e chunk.openItem).2
      = { s with outputIndex, opened := chunk.openItem } := by
    rw [turnTo]
    split
    · rename_i hkind
      exact ⟨s.outputIndex, by rw [← hkind]⟩
    · rw [closeItem]
      split
      · exact ⟨_, rfl⟩
      · exact ⟨_, rfl⟩
      · exact ⟨_, rfl⟩
  obtain ⟨outputIndex, hturn⟩ := hturn
  rw [sent]
  simp only
  rw [hturn]
  cases chunk with
  | reasoning words => exact ⟨outputIndex, rfl⟩
  | text words => exact ⟨outputIndex, rfl⟩
  | toolCall call => exact ⟨outputIndex + 1, rfl⟩

/-- Nothing but the open item has been sent of reasoning. -/
theorem Tracks.closed_of_thinking (h : s.Tracks spell e c) (hkind : s.opened = some .reasoning) :
    c.closed = [] := by
  obtain ⟨hreasoning, htext, hcalls⟩ := h.thinking hkind
  have hitems := h.items
  rw [served, held, hkind, if_neg hreasoning, if_pos htext, hcalls] at hitems
  have hlength := congrArg List.length hitems
  rw [List.length_append] at hlength
  exact List.length_eq_zero_iff.mp (Nat.add_right_cancel hlength)

theorem Tracks.closed_of_idle (h : s.Tracks spell e c) (hkind : s.opened = none)
    (hcalls : s.calls = []) : c.closed = [] := by
  obtain ⟨hreasoning, htext⟩ := h.idle hkind hcalls
  have hitems := h.items
  rw [served, held, hkind, if_pos hreasoning, if_pos htext, hcalls, Option.toList_none,
    List.append_nil] at hitems
  exact hitems

theorem Tracks.closed_of_answering (h : s.Tracks spell e c) (hkind : s.opened = some .message) :
    c.closed = if s.reasoning = "" then [] else [e.reasoningItem s.reasoning] := by
  obtain ⟨htext, hcalls⟩ := h.answering hkind
  have hitems := h.items
  rw [served, held, hkind, if_neg htext, hcalls] at hitems
  exact List.append_cancel_right (hitems.trans (List.append_nil _))

theorem Tracks.sent (h : s.Tracks spell e c) {chunk : Chunk} (hallowed : s.Admits chunk) :
    ∃ c', (s.sent spell e chunk).1.foldlM ResponsesClient.read c = some c' ∧
      (s.sent spell e chunk).2.Tracks spell e c' := by
  obtain ⟨outputIndex, hkeeps⟩ := @sent_keeps spell e s chunk
  cases chunk with
  | reasoning words =>
    obtain ⟨hne, htext, hcalls⟩ := hallowed
    have hmore := @append_ne_empty s.reasoning words hne
    -- reasoning comes first, so an open item is the reasoning
    have hopened : s.opened = none ∨ s.opened = some .reasoning := by
      rcases hkind : s.opened with _ | kind
      · exact Or.inl rfl
      · cases kind with
        | reasoning => exact Or.inr rfl
        | message => exact absurd htext (h.answering hkind).1
    obtain ⟨c', hread, hclosed, hholds⟩ := h.holds.sent_delta spell
      (.reasoning words) (fun heq => by cases heq)
      (fun hkind _ => (h.idle (hopened.resolve_right hkind) hcalls).1) (fun _ heq => by cases heq)
    -- nothing before the reasoning was ever closed
    have hempty : c'.closed = [] := by
      rw [hclosed]
      split
      · rename_i hkind
        exact h.closed_of_thinking hkind
      · rename_i hkind
        have hnone := hopened.resolve_right hkind
        rw [h.closed_of_idle hnone hcalls, held, hnone]
        rfl
    refine ⟨c', hread, hholds, ?_, ?_, ?_, ?_⟩
    · rw [hkeeps, hempty, keeps, served, held, if_neg hmore, if_pos htext, hcalls]
      rfl
    · rw [hkeeps]
      exact fun hnone => by cases hnone
    · rw [hkeeps]
      exact fun _ => ⟨hmore, htext, hcalls⟩
    · rw [hkeeps]
      exact fun hmessage => by cases hmessage
  | text words =>
    obtain ⟨hne, hcalls⟩ := hallowed
    have hmore := @append_ne_empty s.text words hne
    obtain ⟨c', hread, hclosed, hholds⟩ := h.holds.sent_delta spell
      (.text words) (fun heq => by cases heq) (fun _ heq => by cases heq) (fun hkind _ => by
        rcases hopened : s.opened with _ | kind
        · exact (h.idle hopened hcalls).2
        · cases kind with
          | reasoning => exact (h.thinking hopened).2.1
          | message => exact absurd hopened hkind)
    -- of what comes before the text only the reasoning has been closed
    have hbefore : c'.closed = if s.reasoning = "" then [] else [e.reasoningItem s.reasoning] := by
      rw [hclosed]
      split
      · rename_i hkind
        exact h.closed_of_answering hkind
      · rename_i hkind
        rcases hopened : s.opened with _ | kind
        · rw [h.closed_of_idle hopened hcalls, held, hopened, if_pos (h.idle hopened hcalls).1]
          rfl
        · cases kind with
          | reasoning =>
            rw [h.closed_of_thinking hopened, held, hopened, if_neg (h.thinking hopened).1]
            rfl
          | message => exact absurd hopened hkind
    refine ⟨c', hread, hholds, ?_, ?_, ?_, ?_⟩
    · rw [hkeeps, hbefore, keeps, served, held, if_neg hmore, hcalls]
      exact (List.append_nil _).symm
    · rw [hkeeps]
      exact fun hnone => by cases hnone
    · rw [hkeeps]
      exact fun hthinking => by cases hthinking
    · rw [hkeeps]
      exact fun _ => ⟨hmore, hcalls⟩
  | toolCall call =>
    -- whatever is open is closed first
    have hturned : ∃ c', (s.turnTo e none).1.foldlM ResponsesClient.read c = some c' ∧
        c'.closed = s.served spell e ∧ (s.turnTo e none).2.Holds e c' ∧
        (s.turnTo e none).2.opened = none ∧ (s.turnTo e none).2.calls = s.calls := by
      by_cases hkind : s.opened = none
      · have hturn : s.turnTo e none = ([], s) := if_pos hkind
        have hitems := h.items
        rw [held, hkind, Option.toList_none, List.append_nil] at hitems
        rw [hturn]
        exact ⟨c, rfl, hitems, h.holds, hkind, rfl⟩
      · obtain ⟨c', hread, hclosed, hholds, hloop⟩ :=
          h.holds.turnTo hkind (fun heq => by cases heq) (fun heq => by cases heq)
        exact ⟨c', hread, hclosed.trans h.items, hholds, by rw [hloop], by rw [hloop]⟩
    obtain ⟨c', hread, hclosed, hholds, hnone, hcalls⟩ := hturned
    obtain ⟨c'', hread', hclosed', hholds'⟩ := hholds.call spell hnone call
    refine ⟨c'', ?_, hholds', ?_, ?_, ?_, ?_⟩
    · rw [ResponsesLoop.sent, List.foldlM_append]
      exact (congrArg (· >>= _) hread).trans hread'
    · have hheld : (s.keeps outputIndex (.toolCall call)).held e = none := rfl
      rw [hkeeps, hheld, Option.toList_none, List.append_nil, hclosed', hclosed, hcalls, keeps,
        served, served, List.mapIdx_concat, List.append_assoc]
    · rw [hkeeps]
      exact fun _ hnil => absurd hnil (List.append_ne_nil_of_right_ne_nil _ (List.cons_ne_nil _ _))
    · rw [hkeeps]
      exact fun hthinking => by cases hthinking
    · rw [hkeeps]
      exact fun hmessage => by cases hmessage

/-- The loop accumulates what a non-streaming response collects. -/
theorem loop_collects : ∀ (chunks : List Chunk) (s : ResponsesLoop),
    (⟨(s.loop spell e chunks).2.reasoning, (s.loop spell e chunks).2.text,
        (s.loop spell e chunks).2.calls⟩ : Collected)
      = chunks.foldl Collected.push ⟨s.reasoning, s.text, s.calls⟩
  | [], s => by
    rw [loop, turnTo]
    split
    · rfl
    · rw [closeItem]
      split
      · rfl
      · rfl
      · rfl
  | chunk :: chunks, s => by
    obtain ⟨outputIndex, hkeeps⟩ := @sent_keeps spell e s chunk
    rw [loop_cons, List.foldl_cons]
    refine (loop_collects chunks _).trans ?_
    rw [hkeeps]
    cases chunk with
    | reasoning _ => rfl
    | text _ => rfl
    | toolCall _ => rfl

/-- The client ends with everything, in the order of a body. -/
def Ends (spell : JsonMap → String) (e : Envelope) (s : ResponsesLoop) (c : ResponsesClient)
    (chunks : List Chunk) : Prop :=
  (s.loop spell e chunks).1.foldlM ResponsesClient.read c
    = some ⟨(s.loop spell e chunks).2.served spell e, none, none⟩

theorem Tracks.ends_nil (h : s.Tracks spell e c) : Ends spell e s c [] := by
  rw [Ends, loop]
  by_cases hkind : s.opened = none
  · have hturn : s.turnTo e none = ([], s) := if_pos hkind
    obtain ⟨closed, opened, response⟩ := c
    obtain ⟨⟨-, hopened, hresponse⟩, hitems, -⟩ := h
    simp only [held, hkind, Option.toList_none, List.append_nil, Option.map_none] at hitems hopened
    rw [hturn, ← hitems, hopened, show response = none from hresponse]
    rfl
  · obtain ⟨c', hread, hclosed, hholds, hloop⟩ :=
      h.holds.turnTo hkind (fun heq => by cases heq) (fun heq => by cases heq)
    obtain ⟨closed, opened, response⟩ := c'
    obtain ⟨-, hopened, hresponse⟩ := hholds
    have hnone : (s.turnTo e none).2.opened = none := by rw [hloop]
    simp only [held, hnone, Option.map_none] at hopened
    have hserved : (s.turnTo e none).2.served spell e = closed := by
      rw [hloop]
      exact (hclosed.trans h.items).symm
    rw [hread, hserved, hopened, show response = none from hresponse]

theorem Tracks.ends_cons (h : s.Tracks spell e c) {chunk : Chunk} {chunks : List Chunk}
    (hallowed : s.Admits chunk)
    (hrest : ∀ c', (s.sent spell e chunk).2.Tracks spell e c' →
      Ends spell e (s.sent spell e chunk).2 c' chunks) : Ends spell e s c (chunk :: chunks) := by
  obtain ⟨c', hread, htracks⟩ := h.sent hallowed
  rw [Ends, loop_cons, List.foldlM_append, hread]
  exact hrest c' htracks

theorem Tracks.ends_calls : ∀ (calls : List ParsedToolCall) {s : ResponsesLoop}
    {c : ResponsesClient}, s.Tracks spell e c → Ends spell e s c (calls.map .toolCall)
  | [], _, _, h => h.ends_nil
  | _ :: calls, _, _, h => h.ends_cons trivial fun _ h' => h'.ends_calls calls

theorem Tracks.ends_texts (calls : List ParsedToolCall) :
    ∀ (texts : List String) {s : ResponsesLoop} {c : ResponsesClient}, s.Tracks spell e c →
      s.calls = [] → (∀ words ∈ texts, words ≠ "") →
      Ends spell e s c (texts.map .text ++ calls.map .toolCall)
  | [], _, _, h, _, _ => h.ends_calls calls
  | words :: texts, s, _, h, hcalls, htexts => by
    obtain ⟨hne, htexts⟩ := List.forall_mem_cons.mp htexts
    obtain ⟨outputIndex, hkeeps⟩ := @sent_keeps spell e s (.text words)
    refine h.ends_cons ⟨hne, hcalls⟩ fun _ h' => h'.ends_texts calls texts ?_ htexts
    rw [hkeeps]
    exact hcalls

theorem Tracks.ends_reasonings (texts : List String) (calls : List ParsedToolCall)
    (htexts : ∀ words ∈ texts, words ≠ "") :
    ∀ (reasonings : List String) {s : ResponsesLoop} {c : ResponsesClient}, s.Tracks spell e c →
      s.text = "" → s.calls = [] → (∀ words ∈ reasonings, words ≠ "") →
      Ends spell e s c (reasonings.map .reasoning ++ (texts.map .text ++ calls.map .toolCall))
  | [], _, _, h, _, hcalls, _ => h.ends_texts calls texts hcalls htexts
  | words :: reasonings, s, _, h, htext, hcalls, hreasonings => by
    obtain ⟨hne, hreasonings⟩ := List.forall_mem_cons.mp hreasonings
    obtain ⟨outputIndex, hkeeps⟩ := @sent_keeps spell e s (.reasoning words)
    refine h.ends_cons ⟨hne, htext, hcalls⟩ fun _ h' =>
      h'.ends_reasonings texts calls htexts reasonings ?_ ?_ hreasonings
    · rw [hkeeps]
      exact htext
    · rw [hkeeps]
      exact hcalls

theorem Tracks.start : start.Tracks spell e ResponsesClient.start :=
  ⟨⟨rfl, rfl, rfl⟩, rfl, fun _ _ => ⟨rfl, rfl⟩, (fun h => by cases h), (fun h => by cases h)⟩

end ResponsesLoop

/-! ### What a body is -/

theorem List.map_mapIdx' {α β γ : Type} (f : ℕ → α → β) (g : β → γ) (l : List α) :
    (l.mapIdx f).map g = l.mapIdx fun i a => g (f i a) := by
  refine List.ext_getElem? fun i => ?_
  rw [List.getElem?_map, List.getElem?_mapIdx, List.getElem?_mapIdx, Option.map_map]
  rfl

section Bodies

variable {spell : JsonMap → String} {e : Envelope}

theorem mem_callIds {id : String} {calls : List ParsedToolCall} :
    id ∈ (calls.mapIdx fun index call =>
        (e.functionCallItem spell index call "completed").id) → ∃ i, id = e.functionCallItemId i := by
  intro hmem
  obtain ⟨i, _, hi⟩ := List.mem_mapIdx.mp hmem
  exact ⟨i, hi.symm⟩

/-- The ids of a body: reasoning, the message, the calls. -/
theorem output_ids (c : Collected) : (e.output spell c).map OutputItem.id
    = (if c.reasoning = "" then [] else [e.reasoningItemId]) ++
      ((if c.text ≠ "" ∨ c.toolCalls = [] then [e.messageItemId] else []) ++
        c.toolCalls.mapIdx fun index call =>
          (e.functionCallItem spell index call "completed").id) := by
  rw [Envelope.output, List.map_append, List.map_append, List.map_mapIdx', List.append_assoc,
    apply_ite (List.map OutputItem.id), apply_ite (List.map OutputItem.id)]
  rfl

theorem output_ids_nodup (c : Collected) : ((e.output spell c).map OutputItem.id).Nodup := by
  rw [output_ids]
  refine List.nodup_append.mpr ⟨?_, List.nodup_append.mpr ⟨?_, ?_, ?_⟩, ?_⟩
  · split
    · exact List.nodup_nil
    · exact List.nodup_singleton _
  · split
    · exact List.nodup_singleton _
    · exact List.nodup_nil
  · exact numbered_nodup ("fc_" ++ e.stem ++ "_") c.toolCalls
  · intro a ha b hb
    obtain ⟨i, rfl⟩ := mem_callIds hb
    split at ha
    · rw [List.mem_singleton.mp ha]
      exact (functionCallItemId_ne_message i).symm
    · cases ha
  · intro a ha b hb
    split at ha
    · cases ha
    · rw [List.mem_singleton.mp ha]
      rcases List.mem_append.mp hb with hb | hb
      · split at hb
        · rw [List.mem_singleton.mp hb]
          exact reasoningItemId_ne_message
        · cases hb
      · obtain ⟨i, rfl⟩ := mem_callIds hb
        exact (functionCallItemId_ne_reasoning i).symm

/-- No body has its message behind a call. -/
theorem call_before_message (c : Collected) (i : ℕ) :
    ¬[e.functionCallItemId i, e.messageItemId].Sublist ((e.output spell c).map OutputItem.id) := by
  intro hsub
  have hordered : ((e.output spell c).map OutputItem.id).Pairwise
      fun a b => b = e.messageItemId → ∀ i, a ≠ e.functionCallItemId i := by
    rw [output_ids]
    refine List.pairwise_append.mpr ⟨?_, List.pairwise_append.mpr ⟨?_, ?_, ?_⟩, ?_⟩
    · split
      · exact List.Pairwise.nil
      · exact List.pairwise_singleton _ _
    · split
      · exact List.pairwise_singleton _ _
      · exact List.Pairwise.nil
    · refine List.pairwise_of_forall_mem_list fun a _ b hb hmessage => ?_
      obtain ⟨j, rfl⟩ := mem_callIds hb
      exact absurd hmessage (functionCallItemId_ne_message j)
    · intro a ha b hb hmessage
      obtain ⟨j, rfl⟩ := mem_callIds hb
      exact absurd hmessage (functionCallItemId_ne_message j)
    · intro a ha b _ _ j
      split at ha
      · cases ha
      · rw [List.mem_singleton.mp ha]
        exact (functionCallItemId_ne_reasoning j).symm
  have hpair := hordered.sublist hsub
  exact List.rel_of_pairwise_cons hpair (List.mem_singleton_self _) rfl i rfl

end Bodies

/-! ### The order in which items open -/

/-- The id of an item an event opens. -/
def ResponsesEvent.added : ResponsesEvent → Option String
  | outputItemAdded _ item => some item.id
  | _ => none

/-- The ids of the items a client has seen. -/
def ResponsesClient.ids (c : ResponsesClient) : List String :=
  c.closed.map OutputItem.id ++ (c.opened.map Prod.fst).toList

section Order

variable {spell : JsonMap → String} {e : Envelope}

theorem ResponsesClient.holding_eq_some {c : ResponsesClient} {itemId text : String} {index : ℕ}
    (h : c.holding itemId index = some text) : c.opened = some (itemId, text) := by
  obtain ⟨closed, opened, response⟩ := c
  rcases opened with _ | ⟨id, text'⟩
  · cases h
  · rw [ResponsesClient.holding] at h
    simp only at h
    split at h
    · rename_i hid
      rw [hid.1, Option.some.inj h]
    · cases h

/-- A client has seen the items that were opened, in order. -/
theorem ResponsesClient.read_ids {c c' : ResponsesClient} {event : ResponsesEvent}
    (h : c.read event = some c') : c'.ids = c.ids ++ event.added.toList := by
  have hsame : some c = some c' → c'.ids = c.ids ++ [] := by
    intro heq
    rw [Option.some.inj heq, List.append_nil]
  -- a delta only extends the text of the open item
  have hdelta : ∀ {itemId delta : String} {index : ℕ},
      ((c.holding itemId index).map fun text =>
        ({ c with opened := some (itemId, text ++ delta) } : ResponsesClient)) = some c' →
      c'.ids = c.ids ++ [] := by
    intro itemId delta index h
    obtain ⟨text, hholding, rfl⟩ := Option.map_eq_some_iff.mp h
    rw [ResponsesClient.ids, ResponsesClient.ids, ResponsesClient.holding_eq_some hholding,
      List.append_nil]
    rfl
  -- a closing event only checks it
  have hdone : ∀ {P : Prop} [Decidable P], (if P then some c else none) = some c' →
      c'.ids = c.ids ++ [] := by
    intro P _ h
    split at h
    · exact hsame h
    · cases h
  cases event with
  | created => exact hsame h
  | inProgress => exact hsame h
  -- a new item is noted last
  | outputItemAdded index item =>
    rw [ResponsesClient.read] at h
    split at h
    · rename_i hopen
      obtain rfl := Option.some.inj h
      rw [ResponsesClient.ids, ResponsesClient.ids, hopen.1]
      show _ ++ [item.id] = (_ ++ []) ++ [item.id]
      rw [List.append_nil]
    · cases h
  | contentPartAdded itemId index => exact hdone h
  | reasoningTextDelta itemId index delta => exact hdelta h
  | outputTextDelta itemId index delta => exact hdelta h
  | argumentsDelta itemId index delta => exact hdelta h
  | reasoningTextDone itemId index text => exact hdone h
  | outputTextDone itemId index text => exact hdone h
  | contentPartDone itemId index text => exact hdone h
  | argumentsDone itemId index text => exact hdone h
  -- a closed item keeps its place
  | outputItemDone index item =>
    rw [ResponsesClient.read] at h
    split at h
    · rename_i hholding
      obtain rfl := Option.some.inj h
      rw [ResponsesClient.ids, ResponsesClient.ids, ResponsesClient.holding_eq_some hholding,
        List.map_append]
      show (_ ++ [item.id]) ++ [] = (_ ++ [item.id]) ++ []
      rfl
    · cases h
  | completed status output =>
    rw [ResponsesClient.read] at h
    split at h
    · obtain rfl := Option.some.inj h
      exact (List.append_nil _).symm
    · cases h

/-- A reader that notes what each event adds has noted what all of them add. -/
theorem foldlM_noted {σ ε τ : Type} {read : σ → ε → Option σ} {noted : σ → List τ}
    {adds : ε → Option τ}
    (h : ∀ c c' event, read c event = some c' → noted c' = noted c ++ (adds event).toList) :
    ∀ {events : List ε} {c c' : σ}, events.foldlM read c = some c' →
      noted c' = noted c ++ events.filterMap adds
  | [], c, c', hread => by
    rw [Option.some.inj hread, List.filterMap_nil, List.append_nil]
  | event :: events, c, c', hread => by
    rw [List.foldlM_cons] at hread
    obtain ⟨c₁, hone, hrest⟩ := Option.bind_eq_some_iff.mp hread
    rw [foldlM_noted h hrest, h _ _ _ hone, List.append_assoc]
    congr 1
    rcases hadds : adds event with _ | t
    · rw [List.filterMap_cons_none hadds]
      rfl
    · rw [List.filterMap_cons_some hadds]
      rfl

namespace ResponsesLoop

variable {s : ResponsesLoop}

/-- What a chunk opens. -/
theorem sent_added (chunk : Chunk) : (s.sent spell e chunk).1.filterMap ResponsesEvent.added =
    match chunk with
    | .reasoning _ => if s.opened = some .reasoning then [] else [e.reasoningItemId]
    | .text _ => if s.opened = some .message then [] else [e.messageItemId]
    | .toolCall _ => [e.functionCallItemId s.calls.length] := by
  have hclose : ∀ s : ResponsesLoop, (s.closeItem e).1.filterMap ResponsesEvent.added = [] := by
    intro s
    rw [closeItem]
    split
    · rfl
    · rfl
    · rfl
  have hcalls : ∀ s : ResponsesLoop, (s.turnTo e none).2.calls = s.calls := by
    intro s
    rw [turnTo]
    split
    · rfl
    · rw [closeItem]
      split
      · rfl
      · rfl
      · rfl
  have hturn : (s.turnTo e chunk.openItem).1.filterMap ResponsesEvent.added
      = if s.opened = chunk.openItem then [] else match chunk.openItem with
        | some .reasoning => [e.reasoningItemId]
        | some .message => [e.messageItemId]
        | none => [] := by
    rw [turnTo]
    split
    · rfl
    · rw [List.filterMap_append, hclose, List.nil_append]
      cases chunk with
      | reasoning _ => rfl
      | text _ => rfl
      | toolCall _ => rfl
  rw [sent]
  simp only
  rw [List.filterMap_append, hturn]
  cases chunk with
  | reasoning _ => exact List.append_nil _
  | text _ => exact List.append_nil _
  | toolCall call =>
    show (if s.opened = none then [] else []) ++ [e.functionCallItemId (s.turnTo e none).2.calls.length]
      = _
    rw [ite_self, hcalls]
    rfl

theorem loop_added_nil (s : ResponsesLoop) :
    (s.loop spell e []).1.filterMap ResponsesEvent.added = [] := by
  rw [loop, turnTo]
  split
  · rfl
  · rw [closeItem]
    split
    · rfl
    · rfl
    · rfl

theorem loop_added_cons (s : ResponsesLoop) (chunk : Chunk) (chunks : List Chunk) :
    (s.loop spell e (chunk :: chunks)).1.filterMap ResponsesEvent.added
      = (s.sent spell e chunk).1.filterMap ResponsesEvent.added ++
        ((s.sent spell e chunk).2.loop spell e chunks).1.filterMap ResponsesEvent.added := by
  rw [loop_cons]
  exact List.filterMap_append

/-- A text opens the message, unless it is open. -/
theorem message_added {words : String} : ∀ {chunks : List Chunk} {s : ResponsesLoop},
    .text words ∈ chunks → s.opened ≠ some .message →
      e.messageItemId ∈ (s.loop spell e chunks).1.filterMap ResponsesEvent.added
  | [], _, hmem, _ => absurd hmem List.not_mem_nil
  | chunk :: chunks, s, hmem, hopen => by
    obtain ⟨outputIndex, hkeeps⟩ := @sent_keeps spell e s chunk
    rw [loop_added_cons, sent_added, List.mem_append]
    have hlater : ∀ {chunk : Chunk}, .text words ∈ chunk :: chunks → (∀ words, chunk ≠ .text words) →
        .text words ∈ chunks := by
      intro chunk hmem hne
      exact (List.mem_cons.mp hmem).resolve_left fun heq => hne words heq.symm
    cases chunk with
    | text _ =>
      left
      rw [if_neg hopen]
      exact List.mem_singleton_self _
    | reasoning _ =>
      right
      rw [hkeeps]
      exact message_added (hlater hmem fun _ h => by cases h) fun h => by cases h
    | toolCall _ =>
      right
      rw [hkeeps]
      exact message_added (hlater hmem fun _ h => by cases h) fun h => by cases h

/-- A text behind a call opens the message behind the call. -/
theorem call_then_message {call : ParsedToolCall} {post : List Chunk} {words : String}
    (hmem : .text words ∈ post) : ∀ {pre : List Chunk} {s : ResponsesLoop}, ∃ i,
      [e.functionCallItemId i, e.messageItemId].Sublist
        ((s.loop spell e (pre ++ .toolCall call :: post)).1.filterMap ResponsesEvent.added)
  | [], s => by
    obtain ⟨outputIndex, hkeeps⟩ := @sent_keeps spell e s (.toolCall call)
    refine ⟨s.calls.length, ?_⟩
    rw [List.nil_append, loop_added_cons, sent_added]
    refine List.Sublist.cons_cons _ (List.singleton_sublist.mpr ?_)
    rw [hkeeps]
    exact message_added hmem fun h => by cases h
  | chunk :: pre, s => by
    obtain ⟨i, hsub⟩ := @call_then_message call post words hmem pre (s.sent spell e chunk).2
    refine ⟨i, hsub.trans ?_⟩
    rw [List.cons_append, loop_added_cons]
    exact List.sublist_append_right _ _

/-- Reasoning alone opens no message. -/
theorem reasoning_opens_no_message : ∀ {reasonings : List String} {s : ResponsesLoop},
    e.messageItemId ∉ (s.loop spell e (reasonings.map .reasoning)).1.filterMap ResponsesEvent.added
  | [], s => by
    rw [List.map_nil, loop_added_nil]
    exact List.not_mem_nil
  | words :: reasonings, s => by
    rw [List.map_cons, loop_added_cons, sent_added, List.mem_append, not_or]
    refine ⟨?_, reasoning_opens_no_message⟩
    simp only
    split
    · exact List.not_mem_nil
    · exact fun h => reasoningItemId_ne_message (List.mem_singleton.mp h).symm

end ResponsesLoop

/-- Either every text comes before every call, or one comes behind one. -/
theorem textsFirst_or : ∀ {answer : List Chunk}, (∀ chunk ∈ answer, ∀ words, chunk ≠ .reasoning words) →
    TextsFirst answer ∨ ∃ pre call post words,
      answer = pre ++ .toolCall call :: post ∧ .text words ∈ post
  | [], _ => Or.inl ⟨[], [], rfl⟩
  | chunk :: answer, h => by
    obtain ⟨hchunk, hanswer⟩ := List.forall_mem_cons.mp h
    cases chunk with
    | reasoning words => exact absurd rfl (hchunk words)
    | text words =>
      obtain ⟨texts, calls, rfl⟩ | ⟨pre, call, post, words', rfl, hmem⟩ := textsFirst_or hanswer
      · exact Or.inl ⟨words :: texts, calls, rfl⟩
      · exact Or.inr ⟨.text words :: pre, call, post, words', rfl, hmem⟩
    | toolCall call =>
      by_cases htext : ∃ words, .text words ∈ answer
      · obtain ⟨words, hmem⟩ := htext
        exact Or.inr ⟨[], call, answer, words, rfl, hmem⟩
      · obtain ⟨texts, calls, rfl⟩ | ⟨pre, call', post, words', rfl, hmem⟩ := textsFirst_or hanswer
        · cases texts with
          | nil => exact Or.inl ⟨[], call :: calls, rfl⟩
          | cons words texts => exact absurd ⟨words, List.mem_cons_self⟩ htext
        · exact absurd ⟨words', List.mem_append_right _ (List.mem_cons_of_mem _ hmem)⟩ htext

end Order

/-! ### What is collected -/

section Collecting

theorem collect_reasonings : ∀ (reasonings : List String) (c : Collected),
    (reasonings.map Chunk.reasoning).foldl Collected.push c
      = { c with reasoning := reasonings.foldl (· ++ ·) c.reasoning }
  | [], _ => rfl
  | _ :: reasonings, _ => collect_reasonings reasonings _

theorem collect_texts : ∀ (texts : List String) (c : Collected),
    (texts.map Chunk.text).foldl Collected.push c = { c with text := texts.foldl (· ++ ·) c.text }
  | [], _ => rfl
  | _ :: texts, _ => collect_texts texts _

theorem collect_calls : ∀ (calls : List ParsedToolCall) (c : Collected),
    (calls.map Chunk.toolCall).foldl Collected.push c = { c with toolCalls := c.toolCalls ++ calls }
  | [], c => by
    rw [List.append_nil]
    rfl
  | call :: calls, c => by
    refine (collect_calls calls _).trans ?_
    rw [Collected.push, List.append_assoc, List.singleton_append]

theorem collect_ordered (reasonings texts : List String) (calls : List ParsedToolCall) :
    collect (reasonings.map .reasoning ++ (texts.map .text ++ calls.map .toolCall))
      = ⟨reasonings.foldl (· ++ ·) "", texts.foldl (· ++ ·) "", calls⟩ := by
  rw [collect, List.foldl_append, List.foldl_append, collect_reasonings, collect_texts,
    collect_calls]
  rfl

/-- No call is collected of chunks without one. -/
theorem collect_calls_eq_nil : ∀ {chunks : List Chunk} {c : Collected},
    (chunks.foldl Collected.push c).toolCalls = []
      ↔ c.toolCalls = [] ∧ ∀ call, .toolCall call ∉ chunks
  | [], c => by simp only [List.foldl_nil, List.not_mem_nil, not_false_iff, implies_true, and_true]
  | chunk :: chunks, c => by
    rw [List.foldl_cons, collect_calls_eq_nil]
    cases chunk with
    | reasoning words => simp [Collected.push]
    | text words => simp [Collected.push]
    | toolCall call =>
      refine ⟨fun h => ?_, fun h => absurd List.mem_cons_self (h.2 call)⟩
      exact absurd h.1 (List.append_ne_nil_of_right_ne_nil _ (List.cons_ne_nil _ _))

/-- The text collected is empty if every piece of it is. -/
theorem collect_text_eq_empty : ∀ {chunks : List Chunk} {c : Collected},
    (chunks.foldl Collected.push c).text = ""
      ↔ c.text = "" ∧ ∀ words, .text words ∈ chunks → words = ""
  | [], c => by
    simp only [List.foldl_nil, List.not_mem_nil, false_imp_iff, implies_true, and_true]
  | chunk :: chunks, c => by
    rw [List.foldl_cons, collect_text_eq_empty]
    cases chunk with
    | reasoning words => simp [Collected.push]
    | text words => simp [Collected.push, String.append_eq_empty_iff, and_assoc]
    | toolCall call => simp [Collected.push]

/-- Pieces that are not empty leave nothing empty. -/
theorem foldl_ne_empty : ∀ {texts : List String} {start : String},
    (∀ words ∈ texts, words ≠ "") → start ≠ "" ∨ texts ≠ [] → texts.foldl (· ++ ·) start ≠ ""
  | [], _, _, h => h.resolve_right fun hne => hne rfl
  | words :: texts, start, htexts, _ => by
    obtain ⟨hne, hrest⟩ := List.forall_mem_cons.mp htexts
    exact @foldl_ne_empty texts (start ++ words) hrest (Or.inl (ResponsesLoop.append_ne_empty hne))

end Collecting

/-! ### Agreement -/

section Agree

variable {spell : JsonMap → String} {e : Envelope} {reasonings : List String} {answer : List Chunk}
  {finish : Finish}

theorem Delivered.texts_ne (h : Delivered reasonings answer) {texts : List String}
    {calls : List ParsedToolCall} (hanswer : answer = texts.map .text ++ calls.map .toolCall) :
    ∀ words ∈ texts, words ≠ "" := by
  intro words hwords
  refine h.texts words ?_
  rw [hanswer]
  exact List.mem_append_left _ (List.mem_map_of_mem hwords)

/-- The Responses stream agrees with its body if and only if no text follows a
call, and there is a text or a call. -/
theorem responses_agrees_iff (h : Delivered reasonings answer) :
    ResponsesAgrees spell e finish (reasonings.map .reasoning ++ answer)
      ↔ TextsFirst answer ∧ answer ≠ [] := by
  set chunks := reasonings.map Chunk.reasoning ++ answer with hchunks
  have hcollect : (ResponsesLoop.start.loop spell e chunks).2.output spell e
      = e.output spell (collect chunks) := by
    rw [ResponsesLoop.output, ResponsesLoop.loop_collects]
    rfl
  constructor
  · rintro ⟨hread, -⟩
    -- the body has the items that were opened, in their order
    have hids := @foldlM_noted _ _ _ ResponsesClient.read ResponsesClient.ids ResponsesEvent.added
      (fun _ _ _ => ResponsesClient.read_ids) _ _ _ hread
    have hopened : (e.output spell (collect chunks)).map OutputItem.id
        = (ResponsesLoop.start.loop spell e chunks).1.filterMap ResponsesEvent.added := by
      rw [responsesStream, List.filterMap_append, List.filterMap_append] at hids
      rw [ResponsesClient.ids, ResponsesClient.ids] at hids
      simp only [ResponsesClient.start, Option.map_none, Option.toList_none, List.map_nil,
        List.append_nil, List.nil_append] at hids
      exact hids.trans (List.append_nil _)
    refine ⟨?_, ?_⟩
    -- a text behind a call would open a message behind the call
    · obtain hfirst | ⟨pre, call, post, words, rfl, hmem⟩ := textsFirst_or h.answered
      · exact hfirst
      · obtain ⟨i, hsub⟩ := @ResponsesLoop.call_then_message spell e call post words hmem
          (reasonings.map .reasoning ++ pre) .start
        rw [List.append_assoc, ← hchunks, ← hopened] at hsub
        exact absurd hsub (call_before_message _ i)
    -- a body of reasoning alone has a message that no event opened
    · intro hnil
      refine @ResponsesLoop.reasoning_opens_no_message spell e reasonings .start ?_
      rw [← List.append_nil (reasonings.map Chunk.reasoning), ← hnil, ← hchunks, ← hopened,
        output_ids, hchunks, hnil, List.append_nil, collect, collect_reasonings]
      exact List.mem_append_right _ (List.mem_append_left _ (List.mem_singleton_self _))
  -- texts first, then calls: the client holds what was served
  · rintro ⟨⟨texts, calls, hanswer⟩, hne⟩
    have htexts := h.texts_ne hanswer
    have hends := (@ResponsesLoop.Tracks.start spell e).ends_reasonings texts calls
      htexts reasonings rfl rfl h.reasonings
    rw [← hanswer, ← hchunks, ResponsesLoop.Ends] at hends
    -- the output at the end is what was served, for there is a text or a call
    have hserved : (ResponsesLoop.start.loop spell e chunks).2.served spell e
        = e.output spell (collect chunks) := by
      have hkept := @ResponsesLoop.loop_collects spell e chunks .start
      rw [← hcollect, ResponsesLoop.output, ResponsesLoop.served, Envelope.output]
      have hsome : (ResponsesLoop.start.loop spell e chunks).2.text ≠ "" ∨
          (ResponsesLoop.start.loop spell e chunks).2.calls ≠ [] := by
        have hordered := collect_ordered reasonings texts calls
        rw [← hanswer, ← hchunks] at hordered
        have hall := hkept.trans hordered
        have htext : (ResponsesLoop.start.loop spell e chunks).2.text = _ :=
          congrArg Collected.text hall
        have hcalls : (ResponsesLoop.start.loop spell e chunks).2.calls = _ :=
          congrArg Collected.toolCalls hall
        rw [htext, hcalls]
        rcases texts with _ | ⟨words, texts⟩
        · right
          rintro rfl
          exact hne hanswer
        · exact Or.inl (foldl_ne_empty htexts (Or.inr (List.cons_ne_nil _ _)))
      by_cases htext : (ResponsesLoop.start.loop spell e chunks).2.text = ""
      · rw [if_pos htext, if_neg (not_or.mpr
          ⟨not_not.mpr htext, hsome.resolve_left (not_not.mpr htext)⟩)]
      · rw [if_neg htext, if_pos (Or.inl htext)]
    refine ⟨?_, output_ids_nodup _⟩
    rw [responsesStream, List.foldlM_append, List.foldlM_append]
    simp only [ResponsesClient.read, Option.bind_eq_bind, Option.bind_some, List.foldlM_cons,
      List.foldlM_nil, Option.pure_def, hends, hcollect, hserved, if_true]

end Agree
