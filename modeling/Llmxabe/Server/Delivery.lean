/-
From the decoded text to the response.

`next` interleaves three queues: the events of the scheduler, the text the parser of tool
calls holds back, and the chunks it produced.  Whatever is delivered is what the spans say
when they are read one after the other (`chunks_eq`).
-/
import Llmxabe.Server.Spans

namespace Generation

section Frame

variable (parser : Option ToolCallParser) (queued : List Chunk) (toolCalls : ℕ)

/-- The part of a generation that `raw_next` neither reads nor writes. -/
def withTools (g : Generation) : Generation :=
  { g with toolParser := parser, queued := queued, toolCalls := toolCalls }

variable (g : Generation)

theorem chunk_withTools (text : List Char) :
    (g.withTools parser queued toolCalls).chunk text =
      ((g.chunk text).1.withTools parser queued toolCalls, (g.chunk text).2) := by
  obtain ⟨_, _, _, _, _, _, trimSpanStart, _, _, _, _, _, _, _⟩ := g
  unfold chunk withTools
  cases trimSpanStart with
  | false => by_cases htext : text = [] <;> simp [htext]
  | true => by_cases htext : CallBlock.trimStart text = [] <;> simp [htext]

theorem closeReasoning_withTools (before after : List Char) (again : Bool) :
    (g.withTools parser queued toolCalls).closeReasoning before after again =
      ((g.closeReasoning before after again).1.withTools parser queued toolCalls,
        (g.closeReasoning before after again).2) := by
  have hchunk := chunk_withTools parser queued toolCalls { g with pending := after } before
  unfold closeReasoning
  rw [show ({ g.withTools parser queued toolCalls with pending := after } : Generation) =
    withTools parser queued toolCalls { g with pending := after } from rfl, hchunk]
  rfl

theorem stopOrEmit_withTools : (g.withTools parser queued toolCalls).stopOrEmit =
    (g.stopOrEmit.1.withTools parser queued toolCalls, g.stopOrEmit.2) := by
  rcases hfirst : Markers.firstOf g.stop g.pending with _ | ⟨i, sequence⟩
  · have hfirst' : Markers.firstOf (g.withTools parser queued toolCalls).stop
        (g.withTools parser queued toolCalls).pending = none := hfirst
    unfold stopOrEmit
    rw [hfirst, hfirst']
    exact chunk_withTools parser queued toolCalls
      { g with pending := g.pending.drop (g.pending.length - g.heldLen) } _
  · have hfirst' : Markers.firstOf (g.withTools parser queued toolCalls).stop
        (g.withTools parser queued toolCalls).pending = some (i, sequence) := hfirst
    unfold stopOrEmit
    rw [hfirst, hfirst']
    exact chunk_withTools parser queued toolCalls { g with
      pending := []
      armed := false
      drained := true
      finish := some (.stopSequence (String.ofList sequence)) } _

theorem scan_withTools : (g.withTools parser queued toolCalls).scan =
    (g.scan.1.withTools parser queued toolCalls, g.scan.2) := by
  have hpending : (g.withTools parser queued toolCalls).pending = g.pending := rfl
  have hopen_eq : (g.withTools parser queued toolCalls).reasoningOpen = g.reasoningOpen := rfl
  unfold scan
  rw [hpending, hopen_eq]
  by_cases hopen : g.reasoningOpen = true
  · rw [if_pos hopen, if_pos hopen]
    rcases Markers.find g.pending thinkEnd with _ | i
    · rcases Markers.find g.pending callOpen with _ | i
      · exact stopOrEmit_withTools parser queued toolCalls g
      · exact closeReasoning_withTools parser queued toolCalls g _ _ _
    · exact closeReasoning_withTools parser queued toolCalls g _ _ _
  · rw [if_neg hopen, if_neg hopen]
    exact stopOrEmit_withTools parser queued toolCalls g

variable (piece : ℕ → List UInt8) (token : ℕ)

theorem receive_close (hcloses : (g.reasoningOpen && some token == g.thinkClose) = true) :
    g.receive piece (.token token) =
      (({ g with completionTokens := g.completionTokens + 1 }.closeReasoning g.pending []
          g.trimSpans).1,
        .ok ({ g with completionTokens := g.completionTokens + 1 }.closeReasoning g.pending []
          g.trimSpans).2) := by
  unfold receive
  exact if_pos hcloses

theorem receive_empty (hopen : ¬(g.reasoningOpen && some token == g.thinkClose) = true)
    (hempty : (g.detokenizer.push piece token).1 = []) :
    g.receive piece (.token token) = ({ g with
      completionTokens := g.completionTokens + 1
      detokenizer := (g.detokenizer.push piece token).2 }, .ok none) := by
  unfold receive
  exact (if_neg hopen).trans (if_pos hempty)

theorem receive_text (hopen : ¬(g.reasoningOpen && some token == g.thinkClose) = true)
    (hfull : ¬(g.detokenizer.push piece token).1 = []) {q : Generation}
    (hq : q = { g with
      completionTokens := g.completionTokens + 1
      detokenizer := (g.detokenizer.push piece token).2
      pending := g.pending ++ (g.detokenizer.push piece token).1 }) :
    g.receive piece (.token token) = (q.scan.1, .ok q.scan.2) := by
  rw [hq]
  unfold receive
  exact (if_neg hopen).trans (if_neg hfull)

theorem receive_withTools (event : ClientEvent) :
    (g.withTools parser queued toolCalls).receive piece event =
      ((g.receive piece event).1.withTools parser queued toolCalls,
        (g.receive piece event).2) := by
  cases event with
  | token token =>
    by_cases hcloses : (g.reasoningOpen && some token == g.thinkClose) = true
    · rw [receive_close g piece token hcloses, receive_close (g.withTools parser queued toolCalls)
        piece token hcloses]
      have hclose := closeReasoning_withTools parser queued toolCalls
        { g with completionTokens := g.completionTokens + 1 } g.pending [] g.trimSpans
      exact congrArg (fun out => (out.1, Except.ok out.2)) hclose
    · by_cases hempty : (g.detokenizer.push piece token).1 = []
      · rw [receive_empty g piece token hcloses hempty,
          receive_empty (g.withTools parser queued toolCalls) piece token hcloses hempty]
        rfl
      · rw [receive_text g piece token hcloses hempty rfl,
          receive_text (g.withTools parser queued toolCalls) piece token hcloses hempty rfl]
        exact congrArg (fun out => (out.1, Except.ok out.2))
          (scan_withTools parser queued toolCalls { g with
            completionTokens := g.completionTokens + 1
            detokenizer := (g.detokenizer.push piece token).2
            pending := g.pending ++ (g.detokenizer.push piece token).1 })
  | done reason =>
    exact congrArg (fun out => (out.1, Except.ok out.2))
      (chunk_withTools parser queued toolCalls { g with
        armed := false
        drained := true
        finish := some reason.finish
        pending := [] } g.pending)
  | error message => rfl

theorem spansOf_withTools (events : List ClientEvent) :
    (g.withTools parser queued toolCalls).spansOf piece events =
      (((g.spansOf piece events).1.1.withTools parser queued toolCalls,
        (g.spansOf piece events).1.2), (g.spansOf piece events).2) := by
  have hdrained_eq : (g.withTools parser queued toolCalls).drained = g.drained := rfl
  induction events generalizing g with
  | nil =>
    unfold spansOf
    rw [hdrained_eq]
    by_cases hdrained : g.drained = true
    · rw [if_pos hdrained, if_pos hdrained]
    · rw [if_neg hdrained, if_neg hdrained]
      rfl
  | cons event events ih =>
    unfold spansOf
    rw [hdrained_eq]
    by_cases hdrained : g.drained = true
    · rw [if_pos hdrained, if_pos hdrained]
    · rw [if_neg hdrained, if_neg hdrained, receive_withTools]
      obtain ⟨q, result⟩ := g.receive piece event
      cases result with
      | error message => rfl
      | ok o =>
        dsimp only
        rw [ih q rfl]

end Frame

/-! ### `raw_next` -/

section Next

variable {piece : ℕ → List UInt8} {g q : Generation} {events left : List ClientEvent}

/-- What `raw_next` gives is the next of the spans. -/
theorem rawLoop_spansOf (hrunning : g.drained = false) (events : List ClientEvent) :
    (∀ q left span, g.rawLoop piece events = ((q, left), .ok (some span)) →
      left.length < events.length ∧ g.spansOf piece events =
        (((q.spansOf piece left).1.1, span :: (q.spansOf piece left).1.2),
          (q.spansOf piece left).2)) ∧
    (∀ q left, g.rawLoop piece events = ((q, left), .ok none) →
      left.length ≤ events.length ∧ q.drained = true ∧
        g.spansOf piece events = ((q, []), none)) ∧
    ∀ q left message, g.rawLoop piece events = ((q, left), .error message) →
      g.spansOf piece events = ((q, []), some message) := by
  induction events generalizing g with
  | nil =>
    unfold rawLoop spansOf
    -- the client has gone
    rw [if_neg (by rw [hrunning]; exact Bool.false_ne_true)]
    refine ⟨?_, ?_, ?_⟩
    · intro q left span h
      cases h
    · intro q left h
      cases h
    · intro q left message h
      cases h
      rfl
  | cons event events ih =>
    unfold rawLoop
    rcases hreceive : g.receive piece event with ⟨r, result⟩
    have hfst : (g.receive piece event).1 = r := congrArg Prod.fst hreceive
    have hsnd : (g.receive piece event).2 = result := congrArg Prod.snd hreceive
    cases result with
    | error message =>
      rw [spansOf_error hrunning hsnd, hfst]
      refine ⟨?_, ?_, ?_⟩
      -- a message of the engine ends the reply in an error
      · intro q left span h
        cases h
      · intro q left h
        cases h
      · intro q left message' h
        cases h
        rfl
    | ok o =>
      rw [spansOf_cons hrunning hsnd, hfst]
      cases o with
      | some span =>
        refine ⟨?_, ?_, ?_⟩
        · intro q left span' h
          cases h
          -- the event gives a span
          exact ⟨Nat.lt_succ_self _, rfl⟩
        · intro q left h
          cases h
        · intro q left message' h
          cases h
      | none =>
        dsimp only
        rcases Bool.eq_false_or_eq_true r.drained with hdrained | hdrained
        -- the event is the last one, and gives none
        · rw [if_pos hdrained, spansOf_drained hdrained]
          refine ⟨?_, ?_, ?_⟩
          · intro q left span' h
            cases h
          · intro q left h
            cases h
            exact ⟨Nat.le_succ _, hdrained, rfl⟩
          · intro q left message' h
            cases h
        · rw [if_neg (by rw [hdrained]; exact Bool.false_ne_true)]
          -- the event gives nothing yet, and the loop goes on
          obtain ⟨hsome, hnone, herror⟩ := ih hdrained
          refine ⟨?_, ?_, ?_⟩
          · intro q left span h
            obtain ⟨hlt, hspans⟩ := hsome q left span h
            rw [hspans]
            exact ⟨Nat.lt_succ_of_lt hlt, rfl⟩
          · intro q left h
            obtain ⟨hle, hdrained', hspans⟩ := hnone q left h
            rw [hspans]
            exact ⟨Nat.le_succ_of_le hle, hdrained', rfl⟩
          · intro q left message h
            rw [herror q left message h]
            rfl

/-- What `raw_next` gives is the next of the spans. -/
theorem rawNext_spansOf (g : Generation) (events : List ClientEvent) :
    (∀ q left span, g.rawNext piece events = ((q, left), .ok (some span)) →
      left.length < events.length ∧ g.spansOf piece events =
        (((q.spansOf piece left).1.1, span :: (q.spansOf piece left).1.2),
          (q.spansOf piece left).2)) ∧
    (∀ q left, g.rawNext piece events = ((q, left), .ok none) →
      left.length ≤ events.length ∧ q.drained = true ∧
        g.spansOf piece events = ((q, []), none)) ∧
    ∀ q left message, g.rawNext piece events = ((q, left), .error message) →
      g.spansOf piece events = ((q, []), some message) := by
  unfold rawNext
  rcases Bool.eq_false_or_eq_true g.drained with hdrained | hdrained
  · rw [if_pos hdrained, spansOf_drained hdrained]
    refine ⟨?_, ?_, ?_⟩
    · intro q left span h
      cases h
    · intro q left h
      cases h
      exact ⟨le_rfl, hdrained, rfl⟩
    · intro q left message h
      cases h
  · rw [if_neg (by rw [hdrained]; exact Bool.false_ne_true)]
    exact rawLoop_spansOf hdrained events

theorem receive_tools (g : Generation) (event : ClientEvent) :
    (g.receive piece event).1 =
      (g.receive piece event).1.withTools g.toolParser g.queued g.toolCalls :=
  congrArg Prod.fst (receive_withTools g.toolParser g.queued g.toolCalls g piece event)

theorem rawLoop_tools (g : Generation) (events : List ClientEvent) :
    (g.rawLoop piece events).1.1 =
      (g.rawLoop piece events).1.1.withTools g.toolParser g.queued g.toolCalls := by
  induction events generalizing g with
  | nil => rfl
  | cons event events ih =>
    have htools := @receive_tools piece g event
    unfold rawLoop
    rcases hreceive : g.receive piece event with ⟨r, result⟩
    rw [hreceive] at htools
    cases result with
    | error message => exact htools
    | ok o =>
      cases o with
      | some span => exact htools
      | none =>
        dsimp only at htools ⊢
        split
        · exact htools
        · have hrest := ih r
          rw [htools] at hrest ⊢
          exact hrest

theorem rawNext_tools (g : Generation) (events : List ClientEvent) :
    (g.rawNext piece events).1.1.toolParser = g.toolParser ∧
      (g.rawNext piece events).1.1.queued = g.queued := by
  unfold rawNext
  split
  · exact ⟨rfl, rfl⟩
  · rw [rawLoop_tools]
    exact ⟨rfl, rfl⟩

end Next

/-! ### `next` -/

/-- What the spans become behind a parser of tool calls. -/
def parsed (codec : Codec) : ToolCallParser → List TextChunk → Option String → List Chunk
  | parser, [], none => parser.finish.map ToolEvent.chunk
  | _, [], some _ => []
  | parser, .reasoning t :: spans, error =>
    .reasoning (String.ofList t) :: parsed codec parser spans error
  | parser, .text t :: spans, error =>
    (parser.push codec t).2.map ToolEvent.chunk ++ parsed codec (parser.push codec t).1 spans error

/-- What the spans become. -/
def routed (codec : Codec) (parser : Option ToolCallParser) (spans : List TextChunk)
    (error : Option String) : List Chunk :=
  match parser with
  | none => spans.map TextChunk.chunk
  | some parser => parsed codec parser spans error

section Chunks

variable (codec : Codec) (piece : ℕ → List UInt8)

/-- The chunks that are still to come, and the error they end with. -/
def outcome (g : Generation) (events : List ClientEvent) : List Chunk × Option String :=
  (g.queued ++ routed codec g.toolParser (g.spansOf piece events).1.2 (g.spansOf piece events).2,
    (g.spansOf piece events).2)

/-- A result of `next` is the first of what is to come. -/
def Yields (due : List Chunk × Option String) :
    (Generation × List ClientEvent) × Except String (Option Chunk) → Prop
  | (rest, .ok (some chunk)) => due =
      (chunk :: (rest.1.outcome codec piece rest.2).1, (rest.1.outcome codec piece rest.2).2)
  | (_, .ok none) => due = ([], none)
  | (_, .error message) => due = ([], some message)

variable {codec piece}

theorem outcome_withTools (g : Generation) (parser : Option ToolCallParser) (queued : List Chunk)
    (toolCalls : ℕ) (events : List ClientEvent) :
    (g.withTools parser queued toolCalls).outcome codec piece events =
      (queued ++ routed codec parser (g.spansOf piece events).1.2 (g.spansOf piece events).2,
        (g.spansOf piece events).2) := by
  unfold outcome
  rw [spansOf_withTools]
  rfl

theorem Yields.some {due : List Chunk × Option String} {rest : Generation × List ClientEvent}
    {chunk : Chunk} (h : due =
      (chunk :: (rest.1.outcome codec piece rest.2).1, (rest.1.outcome codec piece rest.2).2)) :
    Yields codec piece due (rest, .ok (some chunk)) := h

theorem next_yields (fuel : ℕ) (g : Generation) (events : List ClientEvent)
    (hfuel : events.length + g.toolParser.toList.length < fuel) :
    Yields codec piece (g.outcome codec piece events) (next codec piece fuel g events) := by
  induction fuel generalizing g events with
  | zero => omega
  | succ fuel ih =>
    unfold next
    rcases hqueued : g.queued with _ | ⟨chunk, queued⟩
    -- nothing is queued: the next span decides
    · obtain ⟨hsome, hnone, herror⟩ := @rawNext_spansOf piece g events
      obtain ⟨hparser, hempty⟩ := @rawNext_tools piece g events
      rcases hraw : g.rawNext piece events with ⟨⟨q, left⟩, result⟩
      rw [hraw] at hparser hempty
      dsimp only at hparser hempty
      rw [hqueued] at hempty
      have hdue : g.outcome codec piece events =
          (routed codec q.toolParser (g.spansOf piece events).1.2 (g.spansOf piece events).2,
            (g.spansOf piece events).2) := by
        unfold outcome
        rw [hqueued, hparser, List.nil_append]
      cases result with
      -- an error ends the reply, whatever the parser holds
      | error message =>
        dsimp only
        rw [hdue, herror q left message hraw]
        cases q.toolParser with
        | none => rfl
        | some parser => rfl
      | ok o =>
        cases o with
        | some span =>
          obtain ⟨hlt, hspans⟩ := hsome q left span hraw
          rw [hdue, hspans]
          have hmore : q.outcome codec piece left =
              (routed codec q.toolParser (q.spansOf piece left).1.2 (q.spansOf piece left).2,
                (q.spansOf piece left).2) := by
            unfold outcome
            rw [hempty, List.nil_append]
          -- without a parser the span is delivered as it is
          rcases hq : q.toolParser with _ | parser
          · rw [hq] at hmore
            dsimp only
            rw [hq]
            refine Yields.some ?_
            rw [hmore]
            rfl
          · rw [hq] at hmore
            dsimp only
            rw [hq]
            cases span with
            -- reasoning goes past the parser
            | reasoning t =>
              refine Yields.some ?_
              rw [hmore]
              rfl
            -- text goes through it, and what it gives is queued; the rest is shorter by an event
            | text t =>
              have hshort : left.length + (some (parser.push codec t).1).toList.length < fuel := by
                rw [← hparser, hq] at hfuel
                have hone : (some parser).toList.length = 1 := rfl
                have hone' : (some (parser.push codec t).1).toList.length = 1 := rfl
                omega
              have hrec := ih (q.withTools (some (parser.push codec t).1)
                (q.queued ++ (parser.push codec t).2.map ToolEvent.chunk)
                (q.toolCalls + (parser.push codec t).2.countP ToolEvent.isCall)) left hshort
              rw [outcome_withTools] at hrec
              rw [hempty, List.nil_append] at hrec
              unfold enqueue
              dsimp only
              rw [hempty]
              exact hrec
        | none =>
          -- the reply is over, and the parser gives what it holds
          obtain ⟨hle, hdrained, hspans⟩ := hnone q left hraw
          rw [hdue, hspans]
          rcases hq : q.toolParser with _ | parser
          · dsimp only
            rw [hq]
            rfl
          · dsimp only
            rw [hq]
            have hshort : left.length + (none : Option ToolCallParser).toList.length < fuel := by
              rw [← hparser, hq] at hfuel
              have hone : (some parser).toList.length = 1 := rfl
              have hzero : (none : Option ToolCallParser).toList.length = 0 := rfl
              omega
            have hrec := ih (q.withTools none (parser.finish.map ToolEvent.chunk)
              (q.toolCalls + parser.finish.countP ToolEvent.isCall)) left hshort
            rw [outcome_withTools, spansOf_drained hdrained] at hrec
            unfold enqueue
            dsimp only
            rw [hempty, List.nil_append]
            -- that may end the reply, or be queued, with one parser less to count
            split
            case isTrue hfinish =>
              unfold Yields routed parsed
              dsimp only
              rw [hfinish]
            case isFalse hfinish =>
              have hnone : routed codec none [] none = [] := rfl
              rw [hnone, List.append_nil] at hrec
              exact hrec
    -- a chunk is queued, and delivered first
    · dsimp only
      have hrest := @outcome_withTools codec piece g g.toolParser queued g.toolCalls events
      unfold Yields
      dsimp only
      have hsame : g.withTools g.toolParser queued g.toolCalls = { g with queued := queued } := rfl
      rw [← hsame, hrest]
      unfold outcome
      rw [hqueued]
      rfl

variable (codec piece) in
/-- Every piece of output, with the error it ends with. -/
def chunks : ℕ → Generation → List ClientEvent → List Chunk × Option String
  | 0, _, _ => ([], none)
  | fuel + 1, g, events =>
    match g.next codec piece (events.length + 2) events with
    | (rest, .ok (some chunk)) =>
      let more := chunks fuel rest.1 rest.2
      (chunk :: more.1, more.2)
    | (_, .ok none) => ([], none)
    | (_, .error message) => ([], some message)

theorem chunks_eq (fuel : ℕ) (g : Generation) (events : List ClientEvent)
    (hfuel : (g.outcome codec piece events).1.length < fuel) :
    chunks codec piece fuel g events = g.outcome codec piece events := by
  induction fuel generalizing g events with
  | zero => omega
  | succ fuel ih =>
    have hyields : Yields codec piece (g.outcome codec piece events)
        (next codec piece (events.length + 2) g events) := by
      refine next_yields _ g events ?_
      cases g.toolParser with
      | none => exact Nat.lt_add_of_pos_right (by decide)
      | some parser => exact Nat.lt_succ_self _
    unfold chunks
    rcases hnext : next codec piece (events.length + 2) g events with ⟨rest, result⟩
    rw [hnext] at hyields
    cases result with
    | error message =>
      have hdue : g.outcome codec piece events = ([], some message) := hyields
      rw [hdue]
    | ok o =>
      cases o with
      | none =>
        have hdue : g.outcome codec piece events = ([], none) := hyields
        rw [hdue]
      | some chunk =>
        have hdue : g.outcome codec piece events = (chunk ::
          (rest.1.outcome codec piece rest.2).1, (rest.1.outcome codec piece rest.2).2) := hyields
        rw [hdue] at hfuel ⊢
        dsimp only
        rw [ih rest.1 rest.2 (Nat.lt_of_succ_lt_succ hfuel)]

end Chunks

end Generation

/-! ### Responses -/

/-- The text that some events show, and their calls. -/
def shownText (events : List ToolEvent) : List Char := events.flatMap fun e =>
  match e with
  | .text t _ => t
  | .call _ _ => []

/-- The calls among the events. -/
def callsOf (events : List ToolEvent) : List ParsedToolCall := events.filterMap fun e =>
  match e with
  | .text _ _ => none
  | .call c _ => some c

theorem push_events (c : Collected) (events : List ToolEvent) :
    (events.map ToolEvent.chunk).foldl Collected.push c =
      ⟨c.reasoning, c.text ++ String.ofList (shownText events),
        c.toolCalls ++ callsOf events⟩ := by
  induction events generalizing c with
  | nil => simp [shownText, callsOf]
  | cons e events ih =>
    rw [List.map_cons, List.foldl_cons, ih]
    cases e with
    | text t source =>
      simp [ToolEvent.chunk, Collected.push, shownText, callsOf, String.append_assoc]
    | call call source => simp [ToolEvent.chunk, Collected.push, shownText, callsOf]

/-- What events show does not depend on where their texts end. -/
theorem shown_of_atoms {events events' : List ToolEvent} (h : atomsOf events = atomsOf events') :
    shownText events = shownText events' ∧ callsOf events = callsOf events' := by
  have htext : ∀ events, shownText events = (atomsOf events).filterMap Sum.getLeft? := by
    intro events
    induction events with
    | nil => rfl
    | cons e events ih =>
      cases e with
      | text t _ =>
        show t ++ shownText events = (t.map Sum.inl ++ atomsOf events).filterMap Sum.getLeft?
        rw [ih, List.filterMap_append, List.filterMap_map]
        exact congrArg (· ++ _) List.filterMap_some.symm
      | call c source => exact ih
  have hcalls : ∀ events, callsOf events
      = (atomsOf events).filterMap fun a => a.getRight?.map Prod.fst := by
    intro events
    induction events with
    | nil => rfl
    | cons e events ih =>
      cases e with
      | text t _ =>
        show callsOf events = (t.map Sum.inl ++ atomsOf events).filterMap _
        rw [ih, List.filterMap_append, List.filterMap_map]
        exact (List.nil_append _).symm.trans
          (congrArg (· ++ _) (List.filterMap_eq_nil_iff.mpr fun _ _ => rfl).symm)
      | call c source => exact congrArg (c :: ·) ih
  rw [htext, htext events', hcalls, hcalls events', h]
  exact ⟨rfl, rfl⟩

namespace Generation

/-- The texts of the answer, piece by piece. -/
def pieces (spans : List TextChunk) : List (List Char) := spans.filterMap fun span =>
  match span with
  | .reasoning _ => none
  | .text t => some t

theorem flatten_pieces (spans : List TextChunk) : (pieces spans).flatten = answerOf spans := by
  induction spans with
  | nil => rfl
  | cons span spans ih =>
    cases span with
    | reasoning t => exact ih
    | text t => exact congrArg (t ++ ·) ih

variable {codec : Codec}

theorem push_parsed (c : Collected) (parser : ToolCallParser) (spans : List TextChunk) :
    (parsed codec parser spans none).foldl Collected.push c =
      ⟨c.reasoning ++ String.ofList (reasoningOf spans),
        c.text ++ String.ofList (shownText ((parser.pushAll codec (pieces spans)).2 ++
          (parser.pushAll codec (pieces spans)).1.finish)),
        c.toolCalls ++ callsOf ((parser.pushAll codec (pieces spans)).2 ++
          (parser.pushAll codec (pieces spans)).1.finish)⟩ := by
  induction spans generalizing c parser with
  | nil =>
    have hnone : pieces [] = [] := rfl
    unfold parsed
    rw [push_events, hnone]
    simp [ToolCallParser.pushAll, reasoningOf]
  | cons span spans ih =>
    cases span with
    | reasoning t =>
      have hsame : pieces (.reasoning t :: spans) = pieces spans := rfl
      unfold parsed
      rw [List.foldl_cons, ih, hsame]
      simp [Collected.push, reasoningOf, TextChunk.reasoningText, String.append_assoc]
    | text t =>
      have hmore : pieces (.text t :: spans) = t :: pieces spans := rfl
      unfold parsed
      rw [List.foldl_append, push_events, ih, hmore, ToolCallParser.pushAll]
      simp [reasoningOf, TextChunk.reasoningText, shownText, callsOf, String.append_assoc]

/-- The bytes of three tokens. -/
def writtenPiece : ℕ → List UInt8
  | 0 => "hm</think>".toUTF8.toList
  | 1 => "<tool_call><function=f></func".toUTF8.toList
  | _ => "tion></tool_call>".toUTF8.toList

section Response

variable (codec) (piece : ℕ → List UInt8) {tools : List ToolDefinition} (stop : List (List Char))
  (thinkClose : Option ℕ) (thinking trimSpans : Bool) (tokens : List ℕ) (reason : EngineFinish)

/-- A response is what was decoded: the reasoning up to what ended it, and behind that the
texts and the calls the parser reads in the answer, all of it unless a stop sequence cuts
something off.  How the answer is cut into pieces does not matter while no block of it grows
past the limit. -/
theorem response_conserves (hnamed : ToolCallParser.Named tools) :
    ∃ ts R T left answer, ts <+: tokens ∧
      Splits piece (thinking && thinkClose.isSome) thinkClose ts R T left ∧
      (ts = tokens ∧ left = [] ∨ ∃ sequence ∈ stopSequences stop, sequence <+: left ∧
        ∀ k, ¬Markers.Occurs (stopSequences stop) T k) ∧
      answer.flatten = trimmed trimSpans T ∧
      Spells (ToolCallParser.parse codec tools answer) (trimmed trimSpans T) ∧
      (∀ e ∈ ToolCallParser.parse codec tools answer, e.Sound codec
        (ToolCallParser.new tools).openers (ToolCallParser.new tools).schemas) ∧
      (ToolCallParser.Fits (ToolCallParser.new tools).openers .text (trimmed trimSpans T) →
        atomsOf (ToolCallParser.parse codec tools answer) =
          atomsOf (ToolCallParser.parse codec tools [trimmed trimSpans T])) ∧
      ∃ enough, ∀ fuel ≥ enough, ∃ response,
        chunks codec piece fuel
          (start (stopSequences stop) thinkClose thinking trimSpans (some (.new tools)))
          (tokens.map .token ++ [.done reason]) = (response, none) ∧
        collect response = ⟨String.ofList (trimmed trimSpans R),
          String.ofList (shownText (ToolCallParser.parse codec tools answer)),
          callsOf (ToolCallParser.parse codec tools answer)⟩ := by
  obtain ⟨q, spans, ts, R, T, left, hspans, hts, hsplits, hreasoning, hanswer, hend⟩ :=
    spansOf_conserves piece stop thinkClose thinking trimSpans (some (.new tools)) tokens reason
  have hcut : (pieces spans).flatten = trimmed trimSpans T := (flatten_pieces spans).trans hanswer
  have hparse := @ToolCallParser.tracks_parse codec tools hnamed (pieces spans)
  rw [hcut] at hparse
  refine ⟨ts, R, T, left, pieces spans, hts, hsplits, ?_, hcut, hparse.1, hparse.2, fun hfits => ?_,
    ?_⟩
  · refine hend.imp (fun h => h.2) ?_
    rintro ⟨sequence, hmem, -, hleft, hclear⟩
    exact ⟨sequence, hmem, hleft, hclear⟩
  · rw [← hcut] at hfits ⊢
    exact ToolCallParser.atomsOf_parse hnamed (pieces spans) hfits
  · obtain ⟨due, hdue⟩ : ∃ due, due = outcome codec piece
        (start (stopSequences stop) thinkClose thinking trimSpans (some (.new tools)))
        (tokens.map .token ++ [.done reason]) := ⟨_, rfl⟩
    have hresponse : due = (parsed codec (.new tools) spans none, none) := by
      rw [hdue, outcome, hspans]
      rfl
    refine ⟨due.1.length + 1, fun fuel hfuel => ⟨due.1, ?_, ?_⟩⟩
    · rw [hdue] at hfuel
      rw [chunks_eq fuel _ _ (Nat.lt_of_succ_le hfuel), ← hdue, hresponse]
    · rw [hresponse, collect, push_parsed, hreasoning]
      simp [ToolCallParser.parse]

end Response

/-- What they decode to. -/
def writtenText : List Char :=
  "hm</think><tool_call><function=f></function></tool_call>".toList

theorem written_delivered : Detokenizer.delivered writtenPiece [0, 1, 2] = writtenText := by
  decide +kernel

/-- Reasoning without the mark ends in front of the end of the mark. -/
theorem written_short {R rest : List Char} (htext : writtenText = R ++ rest)
    (hthought : ∀ k, ¬Markers.Occurs [thinkEnd] R k) : R.length < 10 := by
  obtain ⟨hne, hpre, -⟩ := Markers.find_eq_some_iff.mp
    (show Markers.find writtenText thinkEnd = some 2 by decide +kernel)
  by_contra hge
  refine hthought 2 ⟨thinkEnd, List.mem_singleton_self _, hne, ?_⟩
  rw [htext, List.drop_append_of_le_length (by omega)] at hpre
  refine List.prefix_of_prefix_length_le hpre (List.prefix_append _ _) ?_
  have hlen : thinkEnd.length = 8 := by decide
  rw [List.length_drop, hlen]
  omega

/-- The mark ends the reasoning of that text behind its first two letters. -/
theorem written_marked {R rest : List Char} (htext : writtenText = R ++ (thinkEnd ++ rest))
    (hthought : ∀ k, ¬Markers.Occurs [thinkEnd] R k) :
    R = "hm".toList ∧ rest = writtenText.drop 10 := by
  have hthere : thinkEnd <+: writtenText.drop R.length := by
    rw [htext, List.drop_left]
    exact List.prefix_append _ _
  have honly : ∀ k < 10, k ≠ 2 → ¬thinkEnd <+: writtenText.drop k := by decide +kernel
  have hlength : R.length = 2 := by
    by_contra hne
    exact honly R.length (written_short htext hthought) hne hthere
  have htake := congrArg (List.take 2) htext
  rw [← hlength, List.take_left, hlength] at htake
  have hdrop := congrArg (List.drop 10) htext
  rw [← List.append_assoc, List.drop_left' (by rw [List.length_append, hlength]; decide)] at hdrop
  exact ⟨htake.symm.trans (by decide +kernel), hdrop.symm⟩

open ToolCallParser in
/-- A call that was written in three pieces, one of them inside the reasoning: the text splits
in one way only, and the response is the reasoning and the call. -/
theorem response_conserves_witness :
    ∃ enough, ∀ fuel ≥ enough, ∃ response,
      chunks noCodec writtenPiece fuel
        (start (stopSequences [['!']]) (some 9) true true (some (.new oneTool)))
        ([0, 1, 2].map .token ++ [.done .eos]) = (response, none) ∧
      collect response = ⟨"hm", "", [⟨"f", []⟩]⟩ := by
  obtain ⟨ts, R, T, left, answer, hts, ⟨⟨fed, mark, htext, hended⟩, hthought⟩, hend, -, -, -, hfits,
    enough, hresponse⟩ :=
      response_conserves noCodec writtenPiece [['!']] (some 9) true true [0, 1, 2] .eos oneTool_named
  -- no token closes the reasoning, and no stop sequence cuts anything off
  have hfed : fed = ts := by
    rcases hended with hclosing | ⟨-, hsame, -⟩
    · cases hclosing with
      | plain => rfl
      | marked => rfl
      | called => rfl
      | @token before after close _ _ _ hclose hsplit =>
        have hmem : close ∈ ts := by
          rw [hsplit]
          exact List.mem_append_right _ List.mem_cons_self
        have hnine := hts.subset hmem
        rw [← Option.some.inj hclose] at hnine
        exact absurd hnine (by decide)
    · exact hsame
  subst hfed
  have hwhole : fed = [0, 1, 2] ∧ left = [] := by
    rcases hend with h | ⟨sequence, hmem, hleft, -⟩
    · exact h
    · obtain ⟨more, hmore⟩ := hts
      have hpre := @delivered_append writtenPiece fed more
      rw [hmore, written_delivered, htext] at hpre
      have hstops : stopSequences [['!']] = [['!']] := by decide
      rw [hstops, List.mem_singleton] at hmem
      have hbang : '!' ∈ left := by
        rw [hmem] at hleft
        exact hleft.subset List.mem_cons_self
      have hin : '!' ∈ writtenText := hpre.subset (by
        simp only [List.mem_append, hbang, or_true])
      exact absurd hin (by decide +kernel)
  obtain ⟨rfl, rfl⟩ := hwhole
  rw [written_delivered, List.append_nil] at htext
  have hsplit : R = "hm".toList ∧ T = writtenText.drop 10 := by
    -- the reasoning ends: with the thinking mark, at a call, or with a token
    rcases hended with hclosing | ⟨-, -, rfl, rfl, -⟩
    · rw [List.append_nil] at hclosing
      generalize hfed : ([0, 1, 2] : List ℕ) = fed at hclosing
      cases hclosing with
      | plain hopened => cases hopened
      | marked _ hmark =>
        rcases hmark with rfl | rfl
        · exact written_marked htext hthought
        · -- there is no line feed behind the mark
          rw [List.append_assoc] at htext
          have hline : '\n' ∈ writtenText := by
            rw [htext]
            simp
          exact absurd hline (by decide +kernel)
      | called _ hcall =>
        have hthere : callOpen <+: writtenText.drop R.length := by
          rw [htext, List.nil_append, List.drop_left]
          exact hcall
        have hnot : ∀ k < 10, ¬callOpen <+: writtenText.drop k := by decide +kernel
        exact absurd hthere (hnot R.length (written_short htext hthought))
      | @token before after close _ _ _ _ hsplit =>
        have hlength := congrArg List.length hsplit
        rw [List.length_append, List.length_append, List.length_cons] at hlength
        omega
    -- or it never ends, but the text is longer than that
    · have hshort := written_short htext hthought
      have hlength := congrArg List.length htext
      rw [List.append_nil, List.append_nil] at hlength
      rw [← hlength] at hshort
      exact absurd hshort (by decide +kernel)
  obtain ⟨rfl, rfl⟩ := hsplit
  have htrim : trimmed true (writtenText.drop 10) = writtenText.drop 10 := by decide +kernel
  rw [htrim] at hfits
  obtain ⟨hshown, hcalls⟩ := shown_of_atoms (hfits (by unfold Fits; decide +kernel))
  refine ⟨enough, fun fuel hfuel => ?_⟩
  obtain ⟨response, hchunks, hcollect⟩ := hresponse fuel hfuel
  refine ⟨response, hchunks, ?_⟩
  have hreasoning : String.ofList (trimmed true "hm".toList) = "hm" := by decide
  have hnothing : shownText (parse noCodec oneTool [writtenText.drop 10]) = [] := by
    decide +kernel
  have hcall : callsOf (parse noCodec oneTool [writtenText.drop 10]) = [⟨"f", []⟩] := rfl
  rw [hcollect, hshown, hcalls, hreasoning, hnothing, hcall]

end Generation
