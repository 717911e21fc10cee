/-
The one generation path of the three dialects (`xabe-server/src/http/generate.rs`).

A generation turns the events of the scheduler into chunks: tokens become text, stop
sequences end it, and the text is split into reasoning and answer (`receive`, `rawNext`).
The answer goes through the parser of tool calls (`next`).

The channel is the list of events that have not been received; behind its last event it
is closed.
-/
import Llmxabe.Server.CallSources

/-- The stop sequences of a request; empty ones are left out. -/
def stopSequences (stop : List (List Char)) : List (List Char) := stop.filter (· ≠ [])

/-- Why the engine stopped generating. -/
inductive EngineFinish where
  | eos
  | length
  deriving DecidableEq, Repr

/-- Why a generation ended that the engine ended. -/
def EngineFinish.finish : EngineFinish → Finish
  | eos => .endOfTurn
  | length => .length

/-- What the scheduler thread sends to a waiting client. -/
inductive ClientEvent where
  | token (token : ℕ)
  | done (reason : EngineFinish)
  | error (message : String)
  deriving DecidableEq, Repr

/-- A piece of decoded text, before the parser of tool calls. -/
inductive TextChunk where
  | reasoning (text : List Char)
  | text (text : List Char)
  deriving DecidableEq, Repr

/-- The mark behind the reasoning. -/
def thinkEnd : List Char := "</think>".toList

/-- The error of a stream that ends without a reason. -/
def channelClosed : String := "the scheduler closed the request without a completion status"

/-- The state of one response. -/
structure Generation where
  detokenizer : Detokenizer
  stop : List (List Char)
  pending : List Char
  thinkClose : Option ℕ
  reasoningOpen : Bool
  trimSpans : Bool
  trimSpanStart : Bool
  completionTokens : ℕ
  finish : Option Finish
  drained : Bool
  /-- The guard, which cancels the request when it is dropped. -/
  armed : Bool
  toolParser : Option ToolCallParser
  queued : List Chunk
  toolCalls : ℕ

namespace Generation

/-- The generation of an admitted request; no stop sequence is empty. -/
def start (stop : List (List Char)) (thinkClose : Option ℕ) (thinking trimSpans : Bool)
    (toolParser : Option ToolCallParser) : Generation where
  detokenizer := Detokenizer.new
  stop := stop
  pending := []
  thinkClose := thinkClose
  reasoningOpen := thinking && thinkClose.isSome
  trimSpans := trimSpans
  trimSpanStart := trimSpans
  completionTokens := 0
  finish := none
  drained := false
  armed := true
  toolParser := toolParser
  queued := []
  toolCalls := 0

/-! ### Text -/

/-- Route text to the span it belongs to, without the whitespace that opens the span. -/
def chunk (g : Generation) (text : List Char) : Generation × Option TextChunk :=
  let text := if g.trimSpanStart then CallBlock.trimStart text else text
  if text = [] then (g, none)
  else ({ g with trimSpanStart := false },
    some (if g.reasoningOpen then .reasoning text else .text text))

/-- The reasoning ends with `before`; the answer begins with what is pending. -/
def closeReasoning (g : Generation) (before pending : List Char) (trim : Bool) :
    Generation × Option TextChunk :=
  let out := { g with pending := pending }.chunk before
  ({ out.1 with reasoningOpen := false, trimSpanStart := trim }, out.2)

/-- What may not be emitted yet. -/
def heldLen (g : Generation) : ℕ :=
  if g.reasoningOpen then
    max (Markers.heldBack g.stop g.pending) (Markers.heldBack [thinkEnd, callOpen] g.pending)
  else Markers.heldBack g.stop g.pending

/-- Look for stop sequences in what is pending, and emit what cannot begin one. -/
def stopOrEmit (g : Generation) : Generation × Option TextChunk :=
  match Markers.firstOf g.stop g.pending with
  | some (i, sequence) =>
    { g with
      pending := []
      armed := false
      drained := true
      finish := some (.stopSequence (String.ofList sequence)) }.chunk (g.pending.take i)
  | none =>
    let emit := g.pending.length - g.heldLen
    { g with pending := g.pending.drop emit }.chunk (g.pending.take emit)

/-- Decoded text has been added to what is pending. -/
def scan (g : Generation) : Generation × Option TextChunk :=
  if g.reasoningOpen then
    match Markers.find g.pending thinkEnd with
    -- a newline behind the mark goes with it
    | some i =>
      let rest := g.pending.drop (i + thinkEnd.length)
      g.closeReasoning (g.pending.take i) ((CallBlock.strip ['\n'] rest).getD rest) g.trimSpans
    | none =>
      match Markers.find g.pending callOpen with
      -- a call ends the reasoning too, and stays pending
      | some i => g.closeReasoning (g.pending.take i) (g.pending.drop i) false
      | none => g.stopOrEmit
  else g.stopOrEmit

/-! ### Events -/

section

variable (piece : ℕ → List UInt8)

/-- One turn of the loop in `raw_next`.  It returns on an error, with a span, and when the
generation is drained. -/
def receive (g : Generation) : ClientEvent → Generation × Except String (Option TextChunk)
  | .token token =>
    let g := { g with completionTokens := g.completionTokens + 1 }
    -- the closing token is never decoded
    if g.reasoningOpen && some token == g.thinkClose then
      let out := g.closeReasoning g.pending [] g.trimSpans
      (out.1, .ok out.2)
    else
      let delta := g.detokenizer.push piece token
      let g := { g with detokenizer := delta.2 }
      -- its bytes complete no character yet
      if delta.1 = [] then (g, .ok none)
      else
        let out := { g with pending := g.pending ++ delta.1 }.scan
        (out.1, .ok out.2)
  | .done reason =>
    let out := { g with
      armed := false, drained := true, finish := some reason.finish, pending := [] }.chunk g.pending
    (out.1, .ok out.2)
  | .error message => ({ g with drained := true }, .error message)

/-- The loop of `raw_next`, with the events it leaves. -/
def rawLoop (g : Generation) :
    List ClientEvent → (Generation × List ClientEvent) × Except String (Option TextChunk)
  -- the channel is closed
  | [] => (({ g with drained := true }, []), .error channelClosed)
  | event :: events =>
    match g.receive piece event with
    | (g, .error message) => ((g, events), .error message)
    | (g, .ok (some span)) => ((g, events), .ok (some span))
    | (g, .ok none) => if g.drained then ((g, events), .ok none) else g.rawLoop events

/-- The next span, unless the stream has ended. -/
def rawNext (g : Generation) (events : List ClientEvent) :
    (Generation × List ClientEvent) × Except String (Option TextChunk) :=
  if g.drained then ((g, events), .ok none) else g.rawLoop piece events

end

/-! ### Chunks -/

end Generation

/-- An event as it is handed on. -/
def ToolEvent.chunk : ToolEvent → Chunk
  | text t _ => .text (String.ofList t)
  | call c _ => .toolCall c

/-- The event is a call. -/
def ToolEvent.isCall : ToolEvent → Bool
  | text _ _ => false
  | call _ _ => true

/-- A span as it is handed on. -/
def TextChunk.chunk : TextChunk → Chunk
  | reasoning t => .reasoning (String.ofList t)
  | text t => .text (String.ofList t)

namespace Generation

/-- Events that are still to be handed on; the calls are counted. -/
def enqueue (g : Generation) (events : List ToolEvent) : Generation :=
  { g with
    queued := g.queued ++ events.map ToolEvent.chunk
    toolCalls := g.toolCalls + events.countP ToolEvent.isCall }

section

variable (codec : Codec) (piece : ℕ → List UInt8)

/-- The loop of `next`: the next piece of output, or `none` once the response is
complete. -/
def next : ℕ → Generation → List ClientEvent →
    (Generation × List ClientEvent) × Except String (Option Chunk)
  | 0, g, events => ((g, events), .ok none)
  | fuel + 1, g, events =>
    match g.queued with
    -- what is queued goes first
    | chunk :: queued => (({ g with queued := queued }, events), .ok (some chunk))
    | [] =>
      match g.rawNext piece events with
      | (rest, .error message) => (rest, .error message)
      | (rest, .ok (some span)) =>
        match rest.1.toolParser, span with
        -- text goes through the parser, which may hand on nothing
        | some parser, .text text =>
          let out := parser.push codec text
          next fuel ({ rest.1 with toolParser := some out.1 }.enqueue out.2) rest.2
        | _, span => (rest, .ok (some span.chunk))
      | (rest, .ok none) =>
        match rest.1.toolParser with
        -- at the end the parser hands on what it holds, once
        | some parser =>
          let g := { rest.1 with toolParser := none }.enqueue parser.finish
          if g.queued = [] then ((g, rest.2), .ok none) else next fuel g rest.2
        | none => (rest, .ok none)

end

end Generation
