/-
The calls of a turn in the prompt, and what the parser reads in them.

A replayed turn is rendered in the markup that the parser reads (`Conversation.renderCalls`).
So the parser reads the turn back: its content, and the calls it was rendered from
(`parse_rendered`).
-/
import Llmxabe.Server.CallMarkup
import Llmxabe.Server.CallSources

namespace ToolCallParser

variable {codec : Codec} {p : ToolCallParser} {es : List ToolEvent}
  {schemas : List (String × List (String × Bool))}

/-! ### Blocks that were read -/

/-- A call of a block that holds no closer. -/
def ReadFrom (codec : Codec) (schemas : List (String × List (String × Bool)))
    (call : ParsedToolCall) : Prop :=
  ∃ raw, ¬callClose <:+: raw ∧ CallBlock.parseCall codec schemas raw = some call

/-- The block that is open holds no closer, and the calls were read from such blocks. -/
structure Blocks (codec : Codec) (schemas : List (String × List (String × Bool)))
    (p : ToolCallParser) (es : List ToolEvent) : Prop where
  tagged : Markers.Tags '<' '>' (callClose :: p.openers)
  opens : callClose ∉ p.openers
  schemas_eq : p.schemas = schemas
  clear : ∀ opener raw, p.state = .inCall opener raw → Markers.Clear [callClose] raw p.pending
  calls : ∀ call source, ToolEvent.call call source ∈ es → ReadFrom codec schemas call

theorem not_call_emitText (p : ToolCallParser) (text source source' : List Char)
    (call : ParsedToolCall) : ToolEvent.call call source' ∉ (p.emitText text source).2 := by
  unfold emitText
  split
  · split
    · exact List.not_mem_nil
    · simp
  · split
    · exact List.not_mem_nil
    · simp

/-- Text goes out, and the state becomes what it is given. -/
theorem Blocks.emit (h : Blocks codec schemas p es) {q r : ToolCallParser} {text source : List Char}
    (hopeners : r.openers = p.openers) (hschemas : r.schemas = p.schemas)
    (hclear : ∀ opener raw, r.state = .inCall opener raw → Markers.Clear [callClose] raw r.pending) :
    Blocks codec schemas r (es ++ (q.emitText text source).2) := by
  refine ⟨hopeners ▸ h.tagged, hopeners ▸ h.opens, hschemas.trans h.schemas_eq, hclear, ?_⟩
  intro call source' hmem
  rcases List.mem_append.mp hmem with hold | hnew
  · exact h.calls call source' hold
  · exact absurd hnew (not_call_emitText _ _ _ _ _)

theorem Blocks.turn (h : Blocks codec schemas p es) :
    Blocks codec schemas (p.turn codec).1.1 (es ++ (p.turn codec).1.2) := by
  cases hstate : p.state with
  | text =>
    rcases hfirst : Markers.firstOf p.openers p.pending with _ | ⟨i, opener⟩
    -- text is passed on, and opens no call
    · rw [turn_text_none hstate hfirst]
      refine h.emit ?_ ?_ ?_
      · rw [emitText_eq]
      · rw [emitText_eq]
      · intro opener raw hcall
        cases hcall
    · have hopener := (Markers.firstOf_spec hfirst).1
      rw [turn_text_some hstate hfirst]
      refine h.emit ?_ ?_ ?_
      · rw [emitText_eq]
      · rw [emitText_eq]
      · rintro opener' raw hcall
        cases hcall
        unfold bodyStart
        split
        -- a new call has nothing in its body, or the bracket of the opener that began it
        case isTrue => exact Markers.Clear.nil
        case isFalse =>
          have htags : Markers.Tags '<' '>' [opener, callClose] := by
            refine ⟨by decide, fun t ht => ?_⟩
            rcases List.mem_cons.mp ht with rfl | ht
            · exact h.tagged.2 t (List.mem_cons_of_mem _ hopener)
            · rw [List.mem_singleton.mp ht]
              exact h.tagged.2 _ List.mem_cons_self
          exact htags.clear (fun hsame => h.opens (List.mem_singleton.mp hsame ▸ hopener)) _
  | inCall opener raw =>
    have hclear := h.clear opener raw hstate
    rcases hfind : Markers.find p.pending callClose with _ | i
    -- an open call: no closing tag stands in its body, and none in what is pending
    · have hnone : ∀ k, ¬Markers.Occurs [callClose] p.pending k := by
        rw [Markers.find_eq_firstOf] at hfind
        exact Markers.firstOf_eq_none_iff.mp (Option.map_eq_none_iff.mp hfind)
      have hreleased : Markers.Clear [callClose]
          (raw ++ Markers.released [callClose] p.pending) (Markers.held [callClose] p.pending) := by
        refine Markers.Clear.release ?_ (fun k _ => ?_) ?_
        · rwa [Markers.released_append_held]
        · rw [Markers.released_append_held]
          exact hnone k
        · rw [Markers.released_append_held, Markers.length_held]
      unfold ToolCallParser.turn
      rw [hstate]
      dsimp only
      rw [hfind]
      dsimp only
      split
      -- too long, so the block is given up as text
      case isTrue =>
        refine h.emit ?_ ?_ ?_
        · rw [emitText_eq]
        · rw [emitText_eq]
        · intro opener' raw' hcall
          rw [emitText_eq] at hcall
          cases hcall
      case isFalse =>
        rw [List.append_nil]
        refine ⟨h.tagged, h.opens, h.schemas_eq, ?_, h.calls⟩
        rintro opener' raw' hcall
        cases hcall
        exact hreleased
    -- it closes at its first closing tag, and is the call that its body parses to
    · obtain ⟨hne, -, hleast⟩ := Markers.find_eq_some_iff.mp hfind
      have hbefore : ∀ k < i, ¬Markers.Occurs [callClose] p.pending k := by
        rintro k hk ⟨t, ht, -, hpre⟩
        exact hleast k hk (List.mem_singleton.mp ht ▸ hpre)
      have hbody : ¬callClose <:+: raw ++ p.pending.take i := by
        intro hinside
        obtain ⟨k, hoccurs⟩ := Markers.occurs_of_inside hne hinside
        exact hclear.cut hbefore hoccurs
      rw [turn_call_some hstate hfind]
      unfold closeBlock
      dsimp only
      split
      case h_1 call hparse =>
        refine ⟨h.tagged, h.opens, h.schemas_eq, ?_, ?_⟩
        · intro opener' raw' hcall
          cases hcall
        · intro call' source' hmem
          rcases List.mem_append.mp hmem with hold | hnew
          · exact h.calls call' source' hold
          · cases List.mem_singleton.mp hnew
            exact ⟨_, hbody, h.schemas_eq ▸ hparse⟩
      -- the body does not parse, so it is text
      case h_2 =>
        refine h.emit ?_ ?_ ?_
        · rw [emitText_eq]
        · rw [emitText_eq]
        · intro opener' raw' hcall
          rw [emitText_eq] at hcall
          cases hcall

theorem Blocks.loop (h : Blocks codec schemas p es) (fuel : ℕ) :
    Blocks codec schemas (p.loop codec fuel).1 (es ++ (p.loop codec fuel).2) := by
  induction fuel generalizing p es with
  | zero =>
    unfold ToolCallParser.loop
    rwa [List.append_nil]
  | succ fuel ih =>
    unfold ToolCallParser.loop
    dsimp only
    split
    case isTrue => exact h.turn
    case isFalse =>
      have hrest := ih h.turn
      rwa [List.append_assoc] at hrest

theorem Blocks.extend (h : Blocks codec schemas p es) (v : List Char) :
    Blocks codec schemas (p.extend v) es :=
  ⟨h.tagged, h.opens, h.schemas_eq, fun opener raw hcall => (h.clear opener raw hcall).extend v,
    h.calls⟩

theorem Blocks.pushAll (h : Blocks codec schemas p es) (pieces : List (List Char)) :
    Blocks codec schemas (p.pushAll codec pieces).1 (es ++ (p.pushAll codec pieces).2) := by
  induction pieces generalizing p es with
  | nil =>
    unfold ToolCallParser.pushAll
    rwa [List.append_nil]
  | cons text pieces ih =>
    have hpush : Blocks codec schemas (p.push codec text).1 (es ++ (p.push codec text).2) := by
      rw [push_eq]
      exact (h.extend text).loop _
    have hrest := ih hpush
    rwa [List.append_assoc] at hrest

theorem close_apart {tools : List ToolDefinition} (hnamed : Named tools) :
    Markers.Tags '<' '>' (callClose :: (new tools).openers) ∧ callClose ∉ (new tools).openers := by
  refine ⟨⟨by decide, fun t ht => ?_⟩, fun hmem => ?_⟩
  · rcases List.mem_cons.mp ht with rfl | ht
    · exact close_tagged.2 callClose (List.mem_singleton_self _)
    · exact hnamed.tagged.2 t ht
  · rcases List.mem_cons.mp hmem with hopen | hmem
    · exact absurd hopen (by decide)
    · obtain ⟨tool, -, htool⟩ := List.mem_map.mp hmem
      have hword : "<function=".toList = '<' :: 'f' :: "unction=".toList := by decide
      have hclose : callClose = '<' :: '/' :: "tool_call>".toList := by decide
      rw [hword, hclose] at htool
      have hletters := (List.cons.inj (List.cons.inj htool).2).1
      exact absurd hletters (by decide)

/-- Every call of an answer was read from a block that holds no closer. -/
theorem read_from {tools : List ToolDefinition} (hnamed : Named tools) {pieces : List (List Char)}
    {call : ParsedToolCall} {source : List Char}
    (h : ToolEvent.call call source ∈ parse codec tools pieces) :
    ReadFrom codec (new tools).schemas call := by
  have hnew : Blocks codec (new tools).schemas (new tools) [] := by
    obtain ⟨htagged, hopens⟩ := close_apart hnamed
    refine ⟨htagged, hopens, rfl, ?_, ?_⟩
    · intro opener raw hcall
      cases hcall
    · intro call source hmem
      cases hmem
  have hall := hnew.pushAll pieces
  rcases List.mem_append.mp h with hpushed | hfinished
  · exact hall.calls call source hpushed
  · unfold ToolCallParser.finish at hfinished
    split at hfinished
    · exact absurd hfinished (not_call_emitText _ _ _ _ _)
    · exact absurd hfinished (not_call_emitText _ _ _ _ _)

end ToolCallParser

namespace ToolCallParser

variable {codec : Codec} {p : ToolCallParser} {call : ParsedToolCall}
  {front body rest : List Char}

/-! ### Blocks that are read -/

theorem find_close (hbody : ¬callClose <:+: body) (rest : List Char) :
    Markers.find (body ++ (callClose ++ rest)) callClose = some body.length := by
  rw [Markers.find_eq_firstOf, Markers.firstOf_behind close_tagged (List.mem_singleton_self _)
    (List.prefix_append _ _) fun k hoccurs => hbody hoccurs.inside]
  rfl

/-- The parser behind a call. -/
def behind (p : ToolCallParser) (rest : List Char) : ToolCallParser :=
  { p with pending := rest, state := .text, swallowWhitespace := true }

/-- A block behind text without openers: the text goes out, and then the call. -/
theorem drain_block {opener : List Char} (htags : Tagged p.openers) (hopener : opener ∈ p.openers)
    (hstate : p.state = .text)
    (hpending : p.pending = front ++ (opener ++ (body ++ (callClose ++ rest))))
    (hfront : ∀ k, ¬Markers.Occurs p.openers front k) (hbody : ¬callClose <:+: body)
    (hparse : CallBlock.parseCall codec p.schemas (bodyStart opener ++ body) = some call) :
    p.drain codec = (((p.behind rest).drain codec).1, (p.emitText front front).2 ++
      (.call call (opener ++ (body ++ callClose)) :: ((p.behind rest).drain codec).2)) := by
  have hfirst : Markers.firstOf p.openers p.pending = some (front.length, opener) := by
    rw [hpending]
    exact Markers.firstOf_behind htags hopener (List.prefix_append _ _) hfront
  have htake : p.pending.take front.length = front := by rw [hpending, List.take_left]
  have hdrop : p.pending.drop (front.length + opener.length) = body ++ (callClose ++ rest) := by
    rw [hpending, ← List.drop_drop, List.drop_left, List.drop_left]
  have hturn := @turn_text_some codec p _ _ hstate hfirst
  rw [htake, hdrop] at hturn
  set inside : ToolCallParser := { (p.emitText front front).1 with
    pending := body ++ (callClose ++ rest), state := .inCall opener (bodyStart opener) } with hinside
  have hagain := @turn_call_some codec inside _ _ _ rfl (find_close hbody rest)
  have hblock : inside.pending.take body.length = body := by
    show (body ++ (callClose ++ rest)).take body.length = body
    rw [List.take_left]
  have hafter : inside.pending.drop (body.length + callClose.length) = rest := by
    show (body ++ (callClose ++ rest)).drop (body.length + callClose.length) = rest
    rw [← List.drop_drop, List.drop_left, List.drop_left]
  have htext : blockText opener (bodyStart opener ++ body) ++ callClose =
      opener ++ (body ++ callClose) := by
    rw [blockText_append, blockText_bodyStart, List.append_assoc]
  have hread : inside.turn codec =
      ((p.behind rest, [.call call (opener ++ (body ++ callClose))]), false) := by
    have hschemas : inside.schemas = p.schemas := by
      rw [hinside, emitText_eq]
    rw [hagain, hblock, hafter]
    unfold closeBlock
    dsimp only
    rw [hschemas, hparse]
    dsimp only
    rw [htext, hinside, emitText_eq]
    rfl
  have hloops : (p.turn codec).2 = false := by rw [hturn]
  have hloops' : (inside.turn codec).2 = false := by rw [hread]
  rw [drain_of_turn hloops, hturn]
  dsimp only
  rw [drain_of_turn hloops', hread]
  rfl

/-- Text without openers goes out, the end of it when the answer ends. -/
theorem drain_text (hstate : p.state = .text) (hnone : ∀ k, ¬Markers.Occurs p.openers p.pending k) :
    atomsOf (p.drain codec).2 ++ atomsOf (p.drain codec).1.finish =
      (if p.swallowWhitespace then CallBlock.trimStart p.pending else p.pending).map Sum.inl := by
  have hturn := @turn_text_none codec p hstate (Markers.firstOf_eq_none_iff.mpr hnone)
  rw [drain_of_return (by rw [hturn]), hturn]
  set text := Markers.released p.openers p.pending with htext
  set last := Markers.held p.openers p.pending with hlast
  have hparts : text ++ last = p.pending := Markers.released_append_held
  have hboth := atomsOf_emitText_append p { (p.emitText text text).1 with
    pending := last, state := .text } text last text (text ++ last) last rfl
  rw [hparts, atomsOf_emitText p p.pending] at hboth
  exact hboth.symm

/-- A block that is opened behind some whitespace, and the call that is read from it. -/
structure Block where
  gap : List Char
  body : List Char
  call : ParsedToolCall

/-- The block, with the whitespace in front of it. -/
def Block.text (block : Block) : List Char := block.gap ++ (callOpen ++ (block.body ++ callClose))

/-- The call of the block, with its source. -/
def Block.atom (block : Block) : Char ⊕ ParsedToolCall × List Char :=
  .inr (block.call, callOpen ++ (block.body ++ callClose))

/-- A block that is read as its call. -/
structure Block.Reads (codec : Codec) (schemas : List (String × List (String × Bool)))
    (block : Block) : Prop where
  white : ∀ c ∈ block.gap, isWhite c = true
  bare : ¬callClose <:+: block.body
  parsed : CallBlock.parseCall codec schemas block.body = some block.call

theorem trimStart_of_white {w : List Char} (hwhite : ∀ c ∈ w, isWhite c = true) :
    CallBlock.trimStart w = [] := List.dropWhile_eq_nil_iff.mpr hwhite

theorem white_free {openers : List (List Char)} (htags : Tagged openers) {w : List Char}
    (hwhite : ∀ c ∈ w, isWhite c = true) (k : ℕ) : ¬Markers.Occurs openers w k := by
  intro hoccurs
  have hclosing : '>' ∉ w := fun hmem => absurd (hwhite '>' hmem) (by decide)
  exact Markers.not_occurs_nil k (htags.occurs_of_append (w := []) hclosing hoccurs)

/-- Blocks behind a call: the calls, and the whitespace around them is dropped. -/
theorem drain_blocks {blocks : List Block} {tail : List Char} (htags : Tagged p.openers)
    (hopens : callOpen ∈ p.openers) (hstate : p.state = .text) (hswallow : p.swallowWhitespace = true)
    (hpending : p.pending = blocks.flatMap Block.text ++ tail)
    (hblocks : ∀ block ∈ blocks, block.Reads codec p.schemas)
    (htail : ∀ c ∈ tail, isWhite c = true) :
    atomsOf (p.drain codec).2 ++ atomsOf (p.drain codec).1.finish = blocks.map Block.atom := by
  induction blocks generalizing p with
  | nil =>
    have hpending : p.pending = tail := hpending
    rw [drain_text hstate (hpending ▸ white_free htags htail), hswallow, if_pos rfl, hpending,
      trimStart_of_white htail]
    rfl
  | cons block blocks ih =>
    have hblock := hblocks block List.mem_cons_self
    have hrest := @ih (p.behind (blocks.flatMap Block.text ++ tail)) htags hopens rfl rfl rfl
      fun block hmem => hblocks block (List.mem_cons_of_mem _ hmem)
    have htext : p.pending = block.gap ++ (callOpen ++ (block.body ++
        (callClose ++ (blocks.flatMap Block.text ++ tail)))) := by
      rw [hpending, List.flatMap_cons, Block.text]
      simp only [List.append_assoc]
    rw [drain_block htags hopens hstate htext (white_free htags hblock.white) hblock.bare
      hblock.parsed]
    -- the gap in front of the block is swallowed
    have hswallowed : atomsOf (p.emitText block.gap block.gap).2 = [] := by
      rw [atomsOf_emitText, hswallow, if_pos rfl, trimStart_of_white hblock.white]
      rfl
    dsimp only
    rw [atomsOf_append, hswallowed, List.nil_append]
    exact congrArg (List.cons block.atom) hrest

theorem fits_nil {openers : List (List Char)} {w : List Char}
    (hnone : ∀ k, ¬Markers.Occurs openers w k) : Fits openers .text w := by
  unfold Fits contents
  rw [Markers.firstOf_eq_none_iff.mpr hnone]
  exact List.forall_mem_nil _

theorem fits_block {openers : List (List Char)} {opener : List Char} (htags : Tagged openers)
    (hopener : opener ∈ openers) (hfront : ∀ k, ¬Markers.Occurs openers front k)
    (hbody : ¬callClose <:+: body)
    (hshort : Detokenizer.byteLen (bodyStart opener ++ body) ≤ maxCallBytes)
    (hrest : Fits openers .text rest) :
    Fits openers .text (front ++ (opener ++ (body ++ (callClose ++ rest)))) := by
  have hfirst := Markers.firstOf_behind htags hopener
    (List.prefix_append opener (body ++ (callClose ++ rest))) hfront
  rw [fits_text_some hfirst, ← List.drop_drop, List.drop_left, List.drop_left,
    fits_call_some (find_close hbody rest), ← List.drop_drop, List.drop_left, List.drop_left,
    List.take_left]
  exact ⟨hshort, hrest⟩

theorem fits_blocks {openers : List (List Char)} {schemas : List (String × List (String × Bool))}
    {blocks : List Block} {tail : List Char} (htags : Tagged openers) (hopens : callOpen ∈ openers)
    (hblocks : ∀ block ∈ blocks, block.Reads codec schemas)
    (hshort : ∀ block ∈ blocks, Detokenizer.byteLen block.body ≤ maxCallBytes)
    (htail : ∀ c ∈ tail, isWhite c = true) :
    Fits openers .text (blocks.flatMap Block.text ++ tail) := by
  induction blocks with
  | nil => exact fits_nil (white_free htags htail)
  | cons block blocks ih =>
    have hrest := ih (fun block hmem => hblocks block (List.mem_cons_of_mem _ hmem))
      fun block hmem => hshort block (List.mem_cons_of_mem _ hmem)
    have hblock := hblocks block List.mem_cons_self
    have htext : (block :: blocks).flatMap Block.text ++ tail = block.gap ++ (callOpen ++
        (block.body ++ (callClose ++ (blocks.flatMap Block.text ++ tail)))) := by
      rw [List.flatMap_cons, Block.text]
      simp only [List.append_assoc]
    rw [htext]
    exact fits_block htags hopens (white_free htags hblock.white) hblock.bare
      (hshort block List.mem_cons_self) hrest

/-- A text that arrives at once. -/
theorem atomsOf_parse_singleton (tools : List ToolDefinition) (w : List Char) :
    atomsOf (parse codec tools [w]) = atomsOf (((new tools).extend w).drain codec).2 ++
      atomsOf (((new tools).extend w).drain codec).1.finish := by
  unfold parse
  dsimp only
  rw [pushAll, pushAll, List.append_nil, atomsOf_append, push_eq]

/-- Text without an opener comes out as it is. -/
theorem parse_text {tools : List ToolDefinition} (hnamed : Named tools) {pieces : List (List Char)}
    (hnone : ∀ k, ¬Markers.Occurs (new tools).openers pieces.flatten k) :
    atomsOf (parse codec tools pieces) = pieces.flatten.map Sum.inl := by
  rw [atomsOf_parse hnamed pieces (fits_nil hnone), atomsOf_parse_singleton]
  exact @drain_text codec ((new tools).extend pieces.flatten) rfl hnone

/-- An answer of text and blocks is read as the text and their calls. -/
theorem parse_blocks {tools : List ToolDefinition} (hnamed : Named tools) {opener : List Char}
    (hopener : opener ∈ (new tools).openers)
    (hfront : ∀ k, ¬Markers.Occurs (new tools).openers front k) (hbody : ¬callClose <:+: body)
    (hparse : CallBlock.parseCall codec (new tools).schemas (bodyStart opener ++ body) = some call)
    (hfirst : Detokenizer.byteLen (bodyStart opener ++ body) ≤ maxCallBytes) {blocks : List Block}
    (hblocks : ∀ block ∈ blocks, block.Reads codec (new tools).schemas)
    (hshort : ∀ block ∈ blocks, Detokenizer.byteLen block.body ≤ maxCallBytes) {tail : List Char}
    (htail : ∀ c ∈ tail, isWhite c = true) {pieces : List (List Char)}
    (hpieces : pieces.flatten = front ++ (opener ++ (body ++
      (callClose ++ (blocks.flatMap Block.text ++ tail))))) :
    atomsOf (parse codec tools pieces) = front.map Sum.inl ++
      (.inr (call, opener ++ (body ++ callClose)) :: blocks.map Block.atom) := by
  have htags := hnamed.tagged
  have hopens : callOpen ∈ (new tools).openers := List.mem_cons_self
  have hfits : Fits (new tools).openers .text pieces.flatten := by
    rw [hpieces]
    exact fits_block htags hopener hfront hbody hfirst
      (fits_blocks htags hopens hblocks hshort htail)
  have hdrain := @drain_block codec ((new tools).extend pieces.flatten) call front body
    (blocks.flatMap Block.text ++ tail) opener htags hopener rfl hpieces hfront hbody hparse
  have hrest := @drain_blocks codec
    (((new tools).extend pieces.flatten).behind (blocks.flatMap Block.text ++ tail)) blocks tail
    htags hopens rfl rfl rfl hblocks htail
  rw [atomsOf_parse hnamed pieces hfits, atomsOf_parse_singleton, hdrain]
  dsimp only
  rw [atomsOf_append, atomsOf_emitText, List.append_assoc]
  exact congrArg (fun atoms => front.map Sum.inl ++
    (Sum.inr (call, opener ++ (body ++ callClose)) :: atoms)) hrest

/-! ### Rendered calls -/

/-- A call, with the markup it was read from. -/
def callAtom (codec : Codec) (call : ParsedToolCall) : Char ⊕ ParsedToolCall × List Char :=
  .inr (call, (Conversation.renderCall codec call).spell)

/-- A call behind the first one stands on a line of its own. -/
def laterCall (codec : Codec) (call : ParsedToolCall) : Block :=
  ⟨['\n'], CallBlock.body codec call, call⟩

theorem text_laterCall (call : ParsedToolCall) :
    (laterCall codec call).text = '\n' :: (Conversation.renderCall codec call).spell := by
  rw [CallBlock.spell_renderCall]
  rfl

theorem atom_laterCall (call : ParsedToolCall) : (laterCall codec call).atom = callAtom codec call := by
  unfold callAtom
  rw [CallBlock.spell_renderCall]
  rfl

/-! ### Replayed turns -/

/-- What stands between a turn's content and its first call. -/
def gap (content : Text) (calls : List ParsedToolCall) : List Char :=
  if content = [] ∨ calls = [] then [] else ['\n', '\n']

theorem spell_renderCalls (content : Text) (call : ParsedToolCall) (calls : List ParsedToolCall) :
    (Conversation.renderCalls codec content (call :: calls)).spell =
      gap content (call :: calls) ++ ((Conversation.renderCall codec call).spell ++
        calls.flatMap fun call => (laterCall codec call).text) := by
  have hlater : Text.spell (calls.mapIdx fun index call =>
      (if 0 < index + 1 then Text.of "\n" else if content = [] then [] else Text.of "\n\n") ++
        Conversation.renderCall codec call).flatten =
        calls.flatMap fun call => (laterCall codec call).text := by
    have hlines : (calls.mapIdx fun index call => (if 0 < index + 1 then Text.of "\n"
        else if content = [] then [] else Text.of "\n\n") ++ Conversation.renderCall codec call) =
        calls.map fun call => Text.of "\n" ++ Conversation.renderCall codec call := by
      refine List.mapIdx_eq_iff.mpr fun i => ?_
      rw [List.getElem?_map, if_pos (Nat.succ_pos i)]
    rw [hlines, ← List.flatMap_def, Text.spell, List.flatMap_assoc]
    exact congrArg (fun line => calls.flatMap line) (funext fun call => (text_laterCall call).symm)
  have hgap : Text.spell (if 0 < 0 then Text.of "\n" else if content = [] then [] else
      Text.of "\n\n") = gap content (call :: calls) := by
    unfold gap
    by_cases hcontent : content = []
    · simp [hcontent, Text.spell]
    · simp [hcontent, Text.spell_of]
  unfold Conversation.renderCalls
  rw [List.mapIdx_cons, List.flatten_cons, Text.spell_append, hlater, Text.spell_append, hgap,
    List.append_assoc]

/-- A call that was read from an answer, and that the prompt can replay. -/
structure Replays (codec : Codec) (tools : List ToolDefinition) (call : ParsedToolCall) : Prop where
  read : ∃ pieces source, ToolEvent.call call source ∈ parse codec tools pieces
  stable : ∀ argument ∈ call.arguments,
    CallBlock.declared ((new tools).schemas.reverse.lookup call.name) argument.1 = false →
      CallBlock.Stable codec argument
  short : Detokenizer.byteLen (CallBlock.body codec call) ≤ maxCallBytes

theorem Replays.replayable {tools : List ToolDefinition} (hnamed : Named tools)
    (h : Replays codec tools call) : CallBlock.Replayable codec (new tools).schemas call := by
  obtain ⟨pieces, source, hmem⟩ := h.read
  obtain ⟨raw, hraw, hparse⟩ := read_from hnamed hmem
  exact .of_read hparse hraw h.stable

theorem not_occurs_of_inside {openers : List (List Char)} {w : List Char}
    (h : ∀ opener ∈ openers, ¬opener <:+: w) (k : ℕ) : ¬Markers.Occurs openers w k := by
  rintro ⟨opener, hmem, -, hpre⟩
  exact h opener hmem (hpre.isInfix.trans (List.drop_suffix _ _).isInfix)

/-- A turn that the prompt replays is read back: its content, and the calls that were read from
earlier answers, however the text is cut. -/
theorem parse_rendered {tools : List ToolDefinition} (hnamed : Named tools) {content : Text}
    {calls : List ParsedToolCall}
    (hcontent : ∀ opener ∈ (new tools).openers, ¬opener <:+: content.spell)
    (hcalls : ∀ call ∈ calls, Replays codec tools call) {pieces : List (List Char)}
    (hpieces : pieces.flatten = (content ++ Conversation.renderCalls codec content calls).spell) :
    atomsOf (parse codec tools pieces) =
      (content.spell ++ gap content calls).map Sum.inl ++ calls.map (callAtom codec) := by
  have htags := hnamed.tagged
  have hnone := not_occurs_of_inside hcontent
  rcases calls with _ | ⟨call, calls⟩
  · have htext : pieces.flatten = content.spell := by
      rw [hpieces, Conversation.renderCalls]
      exact congrArg Text.spell (List.append_nil _)
    rw [parse_text hnamed (htext ▸ hnone), htext]
    simp [gap]
  · have hreplayable : ∀ call' ∈ call :: calls, CallBlock.Replayable codec (new tools).schemas call' :=
      fun call' hmem => (hcalls call' hmem).replayable hnamed
    obtain ⟨hfirst, hlater⟩ := List.forall_mem_cons.mp hreplayable
    set front := content.spell ++ gap content (call :: calls) with hfrontdef
    have hfront : ∀ k, ¬Markers.Occurs (new tools).openers front k := by
      intro k hoccurs
      refine hnone k (htags.occurs_of_append ?_ hoccurs)
      unfold gap
      split <;> decide
    have hblocks : (calls.map (laterCall codec)).flatMap Block.text =
        calls.flatMap fun call => (laterCall codec call).text := List.flatMap_map ..
    have htext : pieces.flatten = front ++ (callOpen ++ (CallBlock.body codec call ++
        (callClose ++ ((calls.map (laterCall codec)).flatMap Block.text ++ [])))) := by
      rw [hpieces, Text.spell_append, spell_renderCalls, CallBlock.spell_renderCall, hfrontdef,
        hblocks]
      simp only [List.append_assoc, List.append_nil]
    have hreads : ∀ block ∈ calls.map (laterCall codec), block.Reads codec (new tools).schemas := by
      intro block hmem
      obtain ⟨later, hcall, rfl⟩ := List.mem_map.mp hmem
      exact ⟨List.forall_mem_singleton.mpr rfl, CallBlock.body_open (hlater later hcall),
        CallBlock.parseCall_rendered (hlater later hcall)⟩
    have hshort : ∀ block ∈ calls.map (laterCall codec),
        Detokenizer.byteLen block.body ≤ maxCallBytes := by
      intro block hmem
      obtain ⟨later, hcall, rfl⟩ := List.mem_map.mp hmem
      exact (hcalls later (List.mem_cons_of_mem _ hcall)).short
    have hatoms : (calls.map (laterCall codec)).map Block.atom = calls.map (callAtom codec) := by
      rw [List.map_map]
      exact List.map_congr_left fun later _ => atom_laterCall later
    rw [parse_blocks hnamed List.mem_cons_self hfront (CallBlock.body_open hfirst)
      (CallBlock.parseCall_rendered hfirst) (hcalls call List.mem_cons_self).short hreads hshort
      (List.forall_mem_nil _) htext, hatoms, ← CallBlock.spell_renderCall]
    rfl

/-- A codec that knows the number 5. -/
def fiveCodec : Codec where
  parse text := if text = "5" then some (.number "5") else none
  spell _ := "5"
  prompt _ := "5"
  decode _ := .error ""

/-- A tool with a string parameter and a number, and a call of it. -/
def noteTool : List ToolDefinition := [⟨"note", .null, [("x", true), ("n", false)]⟩]

/-- A call with both arguments. -/
def noteCall : ParsedToolCall := ⟨"note", [("x", .string "5 < 6"), ("n", .number "5")]⟩

/-- The call as the model spelled it, behind some text. -/
def noteAnswer : List Char :=
  ("Well. <tool_call><function=note><parameter=x>5 < 6</parameter>" ++
    "<parameter=n> 5 </parameter></function></tool_call>").toList

theorem noteTool_named : Named noteTool := by
  unfold Named noteTool
  decide

set_option maxRecDepth 4000 in
theorem noteCall_replays : Replays fiveCodec noteTool noteCall where
  read := by
    have hcall : (parse fiveCodec noteTool [noteAnswer])[1]? =
        some (.call noteCall (noteAnswer.drop 6)) := by
      rfl
    exact ⟨_, _, List.mem_of_getElem? hcall⟩
  stable := by
    intro argument hmem hother
    rcases List.mem_cons.mp hmem with rfl | hmem
    · -- declared a string
      exact absurd hother (by decide)
    · -- the number is spelled as it was read
      rw [List.mem_singleton.mp hmem]
      exact ⟨by decide, by decide, rfl⟩
  short := by decide

/-- The same call twice behind some text. -/
theorem parse_rendered_witness :
    atomsOf (parse fiveCodec noteTool [(Text.of "Noted." ++
      Conversation.renderCalls fiveCodec (Text.of "Noted.") [noteCall, noteCall]).spell]) =
        ((Text.of "Noted.").spell ++ gap (Text.of "Noted.") [noteCall, noteCall]).map Sum.inl ++
          [noteCall, noteCall].map (callAtom fiveCodec) := by
  refine parse_rendered noteTool_named ?_ ?_ (List.flatten_singleton)
  · decide
  · intro call hmem
    have hsame : call = noteCall := by simpa using hmem
    rw [hsame]
    exact noteCall_replays

end ToolCallParser
