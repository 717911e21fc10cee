/-
The parser of tool calls and the text its events were read from.

Put one behind the other, the sources of the events are the text that was fed, but for
whitespace behind calls (`Tracks.finish`).  A text event shows its source, behind a
`<tool_call>` if it is a block that a bare `<function=...>` opened.
-/
import Llmxabe.Server.CallChunks
import Mathlib.Data.List.TakeWhile

/-- The sources of some events make up a text, in which whitespace may follow a call. -/
inductive Spells : List ToolEvent → List Char → Prop
  | nil : Spells [] []
  | text {t source s : List Char} {es : List ToolEvent} (rest : Spells es s) :
      Spells (.text t source :: es) (source ++ s)
  | call {c : ParsedToolCall} {source white s : List Char} {es : List ToolEvent}
      (hwhite : ∀ x ∈ white, isWhite x) (rest : Spells es s) :
      Spells (.call c source :: es) (source ++ (white ++ s))

/-- The last event is a call. -/
def EndsInCall (es : List ToolEvent) : Prop := ∃ es' c source, es = es' ++ [ToolEvent.call c source]

namespace ToolEvent

/-- A text shows its source; a block that a bare opener began gains a `<tool_call>`. -/
def Shows (openers : List (List Char)) (t source : List Char) : Prop :=
  t = source ∨
    t = callOpen ++ source ∧ ∃ opener ∈ openers, opener ≠ callOpen ∧ opener <+: source

/-- What an event has to do with its source. -/
def Sound (codec : Codec) (openers : List (List Char))
    (schemas : List (String × List (String × Bool))) : ToolEvent → Prop
  | text t source => Shows openers t source
  | call c source => ∃ opener ∈ openers, ∃ raw,
      source = ToolCallParser.blockText opener raw ++ callClose ∧
        CallBlock.parseCall codec schemas raw = some c

end ToolEvent

namespace Spells

variable {es es' : List ToolEvent} {s s' white : List Char}

theorem append (h : Spells es s) (h' : Spells es' s') :
    Spells (es ++ es') (s ++ s') := by
  induction h with
  | nil => exact h'
  | text rest ih =>
    rw [List.append_assoc]
    exact ih.text
  | call hwhite rest ih =>
    rw [List.append_assoc, List.append_assoc]
    exact ih.call hwhite

theorem singleton_text (t source : List Char) :
    Spells [.text t source] source := by
  have h : Spells [.text t source] (source ++ []) := nil.text
  rwa [List.append_nil] at h

theorem singleton_call (c : ParsedToolCall) (source : List Char) (hwhite : ∀ x ∈ white, isWhite x) :
    Spells [.call c source] (source ++ white) := by
  have h : Spells [.call c source] (source ++ (white ++ [])) :=
    nil.call hwhite
  rwa [List.append_nil] at h

/-- Whitespace may follow the last call. -/
theorem trailing (h : Spells es s) (hcall : EndsInCall es)
    (hwhite : ∀ x ∈ white, isWhite x) : Spells es (s ++ white) := by
  obtain ⟨es', c, source, rfl⟩ := hcall
  generalize hes : es' ++ [ToolEvent.call c source] = es at h
  induction h generalizing es' with
  | nil => exact absurd hes (List.append_ne_nil_of_right_ne_nil _ (List.cons_ne_nil _ _))
  | text rest ih =>
    cases es' with
    | nil => cases hes
    | cons e es' =>
      obtain ⟨-, hrest⟩ := List.cons.inj hes
      rw [List.append_assoc]
      exact (ih es' hrest).text
  | @call c' source' white' s' es'' hwhite' rest ih =>
    cases es' with
    | nil =>
      obtain ⟨-, rfl⟩ := List.cons.inj hes
      cases rest
      rw [List.append_nil, List.append_assoc]
      refine singleton_call c' source' fun x hx => ?_
      exact (List.mem_append.mp hx).elim (hwhite' x) (hwhite x)
    | cons e es' =>
      obtain ⟨-, hrest⟩ := List.cons.inj hes
      rw [List.append_assoc, List.append_assoc]
      exact (ih es' hrest).call hwhite'

end Spells

namespace ToolCallParser

open ToolEvent

variable {codec : Codec} {start p : ToolCallParser} {es : List ToolEvent} {s u : List Char}

/-! ### Blocks -/

theorem blockText_bodyStart (opener : List Char) :
    blockText opener (bodyStart opener) = opener := by
  unfold blockText bodyStart
  split
  case isTrue h => rw [h, List.append_nil]
  case isFalse => rfl

theorem blockText_append (opener raw more : List Char) :
    blockText opener (raw ++ more) = blockText opener raw ++ more := by
  unfold blockText
  split
  case isTrue => rw [List.append_assoc]
  case isFalse => rfl

/-- What a block that is given back shows. -/
theorem shows_block {openers : List (List Char)} {opener raw : List Char} (hmem : opener ∈ openers)
    (hraw : bodyStart opener <+: raw) (tail : List Char) :
    Shows openers (callOpen ++ raw ++ tail) (blockText opener raw ++ tail) := by
  by_cases hopener : opener = callOpen
  · rw [blockText, if_pos hopener]
    exact Or.inl rfl
  · rw [bodyStart, if_neg hopener] at hraw
    rw [blockText, if_neg hopener, List.append_assoc]
    exact Or.inr ⟨rfl, opener, hmem, hopener, hraw.trans (List.prefix_append _ _)⟩

/-- Text that is no whitespace at its front. -/
def Starts (w : List Char) : Prop := ∃ rest, w = '<' :: rest

theorem Starts.append (h : Starts s) (v : List Char) : Starts (s ++ v) := by
  obtain ⟨rest, rfl⟩ := h
  exact ⟨rest ++ v, rfl⟩

theorem Starts.trimStart (h : Starts s) : CallBlock.trimStart s = s := by
  obtain ⟨rest, rfl⟩ := h
  rfl

theorem Starts.ne_nil (h : Starts s) : s ≠ [] := by
  obtain ⟨rest, rfl⟩ := h
  exact List.cons_ne_nil _ _

theorem starts_callOpen : Starts callOpen := ⟨_, rfl⟩

theorem starts_opener {openers : List (List Char)} (h : Tagged openers) {opener : List Char}
    (hmem : opener ∈ openers) : Starts opener := by
  obtain ⟨middle, rfl, -⟩ := h.2 opener hmem
  exact ⟨_, rfl⟩

theorem starts_blockText {openers : List (List Char)} (h : Tagged openers) {opener raw : List Char}
    (hmem : opener ∈ openers) (hraw : bodyStart opener <+: raw) : Starts (blockText opener raw) := by
  obtain ⟨more, rfl⟩ := hraw
  rw [blockText_append, blockText_bodyStart]
  exact (starts_opener h hmem).append more

/-! ### Emitting -/

/-- A text that is whitespace with its source, or neither. -/
def Alike (text source : List Char) : Prop := text = source ∨ Starts text ∧ Starts source

theorem trimStart_split (w : List Char) :
    ∃ white, w = white ++ CallBlock.trimStart w ∧ ∀ x ∈ white, isWhite x :=
  ⟨w.takeWhile isWhite, List.takeWhile_append_dropWhile.symm, fun _ hx => List.mem_takeWhile_imp hx⟩

theorem Alike.trimStart {text source : List Char} (h : Alike text source) :
    Alike (CallBlock.trimStart text) (CallBlock.trimStart source) := by
  rcases h with rfl | ⟨htext, hsource⟩
  · exact Or.inl rfl
  · rw [htext.trimStart, hsource.trimStart]
    exact Or.inr ⟨htext, hsource⟩

theorem Alike.eq_nil {source : List Char} (h : Alike [] source) : source = [] := by
  rcases h with rfl | ⟨htext, -⟩
  · rfl
  · exact absurd rfl htext.ne_nil

/-- Emitting a text adds its source to what is spelled. -/
theorem emitText_spells {text source : List Char} (halike : Alike text source)
    (hspells : Spells es s)
    (hswallow : p.swallowWhitespace → EndsInCall es) :
    Spells (es ++ (p.emitText text source).2) (s ++ source) ∧
      ((p.emitText text source).1.swallowWhitespace →
        EndsInCall (es ++ (p.emitText text source).2)) := by
  unfold emitText
  cases hflag : p.swallowWhitespace with
  | true =>
    rw [if_pos rfl]
    obtain ⟨white, hsplit, hwhite⟩ := trimStart_split source
    have hcall : EndsInCall es := hswallow hflag
    have hgap := hspells.trailing hcall hwhite
    have htrim := halike.trimStart
    split
    case isTrue hnil =>
      rw [hnil] at htrim
      rw [hsplit, htrim.eq_nil, List.append_nil, List.append_nil]
      exact ⟨hgap, fun _ => hcall⟩
    case isFalse =>
      rw [hsplit, ← List.append_assoc, ← hsplit]
      refine ⟨hgap.append (Spells.singleton_text _ _), ?_⟩
      intro hagain
      cases hagain
  | false =>
    rw [if_neg (by decide)]
    split
    case isTrue hnil =>
      rw [hnil] at halike
      rw [halike.eq_nil, List.append_nil, List.append_nil]
      exact ⟨hspells, hswallow⟩
    case isFalse =>
      refine ⟨hspells.append (Spells.singleton_text _ _), ?_⟩
      intro hagain
      rw [hflag] at hagain
      cases hagain

theorem emitText_sound {openers : List (List Char)} (htags : Tagged openers)
    {schemas : List (String × List (String × Bool))} {text source : List Char}
    (h : Shows openers text source) :
    ∀ e ∈ (p.emitText text source).2, e.Sound codec openers schemas := by
  have htrim : Shows openers (CallBlock.trimStart text) (CallBlock.trimStart source) := by
    rcases h with rfl | ⟨rfl, opener, hmem, hne, rest, rfl⟩
    · exact Or.inl rfl
    · have hopener : Starts (opener ++ rest) := (starts_opener htags hmem).append rest
      rw [hopener.trimStart, (starts_callOpen.append (opener ++ rest)).trimStart]
      exact Or.inr ⟨rfl, opener, hmem, hne, List.prefix_append _ _⟩
  intro e he
  unfold emitText at he
  split at he
  case isTrue =>
    split at he
    case isTrue => cases he
    case isFalse =>
      rw [List.mem_singleton.mp he]
      exact htrim
  case isFalse =>
    split at he
    case isTrue => cases he
    case isFalse =>
      rw [List.mem_singleton.mp he]
      exact h

/-! ### The text that was read -/

/-- What was read and is in no event yet. -/
def lag (p : ToolCallParser) : List Char :=
  match p.state with
  | .text => p.pending
  | .inCall opener raw => blockText opener raw ++ p.pending

/-- A parser that began as `start` has read the text `u` and given the events `es`. -/
structure Tracks (codec : Codec) (start p : ToolCallParser) (es : List ToolEvent)
    (u : List Char) : Prop where
  tagged : Tagged start.openers
  openers_eq : p.openers = start.openers
  schemas_eq : p.schemas = start.schemas
  inBlock : ∀ opener raw, p.state = .inCall opener raw →
    opener ∈ start.openers ∧ bodyStart opener <+: raw
  sound : ∀ e ∈ es, e.Sound codec start.openers start.schemas
  swallows : p.swallowWhitespace → EndsInCall es
  spells : ∃ s, Spells es s ∧ s ++ p.lag = u

/-- Emitting a text from the front of what is behind hands it over. -/
theorem Tracks.emit (h : Tracks codec start p es u) {q r : ToolCallParser} {text source : List Char}
    (halike : Alike text source) (hshows : Shows start.openers text source)
    (hswallow : r.swallowWhitespace = p.swallowWhitespace)
    (hafter : q.swallowWhitespace = (r.emitText text source).1.swallowWhitespace)
    (hopeners : q.openers = p.openers) (hschemas : q.schemas = p.schemas)
    (hinBlock : ∀ opener raw, q.state = .inCall opener raw →
      opener ∈ start.openers ∧ bodyStart opener <+: raw)
    (hlag : source ++ q.lag = p.lag) :
    Tracks codec start q (es ++ (r.emitText text source).2) u := by
  obtain ⟨s, hspells, hu⟩ := h.spells
  have hcall : r.swallowWhitespace → EndsInCall es := fun hr => h.swallows (hswallow ▸ hr)
  obtain ⟨hspells', hswallow'⟩ := emitText_spells halike hspells hcall
  refine ⟨h.tagged, hopeners.trans h.openers_eq, hschemas.trans h.schemas_eq, hinBlock, ?_,
    hafter ▸ hswallow', s ++ source, hspells', ?_⟩
  · intro e he
    rcases List.mem_append.mp he with hold | hnew
    · exact h.sound e hold
    · exact emitText_sound h.tagged hshows e hnew
  · rw [List.append_assoc, hlag, hu]

theorem lag_text (h : p.state = .text) : p.lag = p.pending := by
  unfold lag
  rw [h]

theorem lag_inCall {opener raw : List Char} (h : p.state = .inCall opener raw) :
    p.lag = blockText opener raw ++ p.pending := by
  unfold lag
  rw [h]

theorem take_tag_drop {w t : List Char} {i : ℕ} (h : t <+: w.drop i) :
    w.take i ++ (t ++ w.drop (i + t.length)) = w := by
  obtain ⟨rest, hrest⟩ := h
  have hdrop : w.drop (i + t.length) = rest := by
    rw [← List.drop_drop, ← hrest, List.drop_left]
  rw [hdrop, hrest, List.take_append_drop]

theorem alike_block {openers : List (List Char)} (h : Tagged openers) {opener raw : List Char}
    (hmem : opener ∈ openers) (hraw : bodyStart opener <+: raw) (tail : List Char) :
    Alike (callOpen ++ raw ++ tail) (blockText opener raw ++ tail) :=
  Or.inr ⟨(starts_callOpen.append raw).append tail, (starts_blockText h hmem hraw).append tail⟩

theorem Tracks.turn_text (h : Tracks codec start p es u) (hstate : p.state = .text) :
    Tracks codec start (p.turn codec).1.1 (es ++ (p.turn codec).1.2) u := by
  rcases hfirst : Markers.firstOf p.openers p.pending with _ | ⟨i, opener⟩
  · rw [turn_text_none hstate hfirst]
    refine h.emit (Or.inl rfl) (Or.inl rfl) rfl rfl ?_ ?_ ?_ ?_
    · rw [emitText_eq]
    · rw [emitText_eq]
    · intro opener raw hcall
      cases hcall
    · rw [lag_text hstate, lag_text rfl]
      exact Markers.released_append_held
  · obtain ⟨hmem, -, hpre, -⟩ := Markers.firstOf_spec hfirst
    rw [turn_text_some hstate hfirst]
    refine h.emit (Or.inl rfl) (Or.inl rfl) rfl rfl ?_ ?_ ?_ ?_
    · rw [emitText_eq]
    · rw [emitText_eq]
    · intro opener' raw hcall
      cases hcall
      exact ⟨h.openers_eq ▸ hmem, List.prefix_rfl⟩
    · rw [lag_text hstate, lag_inCall rfl, blockText_bodyStart]
      exact take_tag_drop hpre

theorem Tracks.turn_call {opener raw : List Char} (h : Tracks codec start p es u)
    (hstate : p.state = .inCall opener raw) :
    Tracks codec start (p.turn codec).1.1 (es ++ (p.turn codec).1.2) u := by
  obtain ⟨hmem, hraw⟩ := h.inBlock opener raw hstate
  have hmore : ∀ more, bodyStart opener <+: raw ++ more := fun more =>
    hraw.trans (List.prefix_append _ _)
  have hlag := lag_inCall hstate
  rcases hfind : Markers.find p.pending callClose with _ | i
  -- an open call is held as a whole: the opener, the body, and what may close it
  · have hheld : blockText opener (raw ++ Markers.released [callClose] p.pending) ++
        Markers.held [callClose] p.pending = p.lag := by
      rw [hlag, blockText_append, List.append_assoc, Markers.released_append_held]
    unfold turn
    rw [hstate]
    dsimp only
    rw [hfind]
    dsimp only
    split
    -- too long: the block becomes text, with its own letters
    case isTrue =>
      have halike := alike_block h.tagged hmem (hmore (Markers.released [callClose] p.pending)) []
      have hshows :=
        shows_block hmem (hmore (Markers.released [callClose] p.pending)) ([] : List Char)
      rw [List.append_nil, List.append_nil] at halike hshows
      refine h.emit halike hshows rfl rfl ?_ ?_ ?_ ?_
      · rw [emitText_eq]
      · rw [emitText_eq]
      · intro opener' raw' hcall
        rw [emitText_eq] at hcall
        cases hcall
      · rw [emitText_eq, lag_text rfl]
        exact hheld
    -- else nothing comes out, and the same letters are behind
    case isFalse =>
      rw [List.append_nil]
      obtain ⟨s, hspells, hu⟩ := h.spells
      refine ⟨h.tagged, h.openers_eq, h.schemas_eq, ?_, h.sound, h.swallows, s, hspells, ?_⟩
      · intro opener' raw' hcall
        cases hcall
        exact ⟨hmem, hmore _⟩
      · rw [lag_inCall rfl, hheld, hu]
  · obtain ⟨-, hpre, -⟩ := Markers.find_eq_some_iff.mp hfind
    -- the block and its tag, as they stand in the text
    have htaken : blockText opener (raw ++ p.pending.take i) ++ callClose ++
        p.pending.drop (i + callClose.length) = p.lag := by
      rw [hlag, blockText_append, List.append_assoc, List.append_assoc, take_tag_drop hpre]
    rw [turn_call_some hstate hfind]
    unfold closeBlock
    dsimp only
    split
    -- a call, whose source is the block
    case h_1 call hparse =>
      obtain ⟨s, hspells, hu⟩ := h.spells
      have hnone : ∀ x ∈ ([] : List Char), isWhite x := fun x hx => absurd hx List.not_mem_nil
      have hcall := hspells.append (Spells.singleton_call call
        (blockText opener (raw ++ p.pending.take i) ++ callClose) hnone)
      refine ⟨h.tagged, h.openers_eq, h.schemas_eq, ?_, ?_, fun _ => ⟨es, call, _, rfl⟩, _, hcall, ?_⟩
      · intro opener' raw' hcall
        cases hcall
      · intro e he
        rcases List.mem_append.mp he with hold | hnew
        · exact h.sound e hold
        · rw [List.mem_singleton.mp hnew]
          exact ⟨opener, hmem, _, rfl, h.schemas_eq ▸ hparse⟩
      · rw [lag_text rfl, List.append_nil, List.append_assoc, htaken, hu]
    -- no call: the block is text
    case h_2 =>
      refine h.emit (alike_block h.tagged hmem (hmore _) _) (shows_block hmem (hmore _) _)
        rfl rfl ?_ ?_ ?_ ?_
      · rw [emitText_eq]
      · rw [emitText_eq]
      · intro opener' raw' hcall
        rw [emitText_eq] at hcall
        cases hcall
      · rw [emitText_eq, lag_text rfl]
        exact htaken

theorem Tracks.turn (h : Tracks codec start p es u) :
    Tracks codec start (p.turn codec).1.1 (es ++ (p.turn codec).1.2) u := by
  cases hstate : p.state with
  | text => exact h.turn_text hstate
  | inCall opener raw => exact h.turn_call hstate

theorem Tracks.loop (h : Tracks codec start p es u) (fuel : ℕ) :
    Tracks codec start (p.loop codec fuel).1 (es ++ (p.loop codec fuel).2) u := by
  induction fuel generalizing p es with
  | zero =>
    unfold ToolCallParser.loop
    rwa [List.append_nil]
  | succ fuel ih =>
    unfold ToolCallParser.loop
    dsimp only
    split
    case isTrue => exact h.turn
    case isFalse =>
      have hrest := ih h.turn
      rwa [List.append_assoc] at hrest

theorem Tracks.extend (h : Tracks codec start p es u) (v : List Char) :
    Tracks codec start (p.extend v) es (u ++ v) := by
  obtain ⟨s, hspells, hu⟩ := h.spells
  refine ⟨h.tagged, h.openers_eq, h.schemas_eq, h.inBlock, h.sound, h.swallows, s, hspells, ?_⟩
  have hlag : (p.extend v).lag = p.lag ++ v := by
    cases hstate : p.state with
    | text =>
      have hstate' : (p.extend v).state = .text := hstate
      rw [lag_text hstate, lag_text hstate', ToolCallParser.extend]
    | inCall opener raw =>
      have hstate' : (p.extend v).state = .inCall opener raw := hstate
      rw [lag_inCall hstate, lag_inCall hstate', List.append_assoc, ToolCallParser.extend]
  rw [hlag, ← List.append_assoc, hu]

theorem Tracks.pushAll (h : Tracks codec start p es u) (pieces : List (List Char)) :
    Tracks codec start (p.pushAll codec pieces).1 (es ++ (p.pushAll codec pieces).2)
      (u ++ pieces.flatten) := by
  induction pieces generalizing p es u with
  | nil =>
    unfold ToolCallParser.pushAll
    rwa [List.flatten_nil, List.append_nil, List.append_nil]
  | cons text pieces ih =>
    have hpush : Tracks codec start (p.push codec text).1 (es ++ (p.push codec text).2) (u ++ text) := by
      rw [push_eq]
      exact (h.extend text).loop _
    have hrest := ih hpush
    rw [List.append_assoc, List.append_assoc] at hrest
    rwa [ToolCallParser.pushAll, List.flatten_cons]

/-- At the end the events spell the text that was fed. -/
theorem Tracks.finish (h : Tracks codec start p es u) :
    Spells (es ++ p.finish) u ∧
      ∀ e ∈ es ++ p.finish, e.Sound codec start.openers start.schemas := by
  obtain ⟨text, source, hfinish, halike, hshows, hlag⟩ : ∃ text source,
      p.finish = (p.emitText text source).2 ∧ Alike text source ∧
        Shows start.openers text source ∧ source = p.lag := by
    unfold ToolCallParser.finish
    cases hstate : p.state with
    | text => exact ⟨_, _, rfl, Or.inl rfl, Or.inl rfl, (lag_text hstate).symm⟩
    | inCall opener raw =>
      obtain ⟨hmem, hraw⟩ := h.inBlock opener raw hstate
      exact ⟨_, _, rfl, alike_block h.tagged hmem hraw _, shows_block hmem hraw _,
        (lag_inCall hstate).symm⟩
  obtain ⟨s, hspells, hu⟩ := h.spells
  rw [hfinish]
  refine ⟨?_, ?_⟩
  · rw [← hu, ← hlag]
    exact (emitText_spells halike hspells h.swallows).1
  · intro e he
    rcases List.mem_append.mp he with hold | hnew
    · exact h.sound e hold
    · exact emitText_sound h.tagged hshows e hnew

/-- A parser that has read nothing. -/
theorem tracks_new {tools : List ToolDefinition} (hnamed : Named tools) :
    Tracks codec (new tools) (new tools) [] [] := by
  refine ⟨hnamed.tagged, rfl, rfl, ?_, ?_, ?_, [], .nil, rfl⟩
  · intro opener raw hcall
    cases hcall
  · intro e he
    cases he
  · intro hswallow
    cases hswallow

theorem tracks_parse {tools : List ToolDefinition} (hnamed : Named tools)
    (pieces : List (List Char)) :
    Spells (parse codec tools pieces) pieces.flatten ∧
      ∀ e ∈ parse codec tools pieces, e.Sound codec (new tools).openers (new tools).schemas :=
  ((tracks_new hnamed).pushAll pieces).finish

/-- The events hold the text that was fed: each text shows its source, each call was read
from its block, and only whitespace behind a call is lost. -/
theorem parse_spells {tools : List ToolDefinition} (hnamed : Named tools)
    (pieces : List (List Char)) :
    Spells (parse codec tools pieces) pieces.flatten ∧
      (∀ t source, ToolEvent.text t source ∈ parse codec tools pieces →
        Shows (new tools).openers t source) ∧
      ∀ c source, ToolEvent.call c source ∈ parse codec tools pieces →
        ∃ opener ∈ (new tools).openers, ∃ raw, source = blockText opener raw ++ callClose ∧
          CallBlock.parseCall codec (new tools).schemas raw = some c := by
  obtain ⟨hspells, hsound⟩ := @tracks_parse codec tools hnamed pieces
  exact ⟨hspells, fun t source he => hsound _ he, fun c source he => hsound _ he⟩

theorem parse_spells_witness :
    Spells (parse noCodec oneTool cutCall) cutCall.flatten ∧
      (∀ t source, ToolEvent.text t source ∈ parse noCodec oneTool cutCall →
        Shows (new oneTool).openers t source) ∧
      ∀ c source, ToolEvent.call c source ∈ parse noCodec oneTool cutCall →
        ∃ opener ∈ (new oneTool).openers, ∃ raw, source = blockText opener raw ++ callClose ∧
          CallBlock.parseCall noCodec (new oneTool).schemas raw = some c :=
  parse_spells oneTool_named cutCall

end ToolCallParser
