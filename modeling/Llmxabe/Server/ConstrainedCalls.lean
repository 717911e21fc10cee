/-
Answers under the grammar, and what the parser reads in them.

The grammar of a request holds the model to the markup that the parser reads.  An answer that it
lets end is text and calls (`answer_of_constraint`), and the parser reads these calls: each of a
tool that was offered, with parameters that the tool declares and with those that it requires
(`parse_constrained`).  The two disagree on a value that holds a closer: the grammar looks for the
closer on a line of its own, the parser does not.
-/
import Llmxabe.Grammar.Constraint
import Llmxabe.Grammar.Texts

namespace Grammar

open CallBlock (argumentText functionText readArguments Legible)
open Encoding (utf8)
open ToolCallParser (bodyStart)

variable {spell : Json → String} {depth : ℕ} {tools : List ToolDefinition} {specs : List ToolSpec}
  {codec : Codec}

/-! ### Tools that were built -/

theorem built_name {tool : ToolDefinition} (h : Built tool) : tool.name ≠ "" ∧
    '>' ∉ tool.name.toList ∧ '<' ∉ tool.name.toList ∧ '\n' ∉ tool.name.toList := by
  obtain ⟨name, description, schema, hbuild⟩ := h
  obtain ⟨rfl, hmarkup⟩ := ToolDefinition.build_name hbuild
  exact hmarkup

theorem built_named (hbuilt : ∀ tool ∈ tools, Built tool) : ToolCallParser.Named tools := by
  intro tool hmem
  obtain ⟨-, hclosing, hopening, -⟩ := built_name (hbuilt tool hmem)
  exact ⟨hopening, hclosing⟩

theorem name_of_bytes {s t : String} (h : bytes s = bytes t) : s = t := by
  rw [bytes_eq, bytes_eq] at h
  exact String.toList_injective (Encoding.utf8_injective h)

theorem named_of_writable {name : String} (h : writable name = true) :
    CallBlock.named name.toList = true ∧ '>' ∉ name.toList := by
  obtain ⟨hne, hopening, hclosing, hline⟩ := of_decide_eq_true h
  refine ⟨decide_eq_true ⟨fun hnil => hne ?_, hopening, hline⟩, hclosing⟩
  exact String.toList_injective hnil

/-- What the grammar read is a tool of the request. -/
theorem tool_of_spec (h : List.Forall₂ Reads tools specs) {spec : ToolSpec} (hspec : spec ∈ specs) :
    ∃ tool ∈ tools, Reads tool spec := by
  obtain ⟨i, hi, rfl⟩ := List.getElem_of_mem hspec
  have hi' : i < tools.length := h.length_eq ▸ hi
  exact ⟨tools[i], List.getElem_mem hi', (List.forall₂_iff_get.mp h).2 i hi' hi⟩

theorem spellable_of_reads (h : List.Forall₂ Reads tools specs) : Spellable specs := by
  intro spec hspec
  obtain ⟨tool, -, hreads⟩ := tool_of_spec h hspec
  exact ⟨⟨tool.name, hreads.name⟩, hreads.params⟩

/-! ### Where the grammar arms -/

/-- Where the grammar's first trigger stands, the text has its first opener. -/
theorem front_of_trigger (hreads : List.Forall₂ Reads tools specs)
    (hnamed : ToolCallParser.Named tools) {w : List Char} {i : ℕ}
    (h : ToolConstraint.triggerAt (Machine.compile specs true) (utf8 w) = some i) :
    ∃ front region, w = front ++ region ∧ utf8 region = (utf8 w).drop i ∧
      ∀ k, ¬Markers.Occurs (ToolCallParser.new tools).openers front k := by
  obtain ⟨⟨t, ht, -, hpre⟩, hleast⟩ := Markers.firstAt_eq_some_iff.mp h
  rw [triggers_compile hreads] at ht hleast
  obtain ⟨opener, hopener, rfl⟩ := List.mem_map.mp ht
  have hwhole : Encoding.Whole ((utf8 w).drop i) := by
    obtain ⟨rest, hrest⟩ := hpre
    have hne : utf8 opener ≠ [] := mt Encoding.utf8_eq_nil_iff.mp (hnamed.tagged.ne_nil hopener)
    rw [← hrest]
    exact (Encoding.whole_utf8 opener).append hne rest
  obtain ⟨front, region, rfl, hfront, hregion⟩ :=
    Encoding.cut_at (List.take_append_drop i (utf8 w)).symm hwhole
  refine ⟨front, region, rfl, hregion, ?_⟩
  rintro k ⟨opener', hopener', hne, hpre'⟩
  -- its bytes would be a trigger that stands further in front
  have hlong := Markers.length_of_prefix_drop hpre' hne
  have hpos := List.length_pos_iff.mpr hne
  have hcut : utf8 (front.take k) ++ utf8 (front.drop k) = utf8 front := by
    rw [← Encoding.utf8_append, List.take_append_drop]
  have hdrop : (utf8 (front ++ region)).drop (utf8 (front.take k)).length =
      utf8 (front.drop k) ++ utf8 region := by
    rw [Encoding.utf8_append, ← hcut, List.append_assoc, List.drop_left]
  obtain ⟨rest, hrest⟩ := hpre'
  refine hleast (utf8 (front.take k)).length ?_ ⟨utf8 opener', List.mem_map_of_mem hopener', ?_, ?_⟩
  · have hlen := congrArg List.length hfront
    rw [← hcut, List.length_append, List.length_take] at hlen
    have hrestlen : 0 < (utf8 (front.drop k)).length := by
      rw [List.length_pos_iff, Ne, Encoding.utf8_eq_nil_iff, List.drop_eq_nil_iff]
      omega
    omega
  · exact mt Encoding.utf8_eq_nil_iff.mp hne
  · rw [hdrop, ← hrest, Encoding.utf8_append, List.append_assoc]
    exact List.prefix_append _ _

/-- An answer that the grammar lets end is text and calls. -/
theorem answer_of_constraint (hreads : List.Forall₂ Reads tools specs)
    (hbuilt : ∀ tool ∈ tools, Built tool) (htools : specs.length ≤ 65536)
    (hparams : ∀ spec ∈ specs, spec.params.length ≤ 256) {vocab : Vocab} {tokens : List ℤ}
    {w : List Char} (hbytes : tokens.flatMap (ToolConstraint.tokenBytes vocab) = utf8 w)
    {s : ToolConstraint}
    (hs : tokens.foldl (ToolConstraint.observe (Machine.compile specs true) vocab)
      ToolConstraint.new = s)
    (harmed : s.armed = true) (hends : (Machine.compile specs true).acceptsEnd s.cursors = true) :
    ∃ (front : List Char) (call : WrittenCall) (calls : List WrittenCall),
      w = front ++ (call :: calls).flatMap (fun call => call.source ++ call.space) ∧
      (∀ k, ¬Markers.Occurs (ToolCallParser.new tools).openers front k) ∧
      (∀ call' ∈ call :: calls, call'.Conforms specs) ∧ ∀ call' ∈ calls, call'.opened = true := by
  have hnames : ∀ spec ∈ specs, 0x3c ∉ spec.name := by
    intro spec hspec hmem
    obtain ⟨tool, htool, hname⟩ := tool_of_spec hreads hspec
    rw [hname.name, bytes_eq] at hmem
    exact (built_name (hbuilt tool htool)).2.2.1 (Encoding.mem_of_byte (c := '<') rfl hmem)
  have hafter := ToolConstraint.foldl_observe (compile_headed true hnames)
    (compile_start_ne_nil specs true) vocab tokens
  rw [hs, hbytes] at hafter
  unfold ToolConstraint.after at hafter
  rcases hfirst : ToolConstraint.triggerAt (Machine.compile specs true) (utf8 w) with _ | i
  · rw [hfirst] at hafter
    rw [hafter] at harmed
    cases harmed
  · rw [hfirst] at hafter
    rw [hafter] at hends
    obtain ⟨front, region, rfl, hregion, hfront⟩ :=
      front_of_trigger hreads (built_named hbuilt) hfirst
    have haccepts : (Machine.compile specs true).Accepts (utf8 region) := by
      rw [hregion]
      exact hends
    obtain ⟨call, calls, rfl, hconforms, hopened⟩ := calls_of_root (spellable_of_reads hreads)
      ((accepts_iff_mem_root htools hparams _).mp haccepts)
    exact ⟨front, call, calls, rfl, hfront, hconforms, hopened⟩

/-! ### Reading the calls -/

namespace WrittenCall

/-- What the parser makes of a call. -/
def parsed (codec : Codec) (tools : List ToolDefinition) (call : WrittenCall) : ParsedToolCall :=
  ⟨call.name, readArguments codec ((ToolCallParser.new tools).schemas.reverse.lookup call.name) []
    call.arguments⟩

/-- No text of the call holds a closer, and the call is not too long. -/
structure Contained (call : WrittenCall) : Prop where
  parameter : ∀ argument ∈ call.arguments, ¬"</parameter>".toList <:+: argument.2
  closer : ∀ argument ∈ call.arguments, ¬callClose <:+: argument.2
  short : Detokenizer.byteLen call.body ≤ maxCallBytes

variable {call : WrittenCall}

/-- An argument stands in the text of its call, and its value in the argument. -/
theorem argument_inside {argument : String × List Char}
    (hmem : argument ∈ call.arguments) :
    argumentText argument <:+: call.body ∧ argument.2 <:+: argumentText argument := by
  constructor
  · have hall : argumentText argument <:+: call.arguments.flatMap argumentText := by
      obtain ⟨before, after, hsplit⟩ := List.append_of_mem hmem
      rw [hsplit, List.flatMap_append, List.flatMap_cons, ← List.append_assoc]
      exact List.infix_append _ _ _
    have hfunction : call.arguments.flatMap argumentText <:+:
        functionText call.name call.arguments := by
      unfold functionText
      exact ((List.prefix_append _ _).isInfix.trans (List.suffix_cons _ _).isInfix).trans
        (List.suffix_append _ _).isInfix
    exact (hall.trans hfunction).trans (List.suffix_append _ _).isInfix
  · unfold argumentText
    have hvalue : argument.2 <:+: (argument.2 ++ ['\n']) ++ ("</parameter>".toList ++ ['\n']) :=
      ((List.prefix_append _ _).trans (List.prefix_append _ _)).isInfix
    have hopened := (hvalue.trans (List.suffix_cons '\n' _).isInfix).trans
      (List.suffix_cons '>' _).isInfix
    exact (hopened.trans (List.suffix_append argument.1.toList _).isInfix).trans
      (List.suffix_append _ _).isInfix

/-- The call's tool is one of the request's. -/
theorem Conforms.tool (h : call.Conforms specs) (hreads : List.Forall₂ Reads tools specs) :
    ∃ tool ∈ tools, tool.name = call.name := by
  obtain ⟨spec, hspec, hname, -⟩ := h.written
  obtain ⟨tool, htool, hread⟩ := tool_of_spec hreads hspec
  exact ⟨tool, htool, name_of_bytes (hread.name.symm.trans hname)⟩

theorem Conforms.named (h : call.Conforms specs) (hreads : List.Forall₂ Reads tools specs)
    (hbuilt : ∀ tool ∈ tools, Built tool) :
    CallBlock.named call.name.toList = true ∧ '>' ∉ call.name.toList := by
  obtain ⟨tool, htool, hname⟩ := h.tool hreads
  obtain ⟨hne, hclosing, hopening, hline⟩ := built_name (hbuilt tool htool)
  rw [← hname]
  exact named_of_writable (decide_eq_true ⟨hne, hopening, hclosing, hline⟩)

theorem Conforms.legible (h : call.Conforms specs) (hcontained : call.Contained) :
    ∀ argument ∈ call.arguments, Legible argument := by
  intro argument hmem
  obtain ⟨hnamed, hclosed⟩ := named_of_writable (h.writable argument hmem)
  exact ⟨hnamed, hclosed, hcontained.parameter argument hmem⟩

variable (hreads : List.Forall₂ Reads tools specs) (hbuilt : ∀ tool ∈ tools, Built tool)
include hreads hbuilt

theorem Conforms.function_open (h : call.Conforms specs) (hcontained : call.Contained) :
    ¬callClose <:+: functionText call.name call.arguments :=
  CallBlock.functionText_open (h.named hreads hbuilt).1 (h.legible hcontained) hcontained.closer

theorem Conforms.parseCall_body (h : call.Conforms specs) (hcontained : call.Contained) :
    CallBlock.parseCall codec (ToolCallParser.new tools).schemas call.body =
      some (call.parsed codec tools) := by
  obtain ⟨hnamed, hclosed⟩ := h.named hreads hbuilt
  have hread : CallBlock.parseCall codec (ToolCallParser.new tools).schemas
      (functionText call.name call.arguments) = some (call.parsed codec tools) :=
    CallBlock.parseCall_text hnamed hclosed (h.legible hcontained)
  unfold body
  cases call.opened with
  | true => exact (CallBlock.parseCall_line _).trans hread
  | false => exact hread

/-- The block of a call, whichever opener it has. -/
theorem Conforms.block (h : call.Conforms specs) (hcontained : call.Contained) :
    ∃ opener inside, opener ∈ (ToolCallParser.new tools).openers ∧
      call.source = opener ++ (inside ++ callClose) ∧ bodyStart opener ++ inside = call.body ∧
        ¬callClose <:+: inside := by
  have hopen := h.function_open hreads hbuilt hcontained
  unfold source body
  cases call.opened with
  | true =>
    exact ⟨callOpen, '\n' :: functionText call.name call.arguments, List.mem_cons_self, rfl, rfl,
      CallBlock.across_lines (by decide : ¬callClose <:+: []) hopen⟩
  | false =>
    obtain ⟨tool, htool, hname⟩ := h.tool hreads
    set opener := "<function=".toList ++ call.name.toList ++ ['>'] with hopener
    set inside := '\n' :: (call.arguments.flatMap argumentText ++ ("</function>".toList ++ ['\n']))
    have htext : functionText call.name call.arguments = opener ++ inside := by
      unfold functionText
      simp only [hopener, inside, List.append_assoc]
    have hother : opener ≠ callOpen := by
      have hword : "<function=".toList = '<' :: 'f' :: "unction=".toList := by decide
      rw [hopener, hword]
      intro hsame
      exact absurd (List.cons.inj (List.cons.inj hsame).2).1 (by decide)
    refine ⟨opener, inside, ?_, ?_, ?_, fun hclose => hopen ?_⟩
    · refine List.mem_cons_of_mem _ (List.mem_map.mpr ⟨tool, htool, ?_⟩)
      rw [hname]
    · rw [htext]
      show opener ++ inside ++ callClose = _
      exact List.append_assoc _ _ _
    · rw [htext, bodyStart, if_neg hother]
      rfl
    · rw [htext]
      exact hclose.trans (List.suffix_append _ _).isInfix

/-- Calls behind a call are blocks, with the whitespace between them. -/
theorem blocks_of_calls {calls : List WrittenCall} {space : List Char}
    (hspace : ∀ c ∈ space, isWhite c = true) (hconforms : ∀ call ∈ calls, call.Conforms specs)
    (hopened : ∀ call ∈ calls, call.opened = true) (hcontained : ∀ call ∈ calls, call.Contained) :
    ∃ (blocks : List ToolCallParser.Block) (tail : List Char),
      space ++ calls.flatMap (fun call => call.source ++ call.space) =
        blocks.flatMap ToolCallParser.Block.text ++ tail ∧
      (∀ block ∈ blocks, block.Reads codec (ToolCallParser.new tools).schemas) ∧
      (∀ block ∈ blocks, Detokenizer.byteLen block.body ≤ maxCallBytes) ∧
      (∀ c ∈ tail, isWhite c = true) ∧
      blocks.map ToolCallParser.Block.atom =
        calls.map fun call => Sum.inr (call.parsed codec tools, call.source) := by
  induction calls generalizing space with
  | nil =>
    exact ⟨[], space, List.append_nil _, List.forall_mem_nil _, List.forall_mem_nil _, hspace, rfl⟩
  | cons call calls ih =>
    have hcall := hconforms call List.mem_cons_self
    have hinside := hcontained call List.mem_cons_self
    obtain ⟨blocks, tail, htext, hblocks, hshort, htail, hatoms⟩ := ih hcall.white
      (fun call hmem => hconforms call (List.mem_cons_of_mem _ hmem))
      (fun call hmem => hopened call (List.mem_cons_of_mem _ hmem))
      fun call hmem => hcontained call (List.mem_cons_of_mem _ hmem)
    have hbody : call.body = '\n' :: functionText call.name call.arguments := by
      rw [body, hopened call List.mem_cons_self]
      rfl
    have hsource : call.source = callOpen ++ (call.body ++ callClose) := by
      rw [source, hopened call List.mem_cons_self]
      rfl
    refine ⟨⟨space, call.body, call.parsed codec tools⟩ :: blocks, tail, ?_,
      List.forall_mem_cons.mpr ⟨⟨hspace, ?_, hcall.parseCall_body hreads hbuilt hinside⟩, hblocks⟩,
      List.forall_mem_cons.mpr ⟨hinside.short, hshort⟩, htail, ?_⟩
    · rw [List.flatMap_cons, List.flatMap_cons, ToolCallParser.Block.text, List.append_assoc,
        List.append_assoc, List.append_assoc, htext, hsource]
    · rw [hbody]
      exact CallBlock.across_lines (by decide : ¬callClose <:+: [])
        (hcall.function_open hreads hbuilt hinside)
    · rw [List.map_cons, List.map_cons, hatoms, hsource]
      rfl

end WrittenCall

/-- What the grammar promises of a call that was read: its tool was offered, its arguments are
declared, and none of the first 64 parameters is missing that is required. -/
def Admits (specs : List ToolSpec) (call : ParsedToolCall) : Prop :=
  ∃ spec ∈ specs, spec.name = bytes call.name ∧
    (∀ argument ∈ call.arguments, ∃ param ∈ spec.params, param.name = bytes argument.1) ∧
    ∀ i param, spec.params[i]? = some param → param.required = true → i < TRACKED_PARAMS →
      ∃ argument ∈ call.arguments, param.name = bytes argument.1

theorem WrittenCall.Conforms.admits {call : WrittenCall} (h : call.Conforms specs) (codec : Codec)
    (tools : List ToolDefinition) : Admits specs (call.parsed codec tools) := by
  obtain ⟨spec, hspec, hname, args, hwritten, hwriting⟩ := h.written
  have hkeys : ∀ key, key ∈ (call.parsed codec tools).arguments.map Prod.fst ↔
      key ∈ call.arguments.map Prod.fst := by
    intro key
    refine CallBlock.mem_keys_readArguments.trans ⟨fun hmem => ?_, Or.inr⟩
    exact hmem.resolve_left List.not_mem_nil
  refine ⟨spec, hspec, hname, fun argument hmem => ?_, fun i param hparam hrequired hi => ?_⟩
  · obtain ⟨source, hsource, hkey⟩ := List.mem_map.mp ((hkeys _).mp (List.mem_map_of_mem hmem))
    obtain ⟨j, hj, rfl⟩ := List.getElem_of_mem hsource
    have hj' : j < args.length := hwriting.length_eq ▸ hj
    obtain ⟨⟨param, hparam, hnamed⟩, -⟩ := (List.forall₂_iff_get.mp hwriting).2 j hj' hj
    exact ⟨param, List.mem_of_getElem? hparam, hnamed.trans (congrArg bytes hkey)⟩
  · have hindex := hwritten.complete i param hparam hrequired (decide_eq_true hi)
    obtain ⟨p, hp, rfl⟩ := List.mem_map.mp hindex
    obtain ⟨j, hj, rfl⟩ := List.getElem_of_mem hp
    have hj' : j < call.arguments.length := hwriting.length_eq ▸ hj
    obtain ⟨⟨param', hparam', hnamed⟩, -⟩ := (List.forall₂_iff_get.mp hwriting).2 j hj hj'
    obtain rfl := Option.some.inj (hparam.symm.trans hparam')
    have hkey := (hkeys _).mpr (List.mem_map_of_mem (List.getElem_mem hj'))
    obtain ⟨argument, hargument, hsame⟩ := List.mem_map.mp hkey
    exact ⟨argument, hargument, hnamed.trans (congrArg bytes hsame.symm)⟩

/-- An answer that the grammar lets end is text in front of the first opener and then calls, each
written as the grammar spells it; the calls are what the grammar promises, and unless a value holds
a closer the parser reads exactly this text and these calls. -/
theorem parse_constrained (hbuilt : ∀ tool ∈ tools, Built tool)
    (hspecs : offered spell depth tools = some specs) (htools : specs.length ≤ 65536)
    (hparams : ∀ spec ∈ specs, spec.params.length ≤ 256) {vocab : Vocab} {tokens : List ℤ}
    {pieces : List (List Char)}
    (hbytes : tokens.flatMap (ToolConstraint.tokenBytes vocab) = utf8 pieces.flatten)
    {s : ToolConstraint}
    (hs : tokens.foldl (ToolConstraint.observe (Machine.compile specs true) vocab)
      ToolConstraint.new = s)
    (harmed : s.armed = true) (hends : (Machine.compile specs true).acceptsEnd s.cursors = true) :
    ∃ (front : List Char) (calls : List WrittenCall), calls ≠ [] ∧
      pieces.flatten = front ++ calls.flatMap (fun call => call.source ++ call.space) ∧
      (∀ k, ¬Markers.Occurs (ToolCallParser.new tools).openers front k) ∧
      (∀ call ∈ calls, call.Conforms specs) ∧
      (∀ call ∈ calls, Admits specs (call.parsed codec tools)) ∧
      ((∀ call ∈ calls, call.Contained) →
        atomsOf (ToolCallParser.parse codec tools pieces) = front.map Sum.inl ++
          calls.map fun call => .inr (call.parsed codec tools, call.source)) := by
  have hreads := offered_reads hbuilt hspecs
  obtain ⟨front, call, calls, htext, hfront, hconforms, hopened⟩ :=
    answer_of_constraint hreads hbuilt htools hparams hbytes hs harmed hends
  refine ⟨front, call :: calls, List.cons_ne_nil _ _, htext, hfront, hconforms,
    fun call' hmem => (hconforms call' hmem).admits codec tools, fun hcontained => ?_⟩
  obtain ⟨hcall, hcalls⟩ := List.forall_mem_cons.mp hconforms
  obtain ⟨hinside, hothers⟩ := List.forall_mem_cons.mp hcontained
  obtain ⟨opener, inside, hopener, hsource, hbody, hopen⟩ := hcall.block hreads hbuilt hinside
  obtain ⟨blocks, tail, hblocks, hread, hshort, htail, hatoms⟩ :=
    @WrittenCall.blocks_of_calls _ _ codec hreads hbuilt calls call.space hcall.white hcalls hopened
      hothers
  have hpieces : pieces.flatten = front ++ (opener ++ (inside ++ (callClose ++
      (blocks.flatMap ToolCallParser.Block.text ++ tail)))) := by
    rw [htext, List.flatMap_cons, List.append_assoc, hblocks, hsource]
    simp only [List.append_assoc]
  have hparse : CallBlock.parseCall codec (ToolCallParser.new tools).schemas
      (bodyStart opener ++ inside) = some (call.parsed codec tools) := by
    rw [hbody]
    exact hcall.parseCall_body hreads hbuilt hinside
  rw [ToolCallParser.parse_blocks (built_named hbuilt) hopener hfront hopen hparse
    (hbody ▸ hinside.short) hread hshort htail hpieces, hatoms, ← hsource, List.map_cons]

/-- A tool with a required string parameter, as a request offers it. -/
def noteSchema : Json :=
  .object [("properties", .object [("x", .object [("type", .string "string")])]),
    ("required", .array [.string "x"])]

/-- The tool of that schema. -/
def noteRequest : ToolDefinition where
  name := "note"
  wrapper := .object [("type", .string "function"), ("function", .object
    [("name", .string "note"), ("description", .string ""), ("parameters", noteSchema)])]
  stringParams := [("x", true)]

theorem noteRequest_built : Built noteRequest := ⟨"note", none, some noteSchema, by rfl⟩

/-- What the grammar reads of it. -/
def noteSpec : ToolSpec := ⟨bytes "note", [⟨bytes "x", true, .text⟩]⟩

theorem noteRequest_offered : offered (fun _ => "") 2 [noteRequest] = some [noteSpec] := by rfl

/-- An answer that the grammar of the request lets end. -/
def noted : List Char :=
  "Noted. <function=note>\n<parameter=x>\n5 < 6\n</parameter>\n</function>\n</tool_call>\n".toList

/-- A vocabulary whose one token is the whole answer. -/
def notedVocab : Vocab := Vocab.new [utf8 noted] []

/-- The constraint behind the answer. -/
def notedEnd : ToolConstraint :=
  [0].foldl (ToolConstraint.observe (Machine.compile [noteSpec] true) notedVocab) ToolConstraint.new

set_option maxRecDepth 20000 in
theorem notedEnd_ends : notedEnd.armed = true ∧
    (Machine.compile [noteSpec] true).acceptsEnd notedEnd.cursors = true := by decide +kernel

theorem noted_count : noted.count 'p' = 2 ∧ noted.count 'l' = 3 := by decide +kernel

theorem noted_short : Detokenizer.byteLen noted ≤ maxCallBytes := by decide +kernel

/-- A call that stands in the answer is not too long, and its values hold no closer: the answer
has too few letters for a second one. -/
theorem noted_contained {call : WrittenCall} (h : call.source <:+: noted) : call.Contained := by
  have hbody : call.body <:+: call.source := by
    unfold WrittenCall.source
    exact ((List.prefix_append _ _).isInfix).trans (List.suffix_append _ _).isInfix
  have hparameter : ∀ argument ∈ call.arguments, ¬"</parameter>".toList <:+: argument.2 := by
    intro argument hmem hcloser
    -- one `p` in the opening tag and one in the closing tag are all there are
    obtain ⟨hargument, -⟩ := WrittenCall.argument_inside hmem
    have hp := ((hargument.trans hbody).trans h).sublist.count_le 'p'
    have hvalue := hcloser.sublist.count_le 'p'
    have hopening : "<parameter=".toList.count 'p' = 1 := by decide +kernel
    have hclosing : "</parameter>".toList.count 'p' = 1 := by decide +kernel
    rw [hclosing] at hvalue
    unfold argumentText at hp
    rw [noted_count.1, List.count_append, List.count_append, List.count_cons,
      List.count_cons, List.count_append, List.count_append, List.count_append, hopening,
      hclosing] at hp
    omega
  have hcloser : ∀ argument ∈ call.arguments, ¬callClose <:+: argument.2 := by
    intro argument hmem hcloser
    -- the three `l` of the block's own closer are all there are
    obtain ⟨hargument, hinside⟩ := WrittenCall.argument_inside hmem
    have hl := h.sublist.count_le 'l'
    have hvalue := ((hcloser.trans hinside).trans hargument).sublist.count_le 'l'
    have hclose : callClose.count 'l' = 3 := by decide +kernel
    unfold WrittenCall.source at hl
    rw [List.count_append, List.count_append, noted_count.2, hclose] at hl
    rw [hclose] at hvalue
    omega
  have hshort : Detokenizer.byteLen call.body ≤ Detokenizer.byteLen noted := by
    obtain ⟨before, after, hsplit⟩ := hbody.trans h
    rw [← hsplit, Detokenizer.byteLen_append, Detokenizer.byteLen_append]
    exact (Nat.le_add_left _ _).trans (Nat.le_add_right _ _)
  exact WrittenCall.Contained.mk hparameter hcloser (hshort.trans noted_short)

/-- The answer is text and calls, every call is of the tool with its parameter, and the parser
reads this text and these calls. -/
theorem parse_constrained_witness :
    ∃ (front : List Char) (calls : List WrittenCall), calls ≠ [] ∧
      noted = front ++ calls.flatMap (fun call => call.source ++ call.space) ∧
      (∀ k, ¬Markers.Occurs (ToolCallParser.new [noteRequest]).openers front k) ∧
      (∀ call ∈ calls, call.Conforms [noteSpec]) ∧
      (∀ call ∈ calls, Admits [noteSpec] (call.parsed ToolCallParser.noCodec [noteRequest])) ∧
      atomsOf (ToolCallParser.parse ToolCallParser.noCodec [noteRequest] [noted]) =
        front.map Sum.inl ++ calls.map fun call =>
          .inr (call.parsed ToolCallParser.noCodec [noteRequest], call.source) := by
  have hbytes : [0].flatMap (ToolConstraint.tokenBytes notedVocab) = utf8 [noted].flatten := by
    rw [List.flatten_singleton, List.flatMap_singleton]
    rfl
  obtain ⟨front, calls, hsome, htext, hfront, hconforms, hadmits, hparsed⟩ :=
    @parse_constrained _ _ _ _ ToolCallParser.noCodec
      (List.forall_mem_singleton.mpr noteRequest_built) noteRequest_offered (by decide)
      (List.forall_mem_singleton.mpr (by decide)) notedVocab [0] [noted] hbytes _ rfl
      notedEnd_ends.1 notedEnd_ends.2
  rw [List.flatten_singleton] at htext
  refine ⟨front, calls, hsome, htext, hfront, hconforms, hadmits, hparsed fun call hmem => ?_⟩
  obtain ⟨before, after, hsplit⟩ := List.append_of_mem hmem
  have hinside : call.source <:+: noted := by
    rw [htext, hsplit, List.flatMap_append, List.flatMap_cons, List.append_assoc call.source,
      ← List.append_assoc, ← List.append_assoc]
    exact List.infix_append _ _ _
  exact noted_contained hinside

end Grammar
