/-
The markup of a rendered call, and what the parser reads in it.

Calls are rendered in the markup that they are parsed from (`Conversation.renderCall`).  The
markup of a call that was read is read as the same call (`Replayable.of_read`,
`parseCall_rendered`), unless the text of a value is parsed as another one.
-/
import Llmxabe.Server.CallChunks

namespace Text

theorem spell_append (a b : Text) : (a ++ b).spell = a.spell ++ b.spell := List.flatMap_append

theorem spell_of (s : String) : (Text.of s).spell = s.toList := by
  unfold of spell
  rw [List.flatMap_map]
  exact List.flatMap_singleton' _

end Text

namespace CallBlock

/-! ### Reading what was written -/

theorem strip_append (word rest : List Char) : strip word (word ++ rest) = some rest := by
  unfold strip
  rw [if_pos (List.prefix_append _ _), List.drop_left]

/-- The tags differ in their second letter. -/
theorem strip_other {c c' : Char} {word word' u u' : List Char} (hword : word = '<' :: c :: u)
    (hword' : word' = '<' :: c' :: u') (hne : c ≠ c') (rest : List Char) :
    strip word (word' ++ rest) = none := by
  subst hword hword'
  refine if_neg ?_
  rintro ⟨after, hafter⟩
  exact hne (List.cons.inj (List.cons.inj hafter).2).1

theorem stripEnd_append (word text : List Char) : stripEnd word (text ++ word) = some text := by
  unfold stripEnd
  rw [if_pos (List.suffix_append _ _), List.length_append, Nat.add_sub_cancel, List.take_left]

theorem cut_append {word text : List Char} (rest : List Char)
    (h : Markers.find (text ++ (word ++ rest)) word = some text.length) :
    cut word (text ++ (word ++ rest)) = some (text, rest) := by
  unfold cut
  rw [h, Option.map_some, List.take_left, ← List.drop_drop, List.drop_left, List.drop_left]

theorem trimStart_white {c : Char} (hc : isWhite c = true) (w : List Char) :
    trimStart (c :: w) = trimStart w := List.dropWhile_cons_of_pos hc

theorem trimStart_black {c : Char} (hc : ¬isWhite c = true) (w : List Char) :
    trimStart (c :: w) = c :: w := List.dropWhile_cons_of_neg hc

/-- A line of markup loses the newline behind it. -/
theorem trim_line (w : List Char) : trim ('<' :: w ++ '>' :: ['\n']) = '<' :: w ++ ['>'] := by
  unfold trim
  rw [List.cons_append, trimStart_black (by decide)]
  have hreversed : ('<' :: (w ++ '>' :: ['\n'])).reverse = '\n' :: '>' :: (w.reverse ++ ['<']) := by
    simp
  rw [hreversed, trimStart_white (by decide), trimStart_black (by decide)]
  simp

theorem insert_fresh {members : JsonMap} {key : String} (h : key ∉ members.map Prod.fst)
    (value : Json) : insert members key value = members ++ [(key, value)] := if_neg h

/-! ### Arguments -/

/-- An argument in the markup. -/
def argumentText (argument : String × List Char) : List Char :=
  "<parameter=".toList ++ (argument.1.toList ++ ('>' :: '\n' ::
    ((argument.2 ++ ['\n']) ++ ("</parameter>".toList ++ ['\n']))))

/-- An argument whose key and whose text end where the markup ends them. -/
structure Legible (argument : String × List Char) : Prop where
  named : named argument.1.toList = true
  closed : '>' ∉ argument.1.toList
  parameter : ¬"</parameter>".toList <:+: argument.2

section

variable (codec : Codec) (params : Option (List (String × Bool)))

/-- A parameter that is declared a string. -/
def declared (key : String) : Bool := (params.bind (·.lookup key)).getD false

/-- What some arguments are read as, behind those that are `done`. -/
def readArguments (done : JsonMap) (arguments : List (String × List Char)) : JsonMap :=
  arguments.foldl (fun done argument =>
    insert done argument.1 (typed codec params argument.1.toList argument.2)) done

/-- The text of a value. -/
def writtenArgument (argument : String × Json) : String × List Char :=
  (argument.1, (parameterValue codec argument.2).toList)

/-- An argument that the markup can hold, and whose text is read back as its value. -/
structure Held (argument : String × Json) : Prop where
  named : named argument.1.toList = true
  closed : '>' ∉ argument.1.toList
  parameter : ¬"</parameter>".toList <:+: (parameterValue codec argument.2).toList
  call : ¬callClose <:+: (parameterValue codec argument.2).toList
  kept : typed codec params argument.1.toList (parameterValue codec argument.2).toList = argument.2

end

variable {codec : Codec} {params : Option (List (String × Bool))} {argument : String × Json}
  {arguments : List (String × List Char)}

theorem parameter_tagged : Markers.Tags '<' '>' ["</parameter>".toList] := by
  refine ⟨by decide, fun t ht => ⟨"/parameter".toList, ?_, by decide, by decide⟩⟩
  rw [List.mem_singleton.mp ht]
  decide

theorem parameterOpen : "<parameter=".toList = '<' :: 'p' :: "arameter=".toList := by decide

theorem functionClose : "</function>".toList = '<' :: '/' :: "function>".toList := by decide

/-- An argument's markup, line by line. -/
theorem argumentText_append (argument : String × List Char) (rest : List Char) :
    argumentText argument ++ rest = "<parameter=".toList ++ (argument.1.toList ++ ('>' :: '\n' ::
      ((argument.2 ++ ['\n']) ++ ("</parameter>".toList ++ '\n' :: rest)))) := by
  unfold argumentText
  simp only [List.append_assoc, List.cons_append, List.nil_append]

theorem parseParameter_text {argument : String × List Char} (h : Legible argument)
    (rest : List Char) : parseParameter codec params (argumentText argument ++ rest) =
      some ((argument.1, typed codec params argument.1.toList argument.2), '\n' :: rest) := by
  set after := (argument.2 ++ ['\n']) ++ ("</parameter>".toList ++ '\n' :: rest)
  have hkey : cut ['>'] (argument.1.toList ++ '>' :: '\n' :: after) =
      some (argument.1.toList, '\n' :: after) :=
    cut_append _ (Markers.find_letter h.closed _)
  have hnone : ∀ k, ¬Markers.Occurs ["</parameter>".toList] (argument.2 ++ ['\n']) k :=
    fun k hoccurs =>
      h.parameter (parameter_tagged.occurs_of_append (by decide) hoccurs).inside
  have hvalue : cut "</parameter>".toList after = some (argument.2 ++ ['\n'], '\n' :: rest) := by
    refine cut_append _ ?_
    rw [Markers.find_eq_firstOf, Markers.firstOf_behind parameter_tagged List.mem_cons_self
      (List.prefix_append _ _) hnone]
    rfl
  have hline : strip ['\n'] ('\n' :: after) = some after := strip_append ['\n'] after
  have hmarkup : argumentText argument ++ rest =
      "<parameter=".toList ++ (argument.1.toList ++ '>' :: '\n' :: after) :=
    argumentText_append argument rest
  rw [hmarkup]
  unfold parseParameter
  simp only [strip_append, Option.bind_eq_bind, Option.bind_some, hkey, h.named, not_true_eq_false,
    if_false, hline, Option.getD_some, hvalue, stripEnd_append, String.ofList_toList]

/-- The parameters are read up to the end of the function. -/
theorem parseParameters_text {done : JsonMap} {fuel : ℕ} (h : ∀ argument ∈ arguments, Legible argument)
    (hfuel : arguments.length < fuel) :
    parseParameters codec params fuel
      ('\n' :: (arguments.flatMap argumentText ++ "</function>".toList)) done =
        some (readArguments codec params done arguments) := by
  induction arguments generalizing done fuel with
  | nil =>
    obtain ⟨fuel, rfl⟩ := Nat.exists_eq_succ_of_ne_zero (Nat.ne_zero_of_lt hfuel)
    rfl
  | cons argument arguments ih =>
    obtain ⟨fuel, rfl⟩ := Nat.exists_eq_succ_of_ne_zero (Nat.ne_zero_of_lt hfuel)
    set rest := arguments.flatMap argumentText ++ "</function>".toList
    have hmarkup : List.flatMap argumentText (argument :: arguments) ++ "</function>".toList =
        argumentText argument ++ rest := by
      rw [List.flatMap_cons, List.append_assoc]
    have hread := @parseParameter_text codec params argument (h argument List.mem_cons_self) rest
    have hrest := @ih (insert done argument.1 (typed codec params argument.1.toList argument.2)) fuel
      (fun a ha => h a (List.mem_cons_of_mem _ ha)) (Nat.lt_of_succ_lt_succ hfuel)
    have htrim : trimStart ('\n' :: (argumentText argument ++ rest)) = argumentText argument ++ rest := by
      rw [trimStart_white (by decide)]
      exact trimStart_black (by decide) _
    have hstrip : strip "</function>".toList (argumentText argument ++ rest) = none := by
      rw [argumentText_append]
      exact strip_other functionClose parameterOpen (by decide) _
    rw [hmarkup]
    unfold parseParameters
    dsimp only
    rw [htrim, hstrip, hread]
    exact hrest

/-- A rendered argument is one in the markup. -/
theorem spell_renderArgument (argument : String × Json) :
    (Conversation.renderArgument codec argument).spell =
      argumentText (writtenArgument codec argument) := by
  have hopen : ">\n".toList = ['>', '\n'] := by decide
  have hclose : "\n</parameter>\n".toList = ['\n'] ++ "</parameter>".toList ++ ['\n'] := by decide
  unfold Conversation.renderArgument argumentText writtenArgument
  simp only [Text.spell_append, Text.spell_of, hopen, hclose]
  simp only [List.append_assoc, List.cons_append, List.nil_append]

/-- Arguments that are held are read as what they were rendered from. -/
theorem readArguments_held {arguments done : JsonMap}
    (h : ∀ argument ∈ arguments, Held codec params argument)
    (hfresh : ((done ++ arguments).map Prod.fst).Nodup) :
    readArguments codec params done (arguments.map (writtenArgument codec)) = done ++ arguments := by
  induction arguments generalizing done with
  | nil => exact (List.append_nil done).symm
  | cons argument arguments ih =>
    have hkept : typed codec params argument.1.toList (parameterValue codec argument.2).toList =
        argument.2 := (h argument List.mem_cons_self).kept
    have hnew : argument.1 ∉ done.map Prod.fst := by
      rw [List.map_append, List.map_cons] at hfresh
      exact fun hmem => (List.nodup_append'.mp hfresh).2.2 hmem List.mem_cons_self
    have hrest := @ih (done ++ [argument]) (fun a ha => h a (List.mem_cons_of_mem _ ha))
      (by rwa [List.append_assoc])
    show readArguments codec params (insert done argument.1 (typed codec params argument.1.toList
      (parameterValue codec argument.2).toList)) _ = _
    rw [hkept, insert_fresh hnew, hrest, List.append_assoc]
    rfl

/-! ### Calls -/

/-- A call in the markup, up to its closer. -/
def functionText (name : String) (arguments : List (String × List Char)) : List Char :=
  ("<function=".toList ++ (name.toList ++ ['>'])) ++
    '\n' :: (arguments.flatMap argumentText ++ ("</function>".toList ++ ['\n']))

/-- A call whose markup is read back as the call. -/
structure Replayable (codec : Codec) (schemas : List (String × List (String × Bool)))
    (call : ParsedToolCall) : Prop where
  named : named call.name.toList = true
  closed : '>' ∉ call.name.toList
  fresh : (call.arguments.map Prod.fst).Nodup
  held : ∀ argument ∈ call.arguments, Held codec (schemas.reverse.lookup call.name) argument

/-- What stands between the tags of a rendered call. -/
def body (codec : Codec) (call : ParsedToolCall) : List Char :=
  '\n' :: (("<function=".toList ++ (call.name.toList ++ ['>'])) ++ '\n' ::
    ((call.arguments.flatMap fun argument => (Conversation.renderArgument codec argument).spell) ++
      ("</function>".toList ++ ['\n'])))

variable {schemas : List (String × List (String × Bool))} {call : ParsedToolCall} {name : String}

theorem body_eq (call : ParsedToolCall) : body codec call =
    '\n' :: functionText call.name (call.arguments.map (writtenArgument codec)) := by
  unfold body functionText
  rw [List.flatMap_map]
  simp only [spell_renderArgument]

theorem spell_renderCall (call : ParsedToolCall) :
    (Conversation.renderCall codec call).spell = callOpen ++ (body codec call ++ callClose) := by
  have hopen : "<tool_call>\n<function=".toList = callOpen ++ '\n' :: "<function=".toList := by decide
  have hline : ">\n".toList = ['>', '\n'] := by decide
  have hclose : "</function>\n</tool_call>".toList =
      "</function>".toList ++ '\n' :: callClose := by decide
  have harguments : Text.spell (call.arguments.flatMap (Conversation.renderArgument codec)) =
      call.arguments.flatMap fun argument => (Conversation.renderArgument codec argument).spell :=
    List.flatMap_assoc
  unfold Conversation.renderCall body
  simp only [Text.spell_append, Text.spell_of, hopen, hline, hclose, harguments]
  simp only [List.append_assoc, List.cons_append, List.nil_append]

theorem trim_functionText (name : String) (arguments : List (String × List Char)) :
    trim (functionText name arguments) = "<function=".toList ++ (name.toList ++ '>' :: '\n' ::
      (arguments.flatMap argumentText ++ "</function>".toList)) := by
  have hopen : "<function=".toList = '<' :: "function=".toList := by decide
  have hclose : "</function>".toList = "</function".toList ++ ['>'] := by decide
  have hline : functionText name arguments = '<' :: ("function=".toList ++ (name.toList ++
      '>' :: '\n' :: (arguments.flatMap argumentText ++ "</function".toList))) ++ '>' :: ['\n'] := by
    unfold functionText
    rw [hopen, hclose]
    simp only [List.append_assoc, List.cons_append, List.nil_append]
  rw [hline, trim_line, hopen, hclose]
  simp only [List.append_assoc, List.cons_append]

/-- Every argument takes some text. -/
theorem length_arguments (arguments : List (String × List Char)) :
    arguments.length ≤ (arguments.flatMap argumentText).length := by
  rw [List.length_flatMap]
  refine le_of_eq_of_le (List.length_map _).symm (List.length_le_sum_of_one_le _ fun n hn => ?_)
  obtain ⟨argument, -, rfl⟩ := List.mem_map.mp hn
  unfold argumentText
  rw [parameterOpen, List.cons_append, List.length_cons]
  exact Nat.succ_le_succ (Nat.zero_le _)

/-- A newline in front of a call is not read. -/
theorem parseCall_line (raw : List Char) :
    parseCall codec schemas ('\n' :: raw) = parseCall codec schemas raw := by
  have htrim : trim ('\n' :: raw) = trim raw := by
    unfold trim
    rw [trimStart_white (by decide)]
  unfold parseCall
  rw [htrim]

theorem parseCall_text (hnamed : named name.toList = true) (hclosed : '>' ∉ name.toList)
    {arguments : List (String × List Char)} (h : ∀ argument ∈ arguments, Legible argument) :
    parseCall codec schemas (functionText name arguments) =
      some ⟨name, readArguments codec (schemas.reverse.lookup name) [] arguments⟩ := by
  set rest := '\n' :: (arguments.flatMap argumentText ++ "</function>".toList) with hrest
  have htrim : trim (functionText name arguments) =
      "<function=".toList ++ (name.toList ++ '>' :: rest) := trim_functionText name arguments
  have hname : cut ['>'] (name.toList ++ '>' :: rest) = some (name.toList, rest) :=
    cut_append _ (Markers.find_letter hclosed _)
  have hlong : arguments.length < rest.length + 1 := by
    have harguments := length_arguments arguments
    rw [hrest, List.length_cons, List.length_append]
    omega
  have hread : parseParameters codec (schemas.reverse.lookup name) (rest.length + 1) rest [] =
      some (readArguments codec (schemas.reverse.lookup name) [] arguments) :=
    parseParameters_text h hlong
  unfold parseCall
  simp only [htrim, strip_append, Option.bind_eq_bind, Option.bind_some, hname, hnamed,
    not_true_eq_false, if_false, String.ofList_toList, hread]

theorem parseCall_rendered (h : Replayable codec schemas call) :
    parseCall codec schemas (body codec call) = some call := by
  have hlegible : ∀ argument ∈ call.arguments.map (writtenArgument codec), Legible argument := by
    intro argument hmem
    obtain ⟨source, hsource, rfl⟩ := List.mem_map.mp hmem
    have hheld := h.held source hsource
    exact ⟨hheld.named, hheld.closed, hheld.parameter⟩
  rw [body_eq, parseCall_line, parseCall_text h.named h.closed hlegible,
    readArguments_held h.held (by rw [List.nil_append]; exact h.fresh)]
  rfl

/-- A line that holds no second tag, and whose own is another. -/
theorem line_open {c : Char} {w : List Char} (hc : c ≠ '/') (hw : '<' ∉ c :: w) :
    ¬callClose <:+: '<' :: c :: w := by
  have hclose : callClose = '<' :: '/' :: "tool_call>".toList := by decide
  rw [List.infix_cons_iff, not_or, hclose]
  refine ⟨?_, fun hinside => hw (hinside.subset List.mem_cons_self)⟩
  rintro ⟨after, hafter⟩
  exact hc (List.cons.inj (List.cons.inj hafter).2).1.symm

theorem across_lines {w v : List Char} (hw : ¬callClose <:+: w) (hv : ¬callClose <:+: v) :
    ¬callClose <:+: w ++ '\n' :: v :=
  fun h => (Markers.inside_across (by decide) h).elim hw hv

/-- The line of an opening tag. -/
theorem tag_open {word name u : List Char} {c : Char} (hword : word = '<' :: c :: u) (hc : c ≠ '/')
    (hu : '<' ∉ c :: u) (hname : CallBlock.named name = true) : ¬callClose <:+: word ++ (name ++ ['>']) := by
  have hbare : '<' ∉ name := (of_decide_eq_true hname).2.1
  have hline : '<' ∉ (c :: u) ++ (name ++ ['>']) := by
    rw [List.mem_append, List.mem_append]
    exact fun hmem => hmem.elim hu fun hmem => hmem.elim hbare (by decide)
  rw [hword]
  exact line_open hc hline

theorem arguments_open {arguments : List (String × List Char)}
    (hlegible : ∀ argument ∈ arguments, Legible argument)
    (hcall : ∀ argument ∈ arguments, ¬callClose <:+: argument.2) :
    ¬callClose <:+: arguments.flatMap argumentText ++ ("</function>".toList ++ ['\n']) := by
  induction arguments with
  | nil =>
    show ¬callClose <:+: "</function>".toList ++ ['\n']
    decide
  | cons argument arguments ih =>
    have hrest := ih (fun a ha => hlegible a (List.mem_cons_of_mem _ ha))
      fun a ha => hcall a (List.mem_cons_of_mem _ ha)
    have hline : ¬callClose <:+: "<parameter=".toList ++ (argument.1.toList ++ ['>']) :=
      tag_open parameterOpen (by decide) (by decide) (hlegible argument List.mem_cons_self).named
    have hlines := across_lines hline (across_lines (hcall argument List.mem_cons_self)
      (across_lines (by decide : ¬callClose <:+: "</parameter>".toList) hrest))
    rw [List.flatMap_cons, List.append_assoc, argumentText_append]
    simpa only [List.append_assoc, List.cons_append, List.nil_append] using hlines

/-- No closer stands in a call. -/
theorem functionText_open (hnamed : named name.toList = true) {arguments : List (String × List Char)}
    (hlegible : ∀ argument ∈ arguments, Legible argument)
    (hcall : ∀ argument ∈ arguments, ¬callClose <:+: argument.2) :
    ¬callClose <:+: functionText name arguments := by
  have hline : ¬callClose <:+: "<function=".toList ++ (name.toList ++ ['>']) :=
    tag_open (by decide : _ = '<' :: 'f' :: "unction=".toList) (by decide) (by decide) hnamed
  exact across_lines hline (arguments_open hlegible hcall)

/-- No closer stands in a rendered call. -/
theorem body_open (h : Replayable codec schemas call) : ¬callClose <:+: body codec call := by
  rw [body_eq]
  refine across_lines (by decide : ¬callClose <:+: []) (functionText_open h.named ?_ ?_)
  · intro argument hmem
    obtain ⟨source, hsource, rfl⟩ := List.mem_map.mp hmem
    have hheld := h.held source hsource
    exact ⟨hheld.named, hheld.closed, hheld.parameter⟩
  · intro argument hmem
    obtain ⟨source, hsource, rfl⟩ := List.mem_map.mp hmem
    exact (h.held source hsource).call

/-! ### What is read can be replayed -/

theorem cut_spec {word text front rest : List Char} (h : cut word text = some (front, rest)) :
    text = front ++ (word ++ rest) ∧ ¬word <:+: front := by
  obtain ⟨i, hfind, hparts⟩ := Option.map_eq_some_iff.mp h
  obtain ⟨hne, hpre, hleast⟩ := Markers.find_eq_some_iff.mp hfind
  obtain ⟨rfl, rfl⟩ := Prod.mk.inj hparts
  obtain ⟨after, hafter⟩ := hpre
  refine ⟨?_, ?_⟩
  · rw [← List.drop_drop, ← hafter, List.drop_left, hafter, List.take_append_drop]
  · rintro ⟨a, b, hinside⟩
    -- the word would stand in front of its first place
    have hlen := congrArg List.length hinside
    have hpos := List.length_pos_iff.mpr hne
    rw [List.length_append, List.length_append, List.length_take] at hlen
    refine hleast a.length (by omega) ?_
    rw [← List.take_append_drop i text, ← hinside, List.append_assoc, List.append_assoc,
      List.drop_left]
    exact List.prefix_append _ _

theorem strip_spec {word text rest : List Char} (h : strip word text = some rest) :
    text = word ++ rest := by
  unfold strip at h
  split at h
  case isTrue hpre =>
    obtain ⟨after, rfl⟩ := hpre
    rw [List.drop_left] at h
    rw [Option.some.inj h]
  case isFalse => cases h

theorem stripped_suffix (word text : List Char) : (strip word text).getD text <:+ text := by
  cases h : strip word text with
  | none => exact List.suffix_rfl
  | some rest => exact ⟨word, (strip_spec h).symm⟩

theorem strippedEnd_prefix (word text : List Char) : (stripEnd word text).getD text <+: text := by
  unfold stripEnd
  split
  case isTrue => exact List.take_prefix _ _
  case isFalse => exact List.prefix_rfl

theorem trim_inside (text : List Char) : trim text <:+: text := by
  have hfront : trimStart text <:+ text := List.dropWhile_suffix _
  have hback : trim text <+: (trimStart text).reverse.reverse :=
    List.IsSuffix.reverse (List.dropWhile_suffix _)
  rw [List.reverse_reverse] at hback
  exact hback.isInfix.trans hfront.isInfix

/-- What a parameter that was read is like: a declared string holds some of the text. -/
structure Taken (params : Option (List (String × Bool))) (text : List Char)
    (argument : String × Json) : Prop where
  named : named argument.1.toList = true
  closed : '>' ∉ argument.1.toList
  string : declared params argument.1 = true → ∃ s, argument.2 = .string s ∧
    ¬"</parameter>".toList <:+: s.toList ∧ s.toList <:+: text

theorem Taken.mono {text text' : List Char} (h : Taken params text argument) (hsub : text <:+: text') :
    Taken params text' argument := by
  refine ⟨h.named, h.closed, fun hstring => ?_⟩
  obtain ⟨s, hvalue, hparameter, hinside⟩ := h.string hstring
  exact ⟨s, hvalue, hparameter, hinside.trans hsub⟩

theorem parseParameter_spec {text rest : List Char}
    (h : parseParameter codec params text = some (argument, rest)) :
    Taken params text argument ∧ rest <:+ text := by
  unfold parseParameter at h
  simp only [Option.bind_eq_bind, Option.bind_eq_some_iff] at h
  obtain ⟨inside, hopen, ⟨key, line⟩, hkey, h⟩ := h
  split at h
  case isTrue => cases h
  case isFalse hnamed =>
    simp only [Option.bind_eq_some_iff] at h
    obtain ⟨⟨value, after⟩, hvalue, hout⟩ := h
    cases hout
    obtain ⟨hinside, hclosed⟩ := cut_spec hkey
    obtain ⟨hline, hparameter⟩ := cut_spec hvalue
    have htext := strip_spec hopen
    have hstripped := stripped_suffix ['\n'] line
    have hlines : line <:+ text := by
      rw [htext, hinside, ← List.append_assoc, ← List.append_assoc]
      exact List.suffix_append _ _
    have htrimmed := strippedEnd_prefix ['\n'] value
    have hspelled : (String.ofList ((stripEnd ['\n'] value).getD value)).toList =
        (stripEnd ['\n'] value).getD value := String.toList_ofList
    have hvalues : value <:+: text := by
      refine List.IsInfix.trans ?_ (hstripped.trans hlines).isInfix
      rw [hline]
      exact (List.prefix_append _ _).isInfix
    refine ⟨⟨?_, ?_, fun hstring => ?_⟩, ?_⟩
    · show CallBlock.named (String.ofList key).toList = true
      rw [String.toList_ofList]
      exact not_not.mp hnamed
    · show '>' ∉ (String.ofList key).toList
      rw [String.toList_ofList]
      exact fun hmem => hclosed ((List.singleton_infix_iff _ _).mpr hmem)
    · refine ⟨String.ofList ((stripEnd ['\n'] value).getD value), ?_, ?_, ?_⟩
      · unfold declared at hstring
        show typed codec params key _ = _
        unfold typed
        rw [hstring]
        rfl
      · rw [hspelled]
        exact fun hinside => hparameter (hinside.trans htrimmed.isInfix)
      · rw [hspelled]
        exact htrimmed.isInfix.trans hvalues
    · refine List.IsSuffix.trans ?_ (hstripped.trans hlines)
      rw [hline, ← List.append_assoc]
      exact List.suffix_append _ _

theorem mem_insert {members : JsonMap} {key : String} {value : Json} {member : String × Json}
    (h : member ∈ insert members key value) : member ∈ members ∨ member = (key, value) := by
  unfold insert at h
  split at h
  case isTrue =>
    obtain ⟨old, hold, rfl⟩ := List.mem_map.mp h
    split
    case isTrue => exact Or.inr rfl
    case isFalse => exact Or.inl hold
  case isFalse => exact (List.mem_append.mp h).imp_right List.mem_singleton.mp

theorem keys_replace (members : JsonMap) (key : String) (value : Json) :
    (members.map fun member => if member.1 = key then (key, value) else member).map Prod.fst =
      members.map Prod.fst := by
  rw [List.map_map]
  refine List.map_congr_left fun member _ => ?_
  show (if member.1 = key then (key, value) else member).1 = member.1
  split
  case isTrue hsame => exact hsame.symm
  case isFalse => rfl

theorem keys_insert {members : JsonMap} (key : String) (value : Json)
    (h : (members.map Prod.fst).Nodup) : ((insert members key value).map Prod.fst).Nodup := by
  unfold insert
  split
  case isTrue => rwa [keys_replace]
  case isFalse hfresh =>
    rw [List.map_append]
    exact List.Nodup.append h (List.nodup_singleton key)
      fun a ha hkey => hfresh ((List.mem_singleton.mp hkey : a = key) ▸ ha)

theorem mem_keys_insert {members : JsonMap} {key other : String} {value : Json} :
    other ∈ (insert members key value).map Prod.fst ↔ other ∈ members.map Prod.fst ∨ other = key := by
  unfold insert
  split
  case isTrue hold =>
    rw [keys_replace]
    refine ⟨Or.inl, fun hmem => hmem.elim id ?_⟩
    rintro rfl
    exact hold
  case isFalse =>
    rw [List.map_append, List.mem_append, List.map_singleton, List.mem_singleton]

/-- The keys that are read are those that were written. -/
theorem mem_keys_readArguments {done : JsonMap} {arguments : List (String × List Char)} {key : String} :
    key ∈ (readArguments codec params done arguments).map Prod.fst ↔
      key ∈ done.map Prod.fst ∨ key ∈ arguments.map Prod.fst := by
  induction arguments generalizing done with
  | nil => simp [readArguments]
  | cons argument arguments ih =>
    show key ∈ (readArguments codec params (insert done argument.1 (typed codec params
      argument.1.toList argument.2)) arguments).map Prod.fst ↔ _
    rw [ih, mem_keys_insert, List.map_cons, List.mem_cons, or_assoc]

theorem parseParameters_spec {fuel : ℕ} {text : List Char} {done arguments : JsonMap}
    (h : parseParameters codec params fuel text done = some arguments)
    (hkeys : (done.map Prod.fst).Nodup) :
    (arguments.map Prod.fst).Nodup ∧
      ∀ argument ∈ arguments, argument ∈ done ∨ Taken params text argument := by
  induction fuel generalizing text done with
  | zero => cases h
  | succ fuel ih =>
    unfold parseParameters at h
    dsimp only at h
    split at h
    case h_1 after hend =>
      split at h
      case isTrue =>
        cases h
        exact ⟨hkeys, fun argument ha => Or.inl ha⟩
      case isFalse => cases h
    case h_2 =>
      split at h
      case h_1 => cases h
      case h_2 key value rest hread =>
        obtain ⟨htaken, hrest⟩ := parseParameter_spec hread
        obtain ⟨hnodup, hall⟩ := ih h (keys_insert key value hkeys)
        have htrim : trimStart text <:+ text := List.dropWhile_suffix _
        refine ⟨hnodup, fun argument ha => ?_⟩
        rcases hall argument ha with hold | hnew
        · rcases mem_insert hold with hold | rfl
          · exact Or.inl hold
          · exact Or.inr (htaken.mono htrim.isInfix)
        · exact Or.inr (hnew.mono (hrest.trans htrim).isInfix)

/-- An argument that is no declared string comes back when its text is parsed again. -/
structure Stable (codec : Codec) (argument : String × Json) : Prop where
  parameter : ¬"</parameter>".toList <:+: (parameterValue codec argument.2).toList
  call : ¬callClose <:+: (parameterValue codec argument.2).toList
  parsed : (codec.parse (String.ofList (trim (parameterValue codec argument.2).toList))).getD
    (.string (parameterValue codec argument.2)) = argument.2

/-- A call that was read is read again from what is rendered of it. -/
theorem Replayable.of_read {raw : List Char} (h : parseCall codec schemas raw = some call)
    (hraw : ¬callClose <:+: raw)
    (hstable : ∀ argument ∈ call.arguments,
      declared (schemas.reverse.lookup call.name) argument.1 = false → Stable codec argument) :
    Replayable codec schemas call := by
  unfold parseCall at h
  simp only [Option.bind_eq_bind, Option.bind_eq_some_iff] at h
  obtain ⟨inside, hopen, ⟨name, rest⟩, hname, h⟩ := h
  split at h
  case isTrue => cases h
  case isFalse hnamed =>
    simp only [Option.bind_eq_some_iff] at h
    obtain ⟨arguments, hread, hout⟩ := h
    cases hout
    obtain ⟨hinside, hclosed⟩ := cut_spec hname
    obtain ⟨hkeys, hall⟩ := parseParameters_spec hread List.nodup_nil
    have hspelled : (String.ofList name).toList = name := String.toList_ofList
    have hrest : rest <:+: raw := by
      have htrimmed := trim_inside raw
      rw [strip_spec hopen, hinside, ← List.append_assoc, ← List.append_assoc] at htrimmed
      exact (List.suffix_append _ _).isInfix.trans htrimmed
    refine ⟨?_, ?_, hkeys, fun argument ha => ?_⟩
    · rw [hspelled]
      exact not_not.mp hnamed
    · rw [hspelled]
      exact fun hmem => hclosed ((List.singleton_infix_iff _ _).mpr hmem)
    · have htaken := (hall argument ha).resolve_left List.not_mem_nil
      cases hdeclared : declared (schemas.reverse.lookup (String.ofList name)) argument.1 with
      | true =>
        obtain ⟨s, hvalue, hparameter, hs⟩ := htaken.string hdeclared
        have htext : parameterValue codec argument.2 = s := by
          rw [hvalue]
          rfl
        refine ⟨htaken.named, htaken.closed, htext ▸ hparameter, ?_, ?_⟩
        · rw [htext]
          exact fun hclose => hraw ((hclose.trans hs).trans hrest)
        · unfold declared at hdeclared
          unfold typed
          rw [htext, String.ofList_toList, String.ofList_toList, hdeclared, hvalue]
          rfl
      | false =>
        have hargument := hstable argument ha hdeclared
        refine ⟨htaken.named, htaken.closed, hargument.parameter, hargument.call, ?_⟩
        unfold declared at hdeclared
        unfold typed
        rw [String.ofList_toList, String.ofList_toList, hdeclared]
        exact hargument.parsed

end CallBlock
