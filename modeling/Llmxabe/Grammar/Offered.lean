/-
The tools of a request as the grammar reads them (`xabe-grammar/src/spec.rs`).

A tool is read back out of the wrapper that the prompt renders.  What was built as a tool
(`ToolDefinition.build`) is read as one of the same name, so the grammar's triggers are the openers
of the parser (`triggers_compile`).
-/
import Llmxabe.Grammar.Resolution
import Llmxabe.Lib.Encoding
import Llmxabe.Lib.Grid
import Llmxabe.Server.CallChunks

namespace Grammar

/-- A name that can be written into the markup. -/
def writable (name : String) : Bool :=
  name ≠ "" ∧ '<' ∉ name.toList ∧ '>' ∉ name.toList ∧ '\n' ∉ name.toList

section

variable (spell : Json → String) (depth : ℕ)

/-- The parameters of a function schema, in the order of `properties`. -/
def parameters (function : Json) : Option (List ParamSpec) :=
  match (function.get "parameters").or (function.get "input_schema") with
  | none => some []
  | some schema =>
    match (schema.get "properties").bind Json.asObject with
    | none => some []
    | some properties =>
      let required := (schema.arms "required").filterMap Json.asStr
      (properties.filter fun property => writable property.1).mapM fun property =>
        (valueSpec spell schema depth property.2).map fun value =>
          { name := bytes property.1, required := decide (property.1 ∈ required), value }

/-- `ToolSpec::from_wrapper`; a wrapper that names no function is no tool. -/
def fromWrapper (wrapper : Json) : Option (Option ToolSpec) :=
  let function := (wrapper.get "function").getD wrapper
  match function.str "name" with
  | none => some none
  | some name =>
    if name = "" then some none
    else (parameters spell depth function).map fun params => some { name := bytes name, params }

/-- The tools that a request's grammar is compiled from. -/
def offered (tools : List ToolDefinition) : Option (List ToolSpec) :=
  (tools.mapM fun tool => fromWrapper spell depth tool.wrapper).map List.reduceOption

end

variable {spell : Json → String} {depth : ℕ}

/-! ### Some depth is enough -/

theorem parameters_ends (spell : Json → String) (function : Json) :
    ∃ enough params, ∀ depth ≥ enough, parameters spell depth function = some params := by
  unfold parameters
  split
  case h_1 => exact ⟨0, [], fun depth _ => rfl⟩
  case h_2 schema _ =>
    split
    case h_1 => exact ⟨0, [], fun depth _ => rfl⟩
    case h_2 properties _ =>
      refine mapM_eventually fun property _ => ?_
      obtain ⟨enough, answer, henough⟩ := resolvesToString_ends schema property.2 []
      refine ⟨enough, ⟨bytes property.1,
        decide (property.1 ∈ (schema.arms "required").filterMap Json.asStr),
        kindOf spell property.2 answer.1⟩, fun depth hdepth => ?_⟩
      rw [valueSpec, henough depth hdepth]
      rfl

theorem offered_ends (spell : Json → String) (tools : List ToolDefinition) :
    ∃ enough specs, ∀ depth ≥ enough, offered spell depth tools = some specs := by
  have hall : ∃ enough found, ∀ depth ≥ enough,
      (tools.mapM fun tool => fromWrapper spell depth tool.wrapper) = some found := by
    refine mapM_eventually fun tool _ => ?_
    unfold fromWrapper
    dsimp only
    split
    case h_1 => exact ⟨0, none, fun depth _ => rfl⟩
    case h_2 name _ =>
      obtain ⟨enough, params, henough⟩ :=
        parameters_ends spell ((tool.wrapper.get "function").getD tool.wrapper)
      by_cases hname : name = ""
      · exact ⟨0, none, fun depth _ => if_pos hname⟩
      · refine ⟨enough, some ⟨bytes name, params⟩, fun depth hdepth => ?_⟩
        rw [if_neg hname, henough depth hdepth]
        rfl
  obtain ⟨enough, found, hfound⟩ := hall
  refine ⟨enough, found.reduceOption, fun depth hdepth => ?_⟩
  rw [offered, hfound depth hdepth]
  rfl

/-! ### Tools that were built -/

/-- A tool that a request made. -/
def Built (tool : ToolDefinition) : Prop :=
  ∃ name description parameters, ToolDefinition.build name description parameters = .ok tool

/-- A tool and what the grammar reads of it: one name, and parameters that can be written. -/
structure Reads (tool : ToolDefinition) (spec : ToolSpec) : Prop where
  name : spec.name = bytes tool.name
  params : ∀ param ∈ spec.params, ∃ key, param.name = bytes key ∧ writable key = true

theorem parameters_writable {function : Json} {params : List ParamSpec}
    (h : parameters spell depth function = some params) :
    ∀ param ∈ params, ∃ key, param.name = bytes key ∧ writable key = true := by
  unfold parameters at h
  split at h
  case h_1 =>
    cases h
    exact List.forall_mem_nil _
  case h_2 schema _ =>
    split at h
    case h_1 =>
      cases h
      exact List.forall_mem_nil _
    case h_2 properties _ =>
      intro param hparam
      have hread : some param ∈ params.map some := List.mem_map_of_mem hparam
      rw [← mapM_eq_some_iff.mp h] at hread
      obtain ⟨property, hmem, hread⟩ := List.mem_map.mp hread
      obtain ⟨value, -, rfl⟩ := Option.map_eq_some_iff.mp hread
      exact ⟨property.1, rfl, (List.mem_filter.mp hmem).2⟩

theorem reads_of_built {tool : ToolDefinition} (hbuilt : Built tool) {found : Option ToolSpec}
    (h : fromWrapper spell depth tool.wrapper = some found) :
    ∃ spec, found = some spec ∧ Reads tool spec := by
  obtain ⟨name, description, schema, hbuild⟩ := hbuilt
  obtain ⟨hname, hne, -⟩ := ToolDefinition.build_name hbuild
  unfold ToolDefinition.build at hbuild
  rw [if_neg hne] at hbuild
  split at hbuild
  case isTrue => cases hbuild
  case isFalse =>
    cases hbuild
    obtain ⟨params, hparams, rfl⟩ : ∃ params, parameters spell depth (.object
        [("name", .string name), ("description", description.getD (.string "")),
          ("parameters", schema.getD (.object []))]) = some params ∧
        some (ToolSpec.mk (bytes name) params) = found := by
      have hread : (if name = "" then some none else (parameters spell depth (.object
          [("name", .string name), ("description", description.getD (.string "")),
            ("parameters", schema.getD (.object []))])).map fun params =>
              some (ToolSpec.mk (bytes name) params)) = some found := h
      rw [if_neg hne] at hread
      exact Option.map_eq_some_iff.mp hread
    exact ⟨_, rfl, rfl, parameters_writable hparams⟩

/-- Every tool of a request is read. -/
theorem offered_reads {tools : List ToolDefinition} {specs : List ToolSpec}
    (hbuilt : ∀ tool ∈ tools, Built tool) (h : offered spell depth tools = some specs) :
    List.Forall₂ Reads tools specs := by
  obtain ⟨found, hfound, rfl⟩ := Option.map_eq_some_iff.mp h
  rw [mapM_eq_some_iff] at hfound
  clear h
  induction tools generalizing found with
  | nil =>
    obtain rfl := List.map_eq_nil_iff.mp hfound.symm
    exact .nil
  | cons tool tools ih =>
    rcases found with _ | ⟨first, rest⟩
    · cases hfound
    · obtain ⟨hfirst, hrest⟩ := List.cons.inj hfound
      obtain ⟨spec, rfl, hreads⟩ := reads_of_built (hbuilt tool List.mem_cons_self) hfirst
      rw [List.reduceOption_cons_of_some]
      exact .cons hreads (ih (fun tool hmem => hbuilt tool (List.mem_cons_of_mem _ hmem)) rest hrest)

theorem bytes_eq (s : String) : bytes s = Encoding.utf8 s.toList := by
  have hspelled : s.toUTF8 = (Encoding.utf8 s.toList).toByteArray := by
    conv_lhs => rw [← String.ofList_toList (s := s)]
    exact String.toByteArray_ofList
  unfold bytes
  rw [hspelled, List.toList_data_toByteArray]

/-- What arms the grammar is what opens a block for the parser. -/
theorem triggers_compile {tools : List ToolDefinition} {specs : List ToolSpec}
    (h : List.Forall₂ Reads tools specs) (parallel : Bool) :
    (Machine.compile specs parallel).triggers =
      (ToolCallParser.new tools).openers.map Encoding.utf8 := by
  have hopeners : specs.map (fun spec => opening "<function=" spec.name) =
      (tools.map fun tool => "<function=".toList ++ tool.name.toList ++ ['>']).map Encoding.utf8 := by
    induction h with
    | nil => rfl
    | @cons tool spec tools specs hreads _ ih =>
      have hfirst : opening "<function=" spec.name =
          Encoding.utf8 ("<function=".toList ++ tool.name.toList ++ ['>']) := by
        unfold opening
        rw [hreads.name, bytes_eq, bytes_eq, bytes_eq, Encoding.utf8_append, Encoding.utf8_append]
        rfl
      rw [List.map_cons, ih, hfirst]
      rfl
  show bytes "<tool_call>" :: specs.map (fun spec => opening "<function=" spec.name) = _
  rw [hopeners, bytes_eq]
  rfl

end Grammar
