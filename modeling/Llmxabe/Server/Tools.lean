/-
The tools a caller offers (`xabe-server/src/http/tools.rs`).

A definition is built from what a request carries (`ToolDefinition.build`); a
Responses request may also hold `namespace` groups, whose members are offered
as `group.member` (`fromResponsesEntry`).  A tool this server cannot serve is
dropped.
-/
import Llmxabe.Lib.Fallible
import Llmxabe.Server.Outputs

namespace Json

/-- The member of an object under a key. -/
def get (value : Json) (key : String) : Option Json :=
  match value with
  | object members => members.lookup key
  | _ => none

/-- The string, if it is one. -/
def asStr : Json → Option String
  | string s => some s
  | _ => none

/-- The values, if it is an array. -/
def asArray : Json → Option (List Json)
  | array values => some values
  | _ => none

/-- The members, if it is an object. -/
def asObject : Json → Option JsonMap
  | object members => some members
  | _ => none

/-- The string under a key. -/
def str (value : Json) (key : String) : Option String := (value.get key).bind asStr

end Json

/-- One tool the caller offered. -/
structure ToolDefinition where
  name : String
  wrapper : Json
  /-- Parameter name, and whether its declared type is `string`. -/
  stringParams : List (String × Bool)

/-- A schema that declares a plain string. -/
def schemaIsString (schema : Json) : Bool :=
  match schema.get "type" with
  | some (.string kind) => kind == "string"
  | some (.array kinds) => kinds.all fun kind =>
      match kind with
      | .string k => k == "string" || k == "null"
      | _ => false
  | _ => false

namespace ToolDefinition

/-- A tool whose name the markup can hold. -/
def build (name : String) (description parameters : Option Json) :
    Except String ToolDefinition :=
  if name = "" then .error "a tool needs a non-empty `name`"
  else if '>' ∈ name.toList ∨ '<' ∈ name.toList ∨ '\n' ∈ name.toList then
    .error ("tool name `" ++ name ++ "` cannot be rendered into the prompt's `<function=...>` markup")
  else
    let function : JsonMap :=
      [("name", .string name), ("description", description.getD (.string "")),
        ("parameters", parameters.getD (.object []))]
    let properties := ((parameters.bind (·.get "properties")).bind Json.asObject).getD []
    .ok {
      name := name
      wrapper := .object [("type", .string "function"), ("function", .object function)]
      stringParams := properties.map fun property => (property.1, schemaIsString property.2) }

/-- The function of a tool, nested or flat, under the name it is offered by. -/
def ofFunction (naming : String → String) (value : Json) : Except String ToolDefinition :=
  let function := (value.get "function").getD value
  build (naming ((function.str "name").getD "")) (function.get "description")
    ((function.get "parameters").or (function.get "input_schema"))

/-- A tool of a chat request. -/
def fromOpenai (value : Json) : Except String ToolDefinition := ofFunction id value

/-- A tool of a Responses request. -/
def fromResponses (value : Json) : Except String ToolDefinition :=
  let kind := (value.str "type").getD ""
  if kind ≠ "" ∧ kind ≠ "function" ∧ kind ≠ "custom" then
    .error ("tools of type `" ++ kind ++ "` are not supported; this server executes nothing itself, " ++
      "so only `function` tools, and `namespace` groups of them, make sense")
  else ofFunction id value

/-- A member of a `namespace` group. -/
def fromMember (group : String) (tool : Json) : Except String ToolDefinition :=
  let kind := (tool.str "type").getD ""
  if kind ≠ "" ∧ kind ≠ "function" ∧ kind ≠ "custom" then
    .error ("namespace `" ++ group ++ "` may only hold `function` tools")
  else ofFunction (fun name => group ++ "." ++ name) tool

/-- One entry of a Responses `tools` array: a flat function or a `namespace` group. -/
def fromResponsesEntry (value : Json) : Except String (List ToolDefinition) :=
  if value.str "type" = some "namespace" then
    match (value.str "name").filter (· ≠ "") with
    | none => .error "a `namespace` tool needs a non-empty `name`"
    | some group =>
      if '.' ∈ group.toList then
        .error ("namespace `" ++ group ++ "` cannot contain `.`; it separates the namespace from " ++
          "the tool name")
      else
        match (value.get "tools").bind Json.asArray with
        | none => .error ("namespace `" ++ group ++ "` needs a `tools` array")
        | some tools => tools.mapM (fromMember group)
  else (fromResponses value).map fun tool => [tool]

theorem build_name {name : String} {description parameters : Option Json} {tool : ToolDefinition}
    (h : build name description parameters = .ok tool) :
    tool.name = name ∧ name ≠ "" ∧ '>' ∉ name.toList ∧ '<' ∉ name.toList ∧ '\n' ∉ name.toList := by
  unfold build at h
  split at h
  case isTrue => cases h
  case isFalse hne =>
    split at h
    case isTrue => cases h
    case isFalse hmarkup =>
      cases h
      rw [not_or, not_or] at hmarkup
      exact ⟨rfl, hne, hmarkup⟩

end ToolDefinition

/-- The tools a request offered, and the types that were dropped. -/
structure OfferedTools where
  definitions : List ToolDefinition
  unsupported : List String

namespace OfferedTools

/-- No tool. -/
def none : OfferedTools := ⟨[], []⟩

/-- A tool of a kind that is not offered; each kind is noted once. -/
def dropKind (offered : OfferedTools) (kind : String) : OfferedTools :=
  let kind := if kind = "" then "(untyped)" else kind
  if kind ∈ offered.unsupported then offered
  else { offered with unsupported := offered.unsupported ++ [kind] }

/-- The kind of a tool. -/
def kindOf (value : Json) : String := (value.str "type").getD ""

/-- One more tool of a Responses request. -/
def offerResponses (offered : OfferedTools) (value : Json) : Except String OfferedTools :=
  if kindOf value = "function" ∨ kindOf value = "namespace" then
    (ToolDefinition.fromResponsesEntry value).map fun tools =>
      { offered with definitions := offered.definitions ++ tools }
  else .ok (offered.dropKind (kindOf value))

/-- Flat functions, and `namespace` groups of them. -/
def fromResponses (values : List Json) : Except String OfferedTools :=
  values.foldlM offerResponses none

end OfferedTools

/-- The names of the `namespace` groups a request offered. -/
def namespacesOf (tools : List Json) : List String :=
  (tools.filter fun tool => tool.str "type" = some "namespace").filterMap (·.str "name")
