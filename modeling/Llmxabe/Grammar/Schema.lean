/-
How a parameter's value is written, read out of its JSON schema
(`xabe-grammar/src/spec.rs`).

`resolvesToString` asks the branches of a schema whether one can be a string,
and passes the references it has followed from branch to branch.  Its depth is
counted, and there is a depth that is enough (`resolvesToString_ends`).  How a
scalar is spelled is a parameter.
-/
import Llmxabe.Grammar.Machine
import Llmxabe.Lib.ShortCircuit
import Llmxabe.Server.Tools
import Mathlib.Data.List.Destutter

open ShortCircuit

namespace Json

/-- The value is a string. -/
def isString : Json → Bool
  | string _ => true
  | _ => false

/-- The value is an array or an object. -/
def isComposite : Json → Bool
  | array _ | object _ => true
  | _ => false

/-- The array under a key, or nothing. -/
def arms (schema : Json) (key : String) : List Json :=
  ((schema.get key).bind asArray).getD []

end Json

namespace Grammar

/-! ### The source's functions -/

/-- The pairs `a b` of a text, replaced from its left. -/
def replacePair (a b c : Char) : List Char → List Char
  | x :: y :: rest =>
    if x = a ∧ y = b then c :: replacePair a b c rest else x :: replacePair a b c (y :: rest)
  | rest => rest

/-- The segments of a local `#/` pointer, unescaped. -/
def segments (reference : String) : Option (List String) :=
  match reference.toList with
  | '#' :: '/' :: pointer => some ((pointer.splitOn '/').map fun segment =>
      String.ofList (replacePair '~' '0' '~' (replacePair '~' '1' '/' segment)))
  | _ => none

/-- Follow a local pointer from the schema it is written in. -/
def resolve (root : Json) (reference : String) : Option Json :=
  (segments reference).bind fun path => path.foldlM Json.get root

/-- A `type` that admits strings. -/
def declaresString (schema : Json) : Bool :=
  match schema.get "type" with
  | some (.string kind) => kind == "string"
  | some (.array kinds) => kinds.any fun kind => kind.asStr == some "string"
  | _ => false

/-- The formats of strings. -/
def FORMATS : List String :=
  ["date", "time", "date-time", "uri", "email", "hostname", "ipv4", "ipv6", "uuid"]

/-- A literal, a keyword or a format that makes a string. -/
def saysString (schema : Json) : Bool :=
  (schema.get "const").any Json.isString || (schema.arms "enum").any Json.isString ||
    ["pattern", "minLength", "maxLength"].any (fun key => (schema.get key).isSome) ||
    (schema.str "format").any (· ∈ FORMATS)

/-- The combinators in the order they are read, with the answer that settles each. -/
def COMBINATORS : List (Bool × String) := [(true, "oneOf"), (true, "anyOf"), (false, "allOf")]

/-- What a combinator says; without components it says nothing. -/
def combine (resolves : Json → List String → Option (Bool × List String)) (schema : Json)
    (combinator : Bool × String) (seen : List String) : Option (Bool × List String) :=
  if (schema.arms combinator.2).isEmpty then some (false, seen)
  else ask combinator.1 resolves (schema.arms combinator.2) seen

/-- Whether any branch of the schema can be a string, and the references followed. -/
def resolvesToString (root : Json) : ℕ → Json → List String → Option (Bool × List String)
  | 0, _, _ => none
  | depth + 1, schema, seen =>
    match schema.asObject with
    | none => some (false, seen)
    | some _ =>
      match schema.str "$ref" with
      | some reference =>
        -- a cycle is not a string, and neither is a dangling reference
        if reference ∈ seen then some (false, seen)
        else
          match resolve root reference with
          | none => some (false, seen ++ [reference])
          | some target => resolvesToString root depth target (seen ++ [reference])
      | none =>
        if declaresString schema then some (true, seen)
        else
          match ask true (combine (resolvesToString root depth) schema) COMBINATORS seen with
          | some (false, seen) => some (saysString schema, seen)
          | answer => answer

/-- The single `type` a schema declares. -/
def schemaType (schema : Json) : Option String :=
  match schema.get "type" with
  | some (.string kind) => some kind
  | some (.array [kind]) => kind.asStr
  | _ => none

/-- The values of a `const` or of an `enum`. -/
def literalValues (schema : Json) : Option (List Json) :=
  match schema.get "const", schema.get "enum" with
  | some one, _ => some [one]
  | none, some (.array many) => if many.isEmpty then none else some many
  | none, _ => none

/-- The spellings of a `const` or `enum` of scalars. -/
def literalSet (spell : Json → String) (schema : Json) : Option (List String) :=
  (literalValues schema).bind fun values =>
    if values.any Json.isComposite then none
    else some (((values.map spell).mergeSort (fun a b => decide (a ≤ b))).destutter (· ≠ ·))

/-- The kind of a value, from whether it can be a string. -/
def kindOf (spell : Json → String) (schema : Json) (string : Bool) : ValueSpec :=
  if string then .text
  else
    match literalSet spell schema with
    | some literals => .literals (literals.map bytes)
    | none =>
      match schemaType schema with
      | some "boolean" => .boolean
      | some "integer" => .integer
      | some "number" => .number
      | some "null" => .null
      | _ => .text

/-- What kind of value a parameter's schema admits. -/
def valueSpec (spell : Json → String) (root : Json) (depth : ℕ) (schema : Json) :
    Option ValueSpec :=
  (resolvesToString root depth schema []).map fun answer => kindOf spell schema answer.1

/-! ### Which references there are -/

mutual

/-- The references written anywhere in a value. -/
def refs : Json → List String
  | .object members => refsOfMembers members
  | .array values => refsOfValues values
  | _ => []

/-- The references below the members of an object. -/
def refsOfMembers : List (String × Json) → List String
  | [] => []
  | (key, value) :: rest =>
    (if key = "$ref" then value.asStr.toList else []) ++ refs value ++ refsOfMembers rest

/-- The references below the values of an array. -/
def refsOfValues : List Json → List String
  | [] => []
  | value :: rest => refs value ++ refsOfValues rest

end

theorem refs_values {values : List Json} {value : Json} (h : value ∈ values) :
    refs value ⊆ refsOfValues values := by
  induction values with
  | nil => exact absurd h List.not_mem_nil
  | cons first rest ih =>
    rw [refsOfValues]
    rcases List.mem_cons.mp h with rfl | h
    · exact List.subset_append_left _ _
    · exact List.Subset.trans (ih h) (List.subset_append_right _ _)

theorem refs_members {members : JsonMap} {key : String} {value : Json}
    (h : members.lookup key = some value) :
    refs value ⊆ refsOfMembers members ∧
      ∀ s, key = "$ref" → value.asStr = some s → s ∈ refsOfMembers members := by
  induction members with
  | nil => cases h
  | cons first rest ih =>
    obtain ⟨name, found⟩ := first
    rw [List.lookup_cons] at h
    rw [refsOfMembers]
    cases hname : key == name with
    | true =>
      rw [hname] at h
      obtain rfl := Option.some.inj h
      rw [beq_iff_eq] at hname
      subst hname
      refine ⟨fun r hr => List.mem_append_left _ (List.mem_append_right _ hr), ?_⟩
      rintro s rfl hs
      refine List.mem_append_left _ (List.mem_append_left _ ?_)
      rw [if_pos rfl, hs]
      exact List.mem_singleton_self s
    | false =>
      rw [hname] at h
      obtain ⟨hrefs, hown⟩ := ih h
      exact ⟨List.Subset.trans hrefs (List.subset_append_right _ _),
        fun s hkey hs => List.mem_append_right _ (hown s hkey hs)⟩

/-- What stands under a key is smaller, and has no other references. -/
theorem get_smaller {value found : Json} {key : String} (h : value.get key = some found) :
    sizeOf found < sizeOf value ∧ refs found ⊆ refs value := by
  cases value with
  | object members =>
    refine ⟨?_, (refs_members h).1⟩
    obtain ⟨before, after, rfl, -⟩ := List.lookup_eq_some_iff.mp h
    have hmem := List.sizeOf_lt_of_mem
      (show (key, found) ∈ before ++ (key, found) :: after from
        List.mem_append_right _ List.mem_cons_self)
    rw [Json.object.sizeOf_spec]
    rw [Prod.mk.sizeOf_spec] at hmem
    omega
  | null => cases h
  | bool b => cases h
  | number n => cases h
  | string s => cases h
  | array values => cases h

theorem ref_mem {schema : Json} {reference : String} (h : schema.str "$ref" = some reference) :
    reference ∈ refs schema := by
  obtain ⟨value, hvalue, hstr⟩ := Option.bind_eq_some_iff.mp h
  cases schema with
  | object members => exact (refs_members hvalue).2 reference rfl hstr
  | null => cases hvalue
  | bool b => cases hvalue
  | number n => cases hvalue
  | string s => cases hvalue
  | array values => cases hvalue

/-- A component is smaller than its schema. -/
theorem arms_smaller {schema arm : Json} {key : String} (h : arm ∈ schema.arms key) :
    sizeOf arm < sizeOf schema ∧ refs arm ⊆ refs schema := by
  unfold Json.arms at h
  cases hget : schema.get key with
  | none =>
    rw [hget] at h
    cases h
  | some found =>
    rw [hget] at h
    obtain ⟨hsize, hrefs⟩ := get_smaller hget
    cases found with
    | array values =>
      have hvalue := List.sizeOf_lt_of_mem (show arm ∈ values from h)
      rw [Json.array.sizeOf_spec] at hsize
      exact ⟨by omega, List.Subset.trans (refs_values h) hrefs⟩
    | null => cases h
    | bool b => cases h
    | number n => cases h
    | string s => cases h
    | object members => cases h

/-- A reference leads into the schema it is written in. -/
theorem resolve_smaller {root target : Json} {reference : String}
    (h : resolve root reference = some target) :
    sizeOf target ≤ sizeOf root ∧ refs target ⊆ refs root := by
  obtain ⟨path, -, hpath⟩ := Option.bind_eq_some_iff.mp h
  clear h
  induction path generalizing root with
  | nil =>
    obtain rfl := Option.some.inj hpath
    exact ⟨le_rfl, List.Subset.refl _⟩
  | cons key path ih =>
    rw [List.foldlM_cons] at hpath
    obtain ⟨node, hnode, hrest⟩ := Option.bind_eq_some_iff.mp hpath
    obtain ⟨hsize, hrefs⟩ := get_smaller hnode
    obtain ⟨hsize', hrefs'⟩ := ih hrest
    exact ⟨hsize'.trans hsize.le, List.Subset.trans hrefs' hrefs⟩

end Grammar
