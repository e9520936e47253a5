import RestGraph.Config.Basic
import RestGraph.Config.Fault
import RestGraph.Name.Grammar
import RestGraph.Name.Registry
import RestGraph.Toml.Fault
import RestGraph.Value.Access

namespace RestGraph

/-!
# Failures and reports

Every way in which reading a description, deriving types from it or preparing a
request can end without a result, with its wording, and what is reported on the way.
-/

inductive Level where
  | debug
  | warning
deriving DecidableEq, Repr

structure Record where
  level : Level
  text : String
deriving DecidableEq, Repr

inductive LoadFault where
  /-- The text is ill formed; `details` says where, if that is known. -/
  | illFormed (details : List String)
  | notADescription
  | unsupportedVersion (version : Value)
  | unspecifiedVersion

inductive Described where
  | typeOrField
  | argument
  | inputField
deriving DecidableEq, Repr

inductive Failure where
  | missingSchema (name : Value) (found : Value)
  | shapelessSchema (name : Value) (schema : Value)
  | missingItems (name : Value)
  | enumClash (name : String) (first second : Value) (member : String)
  | noQuery
  | tooDeep (name : Value) (limit : Limit)
  | linkWithoutOperation (link : String)
  | linkWithoutType (link : String) (operation : Label)
  | unknownOperation (item : String) (suggestion : Option String)
  | unusableName (text : String)
  | nameTaken (name text holder : String)
  | shadowedDefinition (name : String)
  | noFetch (operation : Label)
  | missingPathValue (name path : String)
  | load (fault : LoadFault)
  | config (fault : Config.Fault)
  | toml (fault : Toml.Fault)
  | reservedTypeName (name : String)
  | illegalName (fault : Name.Illegal)
  | descriptionNotText (described : Described)
  | argumentNotInput
  | inputFieldNotInput
  | sameTypeName (name : String)
  /-- The fields of a type cannot be found for a reason of their own. -/
  | unresolvedFields (type : String) (cause : Failure)
  | malformed (breakage : Breakage)

def schemaAdvice : String :=
  "Ensure that the definition complies with the OpenAPI specification"

/-- A text cut to 80 characters, the last three of which then are points. -/
def truncated (s : String) : String :=
  let cs := s.toList
  if 80 < cs.length then String.ofList (cs.take 77 ++ ['.', '.', '.']) else s

def LoadFault.message : LoadFault → String
  | illFormed _ => "API description does not appear syntactically valid"
  | notADescription =>
      "The provided API description does not appear to be a valid OpenAPI document"
  | unsupportedVersion version =>
      "The provided document uses OpenAPI " ++ version.plain ++
        ", which is currently not supported."
  | unspecifiedVersion =>
      "Unable to determine the OpenAPI version as it's not specified in the document."

def nameMessage : Name.Illegal → String
  | .empty => "Expected name to be a non-empty string."
  | .badCharacter name =>
      "Names must only contain [_a-zA-Z0-9] but " ++ Text.quoted name ++ " does not."
  | .badStart name =>
      "Names must start with [_a-zA-Z] but " ++ Text.quoted name ++ " does not."

def Described.message : Described → String
  | typeOrField => "The description must be a string."
  | argument => "Argument description must be a string."
  | inputField => "Input field description must be a string."

namespace Failure

/-- The wording of a failure; a broken step has none. -/
def message : Failure → String
  | missingSchema name found =>
      "Invalid schema for `" ++ name.plain ++ "` provided of type `" ++ found.kindWord ++
        "`\n\n" ++ schemaAdvice
  | shapelessSchema name schema =>
      "Schema `" ++ name.plain ++ "` has no or a wrong type: " ++ truncated schema.quoted
  | missingItems name =>
      "Items property missing in array schema definition `" ++ name.plain ++ "`"
  | enumClash name first second member =>
      "Enum `" ++ name ++ "` has values `" ++ first.quoted ++ "` and `" ++ second.quoted ++
        "` with the same name `" ++ member ++ "`"
  | noQuery => "The API description has no GET operation with a usable response schema"
  | tooDeep name limit =>
      "Too many iterations when creating schema `" ++ name.plain ++ "` (limit: " ++
        limit.value.plain ++ ")"
  | linkWithoutOperation link =>
      "Link `" ++ link ++ "` has no `operationId`, `operationRef` links are not supported"
  | linkWithoutType link operation =>
      "Link `" ++ link ++ "` targets operation `" ++ operation.plain ++
        "` without a translated response type"
  | unknownOperation item suggestion =>
      "Operation `" ++ item ++ "` not found" ++
        (match suggestion with
          | some s => ". Did you mean `" ++ s ++ "`?"
          | none => "")
  | unusableName text => "Cannot sanitize `" ++ text ++ "` into a GraphQL name"
  | nameTaken name text holder =>
      "Sanitized name `" ++ name ++ "` for `" ++ text ++ "` is already used by `" ++ holder ++ "`"
  | shadowedDefinition name =>
      "Inline schema for property `" ++ name ++
        "` collides with a schema definition of the same name"
  | noFetch operation =>
      "No fetch function is configured to call operation `" ++ operation.plain ++ "`"
  | missingPathValue name path =>
      "Missing value for path parameter `" ++ name ++ "` in `" ++ path ++ "`"
  | load fault => fault.message
  | config fault => fault.message
  | toml fault => fault.message
  | reservedTypeName name => "Redefinition of reserved type " ++ Text.quoted name
  | illegalName fault => nameMessage fault
  | descriptionNotText described => described.message
  | argumentNotInput => "Argument type must be a GraphQL input type."
  | inputFieldNotInput => "Input field type must be a GraphQL input type."
  | sameTypeName name =>
      "Schema must contain uniquely named types but contains multiple types named " ++
        Text.quoted name ++ "."
  | unresolvedFields type cause => type ++ " fields cannot be resolved. " ++ cause.message
  | malformed _ => ""

/-- Whether a failure is one that a description is meant to be able to cause. -/
def isOwn : Failure → Bool
  | missingSchema .. | shapelessSchema .. | missingItems .. | enumClash .. | noQuery
  | tooDeep .. | linkWithoutOperation .. | linkWithoutType .. | unknownOperation ..
  | unusableName .. | nameTaken .. | shadowedDefinition .. | noFetch .. | missingPathValue ..
  | load .. | config .. => true
  | _ => false

/-- A schema of no shape, which the message shows if it can be written. -/
def shapeless (name schema : Value) : Failure :=
  if schema.isWritable then .shapelessSchema name schema else .malformed .badContent

/-- A value of a configuration that cannot be written breaks a step. -/
def ofConfig : Config.Fault → Failure
  | .unwritable => .malformed .badContent
  | fault => .config fault

def ofStore : Name.StoreFault → Failure
  | .unusable text => .unusableName text
  | .taken name text holder => .nameTaken name text holder

end Failure

instance : Inhabited Failure := ⟨.noQuery⟩

end RestGraph
