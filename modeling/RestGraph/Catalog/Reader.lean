import RestGraph.Catalog.Basic
import RestGraph.Name.Sanitize
import RestGraph.Schema.Reference

namespace RestGraph.Catalog

/-!
# The catalog of a description

An operation without a name is named after its method and path. Its response schema
is that of the first successful response. A schema that is no reference is defined
under a name made from the operation's.
-/

structure Draft where
  catalog : Catalog
  log : List Record

abbrev Gathering := ExceptT Failure (StateM Draft)

def access {α : Type} (a : Value.Access α) : Gathering α :=
  match a with
  | .ok x => pure x
  | .error b => throw (.malformed b)

def addSchema (name : String) (schema : Value) : Gathering Unit :=
  modify fun d => { d with catalog := d.catalog.define name schema }

/-! ## Schemas of operations -/

def methods : List String :=
  ["get", "put", "post", "delete", "options", "head", "patch", "trace"]

def mediaTypes : List String := ["application/json", "application/*+json", "*/*"]

/-- The first of some media types that a content is declared for. -/
def preferred? (content : Value) : List String → Value.Access (Option Value)
  | [] => .ok none
  | type :: types => do
      if ← content.holdsText type then
        match content with
        | .map ms => some <$> (Value.memberOr ms type .null).get "schema" .null
        | _ => .error .wrongKind
      else preferred? content types

def anyJson : List (String × Value) → Value.Access Value
  | [] => .ok .null
  | (type, definition) :: rest =>
      if Text.hasSuffix type "json" then definition.get "schema" .null else anyJson rest

def jsonSchema (container : Value) : Value.Access Value := do
  let content ← container.get "content" (.map [])
  match ← preferred? content mediaTypes with
  | some schema => return schema
  | none => anyJson (← content.members)

/-- The first response to a success that is a map. -/
def success? : List (String × Value) → Option (Table String Value)
  | [] => none
  | (status, .map response) :: rest =>
      if Text.hasStart status "2" then some response else success? rest
  | _ :: rest => success? rest

def responseSchema (response : Table String Value) : Value.Access Value :=
  if Table.contains response "content" then jsonSchema (.map response)
  else .ok (Value.memberOr response "schema" .null)

/-- The name of a schema; one that is no reference is defined under `fallback`. -/
def schemaName (schema : Value) (fallback : String) : Gathering String :=
  match Schema.target? schema with
  | some target => access (Schema.referenceName target)
  | none => do
      addSchema fallback schema
      return fallback

def schemaName? (schema : Value) (fallback : String) : Gathering (Option String) :=
  match schema with
  | .null => pure none
  | schema => some <$> schemaName schema fallback

/-! ## Operations -/

def linkOf (name : String) (definition : Value) : Value.Access Link := do
  let id ← definition.get "operationId" .null
  let ref ← definition.get "operationRef" .null
  let parameters ← (← definition.get "parameters" (.map [])).entries
  let description ← definition.get "description" .null
  return ⟨name, id, ref, parameters, description⟩

def linksOf (response : Table String Value) : Value.Access (Table String Link) := do
  let links ← (Value.memberOr response "links" (.map [])).members
  links.mapM fun (name, definition) => do
    return (name, ← linkOf name definition)

def firstOf (v w : Value) : Value := if v.truthy then v else w

def defaultId (method path : String) : Value :=
  .text ((Name.sanitize? (method ++ " " ++ path)).getD "")

/-- What becomes the body of a request: its schema and whether it is required. -/
structure Body where
  schema : Value
  required : Bool

def isBody (p : Parameter) : Bool := (Value.memberOr p "in" .null).text? == some "body"

/-- In Swagger 2 the body is a parameter, which is taken off the others. -/
def bodyParameter (parameters : List Parameter) : Body × List Parameter :=
  match parameters.find? isBody with
  | some p => (⟨Value.memberOr p "schema" .null, p.isRequired⟩, parameters.eraseP isBody)
  | none => (⟨.null, false⟩, parameters)

def requestBody (definition : Value) : Value.Access Body := do
  let body ← definition.get "requestBody" (.map [])
  let schema ← jsonSchema body
  let required ← body.get "required" (.bool false)
  return ⟨schema, required.truthy⟩

def bodyOf (swagger : Bool) (definition : Value) (parameters : List Parameter) :
    Value.Access (Body × List Parameter) :=
  if swagger then .ok (bodyParameter parameters)
  else do return (← requestBody definition, parameters)

def responseOf (id definition : Value) : Gathering (Option String × Table String Link) := do
  let responses ← access (definition.get "responses" (.map []))
  match success? (← access responses.members) with
  | none => return (none, [])
  | some response => do
      let name ← schemaName? (← access (responseSchema response)) (id.plain ++ "Response")
      return (name, ← access (linksOf response))

def readOperation (swagger : Bool) (path method : String) (definition shared : Value) :
    Gathering Operation := do
  let id := firstOf (← access (definition.get "operationId" .null)) (defaultId method path)
  let own ← access (definition.get "parameters" (.list []))
  let merged ← access (Parameter.merge shared own)
  let description ← access (definition.get "description" .null)
  let summary ← access (definition.get "summary" .null)
  let (response, links) ← responseOf id definition
  let (body, parameters) ← access (bodyOf swagger definition merged)
  let name ← schemaName? body.schema (id.plain ++ "Request")
  let request := name.map (· ++ Operation.inputSuffix)
  return ⟨← access id.labelOf, method, path, parameters, response, request,
    request.isSome && body.required, links, firstOf description summary⟩

def duplicateNote (c : Catalog) (o : Operation) : List Record :=
  if Table.contains c.operations o.id then
    [⟨.warning, "Duplicate operation id `" ++ o.id.plain ++ "` in `" ++ o.label ++ "`"⟩]
  else []

/-- Adds an operation, in place of an earlier one of its name. -/
def keepOperation (o : Operation) : Gathering Unit :=
  modify fun d => ⟨d.catalog.addOperation o, d.log ++ duplicateNote d.catalog o⟩

def pathOperations (swagger : Bool) (path : String) (item shared : Value) :
    List String → Gathering Unit
  | [] => pure ()
  | method :: rest => do
      match ← access (item.get method .null) with
      | .null => pure ()
      | definition => keepOperation (← readOperation swagger path method definition shared)
      pathOperations swagger path item shared rest

def pathItems (swagger : Bool) : List (String × Value) → Gathering Unit
  | [] => pure ()
  | (path, item) :: rest => do
      let shared ← access (item.get "parameters" (.list []))
      pathOperations swagger path item shared methods
      pathItems swagger rest

/-! ## Descriptions -/

def definitions (swagger : Bool) (document : Value) : Value.Access (Table Label Value) := do
  if swagger then (← document.get "definitions" (.map [])).entries
  else
    let components ← document.get "components" (.map [])
    (← components.get "schemas" (.map [])).entries

def defineAll : List (Label × Value) → Gathering Unit
  | [] => pure ()
  | (name, schema) :: rest =>
      match name.text? with
      | some s => do
          addSchema s schema
          defineAll rest
      | none => throw (.malformed .wrongKind)

def gather (document : Value) : Gathering Unit := do
  let swagger ← access (document.holdsText "swagger")
  defineAll (← access (definitions swagger document))
  let paths ← access (document.get "paths" (.map []))
  pathItems swagger (← access paths.members)

/-- The catalog of a description with the log of reading it. -/
def ofDocument (config : Config) (fetches : Bool) (document : Value) :
    Except Failure Catalog × List Record :=
  let (result, d) := (gather document).run.run ⟨empty config fetches, []⟩
  (result.map fun _ => d.catalog, d.log)

end RestGraph.Catalog
