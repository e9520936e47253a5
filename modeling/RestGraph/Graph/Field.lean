import RestGraph.Graph.Argument

namespace RestGraph.Graph

/-!
# Fields of composite types

A composite type has a field for each property of its schema whose type is usable. An
object at the first level has fields for its links too, and their targets are looked
up before any property.
-/

/-- The marker in a link's expression before the pointer into the response body. -/
def bodyMarker : String := "body#/"

def bodyPointer? : Value → Option String
  | .text s => (Text.afterFirst? bodyMarker.toList s.toList).map String.ofList
  | _ => none

/-- Parameters of a link that are taken from the response body, by their pointers. -/
def presets (link : String) (found : Table String String) :
    List (Label × Value) → Build (Table String String)
  | [] => pure found
  | (parameter, expression) :: rest =>
      match bodyPointer? expression with
      | some pointer =>
          match parameter.text? with
          | some name => presets link (Table.insert found name pointer) rest
          | none => presets link found rest
      | none => do
          report .debug ("Link `" ++ link ++ "`: parameter `" ++ parameter.plain ++
            "` is not taken from the response body")
          presets link found rest

def withoutPresets (preset : Table String String) : List Parameter → Value.Access (List Parameter)
  | [] => .ok []
  | p :: ps => do
      let name ← p.name.labelOf
      let rest ← withoutPresets preset ps
      let isPreset := (name.text?.map (Table.contains preset)).getD false
      return if isPreset then rest else p :: rest

def responseType? (o : Operation) : Build (Option TypeRef) := do
  return (← get).output? (.ofText (o.response.getD ""))

def linkField (c : Catalog) (name : String) (link : Link) : Build Field :=
  match link.operationId with
  | .null => throw (.linkWithoutOperation name)
  | id => do
      let o ← liftExcept (c.operation id)
      let preset ← presets name [] link.parameters
      let remaining ← access (withoutPresets preset o.parameters)
      let found ← arguments c remaining none false
      match ← responseType? o with
      | none => throw (.linkWithoutType name o.id)
      | some type => do
          let defs ← argumentDefs found
          let description ← checkDescription .typeOrField link.description
          return ⟨type, description, defs, some (.request o preset)⟩

def linkFields (c : Catalog) : List (String × Link) → Build (List (String × Field))
  | [] => pure []
  | (name, link) :: rest => do
      let field ← linkField c name link
      let fieldName ← storeName name
      return (fieldName, field) :: (← linkFields c rest)

def requiredNames (s : Schema.Members) : Value.Access (List String) :=
  match Table.get? s "required" with
  | none => .ok []
  | some v => do
      let labels ← (← v.iterate).mapM Value.labelOf
      return labels.filterMap Label.text?

def properties (s : Schema.Members) : Value.Access (List (String × Value)) :=
  match Table.get? s "properties" with
  | none => .error .missingEntry
  | some v => v.members

/-- The type of a property. A schema of its own is kept under the property's name, where it
may stand in the way of a definition. -/
def propertyType (c : Catalog) (plan : Plan) (name : String) (schema : Value) :
    Build (Option TypeRef) :=
  match Schema.target? schema with
  | some target => do
      resolveReference c plan.mode (← access (Schema.referenceName target)) plan.iteration
  | none => do
      if c.defines name then
        if c.config.failOnCollision then throw (.shadowedDefinition name)
        report .warning ("Creating type for property with colliding name `" ++ name ++ "`")
      translate c plan.mode (.text name) schema [] (plan.iteration + 1)

def propertyField (mode : Mode) (required : List String) (name fieldName : String)
    (type : TypeRef) (description : Value) : Build Field :=
  match mode with
  | .input => do
      let type := type.whenRequired (required.contains name)
      checkInput .inputFieldNotInput type
      return ⟨type, ← checkDescription .inputField description, [], none⟩
  | .output => do
      let resolver := if fieldName == name then none else some (.property name)
      return ⟨type, ← checkDescription .typeOrField description, [], resolver⟩

def propertyFields (c : Catalog) (plan : Plan) (required : List String) :
    List (String × Value) → Build (List (String × Field))
  | [] => pure []
  | (name, schema) :: rest => do
      match ← propertyType c plan name schema with
      | none => propertyFields c plan required rest
      | some type => do
          let fieldName ← storeName name
          let description := (schema.member? "description").getD .null
          let field ← propertyField plan.mode required name fieldName type description
          return (fieldName, field) :: (← propertyFields c plan required rest)

def fieldsOf (c : Catalog) (plan : Plan) : Build (Table String Field) := do
  let required ← access (requiredNames plan.schema)
  let links ←
    if plan.iteration == 0 && plan.mode == .output then linkFields c plan.links else pure []
  let own ← propertyFields c plan required (← access (properties plan.schema))
  return Table.ofList (own ++ links)

/-! ## Asking for fields -/

def compositeAt? (place : Nat) : Build (Option Composite) := do
  match (← get).types[place]? with
  | some (.composite c) => return some c
  | _ => return none

def keepFields (place : Nat) (c : Composite) (fields : Table String Field) : Build Unit :=
  modify fun s =>
    { s with types := s.types.setIfInBounds place (.composite { c with fields? := some fields }) }

/-- The fields of the composite type at a place: found now, unless they were found before.
A failure to find them is not kept. -/
def fieldsAt (c : Catalog) (place : Nat) : Build (Table String Field) := do
  match ← compositeAt? place with
  | none => return []
  | some type =>
      match type.fields? with
      | some fields => return fields
      | none => do
          let fields ← tryCatch (fieldsOf c type.plan) fun cause =>
            throw (.unresolvedFields type.name cause)
          keepFields place type fields
          return fields

end RestGraph.Graph
