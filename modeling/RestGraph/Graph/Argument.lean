import RestGraph.Graph.Translate

namespace RestGraph.Graph

/-!
# Arguments of fields

A field backed by an operation takes its parameters as arguments, and the body of its
request as one more. A parameter that the configuration supplies is no argument.
-/

structure Argument where
  type : TypeRef
  required : Bool
  description : Value
  parameterName : String
  location : Value

def bodyLocation : String := "body"

def TypeRef.whenRequired (required : Bool) (t : TypeRef) : TypeRef :=
  if required then .nonNull t else t

/-- The scalar of a parameter. Objects, arrays and all else without a scalar are text. -/
def parameterScalar (p : Parameter) : Scalar :=
  match Table.get? p "schema" with
  | some (.map s) => ((Schema.declaredType? s).bind Scalar.ofType?).getD .string
  | _ => .string

def parameterArgument (p : Parameter) (name : String) : Argument :=
  let required := p.isRequired
  ⟨(TypeRef.scalar (parameterScalar p)).whenRequired required, required,
    Value.memberOr p "description" .null, name, p.location⟩

def parameterArguments (c : Catalog) (found : Table String Argument) :
    List Parameter → Build (Table String Argument)
  | [] => pure found
  | p :: ps =>
      match p.name with
      | .text name =>
          if c.config.isPreset name then do
            report .debug ("Ignore parameter `" ++ name ++ "` provided via configuration")
            parameterArguments c found ps
          else do
            let argumentName ← storeName name
            parameterArguments c (Table.insert found argumentName (parameterArgument p name)) ps
      | _ => do
          report .debug ("Ignore parameter without a name: " ++ (Value.map p).quoted)
          parameterArguments c found ps

def bodyType (c : Catalog) (name : String) : Build (Option TypeRef) := do
  match ← cached? .input (.ofText name) with
  | some type => return type
  | none => translate c .input (.text name) (c.schema .input name) [] 0

/-- The description of a schema; what is empty has none. -/
def schemaDescription (schema : Value) : Value.Access Value :=
  if schema.truthy then schema.get "description" .null else .ok .null

def bodyArgument (c : Catalog) (found : Table String Argument) (name : String)
    (required : Bool) : Build (Table String Argument) := do
  match ← bodyType c name with
  | none => return found
  | some type => do
      let argumentName ← storeName name
      let description ← access (schemaDescription (c.schema .input name))
      return Table.insert found argumentName
        ⟨type.whenRequired required, required, description, name, .text bodyLocation⟩

def arguments (c : Catalog) (parameters : List Parameter) (body : Option String)
    (required : Bool) : Build (Table String Argument) := do
  let found ← parameterArguments c [] parameters
  match body with
  | none => return found
  | some name => bodyArgument c found name required

def Argument.def? (a : Argument) : Build ArgumentDef := do
  checkInput .argumentNotInput a.type
  return ⟨a.type, ← checkDescription .argument a.description⟩

def argumentDefs : List (String × Argument) → Build (Table String ArgumentDef)
  | [] => pure []
  | (name, a) :: rest => do
      let d ← a.def?
      return (name, d) :: (← argumentDefs rest)

end RestGraph.Graph
