import RestGraph.Value.Access

namespace RestGraph

/-!
# Operations
-/

structure Link where
  name : String
  operationId : Value
  operationRef : Value
  /-- Parameters of the other operation with the expressions for their values. -/
  parameters : Table Label Value
  description : Value

abbrev Parameter := Table String Value

structure Operation where
  id : Label
  method : String
  path : String
  parameters : List Parameter
  response : Option String
  /-- The schema of the request body, with the suffix of inputs. -/
  request : Option String
  requestRequired : Bool
  links : Table String Link
  description : Value

namespace Operation

def inputSuffix : String := "Input"

/-- Every method but `get` may change something. -/
def isMutation (o : Operation) : Bool := o.method.toLower != "get"

def label (o : Operation) : String := o.method.toUpper ++ " " ++ o.path

end Operation

namespace Parameter

def name (p : Parameter) : Value := Value.memberOr p "name" .null

def location (p : Parameter) : Value := Value.memberOr p "in" (.text "query")

def isRequired (p : Parameter) : Bool := (Value.memberOr p "required" (.bool false)).truthy

/-- A parameter that declares a type of its own gets a schema of that type. -/
def normalize (p : Parameter) : Parameter :=
  if Table.contains p "schema" then p
  else match Table.get? p "type" with
    | none => p
    | some type => Table.insert p "schema" (.map [("type", type)])

/-- What tells two parameters apart: their name and their place. -/
def key (v : Value) : Value.Access ((Label × Label) × Parameter) :=
  match v with
  | .map p => do
      let name ← (Value.memberOr p "name" .null).labelOf
      let place ← (Value.memberOr p "in" .null).labelOf
      return ((name, place), p)
  | _ => .error .missingOperation

def keyed (v : Value) : Value.Access (List ((Label × Label) × Parameter)) := do
  (← v.iterate).mapM key

def merge (shared own : Value) : Value.Access (List Parameter) := do
  let outer ← keyed shared
  let inner ← keyed own
  return (Table.insertAll (Table.ofList outer) inner).map fun e => normalize e.2

end Parameter

end RestGraph
