import RestGraph.Catalog.Basic
import RestGraph.Graph.Type
import RestGraph.Name.Restore
import RestGraph.Request.Template
import RestGraph.Value.Pointer

namespace RestGraph

/-!
# Requests

The arguments of a field go by the names of their parameters to the places that the
description declares for them, and to the query when it declares none. What the
configuration supplies comes last and wins.
-/

structure Request where
  operation : Label
  method : String
  url : String
  pathValues : Table String Value
  query : Table String Value
  headers : Table String String
  cookies : Table String String
  body : Value

namespace Request

inductive Part where
  | path
  | header
  | cookie
  | query
deriving DecidableEq, Repr

def Part.ofLocation : Value → Part
  | .text "path" => .path
  | .text "header" => .header
  | .text "cookie" => .cookie
  | _ => .query

def parts (found : Table String Part) : List Parameter → Table String Part
  | [] => found
  | p :: ps =>
      match p.name with
      | .text name => parts (Table.insert found name (.ofLocation p.location)) ps
      | _ => parts found ps

/-- What the arguments of a field say: values by parameter, and a body. -/
structure Content where
  values : Table String Value
  body : Value

def content (names : Name.Registry) (body : Option String) (given : Content) :
    List (String × Value) → Content
  | [] => given
  | (key, v) :: rest =>
      let name := names.textOr key key
      if body == some name then content names body { given with body := names.restore v } rest
      else content names body { given with values := Table.insert given.values name v } rest

/-- A request with a value added in its part; null stands for no value. Headers and cookies
hold texts. -/
def place (r : Request) (part : Part) (name : String) (v : Value) : Value.Access Request :=
  match v, part with
  | .null, _ => .ok r
  | v, .path => .ok { r with pathValues := Table.insert r.pathValues name v }
  | v, .header => v.written.map fun s => { r with headers := Table.insert r.headers name s }
  | v, .cookie => v.written.map fun s => { r with cookies := Table.insert r.cookies name s }
  | v, .query => .ok { r with query := Table.insert r.query name v }

def placeAll (parts : Table String Part) (r : Request) :
    List (String × Value) → Value.Access Request
  | [] => .ok r
  | (name, v) :: rest => do
      placeAll parts (← r.place ((Table.get? parts name).getD .query) name v) rest

def configure (c : Config) (r : Request) : Request :=
  { r with
    headers := Table.insertAll r.headers c.headers
    query := Table.insertAll r.query (c.query.map fun e => (e.1, .text e.2)) }

/-- The request for an operation; `preset` gives parameters as pointers into the parent. -/
def prepare (c : Config) (names : Name.Registry) (o : Operation) (preset : Table String String)
    (parent : Value) (arguments : Table String Value) : Except Failure Request := do
  let presetValues := preset.map fun e => (e.1, parent.resolve e.2)
  let content := content names o.request ⟨presetValues, .null⟩ arguments
  let start : Request := ⟨o.id, o.method.toUpper, "", [], [], [], [], content.body⟩
  let placed ← (placeAll (parts [] o.parameters) start content.values).mapError .malformed
  let r := placed.configure c
  return { r with url := ← Template.url Template.points c.baseUrl o.path r.pathValues }

def options (r : Request) : Table String Value :=
  let texts (t : Table String String) : Value := .map (t.map fun e => (e.1, .text e.2))
  [("method", .text r.method), ("url", .text r.url), ("params", .map r.query),
    ("headers", texts r.headers)] ++
    (if r.cookies.isEmpty then [] else [("cookies", texts r.cookies)]) ++
    (match r.body with
      | .null => []
      | body => [("json", body)])

end Request

end RestGraph
