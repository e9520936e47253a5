import RestGraph.Graph.Translate

namespace RestGraph.Graph

/-!
# Types of responses

The schema of every response gives a type, with the links of all operations that return
it. Objects come first, so that no array meets an object before its links are known.
-/

/-- The links of the operations that return each schema, after those already found. -/
def responseLinks (found : Table String (Table String Link)) :
    List Operation → Table String (Table String Link)
  | [] => found
  | o :: rest =>
      match o.response with
      | none => responseLinks found rest
      | some name =>
          let links := (Table.get? found name).getD []
          responseLinks (Table.insert found name (Table.insertAll links o.links)) rest

def isObject (c : Catalog) (name : String) : Except Failure Bool :=
  match c.schema .output name with
  | .map s =>
      match Schema.shape? s with
      | none => .error (.shapeless (.text name) (.map s))
      | some shape => .ok (shape == .object)
  | _ => .ok false

/-- Names in order, those of objects before all others. -/
def objectsFirst (c : Catalog) (names : List String) : Except Failure (List String) := do
  let marked ← names.mapM fun name => do return (← isObject c name, name)
  return ((marked.filter Prod.fst) ++ (marked.filter fun m => !m.1)).map Prod.snd

def translateEach (c : Catalog) (links : Table String (Table String Link)) :
    List String → Build Unit
  | [] => pure ()
  | name :: rest => do
      let type ← translate c .output (.text name) (c.schema .output name)
        ((Table.get? links name).getD []) 0
      setCached .output (.ofText name) type
      translateEach c links rest

def translateResponses (c : Catalog) : Build Unit := do
  let links := responseLinks [] (c.operations.map Prod.snd)
  translateEach c links (← liftExcept (objectsFirst c (Table.keys links)))

end RestGraph.Graph
