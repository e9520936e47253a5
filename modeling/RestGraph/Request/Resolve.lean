import RestGraph.Request.Prepare

namespace RestGraph.Graph

/-!
# Resolving fields
-/

/-- What the resolver of a field gives: a value at once, or a request to hand over. -/
inductive Outcome where
  | value (v : Value)
  | request (r : Request)

/-- Names that are taken and thus cannot be those of arguments. -/
def takenNames : List String := ["parent", "info"]

def Resolver.resolve (r : Resolver) (c : Catalog) (names : Name.Registry) (parent : Value)
    (arguments : Table String Value) : Except Failure Outcome :=
  if takenNames.any (Table.contains arguments) then .error (.malformed .wrongKind)
  else
    match r with
    | .property name => .ok (.value ((parent.member? name).getD .null))
    | .request o preset =>
        if c.fetches then
          (Request.prepare c.config names o preset parent arguments).map .request
        else .error (.noFetch o.id)

end RestGraph.Graph
