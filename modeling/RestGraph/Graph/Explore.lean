import RestGraph.Graph.Field
import RestGraph.Graph.Key
import RestGraph.Value.Size

namespace RestGraph.Graph

/-!
# Going through a graph

The fields of a type lead to further types. Going depth first, as the types of an API are collected,
there is one object type at most for each key in each mode, so a budget of as many types is never
used up. Going level by level, as all types of a session are looked at, the budget is a choice.
-/

def mentioned (fields : Table String Field) : List TypeRef :=
  fields.flatMap fun f => f.2.type :: f.2.arguments.map fun a => a.2.type

def State.isComposite (s : State) (place : Nat) : Bool :=
  match s.types[place]? with
  | some (.composite _) => true
  | _ => false

/-- The first type not yet seen that has fields, with the types after it. The enumerations
before it are seen then. -/
def nextComposite (s : State) (seen : List Nat) :
    List TypeRef → List Nat × Option (Nat × List TypeRef)
  | [] => (seen, none)
  | t :: rest =>
      match t.place? with
      | none => nextComposite s seen rest
      | some place =>
          if seen.contains place then nextComposite s seen rest
          else if s.isComposite place then (seen, some (place, rest))
          else nextComposite s (seen ++ [place]) rest

/-- The places reached from some types, depth first, after those already seen; the fields of
so many types are found at most. -/
def reachFrom (c : Catalog) : Nat → List TypeRef → List Nat → Build (List Nat)
  | 0, types, seen => do return (nextComposite (← get) seen types).1
  | room + 1, types, seen => do
      match nextComposite (← get) seen types with
      | (seen, none) => return seen
      | (seen, some (place, rest)) => do
          let fields ← fieldsAt c place
          reachFrom c room (mentioned fields ++ rest) (seen ++ [place])

def reach (c : Catalog) (types : List TypeRef) (seen : List Nat) : Build (List Nat) :=
  reachFrom c (keyBound c) types seen

/-! ## Level by level -/

def attempt {α : Type} (b : Build α) : Build (Except Failure α) :=
  tryCatch (Except.ok <$> b) fun f => pure (.error f)

/-- A type that was visited, with its fields or the reason why there are none. -/
structure Visit where
  place : Nat
  fields : Except Failure (Table String Field)

def addPlaces (known : List Nat) : List TypeRef → List Nat
  | [] => known
  | t :: rest =>
      match t.place? with
      | none => addPlaces known rest
      | some place => addPlaces (if known.contains place then known else known ++ [place]) rest

/-- Visits the known places from the `done`-th on, and those found on the way after them. -/
def visitFrom (c : Catalog) : Nat → Nat → List Nat → Build (List Visit)
  | 0, _, _ => pure []
  | steps + 1, done, known =>
      match known[done]? with
      | none => pure []
      | some place => do
          let fields ← attempt (fieldsAt c place)
          let found := match fields with
            | .ok fields => mentioned fields
            | .error _ => []
          return ⟨place, fields⟩ :: (← visitFrom c steps (done + 1) (addPlaces known found))

def operationsSize : List (Label × Operation) → Nat
  | [] => 0
  | (_, o) :: rest => 1 + o.parameters.length + o.links.length + operationsSize rest

def catalogSize (c : Catalog) : Nat :=
  Value.sizeMembers c.outputs + Value.sizeMembers c.inputs + operationsSize c.operations

def planSize (p : Plan) : Nat := 1 + Value.sizeMembers p.schema + p.links.length

def typesSize : List NamedType → Nat
  | [] => 0
  | .composite c :: rest => planSize c.plan + typesSize rest
  | .enumeration _ :: rest => 1 + typesSize rest

def namesBound (c : Catalog) (s : State) : Nat :=
  catalogSize c + typesSize s.types.toList + 4

/-- The budget of `visitAll`: so many types are visited at most. It grows with the third power of
the size of the description and of the types so far, so that a walk ends before it in practice;
that it always does is not proved. -/
def stepBudget (c : Catalog) (s : State) : Nat :=
  let n := namesBound c s
  4 * n * n * n

/-- Visits the types that lie in the caches and those that they lead to, in the order in which they
are found, up to the budget. -/
def visitAll (c : Catalog) : Build (List Visit) := do
  let s ← get
  let roots := (s.outputs ++ s.inputs).filterMap Prod.snd
  visitFrom c (stepBudget c s) 0 (addPlaces [] roots)

end RestGraph.Graph
