import RestGraph.Catalog.Reader
import RestGraph.Graph.Explore
import RestGraph.Graph.Response
import RestGraph.Sdl.Definition

namespace RestGraph.Graph

/-!
# The graph of an API

Each operation whose response has a type is a field of a root type: an operation that
only reads is a query, and any other a mutation.
-/

structure Roots where
  query : Table String Field
  mutation : Table String Field

structure Api where
  roots : Roots
  /-- The places of the types that queries lead to, and of the further ones of mutations. -/
  queryPlaces : List Nat
  mutationPlaces : List Nat

def queryName : String := "Query"

def mutationName : String := "Mutation"

def operationField (c : Catalog) (o : Operation) : Build (Option Field) := do
  match ← responseType? o with
  | none => do
      report .warning ("Skipped operation `" ++ o.label ++
        "`, its response has no usable schema")
      return none
  | some type => do
      let body := if o.isMutation then o.request else none
      let found ← arguments c o.parameters body o.requestRequired
      let defs ← argumentDefs found
      let description ← checkDescription .typeOrField o.description
      return some ⟨type, description, defs, some (.request o [])⟩

def Roots.insert (r : Roots) (mutation : Bool) (name : String) (field : Field) : Roots :=
  if mutation then { r with mutation := Table.insert r.mutation name field }
  else { r with query := Table.insert r.query name field }

def rootFields (c : Catalog) (found : Roots) : List Operation → Build Roots
  | [] => pure found
  | o :: rest => do
      match ← operationField c o with
      | none => rootFields c found rest
      | some field => do
          let name ← storeName o.id.plain
          rootFields c (found.insert o.isMutation name field) rest

def nameAt (s : State) (place : Nat) : String :=
  ((s.types[place]?).map NamedType.name).getD ""

namespace Api

def hasMutation (a : Api) : Bool := !a.roots.mutation.isEmpty

def typeNames (a : Api) (s : State) : List String :=
  let mutation := if a.hasMutation then [mutationName] else []
  queryName :: a.queryPlaces.map (nameAt s) ++ mutation ++ a.mutationPlaces.map (nameAt s)

end Api

def repeated? (seen : List String) : List String → Option String
  | [] => none
  | name :: names => if seen.contains name then some name else repeated? (name :: seen) names

def buildApi (c : Catalog) : Build Api := do
  translateResponses c
  let roots ← rootFields c ⟨[], []⟩ (c.operations.map Prod.snd)
  if roots.query.isEmpty then throw .noQuery
  let queryPlaces ← reach c (mentioned roots.query) []
  let places ← reach c (mentioned roots.mutation) queryPlaces
  let api : Api := ⟨roots, queryPlaces, places.drop queryPlaces.length⟩
  match repeated? [] (api.typeNames (← get)) with
  | some name => throw (.sameTypeName name)
  | none => return api

/-- The result of a build on the catalog of a description, with the catalog and the state
that the build leaves. The log of reading the description comes first. -/
def ofDocument {α : Type} (config : Config) (fetches : Bool) (document : Value)
    (build : Catalog → Build α) : Except Failure (Catalog × α) × State :=
  let start := State.empty config.strictNames
  match Catalog.ofDocument config fetches document with
  | (.error f, log) => (.error f, { start with log := log })
  | (.ok c, log) =>
      let (result, s) := (build c).run { start with log := log }
      (result.map fun a => (c, a), s)

/-! ## Definitions -/

def typeExpr (s : State) : TypeRef → Sdl.TypeExpr
  | .scalar t => .named t.name
  | .named place => .named (nameAt s place)
  | .list t => .list (typeExpr s t)
  | .nonNull t => .nonNull (typeExpr s t)

def argumentDef (s : State) (e : String × ArgumentDef) : Sdl.InputDef :=
  ⟨e.1, typeExpr s e.2.type, e.2.description⟩

def fieldDef (s : State) (e : String × Field) : Sdl.FieldDef :=
  ⟨e.1, e.2.arguments.map (argumentDef s), typeExpr s e.2.type, e.2.description⟩

def inputFieldDef (s : State) (e : String × Field) : Sdl.InputDef :=
  ⟨e.1, typeExpr s e.2.type, e.2.description⟩

def NamedType.definition (s : State) : NamedType → Sdl.Definition
  | .enumeration e => .enumeration e.name (Table.keys e.members)
  | .composite c =>
      let fields := c.fields?.getD []
      match c.plan.mode with
      | .output => .object c.name c.description (fields.map (fieldDef s))
      | .input => .input c.name c.description (fields.map (inputFieldDef s))

namespace Api

def definitionsAt (s : State) (places : List Nat) : List Sdl.Definition :=
  places.filterMap fun place => (s.types[place]?).map (NamedType.definition s)

def definitions (a : Api) (s : State) : List Sdl.Definition :=
  let mutation :=
    if a.hasMutation then [.object mutationName none (a.roots.mutation.map (fieldDef s))] else []
  .object queryName none (a.roots.query.map (fieldDef s)) :: definitionsAt s a.queryPlaces ++
    mutation ++ definitionsAt s a.mutationPlaces

def objectFields? (a : Api) (s : State) (name : String) : Option (Table String Field) :=
  if name == queryName then some a.roots.query
  else if a.hasMutation && name == mutationName then some a.roots.mutation
  else
    let place? := (a.queryPlaces ++ a.mutationPlaces).find? fun place => nameAt s place == name
    match place?.bind fun place => s.types[place]? with
    | some (.composite c) => if c.plan.mode == .output then c.fields? else none
    | _ => none

end Api

end RestGraph.Graph
