import RestGraph.Graph.Type
import RestGraph.Name.Quoted

namespace RestGraph.Graph

/-!
# Building a graph

A build keeps the types made so far, with the keys under which they are found again,
and the registry of names. A step that fails leaves what it did before it failed.
-/

/-- Types by key; a key without a type belongs to a schema that gives none. -/
abbrev Cache := Table Label (Option TypeRef)

structure State where
  names : Name.Registry
  outputs : Cache
  inputs : Cache
  types : Array NamedType
  log : List Record

def State.empty (strictNames : Bool) : State := ⟨.empty strictNames, [], [], #[], []⟩

abbrev Build := ExceptT Failure (StateM State)

/-- The result of a step and the state that it leaves. -/
def Build.run {α : Type} (b : Build α) (s : State) : Except Failure α × State :=
  StateT.run (ExceptT.run b) s

namespace State

def cache (s : State) : Mode → Cache
  | .output => s.outputs
  | .input => s.inputs

def setCached (s : State) (mode : Mode) (key : Label) (type : Option TypeRef) : State :=
  match mode with
  | .output => { s with outputs := Table.insert s.outputs key type }
  | .input => { s with inputs := Table.insert s.inputs key type }

def output? (s : State) (key : Label) : Option TypeRef := (Table.get? s.outputs key).join

def isInput (s : State) (t : TypeRef) : Bool :=
  match t.place? with
  | none => true
  | some place =>
      match s.types[place]? with
      | some (.composite c) => c.plan.mode == .input
      | _ => true

end State

def access {α : Type} : Value.Access α → Build α
  | .ok a => pure a
  | .error b => throw (.malformed b)

def liftExcept {α : Type} : Except Failure α → Build α
  | .ok a => pure a
  | .error f => throw f

def report (level : Level) (text : String) : Build Unit :=
  modify fun s => { s with log := s.log ++ [⟨level, text⟩] }

def storeName (text : String) : Build String := do
  let s ← get
  match s.names.store text with
  | .error f => throw (.ofStore f)
  | .ok (name, names) =>
      set { s with names := names, log := s.log ++ s.names.note text name }
      return name

def keyOf (v : Value) : Build Label := access v.labelOf

def cached? (mode : Mode) (key : Label) : Build (Option (Option TypeRef)) := do
  return Table.get? ((← get).cache mode) key

def setCached (mode : Mode) (key : Label) (type : Option TypeRef) : Build Unit :=
  modify (·.setCached mode key type)

def addType (type : NamedType) : Build Nat :=
  modifyGet fun s => (s.types.size, { s with types := s.types.push type })

/-! ## Checks -/

def reservedNames : List String :=
  ["String", "Int", "Float", "Boolean", "ID", "__Schema", "__Directive", "__DirectiveLocation",
    "__Type", "__Field", "__InputValue", "__EnumValue", "__TypeKind"]

def checkTypeName (name : String) : Build Unit :=
  if reservedNames.contains name then throw (.reservedTypeName name)
  else match Name.illegal? name with
    | some f => throw (.illegalName f)
    | none => pure ()

def checkDescription (described : Described) : Value → Build (Option String)
  | .null => pure none
  | .text s => pure (some s)
  | _ => throw (.descriptionNotText described)

def checkInput (failure : Failure) (t : TypeRef) : Build Unit := do
  if (← get).isInput t then pure () else throw failure

end RestGraph.Graph
