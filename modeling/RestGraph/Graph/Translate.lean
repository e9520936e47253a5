import RestGraph.Catalog.Lookup
import RestGraph.Graph.Enumeration
import RestGraph.Schema.Reference

namespace RestGraph.Graph

/-!
# From schemas to types

Each step into the items of an array or through a reference is one level deeper, and
the configuration bounds the levels. Objects are not entered: their fields are found
when they are asked for. A schema without a usable type gives no type.
-/

/-- How a named schema one level deeper becomes a type. -/
abbrev Deeper := Value → Value → Build (Option TypeRef)

/-- The text that an object type is named after: for inputs it ends in their suffix. -/
def typeText (mode : Mode) (name : Value) : Value.Access String :=
  match mode, name with
  | .output, v => .ok v.plain
  | .input, .text s =>
      .ok (if Text.hasSuffix s Operation.inputSuffix then s else s ++ Operation.inputSuffix)
  | .input, .bytes _ => .error .wrongKind
  | .input, _ => .error .missingOperation

/-- The type kept under a name, or else a new one whose fields are yet to be found. -/
def objectType (name : Value) (plan : Plan) : Build (Option TypeRef) := do
  let key ← keyOf name
  match ← cached? plan.mode key with
  | some type => return type
  | none => do
      let typeName ← storeName (← access (typeText plan.mode name))
      checkTypeName typeName
      let description ←
        checkDescription .typeOrField (Value.memberOr plan.schema "description" .null)
      let place ← addType (.composite ⟨typeName, description, plan, none⟩)
      setCached plan.mode key (some (.named place))
      return some (.named place)

def referenceKey (mode : Mode) (name : String) : String :=
  match mode with
  | .output => name
  | .input => name ++ Operation.inputSuffix

def referenceType (c : Catalog) (deeper : Deeper) (mode : Mode) (name : String) :
    Build (Option TypeRef) := do
  let key := referenceKey mode name
  match ← cached? mode (.ofText key) with
  | some type => return type
  | none => do
      let type ← deeper (.text key) (c.schema mode key)
      setCached mode (.ofText key) type
      return type

def scalarType (s : Schema.Members) : Option TypeRef :=
  ((Schema.declaredType? s).bind Scalar.ofType?).map .scalar

def itemsName : String := "ArrayItems"

/-- The type of the items of an array, named after their title. Enumerations without a title
are named after the array. -/
def itemType (c : Catalog) (deeper : Deeper) (mode : Mode) (name items : Value) :
    Build (Option TypeRef) :=
  match Schema.target? items with
  | some target => do referenceType c deeper mode (← access (Schema.referenceName target))
  | none =>
      match items with
      | .map s =>
          match Schema.shape? s with
          | none => throw (.shapeless (Value.memberOr s "title" name) items)
          | some .scalar => pure (scalarType s)
          | some .enumeration =>
              deeper (Value.memberOr s "title" (.text (name.plain ++ "Items"))) items
          | some _ => deeper (Value.memberOr s "title" (.text itemsName)) items
      | _ => throw (.missingSchema name items)

def listType (c : Catalog) (deeper : Deeper) (mode : Mode) (name : Value) (s : Schema.Members) :
    Build (Option TypeRef) :=
  match Table.get? s "items" with
  | none => throw (.missingItems name)
  | some items => do return (← itemType c deeper mode name items).map .list

def enumerationType (name : Value) (s : Schema.Members) : Build (Option TypeRef) := do
  let typeName ← storeName name.plain
  match Table.get? s "enum" with
  | none => throw (.malformed .missingEntry)
  | some literals => return some (← resolveEnumeration typeName literals)

/-- The type of a named schema. Links belong to the fields of an object at the first level. -/
def translate (c : Catalog) (mode : Mode) (name schema : Value) (links : Table String Link)
    (iteration : Int) : Build (Option TypeRef) :=
  if _h : c.config.limit.count ≤ iteration then throw (.tooDeep name c.config.limit)
  else
    match schema with
    | .map s =>
        match Schema.shape? s with
        | none => throw (.shapeless name schema)
        | some .object => objectType name ⟨s, links, mode, iteration⟩
        | some .enumeration => enumerationType name s
        | some .emptyObject => do
            report .warning ("Skipped creation of (input) object type `" ++ name.plain ++
              "`, which has no properties")
            return none
        | some .array =>
            listType c (fun n items => translate c mode n items [] (iteration + 1)) mode name s
        | some .scalar => pure (scalarType s)
    | _ => throw (.missingSchema name schema)
termination_by (c.config.limit.count - iteration).toNat
decreasing_by omega

def resolveReference (c : Catalog) (mode : Mode) (name : String) (iteration : Int) :
    Build (Option TypeRef) :=
  referenceType c (fun n s => translate c mode n s [] (iteration + 1)) mode name

end RestGraph.Graph
