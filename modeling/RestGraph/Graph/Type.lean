import RestGraph.Catalog.Basic
import RestGraph.Schema.Shape

namespace RestGraph.Graph

/-!
# Graph types

The types derived from schemas. Composite types and enumerations are known by their
place in the graph; a type expression refers to them by it. The fields of a composite
type are found when they are first asked for, so that a schema may refer to itself.
-/

inductive Scalar where
  | string
  | int
  | float
  | boolean
deriving DecidableEq, Repr

def Scalar.ofType? : String → Option Scalar
  | "string" => some .string
  | "integer" => some .int
  | "number" => some .float
  | "boolean" => some .boolean
  | _ => none

def Scalar.name : Scalar → String
  | .string => "String"
  | .int => "Int"
  | .float => "Float"
  | .boolean => "Boolean"

inductive TypeRef where
  | scalar (s : Scalar)
  | named (place : Nat)
  | list (item : TypeRef)
  | nonNull (inner : TypeRef)
deriving DecidableEq, Repr

def TypeRef.place? : TypeRef → Option Nat
  | .scalar _ => none
  | .named place => some place
  | .list t => t.place?
  | .nonNull t => t.place?

/-- How a field gets its value where it is not the parent's member of the field's name. -/
inductive Resolver where
  | property (name : String)
  /-- A request; `preset` gives parameters as pointers into the parent. -/
  | request (operation : Operation) (preset : Table String String)

structure ArgumentDef where
  type : TypeRef
  description : Option String

structure Field where
  type : TypeRef
  description : Option String
  arguments : Table String ArgumentDef
  resolver : Option Resolver

/-- What the fields of a composite type are made of. -/
structure Plan where
  schema : Schema.Members
  links : Table String Link
  mode : Mode
  iteration : Int

structure Composite where
  name : String
  description : Option String
  plan : Plan
  fields? : Option (Table String Field)

structure Enumeration where
  name : String
  members : Table String Value

inductive NamedType where
  | composite (c : Composite)
  | enumeration (e : Enumeration)

def NamedType.name : NamedType → String
  | .composite c => c.name
  | .enumeration e => e.name

end RestGraph.Graph
