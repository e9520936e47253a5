import RestGraph.Value.Basic

namespace RestGraph.Schema

/-!
# Shapes of schemas

A schema is read by its members. Literals in a list `enum` make it an enumeration
whatever its declared type; without a declared type, `properties` make it an object
and `items` an array.
-/

inductive Shape where
  | object
  | emptyObject
  | enumeration
  | array
  | scalar
deriving DecidableEq, Repr

abbrev Members := Table String Value

/-- The declared type. A list of types stands for its only entry that is not `null`. -/
def declaredType? (s : Members) : Option String :=
  match Table.get? s "type" with
  | some (.text t) => some t
  | some (.list ts) =>
      match ts.filter fun t => t.text? != some "null" with
      | [.text t] => some t
      | _ => none
  | _ => none

def kind? (s : Members) : Option String :=
  match Table.get? s "enum" with
  | some (.list _) => some "enum"
  | _ =>
      match declaredType? s with
      | some t => some t
      | none =>
          match Table.get? s "properties" with
          | some (.map _) => some "object"
          | _ => if Table.contains s "items" then some "array" else none

def hasProperties (s : Members) : Bool :=
  ((Table.get? s "properties").map Value.truthy).getD false

def shape? (s : Members) : Option Shape :=
  match kind? s with
  | none => none
  | some "object" => some (if hasProperties s then .object else .emptyObject)
  | some "enum" => some .enumeration
  | some "array" => some .array
  | some _ => some .scalar

end RestGraph.Schema
