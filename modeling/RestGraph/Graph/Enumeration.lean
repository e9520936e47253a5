import RestGraph.Graph.Build

namespace RestGraph.Graph

/-!
# Enumerations

Each literal of an enumeration gives one member, named after the literal. Enumerations
are kept among the outputs in either mode.
-/

/-- Names that stand for other values. -/
def literalNames : List String := ["true", "false", "null"]

/-- The name of a literal without any letter, digit or underscore. -/
def emptyMemberName : String := "EMPTY"

/-- The name of the member whose literal has this text. -/
def memberOf (text : String) : String :=
  match Name.sanitize? text with
  | none => emptyMemberName
  | some name =>
      if literalNames.contains name then String.ofList (name.toList.map Name.upper) else name

def memberName (v : Value) : Value.Access String := v.written.map memberOf

def membersFrom (name : String) (found : Table String Value) :
    List Value → Except Failure (Table String Value)
  | [] => .ok found
  | v :: vs => do
      let member ← (memberName v).mapError .malformed
      match Table.get? found member with
      | some first => .error (.enumClash name first v member)
      | none => membersFrom name (Table.insert found member v) vs

/-- The type kept under a name, or else the enumeration of some literals. -/
def resolveEnumeration (name : String) (literals : Value) : Build TypeRef := do
  match (← get).output? (.ofText name) with
  | some type => do
      report .debug ("Reuse enum type `" ++ name ++ "`")
      return type
  | none => do
      report .debug ("Create enum type `" ++ name ++ "`")
      let members ← liftExcept (membersFrom name [] (← access literals.iterate))
      checkTypeName name
      let place ← addType (.enumeration ⟨name, members⟩)
      setCached .output (.ofText name) (some (.named place))
      return .named place

end RestGraph.Graph
