import RestGraph.Value.Access
import RestGraph.Value.Pointer

namespace RestGraph.Schema

/-!
# References to schemas
-/

def target? : Value → Option Value
  | .map ms => Table.get? ms "$ref"
  | _ => none

def isReference (v : Value) : Bool := (target? v).isSome

/-- The name at the end of a reference: its last step, unescaped. -/
def targetName (reference : String) : String :=
  String.ofList (Value.unescape (Text.afterLast '/' reference.toList))

def referenceName (target : Value) : Value.Access String :=
  match target with
  | .text s => .ok (targetName s)
  | .bytes _ => .error .wrongKind
  | _ => .error .missingOperation

end RestGraph.Schema
