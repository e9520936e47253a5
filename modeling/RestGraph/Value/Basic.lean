import RestGraph.Table
import RestGraph.Moment
import RestGraph.Decimal.Notation

namespace RestGraph

/-!
# Values

The values that descriptions, configurations, arguments and bodies are made of.
Maps keep their members in order. A map that was read holds no key twice.
-/

inductive Value where
  | null
  | bool (b : Bool)
  | int (n : Int)
  | num (x : Float)
  | text (s : String)
  | bytes (octets : List UInt8)
  | moment (m : Moment)
  | list (items : List Value)
  | map (members : List (String × Value))
deriving Inhabited

namespace Value

def member? (v : Value) (key : String) : Option Value :=
  match v with
  | .map ms => Table.get? ms key
  | _ => none

/-- False for null, false, zero and whatever is empty. -/
def truthy : Value → Bool
  | .null => false
  | .bool b => b
  | .int n => n != 0
  | .num x => x != 0.0
  | .text s => !s.isEmpty
  | .bytes bs => !bs.isEmpty
  | .moment _ => true
  | .list vs => !vs.isEmpty
  | .map ms => !ms.isEmpty

def isMap : Value → Bool
  | .map _ => true
  | _ => false

def text? : Value → Option String
  | .text s => some s
  | _ => none

/-- The member `key`, with an absent member read as null. -/
def memberOr (ms : Table String Value) (key : String) (default : Value) : Value :=
  (Table.get? ms key).getD default

end Value

end RestGraph
