import RestGraph.Value.Basic

namespace RestGraph.Value

/-!
# Sizes of values
-/

mutual

def size : Value → Nat
  | .list vs => 1 + sizeItems vs
  | .map ms => 1 + sizeMembers ms
  | _ => 1

def sizeItems : List Value → Nat
  | [] => 0
  | v :: vs => size v + sizeItems vs

def sizeMembers : List (String × Value) → Nat
  | [] => 0
  | (_, v) :: ms => 1 + size v + sizeMembers ms

end

end RestGraph.Value
