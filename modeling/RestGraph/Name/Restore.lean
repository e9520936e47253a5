import RestGraph.Name.Registry
import RestGraph.Value.Basic

namespace RestGraph.Name

/-!
# Restoring names in values

The keys of a value, at every depth, are replaced by the texts that their names stand
for. Of members that get one key the last value counts, at the place of the first.
-/

mutual

def Registry.restore (r : Registry) : Value → Value
  | .map ms => .map (Table.ofList (restoreMembers r ms))
  | .list vs => .list (restoreItems r vs)
  | v => v

def Registry.restoreItems (r : Registry) : List Value → List Value
  | [] => []
  | v :: vs => r.restore v :: restoreItems r vs

def Registry.restoreMembers (r : Registry) : List (String × Value) → List (String × Value)
  | [] => []
  | (k, v) :: ms => (r.textOr k k, r.restore v) :: restoreMembers r ms

end

end RestGraph.Name
