import RestGraph.Catalog.Basic
import RestGraph.Similarity

namespace RestGraph.Catalog

/-!
# Looking up schemas and operations
-/

def schemas (c : Catalog) : Mode → Table String Value
  | .output => c.outputs
  | .input => c.inputs

def schema (c : Catalog) (mode : Mode) (name : String) : Value :=
  (Table.get? (c.schemas mode) name).getD .null

def defines (c : Catalog) (name : String) : Bool :=
  Table.contains c.outputs name || Table.contains c.inputs name

/-- The failure to find an operation, with the closest name that there is. -/
def unknown (c : Catalog) (id : Label) : Failure :=
  match id.text?, (Table.keys c.operations).mapM Label.text? with
  | some item, some names => .unknownOperation item (Similarity.closest? item names)
  | _, _ => .malformed .wrongKind

def operation (c : Catalog) (id : Value) : Except Failure Operation :=
  match id.label? with
  | none => .error (.malformed .wrongKind)
  | some label =>
      match Table.get? c.operations label with
      | some o => .ok o
      | none => .error (c.unknown label)

end RestGraph.Catalog
