import RestGraph.Graph.Translate

namespace RestGraph.Graph

/-!
# The keys of a description

The types of objects are kept under the names of properties, the titles of items, the names of
references, those of responses and requests, and one name for items without a title. There are
finitely many of these in a description.
-/

/-- The key under which what a reference leads to is kept. -/
def referenceNames (mode : Mode) (s : Schema.Members) : List Value :=
  match Table.get? s "$ref" with
  | some (.text target) => [.text (referenceKey mode (Schema.targetName target))]
  | _ => []

def propertyNames (s : Schema.Members) : List Value :=
  match Table.get? s "properties" with
  | some (.map ps) => ps.map fun p => .text p.1
  | _ => []

def itemTitles (s : Schema.Members) : List Value :=
  match Table.get? s "items" with
  | some (.map items) => (Table.get? items "title").toList
  | _ => []

mutual

/-- The names in a schema and in all that stands within it. -/
def keysIn (mode : Mode) : Value → List Value
  | .map s => referenceNames mode s ++ propertyNames s ++ itemTitles s ++ keysInMembers mode s
  | _ => []

def keysInMembers (mode : Mode) : List (String × Value) → List Value
  | [] => []
  | (_, v) :: ms => keysIn mode v ++ keysInMembers mode ms

end

/-- The names of responses for outputs, and of requests for inputs. -/
def rootNames (c : Catalog) : Mode → List String
  | .output => (c.operations.map Prod.snd).filterMap Operation.response
  | .input => (c.operations.map Prod.snd).filterMap Operation.request

/-- All keys that an object type may have in a mode. -/
def keysOf (c : Catalog) (mode : Mode) : List Value :=
  .text itemsName :: (rootNames c mode).map .text ++
    (c.schemas mode).flatMap fun e => keysIn mode e.2

/-- There are no more object types than keys. -/
def keyBound (c : Catalog) : Nat := (keysOf c .output).length + (keysOf c .input).length

end RestGraph.Graph
