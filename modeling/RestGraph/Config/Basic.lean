import RestGraph.Value.Text

namespace RestGraph

/-!
# Configuration
-/

/-- How deep translations nest: the count of levels, and whether it was written with a point. -/
structure Limit where
  count : Nat
  pointed : Bool
deriving DecidableEq, Repr

def Limit.value (l : Limit) : Value :=
  if l.pointed then .num (Decimal.nearest false l.count 0) else .int l.count

structure Config where
  baseUrl : Option String
  /-- Headers of every request; their names are no arguments. -/
  headers : Table String String
  /-- Query values of every request; their names are no arguments. -/
  query : Table String String
  limit : Limit
  strictNames : Bool
  failOnCollision : Bool

namespace Config

def defaultLimit : Limit := ⟨20, false⟩

def default : Config := ⟨none, [], [], defaultLimit, false, false⟩

instance : Inhabited Config := ⟨default⟩

def isPreset (c : Config) (name : String) : Bool :=
  Table.contains c.headers name || Table.contains c.query name

def texts (t : Table String String) : Value := .map (t.map fun e => (e.1, .text e.2))

/-- The options that differ from their defaults, as text. -/
def changes (c : Config) : List String :=
  let option (changed : Bool) (name : String) (v : Value) : List String :=
    if changed then [name ++ "=" ++ v.quoted] else []
  option c.baseUrl.isSome "base_url" (.text (c.baseUrl.getD "")) ++
    option (!c.headers.isEmpty) "headers" (texts c.headers) ++
    option (!c.query.isEmpty) "qs" (texts c.query) ++
    option (c.limit.count != defaultLimit.count) "max_iterations" c.limit.value ++
    option c.strictNames "strict_names" (.bool true) ++
    option c.failOnCollision "fail_on_name_collision" (.bool true)

def quoted (c : Config) : String :=
  "OasGraphConfig(" ++ Text.intersperse ", " c.changes ++ ")"

end Config

end RestGraph
