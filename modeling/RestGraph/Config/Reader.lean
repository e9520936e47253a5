import RestGraph.Config.Basic
import RestGraph.Config.Placeholder
import RestGraph.Similarity

namespace RestGraph.Config

/-!
# Reading a configuration

The options are checked before any placeholder is expanded: that there is no other
key, then their values in the order of the options below.
-/

inductive OptionKind where
  | text
  | truth
  /-- An integer from one on; a number with a point counts if it is whole. -/
  | count
  | entries

def options : List (String × OptionKind) :=
  [("base-url", .text), ("max-iterations", .count), ("strict-names", .truth),
    ("fail-on-name-collision", .truth), ("headers", .entries), ("qs", .entries)]

def optionNames : List String := options.map Prod.fst

def whole? : Value → Option Int
  | .int n => some n
  | .num x => Decimal.integral? x
  | _ => none

def isEntry : Value → Bool
  | .text _ => true
  | .int _ => true
  | .num _ => true
  | .bool _ => true
  | _ => false

def entryTypes : List String := ["string", "integer", "number", "boolean"]

def checkEntries (name : String) : List (String × Value) → Except Fault Unit
  | [] => .ok ()
  | (key, v) :: rest =>
      if isEntry v then checkEntries name rest
      else .error (.shown v (.wrongType [name, key] entryTypes))

def OptionKind.check (name : String) : OptionKind → Value → Except Fault Unit
  | .text, .text _ => .ok ()
  | .text, v => .error (.shown v (.wrongType [name] ["string"]))
  | .truth, .bool _ => .ok ()
  | .truth, v => .error (.shown v (.wrongType [name] ["boolean"]))
  | .count, v =>
      match whole? v with
      | none => .error (.shown v (.wrongType [name] ["integer"]))
      | some n => if n < 1 then .error (.shown v (.tooLow [name] 1)) else .ok ()
  | .entries, .map ms => checkEntries name ms
  | .entries, v => .error (.shown v (.wrongType [name] ["object"]))

def checkOptions (ms : Table String Value) : List (String × OptionKind) → Except Fault Unit
  | [] => .ok ()
  | (name, kind) :: rest =>
      match Table.get? ms name with
      | none => checkOptions ms rest
      | some v => do
          kind.check name v
          checkOptions ms rest

def unknownKeys (ms : Table String Value) : List String :=
  ((Table.keys ms).filter fun key => !optionNames.contains key).mergeSort (· ≤ ·)

def check (v : Value) : Except Fault (Table String Value) :=
  match v with
  | .map ms =>
      match unknownKeys ms with
      | [] => do
          checkOptions ms options
          return ms
      | keys =>
          .error (.unknownKeys (keys.map fun key => (key, Similarity.closest? key optionNames))
            optionNames)
  | v => .error (.shown v (.wrongType [] ["object"]))

def limitOf : Option Value → Limit
  | some (.int n) => ⟨n.toNat, false⟩
  | some (.num x) => ⟨((Decimal.integral? x).getD 0).toNat, true⟩
  | _ => defaultLimit

def flag (ms : Table String Value) (name : String) : Bool :=
  match Table.get? ms name with
  | some (.bool b) => b
  | _ => false

def entries (ms : Table String Value) (name : String) : List (String × Value) :=
  match Table.get? ms name with
  | some (.map es) => es
  | _ => []

def ofValue (env : Environment) (v : Value) : Except Fault Config := do
  let ms ← check v
  let baseUrl ← match Table.get? ms "base-url" with
    | some (.text s) => some <$> expand env s
    | _ => pure none
  let headers ← expandTable env (entries ms "headers")
  let query ← expandTable env (entries ms "qs")
  return ⟨baseUrl, headers, query, limitOf (Table.get? ms "max-iterations"),
    flag ms "strict-names", flag ms "fail-on-name-collision"⟩

end RestGraph.Config
