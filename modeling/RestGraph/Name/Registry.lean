import RestGraph.Name.Sanitize
import RestGraph.Table

namespace RestGraph.Name

/-!
# The registry of names

The registry remembers which text each name was made of. A text gets one name, and
a name belongs to one text: when the name that a text would get is taken, a strict
registry refuses the text and any other appends the least number from two on that
gives a free name.
-/

structure Registry where
  strict : Bool
  /-- From a name to the text it stands for. -/
  texts : Table String String
  /-- From a text to its name. -/
  names : Table String String

inductive StoreFault where
  | unusable (text : String)
  | taken (name text holder : String)

namespace Registry

def empty (strict : Bool) : Registry := ⟨strict, [], []⟩

def size (r : Registry) : Nat := r.texts.length

/-- The least `n` from `start` on for which `base` followed by `n` is free; one is found
within `size + 1` tries, since fewer names are taken. -/
def freeSuffix (r : Registry) (base : String) : Nat → Nat → Nat
  | 0, n => n
  | tries + 1, n =>
      if Table.contains r.texts (base ++ toString n) then freeSuffix r base tries (n + 1) else n

def add (r : Registry) (name text : String) : Registry :=
  ⟨r.strict, Table.insert r.texts name text, Table.insert r.names text name⟩

def store (r : Registry) (text : String) : Except StoreFault (String × Registry) :=
  match Table.get? r.names text with
  | some name => .ok (name, r)
  | none =>
      match sanitize? text with
      | none => .error (.unusable text)
      | some name =>
          match Table.get? r.texts name with
          | none => .ok (name, r.add name text)
          | some holder =>
              if r.strict then .error (.taken name text holder)
              else
                let numbered := name ++ toString (r.freeSuffix name (r.size + 1) 2)
                .ok (numbered, r.add numbered text)

/-- The text that holds the plain name of a text about to get a numbered one. -/
def holder? (r : Registry) (text : String) : Option (String × String) := do
  if Table.contains r.names text then none
  let name ← sanitize? text
  let holder ← Table.get? r.texts name
  return (name, holder)

def text? (r : Registry) (name : String) : Option String := Table.get? r.texts name

def textOr (r : Registry) (name default : String) : String := (r.text? name).getD default

def name? (r : Registry) (text : String) : Option String := Table.get? r.names text

def contains (r : Registry) (name : String) : Bool := Table.contains r.texts name

def items (r : Registry) : List (String × String) := r.texts

end Registry

end RestGraph.Name
