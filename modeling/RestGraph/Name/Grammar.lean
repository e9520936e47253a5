namespace RestGraph.Name

/-!
# Legal names

A name is a letter or an underscore followed by letters, digits and underscores,
all of them ASCII.
-/

def isLetter (c : Char) : Bool :=
  ('a' ≤ c && c ≤ 'z') || ('A' ≤ c && c ≤ 'Z')

def isDigit (c : Char) : Bool := '0' ≤ c && c ≤ '9'

def isStart (c : Char) : Bool := isLetter c || c == '_'

/-- The characters of names: letters, digits and the underscore. -/
def isWord (c : Char) : Bool := isLetter c || isDigit c || c == '_'

def legal : List Char → Bool
  | [] => false
  | c :: cs => isStart c && cs.all isWord

inductive Illegal where
  | empty
  | badCharacter (name : String)
  | badStart (name : String)

/-- What makes a text no name: a character after the first is looked at before the first. -/
def illegal? (name : String) : Option Illegal :=
  match name.toList with
  | [] => some .empty
  | c :: cs =>
      if !cs.all isWord then some (.badCharacter name)
      else if !isStart c then some (.badStart name)
      else none

theorem illegal?_eq_none (name : String) : illegal? name = none ↔ legal name.toList = true := by
  unfold illegal? legal
  split <;> grind

end RestGraph.Name
