import RestGraph.Text.Quoted

namespace RestGraph.Toml

/-!
# What is wrong with a TOML text
-/

inductive Reason where
  | invalidStatement
  | expectedNewline
  | declaredTwice (key : List String)
  | overwritten
  | unclosedHeader
  | unclosedListHeader
  | immutable (key : List String)
  | redefined (key : List String)
  | expectedEquals
  | invalidKeyStart
  | unclosedArray
  | unclosedTable
  | duplicateKey (key : String)
  | unescapedBackslash
  | invalidHex
  | notScalar
  | expectedMark (mark : String)
  | invalidCharacter (c : Char)
  | illegalCharacter (c : Char)
  | unterminated
  | invalidDate
  | invalidValue
deriving DecidableEq, Repr

/-- A reason with its line and column, or none at the end of the text. -/
structure Fault where
  reason : Reason
  place : Option (Nat × Nat)
deriving DecidableEq, Repr

def keyPath (key : List String) : String :=
  match key with
  | [k] => "(" ++ Text.quoted k ++ ",)"
  | ks => "(" ++ String.intercalate ", " (ks.map Text.quoted) ++ ")"

def Reason.message : Reason → String
  | .invalidStatement => "Invalid statement"
  | .expectedNewline => "Expected newline or end of document after a statement"
  | .declaredTwice key => "Cannot declare " ++ keyPath key ++ " twice"
  | .overwritten => "Cannot overwrite a value"
  | .unclosedHeader => "Expected ']' at the end of a table declaration"
  | .unclosedListHeader => "Expected ']]' at the end of an array declaration"
  | .immutable key => "Cannot mutate immutable namespace " ++ keyPath key
  | .redefined key => "Cannot redefine namespace " ++ keyPath key
  | .expectedEquals => "Expected '=' after a key in a key/value pair"
  | .invalidKeyStart => "Invalid initial character for a key part"
  | .unclosedArray => "Unclosed array"
  | .unclosedTable => "Unclosed inline table"
  | .duplicateKey key => "Duplicate inline table key " ++ Text.quoted key
  | .unescapedBackslash => "Unescaped '\\' in a string"
  | .invalidHex => "Invalid hex value"
  | .notScalar => "Escaped character is not a Unicode scalar value"
  | .expectedMark mark => "Expected " ++ Text.quoted mark
  | .invalidCharacter c => "Found invalid character " ++ Text.quoted (String.singleton c)
  | .illegalCharacter c => "Illegal character " ++ Text.quoted (String.singleton c)
  | .unterminated => "Unterminated string"
  | .invalidDate => "Invalid date or datetime"
  | .invalidValue => "Invalid value"

/-- The place before the last `left` characters of `text`. -/
def placeOf (text : List Char) (left : Nat) : Option (Nat × Nat) :=
  if left == 0 then none
  else
    let before := text.take (text.length - left)
    some (before.count '\n' + 1, (before.reverse.takeWhile (· != '\n')).length + 1)

def Fault.message (f : Fault) : String :=
  let place := match f.place with
    | none => "end of document"
    | some (line, column) => "line " ++ toString line ++ ", column " ++ toString column
  f.reason.message ++ " (at " ++ place ++ ")"

end RestGraph.Toml
