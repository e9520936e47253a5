namespace RestGraph.Json

/-!
# What is wrong with a JSON text
-/

inductive Reason where
  | expectedValue
  | expectedName
  | expectedColon
  | expectedComma
  | extraData
  | unterminated
  | controlCharacter
  | unknownEscape
  | unicodeEscape
  | byteOrderMark
  /-- An integer of more digits than are read. -/
  | longInteger
  /-- An array or an object within more of them than there is room for. -/
  | tooNested
deriving DecidableEq, Repr

/-- A reason and how many characters of the text precede the place. -/
structure Fault where
  reason : Reason
  offset : Nat
deriving DecidableEq, Repr

def Reason.message : Reason → String
  | .expectedValue => "Expecting value"
  | .expectedName => "Expecting property name enclosed in double quotes"
  | .expectedColon => "Expecting ':' delimiter"
  | .expectedComma => "Expecting ',' delimiter"
  | .extraData => "Extra data"
  | .unterminated => "Unterminated string starting at"
  | .controlCharacter => "Invalid control character at"
  | .unknownEscape => "Invalid \\escape"
  | .unicodeEscape => "Invalid \\uXXXX escape"
  | .byteOrderMark => "Unexpected UTF-8 BOM (decode using utf-8-sig)"
  | .longInteger => "Integer too long"
  | .tooNested => "Nested too deep"

/-- The reason with its place in `text`: lines and columns count from one. -/
def Fault.message (f : Fault) (text : List Char) : String :=
  let before := text.take f.offset
  let line := before.count '\n' + 1
  let column := (before.reverse.takeWhile (· != '\n')).length + 1
  f.reason.message ++ ": line " ++ toString line ++ " column " ++ toString column ++
    " (char " ++ toString f.offset ++ ")"

end RestGraph.Json
