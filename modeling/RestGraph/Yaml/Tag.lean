import RestGraph.Text.Integer
import RestGraph.Yaml.Cursor

namespace RestGraph.Yaml

/-!
# Tags of YAML

A plain scalar has the tag that its text shows: a null, a truth value, a number, the
mark of merged members or the mark of a default value. All other text is a string.
-/

inductive Tag where
  | null
  | truth
  | integer
  | number
  | string
  | binary
  | timestamp
  | sequence
  | mapping
  | set
  | orderedMap
  | pairs
  | merge
  | default
  | unknown (name : List Char)
deriving DecidableEq, Repr, Inhabited

def Tag.family : List Char := "tag:yaml.org,2002:".toList

def Tag.known : List (List Char × Tag) :=
  [("null".toList, .null), ("bool".toList, .truth), ("int".toList, .integer),
    ("float".toList, .number), ("str".toList, .string), ("binary".toList, .binary),
    ("timestamp".toList, .timestamp), ("seq".toList, .sequence), ("map".toList, .mapping),
    ("set".toList, .set), ("omap".toList, .orderedMap), ("pairs".toList, .pairs),
    ("merge".toList, .merge), ("value".toList, .default)]

def Tag.ofName (name : List Char) : Tag :=
  if family.isPrefixOf name then
    match known.find? fun k => k.1 == name.drop family.length with
    | some k => k.2
    | none => .unknown name
  else .unknown name

/-! ## Plain scalars -/

def nullWords : List String := ["", "~", "null", "Null", "NULL"]

def truthWords : List String :=
  ["yes", "Yes", "YES", "no", "No", "NO", "true", "True", "TRUE", "false", "False", "FALSE",
    "on", "On", "ON", "off", "Off", "OFF"]

def dropSign : List Char → List Char
  | '-' :: r => r
  | '+' :: r => r
  | r => r

def isDigitOrLine (c : Char) : Bool := isDigit c || c == '_'

def isDigits : List Char → Bool
  | d :: ds => isDigit d && ds.all isDigitOrLine
  | [] => false

/-- The digit pairs of a number in base sixty, each after a colon. -/
def isSixty : List Char → Bool
  | [':', a] => isDigit a
  | [':', a, b] => isDigit b && '0' ≤ a && a ≤ '5'
  | ':' :: a :: ':' :: r => isDigit a && isSixty (':' :: r)
  | ':' :: a :: b :: ':' :: r => isDigit b && '0' ≤ a && a ≤ '5' && isSixty (':' :: r)
  | _ => false

def isBinary (c : Char) : Bool := c == '0' || c == '1' || c == '_'

def isOctal (c : Char) : Bool := ('0' ≤ c && c ≤ '7') || c == '_'

def isHex (c : Char) : Bool :=
  isDigit c || ('a' ≤ c && c ≤ 'f') || ('A' ≤ c && c ≤ 'F') || c == '_'

def isInteger (s : List Char) : Bool :=
  match dropSign s with
  | ['0'] => true
  | '0' :: 'b' :: r => !r.isEmpty && r.all isBinary
  | '0' :: 'x' :: r => !r.isEmpty && r.all isHex
  | '0' :: r => r.all isOctal
  | d :: r =>
      isDigit d && (r.all isDigitOrLine || isSixty (r.dropWhile isDigitOrLine))
  | [] => false

def isExponent : List Char → Bool
  | [] => true
  | e :: sign :: r =>
      (e == 'e' || e == 'E') && (sign == '-' || sign == '+') && !r.isEmpty && r.all isDigit
  | _ => false

def infinityWords : List String := [".inf", ".Inf", ".INF"]

def notANumberWords : List String := [".nan", ".NaN", ".NAN"]

def isNumber (s : List Char) : Bool :=
  let unsigned := dropSign s
  let whole := unsigned.takeWhile isDigitOrLine
  let after := unsigned.dropWhile isDigitOrLine
  let pointed := match after with
    | '.' :: r => isDigits whole && isExponent (r.dropWhile isDigitOrLine)
    | _ => false
  let leading := match s with
    | '.' :: d :: r => isDigit d && isExponent (r.dropWhile isDigitOrLine)
    | _ => false
  let sixty := match after.dropWhile (fun c => isDigit c || c == ':') with
    | '.' :: r =>
        isDigits whole && isSixty (after.takeWhile fun c => isDigit c || c == ':') &&
          r.all isDigitOrLine
    | _ => false
  pointed || leading || sixty || infinityWords.contains (String.ofList unsigned) ||
    notANumberWords.contains (String.ofList s)

/-- The tag that a plain scalar shows. A break at its very end does not count. -/
def Tag.ofPlain (text : List Char) : Tag :=
  let s := if text.getLast? == some '\n' then text.dropLast else text
  let word := String.ofList s
  if truthWords.contains word then .truth
  else if isNumber s then .number
  else if isInteger s then .integer
  else if s == ['<', '<'] then .merge
  else if nullWords.contains word && (text.isEmpty || !s.isEmpty) then .null
  else if s == ['='] then .default
  else .string

end RestGraph.Yaml
