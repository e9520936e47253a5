import RestGraph.Text.Hex
import RestGraph.Text.Split

namespace RestGraph.Sdl

/-!
# Descriptions

A description is written as a block between triple quotes when reading the block gives
the same text back, and as a quoted string on one line otherwise.
-/

def isBlank (c : Char) : Bool := c == ' ' || c == '\t'

def isBlankLine (line : List Char) : Bool := line.all isBlank

def startsBlank (line : List Char) : Bool := (line.head?.map isBlank).getD false

def lines (cs : List Char) : List (List Char) := Text.splitBy (· == '\n') cs

def isBlockChar (c : Char) : Bool := c == '\n' || c == '\t' || 0x0f < c.toNat

def isIndented (ls : List (List Char)) : Bool :=
  ls.all fun line => isBlankLine line || startsBlank line

/-- Whether a block holds the text as it is: reading a block drops blank lines at both ends
and the indentation that all lines share. -/
def fitsBlock (cs : List Char) : Bool :=
  match lines cs with
  | [[]] => true
  | [line] => line.all isBlockChar && !isBlankLine line
  | ls =>
      cs.all isBlockChar && !isBlankLine (ls.headD []) && !isBlankLine (ls.getLastD []) &&
        !isIndented ls

/-! ## Blocks -/

def tripleQuote : List Char := ['\x22', '\x22', '\x22']

/-- Triple quotes inside a block get a backslash in front. -/
def escapeTriple : List Char → List Char
  | '\x22' :: '\x22' :: '\x22' :: r => '\\' :: tripleQuote ++ escapeTriple r
  | c :: r => c :: escapeTriple r
  | [] => []

/-- Blocks of more characters get lines of their own for their quotes. -/
def longestLine : Nat := 70

def block (cs : List Char) : List Char :=
  let escaped := escapeTriple cs
  let ls := lines escaped
  let single := ls.length == 1
  let indentedRest := !single && ls.tail.all fun line => line.isEmpty || startsBlank line
  let endsTriple := ('\\' :: tripleQuote).isSuffixOf escaped
  let endsOpen := (cs.getLast? == some '\x22' && !endsTriple) || cs.getLast? == some '\\'
  let spread := !single || longestLine < cs.length || endsOpen || indentedRest || endsTriple
  let before := (spread && !(single && startsBlank cs)) || indentedRest
  tripleQuote ++ (if before then ['\n'] else []) ++ escaped ++ (if spread then ['\n'] else []) ++
    tripleQuote

/-! ## Quoted strings -/

def isControl (c : Char) : Bool :=
  c.toNat < 0x20 || (0x7f ≤ c.toNat && c.toNat < 0xa0)

def escapeChar (c : Char) : List Char :=
  if c == '\x22' then ['\\', '\x22']
  else if c == '\\' then ['\\', '\\']
  else if c == '\x08' then ['\\', 'b']
  else if c == '\x0c' then ['\\', 'f']
  else if c == '\n' then ['\\', 'n']
  else if c == '\r' then ['\\', 'r']
  else if c == '\t' then ['\\', 't']
  else if isControl c then '\\' :: 'u' :: Text.hexDigits true 4 c.toNat
  else [c]

def quotedString (cs : List Char) : List Char :=
  '\x22' :: cs.flatMap escapeChar ++ ['\x22']

def descriptionText (cs : List Char) : List Char :=
  if fitsBlock cs then block cs else quotedString cs

def indentLines (indent : List Char) (cs : List Char) : List Char :=
  cs.flatMap fun c => if c == '\n' then '\n' :: indent else [c]

/-- The lines of a description before what it describes; inside a block a blank line sets it
off from the member before. -/
def describe (indent : String) (first : Bool) : Option String → String
  | none => ""
  | some s =>
      let gap := if !indent.isEmpty && !first then "\n" else ""
      gap ++ indent ++ String.ofList (indentLines indent.toList (descriptionText s.toList)) ++ "\n"

end RestGraph.Sdl
