import RestGraph.Sdl.Definition
import RestGraph.Sdl.Description

namespace RestGraph.Sdl

/-!
# Writing definitions

Definitions are separated by blank lines and their members indented by two blanks.
Arguments stand on one line unless one of them has a description.
-/

def TypeExpr.text : TypeExpr → String
  | .named name => name
  | .list t => "[" ++ t.text ++ "]"
  | .nonNull t => t.text ++ "!"

def InputDef.text (d : InputDef) : String := d.name ++ ": " ++ d.type.text

def InputDef.isDescribed (d : InputDef) : Bool := (d.description.map fun s => !s.isEmpty).getD false

/-- Items on their own lines; the flag tells whether an item is the first. -/
def eachLine {α : Type} (line : Bool → α → String) : Bool → List α → List String
  | _, [] => []
  | first, a :: as => line first a :: eachLine line false as

def argumentList (ds : List InputDef) : String :=
  if ds.isEmpty then ""
  else if ds.any InputDef.isDescribed then
    let line (first : Bool) (d : InputDef) : String :=
      describe "    " first d.description ++ "    " ++ d.text
    "(\n" ++ Text.intersperse "\n" (eachLine line true ds) ++ "\n  )"
  else "(" ++ Text.intersperse ", " (ds.map InputDef.text) ++ ")"

def fieldLine (first : Bool) (d : FieldDef) : String :=
  describe "  " first d.description ++ "  " ++ d.name ++ argumentList d.arguments ++ ": " ++
    d.type.text

def inputLine (first : Bool) (d : InputDef) : String :=
  describe "  " first d.description ++ "  " ++ d.text

/-- Members between braces; without members nothing is written. -/
def braces (items : List String) : String :=
  if items.isEmpty then ""
  else " \x7b\n" ++ Text.intersperse "\n" items ++ "\n\x7d"

def Definition.text : Definition → String
  | .object name description fields =>
      describe "" true description ++ "type " ++ name ++ braces (eachLine fieldLine true fields)
  | .input name description fields =>
      describe "" true description ++ "input " ++ name ++ braces (eachLine inputLine true fields)
  | .enumeration name members => "enum " ++ name ++ braces (members.map ("  " ++ ·))

def write (ds : List Definition) : String :=
  Text.intersperse "\n\n" (ds.map Definition.text)

end RestGraph.Sdl
