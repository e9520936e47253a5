import RestGraph.Value.Text

namespace RestGraph.Config

/-!
# What is wrong with a configuration
-/

inductive Fault where
  | wrongType (path : List String) (expected : List String) (found : Value)
  | tooLow (path : List String) (least : Int) (found : Value)
  | unknownKeys (keys : List (String × Option String)) (known : List String)
  | unsetVariable (name text : String)
  | badPlaceholder (text : String)
  /-- A value for which a text is needed cannot be written. -/
  | unwritable

/-- A fault that shows a value, which comes to no message if the value cannot be written. -/
def Fault.shown (found : Value) (fault : Value → Fault) : Fault :=
  if found.isWritable then fault found else .unwritable

def sectionName : List String → String
  | [] => "root"
  | path => "[" ++ Text.intersperse "." path ++ "]"

def report (path : List String) (title : String) (lines : List String) : String :=
  "Error in " ++ sectionName path ++ " section:\n  " ++ title ++ ":\n\n" ++
    Text.intersperse "\n" (lines.map ("  - " ++ ·))

def article (type : String) : String :=
  if type == "array" || type == "integer" || type == "object" then "an" else "a"

def describeTypes : List String → String
  | [type] => article type ++ " " ++ type
  | types => "one of: " ++ Text.intersperse " or " types

/-- The wording of a fault; a value that cannot be written leaves none. -/
def Fault.message : Fault → String
  | wrongType path expected found =>
      let key := path.getLast?.getD "value"
      report path.dropLast "Type error"
        ["'" ++ key ++ "' -> Must be " ++ describeTypes expected ++ ", but got " ++
          found.kindWord ++ ": " ++ found.plain]
  | tooLow path least found =>
      let key := path.getLast?.getD "value"
      report path.dropLast "Value too low"
        ["'" ++ key ++ "' -> Must be at least " ++ toString least ++ ", but got " ++
          found.plain ++ "."]
  | unknownKeys keys known =>
      let line (key : String × Option String) : String :=
        match key.2 with
        | some suggestion => "'" ++ key.1 ++ "' -> Did you mean '" ++ suggestion ++ "'?"
        | none => "'" ++ key.1 ++ "'"
      report [] "Unknown properties" (keys.map line) ++
        "\n\nValid properties for root are: " ++
        Text.intersperse ", " (known.map fun key => "'" ++ key ++ "'") ++ "."
  | unsetVariable name text =>
      "Missing environment variable `" ++ name ++ "` in `" ++ text ++ "`"
  | badPlaceholder text => "Invalid placeholder in `" ++ text ++ "`"
  | unwritable => ""

end RestGraph.Config
