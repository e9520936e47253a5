import RestGraph.CommandLine.Option
import RestGraph.Failure
import RestGraph.Files.System

namespace RestGraph.CommandLine

/-!
# Texts of the command line
-/

def programName : String := "oasgraph"

def version : String := "0.4.0"

def printCommand : String := "print-schema"

inductive Level where
  | program
  | command
deriving DecidableEq, Repr

def Level.invocation : Level → String
  | program => programName
  | command => programName ++ " " ++ printCommand

def Level.synopsis : Level → String
  | program => "Usage: " ++ programName ++ " [OPTIONS] COMMAND [ARGS]..."
  | command => "Usage: " ++ programName ++ " " ++ printCommand ++ " [OPTIONS] LOCATION"

def lines (ls : List String) : String := String.join (ls.map (· ++ "\n"))

def Level.help : Level → String
  | program => lines [
      synopsis .program,
      "",
      "  Translate OpenAPI descriptions into GraphQL schemas.",
      "",
      "Options:",
      "  --config-file PATH  The path to `oasgraph.toml` file to use for configuration",
      "  --version           Show the version and exit.",
      "  -h, --help          Show this message and exit.",
      "",
      "Commands:",
      "  print-schema  Print the GraphQL SDL generated for the API description at..."]
  | command => lines [
      synopsis .command,
      "",
      "  Print the GraphQL SDL generated for the API description at LOCATION.",
      "",
      "Options:",
      "  -o, --output FILENAME  Write the schema to a file instead of stdout",
      "  -h, --help             Show this message and exit."]

def versionText : String := lines [programName ++ ", version " ++ version]

/-! ## Wrong use -/

inductive UsageFault where
  | option (fault : OptionFault)
  | missingCommand
  | unknownCommand (name : String) (suggestion : Option String)
  | missingLocation
  | noFile (path : String)
  | directory (path : String)
  | extraArguments (args : List String)

def suggested (text : String) : Option String → String
  | none => text
  | some s => text ++ " Did you mean " ++ Text.quoted s ++ "?"

def OptionFault.message : OptionFault → String
  | unknown form suggestion => suggested ("No such option " ++ Text.quoted form ++ ".") suggestion
  | withoutValue form => "Option " ++ Text.quoted form ++ " requires an argument."
  | withValue form => "Option " ++ Text.quoted form ++ " does not take a value."

def UsageFault.message : UsageFault → String
  | option fault => fault.message
  | missingCommand => "Missing command."
  | unknownCommand name suggestion =>
      suggested ("No such command " ++ Text.quoted name ++ ".") suggestion
  | missingLocation => "Missing argument 'LOCATION'."
  | noFile path =>
      "Invalid value for 'LOCATION': File " ++ Text.quoted path ++ " does not exist."
  | directory path =>
      "Invalid value for 'LOCATION': File " ++ Text.quoted path ++ " is a directory."
  | extraArguments args =>
      "Got unexpected extra argument" ++ (if args.length == 1 then "" else "s") ++ " (" ++
        Text.intersperse " " args ++ ")"

def UsageFault.recallsUsage : UsageFault → Bool
  | option (.unknown ..) => true
  | option _ => false
  | _ => true

def errorLine (message : String) : String := "Error: " ++ message ++ "\n"

def UsageFault.report (fault : UsageFault) (level : Level) : String :=
  let usage :=
    if fault.recallsUsage then
      lines [level.synopsis, "Try '" ++ level.invocation ++ " --help' for help.", ""]
    else ""
  usage ++ errorLine fault.message

/-! ## Failures -/

def failureText (title detail : String) : String :=
  "❌  " ++ title ++ "\n\n" ++ detail ++ "\n"

def loadDetail (fault : LoadFault) : String :=
  match fault with
  | .illFormed details =>
      Text.intersperse "\n" (fault.message :: details.map ("    " ++ ·))
  | _ => fault.message

def loadFailure (path : String) (fault : LoadFault) : String :=
  failureText ("Failed to load API description from " ++ path) (loadDetail fault)

def buildFailure (message : String) : String :=
  failureText "Failed to translate the API description" message

def configMissing (path : String) : String :=
  failureText ("Failed to load configuration file from " ++ path)
    "The configuration file does not exist"

def configFailure (path : Option String) (problem message : String) : String :=
  let place := match path with
    | some p => if p.isEmpty then "" else " from " ++ p
    | none => ""
  failureText ("Failed to load configuration file" ++ place) (problem ++ "\n\n" ++ message)

def outputFailure (path : String) (fault : Files.Fault) : String :=
  errorLine ("Could not open file " ++ Text.quoted path ++ ": " ++ fault.message)

end RestGraph.CommandLine
