import RestGraph.CommandLine.Text
import RestGraph.Config.Discovery
import RestGraph.Graph.Api
import RestGraph.Sdl.Printer

namespace RestGraph.CommandLine

/-!
# Running the command line

The program finds its configuration before the arguments of its command are looked at.
The command reads a description, builds its graph and writes the definitions, to the
standard output or to a file that is not touched unless all else succeeds.
-/

/-- A failure that is not meant to be reported to a user. -/
inductive Escape where
  | failure (f : Failure)
  | file (f : Files.Fault)

structure Outcome where
  output : String
  errors : String
  code : Nat
  escape : Option Escape

namespace Outcome

def success (output : String) : Outcome := ⟨output, "", 0, none⟩

def failed (errors : String) : Outcome := ⟨"", errors, 1, none⟩

def escaped (e : Escape) : Outcome := ⟨"", "", 1, some e⟩

def misused (level : Level) (fault : UsageFault) : Outcome :=
  ⟨"", fault.report level, 2, none⟩

def after (warnings : String) (o : Outcome) : Outcome := { o with errors := warnings ++ o.errors }

end Outcome

def helpName : String := "help"

def versionName : String := "version"

def configName : String := "config"

def outputName : String := "output"

def helpOption : Declared := ⟨helpName, ["-h", "--help"], false⟩

def programOptions : List Declared :=
  [⟨configName, ["--config-file"], true⟩, ⟨versionName, ["--version"], false⟩, helpOption]

def commandOptions : List Declared := [⟨outputName, ["--output", "-o"], true⟩, helpOption]

variable {m : Type → Type} [Monad m]

/-! ## The command -/

def warnings (log : List Record) : String :=
  lines ((log.filter fun r => r.level == .warning).map Record.text)

/-- The report on a failure to build; a failure inside a type is reported by its cause. -/
def buildOutcome (f : Failure) : Outcome :=
  if f.isOwn then .failed (buildFailure f.message)
  else match f with
    | .unresolvedFields _ cause =>
        if cause.isOwn then .failed (buildFailure cause.message) else .escaped (.failure f)
    | f => .escaped (.failure f)

def deliver (files : Files.System m) (target : Option String) (text : String) : m Outcome := do
  match target with
  | none => return .success text
  | some path =>
      if path == "-" then return .success text
      else match ← files.write path text with
        | .ok _ => return .success ""
        | .error f => return .failed (outputFailure path f)

/-- The definitions for a description, with the log, or what is reported instead. -/
def definitionsText (config : Config) (document : Value) : Except Outcome String × List Record :=
  let (result, s) := Graph.ofDocument config false document Graph.buildApi
  match result with
  | .ok (_, api) => (.ok (Sdl.write (api.definitions s) ++ "\n"), s.log)
  | .error f => (.error (buildOutcome f), s.log)

def printDefinitions (files : Files.System m) (config : Config) (location : String)
    (target : Option String) : m Outcome := do
  match ← files.read location with
  | .error f => return .escaped (.file f)
  | .ok content =>
      match Document.ofFile location content with
      | .error (.load fault) => return .failed (loadFailure location fault)
      | .error f => return .escaped (.failure f)
      | .ok document =>
          let (result, log) := definitionsText config document
          match result with
          | .error o => return o.after (warnings log)
          | .ok text => return (← deliver files target text).after (warnings log)

def locationFault? (files : Files.System m) (args : List String) : m (Option UsageFault) := do
  match args with
  | [] => return some .missingLocation
  | location :: more =>
      match ← files.kind? location with
      | none => return some (.noFile location)
      | some .directory => return some (.directory location)
      | some .file => return if more.isEmpty then none else some (.extraArguments more)

def runCommand (files : Files.System m) (config : Config) (args : List String) : m Outcome := do
  match parse commandOptions true args with
  | .error f => return .misused .command (.option f)
  | .ok p =>
      if (p.firstOf? [helpName]).isSome then return .success (Level.help .command)
      match ← locationFault? files p.arguments with
      | some f => return .misused .command f
      | none => printDefinitions files config (p.arguments.headD "") (p.value? outputName)

/-! ## The program -/

def configOutcome (path : Option String) : Config.FileFailure → Outcome
  | .unreadable .missing => .failed (configMissing (path.getD "None"))
  | .unreadable f => .escaped (.file f)
  | .content (.toml f) =>
      .failed (configFailure path "The configuration file content is not valid TOML" f.message)
  | .content (.config f) =>
      .failed (configFailure path "The loaded configuration is incorrect" f.message)
  | .content f => .escaped (.failure f)

def configuration (files : Files.System m) (env : Config.Environment) (path : Option String) :
    m (Except Config.FileFailure Config) := do
  match path with
  | some p => Config.ofFile files env p
  | none => return (← Config.discover files env).map Prod.fst

def commandNames : List String := [printCommand]

/-- The text that an option asks for instead of a run. -/
def textAsked? (p : Parsed) : Option String :=
  (p.firstOf? [helpName, versionName]).map fun name =>
    if name == helpName then Level.help .program else versionText

/-- The outcome when no command has a name. What looks like options is read as such first. -/
def unknownCommand (name : String) (args : List String) : Outcome :=
  match parse programOptions false (name :: args) with
  | .error f => .misused .program (.option f)
  | .ok p =>
      match textAsked? p with
      | some text => .success text
      | none => .misused .program (.unknownCommand name (Similarity.closest? name commandNames))

def run (files : Files.System m) (env : Config.Environment) (args : List String) : m Outcome := do
  if args.isEmpty then return ⟨"", Level.help .program, 2, none⟩
  match parse programOptions false args with
  | .error f => return .misused .program (.option f)
  | .ok p =>
      match textAsked? p, p.arguments with
      | some text, _ => return .success text
      | none, [] => return .misused .program .missingCommand
      | none, command :: rest =>
          if !commandNames.contains command then return unknownCommand command rest
          match ← configuration files env (p.value? configName) with
          | .error f => return configOutcome (p.value? configName) f
          | .ok config => runCommand files config rest

end RestGraph.CommandLine
