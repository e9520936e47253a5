import RestGraph.Config.Reader
import RestGraph.Document
import RestGraph.Files.System
import RestGraph.Toml.Reader

namespace RestGraph.Config

/-!
# Finding the configuration

The configuration is the file of its name that lies nearest: in the current directory
or in one above. A directory that holds a repository is the last that is looked at.
-/

def fileName : String := "oasgraph.toml"

def repositoryName : String := ".git"

def ofText (env : Environment) (text : String) : Except Failure Config :=
  match Toml.parse text with
  | .error f => .error (.toml f)
  | .ok v => (ofValue env v).mapError .ofConfig

def ofContent (env : Environment) (content : String) : Except Failure Config :=
  ofText env (String.ofList (Document.unifyLineBreaks content.toList))

variable {m : Type → Type} [Monad m]

/-- The nearest configuration file of some directories, by the names on the way to it. -/
def find? (files : Files.System m) : List (List String) → m (Option (List String))
  | [] => pure none
  | directory :: above => do
      let place := directory ++ [fileName]
      if (← files.kind? (Files.rooted place)) == some .file then return some place
      if (← files.kind? (Files.rooted (directory ++ [repositoryName]))) == some .directory then
        return none
      find? files above

inductive FileFailure where
  | unreadable (fault : Files.Fault)
  | content (failure : Failure)

def ofFile (files : Files.System m) (env : Environment) (path : String) :
    m (Except FileFailure Config) := do
  match ← files.read path with
  | .error f => return .error (.unreadable f)
  | .ok content => return (ofContent env content).mapError .content

def discover (files : Files.System m) (env : Environment) :
    m (Except FileFailure (Config × Option (List String))) := do
  match ← find? files (Files.ancestors files.current) with
  | none => return .ok (default, none)
  | some place => do
      let config ← ofFile files env (Files.rooted place)
      return config.map fun c => (c, some place)

end RestGraph.Config
