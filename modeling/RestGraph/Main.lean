import RestGraph.CommandLine.Run

namespace RestGraph

/-!
# The program
-/

def machineFault (isDirectory : Bool) : IO.Error → Files.Fault
  | .noFileOrDirectory .. => .missing
  | _ => if isDirectory then .isDirectory else .notADirectory

def machine : IO (Files.System IO) := do
  let here ← IO.currentDir
  let names := (Text.splitBy (· == '/') here.toString.toList).map String.ofList
  let kind? (path : String) : IO (Option Files.Kind) := do
    if path.isEmpty then return none
    else if ← (here / path).isDir then return some .directory
    else return if ← (here / path).pathExists then some .file else none
  let guarded {α : Type} (path : String) (action : IO α) : IO (Except Files.Fault α) := do
    try return .ok (← action)
    catch e => return .error (machineFault (← (here / path).isDir) e)
  return ⟨names.filter fun name => !name.isEmpty, kind?,
    fun path => guarded path (IO.FS.readFile path),
    fun path text => guarded path (IO.FS.writeFile path text)⟩

/-- The variables of the process, each a name and a value with an equals sign between. -/
def environment : IO Config.Environment := do
  let listing ← try IO.FS.readFile "/proc/self/environ" catch _ => pure ""
  let entries := Text.splitBy (· == Char.ofNat 0) listing.toList
  return entries.map fun e =>
    (String.ofList (e.takeWhile (· != '=')), String.ofList ((e.dropWhile (· != '=')).drop 1))

end RestGraph

open RestGraph in
def main (args : List String) : IO UInt32 := do
  let o ← CommandLine.run (← machine) (← environment) args
  IO.print o.output
  IO.eprint o.errors
  match o.escape with
  | some (.failure f) => IO.eprintln f.message
  | some (.file f) => IO.eprintln f.message
  | none => pure ()
  return o.code.toUInt32
