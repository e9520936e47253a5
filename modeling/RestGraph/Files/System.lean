import RestGraph.Text.Split

namespace RestGraph.Files

/-!
# File systems

What the program asks of a file system. Paths are relative to the current directory
unless they begin with a slash. The current directory is known by the names on the
way to it.
-/

inductive Kind where
  | file
  | directory
deriving DecidableEq, Repr

inductive Fault where
  | missing
  | isDirectory
  | notADirectory
deriving DecidableEq, Repr

def Fault.message : Fault → String
  | missing => "No such file or directory"
  | isDirectory => "Is a directory"
  | notADirectory => "Not a directory"

structure System (m : Type → Type) where
  current : List String
  kind? : String → m (Option Kind)
  read : String → m (Except Fault String)
  write : String → String → m (Except Fault Unit)

def rooted (names : List String) : String := "/" ++ Text.intersperse "/" names

def ancestors : List String → List (List String)
  | [] => [[]]
  | name :: names => (ancestors names).map (name :: ·) ++ [[]]

end RestGraph.Files
