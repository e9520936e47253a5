import RestGraph.Files.System
import RestGraph.Table

namespace RestGraph.Files

/-!
# Directory trees

A file system in memory. A directory is one that is listed or that something lies in.
-/

/-- A path as the names on the way from the root. -/
abbrev Place := List String

/-- The names in a path, without any care for the names that are special. -/
def ofPath (path : String) : Place :=
  ((Text.splitBy (· == '/') path.toList).map String.ofList).filter fun name => !name.isEmpty

structure Tree where
  files : Table Place String
  directories : List Place

namespace Tree

def isFile (t : Tree) (p : Place) : Bool := Table.contains t.files p

def isDirectory (t : Tree) (p : Place) : Bool :=
  p.isEmpty || t.directories.any (p.isPrefixOf ·) ||
    t.files.any fun f => p != f.1 && p.isPrefixOf f.1

def step (t : Tree) (p : Place) (name : String) : Except Fault Place :=
  if t.isDirectory p then
    if name == "" || name == "." then .ok p
    else if name == ".." then .ok p.dropLast
    else .ok (p ++ [name])
  else if t.isFile p then .error .notADirectory
  else .error .missing

def walk (t : Tree) : Place → List String → Except Fault Place
  | p, [] => .ok p
  | p, name :: names => do walk t (← t.step p name) names

def locate (t : Tree) (current : Place) (path : String) : Except Fault Place :=
  let names := (Text.splitBy (· == '/') path.toList).map String.ofList
  if path.isEmpty then .error .missing
  else if Text.hasStart path "/" then t.walk [] names
  else t.walk current names

def kindAt? (t : Tree) (p : Place) : Option Kind :=
  if t.isDirectory p then some .directory else if t.isFile p then some .file else none

def read (t : Tree) (p : Place) : Except Fault String :=
  if t.isDirectory p then .error .isDirectory
  else match Table.get? t.files p with
    | some content => .ok content
    | none => .error .missing

def write (t : Tree) (p : Place) (content : String) : Except Fault Tree :=
  if t.isDirectory p then .error .isDirectory
  else .ok { t with files := Table.insert t.files p content }

def system (current : Place) : System (StateM Tree) where
  current := current
  kind? path := do
    let t ← get
    return (t.locate current path).toOption.bind t.kindAt?
  read path := do
    let t ← get
    return (t.locate current path).bind t.read
  write path content := do
    let t ← get
    match (t.locate current path).bind fun p => t.write p content with
    | .error f => return .error f
    | .ok next =>
        set next
        return .ok ()

/-- The tree of some entries: a path that ends in a slash is a directory. -/
def ofEntries (entries : List (String × String)) : Tree :=
  entries.foldl (fun t e =>
    if Text.hasSuffix e.1 "/" then { t with directories := t.directories ++ [ofPath e.1] }
    else { t with files := Table.insert t.files (ofPath e.1) e.2 }) ⟨[], []⟩

end Tree

end RestGraph.Files
