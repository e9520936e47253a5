import RestGraph.Failure
import RestGraph.Json.Reader
import RestGraph.Yaml.Reader

namespace RestGraph.Document

/-!
# Reading descriptions

A text is read as JSON or YAML by the suffix of its path, and without a known suffix
as JSON first and then as YAML. A description names version 3.0 or 3.1 of OpenAPI,
or it is one of Swagger 2. Readers and writers call themselves for what lies within a
value, and the stack on which they do has room for so many calls.
-/

inductive Format where
  | json
  | yaml
  | unknown
deriving DecidableEq, Repr

/-- The suffix of the last part of a path: from its last point on, unless that is its first or
its last character. -/
def suffix (path : String) : String :=
  let parts := (Text.splitBy (· == '/') path.toList).filter fun p => !p.isEmpty && p != ['.']
  let name := parts.getLast?.getD []
  let tail := Text.afterLast '.' name
  if tail.isEmpty || name.length ≤ tail.length + 1 then ""
  else String.ofList ('.' :: tail.map Char.toLower)

def Format.ofPath (path : String) : Format :=
  let s := suffix path
  if s == ".json" then .json else if s == ".yaml" || s == ".yml" then .yaml else .unknown

/-- What may follow the digits of a version: nothing, or a suffix on the same line. -/
def isVersionTail (s : List Char) : Bool :=
  match s with
  | '-' :: c :: r => c != '\n' && Text.atEnd (r.dropWhile (· != '\n'))
  | s => Text.atEnd s

def isSupported (version : String) : Bool :=
  match version.toList with
  | '3' :: '.' :: minor :: '.' :: patch :: r =>
      (minor == '0' || minor == '1') && ('0' ≤ patch && patch ≤ '9') && isVersionTail r
  | _ => false

/-! ## Room and faults -/

/-- What the stack has room for. -/
structure Stack where
  /-- Arrays and objects of JSON within one another. -/
  json : Nat
  /-- Steps of building values of YAML. -/
  yaml : Yaml.Room
  /-- The calls that write a value. -/
  text : Value → Bool

/-- A stack with room for all that is in a text. -/
def Stack.ample (text : String) : Stack := ⟨text.length, fun _ => true, fun _ => true⟩

inductive Fault where
  /-- The text is no description. -/
  | refused (fault : LoadFault)
  | broken (breakage : Breakage)
  /-- A number is out of the range of binary numbers. -/
  | overflow
  /-- Something is nested so deep that there is no room. -/
  | tooNested

/-- The failure that is reported. What is out of range or nested too deep counts as bad content
there. -/
def Fault.failure : Fault → Failure
  | refused fault => .load fault
  | broken b => .malformed b
  | overflow => .malformed .badContent
  | tooNested => .malformed .badContent

/-! ## Reading -/

def writtenVersion (stack : Stack) (version : Value) : Except Fault String :=
  if stack.text version then version.written.mapError .broken else .error .tooNested

def inspect (stack : Stack) (v : Value) : Except Fault Value :=
  match v with
  | .map ms =>
      match Value.memberOr ms "openapi" .null with
      | .null =>
          if Table.contains ms "swagger" then .ok v else .error (.refused .unspecifiedVersion)
      | version => do
          if isSupported (← writtenVersion stack version) then return v
          else throw (.refused (.unsupportedVersion version))
  | _ => .error (.refused .notADescription)

def readJson (stack : Stack) (text : String) : Except Fault Value :=
  match Json.parseWithin stack.json text with
  | .ok v => .ok v
  | .error f =>
      match f.reason with
      | .longInteger => .error (.broken .badContent)
      | .tooNested => .error .tooNested
      | _ => .error (.refused (.illFormed [f.message text.toList]))

def ofYaml : Yaml.Fault → Fault
  | .illFormed => .refused (.illFormed [])
  | .wrongKind => .broken .wrongKind
  | .unknownWord => .broken .missingEntry
  | .notANumber => .broken .badContent
  | .emptyNumber => .broken .pastEnd
  | .noTimestamp => .broken .missingOperation
  | .noDate => .broken .badContent
  | .overflow => .overflow
  | .tooNested => .tooNested

def readYaml (stack : Stack) (text : String) : Except Fault Value :=
  (Yaml.parseWithin stack.yaml text).mapError ofYaml

def read (stack : Stack) (format : Format) (text : String) : Except Fault Value :=
  match format with
  | .json => readJson stack text
  | .yaml => readYaml stack text
  | .unknown =>
      match readJson stack text with
      | .error (.refused _) => readYaml stack text
      | result => result

def load (stack : Stack) (format : Format) (text : String) : Except Fault Value := do
  inspect stack (← read stack format text)

def check (v : Value) : Except Failure Value := (inspect (.ample "") v).mapError Fault.failure

def ofText (format : Format) (text : String) : Except Failure Value :=
  (load (.ample text) format text).mapError Fault.failure

/-- Line breaks of a file are newlines. -/
def unifyLineBreaks : List Char → List Char
  | '\r' :: '\n' :: r => '\n' :: unifyLineBreaks r
  | '\r' :: r => '\n' :: unifyLineBreaks r
  | c :: r => c :: unifyLineBreaks r
  | [] => []

def ofFile (path content : String) : Except Failure Value :=
  ofText (Format.ofPath path) (String.ofList (unifyLineBreaks content.toList))

end RestGraph.Document
