import RestGraph.Similarity
import RestGraph.Text.Split

namespace RestGraph.CommandLine

/-!
# Options

An option has long forms, which begin with two dashes, and short ones of one dash and
one character. A value follows its option: after an equals sign if the form is long, at
once if it is short, or else as the next argument. Short forms without values may share
one dash. Two dashes alone end the options.
-/

structure Declared where
  name : String
  forms : List String
  takesValue : Bool

inductive OptionFault where
  | unknown (form : String) (suggestion : Option String)
  | withoutValue (form : String)
  | withValue (form : String)

structure Given where
  name : String
  value : String

structure Parsed where
  options : List Given
  arguments : List String

def find? (declared : List Declared) (form : String) : Option Declared :=
  declared.find? fun d => d.forms.contains form

def isLong (form : String) : Bool := Text.hasStart form "--"

def longForms (declared : List Declared) : List String :=
  (declared.flatMap Declared.forms).filter isLong

/-- What an argument says: options, the last of which may still need its value. -/
structure Reading where
  options : List Given
  /-- The name and the form of an option whose value is the next argument. -/
  pending : Option (String × String)

def splitValue (arg : List Char) : String × Option String :=
  match arg.dropWhile (· != '=') with
  | [] => (String.ofList arg, none)
  | _ :: value => (String.ofList (arg.takeWhile (· != '=')), some (String.ofList value))

def readShort (declared : List Declared) : List Char → Except OptionFault Reading
  | [] => .ok ⟨[], none⟩
  | c :: cs =>
      let form := String.ofList ['-', c]
      match find? declared form with
      | none => .error (.unknown form none)
      | some d =>
          if d.takesValue then
            if cs.isEmpty then .ok ⟨[], some (d.name, form)⟩
            else .ok ⟨[⟨d.name, String.ofList cs⟩], none⟩
          else (readShort declared cs).map fun r => { r with options := ⟨d.name, ""⟩ :: r.options }

def readLong (declared : List Declared) (arg : String) : Except OptionFault Reading :=
  let (form, value) := splitValue arg.toList
  match find? declared form, value with
  | none, _ => .error (.unknown form (Similarity.closest? form (longForms declared)))
  | some d, none =>
      if d.takesValue then .ok ⟨[], some (d.name, form)⟩ else .ok ⟨[⟨d.name, ""⟩], none⟩
  | some d, some value =>
      if d.takesValue then .ok ⟨[⟨d.name, value⟩], none⟩ else .error (.withValue form)

def readOption (declared : List Declared) (arg : String) : Except OptionFault Reading :=
  if isLong arg then readLong declared arg else readShort declared (arg.toList.drop 1)

def isOption (arg : String) : Bool := Text.hasStart arg "-" && 1 < arg.length

/-- Options and arguments after those already read. When `mixed` is false the first argument
ends the options. -/
def parseFrom (declared : List Declared) (mixed : Bool) :
    Parsed → Option (String × String) → List String → Except OptionFault Parsed
  | p, none, [] => .ok p
  | _, some (_, form), [] => .error (.withoutValue form)
  | p, some (name, _), arg :: args =>
      parseFrom declared mixed { p with options := p.options ++ [⟨name, arg⟩] } none args
  | p, none, arg :: args =>
      if arg == "--" then .ok { p with arguments := p.arguments ++ args }
      else if isOption arg then
        match readOption declared arg with
        | .error f => .error f
        | .ok r =>
            parseFrom declared mixed { p with options := p.options ++ r.options } r.pending args
      else if mixed then
        parseFrom declared mixed { p with arguments := p.arguments ++ [arg] } none args
      else .ok { p with arguments := p.arguments ++ arg :: args }

def parse (declared : List Declared) (mixed : Bool) (args : List String) :
    Except OptionFault Parsed :=
  parseFrom declared mixed ⟨[], []⟩ none args

namespace Parsed

/-- The value of an option; the last one counts. -/
def value? (p : Parsed) (name : String) : Option String :=
  ((p.options.filter fun g => g.name == name).getLast?).map Given.value

def firstOf? (p : Parsed) (names : List String) : Option String :=
  (p.options.map Given.name).find? names.contains

end Parsed

end RestGraph.CommandLine
