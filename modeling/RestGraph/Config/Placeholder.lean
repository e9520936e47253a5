import RestGraph.Config.Fault
import RestGraph.Text.Taken

namespace RestGraph.Config

/-!
# Placeholders

`$name` and `$` with a name in braces stand for variables of the environment, and
`$$` for a dollar sign. Names are ASCII and as long as possible. Text is expanded
once, from left to right: what a variable holds is not looked at again, and the
first placeholder that fails decides.
-/

abbrev Environment := Table String String

inductive PlaceholderFault where
  | unset (name : String)
  | invalid
deriving DecidableEq, Repr

def isNameStart (c : Char) : Bool :=
  ('a' ≤ c && c ≤ 'z') || ('A' ≤ c && c ≤ 'Z') || c == '_'

def isNamePart (c : Char) : Bool := isNameStart c || Text.isDigit c

def takeName : List Char → Option (List Char × List Char)
  | c :: cs =>
      if isNameStart c then some (c :: cs.takeWhile isNamePart, cs.dropWhile isNamePart) else none
  | [] => none

theorem length_of_takeName {s name r : List Char} (h : takeName s = some (name, r)) :
    r.length < s.length := by
  unfold takeName at h
  split at h
  · split at h
    · simp only [Option.some.injEq, Prod.mk.injEq] at h
      rw [← h.2]
      exact Nat.lt_succ_of_le (Text.length_dropWhile_le _ _)
    · simp at h
  · simp at h

/-- The name of a placeholder whose dollar sign is taken off, and what follows it. -/
def placeholder? : List Char → Option (List Char × List Char)
  | '\x7b' :: r =>
      match takeName r with
      | some (name, '\x7d' :: rest) => some (name, rest)
      | _ => none
  | r => takeName r

theorem length_of_placeholder? {s name r : List Char} (h : placeholder? s = some (name, r)) :
    r.length < s.length := by
  unfold placeholder? at h
  split at h
  · split at h
    · rename_i hn
      simp only [Option.some.injEq, Prod.mk.injEq] at h
      have := length_of_takeName hn
      rw [← h.2]
      simp only [List.length_cons] at this ⊢
      omega
    · simp at h
  · exact length_of_takeName h

def expandChars (env : Environment) (s : List Char) : Except PlaceholderFault (List Char) :=
  match s with
  | [] => .ok []
  | '$' :: '$' :: r => (expandChars env r).map ('$' :: ·)
  | '$' :: r =>
      match h : placeholder? r with
      | none => .error .invalid
      | some (name, rest) =>
          have := length_of_placeholder? h
          match Table.get? env (String.ofList name) with
          | none => .error (.unset (String.ofList name))
          | some v => (expandChars env rest).map (v.toList ++ ·)
  | c :: r => (expandChars env r).map (c :: ·)
termination_by s.length

def expand (env : Environment) (text : String) : Except Fault String :=
  match expandChars env text.toList with
  | .ok cs => .ok (String.ofList cs)
  | .error (.unset name) => .error (.unsetVariable name text)
  | .error .invalid => .error (.badPlaceholder text)

def expandValue (env : Environment) : Value → Except Fault String
  | .text s => expand env s
  | v => if v.isWritable then .ok v.plain else .error .unwritable

def expandTable (env : Environment) : List (String × Value) → Except Fault (Table String String)
  | [] => .ok []
  | (name, v) :: rest => do
      let text ← expandValue env v
      return (name, text) :: (← expandTable env rest)

end RestGraph.Config
