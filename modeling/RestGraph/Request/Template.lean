import RestGraph.Failure
import RestGraph.Text.Percent
import RestGraph.Text.Taken

namespace RestGraph.Request.Template

/-!
# Path templates

A placeholder is a name in braces: one character at least, none of them a closing
brace. It is replaced by the text of a value, encoded so that it stays within its
place in the path. Of values nothing counts here but the code points of their texts.
-/

inductive Piece where
  | char (c : Char)
  | placeholder (name : String)
deriving DecidableEq, Repr

/-- The name of a placeholder whose opening brace is taken off, and what follows it. -/
def placeholder? (s : List Char) : Option (List Char × List Char) :=
  match s.takeWhile (· != '\x7d'), s.dropWhile (· != '\x7d') with
  | c :: name, _ :: rest => some (c :: name, rest)
  | _, _ => none

theorem length_of_placeholder? {s name rest : List Char}
    (h : placeholder? s = some (name, rest)) : rest.length < s.length := by
  have hs := Text.length_dropWhile_le (· != '\x7d') s
  unfold placeholder? at h
  split at h
  · rename_i heq
    simp only [Option.some.injEq, Prod.mk.injEq] at h
    rw [heq, List.length_cons, h.2] at hs
    omega
  · simp at h

def pieces (s : List Char) : List Piece :=
  match s with
  | [] => []
  | '\x7b' :: r =>
      match h : placeholder? r with
      | some (name, rest) =>
          have := length_of_placeholder? h
          .placeholder (String.ofList name) :: pieces rest
      | none => .char '\x7b' :: pieces r
  | c :: r => .char c :: pieces r
termination_by s.length

section Filling

variable {α : Type} (text : α → Value.Access (List Nat))

/-- What a value fills a placeholder with. -/
def filling (v : α) : Value.Access (List Char) := do
  match Text.Percent.encode? (← text v) with
  | some cs => return cs
  | none => .error .badContent

/-- A path with its placeholders filled; `path` is the whole template. -/
def fill (path : String) (values : Table String α) : List Piece → Except Failure (List Char)
  | [] => .ok []
  | .char c :: rest => (fill path values rest).map (c :: ·)
  | .placeholder name :: rest =>
      match Table.get? values name with
      | none => .error (.missingPathValue name path)
      | some v => do
          let own ← (filling text v).mapError .malformed
          return own ++ (← fill path values rest)

/-- The address of a path under a base, which loses the slashes at its end. -/
def url (base : Option String) (path : String) (values : Table String α) :
    Except Failure String :=
  (fill text path values (pieces path.toList)).map fun cs =>
    String.ofList (Text.dropTrailing '/' (base.getD "").toList ++ cs)

end Filling

/-- The code points of a value's plain form. -/
def points (v : Value) : Value.Access (List Nat) :=
  v.written.map fun s => s.toList.map Char.toNat

end RestGraph.Request.Template
