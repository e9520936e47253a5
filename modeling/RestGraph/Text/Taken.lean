namespace RestGraph.Text

/-!
# Reading from the front of a text

A reader takes a value off the front of a text and leaves a strictly shorter rest,
so that reading on from the rest ends. A failure is located by the length of the
text that was left.
-/

/-- A value from the front of `s` and what is left. -/
structure Taken (α : Type) (s : List Char) where
  value : α
  rest : List Char
  shorter : rest.length < s.length

abbrev Read (ε α : Type) (s : List Char) := Except (ε × Nat) (Taken α s)

def fail {ε α : Type} {s : List Char} (reason : ε) (left : List Char) : Read ε α s :=
  .error (reason, left.length)

namespace Taken

variable {α β : Type} {r s : List Char}

def map (f : α → β) (t : Taken α s) : Taken β s :=
  ⟨f t.value, t.rest, t.shorter⟩

def widen (t : Taken α r) (h : r.length ≤ s.length) : Taken α s :=
  ⟨t.value, t.rest, Nat.lt_of_lt_of_le t.shorter h⟩

end Taken

theorem length_dropWhile_le {α : Type} (p : α → Bool) (l : List α) :
    (l.dropWhile p).length ≤ l.length :=
  (List.dropWhile_suffix p).length_le

def isDigit (c : Char) : Bool := '0' ≤ c && c ≤ '9'

def char? (c : Char) : List Char → Option (List Char)
  | d :: r => if d == c then some r else none
  | [] => none

/-- Whether the text ends here, but for one newline. -/
def atEnd : List Char → Bool
  | [] => true
  | ['\n'] => true
  | _ => false

def naturalOf (ds : List Char) : Nat :=
  ds.foldl (fun n d => 10 * n + (d.toNat - 0x30)) 0

end RestGraph.Text
