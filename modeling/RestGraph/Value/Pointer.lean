import RestGraph.Text.Integer
import RestGraph.Text.Split
import RestGraph.Value.Basic

namespace RestGraph.Value

/-!
# Pointers into values

A pointer is a path of steps separated by slashes, any number of which may stand in
front. In a step `~1` stands for a slash and `~0` for a tilde. A step is a member
name at a map and an integer at a list, where negative positions count from the end.
A path that leads nowhere ends in null.
-/

/-- Every `~` followed by `digit` replaced by `c`, from left to right. -/
def replaceEscape (digit c : Char) : List Char → List Char
  | '~' :: d :: r => if d == digit then c :: replaceEscape digit c r
      else '~' :: replaceEscape digit c (d :: r)
  | d :: r => d :: replaceEscape digit c r
  | [] => []

/-- The text of a step: slashes are restored before tildes. -/
def unescape (cs : List Char) : List Char :=
  replaceEscape '0' '~' (replaceEscape '1' '/' cs)

def escapeStep (cs : List Char) : List Char :=
  cs.flatMap fun c => if c == '~' then ['~', '0'] else if c == '/' then ['~', '1'] else [c]

/-- The item at a position; negative positions count from the end. -/
def itemAt? (items : List Value) (i : Int) : Option Value :=
  if 0 ≤ i then items[i.toNat]?
  else if -i ≤ items.length then items[(items.length + i).toNat]?
  else none

def step? (v : Value) (token : List Char) : Option Value :=
  match v with
  | .map ms => Table.get? ms (String.ofList token)
  | .list vs => (Text.readInteger? 10 token).bind (itemAt? vs)
  | _ => none

/-- The value at the end of a path; a null on the way ends it. -/
def walk (v : Value) : List (List Char) → Value
  | [] => v
  | token :: tokens =>
      match step? v (unescape token) with
      | none => .null
      | some .null => .null
      | some next => walk next tokens

def resolve (v : Value) (pointer : String) : Value :=
  if pointer.isEmpty then v
  else walk v (Text.splitBy (· == '/') (pointer.toList.dropWhile (· == '/')))

end RestGraph.Value
