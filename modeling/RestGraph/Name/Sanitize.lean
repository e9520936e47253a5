import RestGraph.Name.Grammar
import RestGraph.Text.Split

namespace RestGraph.Name

/-!
# Names from arbitrary text

Characters that no name holds separate words. The words are joined, each but the
first with its first letter in upper case, and an underscore goes before a digit
at the very front. Text without a single word has no name.
-/

def upper (c : Char) : Char :=
  if 'a' ≤ c && c ≤ 'z' then Char.ofNat (c.toNat - 0x20) else c

def capitalize : List Char → List Char
  | [] => []
  | c :: cs => upper c :: cs

def joinWords (cs : List Char) : List Char :=
  match Text.splitBy (fun c => !isWord c) cs with
  | [] => []
  | word :: words => word ++ words.flatMap capitalize

def sanitizeChars? (cs : List Char) : Option (List Char) :=
  match joinWords cs with
  | [] => none
  | c :: rest => some (if isDigit c then '_' :: c :: rest else c :: rest)

/-- The name made of a text, unless nothing of the text is left. -/
def sanitize? (s : String) : Option String :=
  (sanitizeChars? s.toList).map String.ofList

end RestGraph.Name
