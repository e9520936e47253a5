namespace RestGraph.Text

/-!
# Splitting and joining
-/

/-- The pieces between the characters that satisfy `p`: always one more than there are
such characters. -/
def splitBy (p : Char → Bool) : List Char → List (List Char)
  | [] => [[]]
  | c :: cs =>
      if p c then [] :: splitBy p cs
      else match splitBy p cs with
        | [] => [[c]]
        | piece :: pieces => (c :: piece) :: pieces

theorem splitBy_ne_nil (p : Char → Bool) (cs : List Char) : splitBy p cs ≠ [] := by
  cases cs with
  | nil => simp [splitBy]
  | cons c cs =>
      unfold splitBy
      split
      · simp
      · split <;> simp

def afterFirst? (mark : List Char) : List Char → Option (List Char)
  | [] => if mark.isEmpty then some [] else none
  | c :: cs =>
      if mark.isPrefixOf (c :: cs) then some ((c :: cs).drop mark.length)
      else afterFirst? mark cs

def contains (part cs : List Char) : Bool := (afterFirst? part cs).isSome

/-- What follows the last `mark`, or all of it. -/
def afterLast (mark : Char) (cs : List Char) : List Char :=
  (cs.reverse.takeWhile (· != mark)).reverse

def dropTrailing (mark : Char) (cs : List Char) : List Char :=
  (cs.reverse.dropWhile (· == mark)).reverse

def intersperse (separator : String) : List String → String
  | [] => ""
  | [s] => s
  | s :: t :: rest => s ++ separator ++ intersperse separator (t :: rest)

def hasSuffix (s suffix : String) : Bool :=
  suffix.toList.isSuffixOf s.toList

def hasStart (s start : String) : Bool :=
  start.toList.isPrefixOf s.toList

end RestGraph.Text
