import RestGraph.Decimal.Notation
import RestGraph.Text.Integer

namespace RestGraph.Decimal

/-!
# Reading binary numbers

A number may have blanks around it, a sign, digits of any script, a point and an
exponent, and it may be one of the words for infinity and for no number.
-/

def asciiDigit (c : Char) : Char :=
  match Text.digitValue? c with
  | some d => Char.ofNat (0x30 + d)
  | none => c

def isDigit (c : Char) : Bool := '0' ≤ c && c ≤ '9'

def natural (ds : List Char) : Nat := ds.foldl (fun n d => 10 * n + (d.toNat - 0x30)) 0

/-- The exponent that a text is, from its mark on; an empty text is the exponent zero. -/
def exponent? : List Char → Option Int
  | [] => some 0
  | e :: r =>
      if e == 'e' || e == 'E' then
        let (negative, ds) := match r with
          | '-' :: ds => (true, ds)
          | '+' :: ds => (false, ds)
          | ds => (false, ds)
        if ds.isEmpty || !ds.all isDigit then none
        else some (if negative then -(natural ds : Int) else natural ds)
      else none

def magnitude? (negative : Bool) (cs : List Char) : Option Float :=
  let word := String.ofList (cs.map Char.toLower)
  if word == "inf" || word == "infinity" then some (if negative then -infinity else infinity)
  else if word == "nan" then some notANumber
  else
    let whole := cs.takeWhile isDigit
    let (fraction, rest) := match cs.dropWhile isDigit with
      | '.' :: r => (r.takeWhile isDigit, r.dropWhile isDigit)
      | r => ([], r)
    if whole.isEmpty && fraction.isEmpty then none
    else (exponent? rest).map fun e =>
      nearest negative (natural (whole ++ fraction)) (e - fraction.length)

def read? (cs : List Char) : Option Float :=
  match (Text.trimBlanks cs).map asciiDigit with
  | '-' :: r => magnitude? true r
  | '+' :: r => magnitude? false r
  | r => magnitude? false r

end RestGraph.Decimal
