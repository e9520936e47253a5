import RestGraph.Decimal.Shortest

namespace RestGraph.Decimal

/-!
# Decimal notation of binary numbers
-/

/-- How a number is laid out: which exponents of its first digit are written
positionally, and the least count of digits of a written exponent. -/
structure Layout where
  least : Int
  greatest : Int
  exponentWidth : Nat

inductive Parts where
  | finite (negative : Bool) (m : Nat) (q : Int)
  | infinite (negative : Bool)
  | notANumber

def parts (x : Float) : Parts :=
  let bits : Nat := x.toBits.toNat
  let negative := bits / twos 63 == 1
  let exponent : Nat := bits / twos 52 % 2048
  let fraction : Nat := bits % twos 52
  if exponent == 2047 then
    if fraction == 0 then .infinite negative else .notANumber
  else if exponent == 0 then .finite negative fraction (-1074)
  else .finite negative (twos 52 + fraction) ((exponent : Int) - 1075)

def padZeros (width : Nat) (cs : List Char) : List Char :=
  List.replicate (width - cs.length) '0' ++ cs

/-- Digits with a point, `before` of them in front of it. -/
def positional (ds : List Char) (before : Int) : List Char :=
  if before ≤ 0 then '0' :: '.' :: List.replicate (-before).toNat '0' ++ ds
  else
    let n := before.toNat
    if ds.length ≤ n then ds ++ List.replicate (n - ds.length) '0' ++ ['.', '0']
    else ds.take n ++ '.' :: ds.drop n

def scientific (width : Nat) (ds : List Char) (exponent : Int) : List Char :=
  let mantissa := match ds with
    | [] => []
    | [d] => [d]
    | d :: rest => d :: '.' :: rest
  let sign := if exponent < 0 then '-' else '+'
  mantissa ++ 'e' :: sign :: padZeros width (Nat.toDigits 10 exponent.natAbs)

def Layout.magnitude (l : Layout) (m : Nat) (q : Int) : List Char :=
  if m == 0 then ['0', '.', '0']
  else
    let d := shortest m q
    let ds := Nat.toDigits 10 d.digits
    let before := (ds.length : Int) + d.exponent
    if l.least ≤ before - 1 && before - 1 ≤ l.greatest then positional ds before
    else scientific l.exponentWidth ds (before - 1)

def Layout.write (l : Layout) (x : Float) : String :=
  match parts x with
  | .notANumber => "nan"
  | .infinite negative => if negative then "-inf" else "inf"
  | .finite negative m q =>
      String.ofList (if negative then '-' :: l.magnitude m q else l.magnitude m q)

def integral? (x : Float) : Option Int :=
  match parts x with
  | .finite negative m q =>
      let signed (n : Nat) : Int := if negative then -(n : Int) else n
      if 0 ≤ q then some (signed (m * twos q.toNat))
      else if m % twos (-q).toNat == 0 then some (signed (m / twos (-q).toNat))
      else none
  | _ => none

def infinity : Float := 1.0 / 0.0

def notANumber : Float := 0.0 / 0.0

/-- The binary number nearest to `digits * 10 ^ exponent`; far exponents are cut off before
the power is formed. -/
def nearest (negative : Bool) (digits : Nat) (exponent : Int) : Float :=
  let magnitude : Float :=
    if digits == 0 then 0.0
    else
      let reach := (countDigits digits : Int) + exponent
      if reach > 400 then infinity
      else if reach < -400 then 0.0
      else if exponent < 0 then Float.ofScientific digits true exponent.natAbs
      else Float.ofScientific digits false exponent.natAbs
  if negative then -magnitude else magnitude

end RestGraph.Decimal
