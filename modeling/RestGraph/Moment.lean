import RestGraph.Text.Split

namespace RestGraph

/-!
# Dates and times
-/

structure Date where
  year : Nat
  month : Nat
  day : Nat
deriving DecidableEq, Repr

structure Clock where
  hour : Nat
  minute : Nat
  second : Nat
  microsecond : Nat
deriving DecidableEq, Repr

inductive Moment where
  | date (d : Date)
  | time (t : Clock)
  /-- A date with a time and, if it has one, its distance from universal time in minutes. -/
  | dateTime (d : Date) (t : Clock) (offset : Option Int)
deriving DecidableEq, Repr

def isLeap (year : Nat) : Bool :=
  year % 4 == 0 && (year % 100 != 0 || year % 400 == 0)

def daysIn (year month : Nat) : Nat :=
  if month == 2 then (if isLeap year then 29 else 28)
  else if month == 4 || month == 6 || month == 9 || month == 11 then 30
  else 31

def Date.valid (d : Date) : Bool :=
  1 ≤ d.year && 1 ≤ d.month && d.month ≤ 12 && 1 ≤ d.day && d.day ≤ daysIn d.year d.month

def padded (width n : Nat) : String :=
  let ds := Nat.toDigits 10 n
  String.ofList (List.replicate (width - ds.length) '0' ++ ds)

def Date.plain (d : Date) : String :=
  padded 4 d.year ++ "-" ++ padded 2 d.month ++ "-" ++ padded 2 d.day

def Clock.plain (t : Clock) : String :=
  let whole := padded 2 t.hour ++ ":" ++ padded 2 t.minute ++ ":" ++ padded 2 t.second
  if t.microsecond == 0 then whole else whole ++ "." ++ padded 6 t.microsecond

def offsetText (minutes : Int) : String :=
  let n := minutes.natAbs
  (if minutes < 0 then "-" else "+") ++ padded 2 (n / 60) ++ ":" ++ padded 2 (n % 60)

/-- The parts of a time that its quoted form shows: seconds and their fractions are left out
where they are zero. -/
def Clock.parts (t : Clock) : List Nat :=
  if t.microsecond != 0 then [t.hour, t.minute, t.second, t.microsecond]
  else if t.second != 0 then [t.hour, t.minute, t.second]
  else [t.hour, t.minute]

def Date.parts (d : Date) : List Nat := [d.year, d.month, d.day]

def listed (ns : List Nat) : String := Text.intersperse ", " (ns.map toString)

/-- A distance from universal time as days and seconds, the seconds not negative. -/
def offsetQuoted (minutes : Int) : String :=
  if minutes == 0 then "datetime.timezone.utc"
  else
    let seconds := minutes * 60
    let inner :=
      if seconds < 0 then "days=-1, seconds=" ++ toString (seconds + 86400)
      else "seconds=" ++ toString seconds
    "datetime.timezone(datetime.timedelta(" ++ inner ++ "))"

namespace Moment

def kindWord : Moment → String
  | date _ => "date"
  | time _ => "time"
  | dateTime _ _ _ => "datetime"

def plain : Moment → String
  | date d => d.plain
  | time t => t.plain
  | dateTime d t offset =>
      d.plain ++ " " ++ t.plain ++ (offset.map offsetText).getD ""

def quoted : Moment → String
  | date d => "datetime.date(" ++ listed d.parts ++ ")"
  | time t => "datetime.time(" ++ listed t.parts ++ ")"
  | dateTime d t offset =>
      "datetime.datetime(" ++ listed (d.parts ++ t.parts) ++
        ((offset.map fun m => ", tzinfo=" ++ offsetQuoted m).getD "") ++ ")"

end Moment

end RestGraph
