import RestGraph.Decimal.Shortest
import RestGraph.Moment
import RestGraph.Text.Taken
import RestGraph.Yaml.Cursor

namespace RestGraph.Yaml

/-!
# Timestamps of YAML

A timestamp is a date, or a date with a time behind a letter or blanks, and perhaps with the
distance from universal time. What has this form may still be no day of the calendar, no time of a
day or a distance of more than a day.
-/

open Text (naturalOf char?)

/-- A number of `least` to `most` digits, of which as many are taken as there are. -/
def someDigits? (least most : Nat) (s : List Char) : Option (Nat × List Char) :=
  let ds := (s.take most).takeWhile isDigit
  if ds.length < least then none else some (naturalOf ds, s.drop ds.length)

def date? (s : List Char) : Option (Date × List Char) := do
  let (year, r) ← someDigits? 4 4 s
  let r ← char? '-' r
  let (month, r) ← someDigits? 1 2 r
  let r ← char? '-' r
  let (day, r) ← someDigits? 1 2 r
  return (⟨year, month, day⟩, r)

/-- The first six digits of a fraction of a second, in millionths. -/
def millionths : List Char → Nat × List Char
  | '.' :: r =>
      let kept := (r.takeWhile isDigit).take 6
      (naturalOf kept * Decimal.tens (6 - kept.length), r.dropWhile isDigit)
  | s => (0, s)

def clock? (s : List Char) : Option (Clock × List Char) := do
  let (hour, r) ← someDigits? 1 2 s
  let r ← char? ':' r
  let (minute, r) ← someDigits? 2 2 r
  let r ← char? ':' r
  let (second, r) ← someDigits? 2 2 r
  let (micro, r) := millionths r
  return (⟨hour, minute, second, micro⟩, r)

/-- Hours and perhaps minutes, in minutes. -/
def distance? (s : List Char) : Option (Nat × List Char) := do
  let (hours, r) ← someDigits? 1 2 s
  match (char? ':' r).bind (someDigits? 2 2) with
  | some (minutes, r) => return (60 * hours + minutes, r)
  | none => return (60 * hours, r)

/-- A distance from universal time, in minutes. -/
def zone? (s : List Char) : Option (Int × List Char) :=
  match s.dropWhile isSpace with
  | 'Z' :: r => some (0, r)
  | '+' :: r => (distance? r).map fun (n, r) => ((n : Int), r)
  | '-' :: r => (distance? r).map fun (n, r) => (-(n : Int), r)
  | _ => none

/-- The letter or the blanks between a date and a time taken off. -/
def dropSeparator? : List Char → Option (List Char)
  | c :: r =>
      if c == 'T' || c == 't' then some r
      else if isSpace c then some (r.dropWhile isSpace)
      else none
  | [] => none

structure Stamp where
  date : Date
  /-- A time, with its distance from universal time if that is given. -/
  time : Option (Clock × Option Int)

namespace Stamp

def ofText? (text : List Char) : Option Stamp := do
  let (date, r) ← date? text
  if Text.atEnd r then return ⟨date, none⟩
  let (clock, r) ← clock? (← dropSeparator? r)
  if Text.atEnd r then return ⟨date, some (clock, none)⟩
  let (minutes, r) ← zone? r
  if Text.atEnd r then return ⟨date, some (clock, some minutes)⟩
  none

def isValid (s : Stamp) : Bool :=
  s.date.valid && s.time.all fun t =>
    t.1.hour < 24 && t.1.minute < 60 && t.1.second < 60 && t.2.all fun n => n.natAbs < 24 * 60

def moment (s : Stamp) : Moment :=
  match s.time with
  | none => .date s.date
  | some (clock, offset) => .dateTime s.date clock offset

end Stamp

end RestGraph.Yaml
