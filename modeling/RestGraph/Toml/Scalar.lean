import RestGraph.Text.Hex
import RestGraph.Text.Taken
import RestGraph.Toml.Fault
import RestGraph.Value.Basic

namespace RestGraph.Toml

/-!
# Keys, strings, numbers and dates of TOML
-/

open Text (Taken fail isDigit char? naturalOf)

abbrev Read (α : Type) (s : List Char) := Text.Read Reason α s

def isControl (c : Char) : Bool := c.toNat < 0x20 || c.toNat == 0x7f

def isSpace (c : Char) : Bool := c == ' ' || c == '\t'

def isSpaceOrNewline (c : Char) : Bool := isSpace c || c == '\n'

def isBare (c : Char) : Bool :=
  isDigit c || ('a' ≤ c && c ≤ 'z') || ('A' ≤ c && c ≤ 'Z') || c == '-' || c == '_'

def spaces (s : List Char) : List Char := s.dropWhile isSpace

/-! ## Strings -/

/-- Whether a character may not stand in a string; over several lines newlines may. -/
def isIllegal (multiline : Bool) (c : Char) : Bool :=
  isControl c && c != '\t' && !(multiline && c == '\n')

def simpleEscape? : Char → Option Char
  | 'b' => some '\x08'
  | 't' => some '\t'
  | 'n' => some '\n'
  | 'f' => some '\x0c'
  | 'r' => some '\r'
  | '\x22' => some '\x22'
  | '\\' => some '\\'
  | _ => none

def hexChar (width : Nat) (s : List Char) : Except (Reason × Nat) (Char × List Char) :=
  let ds := s.take width
  if ds.length < width then .error (.invalidHex, s.length)
  else match Text.hexNumber? ds with
    | none => .error (.invalidHex, s.length)
    | some n =>
        if n < 0xd800 || (0xdfff < n && n < 0x110000) then .ok (Char.ofNat n, s.drop width)
        else .error (.notScalar, (s.drop width).length)

/-- What follows a backslash: the character it stands for, if any, and the rest. -/
def escape (multiline : Bool) (s : List Char) :
    Except (Reason × Nat) (List Char × List Char) :=
  match s with
  | 'u' :: r => (hexChar 4 r).map fun (c, r) => ([c], r)
  | 'U' :: r => (hexChar 8 r).map fun (c, r) => ([c], r)
  | c :: r =>
      if multiline && isSpaceOrNewline c then
        if c == '\n' then .ok ([], r.dropWhile isSpaceOrNewline)
        else match spaces r with
          | [] => .ok ([], [])
          | '\n' :: r => .ok ([], r.dropWhile isSpaceOrNewline)
          | r => .error (.unescapedBackslash, r.length)
      else match simpleEscape? c with
        | some d => .ok ([d], r)
        | none => .error (.unescapedBackslash, r.length)
  | [] => .error (.unescapedBackslash, 0)

/-- The rest of a string up to its closing quote, or to three of them over several lines.
Every step takes a character off `s`, so `s.length + 1` steps are enough. -/
def basicString (multiline : Bool) :
    Nat → List Char → List Char → Except (Reason × Nat) (List Char × List Char)
  | 0, _, s => .error (.unterminated, s.length)
  | steps + 1, acc, s =>
      match s with
      | [] => .error (.unterminated, 0)
      | '\x22' :: r =>
          if !multiline then .ok (acc.reverse, r)
          else match r with
            | '\x22' :: '\x22' :: r => .ok (acc.reverse, r)
            | r => basicString multiline steps ('\x22' :: acc) r
      | '\\' :: r =>
          match escape multiline r with
          | .error e => .error e
          | .ok (cs, r) => basicString multiline steps (cs.reverse ++ acc) r
      | c :: r =>
          if isIllegal multiline c then .error (.illegalCharacter c, (c :: r).length)
          else basicString multiline steps (c :: acc) r

def splitAtMark (mark : List Char) : List Char → Option (List Char × List Char)
  | [] => none
  | c :: cs =>
      if mark.isPrefixOf (c :: cs) then some ([], (c :: cs).drop mark.length)
      else (splitAtMark mark cs).map fun (before, rest) => (c :: before, rest)

def literalString (multiline : Bool) (s : List Char) :
    Except (Reason × Nat) (List Char × List Char) :=
  let mark := if multiline then ['\x27', '\x27', '\x27'] else ['\x27']
  match splitAtMark mark s with
  | none => .error (.expectedMark (String.ofList mark), 0)
  | some (before, rest) =>
      match before.find? (isIllegal multiline) with
      | none => .ok (before, rest)
      | some c =>
          .error (.invalidCharacter c, (s.dropWhile fun d => !isIllegal multiline d).length)

/-- Up to two more quotes belong to a string that three of them close. -/
def closingQuotes (quote : Char) (text rest : List Char) : List Char × List Char :=
  match rest with
  | c :: d :: r =>
      if c == quote then if d == quote then (text ++ [c, d], r) else (text ++ [c], d :: r)
      else (text, rest)
  | [c] => if c == quote then (text ++ [c], []) else (text, rest)
  | [] => (text, [])

def dropNewline : List Char → List Char
  | '\n' :: r => r
  | r => r

def stringAt (s : List Char) : Except (Reason × Nat) (List Char × List Char) :=
  match s with
  | '\x22' :: '\x22' :: '\x22' :: r =>
      (basicString true (r.length + 1) [] (dropNewline r)).map fun (cs, r) =>
        closingQuotes '\x22' cs r
  | '\x27' :: '\x27' :: '\x27' :: r =>
      (literalString true (dropNewline r)).map fun (cs, r) => closingQuotes '\x27' cs r
  | '\x22' :: r => basicString false (r.length + 1) [] r
  | '\x27' :: r => literalString false r
  | s => .error (.invalidValue, s.length)

/-! ## Keys -/

def keyPart (s : List Char) : Except (Reason × Nat) (List Char × List Char) :=
  match s with
  | '\x22' :: r => basicString false (r.length + 1) [] r
  | '\x27' :: r => literalString false r
  | s =>
      if (s.takeWhile isBare).isEmpty then .error (.invalidKeyStart, s.length)
      else .ok (s.takeWhile isBare, s.dropWhile isBare)

/-- The parts of a key between its dots, after those of `acc` in reverse; every part takes at
least one character. -/
def keyParts : Nat → List String → List Char →
    Except (Reason × Nat) (List String × List Char)
  | 0, _, s => .error (.invalidKeyStart, s.length)
  | steps + 1, acc, s =>
      match keyPart s with
      | .error e => .error e
      | .ok (part, r) =>
          let acc := String.ofList part :: acc
          match spaces r with
          | '.' :: r => keyParts steps acc (spaces r)
          | r => .ok (acc.reverse, r)

def key (s : List Char) : Except (Reason × Nat) (List String × List Char) :=
  keyParts (s.length + 1) [] s

/-! ## Numbers -/

/-- Further digits, each with at most one underscore before it. -/
def moreDigits (p : Char → Bool) : List Char → List Char × List Char
  | '_' :: d :: r =>
      if p d then
        let (ds, rest) := moreDigits p r
        (d :: ds, rest)
      else ([], '_' :: d :: r)
  | d :: r =>
      if p d then
        let (ds, rest) := moreDigits p r
        (d :: ds, rest)
      else ([], d :: r)
  | [] => ([], [])

def digits (p : Char → Bool) : List Char → Option (List Char × List Char)
  | d :: r =>
      if p d then
        let (ds, rest) := moreDigits p r
        some (d :: ds, rest)
      else none
  | [] => none

def isBelow (base : Nat) (c : Char) : Bool := ((Text.hexValue? c).filter (· < base)).isSome

def inBase (base : Nat) (ds : List Char) : Int :=
  (ds.foldl (fun n d => base * n + (Text.hexValue? d).getD 0) 0 : Nat)

def basedInteger? : List Char → Option (Value × List Char)
  | '0' :: c :: r =>
      let base := if c == 'x' then 16 else if c == 'o' then 8 else if c == 'b' then 2 else 0
      (digits (isBelow base) r).map fun (ds, rest) => (.int (inBase base ds), rest)
  | _ => none

def decimalFraction (s : List Char) : List Char × List Char :=
  match s with
  | '.' :: r => (digits isDigit r).getD ([], s)
  | _ => ([], s)

def decimalExponent (s : List Char) : Option Int × List Char :=
  match s with
  | e :: r =>
      if e == 'e' || e == 'E' then
        let (negative, r) := match r with
          | '-' :: r => (true, r)
          | '+' :: r => (false, r)
          | r => (false, r)
        match digits isDigit r with
        | none => (none, s)
        | some (ds, rest) =>
            let n : Int := naturalOf ds
            (some (if negative then -n else n), rest)
      else (none, s)
  | [] => (none, s)

def wholePart : List Char → Option (List Char × List Char)
  | '0' :: r => some (['0'], r)
  | s => digits isDigit s

def decimalNumber? (s : List Char) : Option (Value × List Char) := do
  let (negative, r) := match s with
    | '-' :: r => (true, r)
    | '+' :: r => (false, r)
    | r => (false, r)
  let (whole, r) ← wholePart r
  let (fractional, r) := decimalFraction r
  let (power, r) := decimalExponent r
  if fractional.isEmpty && power.isNone then
    let n : Int := naturalOf whole
    return (.int (if negative then -n else n), r)
  else
    return (.num (Decimal.nearest negative (naturalOf (whole ++ fractional))
      (power.getD 0 - fractional.length)), r)

def number? (s : List Char) : Option (Value × List Char) :=
  (basedInteger? s).or (decimalNumber? s)

/-! ## Dates -/

/-- `width` digits of a number between two bounds. -/
def fixedDigits? (width low high : Nat) (s : List Char) : Option (Nat × List Char) :=
  let ds := s.take width
  let n := naturalOf ds
  if ds.length == width && ds.all isDigit && low ≤ n && n ≤ high then some (n, s.drop width)
  else none

/-- The first six digits of a fraction of a second, in millionths. -/
def microseconds (s : List Char) : Nat × List Char :=
  match s with
  | '.' :: r =>
      let ds := r.takeWhile isDigit
      if ds.isEmpty then (0, s)
      else
        let kept := ds.take 6
        (naturalOf kept * Decimal.tens (6 - kept.length), r.dropWhile isDigit)
  | _ => (0, s)

def clock? (s : List Char) : Option (Clock × List Char) := do
  let (hour, r) ← fixedDigits? 2 0 23 s
  let r ← char? ':' r
  let (minute, r) ← fixedDigits? 2 0 59 r
  let r ← char? ':' r
  let (second, r) ← fixedDigits? 2 0 59 r
  let (micro, r) := microseconds r
  return (⟨hour, minute, second, micro⟩, r)

def date? (s : List Char) : Option (Date × List Char) := do
  let (year, r) ← fixedDigits? 4 0 9999 s
  let r ← char? '-' r
  let (month, r) ← fixedDigits? 2 1 12 r
  let r ← char? '-' r
  let (day, r) ← fixedDigits? 2 1 31 r
  return (⟨year, month, day⟩, r)

def offset? (s : List Char) : Option (Int × List Char) :=
  match s with
  | 'Z' :: r => some (0, r)
  | 'z' :: r => some (0, r)
  | c :: r =>
      if c == '+' || c == '-' then do
        let (hours, r) ← fixedDigits? 2 0 23 r
        let r ← char? ':' r
        let (minutes, r) ← fixedDigits? 2 0 59 r
        let n : Int := (60 * hours + minutes : Nat)
        return (if c == '-' then -n else n, r)
      else none
  | [] => none

def dateTime (d : Date) (s : List Char) : Moment × List Char :=
  let later : Option (Moment × List Char) :=
    match s with
    | c :: r =>
        if c == 'T' || c == 't' || c == ' ' then do
          let (t, r) ← clock? r
          match offset? r with
          | some (minutes, r) => return (.dateTime d t (some minutes), r)
          | none => return (.dateTime d t none, r)
        else none
    | [] => none
  later.getD (.date d, s)

def moment? (s : List Char) : Option (Except Reason Moment × List Char) :=
  match date? s with
  | some (d, r) =>
      let (m, r) := dateTime d r
      some (if d.valid then .ok m else .error .invalidDate, r)
  | none => (clock? s).map fun (t, r) => (.ok (.time t), r)

/-! ## Words -/

def words : List (List Char × Value) :=
  [("true".toList, .bool true), ("false".toList, .bool false)]

def numberWords : List (List Char × Value) :=
  [("inf".toList, .num Decimal.infinity), ("nan".toList, .num Decimal.notANumber),
    ("-inf".toList, .num (-Decimal.infinity)), ("+inf".toList, .num Decimal.infinity),
    ("-nan".toList, .num Decimal.notANumber), ("+nan".toList, .num Decimal.notANumber)]

def wordOf (ws : List (List Char × Value)) (s : List Char) : Option (Value × List Char) :=
  (ws.find? fun w => w.1.isPrefixOf s).map fun w => (w.2, s.drop w.1.length)

/-- A value that is neither an array nor a table. -/
def scalar (s : List Char) : Except (Reason × Nat) (Value × List Char) :=
  match s with
  | '\x22' :: _ => (stringAt s).map fun (cs, r) => (.text (String.ofList cs), r)
  | '\x27' :: _ => (stringAt s).map fun (cs, r) => (.text (String.ofList cs), r)
  | s =>
      match wordOf words s with
      | some found => .ok found
      | none =>
          match moment? s with
          | some (.ok m, r) => .ok (.moment m, r)
          | some (.error reason, _) => .error (reason, s.length)
          | none =>
              match (number? s).or (wordOf numberWords s) with
              | some found => .ok found
              | none => .error (.invalidValue, s.length)

end RestGraph.Toml
