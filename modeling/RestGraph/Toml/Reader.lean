import RestGraph.Toml.Scalar
import RestGraph.Toml.Table

namespace RestGraph.Toml

/-!
# Reading TOML

A text is read statement by statement. Every statement and every value takes at
least one character, so the counts of steps below, which begin above the length of
the text, do not run out.
-/

def comment (s : List Char) : Except (Reason × Nat) (List Char) :=
  match s with
  | '#' :: r =>
      let text := r.takeWhile (· != '\n')
      match text.find? (isIllegal false) with
      | none => .ok (r.dropWhile (· != '\n'))
      | some c =>
          .error (.invalidCharacter c, (r.dropWhile fun d => !isIllegal false d).length)
  | s => .ok s

def filler : Nat → List Char → Except (Reason × Nat) (List Char)
  | 0, s => .ok s
  | steps + 1, s =>
      match s.dropWhile isSpaceOrNewline with
      | '#' :: r =>
          match comment ('#' :: r) with
          | .error e => .error e
          | .ok rest => filler steps rest
      | rest => .ok rest

def skipFiller (s : List Char) : Except (Reason × Nat) (List Char) := filler (s.length + 1) s

mutual

def value : Nat → List Char → Except (Reason × Nat) (Value × List Char)
  | 0, s => .error (.invalidValue, s.length)
  | steps + 1, s =>
      match s with
      | '[' :: r =>
          match skipFiller r with
          | .error e => .error e
          | .ok (']' :: r) => .ok (.list [], r)
          | .ok r => items steps [] r
      | '\x7b' :: r =>
          match spaces r with
          | '\x7d' :: r => .ok (.map [], r)
          | r => pairs steps [] r
      | s => scalar s

/-- The items from here to the closing bracket, after those of `acc` in reverse. -/
def items : Nat → List Value → List Char → Except (Reason × Nat) (Value × List Char)
  | 0, _, s => .error (.unclosedArray, s.length)
  | steps + 1, acc, s =>
      match value steps s with
      | .error e => .error e
      | .ok (v, r) =>
          match skipFiller r with
          | .error e => .error e
          | .ok (']' :: r) => .ok (.list (v :: acc).reverse, r)
          | .ok (',' :: r) =>
              match skipFiller r with
              | .error e => .error e
              | .ok (']' :: r) => .ok (.list (v :: acc).reverse, r)
              | .ok r => items steps (v :: acc) r
          | .ok r => .error (.unclosedArray, r.length)

def pairs : Nat → Members → List Char → Except (Reason × Nat) (Value × List Char)
  | 0, _, s => .error (.unclosedTable, s.length)
  | steps + 1, ms, s =>
      match key s with
      | .error e => .error e
      | .ok (k, '=' :: r) =>
          match value steps (spaces r) with
          | .error e => .error e
          | .ok (v, r) =>
              match setInline k v ms with
              | .error reason => .error (reason, r.length)
              | .ok ms =>
                  match spaces r with
                  | '\x7d' :: r => .ok (.map (memberValues ms), r)
                  | ',' :: r => pairs steps ms (spaces r)
                  | r => .error (.unclosedTable, r.length)
      | .ok (_, r) => .error (.expectedEquals, r.length)

end

/-- The tables so far, the current header and the count of headers before it. -/
structure Draft where
  members : Members
  header : List String
  headers : Nat

def located {α : Type} (left : List Char) : Except Reason α → Except (Reason × Nat) α :=
  Except.mapError fun reason => (reason, left.length)

/-- The header `[key]` or `[[key]]`, whose opening brackets are taken off. -/
def header (list : Bool) (d : Draft) (s : List Char) :
    Except (Reason × Nat) (Draft × List Char) := do
  let (k, r) ← key (spaces s)
  let ms ← located r ((if list then appendTable else openTable) k d.members)
  let opened : Draft := ⟨ms, k, d.headers + 1⟩
  match list, r with
  | true, ']' :: ']' :: r => return (opened, r)
  | true, r => throw (.unclosedListHeader, r.length)
  | false, ']' :: r => return (opened, r)
  | false, r => throw (.unclosedHeader, r.length)

def assignment (steps : Nat) (d : Draft) (s : List Char) :
    Except (Reason × Nat) (Draft × List Char) := do
  match ← key s with
  | (k, '=' :: r) =>
      let (v, r) ← value steps (spaces r)
      let ms ← located r (setValue d.headers d.header k v d.members)
      return (⟨ms, d.header, d.headers⟩, r)
  | (_, r) => throw (.expectedEquals, r.length)

def startsKey (c : Char) : Bool := isBare c || c == '\x22' || c == '\x27'

def statement (steps : Nat) (d : Draft) (s : List Char) :
    Except (Reason × Nat) (Draft × List Char) :=
  match s with
  | '[' :: '[' :: r => header true d r
  | '[' :: r => header false d r
  | '#' :: r => .ok (d, '#' :: r)
  | c :: r => if startsKey c then assignment steps d (c :: r)
      else .error (.invalidStatement, (c :: r).length)
  | [] => .ok (d, [])

def statements : Nat → Draft → List Char → Except (Reason × Nat) Draft
  | 0, d, _ => .ok d
  | steps + 1, d, s =>
      match spaces s with
      | [] => .ok d
      | '\n' :: r => statements steps d r
      | r =>
          match statement (2 * s.length + 2) d r with
          | .error e => .error e
          | .ok (d, r) =>
              match comment (spaces r) with
              | .error e => .error e
              | .ok [] => .ok d
              | .ok ('\n' :: r) => statements steps d r
              | .ok r => .error (.expectedNewline, r.length)

/-- A line break of two characters is one newline. -/
def joinLineBreaks : List Char → List Char
  | '\r' :: '\n' :: r => '\n' :: joinLineBreaks r
  | c :: r => c :: joinLineBreaks r
  | [] => []

def parse (text : String) : Except Fault Value :=
  let s := joinLineBreaks text.toList
  match statements (s.length + 1) ⟨[], [], 0⟩ s with
  | .ok d => .ok (.map (memberValues d.members))
  | .error (reason, left) => .error ⟨reason, placeOf s left⟩

end RestGraph.Toml
