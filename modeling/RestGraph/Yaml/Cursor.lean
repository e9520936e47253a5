import RestGraph.Text.Hex

namespace RestGraph.Yaml

/-!
# Places in a YAML text

A cursor holds the text that is left and how many characters, lines and characters of
the line lie before it. The text ends where the characters end.
-/

structure Cursor where
  rest : List Char
  index : Nat
  line : Nat
  column : Nat
  /-- More than the characters of the whole text, hence than any loop over it takes steps. -/
  steps : Nat

def isBreak (c : Char) : Bool :=
  c == '\n' || c == '\r' || c == '\x85' || c == '\u2028' || c == '\u2029'

def isSpace (c : Char) : Bool := c == ' ' || c == '\t'

def isDigit (c : Char) : Bool := '0' ≤ c && c ≤ '9'

def isWord (c : Char) : Bool :=
  isDigit c || ('a' ≤ c && c ≤ 'z') || ('A' ≤ c && c ≤ 'Z') || c == '-' || c == '_'

def isAllowed (c : Char) : Bool :=
  let n := c.toNat
  n == 0x9 || n == 0xa || n == 0xd || (0x20 ≤ n && n ≤ 0x7e) || n == 0x85 ||
    (0xa0 ≤ n && n ≤ 0xd7ff) || (0xe000 ≤ n && n ≤ 0xfffd) || 0x10000 ≤ n

namespace Cursor

def start (s : List Char) : Cursor := ⟨s, 0, 0, 0, s.length + 1⟩

def peek (c : Cursor) : Option Char := c.rest.head?

def peekAt (c : Cursor) (n : Nat) : Option Char := c.rest[n]?

def isAt (c : Cursor) (d : Char) : Bool := c.peek == some d

def atEnd (c : Cursor) : Bool := c.rest.isEmpty

def holds (p : Char → Bool) (c : Cursor) : Bool := c.peek.any p

def endsWordAt (c : Cursor) (n : Nat) : Bool :=
  match c.peekAt n with
  | none => true
  | some d => isSpace d || isBreak d

def endsLine (c : Cursor) : Bool :=
  match c.peek with
  | none => true
  | some d => isBreak d

/-- The cursor `n` characters on, none of which is a break. -/
def skip (c : Cursor) (n : Nat) : Cursor :=
  { c with rest := c.rest.drop n, index := c.index + n, column := c.column + n }

def nextLine (c : Cursor) (n : Nat) : Cursor :=
  { c with rest := c.rest.drop n, index := c.index + n, line := c.line + 1, column := 0 }

def skipWhile (p : Char → Bool) (c : Cursor) : Cursor :=
  c.skip (c.rest.takeWhile p).length

def taken (p : Char → Bool) (c : Cursor) : List Char := c.rest.takeWhile p

/-- The cursor after the break that it stands at, with the break as it is read: a line break of
one or two characters is a newline, and the two Unicode separators stand for themselves. -/
def takeBreak (c : Cursor) : List Char × Cursor :=
  match c.rest with
  | '\r' :: '\n' :: _ => (['\n'], c.nextLine 2)
  | d :: _ =>
      if d == '\n' || d == '\r' || d == '\x85' then (['\n'], c.nextLine 1)
      else if isBreak d then ([d], c.nextLine 1)
      else ([], c)
  | [] => ([], c)

def skipBreak (c : Cursor) : Cursor := c.takeBreak.2

/-- Whether three equal marks that begin or end a document stand at the front of a line. -/
def atDocumentMark (c : Cursor) : Bool :=
  c.column == 0 && c.endsWordAt 3 &&
    (c.rest.take 3 == ['-', '-', '-'] || c.rest.take 3 == ['.', '.', '.'])

def skipComment (c : Cursor) : Cursor :=
  let c := c.skipWhile isSpace
  if c.isAt '#' then c.skipWhile (fun d => !isBreak d) else c

end Cursor

end RestGraph.Yaml
