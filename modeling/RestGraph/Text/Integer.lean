import RestGraph.Text.Hex

namespace RestGraph.Text

/-!
# Reading integers

An integer may have blanks around it, a sign, digits of any script and single
underscores between digits. In base 2, 8 and 16 it may begin with `0b`, `0o` or `0x`.
Blanks are those of ASCII and what Unicode 14 calls white space beyond it; the decimal
digits of Unicode 14 stand in runs of ten, each of which starts with a zero.
-/

/-! ## Blanks and digits -/

def isBlank (c : Char) : Bool :=
  let n := c.toNat
  (0x9 ≤ n && n ≤ 0xd) || n == 0x20 || n == 0x85 || n == 0xa0 || n == 0x1680 ||
    (0x2000 ≤ n && n ≤ 0x200a) || n == 0x2028 || n == 0x2029 || n == 0x202f || n == 0x205f ||
    n == 0x3000

def trimBlanks (cs : List Char) : List Char :=
  ((cs.dropWhile isBlank).reverse.dropWhile isBlank).reverse

/-- The zeros of the runs of decimal digits, in increasing order. -/
def digitZeros : List Nat := [
  0x30, 0x660, 0x6f0, 0x7c0, 0x966, 0x9e6, 0xa66, 0xae6, 0xb66, 0xbe6, 0xc66, 0xce6, 0xd66,
  0xde6, 0xe50, 0xed0, 0xf20, 0x1040, 0x1090, 0x17e0, 0x1810, 0x1946, 0x19d0, 0x1a80, 0x1a90,
  0x1b50, 0x1bb0, 0x1c40, 0x1c50, 0xa620, 0xa8d0, 0xa900, 0xa9d0, 0xa9f0, 0xaa50, 0xabf0,
  0xff10, 0x104a0, 0x10d30, 0x11066, 0x110f0, 0x11136, 0x111d0, 0x112f0, 0x11450, 0x114d0,
  0x11650, 0x116c0, 0x11730, 0x118e0, 0x11950, 0x11c50, 0x11d50, 0x11da0, 0x16a60, 0x16ac0,
  0x16b50, 0x1d7ce, 0x1d7d8, 0x1d7e2, 0x1d7ec, 0x1d7f6, 0x1e140, 0x1e2f0, 0x1e950, 0x1fbf0]

def digitValue? (c : Char) : Option Nat :=
  (digitZeros.find? fun start => start ≤ c.toNat && c.toNat < start + 10).map (c.toNat - ·)

/-! ## Integers -/

def digitBelow? (base : Nat) (c : Char) : Option Nat :=
  ((digitValue? c).or (hexValue? c)).filter (· < base)

/-- Digits with at most one underscore before each but the first. -/
def readDigits? (base : Nat) : Nat → Bool → List Char → Option Nat
  | n, afterDigit, [] => if afterDigit then some n else none
  | n, afterDigit, c :: cs =>
      if c == '_' then
        if afterDigit && !cs.isEmpty then readDigits? base n false cs else none
      else match digitBelow? base c with
        | some d => readDigits? base (base * n + d) true cs
        | none => none

def baseLetter (base : Nat) (c : Char) : Bool :=
  (base == 2 && (c == 'b' || c == 'B')) || (base == 8 && (c == 'o' || c == 'O')) ||
    (base == 16 && (c == 'x' || c == 'X'))

/-- The digits after a mark of the base, which one underscore may follow. -/
def dropBaseMark (base : Nat) : List Char → List Char
  | '0' :: c :: cs =>
      if baseLetter base c then
        match cs with
        | '_' :: r => r
        | r => r
      else '0' :: c :: cs
  | cs => cs

/-- More digits are refused in base ten. -/
def integerDigits : Nat := 4300

def tooLong (base : Nat) (cs : List Char) : Bool :=
  base == 10 && integerDigits < (cs.filter (· != '_')).length

def readNatural? (base : Nat) (cs : List Char) : Option Nat :=
  if tooLong base cs then none else readDigits? base 0 false (dropBaseMark base cs)

def readInteger? (base : Nat) (cs : List Char) : Option Int :=
  match trimBlanks cs with
  | '-' :: r => (readNatural? base r).map fun n => -(n : Int)
  | '+' :: r => (readNatural? base r).map fun n => (n : Int)
  | r => (readNatural? base r).map fun n => (n : Int)

end RestGraph.Text
