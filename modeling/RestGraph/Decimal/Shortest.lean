namespace RestGraph.Decimal

/-!
# Shortest decimals

A finite binary number `m * 2 ^ q` has an interval of reals around it that round
to it, ends included when `m` is even. Of the decimals in the interval those with
the fewest digits are taken, and of these the one nearest to the number.
-/

def twos (n : Nat) : Nat := Nat.pow 2 n

def tens (n : Nat) : Nat := Nat.pow 10 n

structure Numeral where
  digits : Nat
  exponent : Int

/-- A positive rational and the interval that stands for it, over one denominator. -/
structure Target where
  value : Nat
  low : Nat
  high : Nat
  denominator : Nat
  closed : Bool

/-- The interval of `m * 2 ^ q`; below a power of two the lower half is half as wide. -/
def Target.ofBinary (m : Nat) (q : Int) : Target :=
  let wide := m == twos 52 && q > -1074
  let up := twos q.toNat
  ⟨4 * m * up, (4 * m - (if wide then 1 else 2)) * up, (4 * m + 2) * up,
    4 * twos (-q).toNat, m % 2 == 0⟩

def Target.holds (t : Target) (n : Nat) (e : Int) : Bool :=
  let x := n * tens e.toNat * t.denominator
  let scale := tens (-e).toNat
  if t.closed then t.low * scale ≤ x && x ≤ t.high * scale
  else t.low * scale < x && x < t.high * scale

def Target.floor (t : Target) (e : Int) : Nat :=
  t.value * tens (-e).toNat / (t.denominator * tens e.toNat)

/-- Whether `n + 1` is nearer to the value than `n` on the grid of `10 ^ e`; a tie goes to
the even one. -/
def Target.roundsUp (t : Target) (n : Nat) (e : Int) : Bool :=
  let twice := 2 * t.value * tens (-e).toNat
  let middle := (2 * n + 1) * t.denominator * tens e.toNat
  twice > middle || (twice == middle && n % 2 == 1)

def Target.onGrid? (t : Target) (e : Int) : Option Nat :=
  let n := t.floor e
  match t.holds n e && n > 0, t.holds (n + 1) e with
  | true, true => some (if t.roundsUp n e then n + 1 else n)
  | true, false => some n
  | false, true => some (n + 1)
  | false, false => none

def countDigits (n : Nat) : Nat := (Nat.toDigits 10 n).length

/-- An exponent `k` with `10 ^ (k - 1) ≤ value < 10 ^ k`. -/
def Target.magnitude (t : Target) : Int :=
  let whole := t.value / t.denominator
  if whole > 0 then countDigits whole
  else 1 - (countDigits (t.denominator / t.value) : Int)

/-- The first grid with a point in the interval, from `count` digits on. -/
def Target.search (t : Target) (k : Int) : Nat → Nat → Numeral
  | 0, count => ⟨t.floor (k - count), k - count⟩
  | tries + 1, count =>
      match t.onGrid? (k - count) with
      | some n => ⟨n, k - count⟩
      | none => t.search k tries (count + 1)

def dropZeros : Nat → Numeral → Numeral
  | 0, d => d
  | tries + 1, d =>
      if d.digits != 0 && d.digits % 10 == 0 then dropZeros tries ⟨d.digits / 10, d.exponent + 1⟩
      else d

/-- The shortest decimal that reads back as `m * 2 ^ q`, for positive `m`. -/
def shortest (m : Nat) (q : Int) : Numeral :=
  let t := Target.ofBinary m q
  dropZeros 18 (t.search t.magnitude 17 1)

end RestGraph.Decimal
