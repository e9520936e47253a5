namespace RestGraph.Yaml

/-!
# Octets in base 64

Characters outside the alphabet are skipped. A padding that completes a group of four
ends the text.
-/

def sextet? (c : Char) : Option Nat :=
  let n := c.toNat
  if 'A' ≤ c && c ≤ 'Z' then some (n - 0x41)
  else if 'a' ≤ c && c ≤ 'z' then some (n - 0x61 + 26)
  else if '0' ≤ c && c ≤ '9' then some (n - 0x30 + 52)
  else if c == '+' then some 62
  else if c == '/' then some 63
  else none

/-- The octets from here on: `place` sextets of a group have been read, `left` holds their bits
that make no octet yet, and `pads` paddings stand directly before. -/
def octetsFrom (place left pads : Nat) : List Char → Option (List UInt8)
  | [] => if place == 0 then some [] else none
  | c :: cs =>
      if c == '=' then
        if 2 ≤ place then
          if 4 ≤ place + pads + 1 then some [] else octetsFrom place left (pads + 1) cs
        else octetsFrom place left pads cs
      else match sextet? c with
        | none => octetsFrom place left pads cs
        | some s =>
            if place == 0 then octetsFrom 1 s 0 cs
            else if place == 1 then
              (octetsFrom 2 (s % 16) 0 cs).map ((left * 4 + s / 16).toUInt8 :: ·)
            else if place == 2 then
              (octetsFrom 3 (s % 4) 0 cs).map ((left * 16 + s / 4).toUInt8 :: ·)
            else (octetsFrom 0 0 0 cs).map ((left * 64 + s).toUInt8 :: ·)

/-- The octets of an ASCII text; none if it is not ASCII or ends within a group. -/
def octets? (cs : List Char) : Option (List UInt8) :=
  if cs.all fun c => c.toNat < 0x80 then octetsFrom 0 0 0 cs else none

end RestGraph.Yaml
