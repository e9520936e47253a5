import RestGraph.Text.Hex

namespace RestGraph.Text.Percent

/-!
# Percent encoding

Letters, digits and four marks stand for themselves. All other characters are written
octet by octet. A text is encoded from its code points, and one that is no character, such
as half of a surrogate pair, has no octets.
-/

def isUnreserved (b : UInt8) : Bool :=
  let n := b.toNat
  (0x30 ≤ n && n ≤ 0x39) || (0x41 ≤ n && n ≤ 0x5a) || (0x61 ≤ n && n ≤ 0x7a) ||
    n == 0x2d || n == 0x2e || n == 0x5f || n == 0x7e

def encodeOctet (b : UInt8) : List Char :=
  if isUnreserved b then [Char.ofNat b.toNat] else '%' :: hexDigits true 2 b.toNat

def octets (cs : List Char) : List UInt8 := cs.flatMap String.utf8EncodeChar

def encode (cs : List Char) : List Char := (octets cs).flatMap encodeOctet

def character? (point : Nat) : Option Char :=
  if h : point.isValidChar then some (Char.ofNatAux point h) else none

def encode? (points : List Nat) : Option (List Char) := (points.mapM character?).map encode

end RestGraph.Text.Percent
