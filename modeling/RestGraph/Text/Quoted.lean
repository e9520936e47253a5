import RestGraph.Text.Printable
import RestGraph.Text.Hex

namespace RestGraph.Text

/-!
# Quoted text

Text in messages stands between single quotes, or between double quotes when it
holds a single quote and no double quote. The delimiter and the backslash are
escaped, and so is every character that is not printable.
-/

def singleQuote : Char := Char.ofNat 0x27

def doubleQuote : Char := Char.ofNat 0x22

/-- The delimiter that needs the fewest escapes. -/
def delimiter (cs : List Char) : Char :=
  if cs.contains singleQuote && !cs.contains doubleQuote then doubleQuote else singleQuote

/-- An unprintable character as the shortest of its `\x`, `\u` and `\U` forms. -/
def escapeCode (n : Nat) : List Char :=
  if n < 0x100 then '\\' :: 'x' :: hexDigits false 2 n
  else if n < 0x10000 then '\\' :: 'u' :: hexDigits false 4 n
  else '\\' :: 'U' :: hexDigits false 8 n

def quoteChar (quote c : Char) : List Char :=
  if c == quote || c == '\\' then ['\\', c]
  else if c == '\n' then ['\\', 'n']
  else if c == '\r' then ['\\', 'r']
  else if c == '\t' then ['\\', 't']
  else if isPrintable c then [c]
  else escapeCode c.toNat

def quoted (s : String) : String :=
  let cs := s.toList
  let quote := delimiter cs
  String.ofList (quote :: cs.flatMap (quoteChar quote) ++ [quote])

end RestGraph.Text
