import RestGraph.Text.Integer
import RestGraph.Text.Quoted
import RestGraph.Text.Split
import RestGraph.Value.Basic

namespace RestGraph.Value

/-!
# The text of a value

A value has a plain form, in which text stands for itself, and a quoted form, in
which text is quoted. The items of lists and the members of maps are always quoted.
Both forms are refused for a value that holds an integer of too many digits: whoever
writes a value asks first whether it is writable.
-/

/-- Numbers are positional when their first digit stands for 10⁻⁴ to 10¹⁵, and exponents
have two digits at least. -/
def numberLayout : Decimal.Layout := ⟨-4, 15, 2⟩

def kindWord : Value → String
  | .null => "NoneType"
  | .bool _ => "bool"
  | .int _ => "int"
  | .num _ => "float"
  | .text _ => "str"
  | .bytes _ => "bytes"
  | .moment m => m.kindWord
  | .list _ => "list"
  | .map _ => "dict"

def quoteOctet (quote : Char) (b : UInt8) : List Char :=
  let c := Char.ofNat b.toNat
  if c == quote || c == '\\' then ['\\', c]
  else if c == '\n' then ['\\', 'n']
  else if c == '\r' then ['\\', 'r']
  else if c == '\t' then ['\\', 't']
  else if 0x20 ≤ b.toNat && b.toNat < 0x7f then [c]
  else '\\' :: 'x' :: Text.hexDigits false 2 b.toNat

def quotedOctets (bs : List UInt8) : String :=
  let quote := Text.delimiter (bs.map fun b => Char.ofNat b.toNat)
  String.ofList ('b' :: quote :: bs.flatMap (quoteOctet quote) ++ [quote])

mutual

def quoted : Value → String
  | .null => "None"
  | .bool true => "True"
  | .bool false => "False"
  | .int n => toString n
  | .num x => numberLayout.write x
  | .text s => Text.quoted s
  | .bytes bs => quotedOctets bs
  | .moment m => m.quoted
  | .list vs => "[" ++ Text.intersperse ", " (quotedItems vs) ++ "]"
  | .map ms => "\x7b" ++ Text.intersperse ", " (quotedMembers ms) ++ "\x7d"

def quotedItems : List Value → List String
  | [] => []
  | v :: vs => quoted v :: quotedItems vs

def quotedMembers : List (String × Value) → List String
  | [] => []
  | (k, v) :: ms => (Text.quoted k ++ ": " ++ quoted v) :: quotedMembers ms

end

def plain : Value → String
  | .text s => s
  | .moment m => m.plain
  | v => quoted v

@[simp] theorem plain_text (s : String) : plain (.text s) = s := rfl

/-! ## Values that can be written -/

/-- The least number that has more digits than are written. -/
def writtenBound : Nat := Decimal.tens Text.integerDigits

mutual

def isWritable : Value → Bool
  | .int n => n.natAbs < writtenBound
  | .list vs => areWritable vs
  | .map ms => haveWritable ms
  | _ => true

def areWritable : List Value → Bool
  | [] => true
  | v :: vs => isWritable v && areWritable vs

def haveWritable : List (String × Value) → Bool
  | [] => true
  | (_, v) :: ms => isWritable v && haveWritable ms

end

@[simp] theorem isWritable_text (s : String) : isWritable (.text s) = true := rfl

theorem isWritable_of_mem {ms : List (String × Value)} (h : isWritable (.map ms) = true) :
    ∀ m ∈ ms, isWritable m.2 = true := by
  rw [isWritable] at h
  induction ms with
  | nil => simp
  | cons m ms ih =>
      rw [haveWritable, Bool.and_eq_true] at h
      exact List.forall_mem_cons.mpr ⟨h.1, ih h.2⟩

end RestGraph.Value
