import RestGraph.Json.Fault
import RestGraph.Text.Integer
import RestGraph.Text.Taken
import RestGraph.Value.Basic

namespace RestGraph.Json

/-!
# Reading JSON

Blanks are skipped around values and delimiters. Of members of one name the last
value counts, at the place of the first. Arrays and objects nest as deep as the reader
has room for.
-/

open Text (Taken fail length_dropWhile_le isDigit naturalOf)

abbrev Read (α : Type) (s : List Char) := Text.Read Reason α s

def isBlank (c : Char) : Bool := c == ' ' || c == '\t' || c == '\n' || c == '\r'

def skip (s : List Char) : List Char := s.dropWhile isBlank

theorem length_skip_le (s : List Char) : (skip s).length ≤ s.length :=
  length_dropWhile_le isBlank s

theorem length_of_skip {s r : List Char} {c : Char} (h : skip s = c :: r) :
    r.length < s.length := by
  have hs := length_skip_le s
  rw [h, List.length_cons] at hs
  omega

/-! ## Strings -/

def simpleEscape? : Char → Option Char
  | '\x22' => some '\x22'
  | '\\' => some '\\'
  | '/' => some '/'
  | 'b' => some '\x08'
  | 'f' => some '\x0c'
  | 'n' => some '\n'
  | 'r' => some '\r'
  | 't' => some '\t'
  | _ => none

def isHighSurrogate (n : Nat) : Bool := 0xd800 ≤ n && n < 0xdc00

def isLowSurrogate (n : Nat) : Bool := 0xdc00 ≤ n && n < 0xe000

/-- A character from a code point. No text has a surrogate that stands alone, so a private
character stands for it, another one for each. -/
def scalar (n : Nat) : Char :=
  if isHighSurrogate n || isLowSurrogate n then Char.ofNat (0x100000 + n) else Char.ofNat n

def join (high low : Nat) : Char :=
  Char.ofNat (0x10000 + (high - 0xd800) * 0x400 + (low - 0xdc00))

def fourDigits? : List Char → Option (Nat × List Char)
  | a :: b :: c :: d :: e :: r =>
      (Text.hexNumber? [a, b, c, d]).map fun n => (n, e :: r)
  | _ => none

theorem length_of_fourDigits? {s r : List Char} {n : Nat} (h : fourDigits? s = some (n, r)) :
    r.length + 4 = s.length := by
  unfold fourDigits? at h
  split at h
  · obtain ⟨m, -, hm⟩ := Option.map_eq_some_iff.1 h
    simp only [Prod.mk.injEq] at hm
    simp [← hm.2]
  · simp at h

/-- The character of a `u` escape, read from its digits on; two surrogates that belong
together are one character. A failure holds the text from the bad escape on. -/
def unicodeEscape (r : List Char) : Except (List Char) (Char × List Char) :=
  match fourDigits? r with
  | none => .error ('u' :: r)
  | some (n, '\\' :: 'u' :: r₂) =>
      if isHighSurrogate n && r₂.length > 4 then
        match fourDigits? r₂ with
        | none => .error ('u' :: r₂)
        | some (m, r₃) =>
            if isLowSurrogate m then .ok (join n m, r₃) else .ok (scalar n, '\\' :: 'u' :: r₂)
      else .ok (scalar n, '\\' :: 'u' :: r₂)
  | some (n, r₁) => .ok (scalar n, r₁)

theorem length_of_unicodeEscape {r rest : List Char} {c : Char}
    (h : unicodeEscape r = .ok (c, rest)) : rest.length < r.length := by
  unfold unicodeEscape at h
  split at h
  · simp at h
  · rename_i hd
    have h₁ := length_of_fourDigits? hd
    simp only [List.length_cons] at h₁
    split at h
    · split at h
      · simp at h
      · rename_i hd₂
        have h₂ := length_of_fourDigits? hd₂
        split at h
        · simp only [Except.ok.injEq, Prod.mk.injEq] at h
          rw [← h.2]
          omega
        · simp only [Except.ok.injEq, Prod.mk.injEq] at h
          rw [← h.2]
          simp only [List.length_cons]
          omega
    · simp only [Except.ok.injEq, Prod.mk.injEq] at h
      rw [← h.2]
      simp only [List.length_cons]
      omega
  · rename_i hd
    have h₁ := length_of_fourDigits? hd
    simp only [Except.ok.injEq, Prod.mk.injEq] at h
    rw [← h.2]
    omega

/-- The rest of a string whose characters so far, in reverse, are `acc`; `opening` is the text
from its opening quote on. -/
def string (opening acc s : List Char) : Read String s :=
  match s with
  | [] => fail .unterminated opening
  | '\x22' :: r => .ok ⟨String.ofList acc.reverse, r, by simp⟩
  | '\\' :: [] => fail .unterminated opening
  | '\\' :: 'u' :: r =>
      match h : unicodeEscape r with
      | .error left => fail .unicodeEscape left
      | .ok (c, rest) =>
          have h₁ := length_of_unicodeEscape h
          (string opening (c :: acc) rest).map (·.widen (by simp; omega))
  | '\\' :: c :: r =>
      match simpleEscape? c with
      | none => fail .unknownEscape ('\\' :: c :: r)
      | some d => (string opening (d :: acc) r).map (·.widen (by simp; omega))
  | c :: r =>
      if c.toNat < 0x20 then fail .controlCharacter (c :: r)
      else (string opening (c :: acc) r).map (·.widen (by simp))
termination_by s.length
decreasing_by all_goals (simp only [List.length_cons]; omega)

/-! ## Numbers -/

def fraction (s : List Char) : List Char × List Char :=
  match s with
  | '.' :: d :: r => if isDigit d then (d :: r.takeWhile isDigit, r.dropWhile isDigit) else ([], s)
  | _ => ([], s)

theorem length_fraction_le (s : List Char) : (fraction s).2.length ≤ s.length := by
  unfold fraction
  split
  · split
    · have := length_dropWhile_le isDigit (by assumption)
      simp only [List.length_cons]
      omega
    · simp
  · simp

def sign : List Char → Bool × List Char
  | '-' :: r => (true, r)
  | '+' :: r => (false, r)
  | r => (false, r)

theorem length_sign_le (s : List Char) : (sign s).2.length ≤ s.length := by
  unfold sign
  split <;> simp

def exponent (s : List Char) : Option Int × List Char :=
  match s with
  | e :: r =>
      let digits := (sign r).2.takeWhile isDigit
      if (e == 'e' || e == 'E') && !digits.isEmpty then
        let n : Int := naturalOf digits
        (some (if (sign r).1 then -n else n), (sign r).2.dropWhile isDigit)
      else (none, s)
  | [] => (none, s)

theorem length_exponent_le (s : List Char) : (exponent s).2.length ≤ s.length := by
  unfold exponent
  split
  · rename_i e r
    have h₁ := length_sign_le r
    have h₂ := length_dropWhile_le isDigit (sign r).2
    dsimp only
    split <;> simp only [List.length_cons] <;> omega
  · simp

/-- The number made of these parts: an integer unless it has a fraction or an exponent. Of more
digits than are read, it is none. -/
def numberOf (negative : Bool) (whole fractional : List Char) (power : Option Int) :
    Option Value :=
  if fractional.isEmpty && power.isNone then
    if whole.length > Text.integerDigits then none
    else some (.int (if negative then -(naturalOf whole : Int) else naturalOf whole))
  else
    some (.num (Decimal.nearest negative (naturalOf (whole ++ fractional))
      (power.getD 0 - fractional.length)))

def wholePart : List Char → Option (List Char × List Char)
  | '0' :: r => some (['0'], r)
  | c :: r => if isDigit c then some (c :: r.takeWhile isDigit, r.dropWhile isDigit) else none
  | [] => none

theorem length_of_wholePart {s w r : List Char} (h : wholePart s = some (w, r)) :
    r.length < s.length := by
  unfold wholePart at h
  split at h
  · simp only [Option.some.injEq, Prod.mk.injEq] at h
    simp [← h.2]
  · split at h
    · simp only [Option.some.injEq, Prod.mk.injEq] at h
      rw [← h.2]
      exact Nat.lt_succ_of_le (length_dropWhile_le _ _)
    · simp at h
  · simp at h

def unsignedNumber (start : List Char) (negative : Bool) (s : List Char) : Read Value s :=
  match h : wholePart s with
  | none => fail .expectedValue start
  | some (whole, r) =>
      match numberOf negative whole (fraction r).1 (exponent (fraction r).2).1 with
      | none => fail .longInteger start
      | some v => .ok ⟨v, (exponent (fraction r).2).2, by
          have h₁ := length_of_wholePart h
          have h₂ := length_fraction_le r
          have h₃ := length_exponent_le (fraction r).2
          omega⟩

def number (s : List Char) : Read Value s :=
  match s with
  | '-' :: r => (unsignedNumber ('-' :: r) true r).map (·.widen (by simp))
  | s => unsignedNumber s false s

/-! ## Words -/

/-- The words of JSON and the three numbers that are written as words. -/
def words : List (List Char × Value) :=
  [("null".toList, .null), ("true".toList, .bool true), ("false".toList, .bool false),
    ("NaN".toList, .num Decimal.notANumber), ("Infinity".toList, .num Decimal.infinity),
    ("-Infinity".toList, .num (-Decimal.infinity))]

def word? (s : List Char) : Option (Taken Value s) :=
  match words.find? fun w => w.1.isPrefixOf s with
  | none => none
  | some w =>
      if h : (s.drop w.1.length).length < s.length then some ⟨w.2, s.drop w.1.length, h⟩
      else none

/-! ## Values -/

mutual

/-- A value with `room` for so many arrays and objects within one another. -/
def value (room : Nat) (s : List Char) : Read Value s :=
  match s with
  | '\x22' :: r => (string ('\x22' :: r) [] r).map fun t => (t.map .text).widen (by simp)
  | '\x7b' :: r =>
      have h := length_skip_le r
      if room = 0 then fail .tooNested ('\x7b' :: r)
      else match hr : skip r with
        | '\x7d' :: r' => .ok ⟨.map [], r', Nat.lt_succ_of_lt (length_of_skip hr)⟩
        | _ => (members (room - 1) [] (skip r)).map fun t =>
            (t.map fun ms => .map (Table.ofList ms)).widen (by simp; omega)
  | '[' :: r =>
      have h := length_skip_le r
      if room = 0 then fail .tooNested ('[' :: r)
      else match hr : skip r with
        | ']' :: r' => .ok ⟨.list [], r', Nat.lt_succ_of_lt (length_of_skip hr)⟩
        | _ => (items (room - 1) [] (skip r)).map fun t => (t.map .list).widen (by simp; omega)
  | s =>
      match word? s with
      | some t => .ok t
      | none => number s
termination_by 2 * s.length
decreasing_by all_goals (simp; omega)

/-- The items from here to the closing bracket, after those of `acc` in reverse. -/
def items (room : Nat) (acc : List Value) (s : List Char) : Read (List Value) s :=
  match value room s with
  | .error e => .error e
  | .ok t =>
      have ht := t.shorter
      match hr : skip t.rest with
      | ']' :: r => .ok ⟨(t.value :: acc).reverse, r, Nat.lt_trans (length_of_skip hr) ht⟩
      | ',' :: r =>
          have h := length_of_skip hr
          have h' := length_skip_le r
          (items room (t.value :: acc) (skip r)).map (·.widen (by omega))
      | r => fail .expectedComma r
termination_by 2 * s.length + 1

def members (room : Nat) (acc : List (String × Value)) (s : List Char) :
    Read (List (String × Value)) s :=
  match s with
  | '\x22' :: q =>
      match string ('\x22' :: q) [] q with
      | .error e => .error e
      | .ok name =>
          have h₁ := name.shorter
          match hr : skip name.rest with
          | ':' :: r =>
              have h₂ := length_of_skip hr
              have h₃ := length_skip_le r
              match value room (skip r) with
              | .error e => .error e
              | .ok t =>
                  have h₄ := t.shorter
                  match hs : skip t.rest with
                  | '\x7d' :: r' =>
                      have h₅ := length_of_skip hs
                      .ok ⟨((name.value, t.value) :: acc).reverse, r', by
                        simp only [List.length_cons]; omega⟩
                  | ',' :: r' =>
                      have h₅ := length_of_skip hs
                      have h₆ := length_skip_le r'
                      (members room ((name.value, t.value) :: acc) (skip r')).map
                        (·.widen (by simp only [List.length_cons]; omega))
                  | r' => fail .expectedComma r'
          | r => fail .expectedColon r
  | s => fail .expectedName s
termination_by 2 * s.length + 1
decreasing_by all_goals (simp only [List.length_cons]; omega)

end

def parseWithin (room : Nat) (text : String) : Except Fault Value :=
  let s := text.toList
  let located (e : Reason × Nat) : Fault := ⟨e.1, s.length - e.2⟩
  match s with
  | '\ufeff' :: _ => .error ⟨.byteOrderMark, 0⟩
  | _ =>
      match value room (skip s) with
      | .error e => .error (located e)
      | .ok t =>
          match skip t.rest with
          | [] => .ok t.value
          | r => .error (located (.extraData, r.length))

/-- With room for each character to begin an array or an object. -/
def parse (text : String) : Except Fault Value := parseWithin text.length text

end RestGraph.Json
