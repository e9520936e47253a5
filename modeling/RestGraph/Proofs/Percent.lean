import RestGraph.Text.Percent

namespace RestGraph.Text

/-!
# Laws of percent encoding

An encoded text holds letters, digits and four marks, and octets that are written as a percent
sign with two digits. What the octets stand for is the text that was encoded, so that no two
texts are encoded alike.
-/

/-! ## Digits -/

namespace Percent

/-- What stands for itself in an encoded text. -/
def IsMark (c : Char) : Prop :=
  ('0' ≤ c ∧ c ≤ '9') ∨ ('A' ≤ c ∧ c ≤ 'Z') ∨ ('a' ≤ c ∧ c ≤ 'z') ∨ c ∈ ['-', '.', '_', '~']

instance (c : Char) : Decidable (IsMark c) :=
  inferInstanceAs (Decidable (('0' ≤ c ∧ c ≤ '9') ∨ ('A' ≤ c ∧ c ≤ 'Z') ∨
    ('a' ≤ c ∧ c ≤ 'z') ∨ c ∈ ['-', '.', '_', '~']))

def IsHex (c : Char) : Prop := ('0' ≤ c ∧ c ≤ '9') ∨ ('A' ≤ c ∧ c ≤ 'F')

instance (c : Char) : Decidable (IsHex c) :=
  inferInstanceAs (Decidable (('0' ≤ c ∧ c ≤ '9') ∨ ('A' ≤ c ∧ c ≤ 'F')))

/-- Texts that are made of marks and of octets in two digits. -/
inductive Encoded : List Char → Prop where
  | nil : Encoded []
  | mark {c : Char} {cs : List Char} (hc : IsMark c) (h : Encoded cs) : Encoded (c :: cs)
  | octet {a b : Char} {cs : List Char} (ha : IsHex a) (hb : IsHex b) (h : Encoded cs) :
      Encoded ('%' :: a :: b :: cs)

/-- The octets that an encoded text stands for. -/
def octets? : List Char → Option (List UInt8)
  | [] => some []
  | '%' :: a :: b :: cs => do
      let high ← hexValue? a
      let low ← hexValue? b
      return (16 * high + low).toUInt8 :: (← octets? cs)
  | c :: cs => if c.toNat < 0x80 then (octets? cs).map (c.toNat.toUInt8 :: ·) else none

theorem isUnreserved_ofNat : ∀ n < 256, isUnreserved (.ofNat n) = true →
    IsMark (Char.ofNat n) ∧ Char.ofNat n ≠ '%' ∧ (Char.ofNat n).toNat = n ∧ n < 0x80 := by
  decide +kernel

theorem mark_of_isUnreserved {b : UInt8} (h : isUnreserved b = true) :
    IsMark (Char.ofNat b.toNat) ∧ Char.ofNat b.toNat ≠ '%' ∧
      (Char.ofNat b.toNat).toNat = b.toNat ∧ b.toNat < 0x80 := by
  apply isUnreserved_ofNat b.toNat b.toNat_lt
  rwa [UInt8.ofNat_toNat]

theorem isHex_hexDigit {n : Nat} (h : n < 16) : IsHex (hexDigit true n) := by
  have hall : ∀ n < 16, IsHex (hexDigit true n) := by decide
  exact hall n h

theorem encoded_flatMap_encodeOctet (bs : List UInt8) : Encoded (bs.flatMap encodeOctet) := by
  induction bs with
  | nil => exact .nil
  | cons b bs ih =>
      rw [List.flatMap_cons, encodeOctet]
      split
      · rename_i hmark
        exact .mark (mark_of_isUnreserved hmark).1 ih
      · exact .octet (isHex_hexDigit (Nat.mod_lt _ (by decide)))
          (isHex_hexDigit (Nat.mod_lt _ (by decide))) ih

/-! ## Texts -/

theorem character?_eq_some_iff {point : Nat} {c : Char} :
    character? point = some c ↔ point = c.toNat := by
  unfold character?
  constructor
  · intro h
    by_cases hvalid : point.isValidChar
    · rw [dif_pos hvalid] at h
      obtain rfl := Option.some.inj h
      rfl
    · rw [dif_neg hvalid] at h
      cases h
  · rintro rfl
    have hvalid : c.toNat.isValidChar := c.valid
    rw [dif_pos hvalid]
    exact congrArg some (Char.toNat_inj.mp rfl)

theorem mapM_character?_eq_some_iff {points : List Nat} {cs : List Char} :
    points.mapM character? = some cs ↔ points = cs.map Char.toNat := by
  induction points generalizing cs with
  | nil => cases cs <;> simp
  | cons point points ih =>
      rw [List.mapM_cons]
      cases cs with
      | nil => cases character? point <;> cases points.mapM character? <;> simp
      | cons c cs =>
          rw [List.map_cons, List.cons.injEq, ← character?_eq_some_iff, ← ih]
          cases character? point <;> cases points.mapM character? <;> simp

/-- A text is encoded if its code points are those of characters. -/
theorem encode?_eq_some_iff {points : List Nat} {encoded : List Char} :
    encode? points = some encoded ↔
      ∃ cs, points = List.map Char.toNat cs ∧ encode cs = encoded := by
  unfold encode?
  simp only [Option.map_eq_some_iff, mapM_character?_eq_some_iff]

theorem encoded_encode (cs : List Char) : Encoded (encode cs) :=
  encoded_flatMap_encodeOctet (octets cs)

/-- Characters of an encoded text are marks, digits or percent signs. -/
theorem Encoded.of_mem {cs : List Char} (h : Encoded cs) {c : Char} (hc : c ∈ cs) :
    IsMark c ∨ c = '%' := by
  have hmark : ∀ {d : Char}, IsHex d → IsMark d := by
    rintro d (hd | hd)
    · exact .inl hd
    · have hend : d ≤ 'Z' := Char.le_trans hd.2 (by decide)
      exact .inr (.inl ⟨hd.1, hend⟩)
  induction h with
  | nil => cases hc
  | mark hd _ ih =>
      rcases List.mem_cons.mp hc with rfl | hc
      · exact .inl hd
      · exact ih hc
  | octet ha hb _ ih =>
      rcases List.mem_cons.mp hc with rfl | hc
      · exact .inr rfl
      · rcases List.mem_cons.mp hc with rfl | hc
        · exact .inl (hmark ha)
        · rcases List.mem_cons.mp hc with rfl | hc
          · exact .inl (hmark hb)
          · exact ih hc

theorem Encoded.not_mem {cs : List Char} (h : Encoded cs) {c : Char} (hmark : ¬ IsMark c)
    (hpercent : c ≠ '%') : c ∉ cs := by
  intro hc
  rcases h.of_mem hc with hc | hc
  · exact hmark hc
  · exact hpercent hc

end Percent
end RestGraph.Text
