import Mathlib.Data.List.Basic
import RestGraph.Proofs.Sanitize
import RestGraph.Yaml.Reader

namespace RestGraph.Yaml

/-!
# Laws of YAML scalars

Whether a scalar has a value is seen from its tag and its text: a truth value is one of six
words, a number has digits and can be read part by part, of which there are not too many, a
timestamp has its form and is a time, and the scalar that stands for a mapping is empty. All other
scalars that have no value are ill formed.
-/

/-! ## Texts without a value -/

def IsTruthWord (text : List Char) : Prop :=
  String.ofList (text.map Char.toLower) ∈ ["yes", "true", "on", "no", "false", "off"]

/-- The digits of an integer without its sign, with their base. -/
def integerParts : List Char → List (Nat × List Char)
  | '0' :: 'b' :: r => [(2, r)]
  | '0' :: 'x' :: r => [(16, r)]
  | '0' :: r => [(8, '0' :: r)]
  | r => (Text.splitBy (· == ':') r).map fun part => (10, part)

def numberParts (text : List Char) : List (List Char) := Text.splitBy (· == ':') text

/-- What is wrong with a scalar, by its tag. -/
inductive Refused : Tag → List Char → Fault → Prop where
  | word {text : List Char} (h : ¬ IsTruthWord text) : Refused .truth text .unknownWord
  | noInteger {text : List Char} (h : dropSign (dropLines text) = []) :
      Refused .integer text .emptyNumber
  | noNumber {text : List Char} (h : dropLines text = []) : Refused .number text .emptyNumber
  | integer {text : List Char} (h : dropSign (dropLines text) ≠ [])
      (hpart : ∃ p ∈ integerParts (dropSign (dropLines text)),
        Text.readInteger? p.1 p.2 = none) : Refused .integer text .notANumber
  | number {text : List Char} (h : dropLines text ≠ [])
      (hword : dropSign ((dropLines text).map Char.toLower) ∉ [".inf".toList, ".nan".toList])
      (hpart : ∃ part ∈ numberParts (dropSign ((dropLines text).map Char.toLower)),
        Decimal.read? part = none) : Refused .number text .notANumber
  | places {text : List Char} (h : dropLines text ≠ [])
      (hword : dropSign ((dropLines text).map Char.toLower) ∉ [".inf".toList, ".nan".toList])
      (hparts : ∀ part ∈ numberParts (dropSign ((dropLines text).map Char.toLower)),
        Decimal.read? part ≠ none)
      (hlong : 174 < (numberParts (dropSign ((dropLines text).map Char.toLower))).length) :
      Refused .number text .overflow
  | stamp {text : List Char} (h : Stamp.ofText? text = none) : Refused .timestamp text .noTimestamp
  | time {text : List Char} {s : Stamp} (h : Stamp.ofText? text = some s)
      (hs : s.isValid = false) : Refused .timestamp text .noDate
  | members {text : List Char} (h : text ≠ []) : Refused .mapping text .notANumber

/-! ## Readers -/

theorem required_eq_error_iff {α : Type} {f f' : Fault} {o : Option α} :
    required f o = .error f' ↔ f' = f ∧ o = none := by
  cases o with
  | none => simp [required, eq_comm]
  | some a => simp [required]

theorem map_eq_error_iff {α β : Type} {x : Except Fault α} {g : α → β} {f : Fault} :
    x.map g = .error f ↔ x = .error f := by
  cases x with
  | error e => simp [Except.map]
  | ok a => simp [Except.map]

theorem length_of_mapM {α β : Type} {g : α → Option β} {as : List α} {bs : List β}
    (h : as.mapM g = some bs) : bs.length = as.length := by
  induction as generalizing bs with
  | nil =>
      obtain rfl := Option.some.inj h
      rfl
  | cons a as ih =>
      rw [List.mapM_cons] at h
      obtain ⟨b, -, h⟩ := Option.bind_eq_some_iff.mp h
      obtain ⟨bs', hbs', h⟩ := Option.bind_eq_some_iff.mp h
      obtain rfl := Option.some.inj h
      rw [List.length_cons, List.length_cons, ih hbs']

theorem splitBy_of_not_contains {text : List Char} (h : text.contains ':' = false) :
    Text.splitBy (· == ':') text = [text] := by
  apply Text.splitBy_of_forall_not
  intro c hc
  rw [beq_eq_false_iff_ne]
  rintro rfl
  simp [hc] at h

theorem truthWord_eq_error_iff {text : List Char} {f : Fault} :
    truthWord text = .error f ↔ f = .unknownWord ∧ ¬ IsTruthWord text := by
  rw [truthWord, IsTruthWord]
  generalize String.ofList (text.map Char.toLower) = word
  split
  · rename_i hyes
    simp only [Bool.or_eq_true, beq_iff_eq] at hyes
    rcases hyes with (rfl | rfl) | rfl <;> simp
  · rename_i hyes
    split
    · rename_i hno
      simp only [Bool.or_eq_true, beq_iff_eq] at hno
      rcases hno with (rfl | rfl) | rfl <;> simp
    · rename_i hno
      simp only [Bool.or_eq_true, beq_iff_eq, not_or] at hyes hno
      simp [hyes, hno, eq_comm]

theorem unsignedInteger_eq_error_iff {text : List Char} {f : Fault} :
    unsignedInteger text = .error f ↔ (f = .emptyNumber ∧ text = []) ∨
      (f = .notANumber ∧ text ≠ [] ∧
        ∃ p ∈ integerParts text, Text.readInteger? p.1 p.2 = none) := by
  have hzero : Text.readInteger? 8 ['0'] ≠ none := by decide
  unfold unsignedInteger
  split
  · simp [eq_comm]
  · simp [integerParts, hzero]
  · simp [integerParts, required_eq_error_iff]
  · simp [integerParts, required_eq_error_iff]
  · simp [integerParts, required_eq_error_iff]
  · rename_i hempty _ hbinary hhex hoctal
    have hne : text ≠ [] := hempty
    have hparts : integerParts text =
        (Text.splitBy (· == ':') text).map fun part => (10, part) := by
      unfold integerParts
      split
      · exact absurd rfl (hbinary _)
      · exact absurd rfl (hhex _)
      · exact absurd rfl (hoctal _)
      · rfl
    rw [hparts]
    split
    · rw [map_eq_error_iff, required_eq_error_iff, Text.mapM_eq_none_iff]
      simp [hne]
    · rename_i hsingle
      rw [required_eq_error_iff, splitBy_of_not_contains (by simpa using hsingle)]
      simp [hne]

theorem sixty_eq_error_iff {parts : List (List Char)} {f : Fault} :
    (do
      let xs ← required .notANumber (parts.mapM Decimal.read?)
      if sixtyPlaces < xs.length then Except.error .overflow
        else Except.ok (sixtyNumber xs)) = .error f ↔
      (f = .notANumber ∧ ∃ part ∈ parts, Decimal.read? part = none) ∨
        (f = .overflow ∧ (∀ part ∈ parts, Decimal.read? part ≠ none) ∧ 174 < parts.length) := by
  have hall : (∀ part ∈ parts, Decimal.read? part ≠ none) ↔
      ¬∃ part ∈ parts, Decimal.read? part = none := by simp
  rw [hall, ← Text.mapM_eq_none_iff]
  cases hread : parts.mapM Decimal.read? with
  | none => simp [required, bind, Except.bind, eq_comm]
  | some xs =>
      have hlength : xs.length = parts.length := length_of_mapM hread
      by_cases hlong : 174 < parts.length
      · simp [required, bind, Except.bind, sixtyPlaces, hlength, hlong, eq_comm]
      · simp [required, bind, Except.bind, sixtyPlaces, hlength, hlong]

theorem unsignedNumber_eq_error_iff {text : List Char} {f : Fault} :
    unsignedNumber text = .error f ↔ text ∉ [".inf".toList, ".nan".toList] ∧
      ((f = .notANumber ∧ ∃ part ∈ numberParts text, Decimal.read? part = none) ∨
        (f = .overflow ∧ (∀ part ∈ numberParts text, Decimal.read? part ≠ none) ∧
          174 < (numberParts text).length)) := by
  unfold unsignedNumber numberParts
  split
  · rename_i hword
    simp [eq_of_beq hword]
  · rename_i hinf
    split
    · rename_i hword
      simp [eq_of_beq hword]
    · rename_i hnan
      have hword : text ∉ [".inf".toList, ".nan".toList] := by
        rw [beq_iff_eq] at hinf hnan
        simp only [List.mem_cons, List.not_mem_nil, or_false, not_or]
        exact ⟨hinf, hnan⟩
      rw [and_iff_right hword]
      split
      · exact sixty_eq_error_iff
      · rename_i hsingle
        rw [required_eq_error_iff, splitBy_of_not_contains (by simpa using hsingle)]
        simp

theorem timestamp_eq_error_iff {text : List Char} {f : Fault} :
    timestamp text = .error f ↔ (f = .noTimestamp ∧ Stamp.ofText? text = none) ∨
      (f = .noDate ∧ ∃ s, Stamp.ofText? text = some s ∧ s.isValid = false) := by
  unfold timestamp
  split
  · rename_i hnone
    simp [hnone, eq_comm (a := f)]
  · rename_i s hs
    split
    · rename_i hvalid
      simp [hs, hvalid]
    · rename_i hvalid
      simp [hs, hvalid, eq_comm (a := f)]

theorem dropSign_of_unsigned {text : List Char} (hminus : ∀ r, text ≠ '-' :: r)
    (hplus : ∀ r, text ≠ '+' :: r) : dropSign text = text := by
  unfold dropSign
  split
  · exact absurd rfl (hminus _)
  · exact absurd rfl (hplus _)
  · rfl

theorem integer_eq_error_iff {text : List Char} {f : Fault} :
    integer text = .error f ↔ unsignedInteger (dropSign (dropLines text)) = .error f := by
  unfold integer
  generalize dropLines text = digits
  split
  · exact map_eq_error_iff
  · exact map_eq_error_iff
  · rename_i hminus hplus
    rw [dropSign_of_unsigned hminus hplus]
    exact map_eq_error_iff

theorem number_eq_error_iff {text : List Char} {f : Fault} :
    number text = .error f ↔ (f = .emptyNumber ∧ dropLines text = []) ∨
      (dropLines text ≠ [] ∧
        unsignedNumber (dropSign ((dropLines text).map Char.toLower)) = .error f) := by
  have hempty : dropLines text = [] ↔ (dropLines text).map Char.toLower = [] :=
    List.map_eq_nil_iff.symm
  rw [ne_eq, hempty]
  unfold number
  generalize (dropLines text).map Char.toLower = digits
  split
  · simp [eq_comm]
  · simp [map_eq_error_iff, dropSign]
  · simp [map_eq_error_iff, dropSign]
  · rename_i hne hminus hplus
    rw [dropSign_of_unsigned hminus hplus, map_eq_error_iff]
    simp [show digits ≠ [] from hne]

/-- A scalar has no value exactly if its text is refused for its tag, or it is ill formed. -/
theorem scalarValue_eq_error_iff {tag : Tag} {text : List Char} {f : Fault}
    (hf : f ≠ .illFormed) : scalarValue tag text = .error f ↔ Refused tag text f := by
  cases tag with
  | truth =>
      rw [scalarValue, truthWord_eq_error_iff]
      constructor
      · rintro ⟨rfl, h⟩
        exact .word h
      · rintro ⟨h⟩
        exact ⟨rfl, h⟩
  | integer =>
      rw [scalarValue, integer_eq_error_iff, unsignedInteger_eq_error_iff]
      constructor
      · rintro (⟨rfl, h⟩ | ⟨rfl, h, hpart⟩)
        · exact .noInteger h
        · exact .integer h hpart
      · intro h
        cases h with
        | noInteger h => exact .inl ⟨rfl, h⟩
        | integer h hpart => exact .inr ⟨rfl, h, hpart⟩
  | number =>
      rw [scalarValue, number_eq_error_iff, unsignedNumber_eq_error_iff]
      constructor
      · rintro (⟨rfl, h⟩ | ⟨h, hword, ⟨rfl, hpart⟩ | ⟨rfl, hparts, hlong⟩⟩)
        · exact .noNumber h
        · exact .number h hword hpart
        · exact .places h hword hparts hlong
      · intro h
        cases h with
        | noNumber h => exact .inl ⟨rfl, h⟩
        | number h hword hpart => exact .inr ⟨h, hword, .inl ⟨rfl, hpart⟩⟩
        | places h hword hparts hlong => exact .inr ⟨h, hword, .inr ⟨rfl, hparts, hlong⟩⟩
  | timestamp =>
      rw [scalarValue, timestamp_eq_error_iff]
      constructor
      · rintro (⟨rfl, h⟩ | ⟨rfl, s, h, hs⟩)
        · exact .stamp h
        · exact .time h hs
      · intro h
        cases h with
        | stamp h => exact .inl ⟨rfl, h⟩
        | time h hs => exact .inr ⟨rfl, _, h, hs⟩
  | mapping =>
      rw [scalarValue]
      constructor
      · intro h
        split at h
        · cases h
        · rename_i hne
          obtain rfl := Except.error.inj h
          exact .members (by simpa using hne)
      · intro h
        cases h with
        | members h => exact if_neg (by simpa using h)
  | binary =>
      rw [scalarValue, map_eq_error_iff, required_eq_error_iff]
      refine iff_of_false (fun h => hf h.1) ?_
      rintro ⟨⟩
  | null | string => exact iff_of_false (by rintro ⟨⟩) (by rintro ⟨⟩)
  | sequence | set | orderedMap | pairs | merge | default | unknown name =>
      exact iff_of_false (fun h => hf (Except.error.inj h).symm) (by rintro ⟨⟩)

end RestGraph.Yaml
