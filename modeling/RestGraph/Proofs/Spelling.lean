import Mathlib
import RestGraph.Proofs.Sanitize

namespace RestGraph.Name

/-!
# What names are made of

A name holds the word characters of its text in their order. The text is read once, and of what
was read it matters only whether a separator came last: the character after it is put in upper
case, and nothing else is changed but for the underscore before a digit at the front.
-/

/-! ## Cases of letters -/

theorem upper_eq_toUpper (c : Char) : upper c = c.toUpper := by
  by_cases hc : 'a' ≤ c ∧ c ≤ 'z'
  · refine forall_small (P := fun c => upper c = c.toUpper) (fun n hlow hhigh => ?_) hc
    interval_cases n <;> decide
  · have hlower : ¬ c.isLower := by simpa [Char.isLower, Char.le_def] using hc
    rw [upper_of_not_small hc, Char.toUpper_eq_of_not_isLower hlower]

theorem toLower_upper (c : Char) : (upper c).toLower = c.toLower := by
  rw [upper_eq_toUpper, Char.toLower_toUpper_eq_toLower]

theorem isDigit_upper (c : Char) : isDigit (upper c) = isDigit c := by
  by_cases hc : 'a' ≤ c ∧ c ≤ 'z'
  · refine forall_small (P := fun c => isDigit (upper c) = isDigit c) (fun n hlow hhigh => ?_) hc
    interval_cases n <;> decide
  · rw [upper_of_not_small hc]

/-! ## Reading a text once -/

/-- The word characters of a text, in upper case where a separator stands right before them. What
stands before the text itself is told by `separated`. -/
def wordsAfter (separated : Bool) : List Char → List Char
  | [] => []
  | c :: cs =>
      if isWord c then (if separated then upper c else c) :: wordsAfter false cs
      else wordsAfter true cs

theorem wordsAfter_of_splitBy {cs word : List Char} {words : List (List Char)}
    (h : Text.splitBy (fun c => !isWord c) cs = word :: words) :
    wordsAfter false cs = word ++ words.flatMap capitalize ∧
      wordsAfter true cs = capitalize word ++ words.flatMap capitalize := by
  induction cs generalizing word words with
  | nil =>
      obtain ⟨rfl, rfl⟩ : [] = word ∧ [] = words := by simpa [Text.splitBy] using h
      exact ⟨rfl, rfl⟩
  | cons c cs ih =>
      obtain ⟨first, rest, hsplit⟩ :=
        List.exists_cons_of_ne_nil (Text.splitBy_ne_nil (fun c => !isWord c) cs)
      obtain ⟨hplain, hraised⟩ := ih hsplit
      by_cases hc : isWord c = true
      · obtain ⟨rfl, rfl⟩ : c :: first = word ∧ rest = words := by
          simpa [Text.splitBy, hc, hsplit] using h
        simp [wordsAfter, hc, hplain, capitalize]
      · obtain ⟨rfl, rfl⟩ : [] = word ∧ first :: rest = words := by
          simpa [Text.splitBy, hc, hsplit] using h
        simp [wordsAfter, hc, hraised, capitalize]

theorem joinWords_eq_wordsAfter (cs : List Char) : joinWords cs = wordsAfter false cs := by
  unfold joinWords
  split
  · rename_i hsplit
    exact absurd hsplit (Text.splitBy_ne_nil _ cs)
  · rename_i word words hsplit
    exact (wordsAfter_of_splitBy hsplit).1.symm

theorem length_wordsAfter (separated : Bool) (cs : List Char) :
    (wordsAfter separated cs).length = (cs.filter isWord).length := by
  induction cs generalizing separated with
  | nil => rfl
  | cons c cs ih => by_cases hc : isWord c = true <;> simp [wordsAfter, hc, ih]

theorem map_toLower_wordsAfter (separated : Bool) (cs : List Char) :
    (wordsAfter separated cs).map Char.toLower = (cs.filter isWord).map Char.toLower := by
  induction cs generalizing separated with
  | nil => rfl
  | cons c cs ih =>
      by_cases hc : isWord c = true <;> cases separated <;>
        simp [wordsAfter, hc, ih, toLower_upper]

/-- Whether the first of some characters is a digit. -/
def startsDigit (cs : List Char) : Bool := cs.head?.any isDigit

theorem startsDigit_wordsAfter (separated : Bool) (cs : List Char) :
    startsDigit (wordsAfter separated cs) = startsDigit (cs.filter isWord) := by
  induction cs generalizing separated with
  | nil => rfl
  | cons c cs ih =>
      by_cases hc : isWord c = true
      · cases separated <;> simp [startsDigit, wordsAfter, hc, isDigit_upper]
      · simp [wordsAfter, hc, ih]

/-- Whether a separator stands at the end of a text, or before all of it if it is empty. -/
def endsSeparated (separated : Bool) (cs : List Char) : Bool :=
  (cs.getLast?.map fun c => !isWord c).getD separated

theorem endsSeparated_cons (separated : Bool) (c : Char) (cs : List Char) :
    endsSeparated separated (c :: cs) = endsSeparated (!isWord c) cs := by
  cases cs with
  | nil => rfl
  | cons d cs => simp [endsSeparated, List.getLast?_cons]

theorem wordsAfter_append (separated : Bool) (before after : List Char) :
    wordsAfter separated (before ++ after) =
      wordsAfter separated before ++ wordsAfter (endsSeparated separated before) after := by
  induction before generalizing separated with
  | nil => rfl
  | cons c before ih =>
      rw [endsSeparated_cons]
      by_cases hc : isWord c = true <;> simp [wordsAfter, hc, ih]

/-- The place of a word character in a name is told by how many come before it. -/
theorem getElem?_wordsAfter (separated : Bool) {c : Char} (hc : isWord c = true)
    (before after : List Char) :
    (wordsAfter separated (before ++ c :: after))[(before.filter isWord).length]? =
      some (if endsSeparated separated before then upper c else c) := by
  rw [wordsAfter_append, ← length_wordsAfter separated before,
    List.getElem?_append_right (Nat.le_refl _), Nat.sub_self]
  simp [wordsAfter, hc]

/-! ## Names -/

/-- What stands in front of the word characters of a name. -/
def guardOf (cs : List Char) : List Char := if startsDigit cs then ['_'] else []

theorem sanitizeChars?_eq (cs : List Char) :
    sanitizeChars? cs =
      if cs.filter isWord = [] then none
      else some (guardOf (cs.filter isWord) ++ wordsAfter false cs) := by
  have hlength := length_wordsAfter false cs
  have hdigit := startsDigit_wordsAfter false cs
  unfold sanitizeChars?
  rw [joinWords_eq_wordsAfter, guardOf, ← hdigit]
  cases hwords : wordsAfter false cs with
  | nil =>
      rw [hwords, List.length_nil] at hlength
      rw [if_pos (List.eq_nil_of_length_eq_zero hlength.symm)]
  | cons c rest =>
      rw [hwords, List.length_cons] at hlength
      have hne : cs.filter isWord ≠ [] := List.ne_nil_of_length_eq_add_one hlength.symm
      rw [if_neg hne]
      by_cases hc : isDigit c = true <;> simp [startsDigit, hc]

theorem sanitize?_eq_none_iff {text : String} :
    sanitize? text = none ↔ ∀ c ∈ text.toList, isWord c = false := by
  rw [sanitize?, Option.map_eq_none_iff, sanitizeChars?_eq]
  by_cases h : text.toList.filter isWord = []
  · simp only [h, if_true, true_iff]
    simpa [List.filter_eq_nil_iff] using h
  · simp only [h, if_false, reduceCtorEq, false_iff]
    simpa [List.filter_eq_nil_iff] using h

theorem toList_of_sanitize? {text name : String} (h : sanitize? text = some name) :
    name.toList = guardOf (text.toList.filter isWord) ++ wordsAfter false text.toList := by
  obtain ⟨cs, hcs, rfl⟩ := Option.map_eq_some_iff.mp h
  rw [sanitizeChars?_eq] at hcs
  split at hcs
  · cases hcs
  · rw [String.toList_ofList, Option.some.inj hcs]

/-- A text has a name unless it is without word characters. The name is legal; apart from the
case of letters it is the word characters of the text, with an underscore in front if and only if
the first of them is a digit; and in upper case are put just those characters that come right
after a separator. The texts that are left as they are, and so all names, are the legal ones. -/
theorem name_of_every_text (text : String) :
    (sanitize? text = none ↔ ∀ c ∈ text.toList, isWord c = false) ∧
    (∀ name, sanitize? text = some name →
      legal name.toList = true ∧
      ∃ letters, name.toList = guardOf (text.toList.filter isWord) ++ letters ∧
        letters.map Char.toLower = (text.toList.filter isWord).map Char.toLower ∧
        ∀ before c after, text.toList = before ++ c :: after → isWord c = true →
          letters[(before.filter isWord).length]? =
            some (if endsSeparated false before then c.toUpper else c)) ∧
    (sanitize? text = some text ↔ legal text.toList = true) ∧
    (∀ name, sanitize? text = some name → sanitize? name = some name) := by
  refine ⟨sanitize?_eq_none_iff, ?_, ⟨legal_of_sanitize?, sanitize?_of_legal⟩, ?_⟩
  · intro name hname
    refine ⟨legal_of_sanitize? hname, wordsAfter false text.toList, toList_of_sanitize? hname,
      map_toLower_wordsAfter false text.toList, ?_⟩
    intro before c after hsplit hc
    rw [hsplit, getElem?_wordsAfter false hc, upper_eq_toUpper]
  · intro name hname
    exact sanitize?_of_legal (legal_of_sanitize? hname)

end RestGraph.Name
