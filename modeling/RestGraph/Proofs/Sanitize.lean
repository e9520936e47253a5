import Mathlib.Tactic.IntervalCases
import RestGraph.Name.Sanitize

namespace RestGraph.Text

theorem not_of_mem_splitBy {p : Char → Bool} {cs piece : List Char} (h : piece ∈ splitBy p cs) :
    ∀ c ∈ piece, p c = false := by
  induction cs generalizing piece with
  | nil =>
      obtain rfl : piece = [] := by simpa [splitBy] using h
      simp
  | cons d ds ih =>
      unfold splitBy at h
      split at h
      · rcases List.mem_cons.mp h with rfl | h
        · simp
        · exact ih h
      · rename_i hd
        split at h
        · obtain rfl : piece = [d] := by simpa using h
          simpa using hd
        · rename_i first rest heq
          rcases List.mem_cons.mp h with rfl | h
          · intro c hc
            rcases List.mem_cons.mp hc with rfl | hc
            · simpa using hd
            · exact ih (by rw [heq]; exact List.mem_cons_self) c hc
          · exact ih (by rw [heq]; exact List.mem_cons_of_mem _ h)

theorem splitBy_of_forall_not {p : Char → Bool} {cs : List Char} (h : ∀ c ∈ cs, p c = false) :
    splitBy p cs = [cs] := by
  induction cs with
  | nil => rfl
  | cons d ds ih =>
      have hd : p d = false := h d List.mem_cons_self
      have hds := ih fun c hc => h c (List.mem_cons_of_mem _ hc)
      simp [splitBy, hd, hds]

theorem mapM_eq_none_iff {α β : Type} {g : α → Option β} {as : List α} :
    as.mapM g = none ↔ ∃ a ∈ as, g a = none := by
  induction as with
  | nil => simp
  | cons a as ih =>
      simp only [List.mapM_cons, List.mem_cons, exists_eq_or_imp, ← ih]
      cases g a with
      | none => simp
      | some b => cases as.mapM g <;> simp

end RestGraph.Text

namespace RestGraph.Name

/-!
# Laws of sanitizing

What a text is turned into is a legal name, and a legal name is left as it is.
-/

theorem isLetter_iff {c : Char} : isLetter c = true ↔
    (97 ≤ c.toNat ∧ c.toNat ≤ 122) ∨ (65 ≤ c.toNat ∧ c.toNat ≤ 90) := by
  simp [isLetter, Char.le_def, UInt32.le_iff_toNat_le]

theorem isDigit_iff {c : Char} : isDigit c = true ↔ 48 ≤ c.toNat ∧ c.toNat ≤ 57 := by
  simp [isDigit, Char.le_def, UInt32.le_iff_toNat_le]

theorem isWord_of_isStart {c : Char} (h : isStart c = true) : isWord c = true := by
  rcases Bool.or_eq_true_iff.mp h with h | h <;> simp [isWord, h]

theorem isWord_of_isDigit {c : Char} (h : isDigit c = true) : isWord c = true := by
  simp [isWord, h]

theorem isDigit_of_isStart {c : Char} (h : isStart c = true) : isDigit c = false := by
  apply Bool.eq_false_iff.mpr
  rw [Ne, isDigit_iff]
  rcases Bool.or_eq_true_iff.mp h with h | h
  · rw [isLetter_iff] at h
    omega
  · rw [eq_of_beq h]
    decide

/-- A property of all small letters, checked one by one. -/
theorem forall_small {P : Char → Prop} (h : ∀ n, 97 ≤ n → n ≤ 122 → P (Char.ofNat n)) {c : Char}
    (hc : 'a' ≤ c ∧ c ≤ 'z') : P c := by
  obtain ⟨hlow, hhigh⟩ : 97 ≤ c.toNat ∧ c.toNat ≤ 122 := by
    simpa [Char.le_def, UInt32.le_iff_toNat_le] using hc
  have hP := h c.toNat hlow hhigh
  rwa [Char.ofNat_toNat] at hP

theorem upper_of_not_small {c : Char} (h : ¬ ('a' ≤ c ∧ c ≤ 'z')) : upper c = c := by
  rw [upper, if_neg]
  simpa using h

theorem isWord_upper {c : Char} (h : isWord c = true) : isWord (upper c) = true := by
  by_cases hc : 'a' ≤ c ∧ c ≤ 'z'
  · refine forall_small (P := fun c => isWord (upper c) = true) (fun n hlow hhigh => ?_) hc
    interval_cases n <;> decide
  · rwa [upper_of_not_small hc]

theorem isWord_of_mem_joinWords {cs : List Char} : ∀ c ∈ joinWords cs, isWord c = true := by
  have hpieces : ∀ piece ∈ Text.splitBy (fun c => !isWord c) cs, ∀ c ∈ piece, isWord c = true := by
    intro piece hpiece c hc
    simpa using Text.not_of_mem_splitBy hpiece c hc
  have hcapital : ∀ piece ∈ Text.splitBy (fun c => !isWord c) cs,
      ∀ c ∈ capitalize piece, isWord c = true := by
    intro piece hpiece
    cases piece with
    | nil => simp [capitalize]
    | cons d ds =>
        have hword := hpieces _ hpiece
        simp only [capitalize, List.mem_cons, forall_eq_or_imp] at hword ⊢
        exact ⟨isWord_upper hword.1, hword.2⟩
  unfold joinWords
  cases hsplit : Text.splitBy (fun c => !isWord c) cs with
  | nil => simp
  | cons word words =>
      intro c hc
      rcases List.mem_append.mp hc with hc | hc
      · exact hpieces word (by simp [hsplit]) c hc
      · obtain ⟨piece, hpiece, hc⟩ := List.mem_flatMap.mp hc
        exact hcapital piece (by simp [hsplit, hpiece]) c hc

theorem legal_of_sanitizeChars? {cs name : List Char} (h : sanitizeChars? cs = some name) :
    legal name = true := by
  have hword : ∀ c ∈ joinWords cs, isWord c = true := isWord_of_mem_joinWords
  unfold sanitizeChars? at h
  cases hjoin : joinWords cs with
  | nil => simp [hjoin] at h
  | cons c rest =>
      rw [hjoin] at hword
      simp only [hjoin, Option.some.injEq] at h
      have hc : isWord c = true := hword c List.mem_cons_self
      have hrest : rest.all isWord = true :=
        List.all_eq_true.mpr fun d hd => hword d (List.mem_cons_of_mem _ hd)
      by_cases hdigit : isDigit c = true
      · obtain rfl : '_' :: c :: rest = name := by simpa [hdigit] using h
        have hunder : isStart '_' = true := by decide
        simp [legal, hunder, hc, hrest]
      · obtain rfl : c :: rest = name := by simpa [hdigit] using h
        have hstart : isStart c = true := by grind [isWord, isStart]
        simp [legal, hstart, hrest]

theorem legal_of_sanitize? {text name : String} (h : sanitize? text = some name) :
    legal name.toList = true := by
  obtain ⟨cs, hcs, rfl⟩ := Option.map_eq_some_iff.mp h
  simpa using legal_of_sanitizeChars? hcs

theorem isWord_of_legal {name : List Char} (h : legal name = true) :
    ∀ c ∈ name, isWord c = true := by
  cases name with
  | nil => simp
  | cons c cs =>
      obtain ⟨hc, hcs⟩ : isStart c = true ∧ cs.all isWord = true := by simpa [legal] using h
      intro d hd
      rcases List.mem_cons.mp hd with rfl | hd
      · exact isWord_of_isStart hc
      · exact List.all_eq_true.mp hcs d hd

theorem sanitize?_of_legal {name : String} (h : legal name.toList = true) :
    sanitize? name = some name := by
  have hsplit : Text.splitBy (fun c => !isWord c) name.toList = [name.toList] :=
    Text.splitBy_of_forall_not fun c hc => by simpa using isWord_of_legal h c hc
  have hjoin : joinWords name.toList = name.toList := by simp [joinWords, hsplit]
  have hchars : sanitizeChars? name.toList = some name.toList := by
    unfold sanitizeChars?
    rw [hjoin]
    cases hname : name.toList with
    | nil => simp [hname, legal] at h
    | cons c cs =>
        have hc : isStart c = true := by
          rw [hname] at h
          exact (Bool.and_eq_true_iff.mp h).1
        simp [isDigit_of_isStart hc]
  simp [sanitize?, hchars]

theorem legal_append {name tail : List Char} (h : legal name = true)
    (htail : tail.all isWord = true) : legal (name ++ tail) = true := by
  cases name with
  | nil => simp [legal] at h
  | cons c cs =>
      obtain ⟨hc, hcs⟩ : isStart c = true ∧ cs.all isWord = true := by simpa [legal] using h
      simp only [List.cons_append, legal, hc, List.all_append, hcs, htail, Bool.and_self]

end RestGraph.Name
