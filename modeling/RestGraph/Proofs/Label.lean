import RestGraph.Value.Access

namespace RestGraph

/-!
# Laws of labels
-/

theorem Value.text?_eq_some_iff {v : Value} {s : String} : v.text? = some s ↔ v = .text s := by
  cases v <;> simp [Value.text?]

theorem Value.key_eq_text_iff {v : Value} {s : String} : v.key = .text s ↔ v = .text s := by
  cases v with
  | num x =>
      simp only [Value.key]
      split <;> simp
  | _ => simp [Value.key]

theorem Value.label?_eq_some_iff {v : Value} {l : Label} : v.label? = some l ↔ l.value = v := by
  unfold Value.label?
  constructor
  · intro h
    split at h
    · cases h
      rfl
    · cases h
  · rintro rfl
    rw [dif_pos l.single]

theorem Value.label?_of_labelOf {v : Value} {l : Label} (h : v.labelOf = .ok l) :
    v.label? = some l := by
  unfold Value.labelOf at h
  cases hfound : v.label? with
  | none => simp [hfound] at h
  | some k => simpa [hfound] using h

@[simp] theorem Label.text?_ofText (s : String) : (Label.ofText s).text? = some s := rfl

theorem Label.eq_ofText_iff {l : Label} {s : String} : l = .ofText s ↔ l.value = .text s := by
  constructor
  · rintro rfl
    rfl
  · intro hvalue
    cases l
    cases hvalue
    rfl

theorem Label.beq_ofText_iff {l : Label} {s : String} :
    (l == .ofText s) = true ↔ l = .ofText s := by
  rw [Label.beq_iff, Label.eq_ofText_iff]
  exact Value.key_eq_text_iff

theorem Label.ofText_injective {s t : String} (h : Label.ofText s = .ofText t) : s = t :=
  Value.text.inj (congrArg Label.value h)

end RestGraph
