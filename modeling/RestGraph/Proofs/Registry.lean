import Mathlib.Data.List.Perm.Subperm
import Std.Data.String.ToNat
import RestGraph.Name.Registry
import RestGraph.Proofs.Sanitize
import RestGraph.Proofs.Table

namespace RestGraph.Name.Registry

/-!
# Laws of the registry

A registry that arises from storing texts is coherent: names and texts are in one-to-one
correspondence, and each name is made of its text. Storing only adds pairs.
-/

/-! ## The least free number -/

theorem numbered_injective (base : String) {i j : Nat}
    (h : base ++ toString i = base ++ toString j) : i = j := by
  have hlist := congrArg String.toList h
  simp only [String.toList_append] at hlist
  exact Nat.repr_injective (String.toList_inj.mp (List.append_cancel_left hlist))

theorem le_freeSuffix (r : Registry) (base : String) (tries start : Nat) :
    start ≤ r.freeSuffix base tries start := by
  induction tries generalizing start with
  | zero => exact Nat.le_refl start
  | succ tries ih =>
      unfold freeSuffix
      split
      · exact (Nat.le_succ start).trans (ih (start + 1))
      · exact Nat.le_refl start

theorem contains_of_lt_freeSuffix (r : Registry) (base : String) {tries start n : Nat}
    (hstart : start ≤ n) (hn : n < r.freeSuffix base tries start) :
    r.contains (base ++ toString n) = true := by
  induction tries generalizing start with
  | zero => exact absurd hn (Nat.not_lt.mpr hstart)
  | succ tries ih =>
      unfold freeSuffix at hn
      split at hn
      · rename_i htaken
        rcases Nat.eq_or_lt_of_le hstart with rfl | hlt
        · exact htaken
        · exact ih hlt hn
      · exact absurd hn (Nat.not_lt.mpr hstart)

theorem freeSuffix_eq_of_contains (r : Registry) (base : String) (tries start : Nat)
    (h : r.contains (base ++ toString (r.freeSuffix base tries start)) = true) :
    r.freeSuffix base tries start = start + tries := by
  induction tries generalizing start with
  | zero => rfl
  | succ tries ih =>
      unfold freeSuffix at h ⊢
      split at h
      · rename_i htaken
        rw [if_pos htaken, ih (start + 1) h]
        omega
      · rename_i hfree
        exact absurd h hfree

theorem length_le_size (r : Registry) (base : String) (start tries : Nat)
    (h : ∀ n, start ≤ n → n < start + tries → r.contains (base ++ toString n) = true) :
    tries ≤ r.size := by
  let candidates := (List.range tries).map fun i => base ++ toString (start + i)
  have hnodup : candidates.Nodup := by
    refine List.nodup_range.map ?_
    intro i j hij
    exact Nat.add_left_cancel (numbered_injective base hij)
  have hsub : candidates ⊆ Table.keys r.texts := by
    intro name hname
    obtain ⟨i, hi, rfl⟩ := List.mem_map.mp hname
    have htaken := h (start + i) (Nat.le_add_right _ _)
      (Nat.add_lt_add_left (List.mem_range.mp hi) _)
    exact Table.mem_keys_iff.mpr (Table.contains_iff.mp htaken)
  have hlen := (List.subperm_of_subset hnodup hsub).length_le
  simpa [candidates, Table.keys, size] using hlen

/-- The search for a number ends at a free one when there are more tries than names. -/
theorem contains_freeSuffix (r : Registry) (base : String) {tries : Nat} (start : Nat)
    (h : r.size < tries) :
    r.contains (base ++ toString (r.freeSuffix base tries start)) = false := by
  apply Bool.eq_false_iff.mpr
  intro htaken
  have hend := freeSuffix_eq_of_contains r base tries start htaken
  have hall : ∀ n, start ≤ n → n < start + tries → r.contains (base ++ toString n) = true :=
    fun n hstart hn => contains_of_lt_freeSuffix r base hstart (by rwa [hend])
  exact absurd (length_le_size r base start tries hall) (Nat.not_le.mpr h)

/-! ## What storing a text can do -/

/-- The cases of storing a text: what was known before, and what is then given. -/
inductive Outcome (r : Registry) (text : String) :
    Except StoreFault (String × Registry) → Prop
  | known {name : String} (h : r.name? text = some name) : Outcome r text (.ok (name, r))
  | unusable (new : r.name? text = none) (h : sanitize? text = none) :
      Outcome r text (.error (.unusable text))
  | plain {name : String} (new : r.name? text = none) (made : sanitize? text = some name)
      (free : r.text? name = none) : Outcome r text (.ok (name, r.add name text))
  | taken {name holder : String} (new : r.name? text = none) (made : sanitize? text = some name)
      (held : r.text? name = some holder) (strict : r.strict = true) :
      Outcome r text (.error (.taken name text holder))
  | numbered {name holder : String} {n : Nat} (new : r.name? text = none)
      (made : sanitize? text = some name) (held : r.text? name = some holder)
      (lenient : r.strict = false) (two : 2 ≤ n) (free : r.text? (name ++ toString n) = none)
      (least : ∀ m, 2 ≤ m → m < n → r.contains (name ++ toString m) = true) :
      Outcome r text (.ok (name ++ toString n, r.add (name ++ toString n) text))

theorem store_outcome (r : Registry) (text : String) : Outcome r text (r.store text) := by
  unfold store
  cases hnew : Table.get? r.names text with
  | some name => exact .known hnew
  | none =>
      cases hmade : sanitize? text with
      | none => exact .unusable hnew hmade
      | some name =>
          cases hheld : Table.get? r.texts name with
          | none =>
              simp only [hheld]
              exact .plain hnew hmade hheld
          | some holder =>
              by_cases hstrict : r.strict = true
              · simp only [hheld, hstrict, if_true]
                exact .taken hnew hmade hheld hstrict
              · simp only [hheld, hstrict]
                have hfree := contains_freeSuffix r name 2 (Nat.lt_succ_self r.size)
                exact .numbered hnew hmade hheld (Bool.not_eq_true _ ▸ hstrict)
                  (le_freeSuffix r name _ 2) (Table.contains_eq_false_iff.mp hfree)
                  fun m hm hlt => contains_of_lt_freeSuffix r name hm hlt

/-! ## Coherence -/

@[simp] theorem text?_add (r : Registry) (name text q : String) :
    (r.add name text).text? q = if name = q then some text else r.text? q := by
  simp [add, text?]

@[simp] theorem name?_add (r : Registry) (name text q : String) :
    (r.add name text).name? q = if text = q then some name else r.name? q := by
  simp [add, name?]

/-- A name that a text may get: the one made of it, with a number unless the registry is
strict. -/
def Suits (strict : Bool) (text name : String) : Prop :=
  ∃ base, sanitize? text = some base ∧
    (name = base ∨ strict = false ∧ ∃ n : Nat, name = base ++ toString n)

structure Coherent (r : Registry) : Prop where
  inverse : ∀ name text, r.text? name = some text ↔ r.name? text = some name
  suits : ∀ name text, r.name? text = some name → Suits r.strict text name

theorem isWord_of_mem_toString {n : Nat} : ∀ c ∈ (toString n).toList, isWord c = true := by
  intro c hc
  rw [Nat.toString_eq_ofList_toDigits, String.toList_ofList] at hc
  have hdigit : c.isDigit = true :=
    Nat.isDigit_of_mem_toDigits (Nat.zero_lt_succ 9) (Nat.le_refl 10) hc
  apply isWord_of_isDigit
  rw [isDigit_iff]
  simpa [Char.isDigit, UInt32.le_iff_toNat_le] using hdigit

theorem Suits.legal {strict : Bool} {text name : String} (h : Suits strict text name) :
    legal name.toList = true := by
  obtain ⟨base, hbase, rfl | ⟨-, n, rfl⟩⟩ := h
  · exact legal_of_sanitize? hbase
  · rw [String.toList_append]
    exact legal_append (legal_of_sanitize? hbase) (List.all_eq_true.mpr isWord_of_mem_toString)

theorem coherent_empty (strict : Bool) : (empty strict).Coherent where
  inverse name text := by simp [empty, text?, name?]
  suits name text h := by simp [empty, name?] at h

theorem Coherent.add {r : Registry} (h : r.Coherent) {name text : String}
    (hname : r.text? name = none) (htext : r.name? text = none)
    (hsuits : Suits r.strict text name) : (r.add name text).Coherent where
  inverse q t := by
    have hq : r.text? name = some t ↔ r.name? t = some name := h.inverse name t
    have ht : r.text? q = some text ↔ r.name? text = some q := h.inverse q text
    have hqt := h.inverse q t
    rw [text?_add, name?_add]
    grind
  suits q t hq := by
    rw [name?_add] at hq
    split at hq
    · rename_i heq
      obtain rfl : name = q := Option.some.inj hq
      exact heq ▸ hsuits
    · exact h.suits q t hq

theorem Coherent.store {r r' : Registry} (h : r.Coherent) {text name : String}
    (hstore : r.store text = .ok (name, r')) : r'.Coherent := by
  have hout := store_outcome r text
  rw [hstore] at hout
  cases hout with
  | known => exact h
  | plain new made free => exact h.add free new ⟨name, made, .inl rfl⟩
  | @numbered base holder n new made held lenient two free least =>
      exact h.add free new ⟨base, made, .inr ⟨lenient, n, rfl⟩⟩

theorem Coherent.name_of_strict {r : Registry} (h : r.Coherent) (hstrict : r.strict = true)
    {text name : String} (hname : r.name? text = some name) : sanitize? text = some name := by
  obtain ⟨base, hbase, rfl | ⟨hlenient, -⟩⟩ := h.suits name text hname
  · exact hbase
  · rw [hstrict] at hlenient
    cases hlenient

theorem Coherent.text_injective {r : Registry} (h : r.Coherent) {name text text' : String}
    (ht : r.name? text = some name) (ht' : r.name? text' = some name) : text = text' := by
  have heq := ((h.inverse name text).mpr ht).symm.trans ((h.inverse name text').mpr ht')
  exact Option.some.inj heq

/-! ## Growth -/

structure Grows (r r' : Registry) : Prop where
  strict : r'.strict = r.strict
  text : ∀ name text, r.text? name = some text → r'.text? name = some text
  name : ∀ text name, r.name? text = some name → r'.name? text = some name

theorem Grows.refl (r : Registry) : Grows r r := ⟨rfl, fun _ _ h => h, fun _ _ h => h⟩

theorem Grows.trans {r r' r'' : Registry} (h : Grows r r') (h' : Grows r' r'') : Grows r r'' where
  strict := h'.strict.trans h.strict
  text name text hr := h'.text name text (h.text name text hr)
  name text name hr := h'.name text name (h.name text name hr)

theorem grows_add {r : Registry} {name text : String} (hname : r.text? name = none)
    (htext : r.name? text = none) : Grows r (r.add name text) where
  strict := rfl
  text q t h := by
    have hne : name ≠ q := by
      rintro rfl
      rw [hname] at h
      cases h
    simpa [hne] using h
  name t q h := by
    have hne : text ≠ t := by
      rintro rfl
      rw [htext] at h
      cases h
    simpa [hne] using h

theorem grows_store {r r' : Registry} {text name : String}
    (hstore : r.store text = .ok (name, r')) : Grows r r' ∧ r'.name? text = some name := by
  have hout := store_outcome r text
  rw [hstore] at hout
  cases hout with
  | known h => exact ⟨Grows.refl r, h⟩
  | plain new made free => exact ⟨grows_add free new, by simp⟩
  | numbered new made held lenient two free least => exact ⟨grows_add free new, by simp⟩

end RestGraph.Name.Registry
