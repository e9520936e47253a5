import Mathlib.Data.List.Forall2
import Mathlib.Data.List.TakeWhile
import RestGraph.Config.Placeholder
import RestGraph.Proofs.Label

namespace RestGraph.Config

/-!
# Laws of placeholders

A text is expanded if each of its dollar signs, from left to right, begins a doubled sign or a
placeholder whose variable is set. What it is expanded to is then determined: all other
characters stay, and values of variables are taken over as they are. A text whose dollar signs
are doubled is expanded to the text itself.
-/

/-! ## Results of steps -/

theorem map_eq_ok_iff {ε α β : Type} {x : Except ε α} {f : α → β} {b : β} :
    x.map f = .ok b ↔ ∃ a, x = .ok a ∧ f a = b := by
  cases x with
  | error e => simp [Except.map]
  | ok a => simp [Except.map]

theorem bind_eq_ok_iff {ε α β : Type} {x : Except ε α} {f : α → Except ε β} {b : β} :
    x >>= f = .ok b ↔ ∃ a, x = .ok a ∧ f a = .ok b := by
  cases x with
  | error e => simp [bind, Except.bind]
  | ok a => simp [bind, Except.bind]

theorem bind_eq_error_iff {ε α β : Type} {x : Except ε α} {f : α → Except ε β} {e : ε} :
    x >>= f = .error e ↔ x = .error e ∨ ∃ a, x = .ok a ∧ f a = .error e := by
  cases x with
  | error e => simp [bind, Except.bind]
  | ok a => simp [bind, Except.bind]

/-! ## Names -/

/-- An ASCII identifier. -/
def IsName (name : List Char) : Prop :=
  ∃ c cs, name = c :: cs ∧ isNameStart c = true ∧ ∀ d ∈ cs, isNamePart d = true

theorem takeName_eq_some_iff {s name rest : List Char} :
    takeName s = some (name, rest) ↔
      IsName name ∧ s = name ++ rest ∧ ∀ c ∈ rest.head?, isNamePart c = false := by
  constructor
  · intro h
    unfold takeName at h
    split at h
    · rename_i c cs
      split at h
      · rename_i hstart
        obtain ⟨rfl, rfl⟩ := Prod.mk.inj (Option.some.inj h)
        refine ⟨⟨c, _, rfl, hstart, fun d hd => List.mem_takeWhile_imp hd⟩, ?_, ?_⟩
        · rw [List.cons_append, List.takeWhile_append_dropWhile]
        · intro d hd
          have hnot := List.head?_dropWhile_not isNamePart cs
          rw [Option.mem_def.mp hd] at hnot
          simpa using hnot
      · cases h
    · cases h
  · rintro ⟨⟨c, cs, rfl, hstart, hparts⟩, rfl, hend⟩
    rw [List.cons_append, takeName, if_pos hstart, List.takeWhile_append_of_pos hparts,
      List.dropWhile_append_of_pos hparts]
    cases rest with
    | nil => simp
    | cons d rest => simp [hend d rfl]

/-- The name of a placeholder stands at the front, the dollar sign being taken off: bare, and
then as long as possible, or in braces. -/
inductive Names : List Char → List Char → List Char → Prop where
  | bare {name rest : List Char} (hname : IsName name)
      (hend : ∀ c ∈ rest.head?, isNamePart c = false) : Names (name ++ rest) name rest
  | braced {name rest : List Char} (hname : IsName name) :
      Names ('\x7b' :: (name ++ '\x7d' :: rest)) name rest

theorem placeholder?_eq_some_iff {s name rest : List Char} :
    placeholder? s = some (name, rest) ↔ Names s name rest := by
  constructor
  · intro h
    unfold placeholder? at h
    split at h
    · split at h
      · rename_i taken
        obtain ⟨rfl, rfl⟩ := Prod.mk.inj (Option.some.inj h)
        obtain ⟨hname, rfl, -⟩ := takeName_eq_some_iff.mp taken
        exact .braced hname
      · cases h
    · obtain ⟨hname, rfl, hend⟩ := takeName_eq_some_iff.mp h
      exact .bare hname hend
  · intro h
    cases h with
    | bare hname hend =>
        have htaken := takeName_eq_some_iff.mpr ⟨hname, rfl, hend⟩
        obtain ⟨c, cs, rfl, hstart, -⟩ := hname
        unfold placeholder?
        split
        · rename_i heq
          obtain ⟨rfl, -⟩ := List.cons.inj heq
          cases hstart
        · exact htaken
    | @braced name rest hname =>
        have hend : ∀ c ∈ ('\x7d' :: rest).head?, isNamePart c = false := by
          intro c hc
          obtain rfl := Option.some.inj hc
          decide
        have htaken := takeName_eq_some_iff.mpr ⟨hname, rfl, hend⟩
        simp only [placeholder?, htaken]

/-! ## Expanding -/

/-- What a text is expanded to. -/
inductive Expands (env : Environment) : List Char → List Char → Prop where
  | nil : Expands env [] []
  | dollar {s r : List Char} (h : Expands env s r) : Expands env ('$' :: '$' :: s) ('$' :: r)
  | value {s name rest r : List Char} {text : String} (hname : Names s name rest)
      (hset : Table.get? env (String.ofList name) = some text) (h : Expands env rest r) :
      Expands env ('$' :: s) (text.toList ++ r)
  | char {c : Char} {s r : List Char} (hc : c ≠ '$') (h : Expands env s r) :
      Expands env (c :: s) (c :: r)

variable {env : Environment}

theorem expands_of_expandChars {s r : List Char} (h : expandChars env s = .ok r) :
    Expands env s r := by
  fun_induction expandChars env s generalizing r with
  | case1 =>
      obtain rfl := Except.ok.inj h
      exact .nil
  | case2 s ih =>
      obtain ⟨t, ht, rfl⟩ := map_eq_ok_iff.mp h
      exact .dollar (ih ht)
  | case3 s _ hnone => cases h
  | case4 s hs name rest hname hsmall hunset => cases h
  | case5 s hs name rest hname hsmall value hset ih =>
      obtain ⟨t, ht, rfl⟩ := map_eq_ok_iff.mp h
      exact .value (placeholder?_eq_some_iff.mp hname) hset (ih ht)
  | case6 c s hdouble hdollar ih =>
      obtain ⟨t, ht, rfl⟩ := map_eq_ok_iff.mp h
      exact .char (fun hc => hdollar hc) (ih ht)

/-- A doubled sign begins no placeholder, so it does not matter that it is looked for first. -/
theorem not_names_dollar {s name rest : List Char} : ¬ Names ('$' :: s) name rest := by
  intro h
  have hname := placeholder?_eq_some_iff.mpr h
  simp [placeholder?, takeName, isNameStart] at hname

/-- The induction is on the derivation; at each of its steps the loop can take no other case. -/
theorem expandChars_of_expands {s r : List Char} (h : Expands env s r) :
    expandChars env s = .ok r := by
  induction h with
  | nil => rw [expandChars]
  | dollar h ih => rw [expandChars, ih]; rfl
  | @value s name rest r value hname hset h ih =>
      have hsome := placeholder?_eq_some_iff.mpr hname
      rw [expandChars]
      · split
        · simp_all
        · rename_i hsome'
          obtain ⟨rfl, rfl⟩ := Prod.mk.inj (Option.some.inj (hsome.symm.trans hsome'))
          rw [hset, ih]
          rfl
      · rintro t rfl
        exact not_names_dollar hname
  | char hc h ih =>
      rw [expandChars, ih]
      · rfl
      · intro t hdollar _
        exact hc hdollar
      · exact hc

theorem expandChars_eq_ok_iff {s r : List Char} : expandChars env s = .ok r ↔ Expands env s r :=
  ⟨expands_of_expandChars, expandChars_of_expands⟩

theorem Expands.unique {s r r' : List Char} (h : Expands env s r) (h' : Expands env s r') :
    r = r' :=
  Except.ok.inj ((expandChars_of_expands h).symm.trans (expandChars_of_expands h'))

/-- A text with two dollar signs for each of its own. -/
def doubled (s : List Char) : List Char := s.flatMap fun c => if c == '$' then ['$', '$'] else [c]

theorem expands_doubled (s : List Char) : Expands env (doubled s) s := by
  induction s with
  | nil => exact .nil
  | cons c s ih =>
      rw [doubled, List.flatMap_cons]
      split
      · rename_i hc
        obtain rfl := eq_of_beq hc
        exact .dollar ih
      · rename_i hc
        exact .char (by simpa using hc) ih

/-! ## Texts and values -/

theorem expand_eq_ok_iff {text result : String} :
    expand env text = .ok result ↔ Expands env text.toList result.toList := by
  rw [← expandChars_eq_ok_iff, expand]
  split
  · rename_i cs hcs
    rw [hcs, Except.ok.injEq, Except.ok.injEq, ← String.toList_inj, String.toList_ofList]
  · rename_i hunset
    simp [hunset]
  · rename_i hinvalid
    simp [hinvalid]

theorem expand_ne_unwritable (text : String) : expand env text ≠ .error .unwritable := by
  unfold expand
  split <;> simp

/-- The text that a value becomes: text is expanded, and other values are written out. -/
inductive Becomes (env : Environment) : Value → String → Prop where
  | text {s r : String} (h : Expands env s.toList r.toList) : Becomes env (.text s) r
  | plain {v : Value} (h : v.text? = none) (written : v.isWritable = true) : Becomes env v v.plain

theorem expandValue_of_no_text {v : Value} (h : v.text? = none) :
    expandValue env v = if v.isWritable then .ok v.plain else .error .unwritable := by
  cases v with
  | text s => cases h
  | _ => rfl

theorem expandValue_eq_ok_iff {v : Value} {r : String} :
    expandValue env v = .ok r ↔ Becomes env v r := by
  cases htext : v.text? with
  | some s =>
      obtain rfl := Value.text?_eq_some_iff.mp htext
      constructor
      · exact fun h => .text (expand_eq_ok_iff.mp h)
      · intro h
        cases h with
        | text h => exact expand_eq_ok_iff.mpr h
        | plain h => cases h
  | none =>
      rw [expandValue_of_no_text htext]
      constructor
      · intro h
        split at h
        · rename_i hwritten
          obtain rfl := Except.ok.inj h
          exact .plain htext hwritten
        · cases h
      · intro h
        cases h with
        | text h => cases htext
        | plain _ hwritten => exact if_pos hwritten

/-- A value that cannot be written becomes nothing, and a text always can be. -/
theorem expandValue_eq_unwritable_iff {v : Value} :
    expandValue env v = .error .unwritable ↔ v.isWritable = false := by
  cases htext : v.text? with
  | some s =>
      obtain rfl := Value.text?_eq_some_iff.mp htext
      simp [show expandValue env (.text s) = expand env s from rfl, expand_ne_unwritable]
  | none =>
      rw [expandValue_of_no_text htext]
      split <;> simp_all

theorem expandTable_eq_ok_iff {es : List (String × Value)} {t : Table String String} :
    expandTable env es = .ok t ↔
      List.Forall₂ (fun e e' => e'.1 = e.1 ∧ Becomes env e.2 e'.2) es t := by
  induction es generalizing t with
  | nil => simp [expandTable, eq_comm]
  | cons e es ih =>
      rw [expandTable, List.forall₂_cons_left_iff, bind_eq_ok_iff]
      constructor
      · rintro ⟨text, htext, hentries⟩
        obtain ⟨rest, hrest, hcons⟩ := bind_eq_ok_iff.mp hentries
        obtain rfl := Except.ok.inj hcons
        exact ⟨(e.1, text), rest, ⟨rfl, expandValue_eq_ok_iff.mp htext⟩, ih.mp hrest, rfl⟩
      · rintro ⟨⟨name, text⟩, rest, ⟨rfl, htext⟩, hrest, rfl⟩
        refine ⟨text, expandValue_eq_ok_iff.mpr htext, bind_eq_ok_iff.mpr ⟨rest, ?_, rfl⟩⟩
        exact ih.mpr hrest

end RestGraph.Config
