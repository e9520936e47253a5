import RestGraph.Proofs.Faithful
import RestGraph.Proofs.Change

namespace RestGraph.Graph

open Build

/-!
# Making enumerations

An enumeration has one member for each literal, and is refused for the first literal whose
name another one has already or that cannot be written. Only an enumeration that is made is kept.
-/

/-! ## Names of members -/

theorem memberOf_of_sanitize? {text name : String} (h : Name.sanitize? text = some name) :
    memberOf text = name ∧ name ∉ literalNames ∨
      name ∈ literalNames ∧ memberOf text = String.ofList (name.toList.map Name.upper) := by
  unfold memberOf
  by_cases hmem : name ∈ literalNames
  · right
    simp [h, hmem]
  · left
    simp [h, hmem]

/-- Whatever the text of a literal, its member has a legal name. -/
theorem legal_memberOf (text : String) : Name.legal (memberOf text).toList = true := by
  cases hmade : Name.sanitize? text with
  | none =>
      simp only [memberOf, hmade]
      decide
  | some name =>
      rcases memberOf_of_sanitize? hmade with ⟨hname, -⟩ | ⟨hmem, hname⟩
      · rw [hname]
        exact Name.legal_of_sanitize? hmade
      · rw [hname]
        simp only [literalNames, List.mem_cons, List.not_mem_nil, or_false] at hmem
        rcases hmem with rfl | rfl | rfl <;> decide

theorem memberOf_not_mem_literalNames (text : String) : memberOf text ∉ literalNames := by
  cases hmade : Name.sanitize? text with
  | none =>
      simp only [memberOf, hmade]
      decide
  | some name =>
      rcases memberOf_of_sanitize? hmade with ⟨hname, hnot⟩ | ⟨hmem, hname⟩
      · rwa [hname]
      · rw [hname]
        simp only [literalNames, List.mem_cons, List.not_mem_nil, or_false] at hmem
        rcases hmem with rfl | rfl | rfl <;> decide

/-! ## Telling members apart -/

def membersOf (vs : List Value) : Table String Value := vs.map fun v => (writtenName v, v)

theorem keys_membersOf (vs : List Value) : Table.keys (membersOf vs) = vs.map writtenName := by
  simp [Table.keys, membersOf, Function.comp_def]

theorem get?_membersOf {vs : List Value} {q : String} {v : Value}
    (h : Table.get? (membersOf vs) q = some v) : v ∈ vs ∧ writtenName v = q := by
  obtain ⟨before, k, after, hsplit, hk, -⟩ := Table.exists_append_of_get? h
  have hmem : (k, v) ∈ membersOf vs := by simp [hsplit]
  obtain ⟨w, hw, hpair⟩ := List.mem_map.mp hmem
  obtain ⟨rfl, rfl⟩ := Prod.mk.inj hpair
  exact ⟨hw, eq_of_beq hk⟩

/-- The literals can be written and have different names. -/
structure Apart (vs : List Value) : Prop where
  writable : ∀ v ∈ vs, v.isWritable = true
  distinct : (vs.map writtenName).Nodup

/-- The later literal is the first one whose name is taken, and the earlier one has that name. -/
structure Meet (vs : List Value) (first second : Value) : Prop where
  sameName : writtenName first = writtenName second
  split : ∃ before after, vs = before ++ second :: after ∧ first ∈ before ∧ Apart before

/-- The literal is the first one that cannot be written, and no two meet before it. -/
structure Unwritten (vs : List Value) (v : Value) : Prop where
  unwritable : v.isWritable = false
  split : ∃ before after, vs = before ++ v :: after ∧ Apart before

theorem Meet.not_apart {vs : List Value} {first second : Value} (h : Meet vs first second) :
    ¬ Apart vs := by
  obtain ⟨hname, before, after, rfl, hfirst, -⟩ := h
  rintro ⟨-, hdistinct⟩
  rw [List.map_append, List.map_cons] at hdistinct
  have hapart := (List.nodup_append.mp hdistinct).2.2
  exact hapart _ (List.mem_map_of_mem hfirst) _ List.mem_cons_self hname

theorem Unwritten.not_apart {vs : List Value} {v : Value} (h : Unwritten vs v) : ¬ Apart vs := by
  obtain ⟨hlong, before, after, rfl, -⟩ := h
  rintro ⟨hwritable, -⟩
  have hv := hwritable v (by simp)
  rw [hlong] at hv
  cases hv

/-- The members that are found for literals of different names go before all further ones. -/
theorem membersFrom_outcome (name : String) {before : List Value} (vs : List Value)
    (hbefore : Apart before) :
    (Apart (before ++ vs) ∧
      membersFrom name (membersOf before) vs = .ok (membersOf (before ++ vs))) ∨
    (∃ first second, Meet (before ++ vs) first second ∧
      membersFrom name (membersOf before) vs =
        .error (.enumClash name first second (writtenName second))) ∨
    ∃ v, Unwritten (before ++ vs) v ∧
      membersFrom name (membersOf before) vs = .error (.malformed .badContent) := by
  induction vs generalizing before with
  | nil =>
      rw [List.append_nil]
      exact .inl ⟨hbefore, rfl⟩
  | cons v vs ih =>
      rw [membersFrom_cons]
      by_cases hwritable : v.isWritable = true
      · rw [if_pos hwritable]
        cases hfound : Table.get? (membersOf before) (writtenName v) with
        | some first =>
            obtain ⟨hfirst, hname⟩ := get?_membersOf hfound
            exact .inr (.inl ⟨first, v, ⟨hname, before, vs, rfl, hfirst, hbefore⟩, rfl⟩)
        | none =>
            have hnew : writtenName v ∉ before.map writtenName := by
              rw [← keys_membersOf]
              exact Table.get?_eq_none_iff.mp hfound
            have hnext : Apart (before ++ [v]) := by
              constructor
              · exact List.forall_mem_append.mpr
                  ⟨hbefore.writable, List.forall_mem_singleton.mpr hwritable⟩
              · rw [List.map_append, List.nodup_append_comm]
                exact List.nodup_cons.mpr ⟨hnew, hbefore.distinct⟩
            have hinsert : Table.insert (membersOf before) (writtenName v) v =
                membersOf (before ++ [v]) := by
              rw [Table.insert_of_not_mem (by rwa [keys_membersOf])]
              simp [membersOf]
            simpa [hinsert] using ih hnext
      · rw [if_neg hwritable]
        exact .inr (.inr ⟨v, ⟨by simpa using hwritable, before, vs, rfl, hbefore⟩, rfl⟩)

/-! ## Building -/

/-- The state once the making of an enumeration is announced. -/
def State.announced (s : State) (name : String) : State :=
  { s with log := s.log ++ [⟨.debug, "Create enum type `" ++ name ++ "`"⟩] }

theorem run_resolveEnumeration {s : State} {name : String} (vs : List Value)
    (hlegal : Name.legal name.toList = true) (hfree : s.output? (.ofText name) = none) :
    (resolveEnumeration name (.list vs)).run s =
      match membersFrom name [] vs with
      | .error f => (.error f, s.announced name)
      | .ok members =>
          if name ∈ reservedNames then (.error (.reservedTypeName name), s.announced name)
          else (.ok (.named s.types.size),
            (s.announced name).fileType (.enumeration ⟨name, members⟩) .output (.ofText name)) := by
  have hname : Name.illegal? name = none := (Name.illegal?_eq_none name).mpr hlegal
  unfold resolveEnumeration
  rw [run_bind, run_get]
  simp only [hfree]
  show Build.run (_ >>= _) (s.announced name) = _
  simp only [Value.iterate, access, pure_bind]
  cases membersFrom name [] vs with
  | error f => rfl
  | ok members =>
      by_cases hreserved : name ∈ reservedNames
      · simp only [liftExcept, pure_bind, checkTypeName, List.contains_iff_mem, hreserved, if_true]
        rfl
      · simp only [liftExcept, pure_bind, checkTypeName, List.contains_iff_mem, hreserved, if_false,
          hname]
        rfl

/-- In every state and for every legal name under which no type is kept: an enumeration of
literals is made just if the literals can be written, the names of its members differ and its own
name is not reserved. It then has a member of a legal name for each literal, in order, and it is
kept under its name among the outputs, which is all that changes but the log. A failure changes
the log alone, and is decided by the first literal that meets an earlier one or cannot be written,
if there is any. -/
theorem enumeration_of_literals {s : State} {name : String} (vs : List Value)
    (hlegal : Name.legal name.toList = true) (hfree : s.output? (.ofText name) = none) :
    (∀ v ∈ vs, v.isWritable = true → memberName v = .ok (writtenName v) ∧
      Name.legal (writtenName v).toList = true ∧ writtenName v ∉ literalNames) ∧
    ((∃ type s', (resolveEnumeration name (.list vs)).run s = (.ok type, s')) ↔
      (∀ v ∈ vs, v.isWritable = true) ∧ (vs.map writtenName).Nodup ∧ name ∉ reservedNames) ∧
    (∀ type s', (resolveEnumeration name (.list vs)).run s = (.ok type, s') →
      type = .named s.types.size ∧
      s' = (s.announced name).fileType (.enumeration ⟨name, vs.map fun v => (writtenName v, v)⟩)
        .output (.ofText name)) ∧
    ∀ f s', (resolveEnumeration name (.list vs)).run s = (.error f, s') →
      s' = s.announced name ∧
      ((∃ first second, Meet vs first second ∧
        f = .enumClash name first second (writtenName second)) ∨
      (∃ v, Unwritten vs v ∧ f = .malformed .badContent) ∨
      Apart vs ∧ name ∈ reservedNames ∧ f = .reservedTypeName name) := by
  refine ⟨fun v _ hwritable => ⟨memberName_of_isWritable hwritable, legal_memberOf _,
    memberOf_not_mem_literalNames _⟩, ?_⟩
  rw [run_resolveEnumeration vs hlegal hfree]
  have hnone : Apart [] := ⟨by simp, List.nodup_nil⟩
  rcases membersFrom_outcome name vs hnone with
    ⟨hapart, hmembers⟩ | ⟨first, second, hmeet, hmembers⟩ | ⟨v, hunwritten, hmembers⟩
  · have hapart : Apart vs := hapart
    have hmembers : membersFrom name [] vs = .ok (membersOf vs) := hmembers
    by_cases hreserved : name ∈ reservedNames
    · simp only [hmembers, if_pos hreserved]
      refine ⟨⟨nofun, fun h => absurd hreserved h.2.2⟩, nofun, ?_⟩
      rintro f s' hrun
      obtain ⟨rfl, rfl⟩ : _ = f ∧ _ = s' := by simpa using hrun
      exact ⟨rfl, .inr (.inr ⟨hapart, hreserved, rfl⟩)⟩
    · simp only [hmembers, if_neg hreserved]
      refine ⟨⟨fun _ => ⟨hapart.writable, hapart.distinct, hreserved⟩, fun _ => ⟨_, _, rfl⟩⟩,
        ?_, nofun⟩
      rintro type s' hrun
      obtain ⟨rfl, rfl⟩ : _ = type ∧ _ = s' := by simpa using hrun
      exact ⟨rfl, rfl⟩
  · have hmembers : membersFrom name [] vs =
        .error (.enumClash name first second (writtenName second)) := hmembers
    simp only [hmembers]
    refine ⟨⟨nofun, fun h => absurd ⟨h.1, h.2.1⟩ hmeet.not_apart⟩, nofun, ?_⟩
    rintro f s' hrun
    obtain ⟨rfl, rfl⟩ : _ = f ∧ _ = s' := by simpa using hrun
    exact ⟨rfl, .inl ⟨first, second, hmeet, rfl⟩⟩
  · have hmembers : membersFrom name [] vs = .error (.malformed .badContent) := hmembers
    simp only [hmembers]
    refine ⟨⟨nofun, fun h => absurd ⟨h.1, h.2.1⟩ hunwritten.not_apart⟩, nofun, ?_⟩
    rintro f s' hrun
    obtain ⟨rfl, rfl⟩ : _ = f ∧ _ = s' := by simpa using hrun
    exact ⟨rfl, .inr (.inl ⟨v, hunwritten, rfl⟩)⟩

/-! ### Example literals -/

/-- Literals whose names are taken from a reserved word, from nothing and from two words. -/
def answers : List Value := [.bool true, .text "null", .text "", .text "not sure"]

/-- The key of the enumeration belongs to a schema that gave no type. -/
def typeless : State := { State.empty false with outputs := [(.ofText "Answer", none)] }

theorem names_of_answers : answers.map writtenName = ["True", "NULL", "EMPTY", "notSure"] := by
  decide +kernel

theorem enumeration_of_answers :
    (Name.legal "Answer".toList = true ∧ typeless.output? (.ofText "Answer") = none) ∧
    ∃ type s', (resolveEnumeration "Answer" (.list answers)).run typeless = (.ok type, s') ∧
      Table.get? s'.outputs (.ofText "Answer") = some (some (.named 0)) := by
  have hlegal : Name.legal "Answer".toList = true := by decide
  have hfree : typeless.output? (.ofText "Answer") = none := rfl
  obtain ⟨-, hmade, hstate, -⟩ := enumeration_of_literals answers hlegal hfree
  have hwritable : ∀ v ∈ answers, v.isWritable = true := by simp [answers, Value.isWritable]
  have hdistinct : (answers.map writtenName).Nodup := by
    rw [names_of_answers]
    decide
  obtain ⟨type, s', hrun⟩ := hmade.mpr ⟨hwritable, hdistinct, by decide⟩
  obtain ⟨-, rfl⟩ := hstate type s' hrun
  exact ⟨⟨hlegal, hfree⟩, type, _, hrun, rfl⟩

/-- A legal name that belongs to a type of its own is refused, though its members differ. -/
theorem reserved_enumeration_refused :
    Name.legal "Int".toList = true ∧ (State.empty false).output? (.ofText "Int") = none ∧
    ([.text "a"].map writtenName).Nodup ∧
    (resolveEnumeration "Int" (.list [.text "a"])).run (.empty false) =
      (.error (.reservedTypeName "Int"), (State.empty false).announced "Int") := by
  have hlegal : Name.legal "Int".toList = true := by decide
  have hfree : (State.empty false).output? (.ofText "Int") = none := rfl
  have hmembers : membersFrom "Int" [] [.text "a"] = .ok (membersOf [.text "a"]) := rfl
  refine ⟨hlegal, hfree, List.nodup_singleton _, ?_⟩
  rw [run_resolveEnumeration _ hlegal hfree, hmembers]
  rfl

end RestGraph.Graph
