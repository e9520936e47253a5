import RestGraph.Proofs.Change

namespace RestGraph.Graph

open Build

/-!
# Names that are their own texts

A legal name stands for itself unless another text has got it. So where nothing but legal names
are stored, every name is its own text, and the keys of types can be read off their schemas.
-/

structure State.OwnNamed (s : State) : Prop where
  coherent : s.names.Coherent
  own : ∀ text name, s.Named text name → name = text

/-- Names that are their own texts stay so. -/
def StaysOwn (s s' : State) : Prop := s.OwnNamed → s'.OwnNamed

instance : IsPreorder State StaysOwn where
  refl _ := id
  trans _ _ _ h h' := h' ∘ h

section Names

variable {s s' : State} {text : String}

theorem ownNamed_empty (strict : Bool) : (State.empty strict).OwnNamed where
  coherent := Name.Registry.coherent_empty strict
  own text name hname := by
    simp [State.Named, State.empty, Name.Registry.empty, Name.Registry.name?] at hname

theorem staysOwn_of_names (h : s'.names = s.names) : StaysOwn s s' := by
  intro hs
  constructor
  · rw [h]
    exact hs.coherent
  · intro text name hname
    rw [State.Named, h] at hname
    exact hs.own text name hname

/-- A legal text gets its own name: what holds a name is the name itself. -/
theorem staysOwn_storeName (h : Name.legal text.toList = true) :
    Keeps StaysOwn (storeName text) := by
  intro s hs
  rw [run_storeName]
  have hout := Name.Registry.store_outcome s.names text
  cases hstore : s.names.store text with
  | error f => exact hs
  | ok stored =>
      obtain ⟨name, names⟩ := stored
      have hcoherent := hs.coherent.store hstore
      rw [hstore] at hout
      cases hout with
      | known => exact ⟨hs.coherent, hs.own⟩
      | plain new made free =>
          obtain rfl := Option.some.inj ((Name.sanitize?_of_legal h).symm.trans made)
          refine ⟨hcoherent, fun other name hname => ?_⟩
          rw [State.Named, Name.Registry.name?_add] at hname
          split at hname
          · rename_i hsame
            exact hsame ▸ (Option.some.inj hname).symm
          · exact hs.own other name hname
      | numbered new made held =>
          obtain rfl := Option.some.inj ((Name.sanitize?_of_legal h).symm.trans made)
          have hholder := (hs.coherent.inverse _ _).mp held
          obtain rfl := hs.own _ _ hholder
          rw [new] at hholder
          cases hholder

theorem staysOwn_report (level : Level) (text : String) : Keeps StaysOwn (report level text) :=
  fun _ => staysOwn_of_names rfl

theorem staysOwn_noteShadowed (c : Catalog) (name : String) :
    Keeps StaysOwn (noteShadowed c name) := by
  unfold noteShadowed
  split
  · split
    · exact .throw _
    · exact staysOwn_report _ _
  · exact .pure _

theorem staysOwn_addType (type : NamedType) : Keeps StaysOwn (addType type) :=
  fun _ => staysOwn_of_names rfl

theorem staysOwn_setCached (mode : Mode) (label : Label) (type : Option TypeRef) :
    Keeps StaysOwn (setCached mode label type) :=
  fun s => staysOwn_of_names (names_setCached s mode label type)

/-! ## Types of legal names -/

theorem legal_typeText {mode : Mode} {name : Value} (h : typeText mode name = .ok text)
    (hname : Name.legal name.plain.toList = true) : Name.legal text.toList = true := by
  cases mode with
  | output =>
      obtain rfl := Except.ok.inj h
      exact hname
  | input =>
      cases name with
      | text s =>
          simp only [typeText, Except.ok.injEq] at h
          subst h
          split
          · exact hname
          · rw [String.toList_append]
            exact Name.legal_append hname (by decide)
      | _ => cases h

theorem staysOwn_objectType {name : Value} (hname : Name.legal name.plain.toList = true)
    (plan : Plan) : Keeps StaysOwn (objectType name plan) := by
  refine (keeps_keyOf name).bind fun key => (keeps_cached? _ _).bind fun found => ?_
  split
  · exact .pure _
  · cases htext : typeText plan.mode name with
    | error e => exact .throw_bind _ _
    | ok text =>
        refine (staysOwn_storeName (legal_typeText htext hname)).bind fun typeName => ?_
        refine (keeps_checkTypeName _).bind fun _ => (keeps_checkDescription _ _).bind fun _ => ?_
        exact (staysOwn_addType _).bind fun _ => (staysOwn_setCached _ _ _).bind fun _ => .pure _

theorem staysOwn_resolveEnumeration (name : String) (literals : Value) :
    Keeps StaysOwn (resolveEnumeration name literals) := by
  refine Keeps.get.bind fun s => ?_
  split
  · exact (staysOwn_report _ _).bind fun _ => .pure _
  · refine (staysOwn_report _ _).bind fun _ => (keeps_access _).bind fun _ => ?_
    refine (keeps_liftExcept _).bind fun _ => (keeps_checkTypeName _).bind fun _ => ?_
    exact (staysOwn_addType _).bind fun _ => (staysOwn_setCached _ _ _).bind fun _ => .pure _

theorem staysOwn_enumerationType {name : Value} (hname : Name.legal name.plain.toList = true)
    (ms : Schema.Members) : Keeps StaysOwn (enumerationType name ms) := by
  refine (staysOwn_storeName hname).bind fun typeName => ?_
  split
  · exact .throw _
  · exact (staysOwn_resolveEnumeration _ _).bind fun _ => .pure _

end Names

end RestGraph.Graph
