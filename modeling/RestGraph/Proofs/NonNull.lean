import RestGraph.Proofs.Call

namespace RestGraph.Graph

open Build

/-!
# Types that are required

Two places mark a type as required: fields for inputs and arguments. Both mark a type that
comes from a cache or is made on the spot, and no such type is marked, not even within a list.
So the mark is the outermost part of a type or it is not there.
-/

/-- No part of the type is marked as required. -/
def TypeRef.Bare : TypeRef → Prop
  | .scalar _ => True
  | .named _ => True
  | .list item => item.Bare
  | .nonNull _ => False

/-- The type is marked at the outermost level if it is required, and nowhere else. -/
def TypeRef.Marked (required : Bool) (t : TypeRef) : Prop :=
  ∃ inner : TypeRef, inner.Bare ∧ t = inner.whenRequired required

theorem TypeRef.Bare.marked {t : TypeRef} (h : t.Bare) (required : Bool) :
    (t.whenRequired required).Marked required := ⟨t, h, rfl⟩

theorem bare_of_scalarType {ms : Schema.Members} {t : TypeRef} (h : scalarType ms = some t) :
    t.Bare := by
  obtain ⟨scalar, -, rfl⟩ := Option.map_eq_some_iff.mp h
  trivial

/-- An argument of a field is that of a parameter of the operation that the field asks. -/
def ArgumentMarked (names : Name.Registry) (resolver : Option Resolver)
    (a : String × ArgumentDef) : Prop :=
  ∃ o preset p text, resolver = some (.request o preset) ∧ p ∈ o.parameters ∧
    p.name = .text text ∧ names.text? a.1 = some text ∧ a.2.type.Marked p.isRequired

/-- A field for inputs is marked if its property is among those that the schema requires. -/
def Requires (names : Name.Registry) (schema : Schema.Members) (f : String × Field) : Prop :=
  ∃ required ps text, requiredNames schema = .ok required ∧ properties schema = .ok ps ∧
    text ∈ ps.map Prod.fst ∧ names.text? f.1 = some text ∧
    f.2.type.Marked (required.contains text)

/-- A field of a plan is marked as it should be, and so are its arguments. -/
structure FieldMarked (names : Name.Registry) (plan : Plan) (f : String × Field) : Prop where
  output : plan.mode = .output → f.2.type.Bare
  input : plan.mode = .input → Requires names plan.schema f
  arguments : ∀ a ∈ f.2.arguments, ArgumentMarked names f.2.resolver a

/-- No type that is kept is marked, and all fields that were found are marked as they should. -/
structure Unmarked (s : State) : Prop where
  coherent : s.names.Coherent
  entries : ∀ mode label t, Table.get? (s.cache mode) label = some (some t) → t.Bare
  fields : ∀ (place : Nat) (k : Composite) (fields : Table String Field),
    s.types[place]? = some (.composite k) → k.fields? = some fields →
    ∀ f ∈ fields, FieldMarked s.names k.plan f

theorem unmarked_empty (strict : Bool) : Unmarked (.empty strict) := by
  refine ⟨Name.Registry.coherent_empty strict, ?_, ?_⟩
  · intro mode
    cases mode <;> exact nofun
  · intro place k fields hplace
    simp [State.empty] at hplace

section Laws

variable {c : Catalog} {given : Node → Prop} {s s' : State}

theorem FieldMarked.later {r r' : Name.Registry} (h : r.Grows r') {plan : Plan}
    {f : String × Field} (hf : FieldMarked r plan f) : FieldMarked r' plan f where
  output := hf.output
  input hmode := by
    obtain ⟨required, ps, text, hrequired, hps, hmem, htext, hmarked⟩ := hf.input hmode
    exact ⟨required, ps, text, hrequired, hps, hmem, h.text _ _ htext, hmarked⟩
  arguments a ha := by
    obtain ⟨o, preset, p, text, hresolver, hp, hname, htext, hmarked⟩ := hf.arguments a ha
    exact ⟨o, preset, p, text, hresolver, hp, hname, h.text _ _ htext, hmarked⟩

/-! ## Types that are read off -/

theorem Unmarked.output? (hs : Unmarked s) {label : Label} {t : TypeRef}
    (h : s.output? label = some t) : t.Bare :=
  hs.entries .output label t (Option.join_eq_some_iff.mp h)

/-- The induction goes through the items of arrays. -/
theorem Reads.bare (hs : Unmarked s) {node : Node} {type : Option TypeRef}
    (h : Reads s node type) : ∀ t, type = some t → t.Bare := by
  induction h with
  | object shape labelled entry =>
      rintro t rfl
      exact hs.entries _ _ t entry
  | enumeration shape registered entry =>
      rintro t ⟨⟩
      exact hs.output? entry
  | emptyObject shape => exact nofun
  | scalar shape => exact fun _ => bare_of_scalarType
  | references shape found refers leads entry =>
      intro t ht
      obtain ⟨item, rfl, rfl⟩ := Option.map_eq_some_iff.mp ht
      exact hs.entries _ _ item entry
  | items shape found own read ih =>
      intro t ht
      obtain ⟨item, rfl, rfl⟩ := Option.map_eq_some_iff.mp ht
      exact ih item rfl

theorem SlotReads.bare (hs : Unmarked s) {mode : Mode} {name schema : Value} {t : TypeRef}
    (h : SlotReads s mode name schema (some t)) : t.Bare := by
  cases h with
  | reference refers leads entry => exact hs.entries mode _ t entry
  | own own read => exact read.bare hs t rfl

theorem Held.bare (hs : Unmarked s) {mode : Mode} {t : TypeRef} (h : Held c given s mode t) :
    t.Bare := by
  cases h with
  | kept entry => exact hs.entries mode _ t entry
  | read met read => exact read.bare hs t rfl

/-! ## Changes -/

theorem Unmarked.fileType (hs : Unmarked s) {type : NamedType} {mode : Mode} {label : Label} :
    ∀ ns q t, Table.get? ((s.fileType type mode label).cache ns) q = some (some t) → t.Bare := by
  intro ns q t ht
  rw [get?_cache_fileType] at ht
  split at ht
  · cases ht
    trivial
  · exact hs.entries ns q t ht

theorem Unmarked.change (h : Change c given s s') (hs : Unmarked s) : Unmarked s' := by
  have hnames := h.adds.names
  refine ⟨hnames.2 hs.coherent, ?_, ?_⟩
  · cases h with
    | log log => exact hs.entries
    | store stored log => exact hs.entries
    | object => exact hs.fileType
    | enumeration => exact hs.fileType
    | definition defined read =>
        intro ns q t ht
        rw [get?_cache_setCached] at ht
        split at ht
        · exact read.bare hs t (Option.some.inj ht)
        · exact hs.entries ns q t ht
  · intro place k fields hplace hfields f hf
    have hold : ∀ q : Nat, s.types[q]? = some (.composite k) → FieldMarked s'.names k.plan f :=
      fun q hq => (hs.fields q k fields hq hfields f hf).later hnames.1
    rcases h.types with htypes | ⟨new, htypes, hnew⟩
    · exact hold place (htypes ▸ hplace)
    · rw [htypes, Array.getElem?_push] at hplace
      split at hplace
      · rw [(hnew k (Option.some.inj hplace)).1] at hfields
        cases hfields
      · exact hold place hplace

theorem Unmarked.evolves (h : Evolves c given s s') (hs : Unmarked s) : Unmarked s' := by
  induction h with
  | refl => exact hs
  | tail _ step ih => exact ih.change step

/-! ## Arguments -/

/-- An argument is marked if it is required, and it is required if the parameter or the body
that it is made for is. -/
structure Argument.IsMarked (names : Name.Registry) (ps : List Parameter) (body : Option String)
    (required : Bool) (e : String × Argument) : Prop where
  marked : e.2.type.Marked e.2.required
  named : names.text? e.1 = some e.2.parameterName
  origin : (∃ p ∈ ps, p.name = .text e.2.parameterName ∧ e.2.required = p.isRequired) ∨
    body = some e.2.parameterName ∧ e.2.required = required

theorem Argument.IsMarked.later {r r' : Name.Registry} (h : r.Grows r') {ps : List Parameter}
    {body : Option String} {required : Bool} {e : String × Argument}
    (he : Argument.IsMarked r ps body required e) : Argument.IsMarked r' ps body required e :=
  ⟨he.marked, h.text _ _ he.named, he.origin⟩

theorem parameterArguments_marked (hs : Unmarked s) {all ps : List Parameter} (hps : ps ⊆ all)
    {body : Option String} {required : Bool} {found : Table String Argument}
    (hfound : ∀ e ∈ found, Argument.IsMarked s.names all body required e) :
    Ensures (Evolves c given) s (parameterArguments c found ps) fun found' s' =>
      ∀ e ∈ found', Argument.IsMarked s'.names all body required e := by
  induction ps generalizing found s with
  | nil => exact .pure hfound
  | cons p ps ih =>
      obtain ⟨hp, hrest⟩ := List.cons_subset.mp hps
      have hreported : ∀ text, Ensures (Evolves c given) s
          (do report .debug text; parameterArguments c found ps) fun found' s' =>
            ∀ e ∈ found', Argument.IsMarked s'.names all body required e := by
        intro text
        refine .bind ((keeps_report _ _).ensures s) ?_
        intro _ s₁ h₁ _
        exact ih (hs.evolves h₁) hrest fun e he => (hfound e he).later h₁.adds.names.1
      unfold parameterArguments
      split
      · rename_i name hname
        split
        · exact hreported _
        · refine .bind (named_storeName name) ?_
          rintro key s₁ h₁ ⟨hnamed, -⟩
          have hs₁ := hs.evolves h₁
          apply ih hs₁ hrest
          apply Table.forall_mem_insert fun e he => (hfound e he).later h₁.adds.names.1
          have hscalar : (TypeRef.scalar (parameterScalar p)).Bare := trivial
          exact ⟨hscalar.marked _, (hs₁.coherent.inverse _ _).mpr hnamed, .inl ⟨p, hp, hname, rfl⟩⟩
      · exact hreported _

theorem arguments_marked (hs : Unmarked s) (ps : List Parameter) (body : Option String)
    (required : Bool) :
    Ensures (Evolves c given) s (arguments c ps body required) fun found s' =>
      ∀ e ∈ found, Argument.IsMarked s'.names ps body required e := by
  unfold arguments
  have hnone : ∀ e ∈ ([] : Table String Argument),
      Argument.IsMarked s.names ps body required e := by simp
  refine .bind (parameterArguments_marked hs (List.Subset.refl ps) hnone) ?_
  intro found s₁ h₁ hfound
  cases body with
  | none => exact .pure hfound
  | some name =>
      unfold bodyArgument
      refine .bind (bodyType_held name) ?_
      intro type s₂ h₂ hheld
      have hs₂ := (hs.evolves h₁).evolves h₂
      split
      · exact .pure fun e he => (hfound e he).later h₂.adds.names.1
      · rename_i type
        refine .bind (named_storeName name) ?_
        rintro key s₃ h₃ ⟨hnamed, -⟩
        refine .bind ((keeps_access _).ensures s₃) ?_
        intro description s₄ h₄ _
        have hs₄ := (hs₂.evolves h₃).evolves h₄
        have hgrows := (h₂.adds.names.1.trans h₃.adds.names.1).trans h₄.adds.names.1
        refine .pure (Table.forall_mem_insert (fun e he => (hfound e he).later hgrows) ?_)
        have hname : s₄.names.name? name = some key := h₄.adds.names.1.name _ _ hnamed
        exact ⟨((hheld type rfl).bare hs₂).marked required,
          (hs₄.coherent.inverse _ _).mpr hname, .inr ⟨rfl, rfl⟩⟩

/-! ## Fields -/

theorem marked_ownField {r : Name.Registry} {plan : Plan} {required : List String}
    {ps : List (String × Value)} (hrequired : requiredNames plan.schema = .ok required)
    (hps : properties plan.schema = .ok ps) {p : String × Value} (hp : p ∈ ps)
    {fieldName : String} (htext : r.text? fieldName = some p.1) {type : TypeRef}
    (htype : type.Bare) :
    FieldMarked r plan (fieldName, ownField plan.mode required p fieldName type) := by
  cases hmode : plan.mode with
  | output =>
      refine ⟨fun _ => htype, ?_, by simp [ownField]⟩
      intro h
      rw [hmode] at h
      cases h
  | input =>
      refine ⟨?_, fun _ => ?_, by simp [ownField]⟩
      · intro h
        rw [hmode] at h
        cases h
      · exact ⟨required, ps, p.1, hrequired, hps, List.mem_map.mpr ⟨p, hp, rfl⟩, htext,
          htype.marked _⟩

theorem subset_of_withoutPresets {preset : Table String String} {ps remaining : List Parameter}
    (h : withoutPresets preset ps = .ok remaining) : remaining ⊆ ps := by
  induction ps generalizing remaining with
  | nil =>
      obtain rfl := Except.ok.inj h
      exact List.Subset.refl []
  | cons p ps ih =>
      unfold withoutPresets at h
      cases hname : p.name.labelOf with
      | error b => simp [hname, bind, Except.bind] at h
      | ok name =>
          cases hrest : withoutPresets preset ps with
          | error b => simp [hname, hrest, bind, Except.bind] at h
          | ok rest =>
              have hsub := ih hrest
              simp only [hname, hrest, bind, Except.bind, pure, Except.pure] at h
              split at h
              · obtain rfl := Except.ok.inj h
                exact List.subset_cons_of_subset p hsub
              · obtain rfl := Except.ok.inj h
                exact List.cons_subset_cons p hsub

theorem marked_of_defs {r : Name.Registry} {o : Operation} {preset : Table String String}
    {ps : List Parameter} (hps : ps ⊆ o.parameters) {found : Table String Argument}
    (hfound : ∀ e ∈ found, Argument.IsMarked r ps none false e) {defs : Table String ArgumentDef}
    (hdefs : defs.map (fun d => (d.1, d.2.type)) = found.map fun e => (e.1, e.2.type)) :
    ∀ a ∈ defs, ArgumentMarked r (some (.request o preset)) a := by
  intro a ha
  have hmem : (a.1, a.2.type) ∈ found.map fun e => (e.1, e.2.type) :=
    hdefs ▸ List.mem_map.mpr ⟨a, ha, rfl⟩
  obtain ⟨e, he, heq⟩ := List.mem_map.mp hmem
  obtain ⟨hkey, htype⟩ := Prod.mk.inj heq
  obtain ⟨hmarked, hnamed, ⟨p, hp, hname, hrequired⟩ | ⟨hbody, -⟩⟩ := hfound e he
  · refine ⟨o, preset, p, e.2.parameterName, rfl, hps hp, hname, hkey ▸ hnamed, ?_⟩
    rw [← htype, ← hrequired]
    exact hmarked
  · cases hbody

theorem linkField_marked (hs : Unmarked s) (name : String) (link : Link) :
    Ensures (Evolves c given) s (linkField c name link) fun f s' =>
      f.type.Bare ∧ ∀ a ∈ f.arguments, ArgumentMarked s'.names f.resolver a := by
  unfold linkField
  split
  · exact .throw _
  · refine .bind ((keeps_liftExcept _).ensures s) fun o s₁ h₁ _ => ?_
    refine .bind ((keeps_presets _ _ _).ensures s₁) fun preset s₂ h₂ _ => ?_
    refine .bind_access fun remaining hremaining => ?_
    have hs₂ := (hs.evolves h₁).evolves h₂
    refine .bind (arguments_marked hs₂ remaining none false) fun found s₄ h₄ hfound => ?_
    have hs₄ := hs₂.evolves h₄
    refine .bind (Q := fun type t => t = s₄ ∧ type = s₄.output? (.ofText (o.response.getD "")))
      (.get_bind (.pure ⟨rfl, rfl⟩)) ?_
    rintro type s₄ - ⟨rfl, hkept⟩
    split
    · exact .throw _
    · rename_i type
      refine .bind (argumentDefs_types found) fun defs s₅ h₅ hdefs => ?_
      refine .bind ((keeps_checkDescription _ _).ensures s₅) fun description s₆ h₆ _ => .pure ?_
      have hgrows := h₅.adds.names.1.trans h₆.adds.names.1
      refine ⟨hs₄.output? hkept.symm, ?_⟩
      exact marked_of_defs (subset_of_withoutPresets hremaining)
        (fun e he => (hfound e he).later hgrows) hdefs

theorem linkFields_marked (hs : Unmarked s) {plan : Plan} (hmode : plan.mode = .output)
    (links : List (String × Link)) :
    Ensures (Evolves c given) s (linkFields c links) fun fields s' =>
      ∀ f ∈ fields, FieldMarked s'.names plan f := by
  induction links generalizing s with
  | nil => exact .pure (by simp)
  | cons e links ih =>
      refine .bind (linkField_marked hs e.1 e.2) ?_
      rintro field s₁ h₁ ⟨htype, hargs⟩
      refine .bind ((keeps_storeName e.1).ensures s₁) fun name s₂ h₂ _ => ?_
      refine .bind (ih ((hs.evolves h₁).evolves h₂)) fun fields s₃ h₃ hfields => ?_
      refine .pure (List.forall_mem_cons.mpr ⟨?_, hfields⟩)
      have hmarked : FieldMarked s₁.names plan (name, field) := by
        refine ⟨fun _ => htype, ?_, hargs⟩
        intro hinput
        rw [hmode] at hinput
        cases hinput
      exact hmarked.later (h₂.adds.names.1.trans h₃.adds.names.1)

theorem planLinks_marked (hs : Unmarked s) (plan : Plan) :
    Ensures (Evolves c given) s (planLinks c plan) fun fields s' =>
      ∀ f ∈ fields, FieldMarked s'.names plan f := by
  unfold planLinks
  split
  · rename_i hlinked
    obtain ⟨-, hmode⟩ := Bool.and_eq_true_iff.mp hlinked
    exact linkFields_marked hs (eq_of_beq hmode) plan.links
  · exact .pure (by simp)

end Laws

/-! ## Histories -/

section Histories

variable {c : Catalog} {given : Node → Prop} (hgiven : ∀ node, given node) {s : State}
include hgiven

theorem propertyFields_marked (hs : Unmarked s) {plan : Plan} {required : List String}
    {all : List (String × Value)} (hrequired : requiredNames plan.schema = .ok required)
    (hall : properties plan.schema = .ok all) {ps : List (String × Value)} (hps : ps ⊆ all) :
    Ensures (Evolves c given) s (propertyFields c plan required ps) fun fields s' =>
      ∀ f ∈ fields, FieldMarked s'.names plan f := by
  induction ps generalizing s with
  | nil => exact .pure (by simp)
  | cons p ps ih =>
      obtain ⟨hp, hrest⟩ := List.cons_subset.mp hps
      refine .bind (propertyType_reads fun _ _ => .given (hgiven _)) ?_
      rintro type s₁ h₁ ⟨hslot, -⟩
      have hs₁ := hs.evolves h₁
      split
      · exact ih hs₁ hrest
      · refine .bind (named_storeName p.1) ?_
        rintro name s₂ h₂ ⟨hnamed, -⟩
        refine .bind (propertyField_ensures plan.mode required p name _) ?_
        rintro field s₃ h₃ rfl
        have hs₃ := (hs₁.evolves h₂).evolves h₃
        refine .bind (ih hs₃ hrest) ?_
        intro fields s₄ h₄ hfields
        refine .pure (List.forall_mem_cons.mpr ⟨?_, hfields⟩)
        have hname : s₄.names.name? p.1 = some name :=
          h₄.adds.names.1.name _ _ (h₃.adds.names.1.name _ _ hnamed)
        have htext := ((hs₃.evolves h₄).coherent.inverse _ _).mpr hname
        exact marked_ownField hrequired hall hp htext (hslot.bare hs₁)

theorem fieldsOf_marked (hs : Unmarked s) (plan : Plan) :
    Ensures (Evolves c given) s (fieldsOf c plan) fun fields s' =>
      ∀ f ∈ fields, FieldMarked s'.names plan f := by
  rw [fieldsOf_eq]
  refine .bind_access fun required hrequired => ?_
  refine .bind (planLinks_marked hs plan) fun links s₁ h₁ hlinks => ?_
  refine .bind_access fun ps hps => ?_
  refine .bind (propertyFields_marked hgiven (hs.evolves h₁) hrequired hps (List.Subset.refl ps)) ?_
  intro own s₂ h₂ hown
  refine .pure (Table.forall_mem_ofList ?_)
  intro f hf
  rcases List.mem_append.mp hf with hf | hf
  · exact hown f hf
  · exact (hlinks f hf).later h₂.adds.names.1

end Histories

def StaysUnmarked (s s' : State) : Prop := Unmarked s → Unmarked s'

instance : IsPreorder State StaysUnmarked where
  refl _ := id
  trans _ _ _ h h' := h' ∘ h

section Calls

variable {c : Catalog} {given : Node → Prop} {s : State}

theorem staysUnmarked_of_evolves {α : Type} {b : Build α} {Q : α → State → Prop}
    (h : Ensures (Evolves c given) s b Q) :
    Ensures StaysUnmarked s b fun a s' => Evolves c given s s' ∧ Q a s' :=
  ⟨fun hs => hs.evolves h.1, fun a ha => ⟨h.1, h.2 a ha⟩⟩

theorem Unmarked.keep (hs : Unmarked s) {place : Nat} {type : Composite}
    (hheld : s.types[place]? = some (.composite type)) {fields : Table String Field}
    (hfields : ∀ f ∈ fields, FieldMarked s.names type.plan f) :
    Unmarked (s.keep place type fields) := by
  refine ⟨hs.coherent, ?_, ?_⟩
  · intro mode label t ht
    rw [cache_keep] at ht
    exact hs.entries mode label t ht
  · intro q k found hq hfound
    rw [types_keep hheld] at hq
    split at hq
    · cases hq
      cases hfound
      exact hfields
    · exact hs.fields q k found hq hfound

variable (hgiven : ∀ node, given node)
include hgiven

theorem fieldsAt_unmarked (hs : Unmarked s) (place : Nat) :
    Ensures StaysUnmarked s (fieldsAt c place) fun _ _ => True := by
  unfold fieldsAt
  refine .bind (compositeAt?_ensures place s) ?_
  rintro found s - ⟨rfl, hfound⟩
  split
  · exact .pure trivial
  · rename_i type
    split
    · exact .pure trivial
    · refine .bind (.tryCatch (staysUnmarked_of_evolves (fieldsOf_marked hgiven hs type.plan))) ?_
      rintro fields s₁ - ⟨h₁, hmarked⟩
      have hheld := h₁.adds.types _ _ ((hfound type).mp rfl)
      refine .bind (Q := fun _ _ => True) ⟨fun hs₁ => hs₁.keep hheld hmarked, fun _ _ => trivial⟩ ?_
      intro _ _ _ _
      exact .pure trivial

theorem call_unmarked (hs : Unmarked s) (call : Call) : Unmarked ((call.build c).run s).2 := by
  have hmet : ∀ node, Met c given node := fun node => .given (hgiven node)
  cases call with
  | fields plan =>
      unfold Call.build
      rw [run_return]
      exact hs.evolves (fieldsOf_marked hgiven hs plan).1
  | step step =>
      rw [run_step]
      cases step with
      | translate node links iteration =>
          exact hs.evolves (translate_reads (fun _ _ => hmet node) links iteration).1
      | reference mode name iteration =>
          have hreference : Evolves c given s ((resolveReference c mode name iteration).run s).2 :=
            (resolveReference_reads mode name iteration).1
          exact hs.evolves hreference
      | response name links =>
          have hresponse : Ensures (Evolves c given) s ((Step.response name links).build c)
              fun _ _ => True := by
            refine .bind (translate_reads (fun _ _ => hmet _) links 0) ?_
            intro type s₁ _ hread
            refine .bind (setCached_definition hread) ?_
            intro _ _ _ _
            exact .pure trivial
          exact hs.evolves hresponse.1
      | fields place =>
          exact (run_return (fieldsAt c place) (fun _ => none) s).symm ▸
            (fieldsAt_unmarked hgiven hs place).1 hs
      | arguments ps body required =>
          have hargs : Evolves c given s ((arguments c ps body required).run s).2 :=
            (arguments_marked hs ps body required).1
          exact (run_return (arguments c ps body required) (fun _ => none) s).symm ▸
            hs.evolves hargs
      | store text =>
          have hstore : Evolves c given s ((storeName text).run s).2 := keeps_storeName text s
          exact (run_return (storeName text) (fun _ => none) s).symm ▸ hs.evolves hstore

omit hgiven in
/-- Each call keeps what the calls before it left. -/
theorem unmarked_afterCalls (hs : Unmarked s) (calls : List Call) :
    Unmarked (afterCalls c s calls) := by
  have hany : ∀ node : Node, (fun _ => True) node := fun _ => trivial
  induction calls generalizing s with
  | nil => exact hs
  | cons call calls ih => exact ih (call_unmarked hany hs call)

end Calls

/-- Whatever calls come one after the other and whatever their outcomes, no type in a cache has
a part that is marked as required, and neither has the type of a field for outputs. A field for
inputs is marked at the outermost level only, exactly if the schema that it was built from
requires its property, and an argument exactly if its parameter or the body is required. The
same goes for all that the next call gives. -/
theorem nonNull_of_every_history (c : Catalog) (strict : Bool) (calls : List Call) :
    let s := afterCalls c (.empty strict) calls
    Unmarked s ∧
    (∀ mode name schema links iteration t,
      ((translate c mode name schema links iteration).run s).1 = .ok (some t) → t.Bare) ∧
    (∀ mode name iteration t,
      ((resolveReference c mode name iteration).run s).1 = .ok (some t) → t.Bare) ∧
    (∀ plan fields s', (fieldsOf c plan).run s = (.ok fields, s') →
      ∀ f ∈ fields, FieldMarked s'.names plan f) ∧
    ∀ ps body required found s', (arguments c ps body required).run s = (.ok found, s') →
      ∀ e ∈ found, Argument.IsMarked s'.names ps body required e := by
  intro s
  have hs : Unmarked s := unmarked_afterCalls (unmarked_empty strict) calls
  have hany : ∀ node : Node, (fun _ => True) node := fun _ => trivial
  refine ⟨hs, ?_, ?_, ?_, ?_⟩
  · intro mode name schema links iteration t ht
    have hmet : Met c (fun _ => True) ⟨mode, name, schema⟩ := .given trivial
    obtain ⟨hevolves, hread⟩ := translate_reads (s := s) (fun _ _ => hmet) links iteration
    exact (hread _ ht).bare (hs.evolves hevolves) t rfl
  · intro mode name iteration t ht
    have hreference : Ensures (Evolves c fun _ => True) s (resolveReference c mode name iteration)
        fun type s' => Table.get? (s'.cache mode) (.ofText (referenceKey mode name)) = some type :=
      resolveReference_reads mode name iteration
    exact (hs.evolves hreference.1).entries mode _ t (hreference.2 _ ht)
  · intro plan fields s' hrun
    exact ((fieldsOf_marked hany hs plan).of_ok hrun).2
  · intro ps body required found s' hrun
    have harguments : Ensures (Evolves c fun _ => True) s (arguments c ps body required)
        fun found s' => ∀ e ∈ found, Argument.IsMarked s'.names ps body required e :=
      arguments_marked hs ps body required
    exact (harguments.of_ok hrun).2

/-! ### Orders

Two of the three properties are required, one of them a list.
-/

def orderCatalog : Catalog :=
  (Catalog.empty default true).define "Order" (.map
    [("type", .text "object"),
      ("properties", .map [("name", .map [("type", .text "string")]),
        ("note", .map [("type", .text "string")]),
        ("tags", .map [("type", .text "array"), ("items", .map [("type", .text "string")])])]),
      ("required", .list [.text "tags", .text "name"])])

def afterOrder : State :=
  afterCalls orderCatalog (.empty true) [.step (.reference .input "Order" 0), .step (.fields 0)]

/-- The mode of the composite type at a place and the types of its fields, once they are found. -/
def State.fieldTypesAt? (s : State) (place : Nat) : Option (Mode × List (String × TypeRef)) :=
  match s.types[place]? with
  | some (.composite k) => k.fields?.map fun fields =>
      (k.plan.mode, fields.map fun f => (f.1, f.2.type))
  | _ => none

theorem fieldTypes_afterOrder :
    afterOrder.fieldTypesAt? 0 = some (.input,
      [("name", .nonNull (.scalar .string)), ("note", .scalar .string),
        ("tags", .nonNull (.list (.scalar .string)))]) := by
  decide +kernel

/-- The fields of an order are marked as its schema says. -/
theorem fields_of_order_required :
    ∃ k fields, afterOrder.types[0]? = some (.composite k) ∧ k.fields? = some fields ∧
      (fields.map fun f => (f.1, f.2.type)) =
        [("name", .nonNull (.scalar .string)), ("note", .scalar .string),
          ("tags", .nonNull (.list (.scalar .string)))] ∧
      ∀ f ∈ fields, Requires afterOrder.names k.plan.schema f := by
  have htypes := fieldTypes_afterOrder
  unfold State.fieldTypesAt? at htypes
  split at htypes
  · rename_i k hheld
    obtain ⟨fields, hfields, heq⟩ := Option.map_eq_some_iff.mp htypes
    obtain ⟨hmode, hlist⟩ := Prod.mk.inj heq
    refine ⟨k, fields, hheld, hfields, hlist, fun f hf => ?_⟩
    obtain ⟨hunmarked, -⟩ := nonNull_of_every_history orderCatalog true
      [.step (.reference .input "Order" 0), .step (.fields 0)]
    exact (hunmarked.fields 0 k fields hheld hfields f hf).input hmode
  · cases htypes

end RestGraph.Graph
