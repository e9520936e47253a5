import RestGraph.Proofs.Cause
import RestGraph.Proofs.Repeat

namespace RestGraph.Graph

open Build

/-!
# Links that cannot be built

The links of an object are built one after the other before any of its properties. So the first
link that cannot be built decides how the search for fields fails, in the state that the links
before it left, and up to then nothing but names was stored. No step of translating properties
fails for the reason of a link.
-/

/-! ## Failures of links -/

/-- The failures that are about a link or its operation. -/
inductive OfLink : Failure → Prop
  | withoutOperation (link : String) : OfLink (.linkWithoutOperation link)
  | unknownOperation (item : String) (suggestion : Option String) :
      OfLink (.unknownOperation item suggestion)
  | withoutType (link : String) (operation : Label) : OfLink (.linkWithoutType link operation)

/-- However the build fails, it is not for a link. -/
def SparesLinks {α : Type} (b : Build α) : Prop := ∀ s, Fails (fun _ f => ¬OfLink f) s b

namespace SparesLinks

variable {α β : Type}

protected theorem pure (a : α) : SparesLinks (Pure.pure a : Build α) := fun _ => .pure a

protected theorem throw {f : Failure} (h : ¬OfLink f) :
    SparesLinks (MonadExcept.throw f : Build α) := fun _ => .throw h

protected theorem bind {b : Build α} {k : α → Build β} (hb : SparesLinks b)
    (hk : ∀ a, SparesLinks (k a)) : SparesLinks (b >>= k) := fun s =>
  .bind_any (hb s) fun a s' => hk a s'

protected theorem get : SparesLinks (get : Build State) := fun _ => nofun

protected theorem report (level : Level) (text : String) : SparesLinks (report level text) :=
  fun _ => nofun

protected theorem addType (type : NamedType) : SparesLinks (addType type) := fun _ => nofun

protected theorem setCached (mode : Mode) (key : Label) (type : Option TypeRef) :
    SparesLinks (setCached mode key type) := fun _ => nofun

protected theorem access (x : Value.Access α) : SparesLinks (access x) := by
  cases x with
  | ok a => exact .pure a
  | error b => exact .throw (by rintro ⟨⟩)

protected theorem keyOf (v : Value) : SparesLinks (keyOf v) := .access _

protected theorem cached? (mode : Mode) (key : Label) : SparesLinks (cached? mode key) :=
  .bind .get fun _ => .pure _

protected theorem storeName (text : String) : SparesLinks (storeName text) := by
  refine .bind .get fun s => ?_
  split
  · rename_i fault _
    cases fault <;> exact .throw (by rintro ⟨⟩)
  · exact fun _ => nofun

protected theorem checkTypeName (name : String) : SparesLinks (checkTypeName name) := by
  unfold checkTypeName
  split
  · exact .throw (by rintro ⟨⟩)
  · split
    · exact .throw (by rintro ⟨⟩)
    · exact .pure _

protected theorem checkDescription (described : Described) (v : Value) :
    SparesLinks (checkDescription described v) := by
  unfold checkDescription
  split
  · exact .pure _
  · exact .pure _
  · exact .throw (by rintro ⟨⟩)

protected theorem checkInput {f : Failure} (h : ¬OfLink f) (t : TypeRef) :
    SparesLinks (checkInput f t) := by
  refine .bind .get fun s => ?_
  split
  · exact .pure _
  · exact .throw h

/-! ## Translations -/

theorem of_resolveEnumeration (name : String) (literals : Value) :
    SparesLinks (resolveEnumeration name literals) := by
  refine .bind .get fun s => ?_
  split
  · exact .bind (.report _ _) fun _ => .pure _
  · refine .bind (.report _ _) fun _ => .bind (.access _) fun vs => ?_
    refine .bind ?_ fun members => .bind (.checkTypeName _) fun _ => ?_
    · cases hmembers : membersFrom name [] vs with
      | ok members => exact .pure members
      | error f =>
          rcases failure_of_membersFrom hmembers with ⟨first, second, member, rfl⟩ | ⟨rfl, -⟩ <;>
            exact .throw (by rintro ⟨⟩)
    · exact .bind (.addType _) fun _ => .bind (.setCached _ _ _) fun _ => .pure _

theorem of_objectType (name : Value) (plan : Plan) : SparesLinks (objectType name plan) := by
  refine .bind (.keyOf name) fun label => .bind (.cached? _ _) fun found => ?_
  split
  · exact .pure _
  · refine .bind (.access _) fun _ => .bind (.storeName _) fun _ => ?_
    refine .bind (.checkTypeName _) fun _ => .bind (.checkDescription _ _) fun _ => ?_
    exact .bind (.addType _) fun _ => .bind (.setCached _ _ _) fun _ => .pure _

theorem of_enumerationType (name : Value) (ms : Schema.Members) :
    SparesLinks (enumerationType name ms) := by
  refine .bind (.storeName _) fun typeName => ?_
  split
  · exact .throw (by rintro ⟨⟩)
  · exact .bind (of_resolveEnumeration _ _) fun _ => .pure _

theorem not_ofLink_shapeless (name schema : Value) : ¬OfLink (.shapeless name schema) := by
  unfold Failure.shapeless
  split <;> rintro ⟨⟩

section Deeper

variable {c : Catalog} {mode : Mode} {deeper : Deeper}
  (hdeeper : ∀ name schema, SparesLinks (deeper name schema))
include hdeeper

theorem of_referenceType (name : String) : SparesLinks (referenceType c deeper mode name) := by
  refine .bind (.cached? _ _) fun found => ?_
  split
  · exact .pure _
  · exact .bind (hdeeper _ _) fun _ => .bind (.setCached _ _ _) fun _ => .pure _

theorem of_itemType (name items : Value) : SparesLinks (itemType c deeper mode name items) := by
  unfold itemType
  split
  · exact .bind (.access _) fun _ => of_referenceType hdeeper _
  · split
    · split
      · exact .throw (not_ofLink_shapeless _ _)
      · exact .pure _
      · exact hdeeper _ _
      · exact hdeeper _ _
    · exact .throw (by rintro ⟨⟩)

theorem of_listType (name : Value) (ms : Schema.Members) :
    SparesLinks (listType c deeper mode name ms) := by
  unfold listType
  split
  · exact .throw (by rintro ⟨⟩)
  · exact .bind (of_itemType hdeeper name _) fun _ => .pure _

end Deeper

theorem of_translate (c : Catalog) (mode : Mode) (name schema : Value)
    (links : Table String Link) (iteration : Int) :
    SparesLinks (translate c mode name schema links iteration) := by
  fun_induction translate c mode name schema links iteration with
  | case1 => exact .throw (by rintro ⟨⟩)
  | case2 => exact .throw (not_ofLink_shapeless _ _)
  | case3 => exact of_objectType _ _
  | case4 => exact of_enumerationType _ _
  | case5 => exact .bind (.report _ _) fun _ => .pure _
  | case6 name links iteration _ ms _ ih => exact of_listType ih name ms
  | case7 => exact .pure _
  | case8 => exact .throw (by rintro ⟨⟩)

theorem of_propertyType (c : Catalog) (plan : Plan) (name : String) (schema : Value) :
    SparesLinks (propertyType c plan name schema) := by
  cases htarget : Schema.target? schema with
  | some target =>
      rw [propertyType_of_target c plan name htarget]
      exact .bind (.access _) fun _ => of_referenceType (fun _ _ => of_translate c _ _ _ _ _) _
  | none =>
      rw [propertyType_of_inline c plan name htarget]
      refine .bind ?_ fun _ => of_translate c _ _ _ _ _
      unfold noteShadowed
      split
      · split
        · exact .throw (by rintro ⟨⟩)
        · exact .report _ _
      · exact .pure _

theorem of_propertyField (mode : Mode) (required : List String) (name fieldName : String)
    (type : TypeRef) (description : Value) :
    SparesLinks (propertyField mode required name fieldName type description) := by
  have hinput : ¬OfLink .inputFieldNotInput := nofun
  cases mode with
  | input =>
      refine .bind (.checkInput hinput _) fun _ => ?_
      exact .bind (.checkDescription _ _) fun _ => .pure _
  | output => exact .bind (.checkDescription _ _) fun _ => .pure _

theorem of_propertyFields (c : Catalog) (plan : Plan) (required : List String)
    (ps : List (String × Value)) : SparesLinks (propertyFields c plan required ps) := by
  induction ps with
  | nil => exact .pure _
  | cons p ps ih =>
      refine .bind (of_propertyType c plan p.1 p.2) fun type => ?_
      split
      · exact ih
      · refine .bind (.storeName _) fun _ => .bind (of_propertyField _ _ _ _ _ _) fun _ => ?_
        exact .bind ih fun _ => .pure _

/-! ## Arguments -/

theorem of_presets (link : String) (found : Table String String)
    (parameters : List (Label × Value)) : SparesLinks (presets link found parameters) := fun _ =>
  .presets link found parameters

theorem of_parameterArguments (c : Catalog) (found : Table String Argument)
    (ps : List Parameter) : SparesLinks (parameterArguments c found ps) := by
  induction ps generalizing found with
  | nil => exact .pure _
  | cons p ps ih =>
      unfold parameterArguments
      split
      · split
        · exact .bind (.report _ _) fun _ => ih _
        · exact .bind (.storeName _) fun _ => ih _
      · exact .bind (.report _ _) fun _ => ih _

theorem of_argumentDefs (found : List (String × Argument)) :
    SparesLinks (argumentDefs found) := by
  have hinput : ¬OfLink .argumentNotInput := nofun
  induction found with
  | nil => exact .pure _
  | cons e found ih =>
      unfold argumentDefs Argument.def?
      refine .bind ?_ fun _ => .bind ih fun _ => .pure _
      exact .bind (.checkInput hinput _) fun _ => .bind (.checkDescription _ _) fun _ => .pure _

end SparesLinks

/-! ## One link -/

/-- The parameters of a link's operation that the response of the parent supplies, and the
arguments for the others. -/
def linkArguments (c : Catalog) (name : String) (link : Link) (o : Operation) :
    Build (Table String String × Table String Argument) := do
  let preset ← presets name [] link.parameters
  let remaining ← access (withoutPresets preset o.parameters)
  let found ← arguments c remaining none false
  return (preset, found)

theorem keeps_linkArguments {R : State → State → Prop} [NameFrame R] (c : Catalog) (name : String)
    (link : Link) (o : Operation) : Keeps R (linkArguments c name link o) := by
  refine (keeps_presets _ _ _).bind fun _ => (keeps_access _).bind fun remaining => ?_
  have hfound : Keeps R (arguments c remaining none false) :=
    (keeps_parameterArguments c [] remaining).bind fun _ => .pure _
  exact hfound.bind fun _ => .pure _

theorem sparesLinks_linkArguments (c : Catalog) (name : String) (link : Link) (o : Operation) :
    SparesLinks (linkArguments c name link o) := by
  refine .bind (.of_presets _ _ _) fun _ => .bind (.access _) fun _ => ?_
  exact .bind (.bind (.of_parameterArguments _ _ _) fun _ => .pure _) fun _ => .pure _

/-- The field of a link whose operation has its arguments named: the type of the response, with
a request for what the response of the parent does not supply. -/
def linkResponse (name : String) (link : Link) (o : Operation)
    (made : Table String String × Table String Argument) : Build Field := do
  match ← responseType? o with
  | none => throw (.linkWithoutType name o.id)
  | some type => do
      let defs ← argumentDefs made.2
      let description ← checkDescription .typeOrField link.description
      return ⟨type, description, defs, some (.request o made.1)⟩

theorem linkArguments_bind {β : Type} (c : Catalog) (name : String) (link : Link) (o : Operation)
    (k : Table String String × Table String Argument → Build β) :
    linkArguments c name link o >>= k = (do
      let preset ← presets name [] link.parameters
      let remaining ← access (withoutPresets preset o.parameters)
      let found ← arguments c remaining none false
      k (preset, found)) := by
  simp only [linkArguments, bind_assoc, pure_bind]

theorem linkField_of_identified (c : Catalog) (name : String) {link : Link}
    (h : link.operationId ≠ .null) :
    linkField c name link = (do
      let o ← liftExcept (c.operation link.operationId)
      linkArguments c name link o >>= linkResponse name link o) := by
  unfold linkField
  split
  · rename_i hnull
    exact absurd hnull h
  · exact bind_congr fun o => (linkArguments_bind c name link o (linkResponse name link o)).symm

/-- Why a link cannot be built from some state: it names no operation, or one that there is not,
or one without a type for its response. The arguments of the operation are named before its
response is looked for. -/
inductive LinkFault (c : Catalog) (s : State) (name : String) (link : Link) : Failure → Prop
  | unidentified (absent : link.operationId = .null) :
      LinkFault c s name link (.linkWithoutOperation name)
  | unknown {id : String} {ids : List String} (identified : link.operationId = .text id)
      (absent : Table.get? c.operations (.ofText id) = none)
      (known : (Table.keys c.operations).mapM Label.text? = some ids) :
      LinkFault c s name link (.unknownOperation id (Similarity.closest? id ids))
  | untyped {id : String} {o : Operation} (identified : link.operationId = .text id)
      (found : Table.get? c.operations (.ofText id) = some o)
      (named : ∃ made s', (linkArguments c name link o).run s = (.ok made, s'))
      (bare : (o.response.bind fun response => s.output? (.ofText response)) = none) :
      LinkFault c s name link (.linkWithoutType name o.id)

section OneLink

variable {c : Catalog} {s s' : State} {name : String} {link : Link}

theorem operation_of_text (c : Catalog) (id : String) :
    c.operation (.text id) =
      match Table.get? c.operations (.ofText id) with
      | some o => .ok o
      | none => .error (c.unknown (.ofText id)) := rfl

theorem run_responseType? (o : Operation) (s : State) :
    (responseType? o).run s = (.ok (s.output? (.ofText (o.response.getD ""))), s) := rfl

/-- With nothing under the empty name, a response without a name has no type. -/
theorem output?_of_response (hempty : s.output? (.ofText "") = none) (o : Operation) :
    s.output? (.ofText (o.response.getD "")) =
      o.response.bind fun response => s.output? (.ofText response) := by
  cases o.response with
  | none => exact hempty
  | some response => rfl

theorem OnlyNamed.output? (h : OnlyNamed s s') (key : Label) : s'.output? key = s.output? key := by
  unfold State.output?
  rw [h.outputs]

theorem run_linkResponse (made : Table String String × Table String Argument) (o : Operation) :
    (linkResponse name link o made).run s =
      match s.output? (.ofText (o.response.getD "")) with
      | none => (.error (.linkWithoutType name o.id), s)
      | some type => (do
          let defs ← argumentDefs made.2
          let description ← checkDescription .typeOrField link.description
          return (⟨type, description, defs, some (.request o made.1)⟩ : Field)).run s := by
  unfold linkResponse
  rw [run_bind, run_responseType?]
  cases s.output? (.ofText (o.response.getD "")) <;> rfl

theorem linkField_of_fault {f : Failure} (hempty : s.output? (.ofText "") = none)
    (h : LinkFault c s name link f) : ∃ s', (linkField c name link).run s = (.error f, s') := by
  cases h with
  | unidentified absent =>
      refine ⟨s, ?_⟩
      unfold linkField
      rw [absent]
      rfl
  | @unknown id ids identified absent known =>
      refine ⟨s, ?_⟩
      have hunknown : c.operation link.operationId =
          .error (.unknownOperation id (Similarity.closest? id ids)) := by
        rw [identified, operation_of_text, absent]
        simp only [Catalog.unknown, Label.text?_ofText, known]
      rw [linkField_of_identified c name (by simp [identified]), hunknown]
      rfl
  | @untyped id o identified found named bare =>
      obtain ⟨⟨preset, arguments⟩, s₁, hrun⟩ := named
      have hnamed : OnlyNamed s s₁ := (keeps_linkArguments c name link o).of_run hrun
      refine ⟨s₁, ?_⟩
      have hfound : c.operation link.operationId = .ok o := by
        rw [identified, operation_of_text, found]
      have hnone : s₁.output? (.ofText (o.response.getD "")) = none := by
        rw [hnamed.output?, output?_of_response hempty, bare]
      rw [linkField_of_identified c name (by simp [identified]), hfound]
      simp only [liftExcept, pure_bind]
      rw [run_bind, hrun]
      simp only [run_linkResponse, hnone]

theorem fault_of_linkField {f : Failure} (hempty : s.output? (.ofText "") = none)
    (hid : link.operationId = .null ∨ ∃ id, link.operationId = .text id)
    (hkeys : ∀ id ∈ Table.keys c.operations, ∃ text, id.text? = some text)
    (hrun : (linkField c name link).run s = (.error f, s')) (hf : OfLink f) :
    LinkFault c s name link f := by
  rcases hid with hnull | ⟨id, hid⟩
  · have hthrown : linkField c name link = throw (.linkWithoutOperation name) := by
      unfold linkField
      rw [hnull]
    rw [hthrown] at hrun
    obtain rfl := Except.error.inj (Prod.mk.inj hrun).1
    exact .unidentified hnull
  · rw [linkField_of_identified c name (by simp [hid]), hid, operation_of_text] at hrun
    cases hfound : Table.get? c.operations (.ofText id) with
    | none =>
        obtain ⟨ids, hids⟩ := exists_mapM_eq_pure hkeys
        rw [hfound] at hrun
        obtain rfl := Except.error.inj (Prod.mk.inj hrun).1
        simp only [Catalog.unknown, Label.text?_ofText, hids] at hf ⊢
        exact .unknown hid hfound hids
    | some o =>
        rw [hfound] at hrun
        simp only [liftExcept, pure_bind] at hrun
        rcases run_bind_eq_error.mp hrun with hrun | ⟨⟨preset, found⟩, s₁, harguments, hrun⟩
        · exact absurd hf (sparesLinks_linkArguments c name link o s f (by rw [hrun]))
        · have hnamed : OnlyNamed s s₁ := (keeps_linkArguments c name link o).of_run harguments
          rw [run_linkResponse, hnamed.output?, output?_of_response hempty] at hrun
          cases hbare : o.response.bind fun response => s.output? (.ofText response) with
          | none =>
              rw [hbare] at hrun
              obtain rfl := Except.error.inj (Prod.mk.inj hrun).1
              exact .untyped hid hfound ⟨_, _, harguments⟩ hbare
          | some type =>
              rw [hbare] at hrun
              have hrest : SparesLinks (do
                  let defs ← argumentDefs found
                  let description ← checkDescription .typeOrField link.description
                  return (⟨type, description, defs, some (.request o preset)⟩ : Field)) :=
                .bind (.of_argumentDefs _) fun _ => .bind (.checkDescription _ _) fun _ => .pure _
              exact absurd hf (hrest s₁ f (congrArg Prod.fst hrun))

end OneLink

/-! ## All links -/

section Links

variable {c : Catalog} {s s' s₁ : State} {name : String} {link : Link} {f : Failure}

theorem linkFields_cons (c : Catalog) (e : String × Link) (links : List (String × Link)) :
    linkFields c (e :: links) = (do
      let field ← linkField c e.1 e.2
      let fieldName ← storeName e.1
      return (fieldName, field) :: (← linkFields c links)) := rfl

theorem linkFields_of_split {before : List (String × Link)} (after : List (String × Link))
    {built : List (String × Field)} (hbefore : (linkFields c before).run s = (.ok built, s₁))
    (hlink : (linkField c name link).run s₁ = (.error f, s')) :
    (linkFields c (before ++ (name, link) :: after)).run s = (.error f, s') := by
  induction before generalizing s built with
  | nil =>
      obtain ⟨-, rfl⟩ := Prod.mk.inj hbefore
      exact run_bind_eq_error.mpr (.inl hlink)
  | cons e before ih =>
      rw [linkFields_cons] at hbefore
      obtain ⟨field, t, hfield, hbefore⟩ := run_bind_eq_ok.mp hbefore
      obtain ⟨fieldName, u, hname, hbefore⟩ := run_bind_eq_ok.mp hbefore
      obtain ⟨rest, v, hrest, hbefore⟩ := run_bind_eq_ok.mp hbefore
      obtain ⟨-, rfl⟩ := Prod.mk.inj hbefore
      refine run_bind_eq_error.mpr (.inr ⟨field, t, hfield, ?_⟩)
      refine run_bind_eq_error.mpr (.inr ⟨fieldName, u, hname, ?_⟩)
      exact run_bind_eq_error.mpr (.inl (ih hrest))

/-- The links fail for the reason of a link at one of them. -/
theorem split_of_linkFields {links : List (String × Link)}
    (hrun : (linkFields c links).run s = (.error f, s')) (hf : OfLink f) :
    ∃ before name link after built s₁, links = before ++ (name, link) :: after ∧
      (linkFields c before).run s = (.ok built, s₁) ∧
      (linkField c name link).run s₁ = (.error f, s') := by
  induction links generalizing s with
  | nil => cases hrun
  | cons e links ih =>
      rw [linkFields_cons] at hrun
      rcases run_bind_eq_error.mp hrun with hfield | ⟨field, t, hfield, hrun⟩
      · exact ⟨[], e.1, e.2, links, [], s, rfl, rfl, hfield⟩
      rcases run_bind_eq_error.mp hrun with hname | ⟨fieldName, u, hname, hrun⟩
      · exact absurd hf (SparesLinks.storeName e.1 t f (by rw [hname]))
      rcases run_bind_eq_error.mp hrun with hrest | ⟨rest, v, -, hrun⟩
      · obtain ⟨before, name, link, after, built, s₁, rfl, hbefore, hlink⟩ := ih hrest
        refine ⟨e :: before, name, link, after, (fieldName, field) :: built, s₁, rfl, ?_, hlink⟩
        rw [linkFields_cons]
        refine run_bind_eq_ok.mpr ⟨field, t, hfield, ?_⟩
        refine run_bind_eq_ok.mpr ⟨fieldName, u, hname, ?_⟩
        exact run_bind_eq_ok.mpr ⟨built, s₁, hbefore, rfl⟩
      · cases hrun

end Links

theorem fieldsOf_of_first {c : Catalog} {plan : Plan} (hmode : plan.mode = .output)
    (hiteration : plan.iteration = 0) :
    fieldsOf c plan = (do
      let required ← access (requiredNames plan.schema)
      let links ← linkFields c plan.links
      let ps ← access (properties plan.schema)
      let own ← propertyFields c plan required ps
      return Table.ofList (own ++ links)) := by
  have hlinks : planLinks c plan = linkFields c plan.links := by
    simp [planLinks, hmode, hiteration]
  rw [fieldsOf_eq, hlinks]

/-- In every state and for every object at the first level, with links whose operations are
given by texts, if nothing is kept under the empty name: once it is read what is required, the
search for fields fails with the first link that cannot be built for lack of an operation or of
the type of its response, in the state that the links alone leave, which has the types and the
caches of the beginning. It fails with a failure of links for no other reason. -/
theorem link_failures_of_every_object {c : Catalog} {s : State} {plan : Plan}
    (hmode : plan.mode = .output) (hiteration : plan.iteration = 0)
    (hids : ∀ e ∈ plan.links, e.2.operationId = .null ∨ ∃ id, e.2.operationId = .text id)
    (hkeys : ∀ id ∈ Table.keys c.operations, ∃ text, id.text? = some text)
    (hempty : s.output? (.ofText "") = none) :
    (∀ required before name link after built s₁ f,
      requiredNames plan.schema = .ok required → plan.links = before ++ (name, link) :: after →
      (linkFields c before).run s = (.ok built, s₁) → LinkFault c s₁ name link f →
      ∃ s', (fieldsOf c plan).run s = (.error f, s') ∧
        (linkFields c plan.links).run s = (.error f, s') ∧ OnlyNamed s s') ∧
    ∀ f s', (fieldsOf c plan).run s = (.error f, s') → OfLink f →
      ∃ before name link after built s₁, plan.links = before ++ (name, link) :: after ∧
        (linkFields c before).run s = (.ok built, s₁) ∧ LinkFault c s₁ name link f := by
  -- the links before the one of interest leave what is kept under the empty name
  have hstill : ∀ {before built s₁}, (linkFields c before).run s = (.ok built, s₁) →
      s₁.output? (.ofText "") = none := by
    intro before built s₁ hbefore
    have hnamed : OnlyNamed s s₁ := (keeps_linkFields c before).of_run hbefore
    rw [hnamed.output?, hempty]
  rw [fieldsOf_of_first hmode hiteration]
  constructor
  · intro required before name link after built s₁ f hrequired hsplit hbefore hfault
    obtain ⟨s', hlink⟩ := linkField_of_fault (hstill hbefore) hfault
    have hall : (linkFields c plan.links).run s = (.error f, s') := by
      rw [hsplit]
      exact linkFields_of_split after hbefore hlink
    refine ⟨s', ?_, hall, (keeps_linkFields c plan.links).of_run hall⟩
    rw [hrequired]
    refine run_bind_eq_error.mpr (.inr ⟨required, s, rfl, ?_⟩)
    exact run_bind_eq_error.mpr (.inl hall)
  · intro f s' hrun hf
    rcases run_bind_eq_error.mp hrun with hrun | ⟨required, t, hread, hrun⟩
    · exact absurd hf (SparesLinks.access (requiredNames plan.schema) s f (by rw [hrun]))
    obtain rfl : s = t := (keeps_access (requiredNames plan.schema)).of_run hread
    rcases run_bind_eq_error.mp hrun with hrun | ⟨links, t, -, hrun⟩
    · obtain ⟨before, name, link, after, built, s₁, hsplit, hbefore, hlink⟩ :=
        split_of_linkFields hrun hf
      have hid := hids (name, link) (by simp [hsplit])
      exact ⟨before, name, link, after, built, s₁, hsplit, hbefore,
        fault_of_linkField (hstill hbefore) hid hkeys hlink hf⟩
    · have hrest : SparesLinks (do
          let ps ← access (properties plan.schema)
          let own ← propertyFields c plan required ps
          return Table.ofList (own ++ links)) :=
        .bind (.access _) fun _ => .bind (.of_propertyFields c plan required _) fun _ => .pure _
      exact absurd hf (hrest t f (by rw [hrun]))

/-! ### Example links -/

def linkTo (name : String) (operation : Value) : String × Link :=
  (name, ⟨name, operation, .null, [], .null⟩)

/-- An operation that answers with what is kept under its own name. -/
def answeringOperation (id : String) : Operation :=
  ⟨.ofText id, "get", "/" ++ id, [], some id, none, false, [], .null⟩

def ownersCatalog : Catalog :=
  { Catalog.empty default false with
    operations := [(.ofText "pets", answeringOperation "pets")] }

/-- Only the type of `pets` is kept. -/
def petsKept : State :=
  { State.empty false with outputs := [(.ofText "pets", some (.scalar .string))] }

def linkedPlan (required : Value) (links : Table String Link) : Plan :=
  ⟨[("type", .text "object"), ("required", required),
    ("properties", .map [("name", .map [("type", .text "string")])])], links, .output, 0⟩

/-- The first link leads to pets, the second one nowhere, and the last one is not looked at. -/
def threeLinks : Table String Link :=
  [linkTo "pets" (.text "pets"), linkTo "owner" (.text "pet"), linkTo "shop" .null]

theorem owner_of_pets_is_unknown :
    (∀ e ∈ threeLinks, e.2.operationId = .null ∨ ∃ id, e.2.operationId = .text id) ∧
    ∃ s', (fieldsOf ownersCatalog (linkedPlan (.list [.text "name"]) threeLinks)).run petsKept =
        (.error (.unknownOperation "pet" (some "pets")), s') ∧ OnlyNamed petsKept s' := by
  have hids : ∀ e ∈ threeLinks, e.2.operationId = .null ∨ ∃ id, e.2.operationId = .text id := by
    simp [threeLinks, linkTo]
  have hkeys : ∀ id ∈ Table.keys ownersCatalog.operations, ∃ text, id.text? = some text := by
    simp [ownersCatalog, Table.keys]
  have hbefore : ∃ built s₁, (linkFields ownersCatalog [linkTo "pets" (.text "pets")]).run
      petsKept = (.ok built, s₁) := ⟨_, _, rfl⟩
  obtain ⟨built, s₁, hbefore⟩ := hbefore
  have hclosest : Similarity.closest? "pet" ["pets"] = some "pets" := by decide +kernel
  have hfault : LinkFault ownersCatalog s₁ "owner" (linkTo "owner" (.text "pet")).2
      (.unknownOperation "pet" (some "pets")) := hclosest ▸ .unknown rfl rfl rfl
  obtain ⟨hraised, -⟩ := @link_failures_of_every_object ownersCatalog petsKept
    (linkedPlan (.list [.text "name"]) threeLinks) rfl rfl hids hkeys rfl
  obtain ⟨s', hrun, -, hnamed⟩ :=
    hraised ["name"] [linkTo "pets" (.text "pets")] _ _ _ built s₁ _ rfl rfl hbefore hfault
  exact ⟨hids, s', hrun, hnamed⟩

def silentOperation : Operation := { answeringOperation "pets" with response := none }

def silentCatalog : Catalog :=
  { Catalog.empty default false with operations := [(.ofText "pets", silentOperation)] }

def emptyKept : State :=
  { State.empty false with outputs := [(.ofText "", some (.scalar .string))] }

/-- What is required cannot be read, which is met before a link without an operation. And a target
without a response passes where something is kept under the empty name. -/
theorem faulty_links_pass :
    (LinkFault ownersCatalog petsKept "owner" (linkTo "owner" .null).2
      (.linkWithoutOperation "owner") ∧
    (fieldsOf ownersCatalog (linkedPlan (.bool true) [linkTo "owner" .null])).run petsKept =
      (.error (.malformed .wrongKind), petsKept)) ∧
    LinkFault silentCatalog emptyKept "owner" (linkTo "owner" (.text "pets")).2
      (.linkWithoutType "owner" silentOperation.id) ∧
    ((fieldsOf silentCatalog (linkedPlan (.list []) [linkTo "owner" (.text "pets")])).run
      emptyKept).1.toOption.isSome = true := by
  refine ⟨⟨.unidentified rfl, rfl⟩, .untyped rfl rfl ⟨_, _, rfl⟩ rfl, ?_⟩
  decide +kernel

end RestGraph.Graph
