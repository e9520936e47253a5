import RestGraph.Graph.Field
import RestGraph.Proofs.Build

namespace RestGraph.Graph

/-!
# What builds change

A relation that holds across each elementary change of the state holds across every build.
The parts that never touch types are kept apart: they only store names and write the log.
-/

namespace Build

variable {R : State → State → Prop} {α β : Type}

/-- Whatever its outcome, `b` leaves a state related to the one that it is run from. -/
def Keeps (R : State → State → Prop) (b : Build α) : Prop := ∀ s, R s (b.run s).2

theorem Keeps.ensures {b : Build α} (h : Keeps R b) (s : State) :
    Ensures R s b fun _ _ => True :=
  ⟨h s, fun _ _ => trivial⟩

theorem Keeps.of_run {b : Build α} (h : Keeps R b) {s s' : State} {result : Except Failure α}
    (hrun : b.run s = (result, s')) : R s s' := by
  have hs := h s
  rwa [hrun] at hs

theorem Keeps.ensures_run {b : Build α} (h : Keeps R b) (s : State) :
    Ensures R s b fun a s' => b.run s = (.ok a, s') :=
  ⟨h s, fun _ ha => Prod.ext ha rfl⟩

theorem Keeps.get [IsPreorder State R] : Keeps R (get : Build State) := fun s => refl_of R s

section Rules

variable [IsPreorder State R]

protected theorem Keeps.pure (a : α) : Keeps R (Pure.pure a : Build α) := fun s => refl_of R s

protected theorem Keeps.throw (f : Failure) : Keeps R (MonadExcept.throw f : Build α) :=
  fun s => refl_of R s

protected theorem Keeps.bind {b : Build α} {f : α → Build β} (hb : Keeps R b)
    (hf : ∀ a, Keeps R (f a)) : Keeps R (b >>= f) := fun s =>
  (Ensures.bind (hb.ensures s) fun a s' _ _ => (hf a).ensures s').1

theorem Keeps.throw_bind (f : Failure) (g : α → Build β) :
    Keeps R (MonadExcept.throw f >>= g) := fun s => refl_of R s

theorem keeps_access (x : Value.Access α) : Keeps R (access x) := fun _ =>
  (Ensures.access (Q := fun _ _ => True) fun _ _ => trivial).1

theorem keeps_liftExcept (x : Except Failure α) : Keeps R (liftExcept x) := fun _ =>
  (Ensures.liftExcept (Q := fun _ _ => True) fun _ _ => trivial).1

theorem keeps_keyOf (v : Value) : Keeps R (keyOf v) := keeps_access _

theorem keeps_cached? (mode : Mode) (key : Label) : Keeps R (cached? mode key) :=
  Keeps.get.bind fun _ => .pure _

theorem keeps_checkTypeName (name : String) : Keeps R (checkTypeName name) := by
  unfold checkTypeName
  split
  · exact .throw _
  · split
    · exact .throw _
    · exact .pure _

theorem keeps_checkDescription (described : Described) (v : Value) :
    Keeps R (checkDescription described v) := by
  unfold checkDescription
  split
  · exact .pure _
  · exact .pure _
  · exact .throw _

theorem keeps_checkInput (f : Failure) (t : TypeRef) : Keeps R (checkInput f t) := by
  refine Keeps.get.bind fun s => ?_
  split
  · exact .pure _
  · exact .throw _

theorem keeps_responseType? (o : Operation) : Keeps R (responseType? o) :=
  Keeps.get.bind fun _ => .pure _

theorem keeps_propertyField (mode : Mode) (required : List String) (name fieldName : String)
    (type : TypeRef) (description : Value) :
    Keeps R (propertyField mode required name fieldName type description) := by
  cases mode with
  | input =>
      exact (keeps_checkInput _ _).bind fun _ => (keeps_checkDescription _ _).bind fun _ => .pure _
  | output => exact (keeps_checkDescription _ _).bind fun _ => .pure _

end Rules

/-! ## Steps that only name and note -/

/-- A relation that storing a name and writing the log hold to. -/
class NameFrame (R : State → State → Prop) : Prop extends IsPreorder State R where
  log : ∀ s log, R s { s with log := log }
  store : ∀ s text name names log, s.names.store text = .ok (name, names) →
    R s { s with names := names, log := log }

section Names

variable [NameFrame R]

theorem keeps_report (level : Level) (text : String) : Keeps R (report level text) := fun s =>
  NameFrame.log s _

theorem keeps_storeName (text : String) : Keeps R (storeName text) := fun s =>
  (Ensures.storeName (Q := fun _ _ => True) text fun name names log hstore =>
    ⟨NameFrame.store s text name names log hstore, trivial⟩).1

theorem keeps_parameterArguments (c : Catalog) (found : Table String Argument)
    (ps : List Parameter) : Keeps R (parameterArguments c found ps) := by
  induction ps generalizing found with
  | nil => exact .pure _
  | cons p ps ih =>
      unfold parameterArguments
      split
      · split
        · exact (keeps_report _ _).bind fun _ => ih _
        · exact (keeps_storeName _).bind fun _ => ih _
      · exact (keeps_report _ _).bind fun _ => ih _

theorem keeps_argumentDefs (found : List (String × Argument)) : Keeps R (argumentDefs found) := by
  induction found with
  | nil => exact .pure _
  | cons e found ih =>
      unfold argumentDefs Argument.def?
      refine .bind ?_ fun d => ih.bind fun ds => .pure _
      exact (keeps_checkInput _ _).bind fun _ => (keeps_checkDescription _ _).bind fun _ => .pure _

theorem keeps_presets (link : String) (found : Table String String)
    (parameters : List (Label × Value)) : Keeps R (presets link found parameters) := by
  induction parameters generalizing found with
  | nil => exact .pure _
  | cons e parameters ih =>
      unfold presets
      split
      · split
        · exact ih _
        · exact ih _
      · exact (keeps_report _ _).bind fun _ => ih _

theorem keeps_linkField (c : Catalog) (name : String) (link : Link) :
    Keeps R (linkField c name link) := by
  unfold linkField
  split
  · exact .throw _
  · refine (keeps_liftExcept _).bind fun o => (keeps_presets _ _ _).bind fun preset => ?_
    refine (keeps_access _).bind fun remaining => ?_
    have hfound : Keeps R (arguments c remaining none false) :=
      (keeps_parameterArguments c [] remaining).bind fun _ => .pure _
    refine hfound.bind fun found => (keeps_responseType? o).bind fun type => ?_
    split
    · exact .throw _
    · exact (keeps_argumentDefs found).bind fun _ =>
        (keeps_checkDescription _ _).bind fun _ => .pure _

def noteShadowed (c : Catalog) (name : String) : Build Unit :=
  if c.defines name then
    if c.config.failOnCollision then throw (.shadowedDefinition name)
    else report .warning ("Creating type for property with colliding name `" ++ name ++ "`")
  else pure ()

theorem propertyType_of_target (c : Catalog) (plan : Plan) (name : String) {schema target : Value}
    (h : Schema.target? schema = some target) :
    propertyType c plan name schema =
      access (Schema.referenceName target) >>= fun n =>
        resolveReference c plan.mode n plan.iteration := by
  simp only [propertyType, h]

theorem propertyType_of_inline (c : Catalog) (plan : Plan) (name : String) {schema : Value}
    (h : Schema.target? schema = none) :
    propertyType c plan name schema =
      noteShadowed c name >>= fun _ =>
        translate c plan.mode (.text name) schema [] (plan.iteration + 1) := by
  simp only [propertyType, h, noteShadowed]
  split
  · split <;> rfl
  · rfl

def planLinks (c : Catalog) (plan : Plan) : Build (List (String × Field)) :=
  if plan.iteration == 0 && plan.mode == .output then linkFields c plan.links else pure []

theorem fieldsOf_eq (c : Catalog) (plan : Plan) :
    fieldsOf c plan = (do
      let required ← access (requiredNames plan.schema)
      let links ← planLinks c plan
      let ps ← access (properties plan.schema)
      let own ← propertyFields c plan required ps
      return Table.ofList (own ++ links)) := by
  unfold fieldsOf planLinks
  split <;> rfl

theorem keeps_noteShadowed (c : Catalog) (name : String) : Keeps R (noteShadowed c name) := by
  unfold noteShadowed
  split
  · split
    · exact .throw _
    · exact keeps_report _ _
  · exact .pure _

theorem keeps_linkFields (c : Catalog) (links : List (String × Link)) :
    Keeps R (linkFields c links) := by
  induction links with
  | nil => exact .pure _
  | cons e links ih =>
      exact (keeps_linkField c e.1 e.2).bind fun _ => (keeps_storeName _).bind fun _ =>
        ih.bind fun _ => .pure _

theorem keeps_planLinks (c : Catalog) (plan : Plan) : Keeps R (planLinks c plan) := by
  unfold planLinks
  split
  · exact keeps_linkFields c plan.links
  · exact .pure _

end Names

/-! ## Steps that make types -/

/-- A relation that adding and caching types hold to as well. -/
class TypeFrame (R : State → State → Prop) : Prop extends NameFrame R where
  addType : ∀ s type, R s { s with types := s.types.push type }
  setCached : ∀ (s : State) mode key type, R s (s.setCached mode key type)

section Types

variable [TypeFrame R]

theorem keeps_addType (type : NamedType) : Keeps R (addType type) := fun s =>
  TypeFrame.addType s type

theorem keeps_setCached (mode : Mode) (key : Label) (type : Option TypeRef) :
    Keeps R (setCached mode key type) := fun s => TypeFrame.setCached s mode key type

theorem keeps_resolveEnumeration (name : String) (literals : Value) :
    Keeps R (resolveEnumeration name literals) := by
  refine Keeps.get.bind fun s => ?_
  split
  · exact (keeps_report _ _).bind fun _ => .pure _
  · exact (keeps_report _ _).bind fun _ => (keeps_access _).bind fun _ =>
      (keeps_liftExcept _).bind fun _ => (keeps_checkTypeName _).bind fun _ =>
      (keeps_addType _).bind fun _ => (keeps_setCached _ _ _).bind fun _ => .pure _

theorem keeps_objectType (name : Value) (plan : Plan) : Keeps R (objectType name plan) := by
  refine (keeps_keyOf name).bind fun key => (keeps_cached? _ _).bind fun found => ?_
  split
  · exact .pure _
  · exact (keeps_access _).bind fun _ => (keeps_storeName _).bind fun _ =>
      (keeps_checkTypeName _).bind fun _ => (keeps_checkDescription _ _).bind fun _ =>
      (keeps_addType _).bind fun _ => (keeps_setCached _ _ _).bind fun _ => .pure _

theorem keeps_referenceType (c : Catalog) {deeper : Deeper}
    (h : ∀ name schema, Keeps R (deeper name schema)) (mode : Mode) (name : String) :
    Keeps R (referenceType c deeper mode name) := by
  refine (keeps_cached? _ _).bind fun found => ?_
  split
  · exact .pure _
  · exact (h _ _).bind fun _ => (keeps_setCached _ _ _).bind fun _ => .pure _

theorem keeps_itemType (c : Catalog) {deeper : Deeper}
    (h : ∀ name schema, Keeps R (deeper name schema)) (mode : Mode) (name items : Value) :
    Keeps R (itemType c deeper mode name items) := by
  unfold itemType
  split
  · exact (keeps_access _).bind fun _ => keeps_referenceType c h mode _
  · split
    · split
      · exact .throw _
      · exact .pure _
      · exact h _ _
      · exact h _ _
    · exact .throw _

theorem keeps_listType (c : Catalog) {deeper : Deeper}
    (h : ∀ name schema, Keeps R (deeper name schema)) (mode : Mode) (name : Value)
    (s : Schema.Members) : Keeps R (listType c deeper mode name s) := by
  unfold listType
  split
  · exact .throw _
  · exact (keeps_itemType c h mode name _).bind fun _ => .pure _

theorem keeps_enumerationType (name : Value) (s : Schema.Members) :
    Keeps R (enumerationType name s) := by
  refine (keeps_storeName _).bind fun typeName => ?_
  split
  · exact .throw _
  · exact (keeps_resolveEnumeration _ _).bind fun _ => .pure _

theorem keeps_translate (c : Catalog) (mode : Mode) (name schema : Value)
    (links : Table String Link) (iteration : Int) :
    Keeps R (translate c mode name schema links iteration) := by
  fun_induction translate c mode name schema links iteration with
  | case1 => exact .throw _
  | case2 => exact .throw _
  | case3 => exact keeps_objectType _ _
  | case4 => exact keeps_enumerationType _ _
  | case5 => exact (keeps_report _ _).bind fun _ => .pure _
  | case6 name links iteration _ s _ ih => exact keeps_listType c ih mode name s
  | case7 => exact .pure _
  | case8 => exact .throw _

theorem keeps_resolveReference (c : Catalog) (mode : Mode) (name : String) (iteration : Int) :
    Keeps R (resolveReference c mode name iteration) :=
  keeps_referenceType c (fun _ _ => keeps_translate c mode _ _ _ _) mode name

theorem keeps_bodyType (c : Catalog) (name : String) : Keeps R (bodyType c name) := by
  refine (keeps_cached? _ _).bind fun found => ?_
  split
  · exact .pure _
  · exact keeps_translate c _ _ _ _ _

theorem keeps_bodyArgument (c : Catalog) (found : Table String Argument) (name : String)
    (required : Bool) : Keeps R (bodyArgument c found name required) := by
  refine (keeps_bodyType c name).bind fun type => ?_
  split
  · exact .pure _
  · exact (keeps_storeName _).bind fun _ => (keeps_access _).bind fun _ => .pure _

theorem keeps_arguments (c : Catalog) (ps : List Parameter) (body : Option String)
    (required : Bool) : Keeps R (arguments c ps body required) := by
  refine (keeps_parameterArguments c [] ps).bind fun found => ?_
  cases body with
  | none => exact .pure _
  | some name => exact keeps_bodyArgument c found name required

theorem keeps_propertyType (c : Catalog) (plan : Plan) (name : String) (schema : Value) :
    Keeps R (propertyType c plan name schema) := by
  cases htarget : Schema.target? schema with
  | some target =>
      rw [propertyType_of_target c plan name htarget]
      exact (keeps_access _).bind fun _ => keeps_resolveReference c _ _ _
  | none =>
      rw [propertyType_of_inline c plan name htarget]
      exact (keeps_noteShadowed c name).bind fun _ => keeps_translate c _ _ _ _ _

theorem keeps_propertyFields (c : Catalog) (plan : Plan) (required : List String)
    (ps : List (String × Value)) : Keeps R (propertyFields c plan required ps) := by
  induction ps with
  | nil => exact .pure _
  | cons p ps ih =>
      refine (keeps_propertyType c plan p.1 p.2).bind fun type => ?_
      split
      · exact ih
      · exact (keeps_storeName _).bind fun _ => (keeps_propertyField _ _ _ _ _ _).bind fun _ =>
          ih.bind fun _ => .pure _

theorem keeps_fieldsOf (c : Catalog) (plan : Plan) : Keeps R (fieldsOf c plan) := by
  rw [fieldsOf_eq]
  exact (keeps_access _).bind fun required => (keeps_planLinks c plan).bind fun links =>
    (keeps_access _).bind fun ps => (keeps_propertyFields c plan required ps).bind fun own =>
    .pure _

end Types

end Build

/-! ## Names under builds -/

/-- The later registry has all pairs of the earlier one, and stays coherent if that was. -/
def NamesGrow (s s' : State) : Prop :=
  s.names.Grows s'.names ∧ (s.names.Coherent → s'.names.Coherent)

instance : Build.TypeFrame NamesGrow where
  refl s := ⟨Name.Registry.Grows.refl s.names, id⟩
  trans _ _ _ h h' := ⟨h.1.trans h'.1, h'.2 ∘ h.2⟩
  log s _ := ⟨Name.Registry.Grows.refl s.names, id⟩
  store _ _ _ _ _ hstore := ⟨(Name.Registry.grows_store hstore).1, fun h => h.store hstore⟩
  addType s _ := ⟨Name.Registry.Grows.refl s.names, id⟩
  setCached s mode _ _ := by
    cases mode <;> exact ⟨Name.Registry.Grows.refl s.names, id⟩

end RestGraph.Graph
