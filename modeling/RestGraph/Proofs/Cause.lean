import RestGraph.Proofs.Failing
import RestGraph.Proofs.RoundTrip
import RestGraph.Proofs.WellTyped

namespace RestGraph.Graph

open Build

/-!
# Why a translation fails

Where all keywords are of their kinds, a translation that fails does so for a reason that a
description is meant to be able to give, but for four: an enumeration without literals, a type
named like one of the reserved types, an enumeration that shares its key with something else, and
an integer of too many digits where a value has to be written.
-/

/-! ## Causes -/

/-- The text that the type of an object or of an enumeration is named after. -/
inductive TypeText : Node → String → Prop
  | object {mode : Mode} {name : Value} {ms : Schema.Members} {text : String}
      (shape : Schema.shape? ms = some .object) (read : typeText mode name = .ok text) :
      TypeText ⟨mode, name, .map ms⟩ text
  | enumeration {mode : Mode} {name : Value} {ms : Schema.Members}
      (shape : Schema.shape? ms = some .enumeration) : TypeText ⟨mode, name, .map ms⟩ name.plain

/-- Why a translation fails: for a reason that a description is meant to be able to give, or since
an enumeration has no literals, a type has a reserved name, the field of an input has an output
type because an enumeration shares its key with something else, or a literal or a schema of no
shape cannot be written. -/
inductive Cause (c : Catalog) (given : Node → Prop) (s : State) : Failure → Prop
  | own {f : Failure} (h : f.isOwn = true) : Cause c given s f
  | noLiterals {mode : Mode} {name : Value} {ms : Schema.Members}
      (met : Met c given ⟨mode, name, .map ms⟩) (shape : Schema.shape? ms = some .enumeration)
      (absent : Table.get? ms "enum" = none) : Cause c given s (.malformed .missingEntry)
  | reserved {node : Node} {text name : String} (met : Met c given node)
      (reads : TypeText node text) (named : s.Named text name)
      (reserved : reservedNames.contains name = true) : Cause c given s (.reservedTypeName name)
  | notInput (shared : ¬ EnumerationsApart c given s.Named) : Cause c given s .inputFieldNotInput
  | unwritableLiteral {mode : Mode} {name literals v : Value} {ms : Schema.Members}
      {vs : List Value} (met : Met c given ⟨mode, name, .map ms⟩)
      (shape : Schema.shape? ms = some .enumeration) (entry : Table.get? ms "enum" = some literals)
      (items : literals.iterate = .ok vs) (mem : v ∈ vs) (unwritable : v.isWritable = false) :
      Cause c given s (.malformed .badContent)
  | unwritableSchema {mode : Mode} {name : Value} {ms : Schema.Members}
      (met : Met c given ⟨mode, name, .map ms⟩) (shape : Schema.shape? ms = none)
      (unwritable : (Value.map ms).isWritable = false) : Cause c given s (.malformed .badContent)

/-- The failure to find the fields of a type has a failure as its cause. -/
def original : Failure → Failure
  | .unresolvedFields _ cause => cause
  | f => f

theorem Cause.original {c : Catalog} {given : Node → Prop} {s : State} {f : Failure}
    (h : Cause c given s f) : original f = f := by
  cases h with
  | own h =>
      cases f with
      | unresolvedFields => cases h
      | _ => rfl
  | _ => rfl

/-- What is known of any state on the way: its names are coherent, and its types fit their modes
for whatever names there will be. -/
structure Arranged (c : Catalog) (given : Node → Prop) (s : State) : Prop where
  coherent : s.names.Coherent
  sorted : ∀ named, s.NamedWithin named → Sorted c given named s

/-- The parameters have texts for names, and descriptions that can be read. -/
structure ReadableOperation (o : Operation) : Prop where
  named : ∀ p ∈ o.parameters, ∃ name, p.name = .text name
  described : ∀ p ∈ o.parameters, Describes (Value.memberOr p "description" .null)

/-- The link has a text for the id of its operation, among texts, if it has any, the parameters
of the operation can be read, and so can its description. -/
structure ReadableLink (c : Catalog) (link : Link) : Prop where
  identified : link.operationId = .null ∨ ∃ text, link.operationId = .text text
  keyed : ∀ id ∈ Table.keys c.operations, ∃ text, id.text? = some text
  target : ∀ o, c.operation link.operationId = .ok o → ReadableOperation o
  described : Describes link.description

section Arranging

variable {c : Catalog} {given : Node → Prop} {s s' : State}

theorem Arranged.progresses (h : Progresses c given s s') (hs : Arranged c given s) :
    Arranged c given s' where
  coherent := h.extends.names.2 hs.coherent
  sorted named hnamed := Sorted.progresses h hnamed (hs.sorted named (hnamed.of_extends h.extends))

theorem Arranged.evolves (h : Evolves c given s s') (hs : Arranged c given s) :
    Arranged c given s' := hs.progresses h.progresses

theorem arranged_empty (strict : Bool) : Arranged c given (.empty strict) :=
  ⟨Name.Registry.coherent_empty strict, fun _ _ => sorted_empty strict⟩

theorem State.Fits.isInput {t : TypeRef} (h : s.Fits .input t) : s.isInput t = true := by
  unfold State.isInput
  split
  · rfl
  · rename_i place hplace
    obtain ⟨type, hheld, hmode⟩ := h place hplace
    rw [hheld]
    cases type with
    | composite k => simp [hmode k rfl]
    | enumeration e => rfl

/-- A type that was held for inputs is one, or else some enumeration is not apart. -/
theorem checkInput_fails {t type : TypeRef} (hs : Arranged c given s) (h : Evolves c given s s')
    (hheld : Held c given s .input type) (hplace : t.place? = type.place?) :
    Fails (Cause c given) s' (checkInput .inputFieldNotInput t) := by
  unfold checkInput
  apply Fails.get_bind
  split
  · exact .pure ()
  · rename_i hnot
    refine .throw (.notInput fun hapart => hnot ?_)
    have hwithin : s.NamedWithin s'.Named := h.adds.extends.named
    have hfits := (hheld.fits (hs.sorted _ hwithin) hwithin (.inr hapart)).of_place? hplace
    exact (hfits.later h.adds.extends).isInput

/-! ## Names -/

/-- A bind of a build that evolves the state. -/
theorem bind_evolves_fails {α β : Type} {b : Build α} {k : α → Build β} {Q : α → State → Prop}
    (hb : Fails (Cause c given) s b) (he : Ensures (Evolves c given) s b Q)
    (hk : ∀ a s', Evolves c given s s' → Q a s' → Fails (Cause c given) s' (k a)) :
    Fails (Cause c given) s (b >>= k) := .bind hb he hk

theorem storeName_fails (text : String) : Fails (Cause c given) s (storeName text) := by
  intro f hf
  rw [run_storeName] at hf ⊢
  cases hstore : s.names.store text with
  | ok stored => simp [hstore] at hf
  | error fault =>
      simp only [hstore] at hf ⊢
      obtain rfl := Except.error.inj hf
      cases fault <;> exact .own rfl

theorem bind_storeName_fails {β : Type} {text : String} {k : String → Build β}
    (hk : ∀ name s', Evolves c given s s' → s'.Named text name →
      Fails (Cause c given) s' (k name)) : Fails (Cause c given) s (storeName text >>= k) := by
  refine bind_evolves_fails (storeName_fails text) (named_storeName text) ?_
  rintro name s' h ⟨hnamed, -⟩
  exact hk name s' h hnamed

/-- A name that was stored is legal, so that it is refused only if it is reserved. -/
theorem checkTypeName_fails {node : Node} {text name : String} (hs : s.names.Coherent)
    (hmet : Met c given node) (hreads : TypeText node text) (hnamed : s.Named text name) :
    Fails (Cause c given) s (checkTypeName name) := by
  unfold checkTypeName
  split
  · rename_i hreserved
    exact .throw (.reserved hmet hreads hnamed hreserved)
  · have hlegal : Name.illegal? name = none :=
      (Name.illegal?_eq_none name).mpr (hs.suits name text hnamed).legal
    rw [hlegal]
    exact .pure ()

theorem bind_checkTypeName_fails {β : Type} {node : Node} {text name : String}
    {k : Unit → Build β} (hs : s.names.Coherent) (hmet : Met c given node)
    (hreads : TypeText node text) (hnamed : s.Named text name)
    (hk : Fails (Cause c given) s (k ())) :
    Fails (Cause c given) s (checkTypeName name >>= k) :=
  .bind_still (checkTypeName_fails hs hmet hreads hnamed) (keeps_checkTypeName name) fun _ => hk

end Arranging

/-- Members are not found if names clash or a literal cannot be written. -/
theorem failure_of_membersFrom {name : String} {found : Table String Value} {vs : List Value}
    {f : Failure} (h : membersFrom name found vs = .error f) :
    (∃ first second member, f = .enumClash name first second member) ∨
      f = .malformed .badContent ∧ ∃ v ∈ vs, v.isWritable = false := by
  induction vs generalizing found with
  | nil => cases h
  | cons v vs ih =>
      rw [membersFrom_cons] at h
      split at h
      · split at h
        · rename_i first _
          exact .inl ⟨first, v, writtenName v, (Except.error.inj h).symm⟩
        · refine (ih h).imp_right fun ⟨hf, w, hw, hlong⟩ => ?_
          exact ⟨hf, w, List.mem_cons_of_mem v hw, hlong⟩
      · rename_i hlong
        obtain rfl := Except.error.inj h
        exact .inr ⟨rfl, v, List.mem_cons_self, by simpa using hlong⟩

/-! ## Translations -/

/-- What is asked of a translation one level deeper. -/
def DeeperFails (c : Catalog) (given : Node → Prop) (mode : Mode) (deeper : Deeper) : Prop :=
  ∀ (s : State) (name schema : Value), Arranged c given s →
    (∀ ms, schema = .map ms → Met c given ⟨mode, name, schema⟩) →
    Fails (Cause c given) s (deeper name schema)

section Translations

variable {c : Catalog} {given : Node → Prop} {s : State}
  (hnodes : ∀ node, Met c given node → node.WellTyped)
include hnodes

omit hnodes in
/-- A schema of no shape is refused, unless the message cannot show it. -/
theorem shapeless_fails {mode : Mode} {name shown : Value} {ms : Schema.Members}
    (hmet : Met c given ⟨mode, name, .map ms⟩) (hshape : Schema.shape? ms = none) :
    Cause c given s (.shapeless shown (.map ms)) := by
  unfold Failure.shapeless
  split
  · exact .own rfl
  · rename_i hlong
    exact .unwritableSchema hmet hshape (by simpa using hlong)

theorem objectType_fails (hs : Arranged c given s) {name : Value} {plan : Plan}
    (hmet : Met c given ⟨plan.mode, name, .map plan.schema⟩)
    (hshape : Schema.shape? plan.schema = some .object) :
    Fails (Cause c given) s (objectType name plan) := by
  obtain ⟨⟨text, rfl⟩, htyped⟩ := hnodes _ hmet
  have hlabel : (Value.text text).labelOf = .ok (.ofText text) := rfl
  have htext : ∃ typed, typeText plan.mode (.text text) = .ok typed := by
    cases plan.mode <;> exact ⟨_, rfl⟩
  have hdescribes : Describes (Value.memberOr plan.schema "description" .null) := htyped.describes
  unfold objectType keyOf
  refine .bind_access ⟨_, hlabel⟩ fun label _ => .bind_cached? ?_
  split
  · exact .pure _
  · refine .bind_access htext fun typed hread => bind_storeName_fails ?_
    intro typeName s₁ h₁ hnamed
    have hcoherent := (hs.evolves h₁).coherent
    refine bind_checkTypeName_fails hcoherent hmet (.object hshape hread) hnamed ?_
    refine .bind_checkDescription _ hdescribes fun description => ?_
    exact .fileType _ _ _ _

theorem resolveEnumeration_fails (hs : Arranged c given s) {mode : Mode} {name : Value}
    {ms : Schema.Members} (hmet : Met c given ⟨mode, name, .map ms⟩)
    (hshape : Schema.shape? ms = some .enumeration) {literals : Value}
    (hliterals : Table.get? ms "enum" = some literals) {key : String}
    (hnamed : s.Named name.plain key) :
    Fails (Cause c given) s (resolveEnumeration key literals) := by
  obtain ⟨vs, rfl⟩ := (hnodes _ hmet).schema.keywords.literals literals hliterals
  apply Fails.get_bind
  split
  · exact .bind_report fun log => .pure _
  · refine .bind_report fun log => .bind_access ⟨vs, rfl⟩ fun items hitems => ?_
    refine .bind_liftExcept ?_ fun members _ => ?_
    · intro f hf
      rcases failure_of_membersFrom hf with ⟨first, second, member, rfl⟩ | ⟨rfl, v, hv, hlong⟩
      · exact .own rfl
      · exact .unwritableLiteral hmet hshape hliterals hitems hv hlong
    · refine bind_checkTypeName_fails hs.coherent hmet (.enumeration hshape) hnamed ?_
      exact .fileType _ _ _ _

theorem enumerationType_fails (hs : Arranged c given s) {mode : Mode} {name : Value}
    {ms : Schema.Members} (hmet : Met c given ⟨mode, name, .map ms⟩)
    (hshape : Schema.shape? ms = some .enumeration) :
    Fails (Cause c given) s (enumerationType name ms) := by
  unfold enumerationType
  apply bind_storeName_fails
  intro key s₁ h₁ hnamed
  split
  · rename_i habsent
    exact .throw (.noLiterals hmet hshape habsent)
  · rename_i literals hliterals
    have hfails := resolveEnumeration_fails hnodes (hs.evolves h₁) hmet hshape hliterals hnamed
    exact .bind_any hfails fun _ _ => .pure _

omit hnodes in
theorem referenceType_fails (hs : Arranged c given s) {mode : Mode} {deeper : Deeper}
    (hdeeper : DeeperFails c given mode deeper) (name : String) :
    Fails (Cause c given) s (referenceType c deeper mode name) := by
  have hmet : ∀ ms, c.schema mode (referenceKey mode name) = .map ms →
      Met c given ⟨mode, .text (referenceKey mode name), c.schema mode (referenceKey mode name)⟩ :=
    fun ms hms => .definition (get?_schemas hms)
  unfold referenceType
  apply Fails.bind_cached?
  split
  · exact .pure _
  · exact .bind_any (hdeeper s _ _ hs hmet) fun _ _ => nofun

omit hnodes in
theorem targetType_fails (hs : Arranged c given s) {mode : Mode} {deeper : Deeper}
    (hdeeper : DeeperFails c given mode deeper) {schema target : Value}
    (htyped : Graph.WellTyped schema) (htarget : Schema.target? schema = some target) :
    Fails (Cause c given) s
      (access (Schema.referenceName target) >>= referenceType c deeper mode) := by
  refine .bind_access (htyped.exists_referenceName htarget) ?_
  intro text _
  exact referenceType_fails hs hdeeper text

omit hnodes in
theorem itemType_fails (hs : Arranged c given s) {mode : Mode} {deeper : Deeper}
    (hdeeper : DeeperFails c given mode deeper) {name items : Value}
    (htyped : Graph.WellTyped items)
    (hmet : Schema.target? items = none → Met c given ⟨mode, itemsLabel name items, items⟩) :
    Fails (Cause c given) s (itemType c deeper mode name items) := by
  cases htarget : Schema.target? items with
  | some target =>
      simp only [itemType, htarget]
      exact targetType_fails hs hdeeper htyped htarget
  | none =>
      cases items with
      | map ms =>
          cases hshape : Schema.shape? ms with
          | none =>
              simp only [itemType, htarget, hshape]
              exact .throw (shapeless_fails (hmet htarget) hshape)
          | some shape =>
              by_cases hscalar : shape = .scalar
              · subst hscalar
                simp only [itemType, htarget, hshape]
                exact .pure _
              · rw [itemType_of_own c deeper mode name htarget hshape hscalar]
                exact hdeeper s _ _ hs fun _ _ => hmet htarget
      | _ =>
          simp only [itemType, htarget]
          exact .throw (.own rfl)

theorem listType_fails (hs : Arranged c given s) {mode : Mode} {deeper : Deeper}
    (hdeeper : DeeperFails c given mode deeper) {name : Value} {ms : Schema.Members}
    (hmet : Met c given ⟨mode, name, .map ms⟩) (hshape : Schema.shape? ms = some .array) :
    Fails (Cause c given) s (listType c deeper mode name ms) := by
  unfold listType
  split
  · exact .throw (.own rfl)
  · rename_i items hfound
    have htyped : Graph.WellTyped items := (hnodes _ hmet).schema.of_items hfound
    have hitems := itemType_fails hs hdeeper htyped (.items hmet hshape hfound)
    exact .bind_any hitems fun _ _ => .pure _

theorem translate_fails (hs : Arranged c given s) {mode : Mode} {name schema : Value}
    (hmet : ∀ ms, schema = .map ms → Met c given ⟨mode, name, schema⟩)
    (links : Table String Link) (iteration : Int) :
    Fails (Cause c given) s (translate c mode name schema links iteration) := by
  fun_induction translate c mode name schema links iteration generalizing s with
  | case1 => exact .throw (.own rfl)
  | case2 _ _ _ _ ms hshape => exact .throw (shapeless_fails (hmet ms rfl) hshape)
  | case3 _ _ _ _ ms hshape => exact objectType_fails hnodes hs (hmet ms rfl) hshape
  | case4 _ _ _ _ ms hshape => exact enumerationType_fails hnodes hs (hmet ms rfl) hshape
  | case5 => exact .bind_report fun _ => .pure _
  | case6 _ _ _ _ ms hshape ih =>
      exact listType_fails hnodes hs (fun t n items ht hn => ih n items ht hn) (hmet ms rfl) hshape
  | case7 => exact .pure _
  | case8 => exact .throw (.own rfl)

theorem deeperFails_translate (mode : Mode) (iteration : Int) :
    DeeperFails c given mode fun name schema => translate c mode name schema [] iteration :=
  fun _ _ _ hs hmet => translate_fails hnodes hs hmet [] iteration

theorem resolveReference_fails (hs : Arranged c given s) (mode : Mode) (name : String)
    (iteration : Int) : Fails (Cause c given) s (resolveReference c mode name iteration) :=
  referenceType_fails hs (deeperFails_translate hnodes mode _) name

/-! ## Fields -/

omit hnodes in
theorem noteShadowed_fails (name : String) : Fails (Cause c given) s (noteShadowed c name) := by
  unfold noteShadowed
  split
  · split
    · exact .throw (.own rfl)
    · exact nofun
  · exact .pure ()

theorem propertyType_fails (hs : Arranged c given s) {plan : Plan} {p : String × Value}
    (htyped : Graph.WellTyped p.2)
    (hmet : Schema.target? p.2 = none →
      (c.defines p.1 = true → c.config.failOnCollision = false) →
      Met c given ⟨plan.mode, .text p.1, p.2⟩) :
    Fails (Cause c given) s (propertyType c plan p.1 p.2) := by
  cases htarget : Schema.target? p.2 with
  | some target =>
      rw [propertyType_of_target c plan p.1 htarget]
      exact targetType_fails hs (deeperFails_translate hnodes plan.mode _) htyped htarget
  | none =>
      rw [propertyType_of_inline c plan p.1 htarget]
      refine bind_evolves_fails (noteShadowed_fails p.1) (noteShadowed_ensures c p.1) ?_
      intro _ s₁ h₁ hallowed
      exact translate_fails hnodes (hs.evolves h₁) (fun _ _ => hmet htarget hallowed) [] _

omit hnodes in
/-- The type of a property was held for the mode before the name of its field was stored. -/
theorem propertyField_fails {s' : State} (hs : Arranged c given s) (h : Evolves c given s s')
    {mode : Mode} (required : List String) (p : String × Value) (fieldName : String)
    {type : TypeRef} (hheld : Held c given s mode type) (htyped : Graph.WellTyped p.2) :
    Fails (Cause c given) s' (propertyField mode required p.1 fieldName type
      ((p.2.member? "description").getD .null)) := by
  cases mode with
  | input =>
      have hplace := place?_whenRequired (required.contains p.1) type
      have hchecked := checkInput_fails hs h hheld hplace
      refine .bind_still hchecked (keeps_checkInput _ _) fun _ => ?_
      exact .bind_checkDescription _ htyped.describes fun _ => .pure _
  | output => exact .bind_checkDescription _ htyped.describes fun _ => .pure _

/-- The induction is on the properties. -/
theorem propertyFields_fails (hs : Arranged c given s) {plan : Plan} (required : List String)
    {ps : List (String × Value)} (htyped : ∀ p ∈ ps, Graph.WellTyped p.2)
    (hmet : ∀ p ∈ ps, Schema.target? p.2 = none →
      (c.defines p.1 = true → c.config.failOnCollision = false) →
      Met c given ⟨plan.mode, .text p.1, p.2⟩) :
    Fails (Cause c given) s (propertyFields c plan required ps) := by
  induction ps generalizing s with
  | nil => exact .pure _
  | cons p ps ih =>
      obtain ⟨hp, hrest⟩ := List.forall_mem_cons.mp htyped
      obtain ⟨hown, hothers⟩ := List.forall_mem_cons.mp hmet
      refine .bind (propertyType_fails hnodes hs hp hown) (propertyType_reads hown) ?_
      rintro type s₁ h₁ ⟨hslot, hnode⟩
      have hs₁ := hs.evolves h₁
      split
      · exact ih hs₁ hrest hothers
      · rename_i type
        apply bind_storeName_fails
        intro name s₂ h₂ _
        have hfield := propertyField_fails hs₁ h₂ required p name (hslot.held hnode) hp
        refine .bind_still hfield (keeps_propertyField _ _ _ _ _ _) fun field => ?_
        exact .bind_any (ih (hs₁.evolves h₂) hrest hothers) fun _ _ => .pure _

end Translations

/-! ## Links -/

section Links

variable {c : Catalog} {given : Node → Prop} {s : State}

theorem parameterArguments_fails (found : Table String Argument) (ps : List Parameter) :
    Fails (Cause c given) s (parameterArguments c found ps) := by
  induction ps generalizing s found with
  | nil => exact .pure _
  | cons p ps ih =>
      unfold parameterArguments
      split
      · split
        · exact .bind_report fun _ => ih _
        · exact bind_storeName_fails fun _ _ _ _ => ih _
      · exact .bind_report fun _ => ih _

theorem arguments_fails (ps : List Parameter) :
    Fails (Cause c given) s (arguments c ps none false) :=
  .bind_any (parameterArguments_fails [] ps) fun _ _ => .pure _

/-- Where there is no body, arguments are scalars and have the descriptions of parameters. -/
theorem arguments_described {ps : List Parameter}
    (h : ∀ p ∈ ps, Describes (Value.memberOr p "description" .null)) :
    Ensures (Evolves c given) s (arguments c ps none false) fun found _ =>
      ∀ e ∈ found, e.2.type.place? = none ∧ Describes e.2.description := by
  refine .bind (parameterArguments_forall
    (P := fun a => a.type.place? = none ∧ Describes a.description) ?_ nofun) ?_
  · intro p hp name
    exact ⟨place?_parameterArgument p name, h p hp⟩
  · exact fun _ _ _ hfound => .pure hfound

/-- Where operations have texts for ids, one that is not found under a text is reported. -/
theorem isOwn_of_operation {text : String} {f : Failure}
    (hkeyed : ∀ id ∈ Table.keys c.operations, ∃ text, id.text? = some text)
    (h : c.operation (.text text) = .error f) : f.isOwn = true := by
  unfold Catalog.operation at h
  split at h
  · rename_i hnone
    cases hnone
  · rename_i label hlabel
    obtain rfl := Option.some.inj hlabel
    split at h
    · cases h
    · obtain ⟨names, hnames⟩ := exists_mapM_eq_pure hkeyed
      obtain rfl := Except.error.inj h
      unfold Catalog.unknown
      rw [hnames]
      rfl

theorem linkField_fails (name : String) {link : Link} (hlink : ReadableLink c link) :
    Fails (Cause c given) s (linkField c name link) := by
  unfold linkField
  split
  · exact .throw (.own rfl)
  · rename_i hsome
    obtain ⟨text, htext⟩ := hlink.identified.resolve_left hsome
    rw [htext]
    refine .bind_liftExcept (fun f hf => .own (isOwn_of_operation hlink.keyed hf)) ?_
    intro o ho
    have hreadable : ReadableOperation o := hlink.target o (htext ▸ ho)
    refine .bind_any (.presets _ _ _) fun preset s₁ => ?_
    refine .bind_access ⟨_, withoutPresets_of_named preset hreadable.named⟩ ?_
    intro remaining hremaining
    have hsub := (sublist_withoutPresets hreadable.named hremaining).subset
    have hdescribed : ∀ p ∈ remaining, Describes (Value.memberOr p "description" .null) :=
      fun p hp => hreadable.described p (hsub hp)
    refine bind_evolves_fails (arguments_fails remaining) (arguments_described hdescribed) ?_
    intro found s₂ _ hfound
    apply Fails.get_bind
    split
    · exact .throw (.own rfl)
    · refine .bind_any (.argumentDefs hfound) fun defs s₃ => ?_
      exact .bind_checkDescription _ hlink.described fun _ => .pure _

theorem linkFields_fails {links : List (String × Link)} (h : ∀ e ∈ links, ReadableLink c e.2) :
    Fails (Cause c given) s (linkFields c links) := by
  induction links generalizing s with
  | nil => exact .pure _
  | cons e links ih =>
      obtain ⟨hlink, hrest⟩ := List.forall_mem_cons.mp h
      refine .bind_any (linkField_fails e.1 hlink) fun field s₁ => ?_
      apply bind_storeName_fails
      intro name s₂ _ _
      exact .bind_any (ih hrest) fun _ _ => .pure _

theorem planLinks_fails {plan : Plan} (h : ∀ e ∈ plan.links, ReadableLink c e.2) :
    Fails (Cause c given) s (planLinks c plan) := by
  unfold planLinks
  split
  · exact linkFields_fails h
  · exact .pure _

end Links

/-! ## Calls -/

section Calls

variable {c : Catalog} {given : Node → Prop} {s : State}
  (hnodes : ∀ node, Met c given node → node.WellTyped)
include hnodes

theorem fieldsOf_fails (hs : Arranged c given s) {plan : Plan}
    (htyped : Graph.WellTyped (.map plan.schema))
    (hshape : Schema.shape? plan.schema = some .object) (hplan : PlanMet c given plan)
    (hlinks : ∀ e ∈ plan.links, ReadableLink c e.2) :
    Fails (Cause c given) s (fieldsOf c plan) := by
  rw [fieldsOf_eq]
  refine .bind_access htyped.keywords.exists_requiredNames fun required _ => ?_
  refine bind_evolves_fails (planLinks_fails hlinks) (planLinks_passed plan) ?_
  intro links s₁ h₁ _
  refine .bind_access (htyped.keywords.exists_properties hshape) fun ps hps => ?_
  have hown := propertyFields_fails hnodes (hs.evolves h₁) required
    (fun p hp => htyped.of_properties hps hp) (hplan ps hps)
  exact .bind_any hown fun _ _ => .pure _

omit hnodes in
theorem fails_original {α : Type} {b : Build α} (h : Fails (Cause c given) s b) :
    Fails (fun s f => Cause c given s (original f)) s b :=
  h.mono fun _ _ hcause => hcause.original.symm ▸ hcause

theorem fieldsAt_fails (hs : Arranged c given s) (hplanned : Planned c given s) {place : Nat}
    (hlinks : ∀ type, s.types[place]? = some (.composite type) →
      ∀ e ∈ type.plan.links, ReadableLink c e.2) :
    Fails (fun s f => Cause c given s (original f)) s (fieldsAt c place) := by
  obtain ⟨found, hrun, hfound⟩ := run_compositeAt? place s
  unfold fieldsAt
  refine .bind_run hrun ?_
  split
  · exact .pure _
  · rename_i type
    have hplace := (hfound type).mp rfl
    split
    · exact .pure _
    · obtain ⟨name, hmet, hshape⟩ := hplanned place type hplace
      have hfields := fieldsOf_fails hnodes hs (hnodes _ hmet).schema hshape
        (planMet_of_met hmet hshape) (hlinks type hplace)
      refine .bind_any (k := fun fields => do keepFields place type fields; return fields)
        ((hfields.tryCatch (.unresolvedFields type.name)).mono ?_) fun _ _ => nofun
      rintro s f ⟨cause, hcause, rfl⟩
      exact hcause

/-- The calls for a type or for the fields of one, where its links can be read. -/
inductive AsksTypes (c : Catalog) (s : State) : Call → Prop
  | translate (node : Node) (links : Table String Link) (iteration : Int) :
      AsksTypes c s (.step (.translate node links iteration))
  | reference (mode : Mode) (name : String) (iteration : Int) :
      AsksTypes c s (.step (.reference mode name iteration))
  | response (name : String) (links : Table String Link) :
      AsksTypes c s (.step (.response name links))
  | fields {place : Nat}
      (readable : ∀ type, s.types[place]? = some (.composite type) →
        ∀ e ∈ type.plan.links, ReadableLink c e.2) : AsksTypes c s (.step (.fields place))

theorem call_fails (hs : Arranged c given s) (hplanned : Planned c given s) {call : Call}
    (hcall : call.Within c given) (hasks : AsksTypes c s call) :
    Fails (fun s f => Cause c given s (original f)) s (call.build c) := by
  cases hasks with
  | translate node links iteration =>
      have hnode : Met c given node := .given (hcall node (.translate List.mem_cons_self))
      have htranslate := translate_fails hnodes hs (fun _ _ => hnode) links iteration
      exact .bind_any (fails_original htranslate) fun _ _ => .pure _
  | reference mode name iteration =>
      have hreference := resolveReference_fails hnodes hs mode name iteration
      exact .bind_any (fails_original hreference) fun _ _ => .pure _
  | response name links =>
      have hmet : ∀ ms, c.schema .output name = .map ms →
          Met c given ⟨.output, .text name, c.schema .output name⟩ :=
        fun ms hms => .definition (get?_schemas hms)
      have htranslate := translate_fails hnodes hs hmet links 0
      have hresponse : Fails (Cause c given) s ((Step.response name links).build c) :=
        .bind_any htranslate fun _ _ => nofun
      exact .bind_any (fails_original hresponse) fun _ _ => .pure _
  | @fields place readable =>
      obtain ⟨found, hrun, -⟩ := run_compositeAt? place s
      refine .bind_run hrun ?_
      exact .bind_any (fieldsAt_fails hnodes hs hplanned readable) fun _ _ => .pure _

end Calls

/-- Where the keywords of all definitions and of what is asked for are of their kinds, whatever
calls came before and whatever their outcomes, a call for a type or for the fields of one fails,
if at all, for a reason that a description is meant to be able to give, or for one that concerns
enumerations without literals, reserved names, the keys of enumerations, or integers of too many
digits. -/
theorem causes_of_every_history (c : Catalog) (strict : Bool) (calls : List Call) (call : Call)
    (hdefined : ∀ mode key schema, Table.get? (c.schemas mode) key = some schema →
      WellTyped schema)
    (hasked : ∀ node, Asked c (calls ++ [call]) node → node.WellTyped)
    (hcall : AsksTypes c (afterCalls c (.empty strict) calls) call) :
    let result := (call.build c).run (afterCalls c (.empty strict) calls)
    ∀ f, result.1 = .error f → Cause c (Asked c (calls ++ [call])) result.2 (original f) := by
  have hbefore : ∀ q ∈ calls, q.Within c (Asked c (calls ++ [call])) :=
    fun q hq => within_of_mem (List.mem_append_left _ hq)
  have hwithin : call.Within c (Asked c (calls ++ [call])) := within_of_mem (by simp)
  have hstart := progresses_afterCalls (planned_empty (c := c) strict) hbefore
  have hs := (arranged_empty strict).progresses hstart
  have hplanned := (planned_empty strict).progresses hstart
  have hnodes : ∀ node, Met c (Asked c (calls ++ [call])) node → node.WellTyped :=
    fun _ hmet => hmet.wellTyped hdefined hasked
  exact call_fails hnodes hs hplanned hwithin hcall

/-! ### A shirt

A color is an enumeration without literals.
-/

def shirtMembers : Schema.Members :=
  [("type", .text "object"), ("properties", .map [("color", .map [("type", .text "enum")])])]

def shirtCalls : List Call :=
  [.step (.translate ⟨.output, .text "Shirt", .map shirtMembers⟩ [] 0)]

/-- The fields of a shirt, after its type was asked for. -/
def shirtFields : Except Failure (List (Mode × TypeRef)) × State :=
  ((Call.step (.fields 0)).build (Catalog.empty default true)).run
    (afterCalls (Catalog.empty default true) (.empty true) shirtCalls)

theorem wellTyped_shirt {node : Node}
    (h : Asked (Catalog.empty default true) (shirtCalls ++ [.step (.fields 0)]) node) :
    node.WellTyped := by
  have hcolor : WellTyped (.map [("type", .text "enum")]) :=
    .schema (by constructor <;> simp [Table.get?]) (by simp [Table.get?]) (by simp [Table.get?])
  have hshirt : WellTyped (.map shirtMembers) := by
    refine .schema (by constructor <;> simp [shirtMembers, Table.get?]) ?_
      (by simp [shirtMembers, Table.get?])
    intro ps hps p hp
    obtain rfl := Value.map.inj (Option.some.inj hps)
    obtain rfl := List.mem_singleton.mp hp
    exact hcolor
  cases h with
  | @translate node links iteration mem =>
      obtain ⟨rfl, -, -⟩ : node = ⟨.output, .text "Shirt", .map shirtMembers⟩ ∧ _ ∧ _ := by
        simpa [shirtCalls] using mem
      exact ⟨⟨_, rfl⟩, hshirt⟩
  | property mem => simp [shirtCalls] at mem

def NamedType.isLinked : NamedType → Bool
  | .composite k => !k.plan.links.isEmpty
  | .enumeration _ => false

theorem isLinked_shirt :
    (afterCalls (Catalog.empty default true) (.empty true) shirtCalls).types[0]?.map
      NamedType.isLinked = some false := by
  decide +kernel

theorem asksTypes_shirt :
    AsksTypes (Catalog.empty default true)
      (afterCalls (Catalog.empty default true) (.empty true) shirtCalls) (.step (.fields 0)) := by
  refine .fields fun type htype => ?_
  have hlinked := isLinked_shirt
  rw [htype] at hlinked
  have hnone : type.plan.links = [] := by simpa [NamedType.isLinked] using hlinked
  simp [hnone]

/-- Whether a failure is one that a description is meant to be able to cause; a result is none. -/
def isOwn? {α : Type} : Except Failure α → Option Bool
  | .error f => some (original f).isOwn
  | .ok _ => none

theorem isOwn?_shirtFields : isOwn? shirtFields.1 = some false := by decide +kernel

theorem exists_of_isOwn? {α : Type} {result : Except Failure α} {own : Bool}
    (h : isOwn? result = some own) : ∃ f, result = .error f ∧ (original f).isOwn = own := by
  cases result with
  | error f => exact ⟨f, rfl, Option.some.inj h⟩
  | ok a => cases h

theorem cause_of_shirt_fields :
    ∃ f, shirtFields.1 = .error f ∧
      Cause (Catalog.empty default true)
        (Asked (Catalog.empty default true) (shirtCalls ++ [.step (.fields 0)])) shirtFields.2
        (original f) := by
  obtain ⟨f, hf, -⟩ := exists_of_isOwn? isOwn?_shirtFields
  have hdefined : ∀ mode key schema,
      Table.get? ((Catalog.empty default true).schemas mode) key = some schema →
      WellTyped schema := by
    rintro (_ | _) _ _ ⟨⟩
  refine ⟨f, hf, ?_⟩
  exact causes_of_every_history (Catalog.empty default true) true shirtCalls (.step (.fields 0))
    hdefined (fun _ => wellTyped_shirt) asksTypes_shirt f hf

/-- All keywords are of their kinds, and yet the reason is none that a description is meant to be
able to give. -/
theorem color_of_shirt_breaks :
    (∀ node, Asked (Catalog.empty default true) (shirtCalls ++ [.step (.fields 0)]) node →
      node.WellTyped) ∧
      ∃ f, shirtFields.1 = .error f ∧ (original f).isOwn = false :=
  ⟨fun _ => wellTyped_shirt, exists_of_isOwn? isOwn?_shirtFields⟩

end RestGraph.Graph
