import RestGraph.Graph.Api
import RestGraph.Proofs.Cache

namespace RestGraph.Graph

open Build Table

/-!
# Types of responses

The objects among the schemas of responses are translated before all else. So the type that is
kept under the name of one is made from its own definition at the first level, and it has the
links of all operations that return it. Nothing that is asked of the graph later changes that.
-/

/-! ## The links of a schema -/

/-- The links of the operations that return a schema, in the order of the operations. -/
def linksTo (operations : List Operation) (name : String) : List (String × Link) :=
  (operations.filter fun o => o.response == some name).flatMap Operation.links

section Links

variable (found : Table String (Table String Link))

theorem responseLinks_cons (o : Operation) (rest : List Operation) :
    responseLinks found (o :: rest) =
      match o.response with
      | none => responseLinks found rest
      | some name =>
          responseLinks (insert found name (insertAll ((get? found name).getD []) o.links)) rest :=
  rfl

/-- Links of later operations come after those found before, so they win. -/
theorem get?_responseLinks (operations : List Operation) (name : String) :
    (get? (responseLinks found operations) name).getD [] =
      insertAll ((get? found name).getD []) (linksTo operations name) := by
  induction operations generalizing found with
  | nil => rfl
  | cons o rest ih =>
      rw [responseLinks_cons]
      cases hresponse : o.response with
      | none => simp [ih, linksTo, hresponse]
      | some other =>
          dsimp only
          rw [ih, get?_insert]
          by_cases hname : other = name
          · subst hname
            simp [linksTo, hresponse, insertAll_append]
          · simp [linksTo, hresponse, hname]

theorem keys_responseLinks {found : Table String (Table String Link)} (hfound : Distinct found)
    (operations : List Operation) :
    Distinct (responseLinks found operations) ∧
      ∀ name, name ∈ keys (responseLinks found operations) ↔
        name ∈ keys found ∨ ∃ o ∈ operations, o.response = some name := by
  induction operations generalizing found with
  | nil => exact ⟨hfound, fun name => by simp [responseLinks]⟩
  | cons o rest ih =>
      rw [responseLinks_cons]
      cases hresponse : o.response with
      | none => simpa [hresponse] using ih hfound
      | some other =>
          refine (ih (hfound.insert other _)).imp id fun hkeys name => ?_
          have hinsert : name ∈ keys (insert found other
              (insertAll ((get? found other).getD []) o.links)) ↔
                name ∈ keys found ∨ other = name := by
            rw [keys_insert]
            split
            · rename_i hmem
              exact ⟨.inl, fun h => h.elim id fun heq => heq ▸ hmem⟩
            · simp [eq_comm]
          rw [hkeys, hinsert, List.exists_mem_cons_iff, hresponse, or_assoc]
          simp

end Links

/-! ## Objects first -/

section Order

variable {c : Catalog}

/-- Whether the schema of a name is taken for one of an object. -/
def isObjectName (c : Catalog) (name : String) : Bool := (isObject c name).toOption.getD false

theorem mapM_isObject {names : List String} {marked : List (Bool × String)}
    (h : (names.mapM fun name => do return (← isObject c name, name)) = .ok marked) :
    marked = names.map fun name => (isObjectName c name, name) := by
  induction names generalizing marked with
  | nil => exact (Except.ok.inj h).symm
  | cons name names ih =>
      rw [List.mapM_cons] at h
      cases hobject : isObject c name with
      | error f =>
          rw [hobject] at h
          cases h
      | ok b =>
          rw [hobject] at h
          cases hrest : names.mapM fun name => do return (← isObject c name, name) with
          | error f =>
              rw [hrest] at h
              cases h
          | ok rest =>
              rw [hrest] at h
              obtain rfl := Except.ok.inj h
              simp [isObjectName, hobject, Except.toOption, ih hrest]

theorem objectsFirst_eq {names ordered : List String} (h : objectsFirst c names = .ok ordered) :
    ordered = names.filter (isObjectName c) ++ names.filter fun name => !isObjectName c name := by
  unfold objectsFirst at h
  cases hmarked : names.mapM fun name => do return (← isObject c name, name) with
  | error f =>
      rw [hmarked] at h
      cases h
  | ok marked =>
      rw [hmarked] at h
      obtain rfl := Except.ok.inj h
      rw [mapM_isObject hmarked]
      simp [List.filter_map, Function.comp_def]

theorem mem_of_mem_objectsFirst {names ordered : List String}
    (h : objectsFirst c names = .ok ordered) {name : String} (hmem : name ∈ ordered) :
    name ∈ names := by
  rw [objectsFirst_eq h, List.mem_append, List.mem_filter, List.mem_filter] at hmem
  exact hmem.elim And.left And.left

theorem mem_objectsFirst {names ordered : List String} (h : objectsFirst c names = .ok ordered)
    {name : String} (hmem : name ∈ names) : name ∈ ordered := by
  rw [objectsFirst_eq h, List.mem_append, List.mem_filter, List.mem_filter]
  cases isObjectName c name with
  | true => exact .inl ⟨hmem, rfl⟩
  | false => exact .inr ⟨hmem, rfl⟩

/-- All that comes before an object are objects, and no name comes twice. -/
theorem objectsFirst_split {names ordered : List String} (h : objectsFirst c names = .ok ordered)
    (hnames : names.Nodup) {name : String} (hmem : name ∈ names)
    (hobject : isObjectName c name = true) :
    ∃ earlier later, ordered = earlier ++ name :: later ∧ name ∉ earlier ∧ name ∉ later ∧
      ∀ other ∈ earlier, isObjectName c other = true := by
  obtain rfl := objectsFirst_eq h
  have hnodup := (List.filter_append_perm (isObjectName c) names).nodup_iff.mpr hnames
  have hfirst : name ∈ names.filter (isObjectName c) := List.mem_filter.mpr ⟨hmem, hobject⟩
  obtain ⟨earlier, rest, hsplit⟩ := List.append_of_mem hfirst
  rw [hsplit, List.append_assoc, List.cons_append] at hnodup
  obtain ⟨hname, -⟩ := List.nodup_cons.mp (List.nodup_middle.mp hnodup)
  obtain ⟨hearlier, hlater⟩ := not_or.mp (List.mem_append.not.mp hname)
  refine ⟨earlier, _, by rw [hsplit, List.append_assoc, List.cons_append], hearlier, hlater, ?_⟩
  intro other hother
  have hboth : other ∈ names.filter (isObjectName c) := hsplit ▸ List.mem_append_left _ hother
  exact (List.mem_filter.mp hboth).2

theorem isObjectName_iff {name : String} : isObjectName c name = true ↔
    ∃ ms, c.schema .output name = .map ms ∧ Schema.shape? ms = some .object := by
  unfold isObjectName isObject
  split
  · rename_i ms hms
    split
    · rename_i hshape
      simp [Except.toOption, hms, hshape]
    · rename_i shape hshape
      simp [Except.toOption, hms, hshape]
  · rename_i hother
    simp only [Except.toOption, Option.getD_some, Bool.false_eq_true, false_iff]
    rintro ⟨ms, hms, -⟩
    exact hother ms hms

end Order

/-! ## The type under the name of a response -/

/-- The type that is kept for outputs under a name has the plan. -/
def State.Plans (s : State) (name : String) (plan : Plan) : Prop :=
  ∃ place type, get? s.outputs (.ofText name) = some (some (.named place)) ∧
    s.types[place]? = some (.composite type) ∧ type.plan = plan

/-- What is kept for outputs under any other key stays as it is. -/
def Spares (name : String) (s s' : State) : Prop :=
  Adds s s' ∧ ∀ label, label ≠ .ofText name → get? s'.outputs label = get? s.outputs label

instance (name : String) : NameFrame (Spares name) where
  refl s := ⟨refl_of Adds s, fun _ _ => rfl⟩
  trans _ _ _ h h' := ⟨trans_of Adds h.1 h'.1, fun q hq => (h'.2 q hq).trans (h.2 q hq)⟩
  log s log := ⟨NameFrame.log s log, fun _ _ => rfl⟩
  store s text name names log hstore :=
    ⟨NameFrame.store s text name names log hstore, fun _ _ => rfl⟩

section Types

variable {c : Catalog} {s s' : State} {name : String} {plan : Plan}

theorem State.Plans.later (h : s.Plans name plan) (hx : Extends s s')
    (hentry : ∀ type, get? s.outputs (.ofText name) = some (some type) →
      get? s'.outputs (.ofText name) = some (some type)) : s'.Plans name plan := by
  obtain ⟨place, type, hkept, hheld, hplan⟩ := h
  obtain ⟨type', hheld', hsame, -⟩ := hx.composite hheld
  exact ⟨place, type', hentry _ hkept, hheld', hsame.trans hplan⟩

theorem spares_setCached (name : String) (s : State) (type : Option TypeRef) :
    Spares name s (s.setCached .output (.ofText name) type) := by
  refine ⟨TypeFrame.setCached s _ _ _, fun label hlabel => ?_⟩
  have hentry := get?_cache_setCached s .output .output (.ofText name) label type
  have hother : ¬ (Label.ofText name == label) = true :=
    fun h => hlabel (Label.beq_ofText_iff.mp (BEq.symm h))
  simpa [State.cache, hother] using hentry

theorem spares_fileType (name : String) (s : State) (type : NamedType) :
    Spares name s (s.fileType type .output (.ofText name)) :=
  trans_of (Spares name) ⟨TypeFrame.addType s type, fun _ _ => rfl⟩ (spares_setCached name _ _)

theorem adds_of_spares {α : Type} {b : Build α} {Q : α → State → Prop}
    (h : Ensures (Spares name) s b Q) : Ensures Adds s b Q := ⟨h.1.1, h.2⟩

/-- The type of an object is kept under its name, and it is a new one if there was none. -/
theorem translate_object (name : String) {ms : Schema.Members}
    (hshape : Schema.shape? ms = some .object) (links : Table String Link) (iteration : Int) :
    Ensures (Spares name) s (translate c .output (.text name) (.map ms) links iteration)
      fun found s' => get? s'.outputs (.ofText name) = some found ∧
        (get? s.outputs (.ofText name) = none →
          s'.Plans name ⟨ms, links, .output, iteration⟩) := by
  unfold translate
  split
  · exact .throw _
  · simp only [hshape]
    refine (objectType_files fun s type label hname _ _ _ hfree => ?_).weaken ?_
    · obtain rfl := Label.eq_ofText_iff.mpr hname
      exact spares_fileType name s (.composite type)
    · rintro found s' - ⟨label, hname, hentry, hnew⟩
      obtain rfl := Label.eq_ofText_iff.mpr hname
      refine ⟨hentry, fun hfree => ?_⟩
      obtain ⟨place, type, rfl, hheld, hplan⟩ := hnew hfree
      exact ⟨place, type, hentry, hheld, hplan⟩

theorem keeps_translate_retains (name schema : Value) (links : Table String Link)
    (iteration : Int) : Keeps Retains (translate c .output name schema links iteration) :=
  (filing_retains (fun _ => True) .output).keeps_translate (closed_all c) (fun _ _ => trivial)
    links iteration

/-- The type stays while other names are gone through. -/
theorem translateEach_plans {links : Table String (Table String Link)} {names : List String}
    (hs : s.Plans name plan) (hnames : name ∉ names) :
    Ensures Adds s (translateEach c links names) fun _ s' => s'.Plans name plan := by
  induction names generalizing s with
  | nil => exact .pure hs
  | cons other names ih =>
      obtain ⟨hother, hrest⟩ := List.ne_and_not_mem_of_not_mem_cons hnames
      have htranslate := keeps_translate_retains (c := c) (.text other) (c.schema .output other)
        ((get? links other).getD []) 0
      refine .bind (Q := fun _ s' => s'.Plans name plan) ⟨keeps_translate c _ _ _ _ _ s, ?_⟩ ?_
      · exact fun _ _ => hs.later (htranslate s).grows fun _ => (htranslate s).typed .output
      intro type s₁ _ h₁
      have hspares := spares_setCached other s₁ type
      refine .bind (.setCached _ _ _ hspares.1 (Q := fun _ s' => s'.Plans name plan) ?_) ?_
      · refine h₁.later hspares.1.extends fun t ht => (hspares.2 _ fun h => ?_).trans ht
        exact hother (Label.ofText_injective h)
      · exact fun _ s₂ _ h₂ => ih h₂ hrest

/-- The induction is on the names before: all of them are of objects, so what they file is kept
under them. -/
theorem translateEach_links {links : Table String (Table String Link)}
    {earlier later : List String} {ms : Schema.Members} (hschema : c.schema .output name = .map ms)
    (hshape : Schema.shape? ms = some .object)
    (hearlier : ∀ other ∈ earlier, isObjectName c other = true) (hnew : name ∉ earlier)
    (hlater : name ∉ later) (hfree : get? s.outputs (.ofText name) = none) :
    Ensures Adds s (translateEach c links (earlier ++ name :: later)) fun _ s' =>
      s'.Plans name ⟨ms, (get? links name).getD [], .output, 0⟩ := by
  induction earlier generalizing s with
  | nil =>
      have hobject := adds_of_spares (translate_object (c := c) (s := s) name hshape
        ((get? links name).getD []) 0)
      simp only [List.nil_append, translateEach, hschema]
      refine .bind hobject ?_
      rintro type s₁ - ⟨hentry, hplans⟩
      have hset : Adds s₁ (s₁.setCached .output (.ofText name) type) := TypeFrame.setCached _ _ _ _
      refine .bind (.setCached _ _ _ hset
        (Q := fun _ s' => s'.Plans name ⟨ms, (get? links name).getD [], .output, 0⟩) ?_) ?_
      · refine (hplans hfree).later hset.extends fun t ht => ?_
        obtain rfl := Option.some.inj (hentry.symm.trans ht)
        simpa [State.cache] using
          get?_cache_setCached s₁ .output .output (.ofText name) (.ofText name) (some t)
      · exact fun _ s₂ _ h₂ => translateEach_plans h₂ hlater
  | cons other earlier ih =>
      obtain ⟨hother, hrest⟩ := List.ne_and_not_mem_of_not_mem_cons hnew
      obtain ⟨hobject, hobjects⟩ := List.forall_mem_cons.mp hearlier
      obtain ⟨members, hmembers, hmembersShape⟩ := isObjectName_iff.mp hobject
      have hlabel : Label.ofText name ≠ .ofText other :=
        fun h => hother (Label.ofText_injective h)
      have hfirst := translate_object (c := c) (s := s) other hmembersShape
        ((get? links other).getD []) 0
      simp only [List.cons_append, translateEach, hmembers]
      refine .bind (Q := fun _ s' => get? s'.outputs (.ofText name) = none)
        ⟨hfirst.1.1, fun _ _ => (hfirst.1.2 _ hlabel).trans hfree⟩ ?_
      intro type s₁ _ h₁
      have hspares := spares_setCached other s₁ type
      refine .bind (.setCached _ _ _ hspares.1
        (Q := fun _ s' => get? s'.outputs (.ofText name) = none) ?_) ?_
      · exact (hspares.2 _ hlabel).trans h₁
      · exact fun _ s₂ _ h₂ => ih hobjects hrest h₂

end Types

/-! ## Whatever is asked later -/

theorem translateResponses_plans {c : Catalog} {s : State} (hs : s.outputs = []) {o : Operation}
    (ho : o ∈ c.operations.map Prod.snd) {name : String} (hresponse : o.response = some name)
    {ms : Schema.Members} (hschema : c.schema .output name = .map ms)
    (hshape : Schema.shape? ms = some .object) :
    Ensures Adds s (translateResponses c) fun _ s' =>
      s'.Plans name ⟨ms, ofList (linksTo (c.operations.map Prod.snd) name), .output, 0⟩ := by
  have hnone : Distinct ([] : Table String (Table String Link)) := List.nodup_nil
  obtain ⟨hdistinct, hkeys⟩ := keys_responseLinks hnone (c.operations.map Prod.snd)
  have hmem := (hkeys name).mpr (.inr ⟨o, ho, hresponse⟩)
  have hobject : isObjectName c name = true := isObjectName_iff.mpr ⟨ms, hschema, hshape⟩
  have hlinks := get?_responseLinks [] (c.operations.map Prod.snd) name
  refine .bind_liftExcept fun ordered hordered => ?_
  obtain ⟨earlier, later, rfl, hearlier, hlater, hobjects⟩ :=
    objectsFirst_split hordered hdistinct hmem hobject
  have hfree : get? s.outputs (.ofText name) = none := by rw [hs, get?_nil]
  refine (translateEach_links hschema hshape hobjects hearlier hlater hfree).weaken ?_
  intro _ s' _ hplans
  rwa [hlinks] at hplans

/-- When the responses of a description were translated, an object type is kept under the name
of each of their schemas that is one of an object. Its fields are to be found at the first level
from the schema's own members and from the links of all operations that return it, of which the
last one of a name counts. Whatever is asked of the graph later keeps the type and its plan. -/
theorem links_of_every_response {config : Config} {fetches : Bool} {document : Value} {c : Catalog}
    {s : State} (h : ofDocument config fetches document translateResponses = (.ok (c, ()), s))
    {o : Operation} (ho : o ∈ c.operations.map Prod.snd) {name : String}
    (hresponse : o.response = some name) {ms : Schema.Members}
    (hschema : c.schema .output name = .map ms) (hshape : Schema.shape? ms = some .object) :
    ∃ place links, links = ofList (linksTo (c.operations.map Prod.snd) name) ∧
      (∀ link, get? links link =
        get? (linksTo (c.operations.map Prod.snd) name).reverse link) ∧
      ∀ demands : List Demand, (∀ d ∈ demands, d.replaces = false) →
        get? (afterDemands c s demands).outputs (.ofText name) = some (some (.named place)) ∧
        ∃ type, (afterDemands c s demands).types[place]? = some (.composite type) ∧
          type.plan = ⟨ms, links, .output, 0⟩ := by
  obtain ⟨log, -, hrun⟩ := run_of_ofDocument h
  obtain ⟨-, place, type, hkept, hheld, hplan⟩ :=
    (translateResponses_plans (s := atStart config log) rfl ho hresponse hschema hshape).of_ok hrun
  refine ⟨place, _, rfl, fun link => get?_ofList _ link, ?_⟩
  intro demands hdemands
  have hretains := retains_afterDemands (c := c) hdemands s
  refine ⟨hretains.typed .output hkept, ?_⟩
  obtain ⟨type', hheld', hsame, -⟩ := hretains.grows.composite hheld
  exact ⟨type', hheld', hsame.trans hplan⟩

/-! ### A pet and its owner

An array of pets comes first, then two operations that return a pet, each with a link of the
same name.
-/

def petDefinition : Value :=
  .map [("type", .text "object"), ("properties", .map [("name", .map [("type", .text "string")])])]

def petReference : Value := .map [("$ref", .text "#/components/schemas/Pet")]

def jsonContent (schema : Value) : Value := .map [("application/json", .map [("schema", schema)])]

def getOperation (id : String) (response : List (String × Value)) : Value :=
  .map [("get", .map [("operationId", .text id), ("responses", .map [("200", .map response)])])]

def getPet (id owner : String) : Value :=
  getOperation id [("content", jsonContent petReference),
    ("links", .map [("owner", .map [("operationId", .text owner)])])]

def petsDocument : Value :=
  .map [("openapi", .text "3.0.0"),
    ("components", .map [("schemas", .map [("Pet", petDefinition)])]),
    ("paths", .map [
      ("/pets", getOperation "listPets"
        [("content", jsonContent (.map [("type", .text "array"), ("items", petReference)]))]),
      ("/pets/old", getPet "getOldPet" "getFirstOwner"),
      ("/pets/new", getPet "getNewPet" "getOwner")])]

/-- The catalog and the state that the translation of all responses leaves. -/
def translated? : Except Failure (Catalog × Unit) × State → Option (Catalog × State)
  | (.ok (c, ()), s) => some (c, s)
  | _ => none

theorem of_translated? {result : Except Failure (Catalog × Unit) × State} {c : Catalog} {s : State}
    (h : translated? result = some (c, s)) : result = (.ok (c, ()), s) := by
  unfold translated? at h
  split at h
  · cases h
    rfl
  · cases h

/-- What is known of the responses of a catalog: their names in the order of the operations, the
shape of a schema and the operation that a link to it leads to. -/
def responseFacts (c : Catalog) (name link : String) :
    List (Option String) × Option Schema.Shape × Option String :=
  let operations := c.operations.map Prod.snd
  let shape? := match c.schema .output name with
    | .map ms => Schema.shape? ms
    | _ => none
  (operations.map Operation.response, shape?,
    (get? (linksTo operations name).reverse link).bind fun l => l.operationId.text?)

theorem facts_of_pets :
    (translated? (ofDocument default true petsDocument translateResponses)).map
      (fun built => responseFacts built.1 "Pet" "owner") =
    some ([some "listPetsResponse", some "Pet", some "Pet"], some .object, some "getOwner") := by
  decide +kernel

/-- The owner of a pet is found as the last operation says, although an array of pets is met
first, and after the fields of the pet were asked for as well. -/
theorem owner_of_pet :
    ∃ c s place links, ofDocument default true petsDocument translateResponses = (.ok (c, ()), s) ∧
      ((get? links "owner").bind fun l => l.operationId.text?) = some "getOwner" ∧
      get? (afterDemands c s [.call (.step (.fields place))]).outputs (.ofText "Pet") =
        some (some (.named place)) ∧
      ∃ type, (afterDemands c s [.call (.step (.fields place))]).types[place]? =
        some (.composite type) ∧ type.plan.links = links := by
  obtain ⟨⟨c, s⟩, hbuilt, hfacts⟩ := Option.map_eq_some_iff.mp facts_of_pets
  obtain ⟨hresponses, hrest⟩ := Prod.mk.inj hfacts
  obtain ⟨hshape, howner⟩ := Prod.mk.inj hrest
  have hresponse : some "Pet" ∈ (c.operations.map Prod.snd).map Operation.response := by
    rw [hresponses]
    decide
  obtain ⟨o, ho, hname⟩ := List.mem_map.mp hresponse
  dsimp only at hshape
  split at hshape
  · rename_i ms hms
    obtain ⟨place, links, -, hlinks, hlater⟩ :=
      links_of_every_response (of_translated? hbuilt) ho hname hms hshape
    obtain ⟨hkept, type, hheld, hplan⟩ :=
      hlater [.call (.step (.fields place))] (by simp [Demand.replaces])
    refine ⟨c, s, place, links, of_translated? hbuilt, ?_, hkept, type, hheld, ?_⟩
    · rw [hlinks]
      exact howner
    · rw [hplan]
  · cases hshape

end RestGraph.Graph
