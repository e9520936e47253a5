import RestGraph.Proofs.Api
import RestGraph.Proofs.Argument
import RestGraph.Proofs.Catalog
import RestGraph.Proofs.Path
import RestGraph.Request.Resolve

namespace RestGraph.Graph

open Build Table

/-!
# Calling the fields of the root types

A field of a root type takes the parameters of its operation as arguments, each under the name
that is registered for it. Values for the required ones are all that it takes to prepare the
request, and the placeholders of its path are filled from those of the path.
-/

/-! ## Arguments of the last parameters -/

section Arguments

variable {c : Catalog} {s : State}

/-- The arguments have the keys of their parameters, and that of a name is made of its last
parameter. Under a name without a parameter there is what was there before. -/
structure Counts (c : Catalog) (ps : List Parameter) (found found' : Table String Argument)
    (r : Name.Registry) : Prop where
  keyed : ∀ e ∈ found', Keyed r e
  last : ∀ name p, Parameter.last? ps name = some p → c.config.isPreset name = false →
    ∃ key, r.name? name = some key ∧ get? found' key = some (parameterArgument p name)
  others : ∀ name key, Parameter.last? ps name = none → r.name? name = some key →
    get? found' key = get? found key

theorem Counts.skip {ps : List Parameter} {found found' : Table String Argument}
    {r : Name.Registry} (h : Counts c ps found found' r) {p : Parameter}
    (hp : ∀ name, p.name.text? = some name → c.config.isPreset name = true) :
    Counts c (p :: ps) found found' r := by
  refine ⟨h.keyed, ?_, ?_⟩
  · intro name q hlast hpreset
    rw [Parameter.last?_cons] at hlast
    cases hrest : Parameter.last? ps name with
    | some q' =>
        obtain rfl : q' = q := by simpa [hrest] using hlast
        exact h.last name q' hrest hpreset
    | none =>
        have hname : p.name.text? = some name := by
          by_contra hother
          simp [hrest, hother] at hlast
        rw [hp name hname] at hpreset
        cases hpreset
  · intro name key hnone hkey
    rw [Parameter.last?_cons, Option.or_eq_none_iff] at hnone
    exact h.others name key hnone.1 hkey

theorem Counts.insert {ps : List Parameter} {found found' : Table String Argument}
    {r : Name.Registry} {key name : String} {p : Parameter}
    (h : Counts c ps (insert found key (parameterArgument p name)) found' r)
    (hr : r.Coherent) (hname : p.name = .text name) (hkey : r.name? name = some key) :
    Counts c (p :: ps) found found' r := by
  have htext : p.name.text? = some name := Value.text?_eq_some_iff.mpr hname
  refine ⟨h.keyed, ?_, ?_⟩
  · intro name' q hlast hpreset
    rw [Parameter.last?_cons, htext] at hlast
    cases hrest : Parameter.last? ps name' with
    | some q' =>
        obtain rfl : q' = q := by simpa [hrest] using hlast
        exact h.last name' q' hrest hpreset
    | none =>
        -- No later parameter has the name, so this argument is not replaced.
        have hsame : name = name' ∧ p = q := by simpa [hrest] using hlast
        obtain ⟨rfl, rfl⟩ := hsame
        refine ⟨key, hkey, ?_⟩
        rw [h.others name key hrest hkey]
        simp
  · intro name' key' hnone hkey'
    rw [Parameter.last?_cons, Option.or_eq_none_iff, htext] at hnone
    have hother : name ≠ name' := by
      rintro rfl
      simp at hnone
    have hkeys : key ≠ key' := by
      rintro rfl
      exact hother (hr.text_injective hkey hkey')
    rw [h.others name' key' hnone.1 hkey', get?_insert]
    simp [hkeys]

/-- The induction is on the parameters; names that are stored later change no key. -/
theorem parameterArguments_counts (ps : List Parameter) {found : Table String Argument}
    (hs : s.names.Coherent) (hfound : ∀ e ∈ found, Keyed s.names e) :
    Ensures NamesReach s (parameterArguments c found ps) fun found' s' =>
      Counts c ps found found' s'.names := by
  induction ps generalizing found s with
  | nil => exact .pure ⟨hfound, nofun, fun _ _ _ _ => rfl⟩
  | cons p ps ih =>
      have hskip : ∀ t, NamesReach s t →
          (∀ name, p.name.text? = some name → c.config.isPreset name = true) →
          Ensures NamesReach t (parameterArguments c found ps) fun found' s' =>
            Counts c (p :: ps) found found' s'.names := by
        intro t ht hp
        have hgrow := ht.namesGrow
        refine (ih (hgrow.2 hs) fun e he => (hfound e he).later hgrow.1).weaken ?_
        intro found' s' _ hcounts
        exact hcounts.skip hp
      unfold parameterArguments
      cases hname : p.name with
      | text name =>
          dsimp only
          split
          · rename_i hpreset
            refine .bind ((keeps_report _ _).ensures s) fun _ t ht _ => hskip t ht ?_
            rintro name' hname'
            rw [hname] at hname'
            cases hname'
            exact hpreset
          · refine Ensures.bind (Q := fun key t => t.names.name? name = some key)
              (.storeName name fun key names log hstore =>
                ⟨NameFrame.store s name key names log hstore,
                  (Name.Registry.grows_store hstore).2⟩) fun key t ht hkey => ?_
            have hgrow := ht.namesGrow
            have hold : ∀ e ∈ found, Keyed t.names e := fun e he => (hfound e he).later hgrow.1
            have hargument : Keyed t.names (key, parameterArgument p name) := hkey
            refine (ih (hgrow.2 hs) (forall_mem_insert hold hargument)).weaken ?_
            intro found' s' hs' hcounts
            have hgrow' := hs'.namesGrow
            exact hcounts.insert (hgrow'.2 (hgrow.2 hs)) hname (hgrow'.1.name _ _ hkey)
      | _ =>
          refine .bind ((keeps_report _ _).ensures s) fun _ t ht _ => hskip t ht ?_
          rintro name' hname'
          rw [hname] at hname'
          cases hname'

/-- The argument of a last parameter is there, unless its name is that of the body. -/
theorem arguments_counts (ps : List Parameter) (body : Option String) (required : Bool)
    (hs : s.names.Coherent) :
    Ensures NamesReach s (arguments c ps body required) fun found s' =>
      (∀ e ∈ found, Keyed s'.names e) ∧
        ∀ name p, Parameter.last? ps name = some p → c.config.isPreset name = false →
          body ≠ some name →
          ∃ key, s'.names.name? name = some key ∧
            get? found key = some (parameterArgument p name) := by
  unfold arguments
  have hnone : ∀ e ∈ ([] : Table String Argument), Keyed s.names e := by simp
  refine .bind (parameterArguments_counts ps hs hnone) ?_
  intro found s₁ h₁ hcounts
  have hs₁ := h₁.namesGrow.2 hs
  cases body with
  | none =>
      refine .pure ⟨hcounts.keyed, fun name p hlast hpreset _ => ?_⟩
      exact hcounts.last name p hlast hpreset
  | some bodyName =>
      have hlater : ∀ t, NamesReach s₁ t → (∀ e ∈ found, Keyed t.names e) ∧
          ∀ name p, Parameter.last? ps name = some p → c.config.isPreset name = false →
            ∃ key, t.names.name? name = some key ∧
              get? found key = some (parameterArgument p name) := by
        intro t ht
        have hgrow := ht.namesGrow.1
        refine ⟨fun e he => (hcounts.keyed e he).later hgrow, ?_⟩
        intro name p hlast hpreset
        obtain ⟨key, hkey, hget⟩ := hcounts.last name p hlast hpreset
        exact ⟨key, hgrow.name _ _ hkey, hget⟩
      unfold bodyArgument
      refine .bind ((keeps_bodyType c bodyName).ensures s₁) fun type s₂ h₂ _ => ?_
      split
      · obtain ⟨hkeyed, hlast⟩ := hlater s₂ h₂
        exact .pure ⟨hkeyed, fun name p hp hpreset _ => hlast name p hp hpreset⟩
      · refine Ensures.bind (Q := fun key t => t.names.name? bodyName = some key)
          (.storeName bodyName fun key names log hstore =>
            ⟨NameFrame.store s₂ bodyName key names log hstore,
              (Name.Registry.grows_store hstore).2⟩) fun key s₃ h₃ hkey => ?_
        refine .bind_access fun description _ => ?_
        have h₁₃ : NamesReach s₁ s₃ := trans_of _ h₂ h₃
        obtain ⟨hkeyed, hlast⟩ := hlater s₃ h₁₃
        refine .pure ⟨forall_mem_insert hkeyed hkey, ?_⟩
        intro name p hp hpreset hbody
        obtain ⟨key', hkey', hget⟩ := hlast name p hp hpreset
        refine ⟨key', hkey', ?_⟩
        -- The argument of the body replaces none: the key of a parameter stands for its name.
        have hkeys : key ≠ key' := by
          rintro rfl
          exact hbody (congrArg some ((h₁₃.namesGrow.2 hs₁).text_injective hkey hkey'))
        rw [get?_insert]
        simp [hkeys, hget]

end Arguments

/-! ## Fields of the root types -/

/-- The argument takes no null. -/
def ArgumentDef.IsRequired (d : ArgumentDef) : Prop := ∃ type, d.type = .nonNull type

/-- A field that asks for an operation: its arguments have the keys of names, and a required
parameter that counts under its name has an argument that takes no null. -/
structure Calls (c : Catalog) (r : Name.Registry) (field : Field) (o : Operation) : Prop where
  resolver : field.resolver = some (.request o [])
  known : ∀ key ∈ keys field.arguments, ∃ text, r.text? key = some text
  required : ∀ name p, Parameter.last? o.parameters name = some p →
    c.config.isPreset name = false → o.request ≠ some name → p.isRequired = true →
    ∃ key d, r.text? key = some name ∧ (key, d) ∈ field.arguments ∧ d.IsRequired

section Fields

variable {c : Catalog} {s s' : State}

theorem Calls.later {field : Field} {o : Operation} (h : Calls c s.names field o)
    (hgrow : s.names.Grows s'.names) : Calls c s'.names field o where
  resolver := h.resolver
  known key hkey := by
    obtain ⟨text, htext⟩ := h.known key hkey
    exact ⟨text, hgrow.text _ _ htext⟩
  required name p hlast hpreset hother hrequired := by
    obtain ⟨key, d, htext, hmem, hd⟩ := h.required name p hlast hpreset hother hrequired
    exact ⟨key, d, hgrow.text _ _ htext, hmem, hd⟩

theorem operationField_calls (o : Operation) (hs : s.names.Coherent) :
    Ensures NamesReach s (operationField c o) fun field? s' =>
      ∀ field, field? = some field → Calls c s'.names field o := by
  unfold operationField
  refine .bind ((keeps_responseType? o).ensures s) fun type s₁ h₁ _ => ?_
  have hs₁ := h₁.namesGrow.2 hs
  split
  · refine .bind ((keeps_report _ _).ensures s₁) fun _ _ _ _ => .pure ?_
    rintro field ⟨⟩
  · refine .bind (arguments_counts o.parameters (if o.isMutation then o.request else none)
      o.requestRequired hs₁) ?_
    rintro found s₂ h₂ ⟨hkeyed, hlast⟩
    refine .bind (argumentDefs_types found) fun defs s₃ h₃ hdefs => ?_
    refine .bind ((keeps_checkDescription _ _).ensures s₃) fun description s₄ h₄ _ => .pure ?_
    rintro field ⟨⟩
    have h₂₄ : NamesReach s₂ s₄ := trans_of _ h₃ h₄
    have hgrow := h₂₄.namesGrow
    have hs₄ := hgrow.2 (h₂.namesGrow.2 hs₁)
    refine ⟨rfl, ?_, ?_⟩
    · intro key hkey
      have hkeys : keys defs = keys found := by
        have hfirst := congrArg (List.map Prod.fst) hdefs
        simpa [keys, Function.comp_def] using hfirst
      rw [hkeys] at hkey
      obtain ⟨e, he, rfl⟩ := List.mem_map.mp hkey
      exact ⟨_, text?_of_keyed hs₄ ((hkeyed e he).later hgrow.1)⟩
    · intro name p hp hpreset hother hrequired
      have hbody : (if o.isMutation then o.request else none) ≠ some name := by
        split
        · exact hother
        · simp
      obtain ⟨key, hkey, hget⟩ := hlast name p hp hpreset hbody
      have hmem : (key, (parameterArgument p name).type) ∈ defs.map fun d => (d.1, d.2.type) :=
        hdefs ▸ List.mem_map.mpr ⟨_, mem_of_get? hget, rfl⟩
      obtain ⟨⟨key', d⟩, hd, heq⟩ := List.mem_map.mp hmem
      obtain ⟨rfl, htype⟩ := Prod.mk.inj heq
      have hnonNull : (parameterArgument p name).type = .nonNull (.scalar (parameterScalar p)) := by
        simp [parameterArgument, hrequired, TypeRef.whenRequired]
      have htext := (hs₄.inverse _ _).mpr (hgrow.1.name _ _ hkey)
      exact ⟨key', d, htext, hd, _, htype.trans hnonNull⟩

/-- All fields of the root types ask for operations. -/
def Roots.Call (c : Catalog) (r : Name.Registry) (roots : Roots) : Prop :=
  (∀ f ∈ roots.query, ∃ o, Calls c r f.2 o) ∧ ∀ f ∈ roots.mutation, ∃ o, Calls c r f.2 o

theorem Roots.Call.later {roots : Roots} (h : roots.Call c s.names)
    (hgrow : s.names.Grows s'.names) : roots.Call c s'.names :=
  ⟨fun f hf => (h.1 f hf).imp fun _ ho => ho.later hgrow,
    fun f hf => (h.2 f hf).imp fun _ ho => ho.later hgrow⟩

theorem Roots.Call.insert {roots : Roots} {r : Name.Registry} (h : roots.Call c r)
    (mutation : Bool) (name : String) {field : Field} {o : Operation} (ho : Calls c r field o) :
    (roots.insert mutation name field).Call c r := by
  unfold Roots.insert
  split
  · exact ⟨h.1, forall_mem_insert h.2 ⟨o, ho⟩⟩
  · exact ⟨forall_mem_insert h.1 ⟨o, ho⟩, h.2⟩

theorem rootFields_call (operations : List Operation) {found : Roots} (hs : s.names.Coherent)
    (hfound : found.Call c s.names) :
    Ensures NamesReach s (rootFields c found operations) fun roots s' => roots.Call c s'.names := by
  induction operations generalizing found s with
  | nil => exact .pure hfound
  | cons o operations ih =>
      refine .bind (operationField_calls o hs) fun field? s₁ h₁ hfield => ?_
      have hgrow₁ := h₁.namesGrow
      split
      · exact ih (hgrow₁.2 hs) (hfound.later hgrow₁.1)
      · rename_i field
        refine .bind ((keeps_storeName o.id.plain).ensures s₁) fun name s₂ h₂ _ => ?_
        have hgrow₂ := h₂.namesGrow
        refine ih (hgrow₂.2 (hgrow₁.2 hs)) ?_
        exact ((hfound.later hgrow₁.1).later hgrow₂.1).insert _ name
          ((hfield field rfl).later hgrow₂.1)

/-! ## The whole graph -/

theorem buildApi_calls (hs : s.names.Coherent) :
    Ensures NamesReach s (buildApi c) fun api s' => api.roots.Call c s'.names := by
  have hbuilding := building_namesReach c
  unfold buildApi
  refine .bind (hbuilding.keeps_translateResponses.ensures s) fun _ s₁ h₁ _ => ?_
  have hempty : (⟨[], []⟩ : Roots).Call c s₁.names := ⟨by simp, by simp⟩
  refine .bind (rootFields_call _ (h₁.namesGrow.2 hs) hempty) fun roots s₂ h₂ hroots => ?_
  have hkept : ∀ t, NamesReach s₂ t → roots.Call c t.names :=
    fun t ht => hroots.later ht.namesGrow.1
  dsimp only
  split
  · exact .bind (Q := fun _ _ => False) (.throw _) fun _ _ _ h => h.elim
  · refine .bind ((hbuilding.keeps_reach _ _).ensures s₂) fun queryPlaces s₃ h₃ _ => ?_
    refine .bind ((hbuilding.keeps_reach _ _).ensures s₃) fun places s₄ h₄ _ => ?_
    refine .get_bind ?_
    split
    · exact .throw _
    · exact .pure (hkept s₄ (trans_of _ h₃ h₄))

theorem roots_of_ofDocument {config : Config} {fetches : Bool} {document : Value} {api : Api}
    (h : ofDocument config fetches document buildApi = (.ok (c, api), s)) :
    c.config = config ∧ c.fetches = fetches ∧ s.names.Coherent ∧ api.roots.Call c s.names := by
  obtain ⟨log, hread, hrun⟩ := run_of_ofDocument h
  obtain ⟨hconfig, hfetches⟩ := Catalog.config_of_ofDocument hread
  have hstart : (atStart config log).names.Coherent := Name.Registry.coherent_empty _
  obtain ⟨hreach, hroots⟩ := (buildApi_calls hstart).of_ok hrun
  exact ⟨hconfig, hfetches, hreach.namesGrow.2 hstart, hroots⟩

/-- The placeholder is declared by a required parameter of the path, which counts under its
name, is not supplied by the configuration and is not the body. -/
structure Declared (c : Config) (o : Operation) (name : String) : Prop where
  path : ∃ p, Parameter.last? o.parameters name = some p ∧ p.location = .text "path" ∧
    p.isRequired = true
  unconfigured : c.isPreset name = false
  other : o.request ≠ some name

theorem Calls.supplied {field : Field} {o : Operation} (h : Calls c s.names field o)
    {values : Table String Value}
    (hgiven : ∀ key d, (key, d) ∈ field.arguments → d.IsRequired →
      ∃ v, get? values key = some v ∧ v ≠ .null) {name : String}
    (hname : Declared c.config o name) :
    ∃ key v, key ∈ keys field.arguments ∧
      Request.Supplied s.names o values name key v := by
  obtain ⟨p, hlast, hlocation, hrequired⟩ := hname.path
  obtain ⟨key, d, htext, hmem, hd⟩ :=
    h.required name p hlast hname.unconfigured hname.other hrequired
  obtain ⟨v, hv, hpresent⟩ := hgiven key d hmem hd
  refine ⟨key, v, List.mem_map.mpr ⟨_, hmem, rfl⟩, ?_⟩
  exact ⟨⟨p, hlast, hlocation⟩, hname.other, htext, hv, hpresent⟩

end Fields

/-- When a graph was built from a description, each field of its root types whose placeholders
are declared answers every call: from any values for its arguments that give one to each
argument that takes no null, and of which those that are sent as text can be written, the
request is prepared, whatever names were stored since. Each placeholder has the value of the
argument whose key stands for its name, and the address is the path with all of them filled. -/
theorem root_fields_answer {config : Config} {document : Value} {c : Catalog} {api : Api}
    {s s' : State} (hbuilt : ofDocument config true document buildApi = (.ok (c, api), s))
    (hlater : NamesReach s s') {name : String} {field : Field}
    (hfield : (name, field) ∈ api.roots.query ∨ (name, field) ∈ api.roots.mutation)
    {o : Operation} {preset : Table String String}
    (hresolver : field.resolver = some (.request o preset))
    (hdeclared : ∀ text, .placeholder text ∈ Request.Template.pieces o.path.toList →
      Declared config o text)
    {values : Table String Value} (hvalues : Distinct values)
    (hkeys : keys values ⊆ keys field.arguments) (htaken : ∀ key ∈ takenNames, key ∉ keys values)
    (hgiven : ∀ key d, (key, d) ∈ field.arguments → d.IsRequired →
      ∃ v, get? values key = some v ∧ v ≠ .null)
    (hwritable : Request.Writable s'.names o values) (parent : Value) :
    ∃ r, Resolver.resolve (.request o preset) c s'.names parent values = .ok (.request r) ∧
      (∀ text, .placeholder text ∈ Request.Template.pieces o.path.toList →
        ∃ key v, key ∈ keys field.arguments ∧ s'.names.text? key = some text ∧
          get? values key = some v ∧ v ≠ .null ∧ get? r.pathValues text = some v) ∧
      r.url = String.ofList (Text.dropTrailing '/' (config.baseUrl.getD "").toList ++
        (Request.Template.pieces o.path.toList).flatMap
          (Request.Template.Piece.filled Request.Template.points r.pathValues)) := by
  obtain ⟨rfl, hfetches, hcoherent, hroots⟩ := roots_of_ofDocument hbuilt
  have hgrow := hlater.namesGrow
  have hcoherent' := hgrow.2 hcoherent
  obtain ⟨o', hcalls⟩ : ∃ o', Calls c s'.names field o' := by
    rcases hfield with hquery | hmutation
    · exact (hroots.1 _ hquery).imp fun _ ho => ho.later hgrow.1
    · exact (hroots.2 _ hmutation).imp fun _ ho => ho.later hgrow.1
  obtain ⟨rfl, rfl⟩ : o' = o ∧ [] = preset := by
    have hsame := hcalls.resolver.symm.trans hresolver
    exact Resolver.request.inj (Option.some.inj hsame)
  have hknown : ∀ key ∈ keys values, ∃ text, s'.names.text? key = some text :=
    fun key hkey => hcalls.known key (hkeys hkey)
  have hsupplied := fun text htext => hcalls.supplied hgiven (hdeclared text htext)
  obtain ⟨r, hprepare, hpathValues, hurl⟩ :=
    Request.prepare_of_supplied c.config parent hcoherent' hvalues hknown hwritable
      fun text htext => by
        obtain ⟨key, v, -, h⟩ := hsupplied text htext
        exact ⟨key, v, h⟩
  have hfree : takenNames.any (contains values) = false := by
    rw [List.any_eq_false]
    intro key hkey hcontains
    exact htaken key hkey (mem_keys_iff.mpr (contains_iff.mp hcontains))
  refine ⟨r, ?_, ?_, hurl⟩
  · simp [Resolver.resolve, hfree, hfetches, hprepare, Except.map]
  · intro text htext
    obtain ⟨key, v, hkey, h⟩ := hsupplied text htext
    exact ⟨key, v, hkey, h.named, h.sent, h.present, hpathValues text key v h⟩

/-! ### A pet and its number

One operation with one placeholder.
-/

def getPetDocument : Value :=
  .map [("openapi", .text "3.0.0"),
    ("paths", .map [("/pets/\x7bid\x7d", .map [("get", .map [
      ("operationId", .text "getPet"),
      ("parameters", .list [.map [("name", .text "id"), ("in", .text "path"),
        ("required", .bool true), ("schema", .map [("type", .text "string")])]]),
      ("responses", .map [("200", .map [("content", .map [("application/json",
        .map [("schema", .map [("type", .text "string")])])])])])])])])]

/-- The first field of the queries with what its resolver asks for. -/
structure Query where
  catalog : Catalog
  state : State
  name : String
  field : Field
  operation : Operation
  preset : Table String String

def firstQuery? : Except Failure (Catalog × Api) × State → Option Query
  | (.ok (c, api), s) =>
      match api.roots.query with
      | (name, field) :: _ =>
          match field.resolver with
          | some (.request o preset) => some ⟨c, s, name, field, o, preset⟩
          | _ => none
      | [] => none
  | _ => none

theorem of_firstQuery? {built : Except Failure (Catalog × Api) × State} {q : Query}
    (h : firstQuery? built = some q) :
    ∃ api, built = (.ok (q.catalog, api), q.state) ∧ (q.name, q.field) ∈ api.roots.query ∧
      q.field.resolver = some (.request q.operation q.preset) := by
  unfold firstQuery? at h
  split at h
  · rename_i c api s
    split at h
    · rename_i name field rest hquery
      split at h
      · rename_i o preset hresolver
        cases h
        exact ⟨api, rfl, by simp [hquery], hresolver⟩
      · cases h
    · cases h
  · cases h

/-- What a call of the sample depends on: the field with the keys of its arguments, the path of
the operation, the place of its parameter and whether that is required, and the body. -/
structure Facts where
  name : String
  keys : List String
  path : String
  parameter : Option (Option String × Bool)
  body : Option String
deriving DecidableEq

def Query.facts (q : Query) : Facts where
  name := q.name
  keys := keys q.field.arguments
  path := q.operation.path
  parameter := (Parameter.last? q.operation.parameters "id").map fun p =>
    (p.location.text?, p.isRequired)
  body := q.operation.request

def getPetFacts (keys : List String) : Facts :=
  ⟨"getPet", keys, "/pets/\x7bid\x7d", some (some "path", true), none⟩

def getPetPieces : List Request.Template.Piece :=
  [.char '/', .char 'p', .char 'e', .char 't', .char 's', .char '/', .placeholder "id"]

theorem pieces_getPet :
    Request.Template.pieces "/pets/\x7bid\x7d".toList = getPetPieces := by
  decide +kernel

theorem Query.path_of_facts {q : Query} {keys : List String} (h : q.facts = getPetFacts keys) :
    ∀ text, .placeholder text ∈ Request.Template.pieces q.operation.path.toList → text = "id" ∧
      ∃ p, Parameter.last? q.operation.parameters text = some p ∧ p.location = .text "path" ∧
        p.isRequired = true := by
  intro text htext
  have hpath : q.operation.path = "/pets/\x7bid\x7d" := congrArg Facts.path h
  rw [hpath, pieces_getPet] at htext
  obtain rfl : text = "id" := by simpa [getPetPieces] using htext
  obtain ⟨p, hlast, hp⟩ := Option.map_eq_some_iff.mp (congrArg Facts.parameter h)
  obtain ⟨hlocation, hrequired⟩ := Prod.mk.inj hp
  exact ⟨rfl, p, hlast, Value.text?_eq_some_iff.mp hlocation, hrequired⟩

theorem facts_getPet : (firstQuery? (ofDocument default true getPetDocument buildApi)).map
    Query.facts = some (getPetFacts ["id"]) := by
  decide +kernel

/-- The number of the pet is its only argument, and goes into the address. -/
theorem get_pet_answers :
    ∃ (c : Catalog) (api : Api) (s : State) (field : Field) (o : Operation)
      (preset : Table String String) (r : Request),
      ofDocument default true getPetDocument buildApi = (.ok (c, api), s) ∧
        ("getPet", field) ∈ api.roots.query ∧ field.resolver = some (.request o preset) ∧
        Resolver.resolve (.request o preset) c s.names .null [("id", .text "a b")] =
          .ok (.request r) ∧
        r.url = "/pets/a%20b" := by
  obtain ⟨q, hquery, hfacts⟩ := Option.map_eq_some_iff.mp facts_getPet
  obtain ⟨api, hbuilt, hfield, hresolver⟩ := of_firstQuery? hquery
  have hname : q.name = "getPet" := congrArg Facts.name hfacts
  have hkeys : keys q.field.arguments = ["id"] := congrArg Facts.keys hfacts
  have hpath : q.operation.path = "/pets/\x7bid\x7d" := congrArg Facts.path hfacts
  have hbody : q.operation.request = none := congrArg Facts.body hfacts
  have hdeclared : ∀ text, .placeholder text ∈ Request.Template.pieces q.operation.path.toList →
      Declared default q.operation text := by
    intro text htext
    obtain ⟨rfl, hp⟩ := q.path_of_facts hfacts text htext
    exact ⟨hp, rfl, by simp [hbody]⟩
  have hgiven : ∀ key d, (key, d) ∈ q.field.arguments → d.IsRequired →
      ∃ v, get? [("id", Value.text "a b")] key = some v ∧ v ≠ .null := by
    intro key d hmem _
    have hkey : key ∈ keys q.field.arguments := List.mem_map.mpr ⟨_, hmem, rfl⟩
    obtain rfl : key = "id" := by simpa [hkeys] using hkey
    exact ⟨_, rfl, nofun⟩
  have hwritable : Request.Writable q.state.names q.operation [("id", Value.text "a b")] := by
    intro key v hv _
    obtain ⟨-, rfl⟩ : "id" = key ∧ Value.text "a b" = v := by simpa [get?] using hv
    rfl
  have hlater : NamesReach q.state q.state := ⟨[], rfl⟩
  obtain ⟨r, hresolve, hplaces, hurl⟩ := root_fields_answer hbuilt hlater (.inl hfield) hresolver
    hdeclared (by decide) (by rw [hkeys]; decide) (by decide) hgiven hwritable .null
  obtain ⟨key, v, hkey, -, hv, -, hvalue⟩ :=
    hplaces "id" (by rw [hpath, pieces_getPet]; simp [getPetPieces])
  obtain rfl : key = "id" := by simpa [hkeys] using hkey
  obtain rfl : Value.text "a b" = v := Option.some.inj hv
  have hfilled : getPetPieces.flatMap
      (Request.Template.Piece.filled Request.Template.points r.pathValues) =
      "/pets/a%20b".toList := by
    simp only [getPetPieces, List.flatMap_cons, List.flatMap_nil, Request.Template.Piece.filled,
      hvalue]
    decide +kernel
  rw [hpath, pieces_getPet, hfilled] at hurl
  exact ⟨_, api, _, q.field, q.operation, q.preset, r, hbuilt, hname ▸ hfield, hresolver, hresolve,
    hurl⟩

/-- A header of every request that has the name of the placeholder. -/
def numberedConfig : Config := { (default : Config) with headers := [("id", "7")] }

def missingPathValue? : Except Failure Outcome → Option (String × String)
  | .error (.missingPathValue name path) => some (name, path)
  | _ => none

theorem facts_numbered : (firstQuery? (ofDocument numberedConfig true getPetDocument buildApi)).map
    Query.facts = some (getPetFacts []) := by
  decide +kernel

theorem outcome_numbered :
    (firstQuery? (ofDocument numberedConfig true getPetDocument buildApi)).bind (fun q =>
      missingPathValue? (Resolver.resolve (.request q.operation q.preset) q.catalog q.state.names
        .null [])) = some ("id", "/pets/\x7bid\x7d") := by
  decide +kernel

/-- The parameter of the path is required, but its value comes from the configuration as a
header only: the field has no argument, and without any it does not answer. -/
theorem configured_pet_is_missing :
    ∃ (c : Catalog) (api : Api) (s : State) (field : Field) (o : Operation)
      (preset : Table String String),
      ofDocument numberedConfig true getPetDocument buildApi = (.ok (c, api), s) ∧
        ("getPet", field) ∈ api.roots.query ∧ field.resolver = some (.request o preset) ∧
        (∀ text, .placeholder text ∈ Request.Template.pieces o.path.toList →
          ∃ p, Parameter.last? o.parameters text = some p ∧ p.location = .text "path" ∧
            p.isRequired = true) ∧
        keys field.arguments = [] ∧
        Resolver.resolve (.request o preset) c s.names .null [] =
          .error (.missingPathValue "id" "/pets/\x7bid\x7d") := by
  obtain ⟨q, hquery, hfacts⟩ := Option.map_eq_some_iff.mp facts_numbered
  obtain ⟨api, hbuilt, hfield, hresolver⟩ := of_firstQuery? hquery
  have hname : q.name = "getPet" := congrArg Facts.name hfacts
  have hkeys : keys q.field.arguments = [] := congrArg Facts.keys hfacts
  have houtcome := outcome_numbered
  rw [hquery, Option.bind_some] at houtcome
  have herror : Resolver.resolve (.request q.operation q.preset) q.catalog q.state.names .null [] =
      .error (.missingPathValue "id" "/pets/\x7bid\x7d") := by
    unfold missingPathValue? at houtcome
    split at houtcome
    · rename_i name path hresult
      cases houtcome
      exact hresult
    · cases houtcome
  exact ⟨_, api, _, q.field, q.operation, q.preset, hbuilt, hname ▸ hfield, hresolver,
    fun text htext => (q.path_of_facts hfacts text htext).2, hkeys, herror⟩

end RestGraph.Graph
