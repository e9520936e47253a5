import RestGraph.Proofs.Argument
import RestGraph.Proofs.NameHistory
import RestGraph.Proofs.Request

namespace RestGraph.Graph

open Table

/-!
# From arguments to requests

The arguments of a field are made when the field is, and its request is prepared when the
field is asked for. In between more names may have been stored. Each value still goes to
the place of the parameter that its key was made for.
-/

/-- The parameters of the operation have names, each its own and none that of the body. -/
structure Addressable (o : Operation) : Prop where
  named : ∀ p ∈ o.parameters, ∃ name, p.name = .text name
  distinct : (o.parameters.map Parameter.name).Nodup
  request : ∀ p ∈ o.parameters, ∀ name, o.request = some name → p.name ≠ .text name

/-! ## The parameters of an operation -/

theorem withoutPresets_of_named (preset : Table String String) {ps : List Parameter}
    (h : ∀ p ∈ ps, ∃ name, p.name = .text name) :
    withoutPresets preset ps =
      .ok (ps.filter fun p => !((p.name.text?.map (contains preset)).getD false)) := by
  induction ps with
  | nil => rfl
  | cons p ps ih =>
      obtain ⟨name, hname⟩ := h p List.mem_cons_self
      have hlabel : p.name.labelOf = .ok (.ofText name) := by rw [hname]; rfl
      have htext : p.name.text? = some name := Value.text?_eq_some_iff.mpr hname
      unfold withoutPresets
      rw [hlabel, ih fun q hq => h q (List.mem_cons_of_mem _ hq), List.filter_cons, htext]
      simp only [bind, Except.bind, Label.text?_ofText, Option.map_some, Option.getD_some]
      by_cases hpreset : contains preset name = true <;> simp [hpreset, pure, Except.pure]

theorem mem_withoutPresets {preset : Table String String} {ps remaining : List Parameter}
    (h : ∀ p ∈ ps, ∃ name, p.name = .text name)
    (hremaining : withoutPresets preset ps = .ok remaining) {p : Parameter} {name : String}
    (hname : p.name = .text name) :
    p ∈ remaining ↔ p ∈ ps ∧ contains preset name = false := by
  rw [withoutPresets_of_named preset h] at hremaining
  obtain rfl := Except.ok.inj hremaining
  have htext : p.name.text? = some name := Value.text?_eq_some_iff.mpr hname
  simp [List.mem_filter, htext]

theorem sublist_withoutPresets {preset : Table String String} {ps remaining : List Parameter}
    (h : ∀ p ∈ ps, ∃ name, p.name = .text name)
    (hremaining : withoutPresets preset ps = .ok remaining) : remaining.Sublist ps := by
  rw [withoutPresets_of_named preset h] at hremaining
  obtain rfl := Except.ok.inj hremaining
  exact List.filter_sublist

theorem nodup_names {ps : List Parameter} (h : (ps.map Parameter.name).Nodup) :
    (ps.filterMap fun p => p.name.text?).Nodup := by
  have hmap : (ps.filterMap fun p => p.name.text?) =
      (ps.map Parameter.name).filterMap Value.text? := by
    rw [List.filterMap_map]
    rfl
  rw [hmap]
  refine h.filterMap fun v w text hv hw => ?_
  rw [Value.text?_eq_some_iff.mp hv, Value.text?_eq_some_iff.mp hw]

theorem nodup_exposed (c : Catalog) {ps : List Parameter}
    (h : (ps.map Parameter.name).Nodup) : ((exposed c ps).map Prod.fst).Nodup := by
  refine (nodup_names h).sublist ?_
  induction ps with
  | nil => exact List.Sublist.slnil
  | cons p ps ih =>
      have htail := ih (List.nodup_cons.mp h).2
      rw [List.filterMap_cons]
      cases hname : p.name with
      | text name =>
          rw [exposed_cons_text c ps hname]
          split
          · exact htail.cons name
          · exact htail.cons_cons name
      | _ =>
          have htext : p.name.text? = none := by rw [hname]; rfl
          rw [exposed_cons_unnamed c ps htext]
          exact htail

theorem declaredPart_of_mem {ps : List Parameter} (h : (ps.map Parameter.name).Nodup)
    {p : Parameter} {name : String} (hp : p ∈ ps) (hname : p.name = .text name) :
    Request.declaredPart ps name = .ofLocation p.location := by
  have htext : p.name.text? = some name := Value.text?_eq_some_iff.mpr hname
  unfold Request.declaredPart
  cases hfind : ps.find? fun p => p.name.text? == some name with
  | none =>
      have hall := List.find?_eq_none.mp hfind p hp
      simp [htext] at hall
  | some q =>
      have hq := List.mem_of_find?_eq_some hfind
      have hqname : q.name.text? = some name := by
        simpa using List.find?_some hfind
      have hsame : q.name = p.name := by
        rw [hname]
        exact Value.text?_eq_some_iff.mp hqname
      obtain rfl := List.inj_on_of_nodup_map h hq hp hsame
      rfl

/-! ## The arguments of a field and their keys -/

/-- A parameter that neither the configuration nor the field itself gives a value. -/
structure Open (c : Catalog) (o : Operation) (preset : Table String String) (p : Parameter)
    (name : String) : Prop where
  mem : p ∈ o.parameters
  named : p.name = .text name
  free : contains preset name = false
  unconfigured : c.config.isPreset name = false

/-- The arguments are those of the open parameters and at most the body's, each under the
name that the registry has for its parameter. -/
structure Covers (c : Catalog) (o : Operation) (preset : Table String String)
    (body : Option String) (found : Table String Argument) (r : Name.Registry) : Prop where
  coherent : r.Coherent
  keyed : ∀ e ∈ found, Keyed r e
  own : ∀ p name, Open c o preset p name → ∃ key, (key, parameterArgument p name) ∈ found
  origin : ∀ e ∈ found,
    (∃ p, Open c o preset p e.2.parameterName) ∨ body = some e.2.parameterName

theorem Covers.later {c : Catalog} {o : Operation} {preset : Table String String}
    {body : Option String} {found : Table String Argument} {s s' : State}
    (h : Covers c o preset body found s.names) (hlater : NamesGrow s s') :
    Covers c o preset body found s'.names where
  coherent := hlater.2 h.coherent
  keyed e he := (h.keyed e he).later hlater.1
  own := h.own
  origin := h.origin

theorem covers_arguments {c : Catalog} {o : Operation} (ho : Addressable o)
    {preset : Table String String} {remaining : List Parameter}
    (hremaining : withoutPresets preset o.parameters = .ok remaining) {body : Option String}
    (hbody : body = none ∨ body = o.request) {required : Bool} {s s' : State}
    (hs : s.names.Coherent) {found : Table String Argument}
    (hrun : (arguments c remaining body required).run s = (.ok found, s')) :
    Covers c o preset body found s'.names := by
  have hopen : ∀ name p, (name, p) ∈ exposed c remaining ↔ Open c o preset p name := by
    intro name p
    rw [mem_exposed]
    constructor
    · rintro ⟨hp, hname, hconfigured⟩
      obtain ⟨hmem, hpreset⟩ := (mem_withoutPresets ho.named hremaining hname).mp hp
      exact ⟨hmem, hname, hpreset, hconfigured⟩
    · intro hp
      exact ⟨(mem_withoutPresets ho.named hremaining hp.named).mpr ⟨hp.mem, hp.free⟩,
        hp.named, hp.unconfigured⟩
  have hnames : ((exposed c remaining).map Prod.fst).Nodup :=
    nodup_exposed c (ho.distinct.sublist ((sublist_withoutPresets ho.named hremaining).map _))
  have hother : ∀ name, body = some name → name ∉ (exposed c remaining).map Prod.fst := by
    intro name hname hmem
    obtain ⟨⟨name', p⟩, hp, rfl⟩ := List.mem_map.mp hmem
    have hp' := (hopen name' p).mp hp
    rcases hbody with hnone | hsame
    · rw [hnone] at hname
      cases hname
    · exact ho.request p hp'.mem name' (hsame ▸ hname) hp'.named
  obtain ⟨hgrow, ⟨own, added, rfl, hown, hadded, -⟩, hkeyed⟩ :=
    (arguments_ensures c remaining body required hs hnames hother).of_ok hrun
  refine ⟨hgrow.2 hs, hkeyed, ?_, ?_⟩
  · intro p name hp
    have hmem : parameterArgument p name ∈ own.map Prod.snd := by
      rw [hown]
      exact List.mem_map.mpr ⟨(name, p), (hopen name p).mpr hp, rfl⟩
    obtain ⟨⟨key, a⟩, he, rfl⟩ := List.mem_map.mp hmem
    exact ⟨key, List.mem_append_left _ he⟩
  · intro e he
    rcases List.mem_append.mp he with he | he
    · left
      have hmem : e.2 ∈ own.map Prod.snd := List.mem_map.mpr ⟨e, he, rfl⟩
      rw [hown] at hmem
      obtain ⟨⟨name, p⟩, hp, heq⟩ := List.mem_map.mp hmem
      rw [← heq]
      exact ⟨p, (hopen name p).mp hp⟩
    · exact .inr (hadded e he)

/-! ## What a request holds of them -/

section Prepared

open Request

variable {c : Catalog} {o : Operation} {preset : Table String String} {body : Option String}
  {found : Table String Argument} {r : Name.Registry} {arguments : Table String Value}

theorem Covers.text?_of_mem (h : Covers c o preset body found r) {key : String} {a : Argument}
    (hmem : (key, a) ∈ found) : r.text? key = some a.parameterName :=
  text?_of_keyed h.coherent (h.keyed _ hmem)

theorem Covers.known (h : Covers c o preset body found r) (hkeys : keys arguments ⊆ keys found) :
    ∀ key ∈ keys arguments, ∃ a, (key, a) ∈ found ∧ r.text? key = some a.parameterName := by
  intro key hkey
  obtain ⟨⟨key', a⟩, he, rfl⟩ := List.mem_map.mp (hkeys hkey)
  exact ⟨a, he, h.text?_of_mem he⟩

theorem Covers.get?_sent (h : Covers c o preset body found r)
    (hkeys : keys arguments ⊆ keys found) {key : String} {a : Argument}
    (hmem : (key, a) ∈ found) (hother : o.request ≠ some a.parameterName) :
    get? (sent r o.request arguments) a.parameterName = get? arguments key := by
  refine Request.get?_sent h.coherent ?_ (h.text?_of_mem hmem) hother
  intro key hkey
  obtain ⟨a, -, htext⟩ := h.known hkeys key hkey
  exact ⟨_, htext⟩

theorem Covers.open_of_sent (h : Covers c o preset body found r)
    (hbody : body = none ∨ body = o.request) (hkeys : keys arguments ⊆ keys found)
    {name : String} {v : Value} (hsent : get? (sent r o.request arguments) name = some v) :
    ∃ p, Open c o preset p name := by
  by_contra hnone
  have habsent : get? (sent r o.request arguments) name = none := by
    refine get?_sent_eq_none fun key hkey htext => ?_
    obtain ⟨a, he, hkeyText⟩ := h.known hkeys key hkey
    have hname : a.parameterName = name := by
      simpa [Name.Registry.textOr, hkeyText] using htext
    rcases h.origin _ he with hopen | hsome
    · exact absurd (hname ▸ hopen) hnone
    · rcases hbody with hbodyNone | hsame
      · rw [hbodyNone] at hsome
        cases hsome
      · exact hsame ▸ hname ▸ hsome
  rw [habsent] at hsent
  cases hsent

theorem Covers.distinct_sent (h : Covers c o preset body found r)
    (hargs : Distinct arguments) (hkeys : keys arguments ⊆ keys found) :
    Distinct (sent r o.request arguments) := by
  refine Request.distinct_sent h.coherent _ hargs fun key hkey => ?_
  obtain ⟨a, -, htext⟩ := h.known hkeys key hkey
  exact ⟨_, htext⟩

/-- Under each name a part of the request has what the configuration supplies, or else what
was sent or preset under the name, if the part is the one declared for it. -/
def Conveys (c : Catalog) (o : Operation) (preset : Table String String) (r : Name.Registry)
    (parent : Value) (arguments : Table String Value) (request : Request) : Prop :=
  ∀ part name, request.valueIn part name =
    (configured c.config part name).or
      (((get? (sent r o.request arguments) name).or ((get? preset name).map parent.resolve)).bind
        ((declaredPart o.parameters name).share part))

theorem Covers.conveys (h : Covers c o preset body found r) (ho : Addressable o)
    (hargs : Distinct arguments) (hkeys : keys arguments ⊆ keys found)
    (hpreset : Distinct preset) (hheaders : Distinct c.config.headers)
    (hquery : Distinct c.config.query) {parent : Value} {request : Request}
    (hrequest : prepare c.config r o preset parent arguments = .ok request) :
    Conveys c o preset r parent arguments request := by
  intro part name
  have hvalues : get? (contentOf r o preset parent arguments).values name =
      (get? (sent r o.request arguments) name).or ((get? preset name).map parent.resolve) := by
    unfold contentOf
    rw [content_values, get?_insertAll _ (h.distinct_sent hargs hkeys), get?_map]
  rw [← hvalues]
  exact valueIn_prepare hheaders hquery (nodup_names ho.distinct)
    (distinct_contentOf r o hpreset parent arguments) hrequest part name

/-- The value of a parameter is in the part of the parameter and nowhere else. -/
theorem Covers.valueIn_open (h : Covers c o preset body found r) (ho : Addressable o)
    (hkeys : keys arguments ⊆ keys found) {parent : Value} {request : Request}
    (hconveys : Conveys c o preset r parent arguments request) {p : Parameter} {key : String}
    {a : Argument} (hmem : (key, a) ∈ found) (hp : Open c o preset p a.parameterName)
    (part : Part) :
    request.valueIn part a.parameterName =
      (get? arguments key).bind ((Part.ofLocation p.location).share part) := by
  have hfree : get? preset a.parameterName = none := contains_eq_false_iff.mp hp.free
  have hother : o.request ≠ some a.parameterName := fun hsome =>
    ho.request p hp.mem _ hsome hp.named
  rw [hconveys part a.parameterName, h.get?_sent hkeys hmem hother, hfree,
    configured_of_not_preset hp.unconfigured, declaredPart_of_mem ho.distinct hp.mem hp.named]
  simp

/-- A preset value is in the part of its parameter, unless the configuration has a value of
its own there. -/
theorem Covers.valueIn_preset (h : Covers c o preset body found r)
    (hbody : body = none ∨ body = o.request) (hkeys : keys arguments ⊆ keys found)
    {parent : Value} {request : Request}
    (hconveys : Conveys c o preset r parent arguments request) {name pointer : String}
    (hname : get? preset name = some pointer) (part : Part) :
    request.valueIn part name =
      (configured c.config part name).or
        ((declaredPart o.parameters name).share part (parent.resolve pointer)) := by
  have hsent : get? (sent r o.request arguments) name = none := by
    cases hvalue : get? (sent r o.request arguments) name with
    | none => rfl
    | some v =>
        obtain ⟨p, hp⟩ := h.open_of_sent hbody hkeys hvalue
        have hfree := contains_eq_false_iff.mp hp.free
        rw [hname] at hfree
        cases hfree
  rw [hconveys part name, hsent, hname]
  rfl

/-- Under all other names there is what the configuration supplies. -/
theorem Covers.valueIn_other (h : Covers c o preset body found r)
    (hbody : body = none ∨ body = o.request) (hkeys : keys arguments ⊆ keys found)
    {parent : Value} {request : Request}
    (hconveys : Conveys c o preset r parent arguments request) {name : String}
    (hname : contains preset name = false) (hclosed : ¬ ∃ p, Open c o preset p name)
    (part : Part) : request.valueIn part name = configured c.config part name := by
  have hsent : get? (sent r o.request arguments) name = none := by
    cases hvalue : get? (sent r o.request arguments) name with
    | none => rfl
    | some v => exact absurd (h.open_of_sent hbody hkeys hvalue) hclosed
  rw [hconveys part name, hsent, contains_eq_false_iff.mp hname]
  simp

theorem Covers.body_of_mem (h : Covers c o preset body found r) (hargs : Distinct arguments)
    (hkeys : keys arguments ⊆ keys found) (parent : Value) {key : String} {a : Argument}
    (hmem : (key, a) ∈ found) (hrequest : o.request = some a.parameterName) :
    (contentOf r o preset parent arguments).body =
      ((get? arguments key).map r.restore).getD .null := by
  unfold contentOf
  rw [hrequest]
  refine content_body h.coherent _ hargs (fun key hkey => ?_) (h.text?_of_mem hmem)
  obtain ⟨a, -, htext⟩ := h.known hkeys key hkey
  exact ⟨_, htext⟩

theorem Covers.body_of_absent (h : Covers c o preset body found r)
    (hkeys : keys arguments ⊆ keys found) (parent : Value)
    (habsent : ∀ e ∈ found, o.request ≠ some e.2.parameterName) :
    (contentOf r o preset parent arguments).body = .null := by
  unfold contentOf
  refine content_body_of_absent _ fun key hkey => ?_
  obtain ⟨a, he, htext⟩ := h.known hkeys key hkey
  have hname : r.textOr key key = a.parameterName := by simp [Name.Registry.textOr, htext]
  rw [hname]
  exact habsent _ he

end Prepared

/-- The arguments made for an operation and the request prepared from values for them agree,
however many names were stored in between. The value of each open parameter is in the part
of the parameter and nowhere else, and so are preset values where the configuration has none
of its own. The body is the restored value of its argument, or null if there is none. All
that the configuration supplies is there, and no request holds anything else. -/
theorem arguments_reach_request {c : Catalog} {o : Operation} (ho : Addressable o)
    {preset : Table String String} (hpreset : Distinct preset) {remaining : List Parameter}
    (hremaining : withoutPresets preset o.parameters = .ok remaining) {body : Option String}
    (hbody : body = none ∨ body = o.request) {required strict : Bool} {s s₁ s₂ : State}
    (hs : NamesReach (.empty strict) s) {found : Table String Argument}
    (hrun : (arguments c remaining body required).run s = (.ok found, s₁))
    (hlater : NamesReach s₁ s₂) (hheaders : Distinct c.config.headers)
    (hquery : Distinct c.config.query) {values : Table String Value} (hvalues : Distinct values)
    (hkeys : keys values ⊆ keys found) {parent : Value} {r : Request}
    (hrequest : Request.prepare c.config s₂.names o preset parent values = .ok r) :
    (∀ p name, Open c o preset p name →
      ∃ key a, (key, a) ∈ found ∧ a.parameterName = name ∧
        ∀ part, r.valueIn part name =
          (get? values key).bind ((Request.Part.ofLocation p.location).share part)) ∧
    (∀ name pointer, get? preset name = some pointer →
      ∀ part, r.valueIn part name =
        (Request.configured c.config part name).or
          ((Request.declaredPart o.parameters name).share part (parent.resolve pointer))) ∧
    (∀ key a, (key, a) ∈ found → o.request = some a.parameterName →
      r.body = ((get? values key).map s₂.names.restore).getD .null) ∧
    ((∀ e ∈ found, o.request ≠ some e.2.parameterName) → r.body = .null) ∧
    (∀ part name v, Request.configured c.config part name = some v →
      r.valueIn part name = some v) ∧
    ∀ name, contains preset name = false → (¬ ∃ p, Open c o preset p name) →
      ∀ part, r.valueIn part name = Request.configured c.config part name := by
  have hstart : s.names.Coherent := hs.namesGrow.2 (Name.Registry.coherent_empty strict)
  have hcovers := (covers_arguments ho hremaining hbody hstart hrun).later hlater.namesGrow
  have hconveys := hcovers.conveys ho hvalues hkeys hpreset hheaders hquery hrequest
  refine ⟨?_, ?_, ?_, ?_, ?_, ?_⟩
  · intro p name hp
    obtain ⟨key, hmem⟩ := hcovers.own p name hp
    exact ⟨key, _, hmem, rfl, hcovers.valueIn_open ho hkeys hconveys hmem hp⟩
  · intro name pointer hname
    exact hcovers.valueIn_preset hbody hkeys hconveys hname
  · intro key a hmem hname
    rw [Request.body_prepare hrequest]
    exact hcovers.body_of_mem hvalues hkeys parent hmem hname
  · intro habsent
    rw [Request.body_prepare hrequest]
    exact hcovers.body_of_absent hkeys parent habsent
  · intro part name v hv
    rw [hconveys part name, hv]
    rfl
  · intro name hname hclosed
    exact hcovers.valueIn_other hbody hkeys hconveys hname hclosed

/-! ### A sample operation

Two of its parameters have one plain name, one is preset and the body has a member that is
renamed.
-/

def petParameter (name place : String) : Parameter := [("name", .text name), ("in", .text place)]

def petUpdate : Operation where
  id := .ofText "updatePet"
  method := "put"
  path := "/pets/\x7bpet-id\x7d"
  parameters := [petParameter "pet-id" "path", petParameter "petId" "cookie",
    petParameter "trace" "header", petParameter "owner" "query"]
  response := none
  request := some "PetInput"
  requestRequired := true
  links := []
  description := .null

def petCatalog : Catalog :=
  (Catalog.empty { (default : Config) with headers := [("X-Key", "k")] } true).define "Pet"
    (.map [("type", .text "object"),
      ("properties", .map [("pet name", .map [("type", .text "string")])])])

def petArguments : Except Failure (Table String Argument) × State :=
  (arguments petCatalog (petUpdate.parameters.take 3) (some "PetInput") true).run (.empty false)

def petOwner : Value := .map [("owner", .map [("id", .int 3)])]

def petValues : Table String Value :=
  [("petId2", .int 11), ("petId", .int 7), ("PetInput", .map [("petName", .text "Rex")])]

def petRequest (names : Name.Registry) : Except Failure Request :=
  Request.prepare petCatalog.config names petUpdate [("owner", "/owner/id")] petOwner petValues

theorem names_petArguments :
    petArguments.1.toOption.map (List.map fun e => (e.1, e.2.parameterName)) =
      some [("petId", "pet-id"), ("petId2", "petId"), ("trace", "trace"),
        ("PetInput", "PetInput")] := by
  decide +kernel

theorem isOk_petRequest :
    (petRequest (storing petArguments.2 [.text "pet name"]).names).isOk = true := by
  decide +kernel

theorem petName_restored :
    (storing petArguments.2 [.text "pet name"]).names.textOr "petName" "petName" = "pet name" := by
  decide +kernel

/-- The values for the sample operation, given under names that differ from those of its
parameters, arrive where the operation declares them. -/
theorem arguments_reach_pet_request :
    ∃ found s₁ r, petArguments = (.ok found, s₁) ∧
      petRequest (storing s₁ [.text "pet name"]).names = .ok r ∧
      r.valueIn .path "pet-id" = some (.int 7) ∧ r.valueIn .query "pet-id" = none ∧
      r.valueIn .cookie "petId" = some (.text "11") ∧ r.valueIn .query "owner" = some (.int 3) ∧
      r.valueIn .header "X-Key" = some (.text "k") ∧ r.body = .map [("pet name", .text "Rex")] := by
  have hnames := names_petArguments
  have hok := isOk_petRequest
  have hrestored := petName_restored
  rcases hrun : petArguments with ⟨_ | found, s₁⟩
  · simp [hrun, Except.toOption] at hnames
  rw [hrun] at hnames hok hrestored
  cases hrequest : petRequest (storing s₁ [.text "pet name"]).names with
  | error f => simp [hrequest, Except.isOk, Except.toBool] at hok
  | ok r =>
      have hfound := Option.some.inj hnames
      have hkeys : keys found = ["petId", "petId2", "trace", "PetInput"] := by
        have hfirst := congrArg (List.map Prod.fst) hfound
        simpa [keys, Function.comp_def] using hfirst
      have hkey : ∀ key a, (key, a) ∈ found →
          (key, a.parameterName) ∈ found.map fun e => (e.1, e.2.parameterName) :=
        fun key a hmem => List.mem_map.mpr ⟨(key, a), hmem, rfl⟩
      have haddressable : Addressable petUpdate := by
        constructor <;> simp [petUpdate, petParameter, Parameter.name, Value.memberOr, get?]
      have hremaining : withoutPresets [("owner", "/owner/id")] petUpdate.parameters =
          .ok (petUpdate.parameters.take 3) := rfl
      have hsome : some "PetInput" = none ∨ some "PetInput" = petUpdate.request := .inr rfl
      have hstart : NamesReach (.empty false) (.empty false) := ⟨[], rfl⟩
      have hlater : NamesReach s₁ (storing s₁ [.text "pet name"]) := ⟨_, rfl⟩
      unfold petRequest at hrequest
      unfold petArguments at hrun
      obtain ⟨hopen, hpreset, hbody, -, hconfigured, -⟩ :=
        arguments_reach_request haddressable (by decide) hremaining hsome hstart hrun hlater
          (by decide) (by decide) (by decide) (by rw [hkeys]; decide) hrequest
      obtain ⟨key, a, hmem, hname, hpath⟩ := hopen (petParameter "pet-id" "path") "pet-id"
        ⟨by simp [petUpdate], rfl, by decide, by decide⟩
      obtain rfl : key = "petId" := by simpa [hfound, hname] using hkey key a hmem
      obtain ⟨key', a', hmem', hname', hcookie⟩ := hopen (petParameter "petId" "cookie") "petId"
        ⟨by simp [petUpdate], rfl, by decide, by decide⟩
      obtain rfl : key' = "petId2" := by simpa [hfound, hname'] using hkey key' a' hmem'
      obtain ⟨b, hb, hbname⟩ : ∃ b, ("PetInput", b) ∈ found ∧ b.parameterName = "PetInput" := by
        have hlast : ("PetInput", "PetInput") ∈ found.map fun e => (e.1, e.2.parameterName) := by
          simp [hfound]
        obtain ⟨⟨k, b⟩, hb, heq⟩ := List.mem_map.mp hlast
        obtain ⟨rfl, hbname⟩ := Prod.mk.inj heq
        exact ⟨b, hb, hbname⟩
      refine ⟨found, s₁, r, rfl, hrequest, hpath .path, hpath .query, hcookie .cookie,
        hpreset "owner" "/owner/id" rfl .query, hconfigured .header "X-Key" _ rfl, ?_⟩
      rw [hbody "PetInput" b hb (congrArg some hbname.symm)]
      simp [petValues, get?, Name.Registry.restore, Name.Registry.restoreMembers, hrestored, ofList,
        insertAll]

end RestGraph.Graph
