import RestGraph.Proofs.Endpoint

namespace RestGraph.Catalog

/-!
# The response that is chosen

An operation answers with the first response of its definition that is a map and stands for a
success, whether or not a schema is declared for its content. The schema is that of one media
type: the first of the preferred ones that the content has, or else the first that ends like
JSON. So where an earlier success says nothing about JSON, the schema and the links of a later
one are not seen.
-/

/-! ## Successes -/

/-- Among the responses to a success that are maps, the first one that satisfies `p`. -/
def FirstSuccess (p : Table String Value → Prop) (responses : Table String Value)
    (found : Table String Value) : Prop :=
  ∃ before status after, responses = before ++ (status, .map found) :: after ∧
    Text.hasStart status "2" = true ∧ p found ∧
    ∀ e ∈ before, Text.hasStart e.1 "2" = true → ∀ ms, e.2 = .map ms → ¬p ms

/-- The first success of all. -/
def IsFirst (responses found : Table String Value) : Prop :=
  FirstSuccess (fun _ => True) responses found

theorem success?_cons_map (status : String) (ms : Table String Value)
    (rest : List (String × Value)) :
    success? ((status, .map ms) :: rest) =
      if Text.hasStart status "2" then some ms else success? rest := rfl

theorem success?_cons_other {v : Value} (h : ∀ ms, v ≠ .map ms) (status : String)
    (rest : List (String × Value)) : success? ((status, v) :: rest) = success? rest := by
  cases v with
  | map ms => exact absurd rfl (h ms)
  | _ => rfl

theorem isFirst_of_success? {responses found : Table String Value}
    (h : success? responses = some found) : IsFirst responses found := by
  induction responses with
  | nil => cases h
  | cons e rest ih =>
      obtain ⟨status, v⟩ := e
      have later : success? rest = some found →
          (Text.hasStart status "2" = true → ∀ ms, v ≠ .map ms) →
          IsFirst ((status, v) :: rest) found := by
        intro hrest hskipped
        obtain ⟨before, code, after, rfl, hcode, -, hbefore⟩ := ih hrest
        refine ⟨(status, v) :: before, code, after, rfl, hcode, trivial, ?_⟩
        rintro e he hstart ms hms -
        rcases List.mem_cons.mp he with rfl | he
        · exact hskipped hstart ms hms
        · exact hbefore e he hstart ms hms trivial
      by_cases hmap : ∃ ms, v = .map ms
      · obtain ⟨ms, rfl⟩ := hmap
        rw [success?_cons_map] at h
        by_cases hstart : Text.hasStart status "2" = true
        · obtain rfl : ms = found := by simpa [hstart] using h
          exact ⟨[], status, rest, rfl, hstart, trivial, by simp⟩
        · exact later (by simpa [hstart] using h) fun hstart' => absurd hstart' hstart
      · rw [not_exists] at hmap
        rw [success?_cons_other hmap] at h
        exact later h fun _ => hmap

theorem success?_of_isFirst {responses found : Table String Value}
    (h : IsFirst responses found) : success? responses = some found := by
  obtain ⟨before, status, after, rfl, hstatus, -, hbefore⟩ := h
  induction before with
  | nil => simp [success?_cons_map, hstatus]
  | cons e before ih =>
      obtain ⟨code, v⟩ := e
      have hrest := ih fun e he => hbefore e (List.mem_cons_of_mem _ he)
      by_cases hmap : ∃ ms, v = .map ms
      · obtain ⟨ms, rfl⟩ := hmap
        have hcode : ¬Text.hasStart code "2" = true := by
          intro hcode
          exact hbefore _ List.mem_cons_self hcode ms rfl trivial
        simp only [List.cons_append, success?_cons_map, hcode]
        exact hrest
      · rw [not_exists] at hmap
        rw [List.cons_append, success?_cons_other hmap]
        exact hrest

/-! ## Media types -/

/-- What a response declares for each media type of its content. -/
def content (response : Table String Value) : Table String Value :=
  parts (Value.memberOr response "content" (.map []))

def isJson (type : String) : Bool := mediaTypes.contains type || Text.hasSuffix type "json"

/-- The schema of a media type; null when there is none. -/
def schemaFor (response : Table String Value) (type : String) : Value :=
  part (Value.memberOr (content response) type .null) "schema" .null

/-- Some media type for JSON has a schema. -/
def DeclaresJson (response : Table String Value) : Prop :=
  ∃ type ∈ Table.keys (content response), isJson type = true ∧ schemaFor response type ≠ .null

/-- The media type whose schema counts: a preferred one, or else the first that ends like
JSON. -/
def jsonType? (response : Table String Value) : Option String :=
  (mediaTypes.find? (Table.contains (content response))).or
    ((Table.keys (content response)).find? (Text.hasSuffix · "json"))

theorem mem_and_isJson_of_jsonType? {response : Table String Value} {type : String}
    (h : jsonType? response = some type) :
    type ∈ Table.keys (content response) ∧ isJson type = true := by
  rcases Option.or_eq_some_iff.mp h with h | ⟨-, h⟩
  · have hmem : type ∈ mediaTypes := List.mem_of_find?_eq_some h
    have hcontains : Table.contains (content response) type = true := by
      simpa using List.find?_some h
    refine ⟨Table.mem_keys_iff.mpr (Table.contains_iff.mp hcontains), ?_⟩
    simp [isJson, hmem]
  · have hsuffix : Text.hasSuffix type "json" = true := by simpa using List.find?_some h
    exact ⟨List.mem_of_find?_eq_some h, by simp [isJson, hsuffix]⟩

theorem exists_jsonType? {response : Table String Value} {type : String}
    (hmem : type ∈ Table.keys (content response)) (hjson : isJson type = true) :
    ∃ chosen, jsonType? response = some chosen := by
  rw [← Option.isSome_iff_exists, jsonType?, Option.isSome_or, Bool.or_eq_true_iff]
  rcases Bool.or_eq_true_iff.mp hjson with hpreferred | hsuffix
  · left
    rw [List.find?_isSome]
    refine ⟨type, by simpa using hpreferred, ?_⟩
    exact Table.contains_iff.mpr (Table.mem_keys_iff.mp hmem)
  · right
    rw [List.find?_isSome]
    exact ⟨type, hmem, hsuffix⟩

theorem preferred?_ok {ms : Table String Value} {types : List String} {schema : Option Value}
    (h : preferred? (.map ms) types = .ok schema) :
    schema = (types.find? (Table.contains ms)).map fun type =>
      part (Value.memberOr ms type .null) "schema" .null := by
  induction types with
  | nil => exact (Except.ok.inj h).symm
  | cons type types ih =>
      have hstep : preferred? (.map ms) (type :: types) =
          if Table.contains ms type then
            some <$> (Value.memberOr ms type .null).get "schema" .null
          else preferred? (.map ms) types := rfl
      rw [hstep] at h
      by_cases hcontains : Table.contains ms type = true
      · rw [if_pos hcontains] at h
        cases hfound : (Value.memberOr ms type .null).get "schema" .null with
        | error b =>
            rw [hfound] at h
            cases h
        | ok found =>
            rw [hfound] at h
            obtain rfl : some found = schema := Except.ok.inj h
            simp [hcontains, part_of_get hfound]
      · rw [if_neg hcontains] at h
        simpa [List.find?_cons, hcontains] using ih h

theorem anyJson_ok {ms : Table String Value} {schema : Value} (h : anyJson ms = .ok schema) :
    schema = match (Table.keys ms).find? (Text.hasSuffix · "json") with
      | some type => part (Value.memberOr ms type .null) "schema" .null
      | none => .null := by
  induction ms with
  | nil => exact (Except.ok.inj h).symm
  | cons e ms ih =>
      obtain ⟨type, definition⟩ := e
      have hstep : anyJson ((type, definition) :: ms) =
          if Text.hasSuffix type "json" then definition.get "schema" .null else anyJson ms := rfl
      rw [hstep] at h
      by_cases hsuffix : Text.hasSuffix type "json" = true
      · rw [if_pos hsuffix] at h
        simp [Table.keys, hsuffix, Value.memberOr, Table.get?, part_of_get h]
      · rw [if_neg hsuffix] at h
        rw [ih h]
        simp only [Table.keys, List.map_cons, List.find?_cons, hsuffix]
        cases hfind : (ms.map Prod.fst).find? (Text.hasSuffix · "json") with
        | none => rfl
        | some later =>
            -- the first entry has another key, so the look-up goes on after it
            have hlater : Text.hasSuffix later "json" = true := by
              simpa using List.find?_some hfind
            have hne : (type == later) = false := by
              rw [beq_eq_false_iff_ne]
              rintro rfl
              exact hsuffix hlater
            simp [Value.memberOr, Table.get?, hne]

/-- A content that is no map declares no schema. -/
theorem isMap_of_preferred? {v : Value} {types : List String} {schema : Value}
    (h : preferred? v types = .ok (some schema)) : ∃ ms, v = .map ms := by
  induction types with
  | nil => cases h
  | cons type types ih =>
      unfold preferred? at h
      cases hheld : v.holdsText type with
      | error b =>
          rw [hheld] at h
          cases h
      | ok held =>
          rw [hheld] at h
          cases held with
          | false => exact ih h
          | true =>
              cases v with
              | map ms => exact ⟨ms, rfl⟩
              | _ => cases h

theorem jsonSchema_ok {response : Table String Value} {schema : Value}
    (h : jsonSchema (.map response) = .ok schema) :
    schema = (jsonType? response).elim .null (schemaFor response) := by
  have hget : (Value.map response).get "content" (.map []) =
      .ok (Value.memberOr response "content" (.map [])) := rfl
  unfold jsonSchema at h
  rw [hget] at h
  unfold jsonType? schemaFor content
  generalize Value.memberOr response "content" (.map []) = v at h ⊢
  simp only [bind, Except.bind] at h
  cases hpreferred : preferred? v mediaTypes with
  | error b =>
      rw [hpreferred] at h
      cases h
  | ok preferred =>
      rw [hpreferred] at h
      cases preferred with
      | some found =>
          obtain ⟨ms, rfl⟩ := isMap_of_preferred? hpreferred
          obtain rfl : found = schema := Except.ok.inj h
          obtain ⟨type, hfind, rfl⟩ := Option.map_eq_some_iff.mp (preferred?_ok hpreferred).symm
          simp [parts, hfind]
      | none =>
          cases v with
          | map ms =>
              have hfind : mediaTypes.find? (Table.contains ms) = none :=
                Option.map_eq_none_iff.mp (preferred?_ok hpreferred).symm
              rw [anyJson_ok h]
              simp only [parts, hfind, Option.none_or]
              cases (Table.keys ms).find? (Text.hasSuffix · "json") <;> rfl
          | _ => cases h

/-- What is declared for the answer of an operation that gives this response. -/
def chosenSchema (response : Table String Value) : Value :=
  if Table.contains response "content" then (jsonType? response).elim .null (schemaFor response)
  else Value.memberOr response "schema" .null

theorem eq_chosenSchema {response : Table String Value} {schema : Value}
    (h : responseSchema response = .ok schema) : schema = chosenSchema response := by
  unfold responseSchema at h
  unfold chosenSchema
  by_cases hcontent : Table.contains response "content" = true
  · rw [if_pos hcontent] at h ⊢
    exact jsonSchema_ok h
  · rw [if_neg hcontent] at h ⊢
    exact (Except.ok.inj h).symm

/-! ## Operations -/

theorem forall₂_of_mapM {α β ε : Type} {f : α → Except ε β} {xs : List α} {ys : List β}
    (h : xs.mapM f = .ok ys) : List.Forall₂ (fun x y => f x = .ok y) xs ys := by
  induction xs generalizing ys with
  | nil =>
      obtain rfl : [] = ys := Except.ok.inj h
      exact .nil
  | cons x xs ih =>
      rw [List.mapM_cons] at h
      cases hx : f x with
      | error e =>
          rw [hx] at h
          cases h
      | ok y =>
          cases hxs : xs.mapM f with
          | error e =>
              rw [hx, hxs] at h
              cases h
          | ok rest =>
              rw [hx, hxs] at h
              obtain rfl : y :: rest = ys := Except.ok.inj h
              exact .cons hx (ih hxs)

/-- The links are those that the response declares, in its order. -/
def LinkedAs (response : Table String Value) (links : Table String Link) : Prop :=
  List.Forall₂ (fun declared link =>
      link.1 = declared.1 ∧ linkOf declared.1 declared.2 = .ok link.2)
    (parts (Value.memberOr response "links" (.map []))) links

theorem linkedAs_of_linksOf {response : Table String Value} {links : Table String Link}
    (h : linksOf response = .ok links) : LinkedAs response links := by
  unfold linksOf at h
  cases hmembers : (Value.memberOr response "links" (.map [])).members with
  | error b =>
      rw [hmembers] at h
      cases h
  | ok ms =>
      rw [hmembers] at h
      unfold LinkedAs
      rw [parts_of_members hmembers]
      refine (forall₂_of_mapM h).imp ?_
      rintro ⟨name, definition⟩ link hlink
      cases hread : linkOf name definition with
      | error b =>
          simp only [hread] at hlink
          cases hlink
      | ok read =>
          simp only [hread] at hlink
          obtain rfl := Except.ok.inj hlink
          exact ⟨rfl, rfl⟩

namespace Endpoint

def responses (e : Endpoint) : Table String Value := parts (part e.definition "responses" (.map []))

/-- Schema and links of the operation are those of this response. -/
structure AnswersWith (e : Endpoint) (o : Operation) (response : Table String Value) : Prop where
  schema : Named e.responseName (chosenSchema response) o.response
  links : LinkedAs response o.links

end Endpoint

variable {swagger : Bool} {d d' : Draft} {e : Endpoint} {o : Operation}

/-- The parts of reading an operation that decide what it answers with. -/
theorem responseOf_of_readOperation
    (h : Gathers (readOperation swagger e.path e.method e.definition e.shared) d o d') :
    ∃ d₁, Gathers (responseOf e.id e.definition) d (o.response, o.links) d₁ := by
  unfold readOperation at h
  obtain ⟨operationId, hid, h⟩ := gathers_access_bind.mp h
  obtain ⟨own, hown, h⟩ := gathers_access_bind.mp h
  obtain ⟨merged, hmerged, h⟩ := gathers_access_bind.mp h
  obtain ⟨description, -, h⟩ := gathers_access_bind.mp h
  obtain ⟨summary, -, h⟩ := gathers_access_bind.mp h
  obtain ⟨found, d₁, hfound, h⟩ := gathers_bind.mp h
  obtain ⟨⟨body, parameters⟩, -, h⟩ := gathers_access_bind.mp h
  obtain ⟨name, _, -, h⟩ := gathers_bind.mp h
  obtain ⟨label, -, h⟩ := gathers_access_bind.mp h
  obtain ⟨rfl, rfl⟩ := gathers_pure.mp h
  have hid' : firstOf operationId (defaultId e.method e.path) = e.id := by
    rw [Endpoint.id, part_of_get hid]
  rw [hid'] at hfound
  exact ⟨d₁, hfound⟩

theorem answersWith_of_success? {found : Table String Value}
    (h : Gathers (readOperation swagger e.path e.method e.definition e.shared) d o d')
    (hfound : success? e.responses = some found) : e.AnswersWith o found := by
  obtain ⟨d₁, h⟩ := responseOf_of_readOperation h
  unfold responseOf at h
  obtain ⟨responses, hresponses, h⟩ := gathers_access_bind.mp h
  obtain ⟨ms, hms, h⟩ := gathers_access_bind.mp h
  obtain rfl : e.responses = ms := by
    rw [Endpoint.responses, part_of_get hresponses, parts_of_members hms]
  rw [hfound] at h
  obtain ⟨schema, hschema, h⟩ := gathers_access_bind.mp h
  obtain ⟨name, _, hname, h⟩ := gathers_bind.mp h
  obtain ⟨links, hlinks, h⟩ := gathers_access_bind.mp h
  obtain ⟨hpair, rfl⟩ := gathers_pure.mp h
  obtain ⟨rfl, rfl⟩ := Prod.mk.inj hpair
  refine ⟨?_, linkedAs_of_linksOf hlinks⟩
  rw [← eq_chosenSchema hschema]
  exact (schemaName?_gathers hname).1

theorem answersNothing_of_success?
    (h : Gathers (readOperation swagger e.path e.method e.definition e.shared) d o d')
    (hfound : success? e.responses = none) : o.response = none ∧ o.links = [] := by
  obtain ⟨d₁, h⟩ := responseOf_of_readOperation h
  unfold responseOf at h
  obtain ⟨responses, hresponses, h⟩ := gathers_access_bind.mp h
  obtain ⟨ms, hms, h⟩ := gathers_access_bind.mp h
  obtain rfl : e.responses = ms := by
    rw [Endpoint.responses, part_of_get hresponses, parts_of_members hms]
  rw [hfound] at h
  obtain ⟨hpair, rfl⟩ := gathers_pure.mp h
  exact Prod.mk.inj hpair

theorem chosenSchema_of_jsonType? {response : Table String Value} {type : String}
    (h : jsonType? response = some type) : chosenSchema response = schemaFor response type := by
  have hcontent : Table.contains response "content" = true := by
    by_contra hnone
    rw [Bool.not_eq_true, Table.contains_eq_false_iff] at hnone
    have hempty : content response = [] := by simp [content, Value.memberOr, hnone, parts]
    have hmem := (mem_and_isJson_of_jsonType? h).1
    rw [hempty] at hmem
    cases hmem
  rw [chosenSchema, if_pos hcontent, h]
  rfl

theorem Named.exists_of_ne_null {own : String} {schema : Value} {name : Option String}
    (h : Named own schema name) (hnull : schema ≠ .null) : ∃ text, name = some text := by
  cases h with
  | absent => exact absurd rfl hnull
  | reference _ _ => exact ⟨_, rfl⟩
  | inline _ _ => exact ⟨_, rfl⟩

/-- Every operation has the schema and the links of the first success that is a map, and
neither of them without such a response. Where that is also the first success that declares a
schema for JSON, and does so for the media type that counts, the name of the response is made
of a schema that it declares for JSON. -/
theorem response_of_every_definition
    (h : Gathers (readOperation swagger e.path e.method e.definition e.shared) d o d') :
    (∀ found, IsFirst e.responses found → e.AnswersWith o found) ∧
    ((∀ found, ¬IsFirst e.responses found) → o.response = none ∧ o.links = []) ∧
    ∀ found, FirstSuccess DeclaresJson e.responses found → IsFirst e.responses found →
      (∀ type, jsonType? found = some type → schemaFor found type ≠ .null) →
      LinkedAs found o.links ∧ ∃ name type, o.response = some name ∧
        type ∈ Table.keys (content found) ∧ isJson type = true ∧
        schemaFor found type ≠ .null ∧ Named e.responseName (schemaFor found type) (some name) := by
  have hfirst : ∀ found, IsFirst e.responses found → e.AnswersWith o found :=
    fun found hfound => answersWith_of_success? h (success?_of_isFirst hfound)
  refine ⟨hfirst, fun hnone => ?_, fun found hdeclares hfound hcounts => ?_⟩
  · apply answersNothing_of_success? h
    rw [Option.eq_none_iff_forall_ne_some]
    exact fun found hsome => hnone found (isFirst_of_success? hsome)
  · obtain ⟨_, _, _, -, -, ⟨declared, hdeclared, hjson, -⟩, -⟩ := hdeclares
    obtain ⟨type, htype⟩ := exists_jsonType? hdeclared hjson
    obtain ⟨hschema, hlinks⟩ := hfirst found hfound
    rw [chosenSchema_of_jsonType? htype] at hschema
    obtain ⟨name, hname⟩ := hschema.exists_of_ne_null (hcounts type htype)
    obtain ⟨hmem, hjson⟩ := mem_and_isJson_of_jsonType? htype
    exact ⟨hlinks, name, type, hname, hmem, hjson, hcounts type htype, hname ▸ hschema⟩

/-! ### Example responses -/

def responseOfPet : Table String Value :=
  [("content", .map [("application/json", .map [("schema",
      .map [("$ref", .text "#/components/schemas/Pet")])])]),
    ("links", .map [("owner", .map [("operationId", .text "getOwner")])])]

/-- An operation that answers with a pet under the last of some codes, and with nothing under
the ones before. -/
def petEndpoint (codes : List String) : Endpoint where
  path := "/pet"
  method := "get"
  definition := .map [("operationId", .text "getPet"),
    ("responses", .map (codes.map (·, .map []) ++ [("200", .map responseOfPet)]))]
  shared := .list []

/-- The name of the response and those of the links, if the definition is read. -/
def answer? (e : Endpoint) : Option (Option String × List String) :=
  ((readOperation false e.path e.method e.definition e.shared).run.run
    ⟨empty default false, []⟩).1.toOption.map fun o => (o.response, o.links.map Prod.fst)

theorem gathers_of_answer? {e : Endpoint} {response : Option String} {links : List String}
    (h : answer? e = some (response, links)) :
    ∃ o d', Gathers (readOperation false e.path e.method e.definition e.shared)
      ⟨empty default false, []⟩ o d' ∧ o.response = response ∧ o.links.map Prod.fst = links := by
  unfold answer? at h
  rcases hrun : (readOperation false e.path e.method e.definition e.shared).run.run
    ⟨empty default false, []⟩ with ⟨_ | o, d'⟩
  · rw [hrun] at h
    cases h
  · rw [hrun] at h
    obtain ⟨hresponse, hlinks⟩ := Prod.mk.inj (Option.some.inj h)
    exact ⟨o, d', hrun, hresponse, hlinks⟩

theorem responseOfPet_declares : DeclaresJson responseOfPet :=
  ⟨"application/json", List.mem_singleton_self _, by decide, Value.noConfusion⟩

theorem answer_of_error : answer? (petEndpoint ["default"]) = some (some "Pet", ["owner"]) := by
  decide +kernel

theorem answer_of_noContent : answer? (petEndpoint ["204"]) = some (none, []) := by
  decide +kernel

theorem responseOfPet_is_first (p : Table String Value → Prop) (hp : p responseOfPet) :
    FirstSuccess p (petEndpoint ["default"]).responses responseOfPet := by
  refine ⟨[("default", .map [])], "200", [], rfl, by decide, hp, fun e he hstart => ?_⟩
  obtain rfl := List.mem_singleton.mp he
  exact absurd hstart (by decide)

/-- An answer for errors is passed over. -/
theorem response_of_petEndpoint :
    ∃ o d', Gathers (readOperation false "/pet" "get" (petEndpoint ["default"]).definition
        (.list [])) ⟨empty default false, []⟩ o d' ∧
      IsFirst (petEndpoint ["default"]).responses responseOfPet ∧
      LinkedAs responseOfPet o.links ∧ o.response = some "Pet" := by
  obtain ⟨o, d', hread, hresponse, -⟩ := gathers_of_answer? answer_of_error
  have hfirst : IsFirst (petEndpoint ["default"]).responses responseOfPet :=
    responseOfPet_is_first _ trivial
  have hdeclares := responseOfPet_is_first _ responseOfPet_declares
  have hcounts : ∀ type, jsonType? responseOfPet = some type →
      schemaFor responseOfPet type ≠ .null := by
    intro type htype
    obtain rfl : "application/json" = type := Option.some.inj htype
    exact Value.noConfusion
  obtain ⟨-, -, hdeclared⟩ := response_of_every_definition hread
  exact ⟨o, d', hread, hfirst, (hdeclared _ hdeclares hfirst hcounts).1, hresponse⟩

/-- An answer without a content hides the pet, although no other response declares JSON. -/
theorem noContent_hides_pet :
    FirstSuccess DeclaresJson (petEndpoint ["204"]).responses responseOfPet ∧
    ∃ o d', Gathers (readOperation false "/pet" "get" (petEndpoint ["204"]).definition
        (.list [])) ⟨empty default false, []⟩ o d' ∧ o.response = none ∧ o.links = [] := by
  obtain ⟨o, d', hread, hresponse, hlinks⟩ := gathers_of_answer? answer_of_noContent
  refine ⟨⟨[("204", .map [])], "200", [], rfl, by decide, responseOfPet_declares, ?_⟩, o, d', hread,
    hresponse, List.map_eq_nil_iff.mp hlinks⟩
  rintro e he - ms hms ⟨type, htype, -⟩
  obtain rfl := List.mem_singleton.mp he
  obtain rfl := Value.map.inj hms
  cases htype

end RestGraph.Catalog
