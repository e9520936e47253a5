import RestGraph.Proofs.Catalog
import RestGraph.Proofs.Label
import RestGraph.Proofs.Table

namespace RestGraph.Catalog

/-!
# Endpoints

A description defines an operation at each path and method that has a definition: an
endpoint. Reading it goes through the endpoints in order. Each adds the schemas that it
declares in place and then one operation, and the tables of the catalog are what these
additions make: of several under one name the last one is kept.
-/

/-! ## Gatherings that succeed -/

/-- From the draft `d` the gathering gives `a`, and leaves the draft `d'`. -/
def Gathers {α : Type} (g : Gathering α) (d : Draft) (a : α) (d' : Draft) : Prop :=
  g.run.run d = (.ok a, d')

section Gathers

variable {α β : Type} {d d' : Draft}

@[simp] theorem gathers_pure {a b : α} :
    Gathers (pure a) d b d' ↔ b = a ∧ d' = d := by
  constructor
  · intro h
    cases h
    exact ⟨rfl, rfl⟩
  · rintro ⟨rfl, rfl⟩
    rfl

@[simp] theorem gathers_bind {g : Gathering α} {f : α → Gathering β} {b : β} :
    Gathers (g >>= f) d b d' ↔ ∃ a e, Gathers g d a e ∧ Gathers (f a) e b d' := by
  have hrun : (g >>= f).run.run d =
      match g.run.run d with
      | (.ok a, e) => (f a).run.run e
      | (.error x, e) => (.error x, e) := by
    show (ExceptT.bindCont f (g.run.run d).1).run (g.run.run d).2 = _
    rcases g.run.run d with ⟨_ | _, _⟩ <;> rfl
  unfold Gathers
  rw [hrun]
  rcases g.run.run d with ⟨x | a, e⟩
  · constructor
    · intro h
      cases h
    · rintro ⟨_, _, hg, _⟩
      cases hg
  · constructor
    · exact fun h => ⟨a, e, rfl, h⟩
    · rintro ⟨_, _, hg, h⟩
      cases hg
      exact h

@[simp] theorem gathers_map {g : Gathering α} {f : α → β} {b : β} :
    Gathers (f <$> g) d b d' ↔ ∃ a, Gathers g d a d' ∧ b = f a := by
  rw [map_eq_pure_bind, gathers_bind]
  constructor
  · rintro ⟨a, e, hg, hb⟩
    obtain ⟨rfl, rfl⟩ := gathers_pure.mp hb
    exact ⟨a, hg, rfl⟩
  · rintro ⟨a, hg, rfl⟩
    exact ⟨a, d', hg, gathers_pure.mpr ⟨rfl, rfl⟩⟩

@[simp] theorem gathers_access {v : Value.Access α} {a : α} :
    Gathers (access v) d a d' ↔ v = .ok a ∧ d' = d := by
  cases v with
  | error b =>
      constructor
      · intro h
        cases h
      · rintro ⟨⟨⟩, _⟩
  | ok x =>
      rw [show access (.ok x : Value.Access α) = pure x from rfl, gathers_pure]
      constructor
      · rintro ⟨rfl, rfl⟩
        exact ⟨rfl, rfl⟩
      · rintro ⟨⟨⟩, rfl⟩
        exact ⟨rfl, rfl⟩

theorem gathers_access_bind {v : Value.Access α} {f : α → Gathering β} {b : β} :
    Gathers (access v >>= f) d b d' ↔ ∃ a, v = .ok a ∧ Gathers (f a) d b d' := by
  rw [gathers_bind]
  constructor
  · rintro ⟨a, e, hv, hf⟩
    obtain ⟨hok, rfl⟩ := gathers_access.mp hv
    exact ⟨a, hok, hf⟩
  · rintro ⟨a, hok, hf⟩
    exact ⟨a, d, gathers_access.mpr ⟨hok, rfl⟩, hf⟩

@[simp] theorem gathers_modify {f : Draft → Draft} {u : PUnit} :
    Gathers (modify f) d u d' ↔ d' = f d := by
  constructor
  · intro h
    cases h
    rfl
  · rintro rfl
    rfl

@[simp] theorem not_gathers_throw {x : Failure} {a : α} : ¬ Gathers (throw x) d a d' := by
  intro h
  cases h

end Gathers

/-! ## What an endpoint declares -/

structure Endpoint where
  path : String
  method : String
  definition : Value
  /-- The parameters that all operations of the path share. -/
  shared : Value

/-- The member `key` of a value that may be no map. -/
def part (v : Value) (key : String) (default : Value) : Value := (v.member? key).getD default

def parts : Value → Table String Value
  | .map ms => ms
  | _ => []

/-- A method without a definition, or with null in its place, is no endpoint. -/
def endpoint? (path : String) (item : Value) (method : String) : Option Endpoint :=
  match part item method .null with
  | .null => none
  | definition => some ⟨path, method, definition, part item "parameters" (.list [])⟩

/-- The endpoints in the order of the paths, those of one path in the order of `methods`. -/
def endpoints (document : Value) : List Endpoint :=
  (parts (part document "paths" (.map []))).flatMap fun p => methods.filterMap (endpoint? p.1 p.2)

/-- Whether the body of a request is one of its parameters. -/
def isSwagger (document : Value) : Bool := (document.holdsText "swagger").toOption.getD false

namespace Endpoint

def id (e : Endpoint) : Value :=
  firstOf (part e.definition "operationId" .null) (defaultId e.method e.path)

/-- The schema of the response that is chosen; null when there is none. -/
def response (e : Endpoint) : Value :=
  match success? (parts (part e.definition "responses" (.map []))) with
  | some found => (responseSchema found).toOption.getD .null
  | none => .null

def parameters (e : Endpoint) : List Parameter :=
  (Parameter.merge e.shared (part e.definition "parameters" (.list []))).toOption.getD []

/-- The schema of the request body; null when there is none. -/
def request (swagger : Bool) (e : Endpoint) : Value :=
  match bodyOf swagger e.definition e.parameters with
  | .ok (body, _) => body.schema
  | .error _ => .null

def responseName (e : Endpoint) : String := e.id.plain ++ "Response"

def requestName (e : Endpoint) : String := e.id.plain ++ "Request"

end Endpoint

/-- The name that a declared schema gets; one that is no reference gets a name of its own. -/
inductive Named (own : String) : Value → Option String → Prop
  | absent : Named own .null none
  | reference {schema target : Value} {name : String}
      (htarget : Schema.target? schema = some target)
      (hname : Schema.referenceName target = .ok name) : Named own schema (some name)
  | inline {schema : Value} (hnull : schema ≠ .null) (htarget : Schema.target? schema = none) :
      Named own schema (some own)

theorem Named.referenceName {own name : String} {schema target : Value}
    (h : Named own schema (some name)) (htarget : Schema.target? schema = some target) :
    Schema.referenceName target = .ok name := by
  cases h with
  | reference hfound hname =>
      obtain rfl := Option.some.inj (hfound.symm.trans htarget)
      exact hname
  | inline _ hnone => cases hnone.symm.trans htarget

/-- The definitions that a declared schema adds. -/
def added (own : String) : Value → List (String × Value)
  | .null => []
  | schema => if Schema.isReference schema then [] else [(own, schema)]

/-- The definitions that an endpoint adds. -/
def Endpoint.inlines (swagger : Bool) (e : Endpoint) : List (String × Value) :=
  added e.responseName e.response ++ added e.requestName (e.request swagger)

/-- The operation that is read from an endpoint. -/
structure ReadAs (swagger : Bool) (e : Endpoint) (o : Operation) : Prop where
  id : o.id.value = e.id
  path : o.path = e.path
  method : o.method = e.method
  response : Named e.responseName e.response o.response
  request : ∃ name, Named e.requestName (e.request swagger) name ∧
    o.request = name.map (· ++ Operation.inputSuffix)

/-! ## Reading one endpoint -/

def Draft.define (d : Draft) (schemas : List (String × Value)) : Draft :=
  { d with catalog := schemas.foldl (fun c e => c.define e.1 e.2) d.catalog }

@[simp] theorem Draft.define_nil (d : Draft) : d.define [] = d := rfl

theorem Draft.define_append (d : Draft) (xs ys : List (String × Value)) :
    d.define (xs ++ ys) = (d.define xs).define ys := by
  simp [Draft.define]

variable {d d' : Draft}

theorem added_of_ne_null {own : String} {schema : Value} (h : schema ≠ .null) :
    added own schema = if Schema.isReference schema then [] else [(own, schema)] := by
  cases schema <;> first | rfl | exact absurd rfl h

theorem schemaName_gathers {schema : Value} {own name : String} (hnull : schema ≠ .null)
    (h : Gathers (schemaName schema own) d name d') :
    Named own schema (some name) ∧ d' = d.define (added own schema) := by
  rw [added_of_ne_null hnull, Schema.isReference]
  unfold schemaName at h
  split at h
  · rename_i target htarget
    obtain ⟨hread, rfl⟩ := gathers_access.mp h
    exact ⟨.reference htarget hread, by simp [htarget]⟩
  · rename_i htarget
    obtain ⟨_, _, hadd, hpure⟩ := gathers_bind.mp h
    obtain ⟨rfl, rfl⟩ := gathers_pure.mp hpure
    obtain rfl := gathers_modify.mp hadd
    exact ⟨.inline hnull htarget, by simp [htarget, Draft.define]⟩

theorem schemaName?_gathers {schema : Value} {own : String} {name : Option String}
    (h : Gathers (schemaName? schema own) d name d') :
    Named own schema name ∧ d' = d.define (added own schema) := by
  unfold schemaName? at h
  split at h
  · obtain ⟨rfl, rfl⟩ := gathers_pure.mp h
    exact ⟨.absent, rfl⟩
  · rename_i hnull
    obtain ⟨found, hfound, rfl⟩ := gathers_map.mp h
    exact schemaName_gathers hnull hfound

/-- A member that is found in a map is the part of the map. -/
theorem part_of_get {v default found : Value} {key : String}
    (h : v.get key default = .ok found) : part v key default = found := by
  cases v with
  | map ms => exact Except.ok.inj h
  | _ => cases h

theorem parts_of_members {v : Value} {ms : List (String × Value)} (h : v.members = .ok ms) :
    parts v = ms := by
  cases v with
  | map _ => exact Except.ok.inj h
  | _ => cases h

theorem value_of_labelOf {v : Value} {l : Label} (h : v.labelOf = .ok l) : l.value = v :=
  Value.label?_eq_some_iff.mp (Value.label?_of_labelOf h)

theorem responseOf_gathers {e : Endpoint} {found : Option String × Table String Link}
    (h : Gathers (responseOf e.id e.definition) d found d') :
    Named e.responseName e.response found.1 ∧
      d' = d.define (added e.responseName e.response) := by
  unfold responseOf at h
  obtain ⟨responses, hresponses, h⟩ := gathers_access_bind.mp h
  obtain ⟨ms, hms, h⟩ := gathers_access_bind.mp h
  have hparts : parts (part e.definition "responses" (.map [])) = ms := by
    rw [part_of_get hresponses, parts_of_members hms]
  unfold Endpoint.response
  rw [hparts]
  cases hsuccess : success? ms with
  | none =>
      rw [hsuccess] at h
      obtain ⟨rfl, rfl⟩ := gathers_pure.mp h
      exact ⟨.absent, rfl⟩
  | some response =>
      rw [hsuccess] at h
      obtain ⟨schema, hschema, h⟩ := gathers_access_bind.mp h
      obtain ⟨name, _, hname, h⟩ := gathers_bind.mp h
      obtain ⟨links, -, h⟩ := gathers_access_bind.mp h
      obtain ⟨rfl, rfl⟩ := gathers_pure.mp h
      simp only [hschema, Except.toOption, Option.getD_some]
      exact schemaName?_gathers hname

theorem readOperation_gathers {swagger : Bool} {e : Endpoint} {o : Operation}
    (h : Gathers (readOperation swagger e.path e.method e.definition e.shared) d o d') :
    ReadAs swagger e o ∧ d' = d.define (e.inlines swagger) := by
  unfold readOperation at h
  obtain ⟨operationId, hid, h⟩ := gathers_access_bind.mp h
  obtain ⟨own, hown, h⟩ := gathers_access_bind.mp h
  obtain ⟨merged, hmerged, h⟩ := gathers_access_bind.mp h
  obtain ⟨description, -, h⟩ := gathers_access_bind.mp h
  obtain ⟨summary, -, h⟩ := gathers_access_bind.mp h
  obtain ⟨found, _, hfound, h⟩ := gathers_bind.mp h
  have hid' : firstOf operationId (defaultId e.method e.path) = e.id := by
    rw [Endpoint.id, part_of_get hid]
  rw [hid'] at hfound h
  obtain ⟨hresponse, rfl⟩ := responseOf_gathers hfound
  obtain ⟨⟨body, parameters⟩, hbody, h⟩ := gathers_access_bind.mp h
  obtain ⟨name, _, hname, h⟩ := gathers_bind.mp h
  obtain ⟨hrequest, rfl⟩ := schemaName?_gathers hname
  obtain ⟨label, hlabel, h⟩ := gathers_access_bind.mp h
  obtain ⟨rfl, rfl⟩ := gathers_pure.mp h
  have hschema : e.request swagger = body.schema := by
    unfold Endpoint.request Endpoint.parameters
    rw [part_of_get hown, hmerged]
    simp only [Except.toOption, Option.getD_some, hbody]
  refine ⟨⟨value_of_labelOf hlabel, rfl, rfl, hresponse, name, ?_, rfl⟩, ?_⟩
  · rwa [hschema]
  · rw [Endpoint.inlines, Draft.define_append, hschema]
    rfl

/-! ## Reading all endpoints -/

/-- The draft after an endpoint is read as an operation. -/
def Draft.step (swagger : Bool) (d : Draft) (p : Endpoint × Operation) : Draft :=
  let d := d.define (p.1.inlines swagger)
  ⟨d.catalog.addOperation p.2, d.log ++ duplicateNote d.catalog p.2⟩

def Draft.read (swagger : Bool) (d : Draft) (ps : List (Endpoint × Operation)) : Draft :=
  ps.foldl (Draft.step swagger) d

/-- The endpoints are read, one after the other, from the first draft to the second. -/
def ReadsAll (swagger : Bool) (d : Draft) (es : List Endpoint) (d' : Draft) : Prop :=
  ∃ ps, ps.map Prod.fst = es ∧ (∀ p ∈ ps, ReadAs swagger p.1 p.2) ∧ d' = d.read swagger ps

theorem ReadsAll.nil (swagger : Bool) (d : Draft) : ReadsAll swagger d [] d :=
  ⟨[], rfl, by simp, rfl⟩

theorem ReadsAll.append {swagger : Bool} {es fs : List Endpoint} {d₁ d₂ d₃ : Draft}
    (h₁ : ReadsAll swagger d₁ es d₂) (h₂ : ReadsAll swagger d₂ fs d₃) :
    ReadsAll swagger d₁ (es ++ fs) d₃ := by
  obtain ⟨ps, rfl, hps, rfl⟩ := h₁
  obtain ⟨qs, rfl, hqs, rfl⟩ := h₂
  refine ⟨ps ++ qs, List.map_append, ?_, List.foldl_append.symm⟩
  exact List.forall_mem_append.mpr ⟨hps, hqs⟩

theorem ReadsAll.single {swagger : Bool} {e : Endpoint} {o : Operation} {d₁ d₂ d₃ : Draft}
    (hread : Gathers (readOperation swagger e.path e.method e.definition e.shared) d₁ o d₂)
    (hkeep : Gathers (keepOperation o) d₂ () d₃) : ReadsAll swagger d₁ [e] d₃ := by
  obtain ⟨ho, rfl⟩ := readOperation_gathers hread
  obtain rfl := gathers_modify.mp hkeep
  exact ⟨[(e, o)], rfl, List.forall_mem_singleton.mpr ho, rfl⟩

theorem pathOperations_gathers {swagger : Bool} {path : String} {item : Value} {ms : List String}
    (h : Gathers (pathOperations swagger path item (part item "parameters" (.list [])) ms)
      d () d') :
    ReadsAll swagger d (ms.filterMap (endpoint? path item)) d' := by
  induction ms generalizing d with
  | nil =>
      obtain ⟨-, rfl⟩ := gathers_pure.mp h
      exact .nil swagger d'
  | cons method ms ih =>
      unfold pathOperations at h
      obtain ⟨definition, hdefinition, h⟩ := gathers_access_bind.mp h
      have hpart := part_of_get hdefinition
      by_cases hnull : definition = .null
      · subst hnull
        have hnone : endpoint? path item method = none := by
          simp only [endpoint?, hpart]
        rw [List.filterMap_cons_none hnone]
        exact ih h
      · have hsome : endpoint? path item method =
            some ⟨path, method, definition, part item "parameters" (.list [])⟩ := by
          simp only [endpoint?, hpart]
        rw [List.filterMap_cons_some hsome]
        split at h
        · exact absurd rfl hnull
        · obtain ⟨o, d₁, hread, h⟩ := gathers_bind.mp h
          obtain ⟨_, d₂, hkeep, h⟩ := gathers_bind.mp h
          have hfirst := ReadsAll.single (e := ⟨path, method, definition, _⟩) hread hkeep
          exact hfirst.append (ih h)

theorem pathItems_gathers {swagger : Bool} {items : List (String × Value)}
    (h : Gathers (pathItems swagger items) d () d') :
    ReadsAll swagger d (items.flatMap fun p => methods.filterMap (endpoint? p.1 p.2)) d' := by
  induction items generalizing d with
  | nil =>
      obtain ⟨-, rfl⟩ := gathers_pure.mp h
      exact .nil swagger d'
  | cons item items ih =>
      obtain ⟨shared, hshared, h⟩ := gathers_access_bind.mp h
      obtain ⟨_, d₁, hitem, h⟩ := gathers_bind.mp h
      rw [← part_of_get hshared] at hitem
      exact (pathOperations_gathers hitem).append (ih h)

theorem defineAll_gathers {schemas : List (Label × Value)}
    (h : Gathers (defineAll schemas) d () d') :
    d' = d.define (schemas.filterMap fun e => e.1.text?.map (·, e.2)) := by
  induction schemas generalizing d with
  | nil => exact (gathers_pure.mp h).2
  | cons e schemas ih =>
      obtain ⟨name, schema⟩ := e
      unfold defineAll at h
      split at h
      · rename_i s hs
        obtain ⟨_, d₁, hadd, h⟩ := gathers_bind.mp h
        obtain rfl := gathers_modify.mp hadd
        rw [ih h, List.filterMap_cons_some (by rw [hs]; rfl)]
        rfl
      · exact (not_gathers_throw h).elim

/-- The schemas that a description gives names to, in its order. -/
def components (document : Value) : List (String × Value) :=
  ((definitions (isSwagger document) document).toOption.getD []).filterMap fun e =>
    e.1.text?.map (·, e.2)

theorem readsAll_of_ofDocument {config : Config} {fetches : Bool} {document : Value} {c : Catalog}
    {log : List Record} (h : ofDocument config fetches document = (.ok c, log)) :
    ReadsAll (isSwagger document) (Draft.define ⟨empty config fetches, []⟩ (components document))
      (endpoints document) ⟨c, log⟩ := by
  have hgather : Gathers (gather document) ⟨empty config fetches, []⟩ () ⟨c, log⟩ := by
    unfold ofDocument at h
    unfold Gathers
    rcases hrun : (gather document).run.run ⟨empty config fetches, []⟩ with ⟨_ | _, d⟩
    · rw [hrun] at h
      cases h
    · rw [hrun] at h
      cases h
      rfl
  obtain ⟨swagger, hswagger, hgather⟩ := gathers_access_bind.mp hgather
  obtain ⟨schemas, hschemas, hgather⟩ := gathers_access_bind.mp hgather
  obtain ⟨_, d₁, hdefine, hgather⟩ := gathers_bind.mp hgather
  obtain ⟨paths, hpaths, hgather⟩ := gathers_access_bind.mp hgather
  obtain ⟨items, hitems, hgather⟩ := gathers_access_bind.mp hgather
  have his : isSwagger document = swagger := by simp [isSwagger, hswagger, Except.toOption]
  have hnamed : components document = schemas.filterMap fun e => e.1.text?.map (·, e.2) := by
    simp [components, his, hschemas, Except.toOption]
  have hall := pathItems_gathers hgather
  rw [defineAll_gathers hdefine] at hall
  rwa [endpoints, part_of_get hpaths, parts_of_members hitems, his, hnamed]

end RestGraph.Catalog
