import RestGraph.Proofs.Endpoint

namespace RestGraph.Catalog

/-!
# What a catalog holds

The tables of a catalog are made by insertions in the order of the endpoints. Schemas of
operations share their table with the components, so a name that is made for a schema in
place may replace a component; operations share theirs by their names, so an operation may
replace an earlier one, and then the log says so.
-/

variable {config : Config} {fetches : Bool} {document : Value} {c : Catalog} {log : List Record}
variable {swagger : Bool} {d : Draft}

/-! ## The tables of a draft -/

/-- Every definition is there under its name for outputs and its name for inputs. -/
def Paired (c : Catalog) : Prop :=
  c.inputs = c.outputs.map fun e => (e.1 ++ Operation.inputSuffix, e.2)

theorem suffixed_beq (k q : String) :
    (k ++ Operation.inputSuffix == q ++ Operation.inputSuffix) = (k == q) := by
  rw [Bool.eq_iff_iff, beq_iff_eq, beq_iff_eq]
  exact String.append_left_inj _

theorem Paired.define (h : Paired c) (name : String) (schema : Value) :
    Paired (c.define name schema) := by
  unfold Paired Catalog.define
  rw [Table.map_insert suffixed_beq, ← h]

theorem Paired.defineEach (h : Paired d.catalog) (schemas : List (String × Value)) :
    Paired (d.define schemas).catalog := by
  induction schemas generalizing d with
  | nil => exact h
  | cons e schemas ih => exact ih (d := d.define [e]) (h.define e.1 e.2)

theorem define_outputs (d : Draft) (schemas : List (String × Value)) :
    (d.define schemas).catalog.outputs = Table.insertAll d.catalog.outputs schemas := by
  induction schemas generalizing d with
  | nil => rfl
  | cons e schemas ih => exact ih (d.define [e])

theorem define_operations (d : Draft) (schemas : List (String × Value)) :
    (d.define schemas).catalog.operations = d.catalog.operations := by
  induction schemas generalizing d with
  | nil => rfl
  | cons e schemas ih => exact ih (d.define [e])

@[simp] theorem step_outputs (d : Draft) (p : Endpoint × Operation) :
    (d.step swagger p).catalog.outputs =
      Table.insertAll d.catalog.outputs (p.1.inlines swagger) :=
  define_outputs d _

@[simp] theorem step_operations (d : Draft) (p : Endpoint × Operation) :
    (d.step swagger p).catalog.operations = Table.insert d.catalog.operations p.2.id p.2 := by
  show Table.insert (d.define _).catalog.operations _ _ = _
  rw [define_operations]

def replacedNote (o : Operation) : Record :=
  ⟨.warning, "Duplicate operation id `" ++ o.id.plain ++ "` in `" ++ o.label ++ "`"⟩

theorem step_log (d : Draft) (p : Endpoint × Operation) :
    (d.step swagger p).log = d.log ++
      if Table.contains d.catalog.operations p.2.id = true then [replacedNote p.2] else [] := by
  show d.log ++ duplicateNote (d.define _).catalog p.2 = _
  rw [duplicateNote, define_operations]
  rfl

theorem read_paired (h : Paired d.catalog) (ps : List (Endpoint × Operation)) :
    Paired (d.read swagger ps).catalog := by
  induction ps generalizing d with
  | nil => exact h
  | cons p ps ih => exact ih (d := d.step swagger p) (h.defineEach (p.1.inlines swagger))

theorem read_outputs (d : Draft) (ps : List (Endpoint × Operation)) :
    (d.read swagger ps).catalog.outputs =
      Table.insertAll d.catalog.outputs (ps.flatMap fun p => p.1.inlines swagger) := by
  induction ps generalizing d with
  | nil => rfl
  | cons p ps ih =>
      rw [List.flatMap_cons, Table.insertAll_append, ← step_outputs]
      exact ih (d.step swagger p)

theorem read_operations (d : Draft) (ps : List (Endpoint × Operation)) :
    (d.read swagger ps).catalog.operations =
      Table.insertAll d.catalog.operations (ps.map fun p => (p.2.id, p.2)) := by
  induction ps generalizing d with
  | nil => rfl
  | cons p ps ih =>
      have hrest := ih (d.step swagger p)
      rw [step_operations] at hrest
      exact hrest

/-- Each endpoint adds an operation or a record. -/
theorem read_length (d : Draft) (ps : List (Endpoint × Operation)) :
    (d.read swagger ps).log.length + (d.read swagger ps).catalog.operations.length =
      d.log.length + d.catalog.operations.length + ps.length := by
  induction ps generalizing d with
  | nil => rfl
  | cons p ps ih =>
      have hstep : (d.step swagger p).log.length + (d.step swagger p).catalog.operations.length =
          d.log.length + d.catalog.operations.length + 1 := by
        rw [step_log, step_operations, List.length_append, Table.length_insert]
        split <;> simp only [List.length_cons, List.length_nil] <;> omega
      have hrest := ih (d.step swagger p)
      rw [hstep] at hrest
      simp only [List.length_cons]
      exact hrest.trans (by omega)

theorem read_log_grows (d : Draft) (ps : List (Endpoint × Operation)) :
    d.log <+: (d.read swagger ps).log := by
  induction ps generalizing d with
  | nil => exact List.prefix_rfl
  | cons p ps ih =>
      have hstep : d.log <+: (d.step swagger p).log := by
        rw [step_log]
        exact List.prefix_append _ _
      exact hstep.trans (ih (d.step swagger p))

theorem mem_read_log (d : Draft) {before after : List (Endpoint × Operation)}
    {p : Endpoint × Operation}
    (h : Table.contains (d.read swagger before).catalog.operations p.2.id = true) :
    replacedNote p.2 ∈ (d.read swagger (before ++ p :: after)).log := by
  have hsplit : d.read swagger (before ++ p :: after) =
      ((d.read swagger before).step swagger p).read swagger after := List.foldl_append
  rw [hsplit]
  apply (read_log_grows _ after).subset
  rw [step_log, if_pos h]
  exact List.mem_append_right _ (List.mem_singleton_self _)

/-! ## The tables of a catalog -/

/-- The component of a name; of several the last one counts. -/
def component? (document : Value) (name : String) : Option Value :=
  Table.get? (Table.ofList (components document)) name

/-- The schema in place that gets the name; of several the last one counts. -/
def inline? (document : Value) (name : String) : Option Value :=
  Table.get? (Table.ofList ((endpoints document).flatMap (·.inlines (isSwagger document)))) name

/-- The endpoints with their operations, and what the tables and the log are made of. -/
structure Collected (document : Value) (c : Catalog) (log : List Record)
    (ps : List (Endpoint × Operation)) : Prop where
  endpoints : ps.map Prod.fst = endpoints document
  read : ∀ p ∈ ps, ReadAs (isSwagger document) p.1 p.2
  outputs : c.outputs = Table.insertAll (Table.ofList (components document))
    (ps.flatMap fun p => p.1.inlines (isSwagger document))
  paired : Paired c
  operations : c.operations = Table.ofList (ps.map fun p => (p.2.id, p.2))
  length : log.length + c.operations.length = ps.length
  noted : ∀ before p after, ps = before ++ p :: after →
    (∃ q ∈ before, q.1.id.key = p.1.id.key) → replacedNote p.2 ∈ log

theorem ReadAs.key {e : Endpoint} {o : Operation} (h : ReadAs swagger e o) :
    o.id.key = e.id.key := congrArg Value.key h.id

theorem collected_of_ofDocument (h : ofDocument config fetches document = (.ok c, log)) :
    ∃ ps, Collected document c log ps := by
  obtain ⟨ps, hps, hread, hdraft⟩ := readsAll_of_ofDocument h
  have hcatalog := congrArg Draft.catalog hdraft
  have hlog := congrArg Draft.log hdraft
  simp only at hcatalog hlog
  subst hcatalog hlog
  refine ⟨ps, hps, hread, ?_, ?_, ?_, ?_, ?_⟩
  · rw [read_outputs, define_outputs]
    rfl
  · have hempty : Paired (empty config fetches) := rfl
    exact read_paired (hempty.defineEach (d := ⟨empty config fetches, []⟩) _) ps
  · rw [read_operations, define_operations]
    rfl
  · rw [read_length, define_operations]
    exact Nat.zero_add _
  · rintro before p after rfl ⟨q, hq, hkey⟩
    apply mem_read_log
    rw [read_operations]
    apply Table.contains_insertAll_of_mem
    refine ⟨_, List.mem_map_of_mem hq, (Label.beq_iff _ _).mpr ?_⟩
    rw [(hread q (by simp [hq])).key, (hread p (by simp)).key]
    exact hkey

namespace Collected

variable {ps : List (Endpoint × Operation)}

/-- An operation of the catalog is read from the last endpoint of its name. -/
theorem last (h : Collected document c log ps) {l : Label} {o : Operation}
    (ho : Table.get? c.operations l = some o) :
    ∃ before e after, ps = before ++ (e, o) :: after ∧ e.id.key = l.key ∧
      ∀ q ∈ after, q.1.id.key ≠ l.key := by
  rw [h.operations] at ho
  obtain ⟨bs, k, as, hsplit, hk, has⟩ := Table.exists_last_of_get?_ofList ho
  obtain ⟨before, rest, rfl, rfl, hrest⟩ := List.map_eq_append_iff.mp hsplit
  obtain ⟨⟨e, o'⟩, after, rfl, hp, rfl⟩ := List.map_eq_cons_iff.mp hrest
  obtain ⟨rfl, rfl⟩ : o'.id = k ∧ o' = o := Prod.mk.inj hp
  have hread := h.read
  refine ⟨before, e, after, rfl, ?_, ?_⟩
  · rw [← (hread (e, o') (by simp)).key]
    exact (Label.beq_iff _ _).mp hk
  · intro q hq hkey
    have hnone := Table.get?_eq_none_iff_forall.mp has _ (List.mem_map_of_mem hq)
    rw [← (hread q (by simp [hq])).key] at hkey
    rw [(Label.beq_iff _ _).mpr hkey] at hnone
    cases hnone

theorem apart (h : Collected document c log ps) : Table.Apart c.operations :=
  h.operations ▸ Table.apart_ofList _

/-- Operations whose ids are texts have different ones. -/
theorem ids_nodup (h : Collected document c log ps)
    (hids : ∀ e ∈ Catalog.endpoints document, ∃ text, e.id = .text text) :
    ((c.operations.map Prod.snd).map (·.id.plain)).Nodup := by
  have hkeys : ∀ p ∈ c.operations, p.1.key = .text p.2.id.plain := by
    intro p hp
    obtain ⟨before, e, after, hsplit, hkey, -⟩ := h.last (h.apart.get?_of_mem hp)
    have hmem : (e, p.2) ∈ ps := by simp [hsplit]
    obtain ⟨text, htext⟩ := hids e (h.endpoints ▸ List.mem_map_of_mem hmem)
    have hid := (h.read _ hmem).id
    rw [← hkey, Label.plain, hid, htext]
    rfl
  rw [List.map_map]
  apply List.pairwise_map.mpr
  refine (List.pairwise_map.mp h.apart).imp_of_mem ?_
  intro p q hp hq hne heq
  have hsame : p.1.key = q.1.key := by
    rw [hkeys p hp, hkeys q hq]
    exact congrArg Key.text heq
  rw [(Label.beq_iff _ _).mpr hsame] at hne
  cases hne

theorem inlines (h : Collected document c log ps) :
    ps.flatMap (fun p => p.1.inlines (isSwagger document)) =
      (Catalog.endpoints document).flatMap (·.inlines (isSwagger document)) := by
  rw [← h.endpoints, List.flatMap_map]

theorem get?_outputs (h : Collected document c log ps) (name : String) :
    Table.get? c.outputs name = (inline? document name).or (component? document name) := by
  rw [h.outputs, Table.get?_insertAll_reverse, h.inlines, inline?,
    Table.get?_ofList (List.flatMap _ _)]
  rfl

theorem get?_inputs (h : Collected document c log ps) (name : String) :
    Table.get? c.inputs (name ++ Operation.inputSuffix) = Table.get? c.outputs name := by
  rw [h.paired]
  exact Table.get?_map_keys suffixed_beq c.outputs name

/-- A definition that no later endpoint adds again is kept. -/
theorem get?_inline (h : Collected document c log ps) {before after : List (Endpoint × Operation)}
    {e : Endpoint} {o : Operation} (hps : ps = before ++ (e, o) :: after)
    {earlier later : List (String × Value)} {name : String} {schema : Value}
    (he : e.inlines (isSwagger document) = earlier ++ (name, schema) :: later)
    (hlater : Table.get? later name = none)
    (hafter : ∀ q ∈ after, Table.get? (q.1.inlines (isSwagger document)) name = none) :
    Table.get? c.outputs name = some schema := by
  have hsplit : ps.flatMap (fun p => p.1.inlines (isSwagger document)) =
      (before.flatMap (fun p => p.1.inlines (isSwagger document)) ++ earlier) ++
        (name, schema) :: (later ++ after.flatMap fun p => p.1.inlines (isSwagger document)) := by
    simp [hps, he]
  rw [h.outputs, hsplit]
  apply Table.get?_insertAll_last (beq_self_eq_true name)
  rw [Table.get?_append, hlater, Option.none_or, Table.get?_eq_none_iff_forall]
  intro d hd
  obtain ⟨q, hq, hdq⟩ := List.mem_flatMap.mp hd
  exact Table.get?_eq_none_iff_forall.mp (hafter q hq) d hdq

end Collected

theorem get?_added {own name : String} (h : own ≠ name) (schema : Value) :
    Table.get? (added own schema) name = none := by
  cases schema with
  | null => rfl
  | map ms =>
      rw [added_of_ne_null Value.noConfusion]
      split <;> simp [Table.get?, h]
  | _ => simp [added, Schema.isReference, Schema.target?, Table.get?, h]

theorem responseName_ne_requestName (e f : Endpoint) : e.responseName ≠ f.requestName := by
  intro h
  have hlast := congrArg (fun s => s.toList.getLast?) h
  simp [Endpoint.responseName, Endpoint.requestName, String.toList_append] at hlast

/-- An endpoint with another id adds nothing under the names of this one. -/
theorem get?_inlines_of_ne {e f : Endpoint} (h : f.id.plain ≠ e.id.plain) :
    Table.get? (f.inlines swagger) e.responseName = none ∧
      Table.get? (f.inlines swagger) e.requestName = none := by
  have hresponse : f.responseName ≠ e.responseName :=
    fun heq => h ((String.append_left_inj _).mp heq)
  have hrequest : f.requestName ≠ e.requestName :=
    fun heq => h ((String.append_left_inj _).mp heq)
  unfold Endpoint.inlines
  rw [Table.get?_append, Table.get?_append, get?_added hresponse, get?_added hrequest,
    get?_added (responseName_ne_requestName e f).symm,
    get?_added (responseName_ne_requestName f e)]
  exact ⟨rfl, rfl⟩

/-- The names that are made for schemas in place are not empty. -/
theorem inline?_empty (document : Value) : inline? document "" = none := by
  have hresponse : ∀ e : Endpoint, e.responseName ≠ "" := by
    intro e h
    have hlist := congrArg String.toList h
    simp [Endpoint.responseName, String.toList_append] at hlist
  have hrequest : ∀ e : Endpoint, e.requestName ≠ "" := by
    intro e h
    have hlist := congrArg String.toList h
    simp [Endpoint.requestName, String.toList_append] at hlist
  rw [inline?, ← Table.contains_eq_false_iff, Bool.eq_false_iff]
  intro hcontains
  obtain ⟨schema, hfound⟩ := Table.contains_iff.mp hcontains
  obtain ⟨before, name, after, hsplit, hname, -⟩ := Table.exists_last_of_get?_ofList hfound
  have hmem : (name, schema) ∈ before ++ (name, schema) :: after := by simp
  rw [← hsplit] at hmem
  obtain ⟨e, -, he⟩ := List.mem_flatMap.mp hmem
  have hnone : Table.get? (e.inlines (isSwagger document)) "" = none := by
    unfold Endpoint.inlines
    rw [Table.get?_append, get?_added (hresponse e), get?_added (hrequest e)]
    rfl
  rw [Table.get?_eq_none_iff_forall.mp hnone _ he] at hname
  cases hname

/-- What a declared schema stands for: itself, or the component that it refers to. -/
def declared? (document schema : Value) : Option Value :=
  match Schema.target? schema with
  | some target => (Schema.referenceName target).toOption.bind (component? document)
  | none => some schema

/-- The name that a schema of an endpoint gets is not taken: if the schema is in place, no other
id reads like that of the endpoint, and if it is a reference, no schema in place has its name. -/
def Untaken (document : Value) (e : Endpoint) (schema : Value) (name : String) : Prop :=
  if Schema.isReference schema = true then inline? document name = none
  else ∀ f ∈ endpoints document, f.id.plain = e.id.plain → f.id.key = e.id.key

theorem Untaken.of_reference {e : Endpoint} {schema : Value} {name : String}
    (h : Untaken document e schema name) (href : Schema.isReference schema = true) :
    inline? document name = none := by
  rwa [Untaken, if_pos href] at h

theorem Untaken.of_added {e : Endpoint} {schema : Value} {own name : String}
    (h : Untaken document e schema name) (hadded : added own schema = [(own, schema)]) :
    ∀ f ∈ endpoints document, f.id.plain = e.id.plain → f.id.key = e.id.key := by
  have href : ¬ Schema.isReference schema = true := by
    intro href
    have hnull : schema ≠ .null := by
      rintro rfl
      cases href
    rw [added_of_ne_null hnull, if_pos href] at hadded
    cases hadded
  rwa [Untaken, if_neg href] at h

instance (document : Value) (e : Endpoint) (schema : Value) (name : String) :
    Decidable (Untaken document e schema name) :=
  haveI : Decidable (inline? document name = none) :=
    decidable_of_iff _ Option.isNone_iff_eq_none
  inferInstanceAs (Decidable (if Schema.isReference schema = true then inline? document name = none
    else ∀ f ∈ endpoints document, f.id.plain = e.id.plain → f.id.key = e.id.key))

theorem Collected.get?_declared {ps : List (Endpoint × Operation)}
    (h : Collected document c log ps) {own name : String} {schema : Value}
    (hnamed : Named own schema (some name))
    (hown : added own schema = [(own, schema)] → Table.get? c.outputs own = some schema)
    (hcomponent : Schema.isReference schema = true → inline? document name = none) :
    Table.get? c.outputs name = declared? document schema := by
  unfold declared?
  cases hnamed with
  | reference htarget hname =>
      rw [h.get?_outputs, hcomponent (by rw [Schema.isReference, htarget]; rfl), htarget]
      simp [hname, Except.toOption]
  | inline hnull htarget =>
      rw [htarget]
      apply hown
      rw [added_of_ne_null hnull, Schema.isReference, htarget]
      rfl

/-- The schemas of operations: what is found under the names that an operation has for its
response and its request is what the response and the request declare, unless the name is
taken. A name that is made for a schema in place holds that schema for everybody, also where
it is the name of a component. -/
theorem schemas_of_every_description (h : ofDocument config fetches document = (.ok c, log)) :
    (∀ name, Table.get? c.outputs name = (inline? document name).or (component? document name)) ∧
    (∀ name, Table.get? c.inputs (name ++ Operation.inputSuffix) = Table.get? c.outputs name) ∧
    ∀ p ∈ c.operations, ∃ e ∈ endpoints document, ReadAs (isSwagger document) e p.2 ∧
      (∀ name, p.2.response = some name → Untaken document e e.response name →
        Table.get? c.outputs name = declared? document e.response) ∧
      (∀ name, p.2.request = some (name ++ Operation.inputSuffix) →
        Untaken document e (e.request (isSwagger document)) name →
        Table.get? c.inputs (name ++ Operation.inputSuffix) =
          declared? document (e.request (isSwagger document))) := by
  obtain ⟨ps, hps⟩ := collected_of_ofDocument h
  refine ⟨hps.get?_outputs, hps.get?_inputs, ?_⟩
  rintro ⟨l, o⟩ hp
  have ho : Table.get? c.operations l = some o := hps.apart.get?_of_mem hp
  obtain ⟨before, e, after, hsplit, hkey, hlast⟩ := hps.last ho
  have hmem : (e, o) ∈ ps := by simp [hsplit]
  have hread := hps.read _ hmem
  have hendpoint : ∀ q ∈ ps, q.1 ∈ endpoints document :=
    fun q hq => hps.endpoints ▸ List.mem_map_of_mem hq
  -- no later endpoint has an id that reads the same, so none adds under the same names
  have hafter : (∀ f ∈ endpoints document, f.id.plain = e.id.plain → f.id.key = e.id.key) →
      ∀ q ∈ after, q.1.id.plain ≠ e.id.plain := by
    intro hids q hq hplain
    have hq' : q ∈ ps := by simp [hsplit, hq]
    exact hlast q hq ((hids q.1 (hendpoint q hq') hplain).trans hkey)
  refine ⟨e, hendpoint _ hmem, hread, ?_, ?_⟩
  · intro name hname huntaken
    have hnamed := hread.response
    rw [hname] at hnamed
    apply hps.get?_declared hnamed _ (huntaken.of_reference)
    intro hadded
    have hinlines : e.inlines (isSwagger document) = [] ++ (e.responseName, e.response) ::
        added e.requestName (e.request (isSwagger document)) := by
      rw [Endpoint.inlines, hadded]
      rfl
    apply hps.get?_inline hsplit hinlines
    · exact get?_added (responseName_ne_requestName e e).symm _
    · intro q hq
      exact (get?_inlines_of_ne (hafter (huntaken.of_added hadded) q hq)).1
  · intro name hname huntaken
    obtain ⟨found, hnamed, hfound⟩ := hread.request
    obtain ⟨own, rfl, hown⟩ := Option.map_eq_some_iff.mp (hfound.symm.trans hname)
    obtain rfl := (String.append_left_inj _).mp hown
    rw [hps.get?_inputs]
    apply hps.get?_declared hnamed _ (huntaken.of_reference)
    intro hadded
    have hinlines : e.inlines (isSwagger document) = added e.responseName e.response ++
        (e.requestName, e.request (isSwagger document)) :: [] := by
      rw [Endpoint.inlines, hadded]
    apply hps.get?_inline hsplit hinlines rfl
    intro q hq
    exact (get?_inlines_of_ne (hafter (huntaken.of_added hadded) q hq)).2

/-- An operation that answers with JSON of the schema. -/
def answering (id : List (String × Value)) (schema : Value) : Value :=
  .map (id ++ [("responses", .map [("200", .map [("content",
    .map [("application/json", .map [("schema", schema)])])])])])

def ofType (type : String) : Value := .map [("type", .text type)]

def getPet : Value := answering [("operationId", .text "getPet")] (ofType "string")

def listPets (component : String) : Value :=
  answering [("operationId", .text "listPets")]
    (.map [("$ref", .text ("#/components/schemas/" ++ component))])

/-- A component with one operation that answers with a text, and one that refers to the
component. -/
def petsDocument (component : String) : Value :=
  .map [
    ("openapi", .text "3.0.0"),
    ("components", .map [("schemas", .map [(component, ofType "object")])]),
    ("paths", .map [
      ("/pet", .map [("get", getPet)]),
      ("/pets", .map [("get", listPets component)])])]

def typeOf? (schema : Option Value) : Option String :=
  (schema.bind (·.member? "type")).bind Value.text?

/-- The type of the schema that is found for the response of an operation. -/
def foundType? (c : Catalog) (id : String) : Option String :=
  (Table.get? c.operations (.ofText id)).bind fun o =>
    o.response.bind fun name => typeOf? (Table.get? c.outputs name)

def declaredTypes (document : Value) : List (Option String) :=
  (endpoints document).map fun e => typeOf? (declared? document e.response)

theorem accepted {result : Except Failure Catalog × List Record} {α : Type} {f : Catalog → α}
    {a : α} (h : result.1.toOption.map f = some a) : ∃ c log, result = (.ok c, log) ∧ f c = a := by
  obtain ⟨outcome, log⟩ := result
  cases outcome with
  | error _ => cases h
  | ok c => exact ⟨c, log, rfl, Option.some.inj h⟩

/-- A component called `Pet` is found by the operation that refers to it, and under both of
its names; the text is found under the name that is made for it. -/
theorem schemas_of_pets :
    ∃ c log, ofDocument default true (petsDocument "Pet") = (.ok c, log) ∧
      (∀ p ∈ c.operations, ∃ e ∈ endpoints (petsDocument "Pet"), e.path = p.2.path ∧
        ∀ name, p.2.response = some name →
          Table.get? c.outputs name = declared? (petsDocument "Pet") e.response) ∧
      typeOf? (Table.get? c.inputs "PetInput") = some "object" := by
  have hread : (ofDocument default true (petsDocument "Pet")).1.toOption.map (fun _ => ()) =
      some () := by decide +kernel
  obtain ⟨c, log, hread, -⟩ := accepted hread
  obtain ⟨houtputs, hinputs, hoperations⟩ := schemas_of_every_description hread
  refine ⟨c, log, hread, ?_, ?_⟩
  · intro p hp
    obtain ⟨e, he, hreadAs, hresponse, -⟩ := hoperations p hp
    refine ⟨e, he, hreadAs.path.symm, fun name hname => hresponse name hname ?_⟩
    have hnamed := hname ▸ hreadAs.response
    have htwo : endpoints (petsDocument "Pet") = [⟨"/pet", "get", getPet, .list []⟩,
      ⟨"/pets", "get", listPets "Pet", .list []⟩] := rfl
    rw [htwo, List.mem_pair] at he
    rcases he with rfl | rfl
    · have hinline : Untaken (petsDocument "Pet") ⟨"/pet", "get", getPet, .list []⟩
        (ofType "string") name := by
        rw [Untaken, if_neg (by decide)]
        decide +kernel
      exact hinline
    · have hname : Schema.referenceName (.text "#/components/schemas/Pet") = .ok name :=
        hnamed.referenceName rfl
      obtain rfl : "Pet" = name := Except.ok.inj hname
      decide +kernel
  · have hpet := hinputs "Pet"
    rw [houtputs] at hpet
    rw [show "PetInput" = "Pet" ++ Operation.inputSuffix from rfl, hpet]
    decide +kernel

theorem types_of_getPetResponse :
    (ofDocument default true (petsDocument "getPetResponse")).1.toOption.map
      (fun c => (foundType? c "getPet", foundType? c "listPets")) =
    some (some "string", some "string") := by
  decide +kernel

/-- A component that is called like the schema of an operation is lost: whoever refers to it
finds the text of the other operation. -/
theorem component_is_replaced :
    ∃ c log, ofDocument default true (petsDocument "getPetResponse") = (.ok c, log) ∧
      declaredTypes (petsDocument "getPetResponse") = [some "string", some "object"] ∧
      (foundType? c "getPet", foundType? c "listPets") = (some "string", some "string") := by
  obtain ⟨c, log, hread, htypes⟩ := accepted types_of_getPetResponse
  exact ⟨c, log, hread, by decide +kernel, htypes⟩

/-! ## Operations -/

/-- What the log says of an endpoint whose id an earlier one has. -/
def Endpoint.duplicateNote (e : Endpoint) : Record :=
  ⟨.warning, "Duplicate operation id `" ++ e.id.plain ++ "` in `" ++
    (e.method.toUpper ++ " " ++ e.path) ++ "`"⟩

theorem ReadAs.replacedNote_eq {e : Endpoint} {o : Operation} (h : ReadAs swagger e o) :
    replacedNote o = e.duplicateNote := by
  rw [replacedNote, Endpoint.duplicateNote, Operation.label, h.method, h.path, Label.plain, h.id]

/-- There is one operation for each id, that of the last endpoint with the id, and for each
operation that was replaced by it the log has a warning. Where no two endpoints have one id,
the operations are those of the endpoints, one after the other, and the log is empty. -/
theorem operations_of_every_description
    (h : ofDocument config fetches document = (.ok c, log)) :
    Table.Apart c.operations ∧
    (∀ e ∈ endpoints document, ∃ p ∈ c.operations, p.1.key = e.id.key) ∧
    (∀ p ∈ c.operations, ∃ before e after, endpoints document = before ++ e :: after ∧
      ReadAs (isSwagger document) e p.2 ∧ p.1.key = e.id.key ∧
      ∀ f ∈ after, f.id.key ≠ e.id.key) ∧
    log.length + c.operations.length = (endpoints document).length ∧
    (∀ before e after, endpoints document = before ++ e :: after →
      (∃ f ∈ before, f.id.key = e.id.key) → e.duplicateNote ∈ log) ∧
    (((endpoints document).map (·.id.key)).Nodup →
      List.Forall₂ (fun e p => ReadAs (isSwagger document) e p.2) (endpoints document)
        c.operations ∧ log = []) := by
  obtain ⟨ps, hps⟩ := collected_of_ofDocument h
  have hlength : log.length + c.operations.length = (endpoints document).length := by
    rw [hps.length, ← hps.endpoints, List.length_map]
  refine ⟨hps.apart, ?_, ?_, hlength, ?_, ?_⟩
  · intro e he
    rw [← hps.endpoints] at he
    obtain ⟨q, hq, rfl⟩ := List.mem_map.mp he
    have hcontains : Table.contains c.operations q.2.id = true := by
      rw [hps.operations]
      exact Table.contains_insertAll_of_mem [] ⟨_, List.mem_map_of_mem hq, BEq.rfl⟩
    obtain ⟨p, hp, hkey⟩ := Table.contains_iff_exists_mem.mp hcontains
    exact ⟨p, hp, ((Label.beq_iff _ _).mp hkey).trans (hps.read q hq).key⟩
  · intro p hp
    obtain ⟨before, e, after, hsplit, hkey, hlast⟩ := hps.last (hps.apart.get?_of_mem hp)
    refine ⟨before.map Prod.fst, e, after.map Prod.fst, ?_, hps.read (e, p.2) (by simp [hsplit]),
      hkey.symm, ?_⟩
    · rw [← hps.endpoints, hsplit, List.map_append, List.map_cons]
    · intro f hf
      obtain ⟨q, hq, rfl⟩ := List.mem_map.mp hf
      rw [hkey]
      exact hlast q hq
  · intro before e after hsplit hbefore
    rw [← hps.endpoints] at hsplit
    obtain ⟨bs, rest, hpairs, rfl, hrest⟩ := List.map_eq_append_iff.mp hsplit
    obtain ⟨q, as, rfl, rfl, rfl⟩ := List.map_eq_cons_iff.mp hrest
    rw [← (hps.read q (by simp [hpairs])).replacedNote_eq]
    apply hps.noted bs q as hpairs
    obtain ⟨f, hf, hkey⟩ := hbefore
    obtain ⟨r, hr, rfl⟩ := List.mem_map.mp hf
    exact ⟨r, hr, hkey⟩
  · intro hids
    have hentries : Table.Apart (ps.map fun p => (p.2.id, p.2)) := by
      rw [← hps.endpoints, List.map_map] at hids
      have hkeys : (ps.map fun p => p.2.id.key).Nodup := by
        rwa [List.map_congr_left fun p hp => (hps.read p hp).key]
      have hpairs := List.pairwise_map.mp hkeys
      apply List.pairwise_map.mpr
      apply List.pairwise_map.mpr
      apply hpairs.imp
      intro p q hne
      exact Bool.eq_false_iff.mpr fun hbeq => hne ((Label.beq_iff _ _).mp hbeq)
    have hall : c.operations = ps.map fun p => (p.2.id, p.2) :=
      hps.operations.trans hentries.ofList_eq
    refine ⟨?_, ?_⟩
    · rw [hall, ← hps.endpoints, List.forall₂_map_left_iff, List.forall₂_map_right_iff,
        List.forall₂_same]
      exact hps.read
    · rw [hall, ← hps.endpoints, List.length_map, List.length_map] at hlength
      exact List.eq_nil_of_length_eq_zero (by omega)

/-- Two operations without ids of their own. -/
def unnamedDocument (first second : String) : Value :=
  .map [
    ("openapi", .text "3.0.0"),
    ("paths", .map [
      (first, .map [("get", answering [] (ofType "string"))]),
      (second, .map [("get", answering [] (ofType "string"))])])]

def places (operations : Table Label Operation) : List (String × String) :=
  operations.map fun p => (p.2.method, p.2.path)

theorem places_of_endpoints {es : List Endpoint} {operations : Table Label Operation}
    (h : List.Forall₂ (fun e (p : Label × Operation) => ReadAs swagger e p.2) es operations) :
    places operations = es.map fun e => (e.method, e.path) := by
  unfold places
  induction h with
  | nil => rfl
  | cons hread _ ih => rw [List.map_cons, List.map_cons, ih, hread.method, hread.path]

/-- Paths that differ by more than their separators give an operation each. -/
theorem operations_of_pets :
    ∃ c log, ofDocument default true (unnamedDocument "/pet" "/pets") = (.ok c, log) ∧
      places c.operations = [("get", "/pet"), ("get", "/pets")] ∧ log = [] := by
  have hread : (ofDocument default true (unnamedDocument "/pet" "/pets")).1.toOption.map
      (fun _ => ()) = some () := by decide +kernel
  obtain ⟨c, log, hread, -⟩ := accepted hread
  obtain ⟨-, -, -, -, -, hapart⟩ := operations_of_every_description hread
  obtain ⟨hall, hlog⟩ := hapart (by decide +kernel)
  refine ⟨c, log, hread, ?_, hlog⟩
  rw [places_of_endpoints hall]
  decide +kernel

theorem places_of_petId :
    (ofDocument default true (unnamedDocument "/pet-id" "/pet/id")).1.toOption.map
      (fun c => places c.operations) = some [("get", "/pet/id")] := by
  decide +kernel

/-- Paths that differ by their separators only get one id, and one of them has no operation,
although no id is given twice. -/
theorem separated_operation_is_lost :
    ∃ c log, ofDocument default true (unnamedDocument "/pet-id" "/pet/id") = (.ok c, log) ∧
      (endpoints (unnamedDocument "/pet-id" "/pet/id")).map (fun e =>
        (e.method, e.path, (part e.definition "operationId" .null).truthy)) =
          [("get", "/pet-id", false), ("get", "/pet/id", false)] ∧
      places c.operations = [("get", "/pet/id")] := by
  obtain ⟨c, log, hread, hplaces⟩ := accepted places_of_petId
  exact ⟨c, log, hread, by decide +kernel, hplaces⟩

end RestGraph.Catalog
