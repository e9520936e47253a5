import RestGraph.Proofs.Api
import RestGraph.Proofs.Collection
import RestGraph.Proofs.Evolution

namespace RestGraph.Graph

open Build

/-!
# Operations and their root fields

The operations take turns: where a type is kept for the response of an operation when its turn
comes, a field of the root type for it is added, under the name that is registered for its id.
Ids are texts and differ, so the names differ, and no field replaces another one.
-/

/-! ## Nothing is kept for no response

An operation without a response is looked up under the empty text. Only a definition of that
name could be kept there: no object and no enumeration can be named after it.
-/

/-- Names are in order, and no output has the empty text for its key. -/
structure Nameless (s : State) : Prop where
  coherent : s.names.Coherent
  empty : Table.get? s.outputs (.ofText "") = none

def KeepsNameless (s s' : State) : Prop := Nameless s → Nameless s'

instance : NameFrame KeepsNameless where
  refl _ := id
  trans _ _ _ h h' := h' ∘ h
  log _ _ h := ⟨h.coherent, h.empty⟩
  store _ _ _ _ _ hstore h := ⟨h.coherent.store hstore, h.empty⟩

variable {c : Catalog} {given : Node → Prop} {s s' : State}

theorem not_named_empty (h : s.names.Coherent) (name : String) : ¬ s.Named "" name := by
  intro hname
  obtain ⟨base, hbase, -⟩ := h.suits name "" hname
  cases hbase.symm.trans (show Name.sanitize? "" = none from rfl)

theorem ne_empty_of_named (h : s.names.Coherent) {text name : String} (hname : s.Named text name) :
    name ≠ "" := by
  rintro rfl
  have hlegal := (h.suits "" text hname).legal
  cases hlegal

theorem nameless_setCached {mode : Mode} {label : Label} {type : Option TypeRef}
    (hother : mode = .output → (label == .ofText "") = false) :
    Table.get? (s.setCached mode label type).outputs (.ofText "") =
      Table.get? s.outputs (.ofText "") := by
  refine (get?_cache_setCached s mode .output label (.ofText "") type).trans (if_neg ?_)
  rintro ⟨hmode, hlabel⟩
  rw [hother hmode] at hlabel
  cases hlabel

theorem Change.keepsNameless (hempty : Table.get? c.outputs "" = none)
    (h : Change c given s s') : KeepsNameless s s' := by
  intro hs
  cases h with
  | log log => exact NameFrame.log (R := KeepsNameless) s log hs
  | store stored log => exact NameFrame.store (R := KeepsNameless) s _ _ _ log stored hs
  | @object name label text type met shape labelled free typeName named unopened =>
      refine ⟨by simpa using hs.coherent, ?_⟩
      refine (nameless_setCached ?_).trans hs.empty
      intro hmode
      rw [Bool.eq_false_iff]
      intro hlabel
      obtain rfl := Label.beq_ofText_iff.mp hlabel
      rw [← Value.label?_eq_some_iff.mp labelled, hmode] at typeName
      cases typeName
      exact not_named_empty hs.coherent _ named
  | @enumeration mode name ms e met shape named free =>
      refine ⟨by simpa using hs.coherent, ?_⟩
      refine (nameless_setCached ?_).trans hs.empty
      intro _
      rw [Bool.eq_false_iff]
      intro hlabel
      have hname := Label.ofText_injective (Label.beq_ofText_iff.mp hlabel)
      exact ne_empty_of_named hs.coherent named hname
  | @definition mode key schema type defined read =>
      refine ⟨by simpa using hs.coherent, ?_⟩
      refine (nameless_setCached ?_).trans hs.empty
      rintro rfl
      rw [Bool.eq_false_iff]
      intro hlabel
      obtain rfl := Label.ofText_injective (Label.beq_ofText_iff.mp hlabel)
      cases hempty.symm.trans defined

theorem Evolves.keepsNameless (hempty : Table.get? c.outputs "" = none)
    (h : Evolves c given s s') : KeepsNameless s s' := by
  induction h with
  | refl => exact id
  | tail _ step ih => exact step.keepsNameless hempty ∘ ih

theorem keepsNameless_response (hempty : Table.get? c.outputs "" = none) (name : String)
    (links : Table String Link) :
    Keeps KeepsNameless ((Step.response name links).build c) := by
  intro s
  have hresponse : Ensures (Evolves c fun _ => False) s ((Step.response name links).build c)
      fun _ _ => True := by
    refine .bind (translate_reads (fun ms hms => .definition (get?_schemas hms)) links 0) ?_
    intro type s₁ _ hread
    refine .bind (setCached_definition hread) ?_
    exact fun _ _ _ _ => .pure trivial
  exact hresponse.1.keepsNameless hempty

theorem keepsNameless_translateResponses (hempty : Table.get? c.outputs "" = none) :
    Keeps KeepsNameless (translateResponses c) := by
  refine (keeps_liftExcept _).bind fun names => ?_
  induction names with
  | nil => exact .pure _
  | cons name names ih =>
      rw [translateEach_cons]
      exact (keepsNameless_response hempty name _).bind fun _ => ih

theorem keepsNameless_operationField (hempty : Table.get? c.outputs "" = none) (o : Operation) :
    Keeps KeepsNameless (operationField c o) := by
  refine (keeps_responseType? o).bind fun type => ?_
  split
  · exact (keeps_report _ _).bind fun _ => .pure _
  · refine .bind (fun s => ?_) fun found => (keeps_argumentDefs found).bind fun _ =>
      (keeps_checkDescription _ _).bind fun _ => .pure _
    have harguments : Ensures (Evolves c fun _ => False) s (arguments c o.parameters
        (if o.isMutation then o.request else none) o.requestRequired) _ := arguments_passed _ _ _
    exact harguments.1.keepsNameless hempty

/-! ## Taking turns -/

/-- An operation whose turn it is, with the state then. -/
structure Turn where
  operation : Operation
  state : State

/-- The turns of operations, the first one in the state `s`. -/
def turns (c : Catalog) (s : State) : List Operation → List Turn
  | [] => []
  | o :: rest => ⟨o, s⟩ :: turns c ((rootFields c ⟨[], []⟩ [o]).run s).2 rest

theorem operations_turns (c : Catalog) (s : State) (operations : List Operation) :
    (turns c s operations).map Turn.operation = operations := by
  induction operations generalizing s with
  | nil => rfl
  | cons o operations ih => rw [turns, List.map_cons, ih]

/-- The type that is kept for the response. -/
def Turn.type? (t : Turn) : Option TypeRef :=
  t.operation.response.bind fun name => t.state.output? (.ofText name)

/-- The field of an operation: its name stands for the id, its type is the one that is kept for
the response, and its value comes from a request to the operation. -/
structure Answers (r : Name.Registry) (t : Turn) (f : String × Field) : Prop where
  text : r.text? f.1 = some t.operation.id.plain
  type : t.type? = some f.2.type
  resolver : f.2.resolver = some (.request t.operation [])

theorem Answers.later {r r' : Name.Registry} {t : Turn} {f : String × Field} (h : Answers r t f)
    (hgrow : r.Grows r') : Answers r' t f :=
  ⟨hgrow.text _ _ h.text, h.type, h.resolver⟩

theorem Turn.type?_eq (hs : Nameless s) (o : Operation) :
    Turn.type? ⟨o, s⟩ = s.output? (.ofText (o.response.getD "")) := by
  unfold Turn.type?
  cases o.response with
  | some name => rfl
  | none =>
      show none = (Table.get? s.outputs (.ofText "")).join
      rw [hs.empty]
      rfl

theorem operationField_type (o : Operation) :
    Ensures NamesReach s (operationField c o) fun field? _ =>
      field?.map Field.type = s.output? (.ofText (o.response.getD "")) ∧
        ∀ field, field? = some field → field.resolver = some (.request o []) := by
  refine .bind (Q := fun type _ => type = s.output? (.ofText (o.response.getD "")))
    (.get_bind (.pure rfl)) ?_
  rintro type s₁ - rfl
  split
  · rename_i hnone
    refine .bind ((keeps_report _ _).ensures s₁) fun _ _ _ _ => .pure ⟨?_, nofun⟩
    rw [hnone]
    rfl
  · rename_i type hsome
    refine .bind ((keeps_arguments c _ _ _).ensures s₁) fun found s₂ _ _ => ?_
    refine .bind ((keeps_argumentDefs found).ensures s₂) fun defs s₃ _ _ => ?_
    refine .bind ((keeps_checkDescription _ _).ensures s₃) fun description s₄ _ _ => .pure ⟨?_, ?_⟩
    · rw [hsome]
      rfl
    · rintro field ⟨⟩
      rfl

/-- What one turn does: without a type it adds no field, and with a type it adds the field that
answers it. -/
inductive Taken (c : Catalog) (found : Roots) (o : Operation) (s s₁ : State) : Roots → Prop
  | skipped (untyped : Turn.type? ⟨o, s⟩ = none) : Taken c found o s s₁ found
  | added {name : String} {field : Field} (answers : Answers s₁.names ⟨o, s⟩ (name, field)) :
      Taken c found o s s₁ (found.insert o.isMutation name field)

theorem rootFields_cons (hempty : Table.get? c.outputs "" = none) (hs : Nameless s)
    {found roots : Roots} {o : Operation} {rest : List Operation}
    (h : (rootFields c found (o :: rest)).run s = (.ok roots, s')) :
    ∃ s₁ found₁, ((rootFields c ⟨[], []⟩ [o]).run s).2 = s₁ ∧ NamesReach s s₁ ∧ Nameless s₁ ∧
      Taken c found o s s₁ found₁ ∧ (rootFields c found₁ rest).run s₁ = (.ok roots, s') := by
  simp only [rootFields, run_bind] at h ⊢
  rcases hrun : (operationField c o).run s with ⟨e | field?, s₁⟩
  · rw [hrun] at h
    cases h
  · rw [hrun] at h
    have hs₁ : Nameless s₁ := by
      have hkept := keepsNameless_operationField hempty o s hs
      rwa [hrun] at hkept
    obtain ⟨hreach, htype, hresolver⟩ := (operationField_type o).of_ok hrun
    cases field? with
    | none =>
        refine ⟨s₁, found, rfl, hreach, hs₁, .skipped ?_, h⟩
        rw [Turn.type?_eq hs, ← htype]
        rfl
    | some field =>
        dsimp only at h ⊢
        rw [run_bind] at h ⊢
        rcases hstore : (storeName o.id.plain).run s₁ with ⟨e | name, s₂⟩
        · rw [hstore] at h
          cases h
        · rw [hstore] at h
          have htext := text?_of_storeName hs₁.coherent hstore
          have hkept := keeps_storeName (R := NamesReach) o.id.plain s₁
          have hs₂ := keeps_storeName (R := KeepsNameless) o.id.plain s₁ hs₁
          rw [hstore] at hkept hs₂
          have hanswers : Answers s₂.names ⟨o, s⟩ (name, field) := by
            refine ⟨htext, ?_, hresolver field rfl⟩
            rw [Turn.type?_eq hs, ← htype]
            rfl
          exact ⟨s₂, _, rfl, trans_of NamesReach hreach hkept, hs₂, .added hanswers, h⟩

/-- The fields that answer some turns, in their order: those with a type of the wanted kind. -/
def typed (mutation : Bool) (ts : List Turn) : List Turn :=
  ts.filter fun t => t.type?.isSome && t.operation.isMutation == mutation

theorem typed_cons {t : Turn} {type : TypeRef} (h : t.type? = some type) (mutation : Bool)
    (ts : List Turn) :
    typed mutation (t :: ts) =
      (if t.operation.isMutation == mutation then [t] else []) ++ typed mutation ts := by
  unfold typed
  rw [List.filter_cons, h, Option.isSome_some, Bool.true_and]
  split <;> rfl

theorem typed_cons_of_none {t : Turn} (h : t.type? = none) (mutation : Bool) (ts : List Turn) :
    typed mutation (t :: ts) = typed mutation ts := by
  unfold typed
  rw [List.filter_cons, h]
  rfl

theorem Roots.insert_of_new {found : Roots} {name : String}
    (h : name ∉ Table.keys found.query ++ Table.keys found.mutation) (mutation : Bool)
    (field : Field) :
    found.insert mutation name field =
      ⟨found.query ++ (if mutation then [] else [(name, field)]),
        found.mutation ++ (if mutation then [(name, field)] else [])⟩ := by
  obtain ⟨hquery, hmutation⟩ := not_or.mp (List.mem_append.not.mp h)
  cases mutation with
  | false => simp [Roots.insert, Table.insert_of_not_mem hquery]
  | true => simp [Roots.insert, Table.insert_of_not_mem hmutation]

/-- The induction is on the operations whose turn is still to come. No field that was found has
the name of one of them, so each field is put after the ones before. -/
theorem rootFields_answers (hempty : Table.get? c.outputs "" = none) {operations : List Operation}
    (hids : (operations.map (·.id.plain)).Nodup) {found roots : Roots} (hs : Nameless s)
    (hfound : ∀ key ∈ Table.keys found.query ++ Table.keys found.mutation,
      ∃ text, s.names.text? key = some text ∧ text ∉ operations.map (·.id.plain))
    (h : (rootFields c found operations).run s = (.ok roots, s')) :
    ∃ query mutation, roots = ⟨found.query ++ query, found.mutation ++ mutation⟩ ∧
      NamesReach s s' ∧
      List.Forall₂ (Answers s'.names) (typed false (turns c s operations)) query ∧
      List.Forall₂ (Answers s'.names) (typed true (turns c s operations)) mutation := by
  induction operations generalizing s found with
  | nil =>
      cases h
      exact ⟨[], [], by simp, refl_of NamesReach _, .nil, .nil⟩
  | cons o operations ih =>
      obtain ⟨hnew, hrest⟩ := List.nodup_cons.mp hids
      obtain ⟨s₁, found₁, hturn, hreach, hs₁, htaken, hrun⟩ := rootFields_cons hempty hs h
      have hold : ∀ key ∈ Table.keys found.query ++ Table.keys found.mutation,
          ∃ text, s₁.names.text? key = some text ∧ text ∉ (o :: operations).map (·.id.plain) := by
        intro key hkey
        obtain ⟨text, htext, hmem⟩ := hfound key hkey
        exact ⟨text, hreach.namesGrow.1.text _ _ htext, hmem⟩
      rw [turns, hturn]
      cases htaken with
      | skipped untyped =>
          obtain ⟨query, mutation, rfl, hreach', hquery, hmutation⟩ := ih hrest hs₁
            (fun key hkey => (hold key hkey).imp fun text ht =>
              ⟨ht.1, fun hmem => ht.2 (List.mem_cons_of_mem _ hmem)⟩) hrun
          refine ⟨query, mutation, rfl, trans_of NamesReach hreach hreach', ?_, ?_⟩
          · rwa [typed_cons_of_none untyped]
          · rwa [typed_cons_of_none untyped]
      | @added name field answers =>
          have hname : name ∉ Table.keys found.query ++ Table.keys found.mutation := by
            intro hmem
            obtain ⟨text, htext, hother⟩ := hold name hmem
            obtain rfl := Option.some.inj (htext.symm.trans answers.text)
            exact hother List.mem_cons_self
          have hadded := Roots.insert_of_new hname o.isMutation field
          have hfound₁ : ∀ key ∈ Table.keys (found.insert o.isMutation name field).query ++
              Table.keys (found.insert o.isMutation name field).mutation,
              ∃ text, s₁.names.text? key = some text ∧ text ∉ operations.map (·.id.plain) := by
            intro key hkey
            have hcases :
                key = name ∨ key ∈ Table.keys found.query ++ Table.keys found.mutation := by
              rw [hadded] at hkey
              cases o.isMutation <;> simp [Table.keys] at hkey ⊢ <;> tauto
            rcases hcases with rfl | hkey
            · exact ⟨_, answers.text, hnew⟩
            · obtain ⟨text, htext, hmem⟩ := hold key hkey
              exact ⟨text, htext, fun h => hmem (List.mem_cons_of_mem _ h)⟩
          obtain ⟨query, mutation, rfl, hreach', hquery, hmutation⟩ := ih hrest hs₁ hfound₁ hrun
          have hanswers := answers.later hreach'.namesGrow.1
          have htype : Turn.type? ⟨o, s⟩ = some field.type := answers.type
          rw [hadded]
          refine ⟨(if o.isMutation then [] else [(name, field)]) ++ query,
            (if o.isMutation then [(name, field)] else []) ++ mutation, ?_,
            trans_of NamesReach hreach hreach', ?_, ?_⟩
          · rw [List.append_assoc, List.append_assoc]
          · rw [typed_cons htype]
            refine List.rel_append ?_ hquery
            cases o.isMutation with
            | false => exact .cons hanswers .nil
            | true => exact .nil
          · rw [typed_cons htype]
            refine List.rel_append ?_ hmutation
            cases o.isMutation with
            | false => exact .nil
            | true => exact .cons hanswers .nil

/-! ## The whole graph -/

theorem buildApi_ensures (c : Catalog) (s : State) :
    Ensures NamesReach s (buildApi c) fun api s' =>
      ∃ s₀ s₁, (translateResponses c).run s = (.ok (), s₀) ∧
        (rootFields c ⟨[], []⟩ (c.operations.map Prod.snd)).run s₀ = (.ok api.roots, s₁) ∧
        NamesReach s₁ s' := by
  have hbuilding := building_namesReach c
  refine .bind (hbuilding.keeps_translateResponses.ensures_run s) fun _ s₀ _ htranslate => ?_
  refine .bind ((hbuilding.keeps_rootFields (List.Subset.refl _) _).ensures_run s₀) ?_
  intro roots s₁ _ hroots
  dsimp only
  split
  · exact .bind (Q := fun _ _ => False) (.throw _) fun _ _ _ h => h.elim
  · refine .bind ((hbuilding.keeps_reach _ _).ensures s₁) fun queryPlaces s₂ h₂ _ => ?_
    refine .bind ((hbuilding.keeps_reach _ _).ensures s₂) fun places s₃ h₃ _ => ?_
    refine .get_bind ?_
    split
    · exact .throw _
    · exact .pure ⟨s₀, s₁, htranslate, hroots, trans_of _ h₂ h₃⟩

theorem texts_of_answers {r : Name.Registry} {ts : List Turn} {fields : Table String Field}
    (h : List.Forall₂ (Answers r) ts fields) :
    (Table.keys fields).map r.text? = ts.map fun t => some t.operation.id.plain := by
  induction h with
  | nil => rfl
  | cons hanswers _ ih =>
      rw [Table.keys, List.map_cons, List.map_cons, List.map_cons, hanswers.text]
      exact congrArg _ ih

/-- A field is that of an operation of its kind. -/
theorem operation_of_field {r : Name.Registry} {s : State} {operations : List Operation}
    {mutation : Bool} {fields : Table String Field}
    (h : List.Forall₂ (Answers r) (typed mutation (turns c s operations)) fields)
    {f : String × Field} (hf : f ∈ fields) :
    ∃ o ∈ operations, o.isMutation = mutation ∧ r.text? f.1 = some o.id.plain := by
  have htext : r.text? f.1 ∈ (Table.keys fields).map r.text? :=
    List.mem_map_of_mem (List.mem_map_of_mem hf)
  rw [texts_of_answers h] at htext
  obtain ⟨t, ht, heq⟩ := List.mem_map.mp htext
  obtain ⟨hturn, hkind⟩ := List.mem_filter.mp ht
  have hmem := List.mem_map_of_mem (f := Turn.operation) hturn
  rw [operations_turns] at hmem
  exact ⟨t.operation, hmem, by simpa using (Bool.and_eq_true_iff.mp hkind).2, heq.symm⟩

theorem typed_perm (ts : List Turn) :
    (typed false ts ++ typed true ts).Perm (ts.filter fun t => t.type?.isSome) := by
  have hsplit : ∀ mutation, typed mutation ts =
      (ts.filter fun t => t.type?.isSome).filter fun t => t.operation.isMutation == mutation := by
    intro mutation
    rw [List.filter_filter]
    exact List.filter_congr fun t _ => Bool.and_comm _ _
  have htrue : (fun t : Turn => t.operation.isMutation == true) =
      fun t => !(t.operation.isMutation == false) := by
    funext t
    cases t.operation.isMutation <;> rfl
  rw [hsplit, hsplit, htrue]
  exact List.filter_append_perm _ _

/-- The names of all fields stand for ids, and no two operations have one id. -/
theorem keys_nodup {r : Name.Registry} {ts : List Turn}
    (hids : ((ts.map Turn.operation).map (·.id.plain)).Nodup) {query mutation : Table String Field}
    (hquery : List.Forall₂ (Answers r) (typed false ts) query)
    (hmutation : List.Forall₂ (Answers r) (typed true ts) mutation) :
    (Table.keys query ++ Table.keys mutation).Nodup := by
  rw [List.map_map] at hids
  apply List.Nodup.of_map r.text?
  rw [List.map_append, texts_of_answers hquery, texts_of_answers hmutation, ← List.map_append]
  have htyped : (((typed false ts ++ typed true ts).map fun t => t.operation.id.plain)).Nodup := by
    rw [((typed_perm ts).map _).nodup_iff]
    exact hids.sublist (List.filter_sublist.map _)
  have hsome := htyped.map (Option.some_injective String)
  rwa [List.map_map] at hsome

/-- When a graph is built from a description whose ids are texts and of which no component has
the empty name, the fields of the root types answer, one each and in order, the operations for
whose response a type is kept when their turn comes: those of queries the operations that only
read, those of mutations the others. No two fields have one name. -/
theorem root_fields_of_every_api {config : Config} {fetches : Bool} {document : Value} {api : Api}
    (h : ofDocument config fetches document buildApi = (.ok (c, api), s))
    (hids : ∀ e ∈ Catalog.endpoints document, ∃ text, e.id = .text text)
    (hempty : Catalog.component? document "" = none) :
    ∃ log s₀ s₁, Catalog.ofDocument config fetches document = (.ok c, log) ∧
      (translateResponses c).run (atStart config log) = (.ok (), s₀) ∧
      (rootFields c ⟨[], []⟩ (c.operations.map Prod.snd)).run s₀ = (.ok api.roots, s₁) ∧
      List.Forall₂ (Answers s.names)
        (typed false (turns c s₀ (c.operations.map Prod.snd))) api.roots.query ∧
      List.Forall₂ (Answers s.names)
        (typed true (turns c s₀ (c.operations.map Prod.snd))) api.roots.mutation ∧
      (Table.keys api.roots.query ++ Table.keys api.roots.mutation).Nodup := by
  obtain ⟨log, hread, hrun⟩ := run_of_ofDocument h
  obtain ⟨ps, hps⟩ := Catalog.collected_of_ofDocument hread
  have hdistinct := hps.ids_nodup hids
  have hnone : Table.get? c.outputs "" = none := by
    rw [hps.get?_outputs, Catalog.inline?_empty, hempty]
    rfl
  obtain ⟨-, s₀, s₁, htranslate, hroots, hreach⟩ := (buildApi_ensures c _).of_ok hrun
  have hstart : Nameless (atStart config log) := ⟨Name.Registry.coherent_empty _, rfl⟩
  have hs₀ : Nameless s₀ := by
    have hkept := keepsNameless_translateResponses hnone (atStart config log) hstart
    rwa [htranslate] at hkept
  obtain ⟨query, mutation, hfields, hreach₁, hquery, hmutation⟩ :=
    rootFields_answers hnone hdistinct hs₀ (by simp [Table.keys]) hroots
  have hgrow := hreach.namesGrow.1
  have hquery' : List.Forall₂ (Answers s.names)
      (typed false (turns c s₀ (c.operations.map Prod.snd))) api.roots.query := by
    rw [hfields]
    exact hquery.imp fun _ _ hanswers => hanswers.later hgrow
  have hmutation' : List.Forall₂ (Answers s.names)
      (typed true (turns c s₀ (c.operations.map Prod.snd))) api.roots.mutation := by
    rw [hfields]
    exact hmutation.imp fun _ _ hanswers => hanswers.later hgrow
  have hturns := operations_turns c s₀ (c.operations.map Prod.snd)
  rw [← hturns] at hdistinct
  exact ⟨log, s₀, s₁, hread, htranslate, hroots, hquery', hmutation',
    keys_nodup hdistinct hquery' hmutation'⟩

/-- Two operations whose ids make the same name, and one without a response between them. -/
def sameNameDocument : Value :=
  .map [("openapi", .text "3.0.0"),
    ("paths", .map [
      ("/pet", .map [
        ("get", Catalog.answering [("operationId", .text "get-pet")] (Catalog.ofType "string")),
        ("post", Catalog.answering [("operationId", .text "getPet")] (Catalog.ofType "string"))]),
      ("/ping", .map [("get", .map [("operationId", .text "ping")])])])]

def built? : Except Failure (Catalog × Api) × State → Option (Catalog × Api × State)
  | (.ok (c, api), s) => some (c, api, s)
  | _ => none

theorem of_built? {result : Except Failure (Catalog × Api) × State} {c : Catalog} {api : Api}
    {s : State} (h : built? result = some (c, api, s)) : result = (.ok (c, api), s) := by
  unfold built? at h
  split at h
  · cases h
    rfl
  · cases h

theorem keys_of_sameName :
    (built? (ofDocument default true sameNameDocument buildApi)).map (fun b =>
      (b.1.operations.map fun p => (p.2.id.plain, p.2.isMutation), Table.keys b.2.1.roots.query,
        Table.keys b.2.1.roots.mutation)) =
    some ([("get-pet", false), ("getPet", true), ("ping", false)], ["getPet"], ["getPet2"]) := by
  decide +kernel

/-- Each of the two operations has a field of its own, the one without a response has none. -/
theorem fields_of_same_name :
    ∃ c api s, ofDocument default true sameNameDocument buildApi = (.ok (c, api), s) ∧
      Table.keys api.roots.query = ["getPet"] ∧ Table.keys api.roots.mutation = ["getPet2"] ∧
      s.names.text? "getPet2" = some "getPet" := by
  obtain ⟨⟨c, api, s⟩, hbuilt, hfacts⟩ := Option.map_eq_some_iff.mp keys_of_sameName
  obtain ⟨hoperations, hkeys⟩ := Prod.mk.inj hfacts
  obtain ⟨hquery, hmutation⟩ := Prod.mk.inj hkeys
  have hids : (Catalog.endpoints sameNameDocument).all (fun e => e.id.text?.isSome) = true := by
    decide +kernel
  obtain ⟨log, s₀, s₁, -, -, -, -, hanswers, -⟩ := root_fields_of_every_api (of_built? hbuilt)
    (fun e he => by
      obtain ⟨text, htext⟩ := Option.isSome_iff_exists.mp (List.all_eq_true.mp hids e he)
      exact ⟨text, Value.text?_eq_some_iff.mp htext⟩)
    (Option.isNone_iff_eq_none.mp (by decide +kernel))
  refine ⟨c, api, s, of_built? hbuilt, hquery, hmutation, ?_⟩
  obtain ⟨f, hfields, hname⟩ := List.map_eq_singleton_iff.mp hmutation
  obtain ⟨o, ht, hkind, hanswer⟩ :=
    operation_of_field hanswers (f := f) (hfields ▸ List.mem_cons_self)
  obtain ⟨p, hp, rfl⟩ := List.mem_map.mp ht
  have hlisted : (p.2.id.plain, p.2.isMutation) ∈ c.operations.map fun p =>
      (p.2.id.plain, p.2.isMutation) := List.mem_map_of_mem hp
  rw [show (c.operations.map fun p => (p.2.id.plain, p.2.isMutation)) = _ from hoperations,
    hkind] at hlisted
  have hid : p.2.id.plain = "getPet" := by simpa using hlisted
  rw [← hname, ← hid]
  exact hanswer

end RestGraph.Graph
