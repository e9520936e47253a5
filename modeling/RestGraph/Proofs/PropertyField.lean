import RestGraph.Proofs.Evolution
import RestGraph.Proofs.NameHistory
import RestGraph.Request.Resolve

namespace RestGraph.Graph

open Build

/-!
# Fields of properties and links

The properties of an object take turns. One that has a type in its turn gets a field under the
name that is registered for it then. Whatever is registered between two turns, the names of
different properties differ, so no field replaces another one. Only a link does: it takes the place
of the property of its name, and the other links come after all properties.
-/

variable {c : Catalog} {plan : Plan} {required : List String} {s s' : State}

/-! ## Taking turns -/

/-- A property whose turn it is, with the state then. -/
structure PropertyTurn where
  property : String × Value
  state : State

/-- The turns of properties, the first one in the state `s`. -/
def propertyTurns (c : Catalog) (plan : Plan) (required : List String) (s : State) :
    List (String × Value) → List PropertyTurn
  | [] => []
  | p :: rest =>
      ⟨p, s⟩ :: propertyTurns c plan required ((propertyFields c plan required [p]).run s).2 rest

namespace PropertyTurn

def name (t : PropertyTurn) : String := t.property.1

/-- What the schema of the property is translated to or refers to, in its turn. -/
def result (c : Catalog) (plan : Plan) (t : PropertyTurn) : Except Failure (Option TypeRef) :=
  ((propertyType c plan t.property.1 t.property.2).run t.state).1

def type? (c : Catalog) (plan : Plan) (t : PropertyTurn) : Option TypeRef :=
  (t.result c plan).toOption.join

end PropertyTurn

theorem name_propertyTurns (ps : List (String × Value)) :
    (propertyTurns c plan required s ps).map PropertyTurn.name = Table.keys ps := by
  induction ps generalizing s with
  | nil => rfl
  | cons p ps ih =>
      rw [propertyTurns, List.map_cons, ih]
      rfl

/-- The turns in which there is a type. -/
def typedTurns (c : Catalog) (plan : Plan) (ts : List PropertyTurn) : List PropertyTurn :=
  ts.filter fun t => (t.type? c plan).isSome

/-- The field of a property: it has the name that is registered for the property and the type that
there is in its turn. -/
structure Serves (c : Catalog) (plan : Plan) (required : List String) (r : Name.Registry)
    (t : PropertyTurn) (f : String × Field) : Prop where
  named : r.name? t.name = some f.1
  field : ∃ type, t.type? c plan = some type ∧
    f.2 = ownField plan.mode required t.property f.1 type

theorem Serves.later {r r' : Name.Registry} {t : PropertyTurn} {f : String × Field}
    (h : Serves c plan required r t f) (hgrow : r.Grows r') : Serves c plan required r' t f :=
  ⟨hgrow.name _ _ h.named, h.field⟩

theorem propertyFields_cons (p : String × Value) (ps : List (String × Value)) :
    propertyFields c plan required (p :: ps) = (do
      let first ← propertyFields c plan required [p]
      let rest ← propertyFields c plan required ps
      return first ++ rest) := by
  simp only [propertyFields, bind_assoc]
  congr
  funext type?
  cases type? <;> simp

/-- What one turn does: without a type it adds no field, and with a type one that serves it. -/
theorem turn_serves (p : String × Value) :
    Ensures NamesReach s (propertyFields c plan required [p]) fun fields s' =>
      (∃ type, PropertyTurn.result c plan ⟨p, s⟩ = .ok type) ∧
        List.Forall₂ (Serves c plan required s'.names) (typedTurns c plan [⟨p, s⟩]) fields := by
  refine .bind ((keeps_propertyType c plan p.1 p.2).ensures_run s) fun type s₁ h₁ hrun => ?_
  have hresult : PropertyTurn.result c plan ⟨p, s⟩ = .ok type := congrArg Prod.fst hrun
  split
  · have hnone : typedTurns c plan [⟨p, s⟩] = [] := by
      simp [typedTurns, PropertyTurn.type?, hresult, Except.toOption]
    rw [hnone]
    exact .pure ⟨⟨_, hresult⟩, .nil⟩
  · rename_i type
    have htype : PropertyTurn.type? c plan ⟨p, s⟩ = some type := by
      simp [PropertyTurn.type?, hresult, Except.toOption]
    have htyped : typedTurns c plan [⟨p, s⟩] = [⟨p, s⟩] := by simp [typedTurns, htype]
    rw [htyped]
    refine .bind (named_storeName p.1) fun key s₂ h₂ hnamed => ?_
    refine .bind (propertyField_ensures plan.mode required p key type) ?_
    rintro field s₃ h₃ rfl
    refine .bind (.pure rfl) (Q := fun rest t => rest = []) ?_
    rintro rest s₄ h₄ rfl
    refine .pure ⟨⟨_, hresult⟩, .cons ⟨?_, type, htype, rfl⟩ .nil⟩
    exact (trans_of NamesReach h₃ h₄).namesGrow.1.name _ _ hnamed.1

/-- The induction is on the properties whose turn is still to come. -/
theorem propertyFields_serve (ps : List (String × Value)) :
    Ensures NamesReach s (propertyFields c plan required ps) fun own s' =>
      (∀ t ∈ propertyTurns c plan required s ps, ∃ type, t.result c plan = .ok type) ∧
        List.Forall₂ (Serves c plan required s'.names)
          (typedTurns c plan (propertyTurns c plan required s ps)) own := by
  induction ps generalizing s with
  | nil => exact .pure ⟨by simp [propertyTurns], .nil⟩
  | cons p ps ih =>
      let turn : PropertyTurn := ⟨p, s⟩
      let after : State := ((propertyFields c plan required [p]).run s).2
      have hturn : Ensures NamesReach s (propertyFields c plan required [p]) fun first t =>
          t = after ∧ (∃ type, turn.result c plan = .ok type) ∧
            List.Forall₂ (Serves c plan required t.names) (typedTurns c plan [turn]) first :=
        ⟨(turn_serves p).1, fun first h => ⟨rfl, (turn_serves p).2 first h⟩⟩
      rw [propertyFields_cons]
      refine .bind hturn ?_
      rintro first _ - ⟨rfl, hresult, hserves⟩
      refine .bind ih fun rest s₂ h₂ ⟨hresults, hrest⟩ => .pure ?_
      have hturns : propertyTurns c plan required s (p :: ps) =
          [turn] ++ propertyTurns c plan required after ps := rfl
      have hgrow := h₂.namesGrow.1
      rw [hturns]
      refine ⟨List.forall_mem_cons.mpr ⟨hresult, hresults⟩, ?_⟩
      unfold typedTurns
      rw [List.filter_append]
      exact List.rel_append (hserves.imp fun _ _ h => h.later hgrow) hrest

/-! ## Links -/

/-- The links that there are fields for: those of an output at the first level. -/
def Plan.shownLinks (plan : Plan) : Table String Link :=
  if plan.iteration == 0 && plan.mode == .output then plan.links else []

/-- The field of a link: it has the name that is registered for the link and makes a request to
its operation. -/
structure Requests (c : Catalog) (r : Name.Registry) (e : String × Link) (f : String × Field) :
    Prop where
  named : r.name? e.1 = some f.1
  resolver : ∃ o preset, c.operation e.2.operationId = .ok o ∧
    f.2.resolver = some (.request o preset)

theorem Requests.later {r r' : Name.Registry} {e : String × Link} {f : String × Field}
    (h : Requests c r e f) (hgrow : r.Grows r') : Requests c r' e f :=
  ⟨hgrow.name _ _ h.named, h.resolver⟩

theorem linkField_requests (name : String) (link : Link) :
    Ensures NamesReach s (linkField c name link) fun f _ =>
      ∃ o preset, c.operation link.operationId = .ok o ∧
        f.resolver = some (.request o preset) := by
  unfold linkField
  split
  · exact .throw _
  · refine .bind_liftExcept fun o ho => ?_
    refine .bind ((keeps_presets _ _ _).ensures s) fun preset s₁ _ _ => ?_
    refine .bind ((keeps_access _).ensures s₁) fun remaining s₂ _ _ => ?_
    refine .bind ((keeps_arguments c _ _ _).ensures s₂) fun found s₃ _ _ => ?_
    refine .bind ((keeps_responseType? o).ensures s₃) fun type s₄ _ _ => ?_
    split
    · exact .throw _
    · refine .bind ((keeps_argumentDefs found).ensures s₄) fun defs s₅ _ _ => ?_
      refine .bind ((keeps_checkDescription _ _).ensures s₅) fun description s₆ _ _ => .pure ?_
      exact ⟨o, preset, ho, rfl⟩

theorem linkFields_request (links : List (String × Link)) :
    Ensures NamesReach s (linkFields c links) fun fields s' =>
      List.Forall₂ (Requests c s'.names) links fields := by
  induction links generalizing s with
  | nil => exact .pure .nil
  | cons e links ih =>
      refine .bind (linkField_requests e.1 e.2) fun field s₁ _ hfield => ?_
      refine .bind (named_storeName e.1) fun key s₂ _ hnamed => ?_
      refine .bind ih fun rest s₃ h₃ hrest => .pure ?_
      exact .cons ⟨h₃.namesGrow.1.name _ _ hnamed.1, hfield⟩ hrest

theorem planLinks_request :
    Ensures NamesReach s (planLinks c plan) fun links s' =>
      List.Forall₂ (Requests c s'.names) plan.shownLinks links := by
  unfold planLinks Plan.shownLinks
  split
  · exact linkFields_request plan.links
  · exact .pure .nil

/-! ## The whole table -/

theorem keys_of_named {ι : Type} {name : ι → String} {r : Name.Registry} {xs : List ι}
    {entries : List (String × Field)}
    (h : List.Forall₂ (fun x f => r.name? (name x) = some f.1) xs entries) :
    (Table.keys entries).map some = xs.map fun x => r.name? (name x) := by
  induction h with
  | nil => rfl
  | cons hnamed _ ih =>
      rw [List.map_cons, hnamed, ← ih]
      rfl

/-- Different texts have different names. -/
theorem distinct_of_named {ι : Type} {name : ι → String} {r : Name.Registry} (hr : r.Coherent)
    {xs : List ι} {entries : List (String × Field)}
    (h : List.Forall₂ (fun x f => r.name? (name x) = some f.1) xs entries)
    (hxs : (xs.map name).Nodup) : Table.Distinct entries := by
  have htexts : (Table.keys entries).map r.text? = (xs.map name).map some := by
    clear hxs
    induction h with
    | nil => rfl
    | cons hnamed _ ih =>
        rw [Table.keys, List.map_cons, List.map_cons, List.map_cons, List.map_cons,
          (hr.inverse _ _).mpr hnamed]
        exact congrArg _ ih
  apply List.Nodup.of_map r.text?
  rw [htexts]
  exact hxs.map (Option.some_injective String)

theorem exists_of_mem_left {α β : Type} {P : α → β → Prop} {xs : List α} {ys : List β}
    (h : List.Forall₂ P xs ys) {x : α} (hx : x ∈ xs) : ∃ y ∈ ys, P x y := by
  induction h with
  | nil => cases hx
  | cons hxy _ ih =>
      rcases List.mem_cons.mp hx with rfl | hx
      · exact ⟨_, List.mem_cons_self, hxy⟩
      · obtain ⟨y, hy, hxy⟩ := ih hx
        exact ⟨y, List.mem_cons_of_mem _ hy, hxy⟩

/-- The key is the name of the text, and the text is what the key stands for. -/
def Registers (r : Name.Registry) (text key : String) : Prop :=
  r.name? text = some key ∧ r.text? key = some text

/-- What the field gives for a parent when it is asked for without arguments. A field that has no
resolver of its own gives the member of the parent under its key. -/
def Field.answer (c : Catalog) (r : Name.Registry) (parent : Value) (key : String) (f : Field) :
    Except Failure Outcome :=
  match f.resolver with
  | none => .ok (.value ((parent.member? key).getD .null))
  | some resolver => resolver.resolve c r parent []

theorem answer_ownField (c : Catalog) (r : Name.Registry) (parent : Value) (p : String × Value)
    (key : String) (type : TypeRef) :
    (ownField .output required p key type).answer c r parent key =
      .ok (.value ((parent.member? p.1).getD .null)) := by
  by_cases hkey : key = p.1
  · simp [ownField, Field.answer, hkey]
  · simp [ownField, Field.answer, hkey, Resolver.resolve]

/-- The table has one field for each turn with a type and each link that is shown, and no other
field. A link has the place of the property of its name. -/
structure Accounts (c : Catalog) (plan : Plan) (required : List String) (r : Name.Registry)
    (ts : List PropertyTurn) (links : List (String × Field)) (fields : Table String Field) :
    Prop where
  distinct : Table.Distinct fields
  keys : (Table.keys fields).map some =
    ts.map (fun t => r.name? t.name) ++ (plan.shownLinks.map fun e => r.name? e.1).filter
      fun key? => key? ∉ ts.map fun t => r.name? t.name
  originals : ∀ key ∈ Table.keys fields, ∃ text, Registers r text key ∧
    (text ∈ ts.map PropertyTurn.name ∨ text ∈ Table.keys plan.shownLinks)
  own : ∀ t ∈ ts, t.name ∉ Table.keys plan.shownLinks →
    ∃ key type, Registers r t.name key ∧ t.type? c plan = some type ∧
      Table.get? fields key = some (ownField plan.mode required t.property key type)
  linked : ∀ e ∈ plan.shownLinks, ∃ key f, Registers r e.1 key ∧ (key, f) ∈ links ∧
    Table.get? fields key = some f ∧
    ∃ o preset, c.operation e.2.operationId = .ok o ∧ f.resolver = some (.request o preset)
  answers : plan.mode = .output → ∀ key f, Table.get? fields key = some f →
    ∀ text, r.text? key = some text → text ∉ Table.keys plan.shownLinks →
    ∀ members, f.answer c r (.map members) key =
      .ok (.value ((Table.get? members text).getD .null))

theorem Registers.of_name {r : Name.Registry} (hr : r.Coherent) {text key : String}
    (h : r.name? text = some key) : Registers r text key := ⟨h, (hr.inverse key text).mpr h⟩

section Assembled

variable {r : Name.Registry} {ts : List PropertyTurn} {own links : List (String × Field)}
  (hr : r.Coherent) (hown : List.Forall₂ (Serves c plan required r) ts own)
  (hlinks : List.Forall₂ (Requests c r) plan.shownLinks links)

include hown hlinks

theorem keys_of_parts (hdistinct : Table.Distinct links) :
    (Table.keys (Table.insertAll own links)).map some =
      ts.map (fun t => r.name? t.name) ++ (plan.shownLinks.map fun e => r.name? e.1).filter
        fun key? => key? ∉ ts.map fun t => r.name? t.name := by
  have hmem : ∀ key, some key ∈ (Table.keys own).map some ↔ key ∈ Table.keys own :=
    fun key => List.mem_map_of_injective (Option.some_injective String)
  rw [Table.keys_insertAll _ hdistinct, List.map_append,
    ← keys_of_named (hown.imp fun _ _ h => h.named),
    ← keys_of_named (hlinks.imp fun _ _ h => h.named), List.filter_map]
  simp only [Function.comp_def, hmem]

include hr

/-- Each key stands for a property with a type or for a link. -/
theorem original_of_key (hdistinct : Table.Distinct links) {key : String}
    (hkey : key ∈ Table.keys (Table.insertAll own links)) :
    ∃ text, Registers r text key ∧
      (text ∈ ts.map PropertyTurn.name ∨ text ∈ Table.keys plan.shownLinks) := by
  have hsome := List.mem_map_of_mem (f := some) hkey
  rw [keys_of_parts hown hlinks hdistinct] at hsome
  rcases List.mem_append.mp hsome with hturn | hlink
  · obtain ⟨t, ht, hname⟩ := List.mem_map.mp hturn
    exact ⟨t.name, .of_name hr hname, .inl (List.mem_map_of_mem ht)⟩
  · obtain ⟨e, he, hname⟩ := List.mem_map.mp (List.mem_filter.mp hlink).1
    exact ⟨e.1, .of_name hr hname, .inr (List.mem_map_of_mem he)⟩

/-- The field of a property is not replaced unless a link has its name. -/
theorem field_of_turn (hfirst : Table.Distinct own) (hdistinct : Table.Distinct links)
    {t : PropertyTurn} (ht : t ∈ ts) (hother : t.name ∉ Table.keys plan.shownLinks) :
    ∃ key type, Registers r t.name key ∧ t.type? c plan = some type ∧
      Table.get? (Table.insertAll own links) key =
        some (ownField plan.mode required t.property key type) := by
  obtain ⟨f, hf, hserves⟩ := exists_of_mem_left hown ht
  obtain ⟨type, htype, hfield⟩ := hserves.field
  have hlink : Table.get? links f.1 = none := by
    rw [Table.get?_eq_none_iff]
    intro hmem
    obtain ⟨l, hl, hkey⟩ := List.mem_map.mp hmem
    obtain ⟨e, he, hrequests⟩ := exists_of_mem_left hlinks.flip hl
    have hname : e.1 = t.name := hr.text_injective hrequests.named (hkey ▸ hserves.named)
    exact hother (hname ▸ List.mem_map_of_mem he)
  refine ⟨f.1, type, .of_name hr hserves.named, htype, ?_⟩
  rw [Table.get?_insertAll _ hdistinct, hlink, Option.none_or, ← hfield]
  exact (Table.apart_iff_distinct.mpr hfirst).get?_of_mem hf

/-- Properties first, then links: of two entries of one key the link counts. -/
theorem accounts_of_parts (hts : (ts.map PropertyTurn.name).Nodup)
    (hshown : Table.Distinct plan.shownLinks) :
    Accounts c plan required r ts links (Table.ofList (own ++ links)) := by
  have hfirst : Table.Distinct own := distinct_of_named hr (hown.imp fun _ _ h => h.named) hts
  have hdistinct : Table.Distinct links :=
    distinct_of_named hr (hlinks.imp fun _ _ h => h.named) hshown
  have hfields : Table.ofList (own ++ links) = Table.insertAll own links := by
    conv_rhs => rw [← Table.ofList_of_distinct hfirst]
    exact Table.insertAll_append [] own links
  rw [hfields]
  refine ⟨hfirst.insertAll links, keys_of_parts hown hlinks hdistinct,
    fun _ => original_of_key hr hown hlinks hdistinct,
    fun _ => field_of_turn hr hown hlinks hfirst hdistinct, ?_, ?_⟩
  · intro e he
    obtain ⟨f, hf, hrequests⟩ := exists_of_mem_left hlinks he
    refine ⟨f.1, f.2, .of_name hr hrequests.named, hf, ?_, hrequests.resolver⟩
    rw [Table.get?_insertAll _ hdistinct,
      (Table.apart_iff_distinct.mpr hdistinct).get?_of_mem hf, Option.some_or]
  · intro hmode key f hget text htext hother members
    obtain ⟨text', hregisters, hkind⟩ :=
      original_of_key hr hown hlinks hdistinct (Table.mem_keys_iff.mpr ⟨f, hget⟩)
    obtain rfl := Option.some.inj (hregisters.2.symm.trans htext)
    obtain ⟨t, ht, rfl⟩ := List.mem_map.mp (hkind.resolve_right hother)
    obtain ⟨key', type, hregisters', -, hfield⟩ :=
      field_of_turn hr hown hlinks hfirst hdistinct ht hother
    obtain rfl := Option.some.inj (hregisters'.1.symm.trans hregisters.1)
    obtain rfl := Option.some.inj (hget.symm.trans hfield)
    rw [hmode]
    exact answer_ownField c r (.map members) t.property key' type

end Assembled

theorem nodup_typedTurns {ps : List (String × Value)} (h : Table.Distinct ps) :
    ((typedTurns c plan (propertyTurns c plan required s ps)).map PropertyTurn.name).Nodup := by
  have hall : ((propertyTurns c plan required s ps).map PropertyTurn.name).Nodup := by
    rw [name_propertyTurns]
    exact h
  exact hall.sublist (List.filter_sublist.map _)

theorem fieldsOf_accounts (hs : s.names.Coherent)
    (hproperties : ∀ ps, properties plan.schema = .ok ps → Table.Distinct ps)
    (hlinks : Table.Distinct plan.links) :
    Ensures NamesReach s (fieldsOf c plan) fun fields s' =>
      ∃ required ps links s₁, requiredNames plan.schema = .ok required ∧
        properties plan.schema = .ok ps ∧ (planLinks c plan).run s = (.ok links, s₁) ∧
        (∀ t ∈ propertyTurns c plan required s₁ ps, ∃ type, t.result c plan = .ok type) ∧
        Accounts c plan required s'.names
          (typedTurns c plan (propertyTurns c plan required s₁ ps)) links fields := by
  have hshown : Table.Distinct plan.shownLinks := by
    unfold Plan.shownLinks
    split
    · exact hlinks
    · exact List.nodup_nil
  rw [fieldsOf_eq]
  refine .bind_access fun required hrequired => ?_
  have hplanLinks : Ensures NamesReach s (planLinks c plan) fun links s₁ =>
      (planLinks c plan).run s = (.ok links, s₁) ∧
        List.Forall₂ (Requests c s₁.names) plan.shownLinks links :=
    ⟨planLinks_request.1, fun links h => ⟨Prod.ext h rfl, planLinks_request.2 links h⟩⟩
  refine .bind hplanLinks ?_
  rintro links s₁ h₁ ⟨hrun, hrequests⟩
  refine .bind_access fun ps hps => ?_
  refine .bind (propertyFields_serve ps) fun own s₂ h₂ ⟨hresults, hserves⟩ => .pure ?_
  have hgrow := h₂.namesGrow
  have hcoherent : s₂.names.Coherent := hgrow.2 (h₁.namesGrow.2 hs)
  refine ⟨required, ps, links, s₁, hrequired, hps, hrun, hresults, ?_⟩
  exact accounts_of_parts hcoherent hserves (hrequests.imp fun _ _ h => h.later hgrow.1)
    (nodup_typedTurns (hproperties ps hps)) hshown

/-- In every state that stores of names can reach, whenever the fields of a plan are found, each
property got a type or none in its turn, and the fields account for the properties with a type and
for the links that are shown. -/
theorem fields_of_every_plan {strict : Bool} (hs : NamesReach (.empty strict) s)
    (hproperties : ∀ ps, properties plan.schema = .ok ps → Table.Distinct ps)
    (hlinks : Table.Distinct plan.links) {fields : Table String Field}
    (h : (fieldsOf c plan).run s = (.ok fields, s')) :
    ∃ required ps links s₁, requiredNames plan.schema = .ok required ∧
      properties plan.schema = .ok ps ∧ (planLinks c plan).run s = (.ok links, s₁) ∧
      (∀ t ∈ propertyTurns c plan required s₁ ps, ∃ type, t.result c plan = .ok type) ∧
      Accounts c plan required s'.names
        (typedTurns c plan (propertyTurns c plan required s₁ ps)) links fields := by
  have hcoherent : s.names.Coherent := hs.namesGrow.2 (Name.Registry.coherent_empty strict)
  exact ((fieldsOf_accounts hcoherent hproperties hlinks).of_ok h).2

/-! ### A cat and its keeper

A link has the name of a property, a property has no type, and two properties have one plain name.
-/

def getKeeper : Operation where
  id := .ofText "getKeeper"
  method := "get"
  path := "/keepers/\x7bid\x7d"
  parameters := [[("name", .text "id"), ("in", .text "path"), ("required", .bool true)]]
  response := some "Keeper"
  request := none
  requestRequired := false
  links := []
  description := .null

def keeperCatalog : Catalog :=
  ((Catalog.empty default true).define "Keeper" (.map [("properties",
    .map [("name", .map [("type", .text "string")])])])).addOperation getKeeper

def keeperLink (name pointer : String) : Link :=
  ⟨name, .text "getKeeper", .null, [(.ofText "id", .text ("$response.body#/" ++ pointer))], .null⟩

def catPlan : Plan where
  schema := [("properties", .map [("keeper", .map [("type", .text "string")]),
    ("meta", .map [("type", .text "object")]), ("cat-id", .map [("type", .text "integer")]),
    ("catId", .map [("type", .text "string")])])]
  links := [("keeper", keeperLink "keeper" "keeper"), ("home page", keeperLink "home page" "home")]
  mode := .output
  iteration := 0

def withKeeper : State :=
  ((resolveReference keeperCatalog .output "Keeper" 0).run (.empty false)).2

def catFields : Except Failure (Table String Field) × State :=
  (fieldsOf keeperCatalog catPlan).run withKeeper

theorem keys_catFields : catFields.1.toOption.map Table.keys =
    some ["keeper", "catId", "catId2", "homePage"] := by
  decide +kernel

theorem names_catFields :
    catFields.2.names.name? "keeper" = some "keeper" ∧
      catFields.2.names.text? "catId2" = some "catId" := by
  decide +kernel

/-- The link has the place of the property of its name, and the second of the two properties is
read from the parent under its own name. -/
theorem catFields_account :
    ∃ fields s', catFields = (.ok fields, s') ∧
      Table.keys fields = ["keeper", "catId", "catId2", "homePage"] ∧
      (∃ f preset, Table.get? fields "keeper" = some f ∧
        f.resolver = some (.request getKeeper preset)) ∧
      ∃ f, Table.get? fields "catId2" = some f ∧ ∀ members,
        f.answer keeperCatalog s'.names (.map members) "catId2" =
          .ok (.value ((Table.get? members "catId").getD .null)) := by
  obtain ⟨fields, hfields, hkeys⟩ := Option.map_eq_some_iff.mp keys_catFields
  obtain ⟨s', hrun⟩ := exists_run_of_ok (eq_ok_of_toOption hfields)
  obtain ⟨hkeeper, hcat⟩ := names_catFields
  have hstate : catFields.2 = s' := congrArg Prod.snd hrun
  rw [hstate] at hkeeper hcat
  have hstart : NamesReach (.empty false) withKeeper := keeps_resolveReference _ _ _ _ _
  have hproperties : ∀ ps, properties catPlan.schema = .ok ps → Table.Distinct ps := by
    rintro ps ⟨⟩
    decide
  obtain ⟨required, ps, links, s₁, -, -, -, -, haccounts⟩ :=
    fields_of_every_plan hstart hproperties (by decide) hrun
  refine ⟨fields, s', hrun, hkeys, ?_, ?_⟩
  · obtain ⟨key, f, hregisters, -, hget, o, preset, ho, hresolver⟩ :=
      haccounts.linked ("keeper", keeperLink "keeper" "keeper") List.mem_cons_self
    obtain rfl := Option.some.inj (hregisters.1.symm.trans hkeeper)
    obtain rfl : o = getKeeper := (Except.ok.inj ho).symm
    exact ⟨f, preset, hget, hresolver⟩
  · obtain ⟨f, hget⟩ := Table.mem_keys_iff.mp (show "catId2" ∈ Table.keys fields by simp [hkeys])
    exact ⟨f, hget, haccounts.answers rfl "catId2" f hget "catId" hcat (by decide)⟩

end RestGraph.Graph
