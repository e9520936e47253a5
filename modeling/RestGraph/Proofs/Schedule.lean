import RestGraph.Proofs.Forcing
import RestGraph.Proofs.Inline
import RestGraph.Proofs.ResponseType
import RestGraph.Proofs.TypeName

namespace RestGraph.Graph

open Build

/-!
# The order in which fields are asked for

After the responses of a description were translated, the fields of the types can be asked for in
any order. The first type that meets a schema fixes its level, so one order may come to the limit
where another one does not. But nothing else is decided by the order: if all fields are found in
one order, then in every other one nothing fails but for that limit, and when nothing does, the
types are the same but for their places.
-/

/-- The fields of the types at some places are asked for in turn, up to the first failure. -/
def forceAll (c : Catalog) : List Nat → Build Unit
  | [] => pure ()
  | place :: places => do
      let _ ← fieldsAt c place
      forceAll c places

/-! ## The same types -/

/-- Two fields that differ in the places of types only. -/
structure FieldAlike (r : Nat → Nat → Prop) (f f' : Field) : Prop where
  type : RefAlike r f.type f'.type
  description : f.description = f'.description
  arguments : f.arguments = f'.arguments
  resolver : f.resolver = f'.resolver

/-- Fields of the same names, one by one. -/
def FieldsAlike (r : Nat → Nat → Prop) (fields fields' : Table String Field) : Prop :=
  List.Forall₂ (fun e e' => e.1 = e'.1 ∧ FieldAlike r e.2 e'.2) fields fields'

/-- Two types that differ in the places of types only. Composite types may have been made at
different levels, but the fields of both were found. -/
inductive TypeAlike (r : Nat → Nat → Prop) : NamedType → NamedType → Prop
  | enumeration (e : Enumeration) : TypeAlike r (.enumeration e) (.enumeration e)
  | composite {type type' : Composite} {fields fields' : Table String Field}
      (name : type.name = type'.name) (description : type.description = type'.description)
      (schema : type.plan.schema = type'.plan.schema) (mode : type.plan.mode = type'.plan.mode)
      (links : type.plan.links = type'.plan.links) (found : type.fields? = some fields)
      (found' : type'.fields? = some fields') (alike : FieldsAlike r fields fields') :
      TypeAlike r (.composite type) (.composite type')

/-- Two states have the same types up to their places: the places are in a one-to-one relation by
which the types differ in places only, and so do the types that are kept under equal keys. -/
structure SameTypes (r : Nat → Nat → Prop) (s s' : State) : Prop where
  left : ∀ (place : Nat) (type : NamedType), s.types[place]? = some type → ∃ place', r place place'
  right : ∀ (place' : Nat) (type' : NamedType), s'.types[place']? = some type' →
    ∃ place, r place place'
  functional : ∀ place place' other', r place place' → r place other' → place' = other'
  injective : ∀ place other place', r place place' → r other place' → place = other
  alike : ∀ place place', r place place' → ∃ type type', s.types[place]? = some type ∧
    s'.types[place']? = some type' ∧ TypeAlike r type type'
  outputs : ∀ label, Option.Rel (Option.Rel (RefAlike r)) (Table.get? s.outputs label)
    (Table.get? s'.outputs label)

section Comparison

variable {c : Catalog} {s s' : State} {node : Node}

theorem FieldsSettled.alike (hnamed : NamedAlike s s') {required : List String}
    {ps : List (String × Value)} {fields fields' : List (String × Field)}
    (h : FieldsSettled c s required ps fields) (h' : FieldsSettled c s' required ps fields') :
    FieldsAlike (Matched s s') fields fields' := by
  induction h generalizing fields' with
  | nil =>
      cases h'
      exact .nil
  | skip allowed settled _ ih =>
      cases h' with
      | skip allowed' settled' rest' => exact ih rest'
      | keep allowed' settled' => cases settled.alike hnamed settled'
  | keep allowed settled named describes _ ih =>
      cases h' with
      | skip allowed' settled' => cases settled.alike hnamed settled'
      | keep allowed' settled' named' describes' rest' =>
          obtain rfl := hnamed _ _ _ named named'
          cases settled.alike hnamed settled' with
          | some type => exact .cons ⟨rfl, type, rfl, rfl, rfl⟩ (ih rest')

theorem Fills.alike (hnamed : NamedAlike s s') {ms : Schema.Members}
    {fields fields' : Table String Field} (h : Fills c s ms fields) (h' : Fills c s' ms fields') :
    FieldsAlike (Matched s s') fields fields' := by
  obtain ⟨required, ps, own, hrequired, hps, hown, rfl⟩ := h
  obtain ⟨required', ps', own', hrequired', hps', hown', rfl⟩ := h'
  obtain rfl := Except.ok.inj (hrequired.symm.trans hrequired')
  obtain rfl := Except.ok.inj (hps.symm.trans hps')
  exact Table.forall₂_ofList (hown.alike hnamed hown')

theorem Complete.filled (hs : Complete c s) {place : Nat} {type : Composite}
    (hheld : s.types[place]? = some (.composite type)) :
    ∃ fields, type.fields? = some fields ∧ Fills c s type.plan.schema fields := by
  obtain ⟨fields, hfields⟩ := Option.ne_none_iff_exists'.mp (hs.opened place type hheld)
  exact ⟨fields, hfields, hs.whole.fields place type fields hheld hfields⟩

/-- The types that two complete states have for one node differ in places only. -/
theorem Settled.typeAlike (hs : Complete c s) (hs' : Complete c s') {place place' : Nat}
    {found found' : Option TypeRef} (h : Settled c s node found) (h' : Settled c s' node found')
    (hfound : found = some (.named place)) (hfound' : found' = some (.named place')) :
    ∃ type type', s.types[place]? = some type ∧ s'.types[place']? = some type' ∧
      TypeAlike (Matched s s') type type' := by
  have hnamed := hs.whole.namedAlike hs'.whole
  cases h with
  | scalar => exact absurd hfound (scalarType_ne_named _ _)
  | emptyObject => cases hfound
  | array => simp at hfound
  | @object _ ms _ _ type _ shape _ _ held plan named _ _ described =>
      cases h' with
      | @object _ _ _ _ type' _ _ _ _ held' plan' named' _ _ described' =>
          obtain rfl := TypeRef.named.inj (Option.some.inj hfound)
          obtain rfl := TypeRef.named.inj (Option.some.inj hfound')
          obtain ⟨fields, hfields, hfills⟩ := hs.filled held
          obtain ⟨fields', hfields', hfills'⟩ := hs'.filled held'
          rw [plan] at hfills
          rw [plan'] at hfills'
          refine ⟨_, _, held, held', .composite (hnamed _ _ _ named named')
            (described.trans described'.symm) ?_ ?_ ?_ hfields hfields'
            (hfills.alike hnamed hfills')⟩
          · rw [plan, plan']
          · rw [plan, plan']
          · rw [plan, plan']
      | _ shape' => simp [shape] at shape'
  | @enumeration _ _ _ _ _ e shape entry items members named _ _ held =>
      cases h' with
      | @enumeration _ _ _ _ _ e' shape' entry' items' members' named' _ _ held' =>
          obtain rfl := TypeRef.named.inj (Option.some.inj hfound)
          obtain rfl := TypeRef.named.inj (Option.some.inj hfound')
          obtain rfl := Option.some.inj (entry.symm.trans entry')
          obtain rfl := Except.ok.inj (items.symm.trans items')
          have hname := hnamed _ _ _ named named'
          obtain ⟨name, found⟩ := e
          obtain ⟨name', found'⟩ := e'
          obtain rfl : name = name' := hname
          obtain rfl : found = found' := Except.ok.inj (members.symm.trans members')
          exact ⟨_, _, held, held', .enumeration _⟩
      | _ shape' => simp [shape] at shape'

theorem Matched.symm {place place' : Nat} (h : Matched s s' place place') :
    Matched s' s place' place := by
  obtain ⟨label, hentry, hentry'⟩ := h
  exact ⟨label, hentry', hentry⟩

section Agreeing

variable (hschemas : SchemasAgree c) (hnames : NamesAgree c)
include hschemas hnames

/-- Types of equal keys differ in places only. -/
theorem Matched.alike (hs : Complete c s) (hs' : Complete c s') {place place' : Nat}
    (h : Matched s s' place place') : ∃ type type', s.types[place]? = some type ∧
      s'.types[place']? = some type' ∧ TypeAlike (Matched s s') type type' := by
  obtain ⟨label, hentry, hentry'⟩ := h
  obtain ⟨node, hfiles, hsettled⟩ := hs.whole.entries label _ hentry
  have hsettled' := hs'.whole.settled hschemas hnames hfiles hentry'
  exact hsettled.typeAlike hs hs' hsettled' rfl rfl

/-- What an enumeration is matched with is kept under its name. -/
theorem Matched.enumeration (hs : Complete c s) (hs' : Complete c s') {place place' : Nat}
    (h : Matched s s' place place') {e : Enumeration}
    (hheld : s.types[place]? = some (.enumeration e)) :
    Table.get? s'.outputs (.ofText e.name) = some (some (.named place')) := by
  obtain ⟨type, type', hplace, hplace', halike⟩ := h.alike hschemas hnames hs hs'
  obtain rfl := Option.some.inj (hheld.symm.trans hplace)
  cases halike
  obtain ⟨label, -, hentry'⟩ := h
  obtain ⟨node, -, hsettled⟩ := hs'.whole.entries label _ hentry'
  rcases hsettled.of_named with ⟨-, -, type, -, -, -, -, -, hcomposite, -⟩ | ⟨e', he', -, hkept⟩
  · rw [hplace'] at hcomposite
    cases hcomposite
  · obtain rfl := NamedType.enumeration.inj (Option.some.inj (hplace'.symm.trans he'))
    exact hkept

/-- A type is matched with one only: an object has one key, and an enumeration is matched with
what is kept under its name. -/
theorem Matched.functional (hs : Complete c s) (hs' : Complete c s') {place place' other' : Nat}
    (h : Matched s s' place place') (hother : Matched s s' place other') : place' = other' := by
  suffices hkept : ∃ label, Table.get? s'.outputs label = some (some (.named place')) ∧
      Table.get? s'.outputs label = some (some (.named other')) by
    obtain ⟨label, hentry, hentry'⟩ := hkept
    exact TypeRef.named.inj (Option.some.inj (Option.some.inj (hentry.symm.trans hentry')))
  obtain ⟨type, -, hheld, -⟩ := h.alike hschemas hnames hs hs'
  cases type with
  | enumeration e =>
      exact ⟨_, h.enumeration hschemas hnames hs hs' hheld,
        hother.enumeration hschemas hnames hs hs' hheld⟩
  | composite type =>
      obtain ⟨label, hentry, hentry'⟩ := h
      obtain ⟨label₂, hentry₂, hentry₂'⟩ := hother
      have hsame := hs.whole.single place type label label₂ hheld hentry hentry₂
      exact ⟨label₂, (Table.get?_congr _ hsame).symm.trans hentry', hentry₂'⟩

/-- Something is kept under every key of a node that responses lead to. -/
theorem Complete.entry (hs : Complete c s) {label : Label} (h : Files c label.key node) :
    ∃ type, Table.get? s.outputs label = some type := by
  suffices hkept : ∃ q type, q.key = label.key ∧ Table.get? s.outputs q = some type by
    obtain ⟨q, type, hkey, hentry⟩ := hkept
    exact ⟨type, (Table.get?_congr _ ((Label.beq_iff q label).mpr hkey)).symm.trans hentry⟩
  generalize hkey : label.key = key at h
  cases h with
  | @kept text _ touched =>
      obtain ⟨type, -, hentry⟩ := hs.settled hschemas hnames touched
      exact ⟨.ofText text, type, rfl, hentry text rfl⟩
  | own touched key =>
      obtain ⟨type, hsettled, -⟩ := hs.settled hschemas hnames touched
      cases key with
      | object shape labelled =>
          cases hsettled with
          | object shape' labelled' entry =>
              obtain rfl := Option.some.inj (labelled.symm.trans labelled')
              exact ⟨_, _, rfl, entry⟩
          | _ shape' => simp [shape] at shape'
      | enumeration shape registered =>
          cases hsettled with
          | enumeration shape' found items members named usable entry =>
              have hmade := hs.whole.coherent.name_of_strict hs.whole.strict named
              obtain rfl := Option.some.inj (registered.symm.trans hmade)
              exact ⟨_, _, rfl, entry⟩
          | _ shape' => simp [shape] at shape'

theorem Complete.outputs_alike (hs : Complete c s) (hs' : Complete c s') (label : Label) :
    Option.Rel (Option.Rel (RefAlike (Matched s s'))) (Table.get? s.outputs label)
      (Table.get? s'.outputs label) := by
  cases hentry : Table.get? s.outputs label with
  | some type =>
      obtain ⟨node, hfiles, hsettled⟩ := hs.whole.entries label type hentry
      obtain ⟨type', hentry'⟩ := hs'.entry hschemas hnames hfiles
      have hsettled' := hs'.whole.settled hschemas hnames hfiles hentry'
      rw [hentry']
      exact .some (hsettled.alike (hs.whole.namedAlike hs'.whole) hsettled')
  | none =>
      cases hentry' : Table.get? s'.outputs label with
      | none => exact .none
      | some type' =>
          obtain ⟨node, hfiles, -⟩ := hs'.whole.entries label type' hentry'
          obtain ⟨type, hkept⟩ := hs.entry hschemas hnames hfiles
          rw [hentry] at hkept
          cases hkept

theorem Complete.exists_matched (hs : Complete c s) (hs' : Complete c s') {place : Nat}
    {type : NamedType} (hheld : s.types[place]? = some type) :
    ∃ place', Matched s s' place place' := by
  obtain ⟨label, hentry⟩ := hs.whole.kept place type hheld
  have halike := hs.outputs_alike hschemas hnames hs' label
  rw [hentry] at halike
  generalize hentry' : Table.get? s'.outputs label = found at halike
  cases halike with
  | some halike =>
      cases halike with
      | some halike =>
          cases halike with
          | named related => exact ⟨_, related⟩

/-- Two complete states have the same types. -/
theorem Complete.sameTypes (hs : Complete c s) (hs' : Complete c s') :
    SameTypes (Matched s s') s s' where
  left place type hheld := hs.exists_matched hschemas hnames hs' hheld
  right place' type' hheld := by
    obtain ⟨place, hmatched⟩ := hs'.exists_matched hschemas hnames hs hheld
    exact ⟨place, hmatched.symm⟩
  functional place place' other' h h' := h.functional hschemas hnames hs hs' h'
  injective place other place' h h' := h.symm.functional hschemas hnames hs' hs h'.symm
  alike place place' h := h.alike hschemas hnames hs hs'
  outputs := hs.outputs_alike hschemas hnames hs'

end Agreeing

end Comparison

/-! ## Runs -/

section Runs

variable {c : Catalog} {s : State} (hschemas : SchemasAgree c) (hnames : NamesAgree c)
include hschemas hnames

theorem translateEach_gives (hs : Whole c s) {links : Table String (Table String Link)}
    (hlinks : ∀ name, (Table.get? links name).getD [] = []) {names : List String}
    (htouched : ∀ name ∈ names,
      Touched c (some name) ⟨.output, .text name, c.schema .output name⟩) :
    Gives c (IsTooDeep c) s (translateEach c links names) fun _ s' =>
      ∀ name ∈ names, ∃ type, Table.get? s'.outputs (.ofText name) = some type := by
  induction names generalizing s with
  | nil => exact .pure (by simp)
  | cons name names ih =>
      obtain ⟨hname, hrest⟩ := List.forall_mem_cons.mp htouched
      unfold translateEach
      rw [hlinks]
      refine .bind (translate_gives hschemas hnames hs hname 0) ?_
      rintro type s₁ h₁ hsettled
      have hs₁ := h₁.whole hs
      refine .bind (keepType_gives hschemas hnames hs₁ (.kept hname) hsettled) ?_
      rintro - s₂ h₂ hentry
      refine (ih (h₂.whole hs₁) hrest).weaken ?_
      intro _ s₃ h₃ hentries
      exact List.forall_mem_cons.mpr ⟨⟨type, h₃.onward.entries _ _ hentry⟩, hentries⟩

theorem forceAll_gives (hs : Whole c s) (places : List Nat) :
    Gives c (IsUnresolved c) s (forceAll c places) fun _ _ => True := by
  induction places generalizing s with
  | nil => exact .pure trivial
  | cons place places ih =>
      refine .bind (fieldsAt_gives hschemas hnames hs place) ?_
      rintro fields s₁ h₁ -
      exact ih (h₁.whole hs)

/-- After the responses were translated the state is whole, and something is kept for each of
them. -/
theorem translateResponses_whole (hlinks : ∀ o ∈ c.operations.map Prod.snd, o.links = [])
    (hs : Whole c s) :
    Ensures (Later c) s (translateResponses c) fun _ s' =>
      ∀ o ∈ c.operations.map Prod.snd, ∀ name, o.response = some name →
        ∃ type, Table.get? s'.outputs (.ofText name) = some type := by
  have hnone : Table.Distinct ([] : Table String (Table String Link)) := List.nodup_nil
  obtain ⟨-, hkeys⟩ := keys_responseLinks hnone (c.operations.map Prod.snd)
  have hunlinked : ∀ name,
      (Table.get? (responseLinks [] (c.operations.map Prod.snd)) name).getD [] = [] := by
    intro name
    have hempty : linksTo (c.operations.map Prod.snd) name = [] := by
      refine List.flatMap_eq_nil_iff.mpr fun o ho => hlinks o ?_
      exact (List.mem_filter.mp ho).1
    rw [get?_responseLinks, hempty]
    rfl
  refine .bind_liftExcept fun ordered hordered => ?_
  refine (translateEach_gives hschemas hnames hs hunlinked fun name hname => ?_).ensures.weaken ?_
  · rcases (hkeys name).mp (mem_of_mem_objectsFirst hordered hname) with hmem | ⟨o, ho, hreturns⟩
    · cases hmem
    · exact .response ho hreturns
  · intro _ s' _ hentries o ho name hreturns
    exact hentries name (mem_objectsFirst hordered ((hkeys name).mpr (.inr ⟨o, ho, hreturns⟩)))

/-- When all fields were found, the state is complete. -/
theorem complete_of_forceAll (hs : Whole c s)
    (hresponses : ∀ o ∈ c.operations.map Prod.snd, ∀ name, o.response = some name →
      ∃ type, Table.get? s.outputs (.ofText name) = some type)
    {places : List Nat} {s' : State} (hrun : (forceAll c places).run s = (.ok (), s'))
    (hopened : s'.Opened) : Complete c s' ∧ Target c s s' := by
  obtain ⟨hlater, -⟩ := (forceAll_gives hschemas hnames hs places).ensures.of_ok hrun
  have hcomplete : Complete c s' := by
    refine ⟨hlater.whole hs, hopened, fun o ho name hreturns => ?_⟩
    obtain ⟨type, hentry⟩ := hresponses o ho name hreturns
    exact ⟨type, hlater.onward.entries _ _ hentry⟩
  exact ⟨hcomplete, hcomplete, hlater.onward.grows.named⟩

end Runs

/-- After the responses of a description without links were translated with strict names, the
fields of all types can be asked for in different orders. Let equal keys mean equal schemas and
names that read alike. If one order finds all fields, then every other one fails with nothing but
that some translation was too deep. And if it finds all fields too, then both orders give the
same types up to their places. -/
theorem types_of_every_schedule {config : Config} {fetches : Bool} {document : Value} {c : Catalog}
    {s : State} (h : ofDocument config fetches document translateResponses = (.ok (c, ()), s))
    (hstrict : config.strictNames = true)
    (hlinks : ∀ o ∈ c.operations.map Prod.snd, o.links = []) (hschemas : SchemasAgree c)
    (hnames : NamesAgree c) {one : List Nat} {s₁ : State}
    (hone : (forceAll c one).run s = (.ok (), s₁)) (hopened : s₁.Opened) (other : List Nat) :
    (∀ f s₂, (forceAll c other).run s = (.error f, s₂) →
      ∃ type name, f = .unresolvedFields type (.tooDeep name c.config.limit)) ∧
    ∀ s₂, (forceAll c other).run s = (.ok (), s₂) → s₂.Opened → ∃ r, SameTypes r s₁ s₂ := by
  obtain ⟨log, -, hrun⟩ := run_of_ofDocument h
  have hstart : Whole c (atStart config log) := by
    refine whole_of_no_types ?_ rfl rfl
    simp [atStart, State.empty, hstrict]
  obtain ⟨hlater, hresponses⟩ :=
    (translateResponses_whole hschemas hnames hlinks hstart).of_ok hrun
  have hs := hlater.whole hstart
  obtain ⟨hcomplete, htarget⟩ :=
    complete_of_forceAll hschemas hnames hs hresponses hone hopened
  refine ⟨fun f s₂ hother => ?_, fun s₂ hother hopened₂ => ?_⟩
  · exact (forceAll_gives hschemas hnames hs other).fails f (by rw [hother]) s₁ htarget
  · obtain ⟨hcomplete₂, -⟩ :=
      complete_of_forceAll hschemas hnames hs hresponses hother hopened₂
    exact ⟨_, hcomplete.sameTypes hschemas hnames hcomplete₂⟩

/-! ### Leaves near and deep

A leaf that is found from the near side has one level more under it than one that is found in the
stem.
-/

def strictly (limit : Nat) : Config :=
  { (default : Config) with strictNames := true, limit := ⟨limit, false⟩ }

def referenceTo (name : String) : Value := .map [("$ref", .text ("#/components/schemas/" ++ name))]

/-- A description of some definitions, some of which are those of responses. -/
def respondingWith (definitions : List (String × Value)) (names : List String) : Value :=
  .map [("openapi", .text "3.0.0"), ("components", .map [("schemas", .map definitions)]),
    ("paths", .map (names.map fun name => ("/" ++ name,
      getOperation ("get" ++ name) [("content", jsonContent (referenceTo name))])))]

/-- The definitions of a catalog with what its operations respond with. -/
def offers (c : Catalog) : Table String Value × List (Option String × Table String Link) :=
  (c.outputs, (c.operations.map Prod.snd).map fun o => (o.response, o.links))

/-- The operations respond with some of the definitions and have no links. -/
structure Offers (c : Catalog) (definitions : Table String Value) (names : List String) :
    Prop where
  outputs : c.outputs = definitions
  responses : ∀ o ∈ c.operations.map Prod.snd, ∃ name ∈ names, o.response = some name
  unlinked : ∀ o ∈ c.operations.map Prod.snd, o.links = []

theorem offers_of_ofDocument {config : Config} {document : Value} {c : Catalog} {s : State}
    (h : ofDocument config true document translateResponses = (.ok (c, ()), s))
    {definitions : Table String Value} {names : List String}
    (hoffers : (Catalog.ofDocument config true document).1.toOption.map offers =
      some (definitions, names.map fun name => (some name, []))) : Offers c definitions names := by
  obtain ⟨log, hread, -⟩ := run_of_ofDocument h
  rw [hread] at hoffers
  obtain ⟨houtputs, hoperations⟩ := Prod.mk.inj (Option.some.inj hoffers)
  have hall : ∀ o ∈ c.operations.map Prod.snd,
      ∃ name ∈ names, (some name, []) = (o.response, o.links) := by
    intro o ho
    have hmem : (o.response, o.links) ∈ names.map fun name => (some name, []) :=
      hoperations ▸ List.mem_map_of_mem (f := fun o : Operation => (o.response, o.links)) ho
    exact List.mem_map.mp hmem
  refine ⟨houtputs, fun o ho => ?_, fun o ho => ?_⟩
  · obtain ⟨name, hname, heq⟩ := hall o ho
    exact ⟨name, hname, (Prod.mk.inj heq).1.symm⟩
  · obtain ⟨name, -, heq⟩ := hall o ho
    exact (Prod.mk.inj heq).2.symm

/-- A catalog of definitions for outputs alone. -/
def defining (definitions : Table String Value) : Catalog :=
  { Catalog.empty default true with outputs := definitions }

/-- The nodes that responses lead to are among some that can be computed from the definitions. -/
theorem Offers.mem {c : Catalog} {definitions : Table String Value} {names : List String}
    (hc : Offers c definitions names) {nodes : List Node}
    (hresponses : ∀ name ∈ names,
      ⟨.output, .text name, (Table.get? definitions name).getD .null⟩ ∈ nodes)
    (hclosed : nodes.flatMap (successors (defining definitions)) ⊆ nodes) (kept : Option String)
    (node : Node) (h : Touched c kept node) : node ∈ nodes := by
  have hsame : successors c = successors (defining definitions) := successors_congr hc.outputs
  refine h.mem (fun o ho name hname => ?_) (hsame ▸ hclosed)
  obtain ⟨name', hmem, hname'⟩ := hc.responses o ho
  obtain rfl := Option.some.inj (hname.symm.trans hname')
  obtain rfl := hc.outputs
  exact hresponses name hmem

/-- The schema of the node of a name. -/
def schemaAmong (nodes : List Node) (name : Option String) : Value :=
  (Table.get? (nodes.map fun node => (node.name.plain, node.schema)) (name.getD "")).getD .null

def State.isOpened (s : State) : Bool :=
  s.types.toList.all fun
    | .composite type => type.fields?.isSome
    | .enumeration _ => true

theorem State.opened_of_isOpened {s : State} (h : s.isOpened = true) : s.Opened := by
  intro place type hheld hnone
  have hmem : NamedType.composite type ∈ s.types.toList :=
    (Array.mem_of_getElem? hheld).val
  have hfound := List.all_eq_true.mp h _ hmem
  simp [hnone] at hfound

/-- Whether the fields of all types were found after some were asked for, and the failure if there
was one. -/
def outcome (c : Catalog) (s : State) (places : List Nat) : Bool × Option String :=
  let (result, s') := (forceAll c places).run s
  (s'.isOpened, match result with
    | .ok () => none
    | .error f => some f.message)

section Outcome

variable {c : Catalog} {s : State} {places : List Nat}

theorem forceAll_of_outcome (h : outcome c s places = (true, none)) :
    ∃ s', (forceAll c places).run s = (.ok (), s') ∧ s'.Opened := by
  cases hrun : (forceAll c places).run s with
  | mk result s' =>
      simp only [outcome, hrun, Prod.mk.injEq] at h
      obtain ⟨hopened, hmessage⟩ := h
      cases result with
      | ok => exact ⟨s', rfl, State.opened_of_isOpened hopened⟩
      | error f => cases hmessage

theorem forceAll_fails_of_outcome {opened : Bool} {message : String}
    (h : outcome c s places = (opened, some message)) :
    ∃ f s', (forceAll c places).run s = (.error f, s') ∧ f.message = message := by
  cases hrun : (forceAll c places).run s with
  | mk result s' =>
      simp only [outcome, hrun, Prod.mk.injEq] at h
      obtain ⟨-, hmessage⟩ := h
      cases result with
      | ok => cases hmessage
      | error f => exact ⟨f, s', rfl, Option.some.inj hmessage⟩

end Outcome

def leafDefinitions : List (String × Value) :=
  [("Near", withProperty "leaf" (referenceTo "Leaf")),
    ("Deep", withProperty "stem" (withProperty "leaf" (referenceTo "Leaf"))),
    ("Leaf", withProperty "name" textSchema)]

def leafDocument : Value := respondingWith leafDefinitions ["Near", "Deep"]

def leafNodes : List Node :=
  [⟨.output, .text "Near", withProperty "leaf" (referenceTo "Leaf")⟩,
    ⟨.output, .text "Deep", withProperty "stem" (withProperty "leaf" (referenceTo "Leaf"))⟩,
    ⟨.output, .text "Leaf", withProperty "name" textSchema⟩,
    ⟨.output, .text "stem", withProperty "leaf" (referenceTo "Leaf")⟩,
    ⟨.output, .text "name", textSchema⟩]

theorem offers_leafDocument (limit : Nat) :
    (Catalog.ofDocument (strictly limit) true leafDocument).1.toOption.map offers =
      some (leafDefinitions, ["Near", "Deep"].map fun name => (some name, [])) := by
  rfl

theorem mem_leafNodes {c : Catalog} (hc : Offers c leafDefinitions ["Near", "Deep"])
    (kept : Option String) (node : Node) (h : Touched c kept node) : node ∈ leafNodes := by
  refine hc.mem ?_ ?_ kept node h
  · simp only [List.forall_mem_cons]
    exact ⟨.head _, .tail _ (.head _), nofun⟩
  · have hnext : leafNodes.flatMap (successors (defining leafDefinitions)) =
        [leafNodes[2], leafNodes[3], leafNodes[4], leafNodes[2]] := rfl
    rw [hnext]
    simp [leafNodes]

theorem schemasAgree_of_leaves {c : Catalog} (hc : Offers c leafDefinitions ["Near", "Deep"]) :
    SchemasAgree c := by
  refine schemasAgree_of_nodes (mem_leafNodes hc) ?_ (schemaAmong leafNodes) ?_ <;>
    simp only [leafNodes, List.forall_mem_cons] <;>
    exact ⟨rfl, rfl, rfl, rfl, rfl, nofun⟩

theorem namesAgree_of_leaves {c : Catalog} (hc : Offers c leafDefinitions ["Near", "Deep"]) :
    NamesAgree c := by
  refine namesAgree_of_nodes (mem_leafNodes hc) ?_ ?_ <;>
    simp only [leafNodes, List.forall_mem_cons] <;>
    exact ⟨rfl, rfl, rfl, rfl, rfl, nofun⟩

theorem outcomes_of_leaves :
    (translated? (ofDocument (strictly 20) true leafDocument translateResponses)).map
      (fun built => (outcome built.1 built.2 [0, 1, 2, 3], outcome built.1 built.2 [1, 2, 0, 3])) =
    some ((true, none), (true, none)) := by
  decide +kernel

/-- With enough levels both orders find all fields and give the same types. -/
theorem types_of_near_and_deep :
    ∃ c s s₁ s₂, ofDocument (strictly 20) true leafDocument translateResponses = (.ok (c, ()), s) ∧
      (∀ o ∈ c.operations.map Prod.snd, o.links = []) ∧ SchemasAgree c ∧ NamesAgree c ∧
      (forceAll c [0, 1, 2, 3]).run s = (.ok (), s₁) ∧ s₁.Opened ∧
      (forceAll c [1, 2, 0, 3]).run s = (.ok (), s₂) ∧ s₂.Opened ∧ ∃ r, SameTypes r s₁ s₂ := by
  obtain ⟨⟨c, s⟩, hbuilt, hfacts⟩ := Option.map_eq_some_iff.mp outcomes_of_leaves
  have h := of_translated? hbuilt
  have hc := offers_of_ofDocument h (offers_leafDocument 20)
  obtain ⟨hnear, hdeep⟩ := Prod.mk.inj hfacts
  obtain ⟨s₁, hone, hopened⟩ := forceAll_of_outcome hnear
  obtain ⟨s₂, hother, hopened₂⟩ := forceAll_of_outcome hdeep
  have hschemas := schemasAgree_of_leaves hc
  have hnames := namesAgree_of_leaves hc
  refine ⟨c, s, s₁, s₂, h, hc.unlinked, hschemas, hnames, hone, hopened, hother, hopened₂, ?_⟩
  exact (types_of_every_schedule h rfl hc.unlinked hschemas hnames hone hopened _).2 s₂ hother
    hopened₂

/-! ### Orders that fail

With few levels the leaf under the stem is one level too deep for its name. And where an
enumeration is found under a name that another one reads as, its name is taken when the other one
came first, but the other one is kept under it when it comes later.
-/

def skyDefinitions : List (String × Value) :=
  [("Palette", withProperty "sky-blue" colorSchema),
    ("Paint", withProperty "color" (referenceTo "skyBlue")), ("skyBlue", colorSchema)]

def skyDocument : Value := respondingWith skyDefinitions ["Palette", "Paint"]

def skyNodes : List Node :=
  [⟨.output, .text "Palette", withProperty "sky-blue" colorSchema⟩,
    ⟨.output, .text "Paint", withProperty "color" (referenceTo "skyBlue")⟩,
    ⟨.output, .text "sky-blue", colorSchema⟩, ⟨.output, .text "skyBlue", colorSchema⟩]

theorem offers_skyDocument :
    (Catalog.ofDocument (strictly 20) true skyDocument).1.toOption.map offers =
      some (skyDefinitions, ["Palette", "Paint"].map fun name => (some name, [])) := by
  rfl

theorem mem_skyNodes {c : Catalog} (hc : Offers c skyDefinitions ["Palette", "Paint"])
    (kept : Option String) (node : Node) (h : Touched c kept node) : node ∈ skyNodes := by
  refine hc.mem ?_ ?_ kept node h
  · simp only [List.forall_mem_cons]
    exact ⟨.head _, .tail _ (.head _), nofun⟩
  · have hnext : skyNodes.flatMap (successors (defining skyDefinitions)) =
        [skyNodes[2], skyNodes[3]] := rfl
    rw [hnext]
    simp [skyNodes]

theorem schemasAgree_of_sky {c : Catalog} (hc : Offers c skyDefinitions ["Palette", "Paint"]) :
    SchemasAgree c := by
  refine schemasAgree_of_nodes (mem_skyNodes hc) ?_ (schemaAmong skyNodes) ?_ <;>
    simp only [skyNodes, List.forall_mem_cons] <;>
    exact ⟨rfl, rfl, rfl, rfl, nofun⟩

/-- Equal keys mean equal schemas, but one order finds the fields of all types, each once, where
another one fails with a message. -/
def Differs (config : Config) (document : Value) (one other : List Nat) (message : String) : Prop :=
  ∃ c s s₁ f s₂, config.strictNames = true ∧
    ofDocument config true document translateResponses = (.ok (c, ()), s) ∧
    (∀ o ∈ c.operations.map Prod.snd, o.links = []) ∧ SchemasAgree c ∧
    (forceAll c one).run s = (.ok (), s₁) ∧ s₁.Opened ∧ one.Nodup ∧ other.Perm one ∧
    (forceAll c other).run s = (.error f, s₂) ∧ f.message = message

theorem differs_of_outcomes {config : Config} {document : Value} {definitions : Table String Value}
    {names : List String} {one other : List Nat} {opened : Bool} {message : String}
    (hstrict : config.strictNames = true)
    (hoffers : (Catalog.ofDocument config true document).1.toOption.map offers =
      some (definitions, names.map fun name => (some name, [])))
    (hschemas : ∀ c, Offers c definitions names → SchemasAgree c)
    (houtcomes : (translated? (ofDocument config true document translateResponses)).map
      (fun built => (outcome built.1 built.2 one, outcome built.1 built.2 other)) =
      some ((true, none), (opened, some message)))
    (honce : one.Nodup) (hother : other.Perm one) :
    Differs config document one other message := by
  obtain ⟨⟨c, s⟩, hbuilt, hfacts⟩ := Option.map_eq_some_iff.mp houtcomes
  have h := of_translated? hbuilt
  have hc := offers_of_ofDocument h hoffers
  obtain ⟨hnear, hdeep⟩ := Prod.mk.inj hfacts
  obtain ⟨s₁, hone, hopened⟩ := forceAll_of_outcome hnear
  obtain ⟨f, s₂, hfails, hmessage⟩ := forceAll_fails_of_outcome hdeep
  exact ⟨c, s, s₁, f, s₂, hstrict, h, hc.unlinked, hschemas c hc, hone, hopened, honce, hother,
    hfails, hmessage⟩

def deepLeafMessage : String :=
  "Leaf fields cannot be resolved. Too many iterations when creating schema `name` (limit: 3)"

theorem outcomes_of_deep_leaves :
    (translated? (ofDocument (strictly 3) true leafDocument translateResponses)).map
      (fun built => (outcome built.1 built.2 [0, 1, 2, 3], outcome built.1 built.2 [1, 2, 0, 3])) =
    some ((true, none), (false, some deepLeafMessage)) := by
  decide +kernel

def skyMessage : String :=
  "Palette fields cannot be resolved. Sanitized name `skyBlue` for `sky-blue` " ++
    "is already used by `skyBlue`"

theorem outcomes_of_sky :
    (translated? (ofDocument (strictly 20) true skyDocument translateResponses)).map
      (fun built => (outcome built.1 built.2 [0, 1], outcome built.1 built.2 [1, 0])) =
    some ((true, none), (false, some skyMessage)) := by
  decide +kernel

/-- The order decides whether all fields are found, by the limit as well as by a name. -/
theorem order_decides_success :
    Differs (strictly 3) leafDocument [0, 1, 2, 3] [1, 2, 0, 3] deepLeafMessage ∧
    Differs (strictly 20) skyDocument [0, 1] [1, 0] skyMessage := by
  constructor
  · exact differs_of_outcomes rfl (offers_leafDocument 3) (fun _ => schemasAgree_of_leaves)
      outcomes_of_deep_leaves (by decide) (by decide)
  · exact differs_of_outcomes rfl offers_skyDocument (fun _ => schemasAgree_of_sky)
      outcomes_of_sky (by decide) (by decide)

end RestGraph.Graph
