import RestGraph.Proofs.Reference
import RestGraph.Proofs.Touched

namespace RestGraph.Graph

/-!
# Settled types

A type is settled for a node of an output when all that the translation of the node would look up
or check is in the state already. What a state settles stays settled as the state grows, and nodes
that are kept under one key, with schemas that are equal and names that read alike, share it.
-/

/-! ## What is settled -/

/-- The name passes the check of type names. -/
def Usable (name : String) : Prop :=
  reservedNames.contains name = false ∧ Name.illegal? name = none

/-- The value passes the check of descriptions. -/
def Describes (v : Value) : Prop := v = .null ∨ ∃ text, v = .text text

/-- The type is settled for the node: it is kept under the key of the node, if it has one, it is
the one that a translation would make, and its name, its description and its literals pass all
checks. The same goes for the items of an array. -/
inductive Settled (c : Catalog) (s : State) : Node → Option TypeRef → Prop
  | scalar {name : Value} {ms : Schema.Members} (shape : Schema.shape? ms = some .scalar) :
      Settled c s ⟨.output, name, .map ms⟩ (scalarType ms)
  | emptyObject {name : Value} {ms : Schema.Members}
      (shape : Schema.shape? ms = some .emptyObject) : Settled c s ⟨.output, name, .map ms⟩ none
  | object {name : Value} {ms : Schema.Members} {label : Label} {place : Nat} {type : Composite}
      {iteration : Int} (shape : Schema.shape? ms = some .object)
      (labelled : name.label? = some label)
      (entry : Table.get? s.outputs label = some (some (.named place)))
      (held : s.types[place]? = some (.composite type))
      (plan : type.plan = ⟨ms, [], .output, iteration⟩) (named : s.Named name.plain type.name)
      (usable : Usable type.name) (describes : Describes (Value.memberOr ms "description" .null))
      (described : type.description = (Value.memberOr ms "description" .null).text?) :
      Settled c s ⟨.output, name, .map ms⟩ (some (.named place))
  | enumeration {name literals : Value} {ms : Schema.Members} {vs : List Value} {place : Nat}
      {e : Enumeration} (shape : Schema.shape? ms = some .enumeration)
      (found : Table.get? ms "enum" = some literals) (items : literals.iterate = .ok vs)
      (members : membersFrom e.name [] vs = .ok e.members)
      (named : s.Named name.plain e.name) (usable : Usable e.name)
      (entry : Table.get? s.outputs (.ofText e.name) = some (some (.named place)))
      (held : s.types[place]? = some (.enumeration e)) :
      Settled c s ⟨.output, name, .map ms⟩ (some (.named place))
  | array {name items : Value} {ms : Schema.Members} {kept : Option String} {node : Node}
      {item : Option TypeRef} (shape : Schema.shape? ms = some .array)
      (found : Table.get? ms "items" = some items)
      (leads : Leads c (itemsLabel name items) items kept node)
      (entry : ∀ text, kept = some text → Table.get? s.outputs (.ofText text) = some item)
      (settled : Settled c s node item) : Settled c s ⟨.output, name, .map ms⟩ (item.map .list)

/-- The type is settled for what a schema within another one leads to. -/
inductive SettledWithin (c : Catalog) (s : State) (name schema : Value) (type : Option TypeRef) :
    Prop
  | intro {kept : Option String} {node : Node} (leads : Leads c name schema kept node)
      (entry : ∀ text, kept = some text → Table.get? s.outputs (.ofText text) = some type)
      (settled : Settled c s node type) : SettledWithin c s name schema type

theorem SettledWithin.own {c : Catalog} {s : State} {name schema : Value} {type : Option TypeRef}
    (hown : Schema.target? schema = none) (h : Settled c s ⟨.output, name, schema⟩ type) :
    SettledWithin c s name schema type := by
  refine .intro (.own hown) ?_ h
  rintro text ⟨⟩

/-- A property with a schema of its own does not stand in the way of a definition where that is
refused. -/
def Allowed (c : Catalog) (p : String × Value) : Prop :=
  Schema.target? p.2 = none → c.defines p.1 = true → c.config.failOnCollision = false

/-- The fields are settled for the properties in order, one for each that has a type. -/
inductive FieldsSettled (c : Catalog) (s : State) (required : List String) :
    List (String × Value) → List (String × Field) → Prop
  | nil : FieldsSettled c s required [] []
  | skip {p : String × Value} {ps : List (String × Value)} {fields : List (String × Field)}
      (allowed : Allowed c p) (settled : SettledWithin c s (.text p.1) p.2 none)
      (rest : FieldsSettled c s required ps fields) : FieldsSettled c s required (p :: ps) fields
  | keep {p : String × Value} {ps : List (String × Value)} {fields : List (String × Field)}
      {type : TypeRef} {fieldName : String} (allowed : Allowed c p)
      (settled : SettledWithin c s (.text p.1) p.2 (some type)) (named : s.Named p.1 fieldName)
      (describes : Describes ((p.2.member? "description").getD .null))
      (rest : FieldsSettled c s required ps fields) :
      FieldsSettled c s required (p :: ps)
        ((fieldName, ownField .output required p fieldName type) :: fields)

/-- The fields are settled for the properties of a schema. -/
def Fills (c : Catalog) (s : State) (ms : Schema.Members) (fields : Table String Field) : Prop :=
  ∃ required ps own, requiredNames ms = .ok required ∧ properties ms = .ok ps ∧
    FieldsSettled c s required ps own ∧ fields = Table.ofList own

/-- The later state has all that the earlier one has, each entry of the outputs included. -/
structure Onward (s s' : State) : Prop where
  grows : Extends s s'
  entries : ∀ label type, Table.get? s.outputs label = some type →
    Table.get? s'.outputs label = some type

theorem Onward.refl (s : State) : Onward s s := ⟨.refl s, fun _ _ h => h⟩

theorem Onward.trans {s s' s'' : State} (h : Onward s s') (h' : Onward s' s'') : Onward s s'' :=
  ⟨h.grows.trans h'.grows, fun label type hentry => h'.entries _ _ (h.entries label type hentry)⟩

section Laws

variable {c : Catalog} {s s' : State} {node other : Node} {type type' : Option TypeRef}

theorem Settled.array_of_within {name items : Value} {ms : Schema.Members}
    (hshape : Schema.shape? ms = some .array) (hfound : Table.get? ms "items" = some items)
    (h : SettledWithin c s (itemsLabel name items) items type) :
    Settled c s ⟨.output, name, .map ms⟩ (type.map .list) := by
  obtain ⟨leads, entry, settled⟩ := h
  exact .array hshape hfound leads entry settled

theorem Settled.isMap (h : Settled c s node type) : ∃ ms shape, node.schema = .map ms ∧
    Schema.shape? ms = some shape := by
  cases h with
  | _ shape => exact ⟨_, _, rfl, shape⟩

theorem Settled.mono (h : Onward s s') (hsettled : Settled c s node type) :
    Settled c s' node type := by
  induction hsettled with
  | scalar shape => exact .scalar shape
  | emptyObject shape => exact .emptyObject shape
  | object shape labelled entry held plan named usable describes described =>
      obtain ⟨type', hheld, hbecomes⟩ := h.grows.types _ _ held
      cases hbecomes with
      | composite hname hdescription hplan hfields =>
          refine .object shape labelled (h.entries _ _ entry) hheld (hplan.trans plan) ?_ ?_
            describes (hdescription.trans described)
          · rw [hname]
            exact h.grows.named _ _ named
          · rw [hname]
            exact usable
  | enumeration shape found items members named usable entry held =>
      exact .enumeration shape found items members (h.grows.named _ _ named) usable
        (h.entries _ _ entry) (h.grows.enumeration held)
  | array shape found leads entry _ ih =>
      exact .array shape found leads (fun text htext => h.entries _ _ (entry text htext)) ih

theorem SettledWithin.mono {name schema : Value} (h : Onward s s')
    (hsettled : SettledWithin c s name schema type) : SettledWithin c s' name schema type := by
  obtain ⟨leads, entry, settled⟩ := hsettled
  exact ⟨leads, fun text htext => h.entries _ _ (entry text htext), settled.mono h⟩

theorem FieldsSettled.mono {required : List String} {ps : List (String × Value)}
    {fields : List (String × Field)} (h : Onward s s')
    (hsettled : FieldsSettled c s required ps fields) : FieldsSettled c s' required ps fields := by
  induction hsettled with
  | nil => exact .nil
  | skip allowed settled _ ih => exact .skip allowed (settled.mono h) ih
  | keep allowed settled named describes _ ih =>
      exact .keep allowed (settled.mono h) (h.grows.named _ _ named) describes ih

theorem Fills.mono {ms : Schema.Members} {fields : Table String Field} (h : Onward s s')
    (hfills : Fills c s ms fields) : Fills c s' ms fields := by
  obtain ⟨required, ps, own, hrequired, hps, hown, hfields⟩ := hfills
  exact ⟨required, ps, own, hrequired, hps, hown.mono h, hfields⟩

/-! ## Two states compared -/

/-- Types that differ in places only, which are related. -/
inductive RefAlike (r : Nat → Nat → Prop) : TypeRef → TypeRef → Prop
  | scalar (t : Scalar) : RefAlike r (.scalar t) (.scalar t)
  | named {place place' : Nat} (related : r place place') :
      RefAlike r (.named place) (.named place')
  | list {t t' : TypeRef} (item : RefAlike r t t') : RefAlike r (.list t) (.list t')
  | nonNull {t t' : TypeRef} (inner : RefAlike r t t') : RefAlike r (.nonNull t) (.nonNull t')

/-- Two states keep the types at the places under one key. -/
def Matched (s s' : State) (place place' : Nat) : Prop :=
  ∃ label, Table.get? s.outputs label = some (some (.named place)) ∧
    Table.get? s'.outputs label = some (some (.named place'))

/-- Two states have no different names for a text. -/
def NamedAlike (s s' : State) : Prop :=
  ∀ text name name', s.Named text name → s'.Named text name' → name = name'

theorem RefAlike.eq {t t' : TypeRef} (h : RefAlike (Matched s s) t t') : t = t' := by
  induction h with
  | scalar => rfl
  | named related =>
      obtain ⟨label, hentry, hentry'⟩ := related
      exact Option.some.inj (Option.some.inj (hentry.symm.trans hentry'))
  | list _ ih => rw [ih]
  | nonNull _ ih => rw [ih]

theorem scalarType_alike (r : Nat → Nat → Prop) (ms : Schema.Members) :
    Option.Rel (RefAlike r) (scalarType ms) (scalarType ms) := by
  unfold scalarType
  cases (Schema.declaredType? ms).bind Scalar.ofType? with
  | none => exact .none
  | some t => exact .some (.scalar t)

/-- The types that two states settle for a node differ in places only. -/
theorem Settled.alike (hnames : NamedAlike s s') (h : Settled c s node type)
    (h' : Settled c s' node type') : Option.Rel (RefAlike (Matched s s')) type type' := by
  induction h generalizing type' with
  | scalar shape =>
      cases h' with
      | scalar => exact scalarType_alike _ _
      | _ shape' => simp [shape] at shape'
  | emptyObject shape =>
      cases h' with
      | emptyObject => exact .none
      | _ shape' => simp [shape] at shape'
  | object shape labelled entry =>
      cases h' with
      | object shape' labelled' entry' =>
          obtain rfl := Option.some.inj (labelled.symm.trans labelled')
          exact .some (.named ⟨_, entry, entry'⟩)
      | _ shape' => simp [shape] at shape'
  | enumeration shape found items members named usable entry =>
      cases h' with
      | enumeration shape' found' items' members' named' usable' entry' =>
          rw [← hnames _ _ _ named named'] at entry'
          exact .some (.named ⟨_, entry, entry'⟩)
      | _ shape' => simp [shape] at shape'
  | array shape found leads _ _ ih =>
      cases h' with
      | array shape' found' leads' _ settled' =>
          obtain rfl := Option.some.inj (found.symm.trans found')
          obtain ⟨rfl, rfl⟩ := leads.unique leads'
          cases ih settled' with
          | none => exact .none
          | some item => exact .some (.list item)
      | _ shape' => simp [shape] at shape'

theorem SettledWithin.alike {name schema : Value} (hnames : NamedAlike s s')
    (h : SettledWithin c s name schema type) (h' : SettledWithin c s' name schema type') :
    Option.Rel (RefAlike (Matched s s')) type type' := by
  obtain ⟨leads, -, settled⟩ := h
  obtain ⟨leads', -, settled'⟩ := h'
  obtain ⟨rfl, rfl⟩ := leads.unique leads'
  exact settled.alike hnames settled'

theorem namedAlike_self (s : State) : NamedAlike s s := fun _ _ _ hname hname' =>
  Option.some.inj (hname.symm.trans hname')

/-- A state settles one type at most for a node. -/
theorem Settled.unique (h : Settled c s node type) (h' : Settled c s node type') :
    type = type' := by
  cases h.alike (namedAlike_self s) h' with
  | none => rfl
  | some t => rw [t.eq]

/-! ## Nodes of one key -/

theorem itemsLabel_congr {name name' : Value} (items : Value) (h : name.plain = name'.plain) :
    itemsLabel name items = itemsLabel name' items := by
  unfold itemsLabel
  rw [h]

/-- What is settled for one node of a key is settled for all of them. -/
theorem Settled.share (hschemas : SchemasAgree c) (hnames : NamesAgree c) {key : Key}
    (h : Files c key node) (h' : Files c key other) (hsettled : Settled c s other type) :
    Settled c s node type := by
  have hschema := hschemas key node other h h'
  have hname := hnames key node other h h'
  obtain ⟨kept, htouched⟩ := h.touched
  obtain ⟨mode, name, schema⟩ := node
  obtain rfl : mode = .output := htouched.mode
  cases hsettled with
  | scalar shape =>
      obtain rfl : schema = _ := hschema
      exact .scalar shape
  | emptyObject shape =>
      obtain rfl : schema = _ := hschema
      exact .emptyObject shape
  | object shape labelled entry held plan named usable describes described =>
      obtain rfl : schema = _ := hschema
      obtain ⟨label, hlabel, hkey⟩ := h.label rfl shape
      obtain ⟨label', hlabel', hkey'⟩ := h'.label rfl shape
      obtain rfl := Option.some.inj (labelled.symm.trans hlabel')
      have hsame := (Label.beq_iff _ _).mpr (hkey'.trans hkey.symm)
      rw [Table.get?_congr _ hsame] at entry
      rw [← show name.plain = _ from hname] at named
      exact .object shape hlabel entry held plan named usable describes described
  | enumeration shape found items members named usable entry held =>
      obtain rfl : schema = _ := hschema
      rw [← show name.plain = _ from hname] at named
      exact .enumeration shape found items members named usable entry held
  | @array _ items _ _ _ _ shape found leads entry settled =>
      obtain rfl : schema = _ := hschema
      have hlabel : itemsLabel name items = _ :=
        itemsLabel_congr items (show name.plain = _ from hname)
      exact .array shape found (hlabel ▸ leads) entry settled

end Laws

end RestGraph.Graph
