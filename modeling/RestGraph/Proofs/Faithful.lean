import RestGraph.Proofs.Frame
import RestGraph.Proofs.Node
import RestGraph.Proofs.Table

namespace RestGraph.Graph

/-!
# What types are made from

A state is faithful if every type in it was made from a node that its keys belong to. The
types made so far stay as they are; later on only the fields of composite types are added.
-/

/-! ## Growth of states -/

/-- What a type may become later: its fields are found once and never lost. -/
inductive NamedType.Becomes : NamedType → NamedType → Prop
  | enumeration (e : Enumeration) : Becomes (.enumeration e) (.enumeration e)
  | composite {type type' : Composite} (name : type'.name = type.name)
      (description : type'.description = type.description) (plan : type'.plan = type.plan)
      (fields : ∀ fields, type.fields? = some fields → type'.fields? = some fields) :
      Becomes (.composite type) (.composite type')

theorem NamedType.Becomes.refl (type : NamedType) : type.Becomes type := by
  cases type with
  | composite type => exact .composite rfl rfl rfl fun _ h => h
  | enumeration e => exact .enumeration e

theorem NamedType.Becomes.trans {type type' type'' : NamedType} (h : type.Becomes type')
    (h' : type'.Becomes type'') : type.Becomes type'' := by
  cases h with
  | enumeration e => exact h'
  | composite name description plan fields =>
      cases h' with
      | composite name' description' plan' fields' =>
          exact .composite (name'.trans name) (description'.trans description)
            (plan'.trans plan) fun found hfound => fields' found (fields found hfound)

/-- The later state has all types of the earlier one, some with more fields found. -/
structure Extends (s s' : State) : Prop where
  names : NamesGrow s s'
  types : ∀ (place : Nat) (type : NamedType), s.types[place]? = some type →
    ∃ type', s'.types[place]? = some type' ∧ type.Becomes type'

theorem Extends.refl (s : State) : Extends s s :=
  ⟨refl_of NamesGrow s, fun _ type h => ⟨type, h, .refl type⟩⟩

theorem Extends.trans {s s' s'' : State} (h : Extends s s') (h' : Extends s' s'') :
    Extends s s'' where
  names := trans_of NamesGrow h.names h'.names
  types place type hplace := by
    obtain ⟨type', hplace', hbecomes⟩ := h.types place type hplace
    obtain ⟨type'', hplace'', hbecomes'⟩ := h'.types place type' hplace'
    exact ⟨type'', hplace'', hbecomes.trans hbecomes'⟩

/-- A composite type stays one, with its plan and with the fields that were found. -/
theorem Extends.composite {s s' : State} (h : Extends s s') {place : Nat} {type : Composite}
    (hheld : s.types[place]? = some (.composite type)) :
    ∃ type' : Composite, s'.types[place]? = some (.composite type') ∧ type'.plan = type.plan ∧
      ∀ fields, type.fields? = some fields → type'.fields? = some fields := by
  obtain ⟨type', hheld', hbecomes⟩ := h.types place _ hheld
  cases hbecomes with
  | composite name description plan fields => exact ⟨_, hheld', plan, fields⟩

theorem Extends.enumeration {s s' : State} (h : Extends s s') {place : Nat} {e : Enumeration}
    (hheld : s.types[place]? = some (.enumeration e)) :
    s'.types[place]? = some (.enumeration e) := by
  obtain ⟨type', hheld', hbecomes⟩ := h.types place _ hheld
  cases hbecomes with
  | enumeration => exact hheld'

structure Adds (s s' : State) : Prop where
  names : NamesGrow s s'
  types : ∀ (place : Nat) (type : NamedType),
    s.types[place]? = some type → s'.types[place]? = some type

theorem Adds.extends {s s' : State} (h : Adds s s') : Extends s s' where
  names := h.names
  types place type hplace := ⟨type, h.types place type hplace, .refl type⟩

theorem getElem?_push_of_some {types : Array NamedType} {place : Nat} {type new : NamedType}
    (h : types[place]? = some type) : (types.push new)[place]? = some type := by
  have hlt : place < types.size := (Array.getElem?_eq_some_iff.mp h).1
  rw [Array.getElem?_push, if_neg (Nat.ne_of_lt hlt), h]

instance : Build.TypeFrame Adds where
  refl s := ⟨refl_of NamesGrow s, fun _ _ h => h⟩
  trans _ _ _ h h' :=
    ⟨trans_of NamesGrow h.names h'.names, fun p t hp => h'.types p t (h.types p t hp)⟩
  log s log := ⟨Build.NameFrame.log s log, fun _ _ h => h⟩
  store s text name names log hstore :=
    ⟨Build.NameFrame.store s text name names log hstore, fun _ _ h => h⟩
  addType s type := ⟨Build.TypeFrame.addType s type, fun _ _ h => getElem?_push_of_some h⟩
  setCached s mode key type :=
    ⟨Build.TypeFrame.setCached s mode key type, fun _ _ h => by cases mode <;> exact h⟩

/-! ## Types and their nodes -/

def State.Named (s : State) (text name : String) : Prop := s.names.name? text = some name

/-- The name of the member of a literal that can be written. -/
def writtenName (v : Value) : String := memberOf v.plain

section Made

variable (c : Catalog) (given : Node → Prop)

/-- The type, if any, was made from the node, or from another one that shares a key with
it. -/
inductive Made (s : State) : Node → Option TypeRef → Prop
  | scalar {mode : Mode} {name : Value} {ms : Schema.Members}
      (shape : Schema.shape? ms = some .scalar) : Made s ⟨mode, name, .map ms⟩ (scalarType ms)
  | emptyObject {mode : Mode} {name : Value} {ms : Schema.Members}
      (shape : Schema.shape? ms = some .emptyObject) : Made s ⟨mode, name, .map ms⟩ none
  | object {mode : Mode} {name : Value} {ms : Schema.Members} {label : Label} {text : String}
      {place : Nat} {type : Composite} (shape : Schema.shape? ms = some .object)
      (labelled : name.label? = some label) (typeName : typeText mode name = .ok text)
      (named : s.Named text type.name) (held : s.types[place]? = some (.composite type))
      (schema : type.plan.schema = ms) (sameMode : type.plan.mode = mode)
      (described : type.description = (Value.memberOr ms "description" .null).text?) :
      Made s ⟨mode, name, .map ms⟩ (some (.named place))
  | enumeration {mode : Mode} {name : Value} {ms : Schema.Members} {literals : Value}
      {vs : List Value} {place : Nat} {e : Enumeration}
      (shape : Schema.shape? ms = some .enumeration) (entry : Table.get? ms "enum" = some literals)
      (items : literals.iterate = .ok vs) (members : membersFrom e.name [] vs = .ok e.members)
      (named : s.Named name.plain e.name) (held : s.types[place]? = some (.enumeration e)) :
      Made s ⟨mode, name, .map ms⟩ (some (.named place))
  | array {mode : Mode} {name items : Value} {ms : Schema.Members} {node : Node}
      {item : Option TypeRef} (shape : Schema.shape? ms = some .array)
      (entry : Table.get? ms "items" = some items)
      (slot : Slot c given s.Named mode (itemsLabel name items) items node)
      (made : Made s node item) : Made s ⟨mode, name, .map ms⟩ (item.map .list)
  | shared {ns : Mode} {key : Key} {node other : Node} {type : Option TypeRef}
      (filed : Filed c given s.Named ns key node) (filed' : Filed c given s.Named ns key other)
      (made : Made s other type) : Made s node type

def ownField (mode : Mode) (required : List String) (p : String × Value) (fieldName : String)
    (type : TypeRef) : Field :=
  let description := ((p.2.member? "description").getD .null).text?
  match mode with
  | .input => ⟨type.whenRequired (required.contains p.1), description, [], none⟩
  | .output =>
      ⟨type, description, [], if fieldName == p.1 then none else some (.property p.1)⟩

/-- The fields were made from the properties in order, one for each that has a type. -/
inductive FieldsMade (s : State) (mode : Mode) (required : List String) :
    List (String × Value) → List (String × Field) → Prop
  | nil : FieldsMade s mode required [] []
  | skip {p : String × Value} {ps : List (String × Value)} {fields : List (String × Field)}
      {node : Node} (slot : Slot c given s.Named mode (.text p.1) p.2 node)
      (made : Made c given s node none) (rest : FieldsMade s mode required ps fields) :
      FieldsMade s mode required (p :: ps) fields
  | keep {p : String × Value} {ps : List (String × Value)} {fields : List (String × Field)}
      {node : Node} {type : TypeRef} {fieldName : String}
      (slot : Slot c given s.Named mode (.text p.1) p.2 node)
      (made : Made c given s node (some type)) (named : s.Named p.1 fieldName)
      (rest : FieldsMade s mode required ps fields) :
      FieldsMade s mode required (p :: ps)
        ((fieldName, ownField mode required p fieldName type) :: fields)

/-- The fields were found by a plan: those of its properties and then those of its links. -/
def Filled (s : State) (plan : Plan) (fields : Table String Field) : Prop :=
  ∃ required ps own links, requiredNames plan.schema = .ok required ∧
    properties plan.schema = .ok ps ∧ FieldsMade c given s plan.mode required ps own ∧
    fields = Table.ofList (own ++ links) ∧ (plan.links = [] → links = [])

/-- The type has the contents of the node itself: the fields that are found are those of its
properties, or the members are those of its literals. -/
inductive Own (s : State) : Node → Option TypeRef → Prop
  | object {mode : Mode} {name : Value} {ms : Schema.Members} {place : Nat} {type : Composite}
      (shape : Schema.shape? ms = some .object) (held : s.types[place]? = some (.composite type))
      (schema : type.plan.schema = ms) (sameMode : type.plan.mode = mode)
      (filled : ∀ fields, type.fields? = some fields → Filled c given s type.plan fields) :
      Own s ⟨mode, name, .map ms⟩ (some (.named place))
  | enumeration {mode : Mode} {name : Value} {ms : Schema.Members} {literals : Value}
      {vs : List Value} {place : Nat} {e : Enumeration}
      (shape : Schema.shape? ms = some .enumeration) (entry : Table.get? ms "enum" = some literals)
      (items : literals.iterate = .ok vs) (held : s.types[place]? = some (.enumeration e))
      (members : e.members = vs.map fun v => (writtenName v, v)) :
      Own s ⟨mode, name, .map ms⟩ (some (.named place))

/-- All that a state has was made from nodes of the description. Unless `linked` holds, no
composite type has links. -/
structure Faithful (linked : Prop) (s : State) : Prop where
  coherent : s.names.Coherent
  entries : ∀ (mode : Mode) (label : Label) (type : Option TypeRef),
    Table.get? (s.cache mode) label = some type →
      ∃ node, Filed c given s.Named mode label.key node ∧ Made c given s node type
  composites : ∀ (place : Nat) (type : Composite),
    s.types[place]? = some (.composite type) →
      (∃ name, Known c given ⟨type.plan.mode, name, .map type.plan.schema⟩) ∧
      Schema.shape? type.plan.schema = some .object ∧ (type.plan.links = [] ∨ linked) ∧
      ∀ fields, type.fields? = some fields → Filled c given s type.plan fields

end Made

section Laws

variable {c : Catalog} {given : Node → Prop} {linked : Prop} {s s' : State}

theorem Extends.named (h : Extends s s') :
    ∀ text name, s.Named text name → s'.Named text name := h.names.1.name

theorem Extends.filed (h : Extends s s') : ∀ ns key node,
    Filed c given s.Named ns key node → Filed c given s'.Named ns key node :=
  fun _ _ _ hfiled => hfiled.mono h.named

theorem Made.mono (h : Extends s s') {node : Node} {type : Option TypeRef}
    (hmade : Made c given s node type) : Made c given s' node type := by
  induction hmade with
  | scalar shape => exact .scalar shape
  | emptyObject shape => exact .emptyObject shape
  | object shape labelled typeName named held schema sameMode described =>
      obtain ⟨type', hheld, hbecomes⟩ := h.types _ _ held
      cases hbecomes with
      | composite hname hdescription hplan hfields =>
          exact .object shape labelled typeName (hname ▸ h.named _ _ named) hheld
            (hplan ▸ schema) (hplan ▸ sameMode) (hdescription.trans described)
  | enumeration shape entry items members named held =>
      obtain ⟨type', hheld, hbecomes⟩ := h.types _ _ held
      cases hbecomes with
      | enumeration =>
          exact .enumeration shape entry items members (h.named _ _ named) hheld
  | array shape entry slot _ ih => exact .array shape entry (slot.mono h.filed) ih
  | shared filed filed' _ ih => exact .shared (h.filed _ _ _ filed) (h.filed _ _ _ filed') ih

theorem FieldsMade.mono (h : Extends s s') {mode : Mode} {required : List String}
    {ps : List (String × Value)} {fields : List (String × Field)}
    (hmade : FieldsMade c given s mode required ps fields) :
    FieldsMade c given s' mode required ps fields := by
  induction hmade with
  | nil => exact .nil
  | skip slot made _ ih => exact .skip (slot.mono h.filed) (made.mono h) ih
  | keep slot made named _ ih =>
      exact .keep (slot.mono h.filed) (made.mono h) (h.named _ _ named) ih

theorem Filled.mono (h : Extends s s') {plan : Plan} {fields : Table String Field}
    (hfilled : Filled c given s plan fields) : Filled c given s' plan fields := by
  obtain ⟨required, ps, own, links, hrequired, hps, hown, hfields, hlinks⟩ := hfilled
  exact ⟨required, ps, own, links, hrequired, hps, hown.mono h, hfields, hlinks⟩

/-- Contents stay what they are: fields that are found later are those of the plan. -/
theorem Own.later (h : Extends s s') (hs' : Faithful c given linked s') {node : Node}
    {type : Option TypeRef} (hown : Own c given s node type) : Own c given s' node type := by
  cases hown with
  | object shape held schema sameMode filled =>
      obtain ⟨type', hheld, hbecomes⟩ := h.types _ _ held
      cases hbecomes with
      | composite hname hdescription hplan hfields =>
          exact .object shape hheld (hplan ▸ schema) (hplan ▸ sameMode)
            (hs'.composites _ _ hheld).2.2.2
  | enumeration shape entry items held members =>
      obtain ⟨type', hheld, hbecomes⟩ := h.types _ _ held
      cases hbecomes with
      | enumeration => exact .enumeration shape entry items hheld members

theorem memberName_of_isWritable {v : Value} (h : v.isWritable = true) :
    memberName v = .ok (writtenName v) := by
  rw [memberName, Value.written_of_isWritable h]
  rfl

theorem memberName_of_not_isWritable {v : Value} (h : v.isWritable = false) :
    memberName v = .error .badContent := by
  rw [memberName, Value.written, if_neg (by simp [h])]
  rfl

/-- How one literal goes on: it cannot be written, its name is taken, or it gets a member. -/
theorem membersFrom_cons (name : String) (found : Table String Value) (v : Value)
    (vs : List Value) :
    membersFrom name found (v :: vs) =
      if v.isWritable then
        match Table.get? found (writtenName v) with
        | some first => .error (.enumClash name first v (writtenName v))
        | none => membersFrom name (Table.insert found (writtenName v) v) vs
      else .error (.malformed .badContent) := by
  rw [membersFrom]
  by_cases h : v.isWritable = true
  · rw [memberName_of_isWritable h, if_pos h]
    rfl
  · rw [memberName_of_not_isWritable (by simpa using h), if_neg h]
    rfl

theorem members_of_membersFrom {name : String} {found members : Table String Value}
    {vs : List Value} (h : membersFrom name found vs = .ok members) :
    members = found ++ vs.map fun v => (writtenName v, v) := by
  induction vs generalizing found with
  | nil => simpa [membersFrom] using (Except.ok.inj h).symm
  | cons v vs ih =>
      rw [membersFrom_cons] at h
      split at h
      · split at h
        · cases h
        · rename_i hnew
          rw [ih h, Table.insert_of_not_mem (Table.get?_eq_none_iff.mp hnew)]
          simp
      · cases h

theorem faithful_empty (strict : Bool) : Faithful c given linked (.empty strict) where
  coherent := Name.Registry.coherent_empty strict
  entries mode label type h := by cases mode <;> cases h
  composites place type h := by simp [State.empty] at h

theorem get?_cache_setCached (s : State) (mode ns : Mode) (label q : Label)
    (type : Option TypeRef) :
    Table.get? ((s.setCached mode label type).cache ns) q =
      if mode = ns ∧ (label == q) = true then some type else Table.get? (s.cache ns) q := by
  cases mode <;> cases ns <;> simp [State.setCached, State.cache]

theorem Faithful.entry_later (hs : Faithful c given linked s) (h : Extends s s') {mode : Mode}
    {label : Label} {type : Option TypeRef}
    (hentry : Table.get? (s.cache mode) label = some type) :
    ∃ node, Filed c given s'.Named mode label.key node ∧ Made c given s' node type := by
  obtain ⟨node, hfiled, hmade⟩ := hs.entries mode label type hentry
  exact ⟨node, h.filed _ _ _ hfiled, hmade.mono h⟩

theorem Faithful.composite_later (hs : Faithful c given linked s) (h : Extends s s') {place : Nat}
    {type : Composite} (hplace : s.types[place]? = some (.composite type)) :
    (∃ name, Known c given ⟨type.plan.mode, name, .map type.plan.schema⟩) ∧
      Schema.shape? type.plan.schema = some .object ∧ (type.plan.links = [] ∨ linked) ∧
      ∀ fields, type.fields? = some fields → Filled c given s' type.plan fields := by
  obtain ⟨hknown, hshape, hlinks, hfields⟩ := hs.composites place type hplace
  exact ⟨hknown, hshape, hlinks, fun fields hf => (hfields fields hf).mono h⟩

theorem Faithful.names (hs : Faithful c given linked s) (h : Extends s s')
    (hcache : ∀ mode, s'.cache mode = s.cache mode) (htypes : s'.types = s.types) :
    Faithful c given linked s' where
  coherent := h.names.2 hs.coherent
  entries mode label type hentry := by
    rw [hcache] at hentry
    exact hs.entry_later h hentry
  composites place type hplace := by
    rw [htypes] at hplace
    exact hs.composite_later h hplace

theorem Faithful.addType (hs : Faithful c given linked s) (new : NamedType)
    (hnew : ∀ type, new = .composite type →
      (∃ name, Known c given ⟨type.plan.mode, name, .map type.plan.schema⟩) ∧
      Schema.shape? type.plan.schema = some .object ∧ (type.plan.links = [] ∨ linked) ∧
      type.fields? = none) : Faithful c given linked { s with types := s.types.push new } := by
  have h : Adds s { s with types := s.types.push new } := Build.TypeFrame.addType s new
  refine ⟨hs.coherent, ?_, ?_⟩
  · intro mode label type hentry
    have hold : Table.get? (s.cache mode) label = some type := by cases mode <;> exact hentry
    exact hs.entry_later h.extends hold
  · intro place type hplace
    rw [Array.getElem?_push] at hplace
    split at hplace
    · obtain ⟨hknown, hshape, hlinks, hnone⟩ := hnew type (Option.some.inj hplace)
      refine ⟨hknown, hshape, hlinks, fun fields hf => ?_⟩
      rw [hnone] at hf
      cases hf
    · exact hs.composite_later h.extends hplace

theorem Faithful.setCached (hs : Faithful c given linked s) {mode : Mode} {label : Label}
    {node : Node} {type : Option TypeRef} (hfiled : Filed c given s.Named mode label.key node)
    (hmade : Made c given s node type) : Faithful c given linked (s.setCached mode label type) := by
  have h : Adds s (s.setCached mode label type) := Build.TypeFrame.setCached s mode label type
  refine ⟨h.names.2 hs.coherent, ?_, ?_⟩
  · intro ns q t hentry
    rw [get?_cache_setCached] at hentry
    split at hentry
    · rename_i hkey
      obtain ⟨rfl, hlabel⟩ := hkey
      obtain rfl := Option.some.inj hentry
      rw [← (Label.beq_iff _ _).mp hlabel]
      exact ⟨node, h.extends.filed _ _ _ hfiled, hmade.mono h.extends⟩
    · exact hs.entry_later h.extends hentry
  · intro place t hplace
    have hold : s.types[place]? = some (.composite t) := by cases mode <;> exact hplace
    exact hs.composite_later h.extends hold

theorem getElem?_keepFields {types : Array NamedType} {place : Nat} {type : Composite}
    (hplace : types[place]? = some (.composite type)) (new : NamedType) (q : Nat) :
    (types.setIfInBounds place new)[q]? = if place = q then some new else types[q]? := by
  have hlt : place < types.size := (Array.getElem?_eq_some_iff.mp hplace).1
  rw [Array.getElem?_setIfInBounds]
  by_cases hq : place = q
  · simp [hq, hq ▸ hlt]
  · simp [hq]

theorem extends_keepFields {place : Nat} {type : Composite}
    (hplace : s.types[place]? = some (.composite type)) (hnone : type.fields? = none)
    (fields : Table String Field) :
    Extends s { s with
      types := s.types.setIfInBounds place (.composite { type with fields? := some fields }) } := by
  refine ⟨refl_of NamesGrow s, fun q t hq => ?_⟩
  rw [getElem?_keepFields hplace]
  by_cases hsame : place = q
  · subst hsame
    rw [hplace] at hq
    obtain rfl := Option.some.inj hq
    rw [if_pos rfl]
    refine ⟨_, rfl, .composite rfl rfl rfl fun found hfound => ?_⟩
    rw [hnone] at hfound
    cases hfound
  · rw [if_neg hsame]
    exact ⟨t, hq, .refl t⟩

theorem Faithful.keepFields (hs : Faithful c given linked s) {place : Nat} {type : Composite}
    (hplace : s.types[place]? = some (.composite type)) (hnone : type.fields? = none)
    {fields : Table String Field} (hfilled : Filled c given s type.plan fields) :
    let s' := { s with
      types := s.types.setIfInBounds place (.composite { type with fields? := some fields }) }
    Extends s s' ∧ Faithful c given linked s' := by
  intro s'
  have h : Extends s s' := extends_keepFields hplace hnone fields
  refine ⟨h, hs.coherent, ?_, ?_⟩
  · intro mode label t hentry
    have hold : Table.get? (s.cache mode) label = some t := by cases mode <;> exact hentry
    exact hs.entry_later h hold
  · intro q t hq
    rw [getElem?_keepFields hplace] at hq
    split at hq
    · obtain ⟨hknown, hshape, hlinks, -⟩ := hs.composites place type hplace
      obtain rfl := NamedType.composite.inj (Option.some.inj hq)
      refine ⟨hknown, hshape, hlinks, fun found hfound => ?_⟩
      obtain rfl := Option.some.inj hfound
      exact hfilled.mono h
    · exact hs.composite_later h hq

end Laws

/-! ## Steps that keep a state faithful -/

/-- Nothing that is there is changed, and a faithful state stays faithful. -/
def Steady (c : Catalog) (given : Node → Prop) (linked : Prop) (s s' : State) : Prop :=
  Adds s s' ∧ (Faithful c given linked s → Faithful c given linked s')

instance (c : Catalog) (given : Node → Prop) (linked : Prop) :
    Build.NameFrame (Steady c given linked) where
  refl s := ⟨refl_of Adds s, id⟩
  trans _ _ _ h h' := ⟨trans_of Adds h.1 h'.1, h'.2 ∘ h.2⟩
  log s log := by
    have h : Adds s { s with log := log } := Build.NameFrame.log s log
    exact ⟨h, fun hs => hs.names h.extends (fun mode => by cases mode <;> rfl) rfl⟩
  store s text name names log hstore := by
    have h : Adds s { s with names := names, log := log } :=
      Build.NameFrame.store s text name names log hstore
    exact ⟨h, fun hs => hs.names h.extends (fun mode => by cases mode <;> rfl) rfl⟩

end RestGraph.Graph
