import Mathlib.Logic.Relation
import RestGraph.Proofs.Faithful

namespace RestGraph.Graph

open Build

/-!
# Elementary changes

Translation changes a state in five ways only: it writes the log, stores a name, adds an
object or an enumeration under a key that is free, and files a definition. What holds
across each of these changes holds across every translation, in any order.
-/

/-- The nodes that a translation can meet. A property whose name is that of a definition is
not met when such names are refused. -/
inductive Met (c : Catalog) (given : Node → Prop) : Node → Prop
  | definition {mode : Mode} {key : String} {schema : Value}
      (defined : Table.get? (c.schemas mode) key = some schema) :
      Met c given ⟨mode, .text key, schema⟩
  | given {node : Node} (h : given node) : Met c given node
  | property {mode : Mode} {name : Value} {s : Schema.Members} {ps : List (String × Value)}
      {p : String × Value} (met : Met c given ⟨mode, name, .map s⟩)
      (shape : Schema.shape? s = some .object) (found : properties s = .ok ps) (mem : p ∈ ps)
      (own : Schema.target? p.2 = none)
      (allowed : c.defines p.1 = true → c.config.failOnCollision = false) :
      Met c given ⟨mode, .text p.1, p.2⟩
  | items {mode : Mode} {name items : Value} {s : Schema.Members}
      (met : Met c given ⟨mode, name, .map s⟩) (shape : Schema.shape? s = some .array)
      (found : Table.get? s "items" = some items) (own : Schema.target? items = none) :
      Met c given ⟨mode, itemsLabel name items, items⟩

theorem Met.known {c : Catalog} {given : Node → Prop} {node : Node} (h : Met c given node) :
    Known c given node := by
  induction h with
  | definition defined => exact .definition defined
  | given h => exact .given h
  | property _ shape found mem own _ ih => exact .property ih shape found mem own
  | items _ shape found own ih => exact .items ih shape found own

/-! ## Reading types off the caches -/

/-- The type of a node as it stands in the caches of a state. -/
inductive Reads (s : State) : Node → Option TypeRef → Prop
  | object {mode : Mode} {name : Value} {ms : Schema.Members} {label : Label}
      {type : Option TypeRef} (shape : Schema.shape? ms = some .object)
      (labelled : name.label? = some label)
      (entry : Table.get? (s.cache mode) label = some type) : Reads s ⟨mode, name, .map ms⟩ type
  | enumeration {mode : Mode} {name : Value} {ms : Schema.Members} {key : String}
      {type : TypeRef} (shape : Schema.shape? ms = some .enumeration)
      (named : s.Named name.plain key) (entry : s.output? (.ofText key) = some type) :
      Reads s ⟨mode, name, .map ms⟩ (some type)
  | emptyObject {mode : Mode} {name : Value} {ms : Schema.Members}
      (shape : Schema.shape? ms = some .emptyObject) : Reads s ⟨mode, name, .map ms⟩ none
  | scalar {mode : Mode} {name : Value} {ms : Schema.Members}
      (shape : Schema.shape? ms = some .scalar) : Reads s ⟨mode, name, .map ms⟩ (scalarType ms)
  | references {mode : Mode} {name items target : Value} {ms : Schema.Members} {text : String}
      {item : Option TypeRef} (shape : Schema.shape? ms = some .array)
      (found : Table.get? ms "items" = some items) (refers : Schema.target? items = some target)
      (leads : Schema.referenceName target = .ok text)
      (entry : Table.get? (s.cache mode) (.ofText (referenceKey mode text)) = some item) :
      Reads s ⟨mode, name, .map ms⟩ (item.map .list)
  | items {mode : Mode} {name items : Value} {ms : Schema.Members} {item : Option TypeRef}
      (shape : Schema.shape? ms = some .array) (found : Table.get? ms "items" = some items)
      (own : Schema.target? items = none)
      (read : Reads s ⟨mode, itemsLabel name items, items⟩ item) :
      Reads s ⟨mode, name, .map ms⟩ (item.map .list)

/-- The type of a schema that stands within another one, as it stands in the caches. -/
inductive SlotReads (s : State) (mode : Mode) (name schema : Value) : Option TypeRef → Prop
  | reference {target : Value} {text : String} {type : Option TypeRef}
      (refers : Schema.target? schema = some target)
      (leads : Schema.referenceName target = .ok text)
      (entry : Table.get? (s.cache mode) (.ofText (referenceKey mode text)) = some type) :
      SlotReads s mode name schema type
  | own {type : Option TypeRef} (own : Schema.target? schema = none)
      (read : Reads s ⟨mode, name, schema⟩ type) : SlotReads s mode name schema type

section Reading

variable {s : State} {mode : Mode} {name : Value} {type : Option TypeRef}

theorem Reads.isMap {node : Node} (h : Reads s node type) : ∃ ms, node.schema = .map ms := by
  cases h <;> exact ⟨_, rfl⟩

theorem SlotReads.array {ms : Schema.Members} {items : Value} {item : Option TypeRef}
    (h : SlotReads s mode (itemsLabel name items) items item)
    (hshape : Schema.shape? ms = some .array) (hfound : Table.get? ms "items" = some items) :
    Reads s ⟨mode, name, .map ms⟩ (item.map .list) := by
  cases h with
  | reference refers leads entry => exact .references hshape hfound refers leads entry
  | own own read => exact .items hshape hfound own read

theorem Reads.entry_of_object {ms : Schema.Members} {label : Label}
    (h : Reads s ⟨mode, name, .map ms⟩ type) (hshape : Schema.shape? ms = some .object)
    (hlabel : name.label? = some label) : Table.get? (s.cache mode) label = some type := by
  cases h with
  | object shape labelled entry =>
      obtain rfl := Option.some.inj (labelled.symm.trans hlabel)
      exact entry
  | _ => simp_all

end Reading

/-! ## Changes -/

/-- The members are those of the literals that a schema lists, in order. -/
def Enumeration.ListedBy (e : Enumeration) (ms : Schema.Members) : Prop :=
  ∃ literals vs, Table.get? ms "enum" = some literals ∧ literals.iterate = .ok vs ∧
    e.members = vs.map fun v => (writtenName v, v)

/-- The state with one more type, which is filed under a key. -/
def State.fileType (s : State) (type : NamedType) (mode : Mode) (label : Label) : State :=
  { s with types := s.types.push type }.setCached mode label (some (.named s.types.size))

inductive Change (c : Catalog) (given : Node → Prop) : State → State → Prop
  | log (s : State) (log : List Record) : Change c given s { s with log := log }
  | store {s : State} {text name : String} {names : Name.Registry}
      (stored : s.names.store text = .ok (name, names)) (log : List Record) :
      Change c given s { s with names := names, log := log }
  | object {s : State} {name : Value} {label : Label} {text : String} {type : Composite}
      (met : Met c given ⟨type.plan.mode, name, .map type.plan.schema⟩)
      (shape : Schema.shape? type.plan.schema = some .object)
      (labelled : name.label? = some label)
      (free : Table.get? (s.cache type.plan.mode) label = none)
      (typeName : typeText type.plan.mode name = .ok text) (named : s.Named text type.name)
      (unopened : type.fields? = none) :
      Change c given s (s.fileType (.composite type) type.plan.mode label)
  | enumeration {s : State} {mode : Mode} {name : Value} {ms : Schema.Members} {e : Enumeration}
      (met : Met c given ⟨mode, name, .map ms⟩)
      (shape : Schema.shape? ms = some .enumeration) (named : s.Named name.plain e.name)
      (free : s.output? (.ofText e.name) = none) (listed : e.ListedBy ms) :
      Change c given s (s.fileType (.enumeration e) .output (.ofText e.name))
  | definition {s : State} {mode : Mode} {key : String} {schema : Value}
      {type : Option TypeRef} (defined : Table.get? (c.schemas mode) key = some schema)
      (read : Reads s ⟨mode, .text key, schema⟩ type) :
      Change c given s (s.setCached mode (.ofText key) type)

/-- The later state arises from the earlier one by elementary changes. -/
def Evolves (c : Catalog) (given : Node → Prop) : State → State → Prop :=
  Relation.ReflTransGen (Change c given)

/-- All names of the state are among some. -/
def State.NamedWithin (s : State) (named : String → String → Prop) : Prop :=
  ∀ text name, s.Named text name → named text name

section Laws

variable {c : Catalog} {given : Node → Prop} {s s' : State}

instance : NameFrame (Evolves c given) where
  refl _ := .refl
  trans _ _ _ h h' := Relation.ReflTransGen.trans h h'
  log s log := .single (.log s log)
  store _ _ _ _ log stored := .single (.store stored log)

@[simp] theorem types_setCached (s : State) (mode : Mode) (label : Label)
    (type : Option TypeRef) : (s.setCached mode label type).types = s.types := by
  cases mode <;> rfl

@[simp] theorem names_setCached (s : State) (mode : Mode) (label : Label)
    (type : Option TypeRef) : (s.setCached mode label type).names = s.names := by
  cases mode <;> rfl

@[simp] theorem types_fileType (s : State) (type : NamedType) (mode : Mode) (label : Label) :
    (s.fileType type mode label).types = s.types.push type := by
  simp [State.fileType]

@[simp] theorem names_fileType (s : State) (type : NamedType) (mode : Mode) (label : Label) :
    (s.fileType type mode label).names = s.names := by
  simp [State.fileType]

theorem get?_cache_fileType (s : State) (type : NamedType) (mode ns : Mode) (label q : Label) :
    Table.get? ((s.fileType type mode label).cache ns) q =
      if mode = ns ∧ (label == q) = true then some (some (.named s.types.size))
        else Table.get? (s.cache ns) q := by
  unfold State.fileType
  rw [get?_cache_setCached]
  cases ns <;> rfl

/-- Every change leaves the types as they are or adds one at the end. -/
theorem Change.adds (h : Change c given s s') : Adds s s' := by
  cases h with
  | log log => exact NameFrame.log s log
  | store stored log => exact NameFrame.store s _ _ _ log stored
  | object => exact trans_of Adds (TypeFrame.addType s _) (TypeFrame.setCached _ _ _ _)
  | enumeration => exact trans_of Adds (TypeFrame.addType s _) (TypeFrame.setCached _ _ _ _)
  | definition => exact TypeFrame.setCached s _ _ _

theorem Evolves.adds (h : Evolves c given s s') : Adds s s' := by
  induction h with
  | refl => exact refl_of Adds s
  | tail _ step ih => exact trans_of Adds ih step.adds

theorem State.NamedWithin.of_extends {named : String → String → Prop}
    (h : s'.NamedWithin named) (hx : Extends s s') : s.NamedWithin named :=
  fun text name hname => h text name (hx.named text name hname)

/-- What every change keeps is kept by all of them in any order. What is kept may depend on
all the names that there will be in the end. -/
theorem Evolves.invariant {P : State → Prop} {named : String → String → Prop}
    (hstep : ∀ s s', Change c given s s' → s'.NamedWithin named → P s → P s')
    (h : Evolves c given s s') (hnamed : s'.NamedWithin named) (hs : P s) : P s' := by
  induction h with
  | refl => exact hs
  | tail _ step ih =>
      exact hstep _ _ step hnamed (ih (hnamed.of_extends step.adds.extends))

end Laws

end RestGraph.Graph
