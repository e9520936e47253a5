import RestGraph.Graph.Field
import RestGraph.Proofs.Label

namespace RestGraph.Graph

/-!
# The nodes of a description

A node is a schema together with the name that its type would get and the mode. Types are
filed under keys that are shared by the whole description, so that two nodes of one key may
end up with one type. What a node stands for is found by following references.
-/

structure Node where
  mode : Mode
  name : Value
  schema : Value

def itemsLabel (name items : Value) : Value :=
  match items with
  | .map s =>
      Value.memberOr s "title"
        (if Schema.shape? s = some .enumeration then .text (name.plain ++ "Items")
          else .text itemsName)
  | _ => .text itemsName

/-- The nodes of a description: its definitions and those given, with all schemas in them
that are no references. -/
inductive Known (c : Catalog) (given : Node → Prop) : Node → Prop
  | definition {mode : Mode} {key : String} {schema : Value}
      (defined : Table.get? (c.schemas mode) key = some schema) :
      Known c given ⟨mode, .text key, schema⟩
  | given {node : Node} (h : given node) : Known c given node
  | property {mode : Mode} {name : Value} {s : Schema.Members} {ps : List (String × Value)}
      {p : String × Value} (known : Known c given ⟨mode, name, .map s⟩)
      (shape : Schema.shape? s = some .object) (found : properties s = .ok ps) (mem : p ∈ ps)
      (own : Schema.target? p.2 = none) : Known c given ⟨mode, .text p.1, p.2⟩
  | items {mode : Mode} {name items : Value} {s : Schema.Members}
      (known : Known c given ⟨mode, name, .map s⟩) (shape : Schema.shape? s = some .array)
      (found : Table.get? s "items" = some items) (own : Schema.target? items = none) :
      Known c given ⟨mode, itemsLabel name items, items⟩

/-- The key under which the type of a node is kept when it is made: that of an object in its
own mode, that of an enumeration among the outputs, under the name that is registered for
its own. -/
inductive KeyOf (named : String → String → Prop) : Node → Mode → Label → Prop
  | object {mode : Mode} {name : Value} {s : Schema.Members} {label : Label}
      (shape : Schema.shape? s = some .object) (labelled : name.label? = some label) :
      KeyOf named ⟨mode, name, .map s⟩ mode label
  | enumeration {mode : Mode} {name : Value} {s : Schema.Members} {key : String}
      (shape : Schema.shape? s = some .enumeration) (registered : named name.plain key) :
      KeyOf named ⟨mode, name, .map s⟩ .output (.ofText key)

/-- All keys of a node: its own, and its name if it is a definition. -/
inductive Filed (c : Catalog) (given : Node → Prop) (named : String → String → Prop) :
    Mode → Key → Node → Prop
  | own {ns : Mode} {label : Label} {node : Node} (known : Known c given node)
      (key : KeyOf named node ns label) : Filed c given named ns label.key node
  | definition {mode : Mode} {key : String} {schema : Value}
      (defined : Table.get? (c.schemas mode) key = some schema) :
      Filed c given named mode (.text key) ⟨mode, .text key, schema⟩

/-- The node that a reference to a name leads to: the definition of the name. A name without
a definition may still be the key of other nodes, and leads to these. -/
inductive Refers (c : Catalog) (given : Node → Prop) (named : String → String → Prop)
    (mode : Mode) (name : String) : Node → Prop
  | definition {schema : Value}
      (defined : Table.get? (c.schemas mode) (referenceKey mode name) = some schema) :
      Refers c given named mode name ⟨mode, .text (referenceKey mode name), schema⟩
  | stray {node : Node}
      (undefined : Table.get? (c.schemas mode) (referenceKey mode name) = none)
      (filed : Filed c given named mode (.text (referenceKey mode name)) node) :
      Refers c given named mode name node

/-- The node for a schema that stands within another one: itself under its name, or what it
refers to. -/
inductive Slot (c : Catalog) (given : Node → Prop) (named : String → String → Prop)
    (mode : Mode) (name schema : Value) : Node → Prop
  | own (h : Schema.target? schema = none) :
      Slot c given named mode name schema ⟨mode, name, schema⟩
  | reference {target : Value} {text : String} {node : Node}
      (h : Schema.target? schema = some target) (leads : Schema.referenceName target = .ok text)
      (refers : Refers c given named mode text node) : Slot c given named mode name schema node

section Laws

variable {c : Catalog} {given : Node → Prop} {named named' : String → String → Prop}
  {mode : Mode} {name schema : Value} {node : Node}

theorem get?_schemas {key : String} {ms : Schema.Members} (h : c.schema mode key = .map ms) :
    Table.get? (c.schemas mode) key = some (c.schema mode key) := by
  unfold Catalog.schema at h ⊢
  cases hget : Table.get? (c.schemas mode) key with
  | none => simp [hget] at h
  | some schema => rfl

theorem known_schema {key : String} {ms : Schema.Members} (h : c.schema mode key = .map ms) :
    Known c given ⟨mode, .text key, c.schema mode key⟩ := .definition (get?_schemas h)

theorem Filed.known {ns : Mode} {key : Key} (h : Filed c given named ns key node) :
    Known c given node := by
  cases h with
  | own known => exact known
  | definition defined => exact .definition defined

theorem KeyOf.mono (h : ∀ text key, named text key → named' text key) {ns : Mode}
    {label : Label} (hkey : KeyOf named node ns label) : KeyOf named' node ns label := by
  cases hkey with
  | object shape labelled => exact .object shape labelled
  | enumeration shape registered => exact .enumeration shape (h _ _ registered)

theorem Filed.mono (h : ∀ text key, named text key → named' text key) {ns : Mode} {key : Key}
    (hfiled : Filed c given named ns key node) : Filed c given named' ns key node := by
  cases hfiled with
  | own known key => exact .own known (key.mono h)
  | definition defined => exact .definition defined

theorem Refers.mono
    (h : ∀ ns key node, Filed c given named ns key node → Filed c given named' ns key node)
    {text : String} (hrefers : Refers c given named mode text node) :
    Refers c given named' mode text node := by
  cases hrefers with
  | definition defined => exact .definition defined
  | stray undefined filed => exact .stray undefined (h _ _ _ filed)

theorem Slot.mono
    (h : ∀ ns key node, Filed c given named ns key node → Filed c given named' ns key node)
    (hslot : Slot c given named mode name schema node) :
    Slot c given named' mode name schema node := by
  cases hslot with
  | own own => exact .own own
  | reference target leads refers => exact .reference target leads (refers.mono h)

theorem Refers.known {text : String} (h : Refers c given named mode text node) :
    Known c given node := by
  cases h with
  | definition defined => exact .definition defined
  | stray undefined filed => exact filed.known

theorem Slot.known_of_own (h : Slot c given named mode name schema node)
    (hown : Schema.target? schema = none → Known c given ⟨mode, name, schema⟩) :
    Known c given node := by
  cases h with
  | own own => exact hown own
  | reference target leads refers => exact refers.known

theorem Filed.of_text {ns : Mode} {k : Key} (h : Filed c given named ns k node) {key : String}
    (hk : k = .text key) :
    (node.mode = ns ∧ node.name = .text key) ∨
      (named node.name.plain key ∧
        ∃ s, node.schema = .map s ∧ Schema.shape? s = some .enumeration) := by
  cases h with
  | own known key =>
      cases key with
      | object shape labelled =>
          obtain rfl := Value.label?_eq_some_iff.mp labelled
          exact .inl ⟨rfl, Value.key_eq_text_iff.mp hk⟩
      | enumeration shape registered =>
          obtain rfl := Key.text.inj hk
          exact .inr ⟨registered, _, rfl, shape⟩
  | definition defined =>
      obtain rfl := Key.text.inj hk
      exact .inl ⟨rfl, rfl⟩

/-- Two nodes of one key with equal schemas are one node, or they are enumerations and the
texts of their names are equal. -/
theorem Filed.eq_or_enumeration {ns : Mode} {key : String} {other : Node}
    (h : Filed c given Eq ns (.text key) node) (h' : Filed c given Eq ns (.text key) other)
    (hsame : node.schema = other.schema) :
    node = other ∨ node.name.plain = other.name.plain ∧
      ∃ s, node.schema = .map s ∧ Schema.shape? s = some .enumeration := by
  have hplain : (Value.text key).plain = key := rfl
  rcases h.of_text rfl with ⟨hmode, hname⟩ | ⟨hname, hshape⟩
  · rcases h'.of_text rfl with ⟨hmode', hname'⟩ | ⟨hname', hshape'⟩
    · left
      cases node
      cases other
      simp_all
    · right
      rw [hsame, hname, hname', hplain]
      exact ⟨rfl, hshape'⟩
  · right
    rcases h'.of_text rfl with ⟨hmode', hname'⟩ | ⟨hname', hshape'⟩
    · rw [hname, hname', hplain]
      exact ⟨rfl, hshape⟩
    · exact ⟨hname.trans hname'.symm, hshape⟩

end Laws

end RestGraph.Graph
