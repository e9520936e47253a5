import RestGraph.Proofs.Label
import RestGraph.Proofs.Node
import RestGraph.Proofs.Sanitize

namespace RestGraph.Graph

/-!
# The nodes that responses lead to

Responses lead to nodes, and these by their properties and items to further ones. Each node may
have keys, under which what it becomes is kept among the outputs. Both can be computed for a
description: the nodes step by step, and keys are compared by the names that are made of the names
of the nodes.
-/

/-- The node of a schema that stands within another one: itself under its name, or what it
refers to, with the name under which that is kept. A name without a definition stands for `null`. -/
inductive Leads (c : Catalog) (name schema : Value) : Option String → Node → Prop
  | own (own : Schema.target? schema = none) : Leads c name schema none ⟨.output, name, schema⟩
  | reference {target : Value} {text : String} (refers : Schema.target? schema = some target)
      (leads : Schema.referenceName target = .ok text) :
      Leads c name schema (some text) ⟨.output, .text text, c.schema .output text⟩

/-- The nodes that responses lead to, with the names under which those of responses and of
references are kept. -/
inductive Touched (c : Catalog) : Option String → Node → Prop
  | response {o : Operation} {name : String} (mem : o ∈ c.operations.map Prod.snd)
      (returns : o.response = some name) :
      Touched c (some name) ⟨.output, .text name, c.schema .output name⟩
  | property {kept inner : Option String} {name : Value} {ms : Schema.Members}
      {ps : List (String × Value)} {p : String × Value} {node : Node}
      (before : Touched c kept ⟨.output, name, .map ms⟩)
      (shape : Schema.shape? ms = some .object) (found : properties ms = .ok ps) (mem : p ∈ ps)
      (leads : Leads c (.text p.1) p.2 inner node) : Touched c inner node
  | items {kept inner : Option String} {name items : Value} {ms : Schema.Members} {node : Node}
      (before : Touched c kept ⟨.output, name, .map ms⟩)
      (shape : Schema.shape? ms = some .array) (found : Table.get? ms "items" = some items)
      (leads : Leads c (itemsLabel name items) items inner node) : Touched c inner node

/-- The keys under which what a node becomes is kept among the outputs: the name of a response or
of a reference, and the key of an object or of an enumeration. -/
inductive Files (c : Catalog) : Key → Node → Prop
  | kept {text : String} {node : Node} (touched : Touched c (some text) node) :
      Files c (.text text) node
  | own {kept : Option String} {node : Node} {label : Label} (touched : Touched c kept node)
      (key : KeyOf (fun text name => Name.sanitize? text = some name) node .output label) :
      Files c label.key node

/-- Equal keys mean equal schemas. -/
def SchemasAgree (c : Catalog) : Prop :=
  ∀ key node other, Files c key node → Files c key other → node.schema = other.schema

/-- Equal keys mean names that read alike. -/
def NamesAgree (c : Catalog) : Prop :=
  ∀ key node other, Files c key node → Files c key other → node.name.plain = other.name.plain

section Nodes

variable {c : Catalog} {kept kept' : Option String} {node node' : Node}

theorem Leads.unique {name schema : Value} (h : Leads c name schema kept node)
    (h' : Leads c name schema kept' node') : kept = kept' ∧ node = node' := by
  cases h with
  | own own =>
      cases h' with
      | own _ => exact ⟨rfl, rfl⟩
      | reference refers _ => simp [own] at refers
  | reference refers leads =>
      cases h' with
      | own own => simp [own] at refers
      | reference refers' leads' =>
          obtain rfl := Option.some.inj (refers.symm.trans refers')
          obtain rfl := Except.ok.inj (leads.symm.trans leads')
          exact ⟨rfl, rfl⟩

theorem Leads.of_some {name schema : Value} {text : String}
    (h : Leads c name schema (some text) node) :
    node = ⟨.output, .text text, c.schema .output text⟩ := by
  cases h
  rfl

theorem Leads.mode {name schema : Value} (h : Leads c name schema kept node) :
    node.mode = .output := by
  cases h <;> rfl

theorem Touched.mode (h : Touched c kept node) : node.mode = .output := by
  cases h with
  | response => rfl
  | property _ _ _ _ leads => exact leads.mode
  | items _ _ _ leads => exact leads.mode

theorem Touched.of_some {text : String} (h : Touched c (some text) node) :
    node = ⟨.output, .text text, c.schema .output text⟩ := by
  cases h with
  | response => rfl
  | property _ _ _ _ leads => exact leads.of_some
  | items _ _ _ leads => exact leads.of_some

theorem Files.touched {key : Key} (h : Files c key node) : ∃ kept, Touched c kept node := by
  cases h with
  | kept touched => exact ⟨_, touched⟩
  | own touched => exact ⟨_, touched⟩

/-- An object has no key but that of its own name. -/
theorem Files.label {key : Key} (h : Files c key node) {ms : Schema.Members}
    (hschema : node.schema = .map ms) (hshape : Schema.shape? ms = some .object) :
    ∃ label, node.name.label? = some label ∧ label.key = key := by
  cases h with
  | kept touched =>
      obtain rfl := touched.of_some
      exact ⟨_, Value.label?_text _, rfl⟩
  | own touched key =>
      cases key with
      | object shape labelled => exact ⟨_, labelled, rfl⟩
      | enumeration shape registered =>
          obtain rfl := Value.map.inj hschema
          simp [hshape] at shape

end Nodes

/-! ## The nodes of one description -/

section Computed

variable {c : Catalog} {kept : Option String} {node : Node}

/-- What a schema within another one leads to, unless its reference has no name. -/
def lead? (c : Catalog) (name schema : Value) : Option Node :=
  match Schema.target? schema with
  | none => some ⟨.output, name, schema⟩
  | some target => (Schema.referenceName target).toOption.map fun text =>
      ⟨.output, .text text, c.schema .output text⟩

/-- What the properties of an object or the items of an array lead to. -/
def successors (c : Catalog) (node : Node) : List Node :=
  match node.schema with
  | .map ms =>
      match Schema.shape? ms with
      | some .object =>
          ((properties ms).toOption.getD []).filterMap fun p => lead? c (.text p.1) p.2
      | some .array =>
          match Table.get? ms "items" with
          | some items => (lead? c (itemsLabel node.name items) items).toList
          | none => []
      | _ => []
  | _ => []

/-- What a node leads to is found in the definitions for outputs. -/
theorem successors_congr {c' : Catalog} (h : c.outputs = c'.outputs) :
    successors c = successors c' := by
  obtain ⟨outputs, inputs, operations, config, fetches⟩ := c
  obtain rfl : outputs = c'.outputs := h
  rfl

theorem Leads.lead? {name schema : Value} (h : Leads c name schema kept node) :
    Graph.lead? c name schema = some node := by
  cases h with
  | own own => simp [Graph.lead?, own]
  | reference refers leads => simp [Graph.lead?, refers, leads, Except.toOption]

/-- All nodes that responses lead to are among some that have those of the responses and
whatever they lead to. -/
theorem Touched.mem {nodes : List Node}
    (hresponses : ∀ o ∈ c.operations.map Prod.snd, ∀ name, o.response = some name →
      ⟨.output, .text name, c.schema .output name⟩ ∈ nodes)
    (hclosed : nodes.flatMap (successors c) ⊆ nodes) (h : Touched c kept node) : node ∈ nodes := by
  induction h with
  | response mem returns => exact hresponses _ mem _ returns
  | property before shape found mem leads ih =>
      refine hclosed (List.mem_flatMap.mpr ⟨_, ih, ?_⟩)
      simp only [successors, shape, found, Except.toOption, Option.getD_some]
      exact List.mem_filterMap.mpr ⟨_, mem, leads.lead?⟩
  | items before shape found leads ih =>
      refine hclosed (List.mem_flatMap.mpr ⟨_, ih, ?_⟩)
      simp [successors, shape, found, leads.lead?]

/-- A node whose name is a text has that for a key, or the name that is made of it. -/
theorem Files.of_text {key : Key} (h : Files c key node) {text : String}
    (hname : node.name = .text text) :
    key = .text text ∨ ∃ name, Name.sanitize? text = some name ∧ key = .text name := by
  cases h with
  | kept touched =>
      obtain rfl := touched.of_some
      exact .inl (congrArg Value.key hname)
  | own touched key =>
      cases key with
      | object shape labelled =>
          obtain rfl : _ = Value.text text := hname
          obtain rfl := Option.some.inj labelled
          exact .inl rfl
      | enumeration shape registered =>
          obtain rfl : _ = Value.text text := hname
          exact .inr ⟨_, registered, rfl⟩

/-- The names that are made of the names of two nodes of one key are equal. -/
theorem Files.sanitize?_eq {key : Key} {other : Node} (h : Files c key node)
    (h' : Files c key other) {text text' : String} (hname : node.name = .text text)
    (hname' : other.name = .text text') : Name.sanitize? text = Name.sanitize? text' := by
  have hmade : ∀ {text name : String}, Name.sanitize? text = some name →
      Name.sanitize? name = some name :=
    fun hmade => Name.sanitize?_of_legal (Name.legal_of_sanitize? hmade)
  rcases h.of_text hname with rfl | ⟨name, hmake, rfl⟩ <;>
    rcases h'.of_text hname' with hkey | ⟨name', hmake', hkey⟩ <;>
    obtain rfl := Key.text.inj hkey
  · rfl
  · rw [hmake', hmade hmake']
  · rw [hmake, hmade hmake]
  · rw [hmake, hmake']

/-- Keys agree on schemas where the name that is made of the name of a node decides its schema. -/
theorem schemasAgree_of_nodes {nodes : List Node} (hnodes : ∀ kept node, Touched c kept node →
      node ∈ nodes) (htext : ∀ node ∈ nodes, node.name = .text node.name.plain)
    (schemaOf : Option String → Value)
    (hschema : ∀ node ∈ nodes, node.schema = schemaOf (Name.sanitize? node.name.plain)) :
    SchemasAgree c := by
  intro key node other h h'
  obtain ⟨kept, htouched⟩ := h.touched
  obtain ⟨kept', htouched'⟩ := h'.touched
  have hmem := hnodes kept node htouched
  have hmem' := hnodes kept' other htouched'
  rw [hschema node hmem, hschema other hmem',
    h.sanitize?_eq h' (htext node hmem) (htext other hmem')]

theorem namesAgree_of_nodes {nodes : List Node} (hnodes : ∀ kept node, Touched c kept node →
      node ∈ nodes) (htext : ∀ node ∈ nodes, node.name = .text node.name.plain)
    (hlegal : ∀ node ∈ nodes, Name.sanitize? node.name.plain = some node.name.plain) :
    NamesAgree c := by
  intro key node other h h'
  obtain ⟨kept, htouched⟩ := h.touched
  obtain ⟨kept', htouched'⟩ := h'.touched
  have hmem := hnodes kept node htouched
  have hmem' := hnodes kept' other htouched'
  have hsame := h.sanitize?_eq h' (htext node hmem) (htext other hmem')
  rw [hlegal node hmem, hlegal other hmem'] at hsame
  exact Option.some.inj hsame

end Computed

end RestGraph.Graph
