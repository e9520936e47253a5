import RestGraph.Proofs.Session

namespace RestGraph.Graph

/-!
# Translation without a cache

What a node should become is a tree: the type of each node within it is found anew, and no
type is kept. Composite types are opened to some depth only, since a schema may contain
itself. The types of a session are compared with these trees when they are unfolded.
-/

structure FieldHead where
  name : String
  description : Option String
  /-- The property that the field gives, where its own name is another one. -/
  property : Option String
deriving DecidableEq, Repr

/-- A type with the types under it, down to composite types that are not opened. -/
inductive Tree where
  | scalar (s : Scalar)
  | enumeration (name : String) (members : Table String Value)
  | unopened (mode : Mode) (name : String)
  | composite (mode : Mode) (name : String) (description : Option String)
      (fields : List (FieldHead × Tree))
  | list (item : Tree)
  | nonNull (inner : Tree)

/-! ## Trees of a state -/

def fieldHead (e : String × Field) : FieldHead :=
  ⟨e.1, e.2.description,
    match e.2.resolver with
    | some (.property name) => some name
    | _ => none⟩

def TypeRef.treeWith (named : Nat → Option Tree) : TypeRef → Option Tree
  | .scalar s => some (.scalar s)
  | .named place => named place
  | .list t => (t.treeWith named).map .list
  | .nonNull t => (t.treeWith named).map .nonNull

def fieldTrees (named : Nat → Option Tree) :
    List (String × Field) → Option (List (FieldHead × Tree))
  | [] => some []
  | e :: fields => do
      let tree ← e.2.type.treeWith named
      return (fieldHead e, tree) :: (← fieldTrees named fields)

/-- The tree of a named type that is opened so many times. There is none if it leads to a
composite type whose fields were not found yet. -/
def State.treeAt? (s : State) : Nat → Nat → Option Tree
  | depth, place =>
      match s.types[place]? with
      | none => none
      | some (.enumeration e) => some (.enumeration e.name e.members)
      | some (.composite type) =>
          match depth with
          | 0 => some (.unopened type.plan.mode type.name)
          | depth + 1 => do
              let trees ← fieldTrees (s.treeAt? depth) (← type.fields?)
              return .composite type.plan.mode type.name type.description trees

/-- The tree of a result, which may be that there is no type. -/
def State.tree? (s : State) (depth : Nat) : Option TypeRef → Option (Option Tree)
  | none => some none
  | some t => (t.treeWith (s.treeAt? depth)).map some

/-! ## Trees of a node -/

/-- A property of an object with the node that it stands for and the tree of that. -/
structure Member where
  property : String × Value
  node : Node
  tree : Option Tree

/-- The field of a property, unless it has no type. -/
def Member.field? (mode : Mode) (required : List String) (m : Member) :
    Option (FieldHead × Tree) := do
  let tree ← m.tree
  let name ← Name.sanitize? m.property.1
  let description := ((m.property.2.member? "description").getD .null).text?
  match mode with
  | .input =>
      return (⟨name, description, none⟩,
        if required.contains m.property.1 then .nonNull tree else tree)
  | .output =>
      return (⟨name, description, if name == m.property.1 then none else some m.property.1⟩, tree)

/-- The reference translation: the tree of a node, opened so many times. -/
inductive Reference (c : Catalog) (given : Node → Prop) : Nat → Node → Option Tree → Prop
  | scalar {depth : Nat} {mode : Mode} {name : Value} {ms : Schema.Members}
      (shape : Schema.shape? ms = some .scalar) :
      Reference c given depth ⟨mode, name, .map ms⟩
        (((Schema.declaredType? ms).bind Scalar.ofType?).map .scalar)
  | emptyObject {depth : Nat} {mode : Mode} {name : Value} {ms : Schema.Members}
      (shape : Schema.shape? ms = some .emptyObject) :
      Reference c given depth ⟨mode, name, .map ms⟩ none
  | enumeration {depth : Nat} {mode : Mode} {name literals : Value} {ms : Schema.Members}
      {vs : List Value} {members : Table String Value}
      (shape : Schema.shape? ms = some .enumeration) (entry : Table.get? ms "enum" = some literals)
      (items : literals.iterate = .ok vs) (made : membersFrom name.plain [] vs = .ok members) :
      Reference c given depth ⟨mode, name, .map ms⟩ (some (.enumeration name.plain members))
  | array {depth : Nat} {mode : Mode} {name items : Value} {ms : Schema.Members} {node : Node}
      {item : Option Tree} (shape : Schema.shape? ms = some .array)
      (entry : Table.get? ms "items" = some items)
      (slot : Slot c given Eq mode (itemsLabel name items) items node)
      (itemTree : Reference c given depth node item) :
      Reference c given depth ⟨mode, name, .map ms⟩ (item.map .list)
  | unopened {mode : Mode} {name : Value} {ms : Schema.Members} {text : String}
      (shape : Schema.shape? ms = some .object) (typeName : typeText mode name = .ok text) :
      Reference c given 0 ⟨mode, name, .map ms⟩ (some (.unopened mode text))
  | object {depth : Nat} {mode : Mode} {name : Value} {ms : Schema.Members} {text : String}
      {required : List String} {members : List Member}
      (shape : Schema.shape? ms = some .object) (typeName : typeText mode name = .ok text)
      (needed : requiredNames ms = .ok required)
      (found : properties ms = .ok (members.map Member.property))
      (slots : ∀ m ∈ members, Slot c given Eq mode (.text m.property.1) m.property.2 m.node)
      (trees : ∀ m ∈ members, Reference c given depth m.node m.tree)
      (named : ∀ m ∈ members, m.tree.isSome → (Name.sanitize? m.property.1).isSome) :
      Reference c given (depth + 1) ⟨mode, name, .map ms⟩
        (some (.composite mode text (Value.memberOr ms "description" .null).text?
          (members.filterMap (Member.field? mode required))))

/-- Every key is a legal name, and the nodes of one key have one schema. -/
structure KeysAgree (c : Catalog) (given : Node → Prop) : Prop where
  legal : ∀ ns key node, Filed c given Eq ns key node →
    ∃ text : String, key = .text text ∧ Name.legal text.toList = true
  same : ∀ ns key node other, Filed c given Eq ns key node → Filed c given Eq ns key other →
    node.schema = other.schema

section Unique

variable {c : Catalog} {given : Node → Prop} {depth : Nat} {node other : Node}

theorem Reference.shared (hkeys : KeysAgree c given) {ns : Mode} {key : Key}
    (h : Filed c given Eq ns key node) (h' : Filed c given Eq ns key other) {tree : Option Tree}
    (href : Reference c given depth other tree) : Reference c given depth node tree := by
  have hsame := hkeys.same ns key node other h h'
  obtain ⟨text, rfl, -⟩ := hkeys.legal ns key node h
  rcases h.eq_or_enumeration h' hsame with rfl | ⟨hplain, ms, hms, hshape⟩
  · exact href
  · obtain ⟨mode, name, schema⟩ := node
    obtain rfl : schema = .map ms := hms
    cases href with
    | enumeration shape entry items made =>
        obtain rfl := Value.map.inj hsame
        rw [← show name.plain = _ from hplain] at made ⊢
        exact .enumeration shape entry items made
    | _ shape =>
        obtain rfl := Value.map.inj hsame
        simp [hshape] at shape

theorem Refers.reference (hkeys : KeysAgree c given) {mode : Mode} {name : String}
    (h : Refers c given Eq mode name node) (h' : Refers c given Eq mode name other)
    {tree : Option Tree} (href : Reference c given depth other tree) :
    Reference c given depth node tree := by
  cases h with
  | definition defined =>
      cases h' with
      | definition defined' =>
          obtain rfl := Option.some.inj (defined.symm.trans defined')
          exact href
      | stray undefined filed => simp [defined] at undefined
  | stray undefined filed =>
      cases h' with
      | definition defined' => simp [undefined] at defined'
      | stray undefined' filed' => exact href.shared hkeys filed filed'

theorem Slot.reference_congr (hkeys : KeysAgree c given) {mode : Mode} {name schema : Value}
    (h : Slot c given Eq mode name schema node) (h' : Slot c given Eq mode name schema other)
    {tree : Option Tree} (href : Reference c given depth other tree) :
    Reference c given depth node tree := by
  cases h with
  | own own =>
      cases h' with
      | own => exact href
      | reference target => simp [own] at target
  | reference target leads refers =>
      cases h' with
      | own own => simp [own] at target
      | reference target' leads' refers' =>
          obtain rfl := Option.some.inj (target.symm.trans target')
          obtain rfl := Except.ok.inj (leads.symm.trans leads')
          exact refers.reference hkeys refers' href

theorem filterMap_field_congr {mode : Mode} {required : List String}
    {members members' : List Member}
    (hproperties : members.map Member.property = members'.map Member.property)
    (h : ∀ m ∈ members, ∀ m' ∈ members', m.property = m'.property → m.tree = m'.tree) :
    members.filterMap (Member.field? mode required) =
      members'.filterMap (Member.field? mode required) := by
  induction members generalizing members' with
  | nil =>
      obtain rfl := List.map_eq_nil_iff.mp hproperties.symm
      rfl
  | cons m members ih =>
      cases members' with
      | nil => cases hproperties
      | cons m' members' =>
          obtain ⟨hproperty, htail⟩ := List.cons.inj hproperties
          have htree := h m List.mem_cons_self m' List.mem_cons_self hproperty
          have hfield : m.field? mode required = m'.field? mode required := by
            unfold Member.field?
            rw [hproperty, htree]
          have hrest := ih htail fun q hq q' hq' =>
            h q (List.mem_cons_of_mem _ hq) q' (List.mem_cons_of_mem _ hq')
          rw [List.filterMap_cons, List.filterMap_cons, hfield, hrest]

/-- A node has one tree at most: the reference translation is a function of the node. -/
theorem Reference.unique (hkeys : KeysAgree c given) {tree tree' : Option Tree}
    (h : Reference c given depth node tree) (h' : Reference c given depth node tree') :
    tree = tree' := by
  induction h generalizing tree' with
  | scalar shape =>
      cases h' with
      | scalar => rfl
      | _ shape' => simp [shape] at shape'
  | emptyObject shape =>
      cases h' with
      | emptyObject => rfl
      | _ shape' => simp [shape] at shape'
  | enumeration shape entry items made =>
      cases h' with
      | enumeration shape' entry' items' made' =>
          obtain rfl := Option.some.inj (entry.symm.trans entry')
          obtain rfl := Except.ok.inj (items.symm.trans items')
          obtain rfl := Except.ok.inj (made.symm.trans made')
          rfl
      | _ shape' => simp [shape] at shape'
  | array shape entry slot _ ih =>
      cases h' with
      | array shape' entry' slot' item' =>
          obtain rfl := Option.some.inj (entry.symm.trans entry')
          rw [ih (slot.reference_congr hkeys slot' item')]
      | _ shape' => simp [shape] at shape'
  | unopened shape typeName =>
      cases h' with
      | unopened shape' typeName' =>
          obtain rfl := Except.ok.inj (typeName.symm.trans typeName')
          rfl
      | _ shape' => simp [shape] at shape'
  | @object depth mode name ms text required members shape typeName needed found slots _ _ ih =>
      cases h' with
      | @object _ _ _ _ text' required' members' shape' typeName' needed' found' slots' trees' =>
          obtain rfl := Except.ok.inj (typeName.symm.trans typeName')
          obtain rfl := Except.ok.inj (needed.symm.trans needed')
          have hproperties := Except.ok.inj (found.symm.trans found')
          rw [filterMap_field_congr hproperties]
          intro m hm m' hm' hproperty
          have hslot := slots' m' hm'
          rw [← hproperty] at hslot
          exact ih m hm ((slots m hm).reference_congr hkeys hslot (trees' m' hm'))
      | _ shape' => simp [shape] at shape'

end Unique

end RestGraph.Graph
