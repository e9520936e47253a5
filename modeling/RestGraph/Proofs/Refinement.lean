import RestGraph.Proofs.Reference

namespace RestGraph.Graph

/-!
# Sessions under the reference

With strict names and keys that agree, it does not matter in which order types and fields
are asked for, nor what is kept in between: each type unfolds to the tree that the reference
translation has for its node.
-/

section Refinement

variable {c : Catalog} {given : Node → Prop} {s : State}

theorem name_eq_of_legal (hcoherent : s.names.Coherent) (hstrict : s.names.strict = true)
    {text name : String} (hlegal : Name.legal text.toList = true) (hnamed : s.Named text name) :
    name = text := by
  have hname := hcoherent.name_of_strict hstrict hnamed
  rw [Name.sanitize?_of_legal hlegal] at hname
  exact (Option.some.inj hname).symm

theorem filed_eq (hkeys : KeysAgree c given) (hcoherent : s.names.Coherent)
    (hstrict : s.names.strict = true) (ns : Mode) (key : Key) (node : Node)
    (h : Filed c given s.Named ns key node) : Filed c given Eq ns key node := by
  cases h with
  | definition defined => exact .definition defined
  | own known key =>
      cases key with
      | object shape labelled => exact .own known (.object shape labelled)
      | enumeration shape registered =>
          have hfiled := Filed.own known (.enumeration shape (Eq.refl _))
          obtain ⟨text, htext, hlegal⟩ := hkeys.legal _ _ _ hfiled
          obtain rfl := Key.text.inj htext
          rw [name_eq_of_legal hcoherent hstrict hlegal registered]
          exact hfiled

theorem typeName_eq (hkeys : KeysAgree c given) (hcoherent : s.names.Coherent)
    (hstrict : s.names.strict = true) {mode : Mode} {name : Value} {ms : Schema.Members}
    (hknown : Known c given ⟨mode, name, .map ms⟩) (hshape : Schema.shape? ms = some .object)
    {label : Label} (hlabel : name.label? = some label) {text typeName : String}
    (htext : typeText mode name = .ok text) (hnamed : s.Named text typeName) :
    typeName = text := by
  obtain ⟨key, hkey, hlegal⟩ := hkeys.legal _ _ _ (.own hknown (.object hshape hlabel))
  obtain rfl : name = .text key := by
    rw [← Value.label?_eq_some_iff.mp hlabel]
    exact Value.key_eq_text_iff.mp hkey
  refine name_eq_of_legal hcoherent hstrict ?_ hnamed
  cases mode with
  | output =>
      obtain rfl := Except.ok.inj htext
      exact hlegal
  | input =>
      obtain rfl := Except.ok.inj htext
      split
      · exact hlegal
      · rw [String.toList_append]
        exact Name.legal_append hlegal (by decide)

theorem FieldsMade.exists_named {mode : Mode} {required : List String}
    {ps : List (String × Value)} {own : List (String × Field)}
    (h : FieldsMade c given s mode required ps own) :
    ∀ name ∈ Table.keys own, ∃ text ∈ Table.keys ps, s.Named text name := by
  induction h with
  | nil => simp [Table.keys]
  | skip slot made _ ih =>
      intro name hname
      obtain ⟨text, htext, hnamed⟩ := ih name hname
      exact ⟨text, List.mem_cons_of_mem _ htext, hnamed⟩
  | @keep p ps own node type fieldName slot made named _ ih =>
      intro name hname
      rcases List.mem_cons.mp hname with rfl | htail
      · exact ⟨p.1, List.mem_cons_self, named⟩
      · obtain ⟨text, htext, hnamed⟩ := ih name htail
        exact ⟨text, List.mem_cons_of_mem _ htext, hnamed⟩

theorem FieldsMade.distinct (hcoherent : s.names.Coherent) {mode : Mode}
    {required : List String} {ps : List (String × Value)} {own : List (String × Field)}
    (h : FieldsMade c given s mode required ps own) (hps : Table.Distinct ps) :
    Table.Distinct own := by
  induction h with
  | nil => exact List.nodup_nil
  | skip slot made _ ih => exact ih (List.nodup_cons.mp hps).2
  | @keep p ps own node type fieldName slot made named rest ih =>
      obtain ⟨hnew, hps'⟩ := List.nodup_cons.mp hps
      refine List.nodup_cons.mpr ⟨fun hmem => ?_, ih hps'⟩
      obtain ⟨text, htext, hnamed⟩ := rest.exists_named _ hmem
      obtain rfl : text = p.1 := hcoherent.text_injective hnamed named
      exact hnew htext

theorem treeWith_ownField (named : Nat → Option Tree) (mode : Mode) (required : List String)
    (p : String × Value) (fieldName : String) (type : TypeRef) :
    (ownField mode required p fieldName type).type.treeWith named =
      (type.treeWith named).map fun tree =>
        match mode with
        | .input => if required.contains p.1 then .nonNull tree else tree
        | .output => tree := by
  cases mode with
  | output => cases htree : type.treeWith named <;> simp [ownField, htree]
  | input =>
      by_cases hrequired : p.1 ∈ required <;>
        cases htree : type.treeWith named <;>
          simp [ownField, TypeRef.whenRequired, TypeRef.treeWith, hrequired, htree]

theorem field?_ownField {named : Nat → Option Tree} {mode : Mode} {required : List String}
    {p : String × Value} {fieldName : String} (hname : Name.sanitize? p.1 = some fieldName)
    {type : TypeRef} {tree tree' : Tree} (htree : type.treeWith named = some tree)
    (htree' : (ownField mode required p fieldName type).type.treeWith named = some tree')
    (node : Node) :
    Member.field? mode required ⟨p, node, some tree⟩ =
      some (fieldHead (fieldName, ownField mode required p fieldName type), tree') := by
  rw [treeWith_ownField, htree] at htree'
  obtain rfl := Option.some.inj htree'
  cases mode with
  | input => simp [Member.field?, hname, fieldHead, ownField]
  | output =>
      by_cases hsame : fieldName = p.1 <;>
        simp [Member.field?, hname, fieldHead, ownField, hsame]

/-- The fields of an object unfold to those that the reference has for its properties. -/
theorem FieldsMade.members (hcoherent : s.names.Coherent) (hstrict : s.names.strict = true)
    (hkeys : KeysAgree c given) {depth : Nat}
    (hdeeper : ∀ node type tree, Known c given node → Made c given s node type →
      s.tree? depth type = some tree → Reference c given depth node tree)
    {mode : Mode} {required : List String} {ps : List (String × Value)}
    {own : List (String × Field)} (h : FieldsMade c given s mode required ps own)
    (hknown : ∀ p ∈ ps, Schema.target? p.2 = none → Known c given ⟨mode, .text p.1, p.2⟩)
    {trees : List (FieldHead × Tree)} (htrees : fieldTrees (s.treeAt? depth) own = some trees) :
    ∃ members : List Member, members.map Member.property = ps ∧
      (∀ m ∈ members, Slot c given Eq mode (.text m.property.1) m.property.2 m.node) ∧
      (∀ m ∈ members, Reference c given depth m.node m.tree) ∧
      (∀ m ∈ members, m.tree.isSome → (Name.sanitize? m.property.1).isSome) ∧
      trees = members.filterMap (Member.field? mode required) := by
  induction h generalizing trees with
  | nil => exact ⟨[], rfl, by simp, by simp, by simp, (Option.some.inj htrees).symm⟩
  | @skip p ps own node slot made _ ih =>
      obtain ⟨members, hps, hslots, hreferences, hnames, rfl⟩ :=
        ih (fun q hq => hknown q (List.mem_cons_of_mem _ hq)) htrees
      have hnode := slot.known_of_own (hknown p List.mem_cons_self)
      have hreference := hdeeper node none none hnode made rfl
      refine ⟨⟨p, node, none⟩ :: members, by simp [hps], ?_, ?_, ?_, rfl⟩
      · exact List.forall_mem_cons.mpr ⟨slot.mono (filed_eq hkeys hcoherent hstrict), hslots⟩
      · exact List.forall_mem_cons.mpr ⟨hreference, hreferences⟩
      · exact List.forall_mem_cons.mpr ⟨fun h => (by cases h), hnames⟩
  | @keep p ps own node type fieldName slot made named _ ih =>
      have hname : Name.sanitize? p.1 = some fieldName := hcoherent.name_of_strict hstrict named
      have hnode := slot.known_of_own (hknown p List.mem_cons_self)
      simp only [fieldTrees, Option.bind_eq_bind, Option.bind_eq_some_iff] at htrees
      obtain ⟨tree', htree', rest, hrest, heq⟩ := htrees
      obtain ⟨members, hps, hslots, hreferences, hnames, rfl⟩ :=
        ih (fun q hq => hknown q (List.mem_cons_of_mem _ hq)) hrest
      have hinner := htree'
      rw [treeWith_ownField] at hinner
      obtain ⟨tree, htree, -⟩ := Option.map_eq_some_iff.mp hinner
      have hsome : s.tree? depth (some type) = some (some tree) := by simp [State.tree?, htree]
      have hreference := hdeeper node _ _ hnode made hsome
      refine ⟨⟨p, node, some tree⟩ :: members, by simp [hps], ?_, ?_, ?_, ?_⟩
      · exact List.forall_mem_cons.mpr ⟨slot.mono (filed_eq hkeys hcoherent hstrict), hslots⟩
      · exact List.forall_mem_cons.mpr ⟨hreference, hreferences⟩
      · exact List.forall_mem_cons.mpr ⟨fun _ => (by simp [hname]), hnames⟩
      · rw [List.filterMap_cons, field?_ownField hname htree htree' node]
        exact (Option.some.inj heq).symm

theorem tree?_map_list (s : State) (depth : Nat) (type : Option TypeRef) :
    s.tree? depth (type.map .list) = (s.tree? depth type).map (Option.map .list) := by
  cases type with
  | none => rfl
  | some t =>
      cases htree : t.treeWith (s.treeAt? depth) <;>
        simp [State.tree?, TypeRef.treeWith, htree]

theorem tree?_scalarType (s : State) (depth : Nat) (ms : Schema.Members) :
    s.tree? depth (scalarType ms) =
      some (((Schema.declaredType? ms).bind Scalar.ofType?).map .scalar) := by
  unfold scalarType
  cases (Schema.declaredType? ms).bind Scalar.ofType? <;> rfl

/-- No object of the description has two properties of one name. -/
def MapsDistinct (c : Catalog) (given : Node → Prop) : Prop :=
  ∀ mode name ms ps, Known c given ⟨mode, name, .map ms⟩ → properties ms = .ok ps →
    Table.Distinct ps

theorem Faithful.fieldsMade (hs : Faithful c given False s) (hmaps : MapsDistinct c given)
    {place : Nat} {type : Composite} (hheld : s.types[place]? = some (.composite type))
    {fields : Table String Field} (hfields : type.fields? = some fields) :
    ∃ required ps, requiredNames type.plan.schema = .ok required ∧
      properties type.plan.schema = .ok ps ∧
      FieldsMade c given s type.plan.mode required ps fields := by
  obtain ⟨⟨name, hknown⟩, -, hlinks, hfilled⟩ := hs.composites place type hheld
  obtain ⟨required, ps, own, links, hrequired, hps, hown, hofList, hnone⟩ := hfilled fields hfields
  have hdistinct := hown.distinct hs.coherent (hmaps _ _ _ _ hknown hps)
  rw [hnone (hlinks.resolve_right id), List.append_nil,
    Table.ofList_of_distinct hdistinct] at hofList
  exact ⟨required, ps, hrequired, hps, hofList ▸ hown⟩

theorem reference_object (hs : Faithful c given False s) (hstrict : s.names.strict = true)
    (hkeys : KeysAgree c given) (hmaps : MapsDistinct c given) {depth : Nat}
    (hdeeper : ∀ d node type tree, d < depth → Known c given node → Made c given s node type →
      s.tree? d type = some tree → Reference c given d node tree)
    {mode : Mode} {name : Value} {ms : Schema.Members} {text : String} {place : Nat}
    {type : Composite} (hknown : Known c given ⟨mode, name, .map ms⟩)
    (hshape : Schema.shape? ms = some .object) (htext : typeText mode name = .ok text)
    (hname : type.name = text) (hheld : s.types[place]? = some (.composite type))
    (hschema : type.plan.schema = ms) (hmode : type.plan.mode = mode)
    (hdescription : type.description = (Value.memberOr ms "description" .null).text?) {tree : Tree}
    (htree : s.treeAt? depth place = some tree) :
    Reference c given depth ⟨mode, name, .map ms⟩ (some tree) := by
  subst hschema hmode hname
  cases depth with
  | zero =>
      simp only [State.treeAt?, hheld] at htree
      obtain rfl := Option.some.inj htree
      exact .unopened hshape htext
  | succ depth =>
      simp only [State.treeAt?, hheld, Option.bind_eq_bind, Option.bind_eq_some_iff] at htree
      obtain ⟨fields, hfields, trees, htrees, heq⟩ := htree
      obtain ⟨required, ps, hrequired, hps, hown⟩ := hs.fieldsMade hmaps hheld hfields
      obtain ⟨members, hproperties, hslots, hreferences, hnames, rfl⟩ :=
        hown.members hs.coherent hstrict hkeys
          (fun node type tree => hdeeper depth node type tree (Nat.lt_succ_self depth))
          (fun p hp hinline => .property hknown hshape hps hp hinline) htrees
      obtain rfl := Option.some.inj heq
      rw [hdescription]
      exact .object hshape htext hrequired (hproperties ▸ hps) hslots hreferences hnames

/-- Every type that was made from a node unfolds to the reference translation of the node.
The induction is on the depth and, within it, on what the type was made from. -/
theorem Made.reference (hs : Faithful c given False s) (hstrict : s.names.strict = true)
    (hkeys : KeysAgree c given) (hmaps : MapsDistinct c given) (depth : Nat) :
    ∀ node type tree, Known c given node → Made c given s node type →
      s.tree? depth type = some tree → Reference c given depth node tree := by
  induction depth using Nat.strong_induction_on with
  | _ depth ih =>
      intro node type tree hknown hmade htree
      induction hmade generalizing tree with
      | scalar shape =>
          rw [tree?_scalarType] at htree
          obtain rfl := Option.some.inj htree
          exact .scalar shape
      | emptyObject shape =>
          obtain rfl := Option.some.inj htree
          exact .emptyObject shape
      | object shape labelled typeName named held schema sameMode described =>
          obtain ⟨inner, hinner, rfl⟩ := Option.map_eq_some_iff.mp htree
          have hname := typeName_eq hkeys hs.coherent hstrict hknown shape labelled typeName named
          exact reference_object hs hstrict hkeys hmaps
            (fun d node type tree hd => ih d hd node type tree) hknown shape typeName hname held
            schema sameMode described hinner
      | @enumeration mode name ms literals vs place e shape entry items members named held =>
          obtain ⟨inner, hinner, rfl⟩ := Option.map_eq_some_iff.mp htree
          obtain ⟨text, hkey, hlegal⟩ :=
            hkeys.legal .output (.text name.plain) _ (.own hknown (.enumeration shape rfl))
          obtain rfl := Key.text.inj hkey
          have hname := name_eq_of_legal hs.coherent hstrict hlegal named
          have htreeAt : s.treeAt? depth place = some (.enumeration e.name e.members) := by
            cases depth <;> simp [State.treeAt?, held]
          obtain rfl := Option.some.inj (htreeAt.symm.trans hinner)
          rw [hname] at members ⊢
          exact .enumeration shape entry items members
      | array shape entry slot _ ihItem =>
          rw [tree?_map_list] at htree
          obtain ⟨item, hitem, rfl⟩ := Option.map_eq_some_iff.mp htree
          have hnode := slot.known_of_own fun hown => .items hknown shape entry hown
          exact .array shape entry (slot.mono (filed_eq hkeys hs.coherent hstrict))
            (ihItem item hnode hitem)
      | shared filed filed' _ ihOther =>
          have hfiled := filed_eq hkeys hs.coherent hstrict _ _ _ filed
          have hfiled' := filed_eq hkeys hs.coherent hstrict _ _ _ filed'
          exact (ihOther tree filed'.known htree).shared hkeys hfiled hfiled'

/-! ## Trees of open types -/

def State.Opened (s : State) : Prop :=
  ∀ (place : Nat) (type : Composite), s.types[place]? = some (.composite type) →
    type.fields? ≠ none

end Refinement

def colorSchema : Value := .map [("enum", .list [.text "red", .text "blue"])]

end RestGraph.Graph
