import RestGraph.Proofs.Call

namespace RestGraph.Graph

open Build

/-!
# Filing types

A cache is written in three ways. An object is filed under a key of its mode that was free, an
enumeration is filed among the outputs under a name that no type is kept under, and what a
reference leads to is kept under a key that was free when the reference was met. What holds
across these three holds across every translation.
-/

/-- The nodes that a schema within another one leads to: itself under its name, or the
definition that it refers to. -/
inductive Inner (c : Catalog) (mode : Mode) (name schema : Value) : Node → Prop
  | own (own : Schema.target? schema = none) : Inner c mode name schema ⟨mode, name, schema⟩
  | definition {target : Value} {text : String} {found : Value}
      (refers : Schema.target? schema = some target)
      (leads : Schema.referenceName target = .ok text)
      (defined : Table.get? (c.schemas mode) (referenceKey mode text) = some found) :
      Inner c mode name schema ⟨mode, .text (referenceKey mode text), found⟩

/-- Some nodes with all nodes that their properties and items lead to. -/
structure Closed (c : Catalog) (nodes : Node → Prop) : Prop where
  property : ∀ {mode : Mode} {name : Value} {s : Schema.Members} {ps : List (String × Value)}
    {p : String × Value} {node : Node}, nodes ⟨mode, name, .map s⟩ →
    Schema.shape? s = some .object → properties s = .ok ps → p ∈ ps →
    Inner c mode (.text p.1) p.2 node → nodes node
  items : ∀ {mode : Mode} {name items : Value} {s : Schema.Members} {node : Node},
    nodes ⟨mode, name, .map s⟩ → Schema.shape? s = some .array →
    Table.get? s "items" = some items → Inner c mode (itemsLabel name items) items node →
    nodes node

theorem closed_all (c : Catalog) : Closed c fun _ => True :=
  ⟨fun _ _ _ _ _ => trivial, fun _ _ _ _ => trivial⟩

/-- The nodes that the properties of a plan lead to are among some. -/
def PlanWithin (c : Catalog) (nodes : Node → Prop) (plan : Plan) : Prop :=
  ∀ ps, properties plan.schema = .ok ps → ∀ p ∈ ps, ∀ node,
    Inner c plan.mode (.text p.1) p.2 node → nodes node

theorem Closed.plan {c : Catalog} {nodes : Node → Prop} (h : Closed c nodes) {plan : Plan}
    {name : Value} (hnode : nodes ⟨plan.mode, name, .map plan.schema⟩)
    (hshape : Schema.shape? plan.schema = some .object) : PlanWithin c nodes plan :=
  fun _ hps _ hp _ hinner => h.property hnode hshape hps hp hinner

/-- The name is registered for the text that an object type under the key is named after. -/
def State.NamedAfter (s : State) (name : String) (mode : Mode) (label : Label) : Prop :=
  ∃ text, typeText mode label.value = .ok text ∧ s.Named text name

/-- An object type is what its key has, or else a new one with the plan, which is named after the
key. All that is asked of a relation is that filing that type under the key keeps it. -/
theorem objectType_files {R : State → State → Prop} [NameFrame R] {s : State} {name : Value}
    {plan : Plan}
    (hfile : ∀ (s : State) (type : Composite) (label : Label), label.value = name →
      type.plan = plan → type.fields? = none → s.NamedAfter type.name plan.mode label →
      Table.get? (s.cache plan.mode) label = none →
      R s (s.fileType (.composite type) plan.mode label)) :
    Ensures R s (objectType name plan) fun found s' => ∃ label, label.value = name ∧
      Table.get? (s'.cache plan.mode) label = some found ∧
      (Table.get? (s.cache plan.mode) label = none → ∃ place type,
        found = some (.named place) ∧ s'.types[place]? = some (.composite type) ∧
          type.plan = plan) := by
  unfold objectType
  refine .bind_keyOf fun label hlabel => ?_
  have hname : label.value = name := Value.label?_eq_some_iff.mp hlabel
  apply Ensures.bind_cached?
  split
  · rename_i type hfound
    refine .pure ⟨label, hname, hfound, fun hfree => ?_⟩
    rw [hfree] at hfound
    cases hfound
  · rename_i hfree
    refine .bind_access fun text htext => ?_
    refine .bind (named_storeName text) ?_
    rintro typeName s₁ - ⟨hnamed, hcache⟩
    refine .bind (.still (keeps_checkTypeName typeName)) ?_
    rintro - s₁ - rfl
    refine .bind (.still (keeps_checkDescription _ _)) ?_
    rintro description s₁ - rfl
    let type : Composite := ⟨typeName, description, plan, none⟩
    refine fileType_ensures _ _ _ _ ?_
      ⟨label, hname, ?_, fun _ => ⟨s₁.types.size, type, rfl, ?_, rfl⟩⟩
    · refine hfile s₁ type label hname rfl rfl ⟨text, hname ▸ htext, hnamed⟩ ?_
      rw [hcache, hfree]
    · simp [get?_cache_fileType]
    · simp [type]

/-- A relation that the three ways of writing a cache hold to, for types of a mode that are
made from some nodes. -/
structure Filing (nodes : Node → Prop) (mode : Mode) (R : State → State → Prop) : Prop where
  object : ∀ (s : State) (type : Composite) (label : Label), type.plan.mode = mode →
    nodes ⟨mode, label.value, .map type.plan.schema⟩ →
    Schema.shape? type.plan.schema = some .object → type.fields? = none →
    s.NamedAfter type.name mode label → Table.get? (s.cache mode) label = none →
    R s (s.fileType (.composite type) mode label)
  enumeration : ∀ (s : State) (e : Enumeration), s.output? (.ofText e.name) = none →
    R s (s.fileType (.enumeration e) .output (.ofText e.name))
  reference : ∀ (s s' : State) (label : Label) (type : Option TypeRef), R s s' →
    Table.get? (s.cache mode) label = none → R s (s'.setCached mode label type)

namespace Filing

variable {c : Catalog} {nodes : Node → Prop} {mode : Mode} {R : State → State → Prop}
  [NameFrame R]

/-! ## Objects and enumerations -/

theorem keeps_objectType (h : Filing nodes mode R) {name : Value} {plan : Plan}
    (hmode : plan.mode = mode) (hnode : nodes ⟨mode, name, .map plan.schema⟩)
    (hshape : Schema.shape? plan.schema = some .object) : Keeps R (objectType name plan) := by
  subst hmode
  intro s
  refine (objectType_files fun s type label hname hplan hunopened hnamed hfree => ?_).1
  subst hplan hname
  exact h.object s type label rfl hnode hshape hunopened hnamed hfree

theorem keeps_resolveEnumeration (h : Filing nodes mode R) (name : String) (literals : Value) :
    Keeps R (resolveEnumeration name literals) := by
  intro s
  suffices hkept : Ensures R s (resolveEnumeration name literals) fun _ _ => True from hkept.1
  refine .get_bind ?_
  split
  · exact .bind ((keeps_report _ _).ensures s) fun _ _ _ _ => .pure trivial
  · rename_i hfree
    refine .bind (.report _ _ (Q := fun _ t => t.outputs = s.outputs)
      fun log => ⟨NameFrame.log s log, rfl⟩) ?_
    intro _ s₁ _ houtputs
    refine .bind (.still (keeps_access _)) ?_
    rintro vs s₁ - rfl
    refine .bind (.still (keeps_liftExcept _)) ?_
    rintro members s₁ - rfl
    refine .bind (.still (keeps_checkTypeName name)) ?_
    rintro - s₁ - rfl
    refine fileType_ensures _ _ _ _ ?_ trivial
    refine h.enumeration s₁ ⟨name, members⟩ ?_
    unfold State.output? at hfree ⊢
    rw [houtputs, hfree]

theorem keeps_enumerationType (h : Filing nodes mode R) (name : Value) (s : Schema.Members) :
    Keeps R (enumerationType name s) := by
  refine (keeps_storeName _).bind fun typeName => ?_
  split
  · exact .throw _
  · exact (h.keeps_resolveEnumeration _ _).bind fun _ => .pure _

/-! ## References and arrays -/

/-- What is asked of a translation one level deeper. -/
def DeeperKeeps (nodes : Node → Prop) (mode : Mode) (R : State → State → Prop)
    (deeper : Deeper) : Prop :=
  ∀ name schema, (∀ ms, schema = .map ms → nodes ⟨mode, name, schema⟩) →
    Keeps R (deeper name schema)

/-- The key of a reference was free before the definition was translated, whatever that filed. -/
theorem keeps_referenceType (h : Filing nodes mode R) {deeper : Deeper}
    (hdeeper : DeeperKeeps nodes mode R deeper) {name : String}
    (hnode : ∀ found, Table.get? (c.schemas mode) (referenceKey mode name) = some found →
      nodes ⟨mode, .text (referenceKey mode name), found⟩) :
    Keeps R (referenceType c deeper mode name) := by
  intro s
  suffices hkept : Ensures R s (referenceType c deeper mode name) fun _ _ => True from hkept.1
  unfold referenceType
  apply Ensures.bind_cached?
  split
  · exact .pure trivial
  · rename_i hfree
    have hinner := hdeeper _ _ fun ms hms => hnode _ (get?_schemas hms)
    refine .whole (hinner.ensures s) (fun _ hfailed => hfailed) fun type s₁ h₁ _ => ?_
    exact ⟨h.reference s s₁ _ type h₁ hfree, fun _ _ => trivial⟩

theorem keeps_targetType (h : Filing nodes mode R) {deeper : Deeper}
    (hdeeper : DeeperKeeps nodes mode R deeper) {name schema target : Value}
    (htarget : Schema.target? schema = some target)
    (hnode : ∀ node, Inner c mode name schema node → nodes node) :
    Keeps R (access (Schema.referenceName target) >>= referenceType c deeper mode) := by
  cases hleads : Schema.referenceName target with
  | error e => exact Keeps.throw _
  | ok text =>
      refine h.keeps_referenceType hdeeper fun found hfound => ?_
      exact hnode _ (.definition htarget hleads hfound)

theorem keeps_itemType (h : Filing nodes mode R) {deeper : Deeper}
    (hdeeper : DeeperKeeps nodes mode R deeper) {name items : Value}
    (hnode : ∀ node, Inner c mode (itemsLabel name items) items node → nodes node) :
    Keeps R (itemType c deeper mode name items) := by
  cases htarget : Schema.target? items with
  | some target =>
      simp only [itemType, htarget]
      exact h.keeps_targetType hdeeper htarget hnode
  | none =>
      cases items with
      | map ms =>
          cases hshape : Schema.shape? ms with
          | none =>
              simp only [itemType, htarget, hshape]
              exact .throw _
          | some shape =>
              by_cases hscalar : shape = .scalar
              · subst hscalar
                simp only [itemType, htarget, hshape]
                exact .pure _
              · rw [itemType_of_own c deeper mode name htarget hshape hscalar]
                exact hdeeper _ _ fun _ _ => hnode _ (.own htarget)
      | _ =>
          simp only [itemType, htarget]
          exact .throw _

theorem keeps_listType (h : Filing nodes mode R) (hnodes : Closed c nodes) {deeper : Deeper}
    (hdeeper : DeeperKeeps nodes mode R deeper) {name : Value} {ms : Schema.Members}
    (hnode : nodes ⟨mode, name, .map ms⟩) (hshape : Schema.shape? ms = some .array) :
    Keeps R (listType c deeper mode name ms) := by
  unfold listType
  split
  · exact .throw _
  · rename_i items hfound
    refine .bind (h.keeps_itemType hdeeper fun node hinner => ?_) fun _ => .pure _
    exact hnodes.items hnode hshape hfound hinner

/-! ## Whole translations -/

theorem keeps_translate (h : Filing nodes mode R) (hnodes : Closed c nodes) {name schema : Value}
    (hnode : ∀ ms, schema = .map ms → nodes ⟨mode, name, schema⟩) (links : Table String Link)
    (iteration : Int) : Keeps R (translate c mode name schema links iteration) := by
  fun_induction translate c mode name schema links iteration with
  | case1 => exact .throw _
  | case2 => exact .throw _
  | case3 name _ _ _ ms hshape => exact h.keeps_objectType rfl (hnode ms rfl) hshape
  | case4 => exact h.keeps_enumerationType _ _
  | case5 => exact (keeps_report _ _).bind fun _ => .pure _
  | case6 name _ _ _ ms hshape ih =>
      exact h.keeps_listType hnodes (fun n items hinner => ih n items hinner) (hnode ms rfl) hshape
  | case7 => exact .pure _
  | case8 => exact .throw _

theorem keeps_resolveReference (h : Filing nodes mode R) (hnodes : Closed c nodes) {name : String}
    (hnode : ∀ found, Table.get? (c.schemas mode) (referenceKey mode name) = some found →
      nodes ⟨mode, .text (referenceKey mode name), found⟩) (iteration : Int) :
    Keeps R (resolveReference c mode name iteration) :=
  h.keeps_referenceType (fun _ _ hinner => h.keeps_translate hnodes hinner [] _) hnode

/-! ## Fields -/

theorem keeps_propertyType (h : Filing nodes mode R) (hnodes : Closed c nodes) {plan : Plan}
    (hmode : plan.mode = mode) {p : String × Value}
    (hnode : ∀ node, Inner c mode (.text p.1) p.2 node → nodes node) :
    Keeps R (propertyType c plan p.1 p.2) := by
  subst hmode
  cases htarget : Schema.target? p.2 with
  | some target =>
      rw [propertyType_of_target c plan p.1 htarget]
      refine h.keeps_targetType (fun name schema hinner => ?_) htarget hnode
      exact h.keeps_translate hnodes hinner [] _
  | none =>
      rw [propertyType_of_inline c plan p.1 htarget]
      refine (keeps_noteShadowed c p.1).bind fun _ => ?_
      exact h.keeps_translate hnodes (fun _ _ => hnode _ (.own htarget)) [] _

theorem keeps_propertyFields (h : Filing nodes mode R) (hnodes : Closed c nodes) {plan : Plan}
    (hmode : plan.mode = mode) (required : List String) {ps : List (String × Value)}
    (hnode : ∀ p ∈ ps, ∀ node, Inner c mode (.text p.1) p.2 node → nodes node) :
    Keeps R (propertyFields c plan required ps) := by
  induction ps with
  | nil => exact .pure _
  | cons p ps ih =>
      have hrest := ih fun q hq => hnode q (List.mem_cons_of_mem p hq)
      refine (h.keeps_propertyType hnodes hmode (hnode p List.mem_cons_self)).bind fun type => ?_
      split
      · exact hrest
      · refine (keeps_storeName _).bind fun _ => (keeps_propertyField _ _ _ _ _ _).bind fun _ => ?_
        exact hrest.bind fun _ => .pure _

theorem keeps_fieldsOf (h : Filing nodes mode R) (hnodes : Closed c nodes) {plan : Plan}
    (hmode : plan.mode = mode) (hplan : PlanWithin c nodes plan) : Keeps R (fieldsOf c plan) := by
  rw [fieldsOf_eq]
  refine (keeps_access _).bind fun required => (keeps_planLinks c plan).bind fun links => ?_
  cases hps : properties plan.schema with
  | error e => exact Keeps.throw _
  | ok ps =>
      have hown := h.keeps_propertyFields hnodes hmode required (hmode ▸ hplan ps hps)
      exact hown.bind fun _ => .pure _

end Filing

/-! ## Arguments -/

section Arguments

variable {c : Catalog} {nodes : Node → Prop} {R : State → State → Prop} [NameFrame R]

theorem Filing.keeps_bodyType (h : Filing nodes .input R) (hnodes : Closed c nodes) {name : String}
    (hnode : ∀ found, Table.get? c.inputs name = some found → nodes ⟨.input, .text name, found⟩) :
    Keeps R (bodyType c name) := by
  refine (keeps_cached? _ _).bind fun found => ?_
  split
  · exact .pure _
  · refine h.keeps_translate hnodes (fun ms hms => ?_) [] 0
    have hdefined : Table.get? (c.schemas .input) name = some (c.schema .input name) :=
      get?_schemas hms
    exact hnode _ hdefined

theorem Filing.keeps_arguments (h : Filing nodes .input R) (hnodes : Closed c nodes)
    (ps : List Parameter) {body : Option String} (required : Bool)
    (hbody : ∀ name, body = some name → ∀ found, Table.get? c.inputs name = some found →
      nodes ⟨.input, .text name, found⟩) : Keeps R (arguments c ps body required) := by
  refine (keeps_parameterArguments c [] ps).bind fun found => ?_
  cases body with
  | none => exact .pure _
  | some name =>
      refine (h.keeps_bodyType hnodes (hbody name rfl)).bind fun type => ?_
      split
      · exact .pure _
      · exact (keeps_storeName _).bind fun _ => (keeps_access _).bind fun _ => .pure _

end Arguments

/-! ## Asking for fields -/

/-- A relation that the ways of writing the caches hold to in both modes, and so does keeping
the fields of a type that has none yet. -/
structure Opening (nodes : Node → Prop) (R : State → State → Prop) : Prop where
  filing : ∀ mode, Filing nodes mode R
  keep : ∀ (s : State) (place : Nat) (type : Composite) (fields : Table String Field),
    s.types[place]? = some (.composite type) → type.fields? = none → R s (s.keep place type fields)

theorem Opening.keeps_fieldsAt {c : Catalog} {nodes : Node → Prop} {R : State → State → Prop}
    [NameFrame R] (h : Opening nodes R) (hnodes : Closed c nodes) {s : State} {place : Nat}
    (hplan : ∀ k, s.types[place]? = some (.composite k) → PlanWithin c nodes k.plan) :
    R s ((fieldsAt c place).run s).2 := by
  suffices hkept : Ensures R s (fieldsAt c place) fun _ _ => True from hkept.1
  unfold fieldsAt
  refine .bind (compositeAt?_ensures place s) ?_
  rintro found s - ⟨rfl, hfound⟩
  split
  · exact .pure trivial
  · rename_i type
    have hplace := (hfound type).mp rfl
    split
    · exact .pure trivial
    · rename_i hnone
      have hfields := (h.filing _).keeps_fieldsOf hnodes rfl (hplan type hplace)
      have hadds : Keeps Adds (fieldsOf c type.plan) := keeps_fieldsOf c type.plan
      have hbase : Ensures R s (fieldsOf c type.plan) fun _ s₁ =>
          s₁.types[place]? = some (.composite type) :=
        ⟨hfields s, fun _ _ => (hadds s).types _ _ hplace⟩
      refine .bind (.tryCatch hbase) fun fields s₁ _ hheld => ?_
      exact ⟨h.keep s₁ place type fields hheld hnone, fun _ _ => trivial⟩

end RestGraph.Graph
