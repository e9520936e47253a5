import RestGraph.Proofs.Filing

namespace RestGraph.Graph

open Build

/-!
# The levels of a schema

A property lies one level below its object, and so do the items of an array below the array
unless they are scalars. A type remembers the level of the object that it was made of, so where
no two nodes share a key, the levels of types are those of their nodes, and once the fields of all
types are found every node was visited.
-/

/-- Items that are scalars are not translated on their own. -/
def itemStep : Value → Nat
  | .map ms => if Schema.shape? ms = some .scalar then 0 else 1
  | _ => 1

/-- The nodes of a schema, with the number of steps from the root. -/
inductive Lies (root : Node) : Nat → Node → Prop
  | root : Lies root 0 root
  | property {depth : Nat} {mode : Mode} {name : Value} {ms : Schema.Members}
      {ps : List (String × Value)} {p : String × Value}
      (above : Lies root depth ⟨mode, name, .map ms⟩) (shape : Schema.shape? ms = some .object)
      (declared : properties ms = .ok ps) (mem : p ∈ ps) :
      Lies root (depth + 1) ⟨mode, .text p.1, p.2⟩
  | items {depth : Nat} {mode : Mode} {name items : Value} {ms : Schema.Members}
      (above : Lies root depth ⟨mode, name, .map ms⟩) (shape : Schema.shape? ms = some .array)
      (declared : Table.get? ms "items" = some items) :
      Lies root (depth + itemStep items) ⟨mode, itemsLabel name items, items⟩

/-- None of the nodes is a reference. -/
def ReferenceFree (root : Node) : Prop :=
  ∀ depth node, Lies root depth node → Schema.target? node.schema = none

/-- Two nodes that share a key, when names are registered like this, are one node at one level. -/
def KeysApart (root : Node) (named : String → String → Prop) : Prop :=
  ∀ depth depth' node node' ns label label', Lies root depth node → Lies root depth' node' →
    KeyOf named node ns label → KeyOf named node' ns label' → label.key = label'.key →
    depth = depth' ∧ node = node'

theorem KeysApart.mono {root : Node} {named named' : String → String → Prop}
    (h : KeysApart root named') (hnamed : ∀ text name, named text name → named' text name) :
    KeysApart root named := fun _ _ _ _ _ _ _ hlies hlies' hkey hkey' =>
  h _ _ _ _ _ _ _ hlies hlies' (hkey.mono hnamed) (hkey'.mono hnamed)

/-! ### Levels computed

The nodes one step into a node, with the levels of the step, can be computed, so a list that is
closed under such steps has all nodes of a schema.
-/

def inwards (node : Node) : List (Nat × Node) :=
  match node.schema with
  | .map ms =>
      match Schema.shape? ms with
      | some .object =>
          ((properties ms).toOption.getD []).map fun p => (1, ⟨node.mode, .text p.1, p.2⟩)
      | some .array =>
          match Table.get? ms "items" with
          | some items => [(itemStep items, ⟨node.mode, itemsLabel node.name items, items⟩)]
          | none => []
      | _ => []
  | _ => []

theorem KeyOf.key_of_own {node : Node} {ns : Mode} {label : Label} {text : String}
    (h : KeyOf (fun text name => name = text) node ns label) (hname : node.name = .text text) :
    label.key = .text text := by
  cases h with
  | object shape labelled =>
      obtain rfl : _ = Value.text text := hname
      exact congrArg Value.key (Value.label?_eq_some_iff.mp labelled)
  | enumeration shape registered =>
      obtain rfl : _ = Value.text text := hname
      exact congrArg Key.text registered

section Computed

variable {root : Node} {nodes : List (Nat × Node)} (hroot : (0, root) ∈ nodes)
  (hclosed : nodes.flatMap (fun e => (inwards e.2).map fun e' => (e.1 + e'.1, e'.2)) ⊆ nodes)
include hroot hclosed

theorem Lies.mem {depth : Nat} {node : Node} (h : Lies root depth node) :
    (depth, node) ∈ nodes := by
  induction h with
  | root => exact hroot
  | property above shape declared mem ih =>
      refine hclosed (List.mem_flatMap.mpr ⟨_, ih, ?_⟩)
      simp only [inwards, shape, declared, Except.toOption, Option.getD_some, List.map_map]
      exact List.mem_map.mpr ⟨_, mem, rfl⟩
  | items above shape declared ih =>
      refine hclosed (List.mem_flatMap.mpr ⟨_, ih, ?_⟩)
      simp [inwards, shape, declared]

theorem referenceFree_of_nodes (h : ∀ e ∈ nodes, Schema.target? e.2.schema = none) :
    ReferenceFree root := fun _ _ hlies => h _ (hlies.mem hroot hclosed)

/-- Nodes of different names share no key if names are their own texts. -/
theorem keysApart_of_names {names : List String}
    (hnames : nodes.map (fun e => e.2.name) = names.map Value.text) (hnodup : names.Nodup) :
    KeysApart root fun text name => name = text := by
  have hdistinct : (nodes.map fun e => e.2.name).Nodup := by
    rw [hnames]
    exact hnodup.map fun _ _ => Value.text.inj
  have htext : ∀ {depth node}, Lies root depth node → ∃ text, node.name = .text text := by
    intro depth node hlies
    have hmem : node.name ∈ names.map Value.text :=
      hnames ▸ List.mem_map_of_mem (hlies.mem hroot hclosed)
    obtain ⟨text, -, hname⟩ := List.mem_map.mp hmem
    exact ⟨text, hname.symm⟩
  intro depth depth' node node' ns label label' hlies hlies' hkey hkey' hlabel
  obtain ⟨text, hname⟩ := htext hlies
  obtain ⟨text', hname'⟩ := htext hlies'
  rw [hkey.key_of_own hname, hkey'.key_of_own hname'] at hlabel
  obtain rfl := Key.text.inj hlabel
  have hsame := List.inj_on_of_nodup_map hdistinct (hlies.mem hroot hclosed)
    (hlies'.mem hroot hclosed) (hname.trans hname'.symm)
  exact ⟨congrArg Prod.fst hsame, congrArg Prod.snd hsame⟩

end Computed

/-! ## Visits -/

/-- The node was translated at its level, below the limit: an object has a type that remembers
the level, and the items of an array were visited with it. -/
inductive Visited (limit : Nat) (s : State) : Nat → Node → Prop
  | object {depth place : Nat} {mode : Mode} {name : Value} {ms : Schema.Members}
      {type : Composite} (below : depth < limit) (shape : Schema.shape? ms = some .object)
      (held : s.types[place]? = some (.composite type)) (plan : type.plan = ⟨ms, [], mode, depth⟩) :
      Visited limit s depth ⟨mode, name, .map ms⟩
  | array {depth : Nat} {mode : Mode} {name items : Value} {ms : Schema.Members}
      (below : depth < limit) (shape : Schema.shape? ms = some .array)
      (declared : Table.get? ms "items" = some items)
      (inner : Visited limit s (depth + itemStep items) ⟨mode, itemsLabel name items, items⟩) :
      Visited limit s depth ⟨mode, name, .map ms⟩
  | leaf {depth : Nat} {node : Node} (below : depth < limit)
      (leaf : ∀ ms, node.schema = .map ms → Schema.shape? ms ≠ some .object ∧
        Schema.shape? ms ≠ some .array) : Visited limit s depth node

section Visits

variable {root node : Node} {limit depth : Nat} {s s' : State}

theorem Visited.lt_limit (h : Visited limit s depth node) : depth < limit := by
  cases h <;> assumption

theorem Visited.mono (hx : Extends s s') (h : Visited limit s depth node) :
    Visited limit s' depth node := by
  induction h with
  | object below shape held plan =>
      obtain ⟨type', hheld', hplan, -⟩ := hx.composite held
      exact .object below shape hheld' (hplan.trans plan)
  | array below shape declared _ ih => exact .array below shape declared ih
  | leaf below leaf => exact .leaf below leaf

theorem Visited.type_of_object {mode : Mode} {name : Value} {ms : Schema.Members}
    (h : Visited limit s depth ⟨mode, name, .map ms⟩) (hshape : Schema.shape? ms = some .object) :
    ∃ (place : Nat) (type : Composite), s.types[place]? = some (.composite type) ∧
      type.plan = ⟨ms, [], mode, depth⟩ := by
  cases h with
  | object below shape held plan => exact ⟨_, _, held, plan⟩
  | array below shape => simp [hshape] at shape
  | leaf below leaf => exact absurd hshape (leaf ms rfl).1

theorem Visited.items_of_array {mode : Mode} {name items : Value} {ms : Schema.Members}
    (h : Visited limit s depth ⟨mode, name, .map ms⟩) (hshape : Schema.shape? ms = some .array)
    (hitems : Table.get? ms "items" = some items) :
    Visited limit s (depth + itemStep items) ⟨mode, itemsLabel name items, items⟩ := by
  cases h with
  | object below shape => simp [hshape] at shape
  | array below shape declared inner =>
      obtain rfl := Option.some.inj (declared.symm.trans hitems)
      exact inner
  | leaf below leaf => exact absurd hshape (leaf ms rfl).2

/-- The node was visited, unless two nodes share a key. -/
def Traversed (root : Node) (limit depth : Nat) (node : Node) (s : State) : Prop :=
  KeysApart root s.Named → Visited limit s depth node

theorem Traversed.mono (hx : Extends s s') (h : Traversed root limit depth node s) :
    Traversed root limit depth node s' :=
  fun hapart => (h (hapart.mono hx.named)).mono hx

end Visits

/-! ## States -/

/-- What a key has was made of a node of that key. The type of an object remembers the level of
its node. -/
structure MadeOf (root : Node) (s : State) (mode : Mode) (label : Label)
    (type : Option TypeRef) (depth : Nat) (node : Node) : Prop where
  lies : Lies root depth node
  key : ∃ label', KeyOf s.Named node mode label' ∧ label'.key = label.key
  object : ∀ ms, node.schema = .map ms → Schema.shape? ms = some .object →
    ∃ (place : Nat) (k : Composite), type = some (.named place) ∧
      s.types[place]? = some (.composite k) ∧ k.plan = ⟨ms, [], node.mode, depth⟩

/-- The plan is that of an object below the root. -/
structure PlacedPlan (root : Node) (limit : Nat) (plan : Plan) (depth : Nat) : Prop where
  links : plan.links = []
  iteration : plan.iteration = depth
  below : depth < limit
  shape : Schema.shape? plan.schema = some .object
  lies : ∃ name, Lies root depth ⟨plan.mode, name, .map plan.schema⟩

/-- Every property of the plan was visited, unless two nodes share a key. -/
def PropertiesTraversed (root : Node) (limit depth : Nat) (plan : Plan) (s : State) : Prop :=
  ∀ ps, properties plan.schema = .ok ps → ∀ p ∈ ps,
    Traversed root limit (depth + 1) ⟨plan.mode, .text p.1, p.2⟩ s

/-- What is known of a state on the way through a schema, below a limit. -/
structure Placed (root : Node) (limit : Nat) (s : State) : Prop where
  planned : ∀ (place : Nat) (k : Composite), s.types[place]? = some (.composite k) →
    ∃ depth, PlacedPlan root limit k.plan depth
  entries : ∀ mode label type, Table.get? (s.cache mode) label = some type →
    ∃ depth node, MadeOf root s mode label type depth node
  found : ∀ (place : Nat) (k : Composite), s.types[place]? = some (.composite k) →
    k.fields? ≠ none → ∀ depth : Nat, k.plan.iteration = depth →
    PropertiesTraversed root limit depth k.plan s

section States

variable {root node : Node} {limit depth : Nat} {s s' : State} {mode : Mode}

theorem placed_empty (root : Node) (limit : Nat) (strict : Bool) :
    Placed root limit (.empty strict) where
  planned place k hheld := by simp [State.empty] at hheld
  entries mode label type hentry := by cases mode <;> cases hentry
  found place k hheld := by simp [State.empty] at hheld

theorem MadeOf.mono (hx : Extends s s') {label : Label} {type : Option TypeRef}
    (h : MadeOf root s mode label type depth node) :
    MadeOf root s' mode label type depth node where
  lies := h.lies
  key := by
    obtain ⟨label', hkey, hlabel⟩ := h.key
    exact ⟨label', hkey.mono hx.named, hlabel⟩
  object ms hms hshape := by
    obtain ⟨place, k, rfl, hheld, hplan⟩ := h.object ms hms hshape
    obtain ⟨k', hheld', hplan', -⟩ := hx.composite hheld
    exact ⟨place, k', rfl, hheld', hplan'.trans hplan⟩

theorem PropertiesTraversed.mono (hx : Extends s s') {plan : Plan}
    (h : PropertiesTraversed root limit depth plan s) :
    PropertiesTraversed root limit depth plan s' :=
  fun ps hps p hp => (h ps hps p hp).mono hx

/-- What was known of the entries and of the types that were there stays known. -/
theorem Placed.later (hs : Placed root limit s) (hx : Extends s s')
    (hplanned : ∀ (place : Nat) (k : Composite), s'.types[place]? = some (.composite k) →
      s.types[place]? = none → ∃ depth, PlacedPlan root limit k.plan depth)
    (hentries : ∀ mode label type, Table.get? (s'.cache mode) label = some type →
      Table.get? (s.cache mode) label = some type ∨
        ∃ depth node, MadeOf root s' mode label type depth node)
    (hfound : ∀ (place : Nat) (k : Composite), s'.types[place]? = some (.composite k) →
      k.fields? ≠ none → (∃ k' : Composite, s.types[place]? = some (.composite k') ∧
        k'.plan = k.plan ∧ k'.fields? ≠ none) ∨
      ∀ depth : Nat, k.plan.iteration = depth → PropertiesTraversed root limit depth k.plan s') :
    Placed root limit s' where
  planned place k hheld := by
    cases hold : s.types[place]? with
    | none => exact hplanned place k hheld hold
    | some type =>
        obtain ⟨type', hheld', hbecomes⟩ := hx.types place type hold
        obtain rfl := Option.some.inj (hheld'.symm.trans hheld)
        cases hbecomes with
        | composite _ _ plan _ =>
            rw [plan]
            exact hs.planned place _ hold
  entries mode label type hentry := by
    rcases hentries mode label type hentry with hold | hnew
    · obtain ⟨depth, node, hmade⟩ := hs.entries mode label type hold
      exact ⟨depth, node, hmade.mono hx⟩
    · exact hnew
  found place k hheld hopened depth hdepth := by
    rcases hfound place k hheld hopened with ⟨k', hold, hplan, hopened'⟩ | hnew
    · have htraversed := hs.found place k' hold hopened' depth (by rw [hplan, hdepth])
      rw [← hplan]
      exact htraversed.mono hx
    · exact hnew depth hdepth

/-- The later state is placed if the earlier one is, and has all its types. -/
def StaysPlaced (root : Node) (limit : Nat) (s s' : State) : Prop :=
  Extends s s' ∧ (Placed root limit s → Placed root limit s')

theorem staysPlaced_of_same (hx : Extends s s') (hcache : ∀ mode, s'.cache mode = s.cache mode)
    (htypes : s'.types = s.types) : StaysPlaced root limit s s' := by
  refine ⟨hx, fun hs => hs.later hx ?_ ?_ ?_⟩
  · intro place k hheld hnone
    rw [htypes, hnone] at hheld
    cases hheld
  · intro mode label type hentry
    rw [hcache] at hentry
    exact .inl hentry
  · intro place k hheld hopened
    rw [htypes] at hheld
    exact .inl ⟨k, hheld, rfl, hopened⟩

instance (root : Node) (limit : Nat) : NameFrame (StaysPlaced root limit) where
  refl s := ⟨.refl s, id⟩
  trans _ _ _ h h' := ⟨h.1.trans h'.1, fun hs => h'.2 (h.2 hs)⟩
  log s log := by
    have hadds : Adds s { s with log := log } := NameFrame.log s log
    exact staysPlaced_of_same hadds.extends (fun mode => by cases mode <;> rfl) rfl
  store s text name names log hstore := by
    have hadds : Adds s { s with names := names, log := log } :=
      NameFrame.store s text name names log hstore
    exact staysPlaced_of_same hadds.extends (fun mode => by cases mode <;> rfl) rfl

/-! ## Filing types and keeping fields -/

/-- The fields of a type are kept once its properties were visited. -/
theorem Placed.keep {place : Nat} {type : Composite} (hs : Placed root limit s)
    (hheld : s.types[place]? = some (.composite type))
    (hnone : type.fields? = none) (hdepth : type.plan.iteration = depth)
    (htraversed : PropertiesTraversed root limit depth type.plan s)
    (fields : Table String Field) : Placed root limit (s.keep place type fields) := by
  have hx : Extends s (s.keep place type fields) := extends_keepFields hheld hnone fields
  refine hs.later hx ?_ ?_ ?_
  · intro q k hkept hnew
    rw [types_keep hheld] at hkept
    split at hkept
    · rename_i hsame
      rw [← hsame, hheld] at hnew
      cases hnew
    · rw [hnew] at hkept
      cases hkept
  · intro mode label found hentry
    rw [cache_keep] at hentry
    exact .inl hentry
  · intro q k hkept hopened
    rw [types_keep hheld] at hkept
    split at hkept
    · cases hkept
      refine .inr fun depth' hdepth' => ?_
      obtain rfl : depth = depth' := Int.ofNat.inj (hdepth.symm.trans hdepth')
      exact htraversed.mono hx
    · exact .inl ⟨k, hkept, rfl, hopened⟩

/-- A type without fields is filed under a key of its node. -/
theorem StaysPlaced.fileType {type : NamedType} {label : Label}
    (hunopened : ∀ k, type = .composite k → k.fields? = none)
    (hplan : ∀ k, type = .composite k → PlacedPlan root limit k.plan depth)
    (hlies : Lies root depth node) (hkey : KeyOf s.Named node mode label)
    (hobject : ∀ ms, node.schema = .map ms → Schema.shape? ms = some .object →
      ∃ k : Composite, type = .composite k ∧ k.plan = ⟨ms, [], node.mode, depth⟩) :
    StaysPlaced root limit s (s.fileType type mode label) := by
  have hadds : Adds s (s.fileType type mode label) :=
    trans_of Adds (TypeFrame.addType s _) (TypeFrame.setCached _ _ _ _)
  have hnew : (s.fileType type mode label).types[s.types.size]? = some type := by
    simp [types_fileType]
  have hpush : ∀ (place : Nat) (k : Composite),
      (s.fileType type mode label).types[place]? = some (.composite k) →
      s.types[place]? = some (.composite k) ∨ type = .composite k := by
    intro place k hheld
    rw [types_fileType, Array.getElem?_push] at hheld
    split at hheld
    · exact .inr (Option.some.inj hheld)
    · exact .inl hheld
  refine ⟨hadds.extends, fun hs => hs.later hadds.extends ?_ ?_ ?_⟩
  · intro place k hheld hnone
    rcases hpush place k hheld with hold | hnew
    · rw [hnone] at hold
      cases hold
    · exact ⟨depth, hplan k hnew⟩
  · intro ns q found hentry
    rw [get?_cache_fileType] at hentry
    split at hentry
    · rename_i hsame
      obtain ⟨rfl, hlabel⟩ := hsame
      obtain rfl := Option.some.inj hentry
      refine .inr ⟨depth, node, hlies, ?_, ?_⟩
      · exact ⟨label, hkey.mono hadds.extends.named, (Label.beq_iff _ _).mp hlabel⟩
      · intro ms hms hshape
        obtain ⟨k, rfl, hk⟩ := hobject ms hms hshape
        exact ⟨_, k, rfl, hnew, hk⟩
    · exact .inl hentry
  · intro place k hheld hopened
    rcases hpush place k hheld with hold | hnew
    · exact .inl ⟨k, hold, rfl, hopened⟩
    · exact absurd (hunopened k hnew) hopened

/-- An object is visited when its type is asked for, whether or not it is there already. -/
theorem objectType_visits (hs : Placed root limit s) {name : Value} {ms : Schema.Members}
    (hlies : Lies root depth ⟨mode, name, .map ms⟩) (hshape : Schema.shape? ms = some .object)
    (hbelow : depth < limit) :
    Ensures (StaysPlaced root limit) s (objectType name ⟨ms, [], mode, depth⟩)
      fun _ => Traversed root limit depth ⟨mode, name, .map ms⟩ := by
  refine (objectType_files fun t k label hname hplan hunopened _ _ => ?_).weaken ?_
  · subst hname
    refine .fileType ?_ ?_ hlies ?_ ?_
    · rintro _ ⟨⟩
      exact hunopened
    · rintro _ ⟨⟩
      rw [hplan]
      exact ⟨rfl, rfl, hbelow, hshape, _, hlies⟩
    · exact .object hshape (Value.label?_eq_some_iff.mpr rfl)
    · rintro _ ⟨⟩ -
      exact ⟨k, rfl, hplan⟩
  · rintro found s' h ⟨label, rfl, hentry, -⟩ hapart
    obtain ⟨depth', node', hmade⟩ := (h.2 hs).entries _ _ _ hentry
    obtain ⟨label', hkey, hlabel⟩ := hmade.key
    have hown : KeyOf s'.Named ⟨mode, label.value, .map ms⟩ mode label :=
      .object hshape (Value.label?_eq_some_iff.mpr rfl)
    obtain ⟨rfl, rfl⟩ := hapart _ _ _ _ _ _ _ hlies hmade.lies hown hkey hlabel.symm
    obtain ⟨place, k, -, hheld, hplan⟩ := hmade.object ms rfl hshape
    exact .object hbelow hshape hheld hplan

theorem enumerationType_placed {name : Value} {ms : Schema.Members}
    (hlies : Lies root depth ⟨mode, name, .map ms⟩)
    (hshape : Schema.shape? ms = some .enumeration) :
    Ensures (StaysPlaced root limit) s (enumerationType name ms) fun _ _ => True := by
  unfold enumerationType
  refine .bind (named_storeName name.plain) ?_
  rintro key s₁ - ⟨hnamed, -⟩
  split
  · exact .throw _
  · rename_i literals _
    suffices hmade : Ensures (StaysPlaced root limit) s₁ (resolveEnumeration key literals)
        fun _ _ => True from hmade.bind fun _ _ _ _ => .pure trivial
    refine .get_bind ?_
    split
    · exact .bind ((keeps_report _ _).ensures s₁) fun _ _ _ _ => .pure trivial
    · refine .bind (.report _ _ (Q := fun _ t => t.Named name.plain key)
        fun log => ⟨NameFrame.log s₁ log, hnamed⟩) ?_
      intro _ s₂ _ hnamed
      refine .bind (.still (keeps_access _)) ?_
      rintro vs s₂ - rfl
      refine .bind (.still (keeps_liftExcept _)) ?_
      rintro members s₂ - rfl
      refine .bind (.still (keeps_checkTypeName key)) ?_
      rintro - s₂ - rfl
      refine fileType_ensures _ _ _ _ (.fileType nofun nofun hlies (.enumeration hshape hnamed) ?_)
        trivial
      rintro _ ⟨⟩ hobject
      simp [hshape] at hobject

end States

end RestGraph.Graph
