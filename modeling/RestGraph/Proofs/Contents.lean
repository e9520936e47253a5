import RestGraph.Proofs.Reach
import RestGraph.Proofs.Turn

namespace RestGraph.Graph

open Build

/-!
# Types without contents

A graph has a type for each object whose schema lists properties, and for each enumeration. What
such a schema lists may still come to nothing: a property is left out if it stands for no type,
and an enumeration may list no literals. Nothing else leaves a type without contents.
-/

/-- The node may stand for no type: it has a shape that gives none, its items give none, or it
shares its key with such a node. -/
inductive Blank (c : Catalog) (given : Node → Prop) (named : String → String → Prop) :
    Node → Prop
  | emptyObject {mode : Mode} {name : Value} {ms : Schema.Members}
      (shape : Schema.shape? ms = some .emptyObject) : Blank c given named ⟨mode, name, .map ms⟩
  | scalar {mode : Mode} {name : Value} {ms : Schema.Members}
      (shape : Schema.shape? ms = some .scalar) (untyped : scalarType ms = none) :
      Blank c given named ⟨mode, name, .map ms⟩
  | array {mode : Mode} {name items : Value} {ms : Schema.Members} {node : Node}
      (shape : Schema.shape? ms = some .array) (entry : Table.get? ms "items" = some items)
      (slot : Slot c given named mode (itemsLabel name items) items node)
      (blank : Blank c given named node) : Blank c given named ⟨mode, name, .map ms⟩
  | shared {ns : Mode} {key : Key} {node other : Node} (filed : Filed c given named ns key node)
      (filed' : Filed c given named ns key other) (blank : Blank c given named other) :
      Blank c given named node

/-- A node whose type has no contents: no literals are listed, or all properties that are listed
stand for no type. -/
inductive Barren (c : Catalog) (given : Node → Prop) (named : String → String → Prop) :
    Node → Prop
  | enumeration {mode : Mode} {name literals : Value} {ms : Schema.Members}
      (shape : Schema.shape? ms = some .enumeration)
      (entry : Table.get? ms "enum" = some literals) (items : literals.iterate = .ok []) :
      Barren c given named ⟨mode, name, .map ms⟩
  | object {mode : Mode} {name : Value} {ms : Schema.Members} {ps : List (String × Value)}
      (shape : Schema.shape? ms = some .object) (found : properties ms = .ok ps)
      (blank : ∀ p ∈ ps, ∃ node, Slot c given named mode (.text p.1) p.2 node ∧
        Blank c given named node) : Barren c given named ⟨mode, name, .map ms⟩

/-- The type has fields, which were found, or members. -/
def NamedType.HasContents : NamedType → Prop
  | .composite k => ∃ fields, k.fields? = some fields ∧ fields ≠ []
  | .enumeration e => e.members ≠ []

/-- The schema of the node is what the contents of the type are made from. -/
inductive NamedType.MadeFrom : NamedType → Node → Prop
  | composite {k : Composite} {name : Value} :
      MadeFrom (.composite k) ⟨k.plan.mode, name, .map k.plan.schema⟩
  | enumeration {e : Enumeration} {mode : Mode} {name : Value} {ms : Schema.Members}
      (listed : e.ListedBy ms) : MadeFrom (.enumeration e) ⟨mode, name, .map ms⟩

section Laws

variable {c : Catalog} {given : Node → Prop} {s s' : State}

/-! ## Composite types -/

/-- The induction is on how the node came to have no type. -/
theorem Made.blank {node : Node} {type : Option TypeRef} (h : Made c given s node type) :
    type = none → Blank c given s.Named node := by
  induction h with
  | scalar shape => exact .scalar shape
  | emptyObject shape => exact fun _ => .emptyObject shape
  | object => exact nofun
  | enumeration => exact nofun
  | array shape entry slot made ih =>
      intro hnone
      exact .array shape entry slot (ih (Option.map_eq_none_iff.mp hnone))
  | shared filed filed' made ih => exact fun hnone => .shared filed filed' (ih hnone)

theorem FieldsMade.blank {mode : Mode} {required : List String} {ps : List (String × Value)}
    {fields : List (String × Field)} (h : FieldsMade c given s mode required ps fields) :
    fields = [] → ∀ p ∈ ps, ∃ node, Slot c given s.Named mode (.text p.1) p.2 node ∧
      Blank c given s.Named node := by
  induction h with
  | nil => simp
  | skip slot made rest ih =>
      intro hnone
      exact List.forall_mem_cons.mpr ⟨⟨_, slot, made.blank rfl⟩, ih hnone⟩
  | keep => exact nofun

theorem eq_nil_of_ofList {entries : List (String × Field)} (h : Table.ofList entries = []) :
    entries = [] := by
  cases entries with
  | nil => rfl
  | cons e entries =>
      have hmem : Table.contains (Table.ofList (e :: entries)) e.1 = true :=
        Table.contains_insertAll_of_mem [] ⟨e, List.mem_cons_self, beq_self_eq_true e.1⟩
      rw [h] at hmem
      cases hmem

theorem Filled.barren {plan : Plan} {name : Value}
    (hshape : Schema.shape? plan.schema = some .object) (h : Filled c given s plan []) :
    Barren c given s.Named ⟨plan.mode, name, .map plan.schema⟩ := by
  obtain ⟨required, ps, own, links, -, hps, hown, hfields, -⟩ := h
  have hnone : own = [] := (List.append_eq_nil_iff.mp (eq_nil_of_ofList hfields.symm)).1
  exact .object hshape hps (hown.blank hnone)

theorem Faithful.contents_of_composite {linked : Prop} (hs : Faithful c given linked s)
    {place : Nat} {k : Composite} (hheld : s.types[place]? = some (.composite k))
    {fields : Table String Field} (hfields : k.fields? = some fields) :
    (NamedType.composite k).HasContents ∨ ∃ node, Known c given node ∧
      Barren c given s.Named node ∧ (NamedType.composite k).MadeFrom node := by
  obtain ⟨⟨name, hknown⟩, hshape, -, hfilled⟩ := hs.composites place k hheld
  by_cases hnone : fields = []
  · subst hnone
    exact .inr ⟨_, hknown, (hfilled [] hfields).barren hshape, .composite⟩
  · exact .inl ⟨fields, hfields, hnone⟩

/-! ## Enumerations -/

/-- The members of every enumeration are the literals of a node that was met. -/
def Listed (c : Catalog) (given : Node → Prop) (s : State) : Prop :=
  ∀ (place : Nat) (e : Enumeration), s.types[place]? = some (.enumeration e) →
    ∃ mode name ms, Met c given ⟨mode, name, .map ms⟩ ∧
      Schema.shape? ms = some .enumeration ∧ e.ListedBy ms

theorem Listed.change (h : Change c given s s') (hs : Listed c given s) : Listed c given s' := by
  intro place e hplace
  cases h with
  | log log => exact hs place e hplace
  | store stored log => exact hs place e hplace
  | definition defined read =>
      rw [types_setCached] at hplace
      exact hs place e hplace
  | object =>
      rw [types_fileType, Array.getElem?_push] at hplace
      split at hplace
      · cases hplace
      · exact hs place e hplace
  | enumeration met shape named free listed =>
      rw [types_fileType, Array.getElem?_push] at hplace
      split at hplace
      · cases hplace
        exact ⟨_, _, _, met, shape, listed⟩
      · exact hs place e hplace

theorem Listed.progresses (h : Progresses c given s s') (hs : Listed c given s) :
    Listed c given s' := by
  refine h.invariant (fun _ _ hchange _ => Listed.change hchange) ?_ (fun _ _ hname => hname) hs
  intro s s' place type fields _ _ _ hs' hheld _ _ q e hq
  rw [types_keep hheld] at hq
  split at hq
  · cases hq
  · exact hs' q e hq

theorem Listed.contents_of_enumeration (hs : Listed c given s) {place : Nat} {e : Enumeration}
    (hheld : s.types[place]? = some (.enumeration e)) :
    (NamedType.enumeration e).HasContents ∨ ∃ node, Known c given node ∧
      Barren c given s.Named node ∧ (NamedType.enumeration e).MadeFrom node := by
  obtain ⟨mode, name, ms, hmet, hshape, literals, vs, hentry, hitems, hmembers⟩ := hs place e hheld
  cases vs with
  | nil =>
      have hlisted : e.ListedBy ms := ⟨literals, [], hentry, hitems, hmembers⟩
      exact .inr ⟨_, hmet.known, .enumeration hshape hentry hitems, .enumeration hlisted⟩
  | cons v vs =>
      have hne : e.members ≠ [] := by
        rw [hmembers]
        exact List.cons_ne_nil _ _
      exact .inl hne

end Laws

/-! ## Whole graphs -/

/-- From a state whose plans are those of objects there is progress to the other. -/
def Proceeds (c : Catalog) (s s' : State) : Prop :=
  Planned c (fun _ => False) s → Progresses c (fun _ => False) s s'

def StaysFaithful (c : Catalog) (s s' : State) : Prop :=
  Faithful c (fun _ => False) True s → Faithful c (fun _ => False) True s'

instance (c : Catalog) : NameFrame (Proceeds c) where
  refl _ _ := .refl
  trans _ _ _ h h' hs := (h hs).trans (h' (hs.progresses (h hs)))
  log s log _ := Evolves.progresses (NameFrame.log s log)
  store s text name names log hstore _ :=
    Evolves.progresses (NameFrame.store s text name names log hstore)

instance (c : Catalog) : NameFrame (StaysFaithful c) where
  refl _ := id
  trans _ _ _ h h' := h' ∘ h
  log s log :=
    have hsteady : Steady c (fun _ => False) True s { s with log := log } := NameFrame.log s log
    hsteady.2
  store s text name names log hstore :=
    have hsteady : Steady c (fun _ => False) True s { s with names := names, log := log } :=
      NameFrame.store s text name names log hstore
    hsteady.2

theorem building_proceeds (c : Catalog) : Building c (Proceeds c) where
  response o _ name _ links s hs := by
    have hcall : (Call.step (.response name links)).Within c fun _ => False := by
      intro node hnode
      cases hnode with
      | translate mem => simp at mem
      | property mem => simp at mem
    rw [← run_step]
    exact (call_progresses hs hcall).1
  arguments _ _ _ _ := (arguments_passed _ _ _).1.progresses
  fields place s hs := (fieldsAt_progresses hs place).1

theorem building_staysFaithful (c : Catalog) : Building c (StaysFaithful c) where
  response _ _ name _ links s hs := by
    have hwithin : (Step.response name links).Within (fun _ => False) True :=
      ⟨nofun, .inr trivial⟩
    exact (step_ensures hs hwithin).1.2 hs
  arguments o _ s hs := (arguments_steady hs _ _ _).1.2 hs
  fields place s hs := (fieldsAt_ensures hs place).1.2 hs

theorem buildApi_query (c : Catalog) (s : State) :
    Ensures NamesReach s (buildApi c) fun api _ => api.roots.query ≠ [] := by
  have hbuilding := building_namesReach c
  refine .bind (hbuilding.keeps_translateResponses.ensures s) fun _ s₁ _ _ => ?_
  refine .bind ((hbuilding.keeps_rootFields (List.Subset.refl _) _).ensures s₁) ?_
  intro roots s₂ _ _
  dsimp only
  split
  · exact .bind (Q := fun _ _ => False) (.throw _) fun _ _ _ h => h.elim
  · rename_i hsome
    refine .bind ((hbuilding.keeps_reach _ _).ensures s₂) fun _ s₃ _ _ => ?_
    refine .bind ((hbuilding.keeps_reach _ _).ensures s₃) fun _ s₄ _ _ => ?_
    refine .get_bind ?_
    split
    · exact .throw _
    · refine .pure fun hnone => hsome ?_
      exact List.isEmpty_iff.mpr hnone

theorem Api.Complete.opened_of_reached {api : Api} {s : State} (h : api.Complete s) {place : Nat}
    (hreached : Reached s api.roots.types place) :
    Opened s (api.queryPlaces ++ api.mutationPlaces) place := by
  refine h.opened place (hreached.mem ?_ h.opened)
  intro q hq
  unfold Roots.types at hq
  rw [placesOf_append] at hq
  apply List.mem_append.mpr
  by_cases hquery : Reached s (mentioned api.roots.query) q
  · exact .inl ((h.query q).mpr hquery)
  · rcases List.mem_append.mp hq with hq | hq
    · exact absurd (.root hq) hquery
    · exact .inr ((h.mutation q).mpr ⟨.root hq, hquery⟩)

/-- Queries have a field in every graph. Any other type that the roots of a graph lead to has
fields or members too, unless the schema that it was made from lists no literals or nothing but
properties that stand for no type. -/
theorem contents_of_every_api {config : Config} {fetches : Bool} {document : Value} {c : Catalog}
    {api : Api} {s : State} (h : ofDocument config fetches document buildApi = (.ok (c, api), s)) :
    api.roots.query ≠ [] ∧
    ∀ place, Reached s api.roots.types place → ∃ type, s.types[place]? = some type ∧
      (type.HasContents ∨ ∃ node, Known c (fun _ => False) node ∧
        Barren c (fun _ => False) s.Named node ∧ type.MadeFrom node) := by
  obtain ⟨log, -, hrun⟩ := run_of_ofDocument h
  have hstart := regular_atStart c config log
  have hlisted : Listed c (fun _ => False) (atStart config log) := by
    intro place e hplace
    simp [atStart, State.empty] at hplace
  have hfaithful : Faithful c (fun _ => False) True (atStart config log) :=
    (faithful_empty config.strictNames).names (Adds.extends (NameFrame.log _ log))
      (fun mode => by cases mode <;> rfl) rfl
  have hend : ((buildApi c).run (atStart config log)).2 = s := by rw [hrun]
  have hprogresses : Progresses c (fun _ => False) (atStart config log) s :=
    hend ▸ (building_proceeds c).keeps_buildApi _ hstart.planned
  have hs : Faithful c (fun _ => False) True s :=
    hend ▸ (building_staysFaithful c).keeps_buildApi _ hfaithful
  have hcomplete : api.Complete s := ((buildApi_complete hstart).of_ok hrun).2
  refine ⟨((buildApi_query c _).of_ok hrun).2, fun place hreached => ?_⟩
  obtain ⟨type, hheld, hopen⟩ := hcomplete.opened_of_reached hreached
  refine ⟨type, hheld, ?_⟩
  cases type with
  | composite k =>
      obtain ⟨fields, hfields, -⟩ := hopen k rfl
      exact hs.contents_of_composite hheld hfields
  | enumeration e => exact (hlisted.progresses hprogresses).contents_of_enumeration hheld

/-! ### Photos

The only property of a photo is a file, for which there is no type. Its kinds list no literals.
-/

def State.contentsAt? (s : State) (place : Nat) : Option Nat :=
  match s.types[place]? with
  | some (.composite k) => k.fields?.map List.length
  | some (.enumeration e) => some e.members.length
  | none => none

theorem contentsAt?_ne_zero {s : State} {place n : Nat} (h : s.contentsAt? place = some (n + 1)) :
    ∃ type, s.types[place]? = some type ∧ type.HasContents := by
  unfold State.contentsAt? at h
  split at h
  · rename_i k hheld
    obtain ⟨fields, hfields, hlength⟩ := Option.map_eq_some_iff.mp h
    exact ⟨_, hheld, fields, hfields, List.ne_nil_of_length_eq_add_one hlength⟩
  · rename_i e hheld
    exact ⟨_, hheld, List.ne_nil_of_length_eq_add_one (Option.some.inj h)⟩
  · cases h

theorem not_hasContents_of_zero {s : State} {place : Nat} (h : s.contentsAt? place = some 0) :
    ∃ type, s.types[place]? = some type ∧ ¬ type.HasContents := by
  unfold State.contentsAt? at h
  split at h
  · rename_i k hheld
    obtain ⟨fields, hfields, hlength⟩ := Option.map_eq_some_iff.mp h
    refine ⟨_, hheld, ?_⟩
    rintro ⟨found, hfound, hne⟩
    obtain rfl := Option.some.inj (hfields.symm.trans hfound)
    exact hne (List.length_eq_zero_iff.mp hlength)
  · rename_i e hheld
    exact ⟨_, hheld, fun hne => hne (List.length_eq_zero_iff.mp (Option.some.inj h))⟩
  · cases h

def photoDocument : Value :=
  .map [("openapi", .text "3.0.0"),
    ("paths", .map [
      ("/photo", .map [("get", Catalog.answering [("operationId", .text "getPhoto")]
        (.map [("type", .text "object"),
          ("properties", .map [("photo", Catalog.ofType "file")])]))]),
      ("/kind", .map [("get", Catalog.answering [("operationId", .text "getKind")]
        (.map [("enum", .list [])]))])])]

/-- What there is at each place of the queries of a graph. -/
def contentsOfQueries (document : Value) : Option (List (Option Nat)) :=
  (built? (ofDocument default true document buildApi)).map fun b =>
    b.2.1.queryPlaces.map b.2.2.contentsAt?

theorem contents_of_photos : contentsOfQueries photoDocument = some [some 0, some 0] := by
  decide +kernel

theorem contents_of_node_places : contentsOfQueries nodesDocument = some [some 2, some 1] := by
  decide +kernel

/-- A node and its tag have fields. -/
theorem contents_of_nodes :
    ∃ c api s, ofDocument default true nodesDocument buildApi = (.ok (c, api), s) ∧
      api.roots.query ≠ [] ∧ api.queryPlaces ≠ [] ∧
      ∀ place ∈ api.queryPlaces, ∃ type, s.types[place]? = some type ∧ type.HasContents := by
  obtain ⟨⟨c, api, s⟩, hbuilt, hcontents⟩ := Option.map_eq_some_iff.mp contents_of_node_places
  obtain ⟨hquery, -⟩ := contents_of_every_api (of_built? hbuilt)
  refine ⟨c, api, s, of_built? hbuilt, hquery, ?_, fun place hplace => ?_⟩
  · intro hnone
    simp [hnone] at hcontents
  · have hmem : s.contentsAt? place ∈ [some 2, some 1] :=
      hcontents ▸ List.mem_map.mpr ⟨place, hplace, rfl⟩
    rcases List.mem_cons.mp hmem with htwo | hone
    · exact contentsAt?_ne_zero htwo
    · exact contentsAt?_ne_zero (List.mem_singleton.mp hone)

/-- Neither a photo nor its kind has any contents. -/
theorem types_of_photos_are_empty :
    ∃ c api s, ofDocument default true photoDocument buildApi = (.ok (c, api), s) ∧
      api.queryPlaces.length = 2 ∧
      ∀ place ∈ api.queryPlaces, ∃ type, s.types[place]? = some type ∧ ¬ type.HasContents := by
  obtain ⟨⟨c, api, s⟩, hbuilt, hcontents⟩ := Option.map_eq_some_iff.mp contents_of_photos
  refine ⟨c, api, s, of_built? hbuilt, ?_, fun place hplace => ?_⟩
  · simpa using congrArg List.length hcontents
  · have hmem : s.contentsAt? place ∈ [some 0, some 0] :=
      hcontents ▸ List.mem_map.mpr ⟨place, hplace, rfl⟩
    exact not_hasContents_of_zero (by simpa using hmem)

end RestGraph.Graph
