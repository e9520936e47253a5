import Mathlib.Data.List.Nodup
import RestGraph.Proofs.Api
import RestGraph.Proofs.Nesting
import RestGraph.Proofs.SchemaKey

namespace RestGraph.Graph

open Build

/-!
# Going through all types ends

An object type is made for a key of its mode that nothing was kept under, and afterwards
something always is. So each key has one such type at most in either mode. As there are finitely
many keys, the fields of all types can be asked for in any order, and after finitely many tries
no type is left.
-/

/-! ## One type for a key -/

/-- The object type is that of a node, under whose name it is kept and after which it is
named. -/
structure Stands (nodes : Node → Prop) (s : State) (key : Label) (type : Composite) : Prop where
  node : nodes ⟨type.plan.mode, key.value, .map type.plan.schema⟩
  shape : Schema.shape? type.plan.schema = some .object
  named : s.NamedAfter type.name type.plan.mode key
  kept : Table.get? (s.cache type.plan.mode) key ≠ none

/-- Each object type has its key, and no other one of its mode has that key too. -/
structure KeyedBy (nodes : Node → Prop) (key : Nat → Label) (s : State) : Prop where
  stands : ∀ place type, s.types[place]? = some (.composite type) →
    Stands nodes s (key place) type
  once : ∀ place type other type', s.types[place]? = some (.composite type) →
    s.types[other]? = some (.composite type') → type'.plan.mode = type.plan.mode →
    (key other == key place) = true → other = place

def Tracks (nodes : Node → Prop) (s s' : State) : Prop :=
  ∀ key, KeyedBy nodes key s → ∃ key', KeyedBy nodes key' s'

section Laws

variable {nodes : Node → Prop} {key : Nat → Label} {s s' : State}

theorem keyedBy_of_no_types (nodes : Node → Prop) (key : Nat → Label) (hs : s.types = #[]) :
    KeyedBy nodes key s := by
  have hnone : ∀ (place : Nat) (type : Composite), s.types[place]? ≠ some (.composite type) := by
    intro place type h
    simp [hs] at h
  exact ⟨fun place type h => absurd h (hnone place type),
    fun place type _ _ h => absurd h (hnone place type)⟩

/-- What was named is so still, and where something was kept there is something still. -/
structure Persists (s s' : State) : Prop where
  names : ∀ text name, s.Named text name → s'.Named text name
  kept : ∀ mode label, Table.get? (s.cache mode) label ≠ none →
    Table.get? (s'.cache mode) label ≠ none

theorem persists_setCached (s : State) (mode : Mode) (label : Label) (type : Option TypeRef) :
    Persists s (s.setCached mode label type) := by
  refine ⟨fun text name h => ?_, fun ns q h => ?_⟩
  · unfold State.Named at h ⊢
    rwa [names_setCached]
  · rw [get?_cache_setCached]
    split
    · exact Option.some_ne_none _
    · exact h

theorem persists_fileType (s : State) (type : NamedType) (mode : Mode) (label : Label) :
    Persists s (s.fileType type mode label) := by
  refine ⟨fun text name h => ?_, fun ns q h => ?_⟩
  · unfold State.Named at h ⊢
    rwa [names_fileType]
  · rw [get?_cache_fileType]
    split
    · exact Option.some_ne_none _
    · exact h

theorem State.NamedAfter.later {name : String} {mode : Mode} {label : Label}
    (h : s.NamedAfter name mode label) (hs : Persists s s') : s'.NamedAfter name mode label := by
  obtain ⟨text, htext, hname⟩ := h
  exact ⟨text, htext, hs.names text name hname⟩

theorem Stands.later {label : Label} {type type' : Composite} (h : Stands nodes s label type)
    (hs : Persists s s') (hplan : type'.plan = type.plan) (hname : type'.name = type.name) :
    Stands nodes s' label type' := by
  constructor
  · exact hplan ▸ h.node
  · exact hplan ▸ h.shape
  · exact hplan ▸ hname ▸ h.named.later hs
  · exact hplan ▸ hs.kept _ _ h.kept

/-- The object types are the same but for their fields. -/
theorem KeyedBy.later (h : KeyedBy nodes key s) (hs : Persists s s')
    (htypes : ∀ (place : Nat) (type' : Composite), s'.types[place]? = some (.composite type') →
      ∃ type : Composite, s.types[place]? = some (.composite type) ∧ type'.plan = type.plan ∧
        type'.name = type.name) : KeyedBy nodes key s' := by
  constructor
  · intro place type' hplace
    obtain ⟨type, hheld, hplan, hname⟩ := htypes place type' hplace
    exact (h.stands place type hheld).later hs hplan hname
  · intro place type' other other' hplace hother hmode hkeys
    obtain ⟨type, hheld, hplan, -⟩ := htypes place type' hplace
    obtain ⟨type₂, hheld₂, hplan₂, -⟩ := htypes other other' hother
    exact h.once place type other type₂ hheld hheld₂ (by rw [← hplan, ← hplan₂, hmode]) hkeys

theorem KeyedBy.setCached (h : KeyedBy nodes key s) (mode : Mode) (label : Label)
    (type : Option TypeRef) : KeyedBy nodes key (s.setCached mode label type) := by
  refine h.later (persists_setCached s mode label type) fun place type' hplace => ?_
  rw [types_setCached] at hplace
  exact ⟨type', hplace, rfl, rfl⟩

theorem composite_of_fileType {type : NamedType} {mode : Mode} {label : Label} {place : Nat}
    {type' : Composite}
    (h : (s.fileType type mode label).types[place]? = some (.composite type')) :
    place = s.types.size ∧ type = .composite type' ∨
      place ≠ s.types.size ∧ s.types[place]? = some (.composite type') := by
  rw [types_fileType, Array.getElem?_push] at h
  split at h
  · rename_i hplace
    exact .inl ⟨hplace, Option.some.inj h⟩
  · rename_i hplace
    exact .inr ⟨hplace, h⟩

theorem KeyedBy.fileEnumeration (h : KeyedBy nodes key s) (e : Enumeration) (mode : Mode)
    (label : Label) : KeyedBy nodes key (s.fileType (.enumeration e) mode label) := by
  refine h.later (persists_fileType s _ mode label) fun place type' hplace => ?_
  rcases composite_of_fileType hplace with ⟨-, hnew⟩ | ⟨-, hheld⟩
  · cases hnew
  · exact ⟨type', hheld, rfl, rfl⟩

/-- A new object type has the key that it is filed under. No other one has it, for nothing was
kept there. -/
theorem KeyedBy.fileObject (h : KeyedBy nodes key s) {type : Composite} {label : Label}
    (hnode : nodes ⟨type.plan.mode, label.value, .map type.plan.schema⟩)
    (hshape : Schema.shape? type.plan.schema = some .object)
    (hnamed : s.NamedAfter type.name type.plan.mode label)
    (hfree : Table.get? (s.cache type.plan.mode) label = none) :
    KeyedBy nodes (Function.update key s.types.size label)
      (s.fileType (.composite type) type.plan.mode label) := by
  have hs := persists_fileType s (.composite type) type.plan.mode label
  have hother : ∀ place type', s.types[place]? = some (.composite type') →
      type'.plan.mode = type.plan.mode → ¬ (key place == label) = true := by
    intro place type' hheld hmode hkeys
    refine (h.stands place type' hheld).kept ?_
    rw [hmode, Table.get?_congr _ hkeys, hfree]
  constructor
  · intro place type' hplace
    rcases composite_of_fileType hplace with ⟨rfl, hnew⟩ | ⟨hne, hheld⟩
    · obtain rfl := NamedType.composite.inj hnew
      rw [Function.update_self]
      refine ⟨hnode, hshape, hnamed.later hs, ?_⟩
      simp [get?_cache_fileType]
    · rw [Function.update_of_ne hne]
      exact (h.stands place type' hheld).later hs rfl rfl
  · intro place type' other other' hplace hother' hmode hkeys
    rcases composite_of_fileType hplace with ⟨rfl, hnew⟩ | ⟨hne, hheld⟩
    · obtain rfl := NamedType.composite.inj hnew
      rcases composite_of_fileType hother' with ⟨rfl, -⟩ | ⟨hne', hheld'⟩
      · rfl
      · rw [Function.update_self, Function.update_of_ne hne'] at hkeys
        exact absurd hkeys (hother other other' hheld' hmode)
    · rcases composite_of_fileType hother' with ⟨rfl, hnew⟩ | ⟨hne', hheld'⟩
      · obtain rfl := NamedType.composite.inj hnew
        rw [Function.update_self, Function.update_of_ne hne] at hkeys
        exact absurd (BEq.symm hkeys) (hother place type' hheld hmode.symm)
      · rw [Function.update_of_ne hne, Function.update_of_ne hne'] at hkeys
        exact h.once place type' other other' hheld hheld' hmode hkeys

theorem KeyedBy.keep (h : KeyedBy nodes key s) {place : Nat} {type : Composite}
    (hheld : s.types[place]? = some (.composite type)) (fields : Table String Field) :
    KeyedBy nodes key (s.keep place type fields) := by
  refine h.later ⟨fun _ _ hname => hname, fun mode label hkept => ?_⟩ fun q type' hq => ?_
  · rwa [cache_keep]
  · rw [types_keep hheld] at hq
    split at hq
    · rename_i hplace
      cases hq
      exact ⟨type, hplace ▸ hheld, rfl, rfl⟩
    · exact ⟨type', hq, rfl, rfl⟩

/-! ## Whatever is built -/

instance (nodes : Node → Prop) : NameFrame (Tracks nodes) where
  refl _ key h := ⟨key, h⟩
  trans _ _ _ h h' key hkey := by
    obtain ⟨key', hkey'⟩ := h key hkey
    exact h' key' hkey'
  log s log key h := ⟨key, h.later ⟨fun _ _ => id, fun mode _ => by cases mode <;> exact id⟩
    fun _ type' hplace => ⟨type', hplace, rfl, rfl⟩⟩
  store s text name names log hstore key h := by
    refine ⟨key, h.later ⟨?_, fun mode _ => by cases mode <;> exact id⟩
      fun _ type' hplace => ⟨type', hplace, rfl, rfl⟩⟩
    exact fun text' name' hname => (Name.Registry.grows_store hstore).1.name text' name' hname

theorem tracks_setCached (s : State) (mode : Mode) (label : Label) (type : Option TypeRef) :
    Tracks nodes s (s.setCached mode label type) :=
  fun key h => ⟨key, h.setCached mode label type⟩

theorem filing_tracks (nodes : Node → Prop) (mode : Mode) : Filing nodes mode (Tracks nodes) where
  object s type label hmode hnode hshape _ hnamed hfree key h := by
    subst hmode
    exact ⟨_, h.fileObject hnode hshape hnamed hfree⟩
  enumeration s e _ key h := ⟨key, h.fileEnumeration e .output _⟩
  reference s s' label type h _ := trans_of (Tracks nodes) h (tracks_setCached s' mode label type)

theorem opening_tracks (nodes : Node → Prop) : Opening nodes (Tracks nodes) where
  filing := filing_tracks nodes
  keep _ _ _ fields hheld _ key h := ⟨key, h.keep hheld fields⟩

end Laws

section Builds

variable {c : Catalog}

theorem keeps_fieldsAt_tracks (c : Catalog) (place : Nat) :
    Keeps (Tracks (Within c)) (fieldsAt c place) := by
  intro s key h
  refine (opening_tracks (Within c)).keeps_fieldsAt (closed_within c) (fun type hheld => ?_) key h
  have hstands := h.stands place type hheld
  exact (closed_within c).plan hstands.node hstands.shape

theorem building_tracks (c : Catalog) : Building c (Tracks (Within c)) where
  response o ho name hname links := by
    have htranslate := (filing_tracks (Within c) .output).keeps_translate (closed_within c)
      (fun ms hms => within_root (List.mem_filterMap.mpr ⟨o, ho, hname⟩) (get?_schemas hms)) links 0
    exact htranslate.bind fun type =>
      Keeps.bind (fun s => tracks_setCached s .output _ type) fun _ => .pure _
  arguments o ho := by
    refine (filing_tracks _ _).keeps_arguments (closed_within c) _ _ ?_
    intro name hname found hfound
    refine within_root (List.mem_filterMap.mpr ⟨o, ho, ?_⟩) hfound
    split at hname
    · exact hname
    · cases hname
  fields place := keeps_fieldsAt_tracks c place

end Builds

/-! ## Asking for the fields of all types -/

/-- The state after the responses of a description were translated, or its graph was built. -/
inductive Started (c : Catalog) (s : State) : Prop
  | responses {config : Config} {fetches : Bool} {document : Value}
      (translated : ofDocument config fetches document translateResponses = (.ok (c, ()), s)) :
      Started c s
  | api {config : Config} {fetches : Bool} {document : Value} {api : Api}
      (built : ofDocument config fetches document buildApi = (.ok (c, api), s)) : Started c s

/-- The fields of some object types were asked for, of each one once, in some order and whether
they were found or not. The last type is the first in the list. -/
inductive Forced (c : Catalog) (s : State) : List Nat → State → Prop
  | start : Forced c s [] s
  | force {tried : List Nat} {s' : State} {place : Nat} {type : Composite}
      (before : Forced c s tried s') (held : s'.types[place]? = some (.composite type))
      (untried : place ∉ tried) : Forced c s (place :: tried) ((fieldsAt c place).run s').2

/-- There is no object type but those that were tried. -/
def Exhausted (s : State) (tried : List Nat) : Prop :=
  ∀ place type, s.types[place]? = some (.composite type) → place ∈ tried

def State.isOutputAt (s : State) (place : Nat) : Bool :=
  match s.types[place]? with
  | some (.composite type) => type.plan.mode == .output
  | _ => false

section Forcing

variable {c : Catalog} {s s' : State} {tried : List Nat}

theorem Started.keyedBy (h : Started c s) : ∃ key, KeyedBy (Within c) key s := by
  have hstart : ∀ config log, KeyedBy (Within c) (fun _ => .ofText "") (atStart config log) :=
    fun _ _ => keyedBy_of_no_types _ _ rfl
  cases h with
  | @responses config _ _ translated =>
      obtain ⟨log, -, hrun⟩ := run_of_ofDocument translated
      have htracks := (building_tracks c).keeps_translateResponses (atStart config log)
      rw [hrun] at htracks
      exact htracks _ (hstart config log)
  | @api config _ _ _ built =>
      obtain ⟨log, -, hrun⟩ := run_of_ofDocument built
      have htracks := (building_tracks c).keeps_buildApi (atStart config log)
      rw [hrun] at htracks
      exact htracks _ (hstart config log)

theorem Forced.keyedBy (h : Forced c s tried s') (hs : ∃ key, KeyedBy (Within c) key s) :
    ∃ key, KeyedBy (Within c) key s' := by
  induction h with
  | start => exact hs
  | force _ _ _ ih =>
      obtain ⟨key, hkey⟩ := ih
      exact keeps_fieldsAt_tracks c _ _ key hkey

/-- What was tried is an object type, and stays one. -/
theorem Forced.held (h : Forced c s tried s') :
    tried.Nodup ∧ ∀ place ∈ tried, ∃ type, s'.types[place]? = some (.composite type) := by
  induction h with
  | start => exact ⟨List.nodup_nil, by simp⟩
  | @force tried s' place type _ held untried ih =>
      have hx : Extends s' ((fieldsAt c place).run s').2 := (retains_fieldsAt c place s').grows
      have hstays : ∀ (q : Nat) (k : Composite), s'.types[q]? = some (.composite k) →
          ∃ k' : Composite, ((fieldsAt c place).run s').2.types[q]? = some (.composite k') := by
        intro q k hq
        obtain ⟨k', hq', -⟩ := hx.composite hq
        exact ⟨k', hq'⟩
      refine ⟨List.nodup_cons.mpr ⟨untried, ih.1⟩, List.forall_mem_cons.mpr ⟨?_, ?_⟩⟩
      · exact hstays place type held
      · intro q hq
        obtain ⟨k, hk⟩ := ih.2 q hq
        exact hstays q k hk

/-- Types of one mode have different keys, and these are among those of the description. -/
theorem KeyedBy.length_le_keys {key : Nat → Label} (h : KeyedBy (Within c) key s) {mode : Mode}
    {places : List Nat} (hnodup : places.Nodup)
    (hheld : ∀ place ∈ places, ∃ type, s.types[place]? = some (.composite type) ∧
      type.plan.mode = mode) : places.length ≤ (keysOf c mode).length := by
  have hkeys : (places.map fun place => (key place).value).Nodup := by
    refine hnodup.map_on fun place hplace other hother hvalue => ?_
    obtain ⟨type, htype, hmode⟩ := hheld place hplace
    obtain ⟨type', htype', hmode'⟩ := hheld other hother
    have hsame : (key place == key other) = true :=
      (Label.beq_iff _ _).mpr (congrArg Value.key hvalue)
    exact h.once other type' place type htype' htype (hmode.trans hmode'.symm) hsame
  have hamong : (places.map fun place => (key place).value) ⊆ keysOf c mode := by
    intro v hv
    obtain ⟨place, hplace, rfl⟩ := List.mem_map.mp hv
    obtain ⟨type, htype, rfl⟩ := hheld place hplace
    have hstands := h.stands place type htype
    exact hstands.node.name _ rfl hstands.shape
  simpa using (List.subperm_of_subset hkeys hamong).length_le

theorem KeyedBy.length_le {key : Nat → Label} (h : KeyedBy (Within c) key s) {places : List Nat}
    (hnodup : places.Nodup)
    (hheld : ∀ place ∈ places, ∃ type, s.types[place]? = some (.composite type)) :
    places.length ≤ keyBound c := by
  have houtputs : (places.filter s.isOutputAt).length ≤ (keysOf c .output).length := by
    refine h.length_le_keys (hnodup.filter _) fun place hplace => ?_
    obtain ⟨hmem, houtput⟩ := List.mem_filter.mp hplace
    obtain ⟨type, htype⟩ := hheld place hmem
    exact ⟨type, htype, by simpa [State.isOutputAt, htype] using houtput⟩
  have hinputs : (places.filter fun place => !s.isOutputAt place).length ≤
      (keysOf c .input).length := by
    refine h.length_le_keys (hnodup.filter _) fun place hplace => ?_
    obtain ⟨hmem, hinput⟩ := List.mem_filter.mp hplace
    obtain ⟨type, htype⟩ := hheld place hmem
    refine ⟨type, htype, ?_⟩
    cases hmode : type.plan.mode with
    | input => rfl
    | output => simp [State.isOutputAt, htype, hmode] at hinput
  rw [places.length_eq_length_filter_add s.isOutputAt]
  exact Nat.add_le_add houtputs hinputs

theorem Forced.length_le (h : Forced c s tried s') (hs : ∃ key, KeyedBy (Within c) key s) :
    tried.length ≤ keyBound c := by
  obtain ⟨key, hkey⟩ := h.keyedBy hs
  exact hkey.length_le h.held.1 h.held.2

/-- As long as a type is left it can be tried; the induction is on the keys that are left. -/
theorem Forced.exhausts (h : Forced c s tried s') (hs : ∃ key, KeyedBy (Within c) key s) :
    ∃ later s'', Forced c s (later ++ tried) s'' ∧ Exhausted s'' (later ++ tried) := by
  induction hroom : keyBound c - tried.length using Nat.strong_induction_on
    generalizing tried s' with
  | _ room ih =>
      subst hroom
      by_cases hdone : Exhausted s' tried
      · exact ⟨[], s', h, hdone⟩
      · unfold Exhausted at hdone
        push Not at hdone
        obtain ⟨place, type, hheld, huntried⟩ := hdone
        have hnext := Forced.force h hheld huntried
        have hlength : tried.length + 1 ≤ keyBound c := hnext.length_le hs
        obtain ⟨later, s'', hforced, hexhausted⟩ :=
          ih _ (by simp only [List.length_cons]; omega) hnext rfl
        refine ⟨later ++ [place], s'', ?_, ?_⟩
        · simpa using hforced
        · simpa using hexhausted

end Forcing

/-- Every translation makes at most as many nested ones as levels are left. And when the responses
of a description were translated, or its graph was built, the fields of all object types that
there are and that come can be asked for in any order: after finitely many tries none is left.
For the types of each mode have different keys, and these are among the names in the
description. -/
theorem exhaustion_of_every_description :
    (∀ (c : Catalog) (mode : Mode) (name schema : Value) (links : Table String Link)
      (iteration : Int) (s : State), ∃ nested : Nat,
        (Counted.translate c mode name schema links iteration).run s 0 =
          (((translate c mode name schema links iteration).run s).1,
            ((translate c mode name schema links iteration).run s).2, nested) ∧
        (nested : Int) ≤ max 0 (c.config.limit.count - iteration)) ∧
      ∀ (c : Catalog) (s : State), Started c s → ∀ tried s', Forced c s tried s' →
        tried.length ≤ (keysOf c .output).length + (keysOf c .input).length ∧
        (∃ later s'', Forced c s (later ++ tried) s'' ∧ Exhausted s'' (later ++ tried)) ∧
        ∃ key : Nat → Label, ∀ place type, s'.types[place]? = some (.composite type) →
          (key place).value ∈ keysOf c type.plan.mode ∧
          s'.NamedAfter type.name type.plan.mode (key place) ∧
          Table.get? (s'.cache type.plan.mode) (key place) ≠ none ∧
          ∀ other type', s'.types[other]? = some (.composite type') →
            type'.plan.mode = type.plan.mode → (key other == key place) = true →
            other = place := by
  refine ⟨nested_le, fun c s hstarted tried s' hforced => ?_⟩
  have hs := hstarted.keyedBy
  refine ⟨hforced.length_le hs, hforced.exhausts hs, ?_⟩
  obtain ⟨key, hkey⟩ := hforced.keyedBy hs
  refine ⟨key, fun place type hheld => ?_⟩
  have hstands := hkey.stands place type hheld
  refine ⟨hstands.node.name _ rfl hstands.shape, hstands.named, hstands.kept, ?_⟩
  exact fun other type' hother => hkey.once place type other type' hheld hother

/-! ### Nodes and a loop

The parent of a node is a node, and a node stands in its tag again. A loop is an array of loops.
-/

def nodesDocument : Value :=
  let node : Value := .map [("$ref", .text "#/components/schemas/Node")]
  .map [("openapi", .text "3.0.0"),
    ("components", .map [("schemas", .map [
      ("Node", .map [("type", .text "object"), ("properties", .map [("parent", node),
        ("tag", .map [("type", .text "object"), ("properties", .map [("node", node)])])])]),
      ("Loop", .map [("type", .text "array"),
        ("items", .map [("$ref", .text "#/components/schemas/Loop")])])])]),
    ("paths", .map [("/node", getOperation "getNode" [("content", jsonContent node)])])]

/-- How many keys there are for outputs and for inputs, and how many translations are nested in
that of a definition. -/
def exhaustionFacts (c : Catalog) (s : State) (name : String) : Nat × Nat × Nat :=
  ((keysOf c .output).length, (keysOf c .input).length,
    ((Counted.translate c .output (.text name) (c.schema .output name) [] 0).run s 0).2.2)

theorem facts_of_nodes :
    (translated? (ofDocument default true nodesDocument translateResponses)).map
      (fun built => exhaustionFacts built.1 built.2 "Loop") = some (8, 7, 20) := by
  decide +kernel

/-- All types of nodes and tags can be gone through. The loop takes all levels that there are. -/
theorem exhaustion_of_nodes :
    ∃ c s, ofDocument default true nodesDocument translateResponses = (.ok (c, ()), s) ∧
      (∃ tried s', Forced c s tried s' ∧ Exhausted s' tried ∧ tried.length ≤ 15) ∧
      ((Counted.translate c .output (.text "Loop") (c.schema .output "Loop") [] 0).run s 0).2.2 =
        20 := by
  obtain ⟨⟨c, s⟩, hbuilt, hfacts⟩ := Option.map_eq_some_iff.mp facts_of_nodes
  obtain ⟨houtputs, hrest⟩ := Prod.mk.inj hfacts
  obtain ⟨hinputs, hnested⟩ := Prod.mk.inj hrest
  have hstarted : Started c s := .responses (of_translated? hbuilt)
  have hends := exhaustion_of_every_description.2 c s hstarted
  obtain ⟨-, ⟨later, s', hforced, hexhausted⟩, -⟩ := hends [] s .start
  have hlength := (hends _ s' hforced).1
  rw [houtputs, hinputs] at hlength
  exact ⟨c, s, of_translated? hbuilt, ⟨_, s', hforced, hexhausted, hlength⟩, hnested⟩

end RestGraph.Graph
