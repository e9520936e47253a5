import RestGraph.Proofs.Call

namespace RestGraph.Graph

open Build

/-!
# Types for inputs and for outputs

The types of the two modes are kept apart, but enumerations serve both and are kept among the
outputs. A type for outputs never leads to an input type. A type for inputs never leads to an
output type either, if no key of an enumeration is that of anything else among the outputs.
-/

/-- The type leads to a scalar, to an enumeration or to a composite type of the mode. -/
def State.Fits (s : State) (mode : Mode) (t : TypeRef) : Prop :=
  ∀ place, t.place? = some place →
    ∃ type, s.types[place]? = some type ∧ ∀ k, type = .composite k → k.plan.mode = mode

def State.EnumerationAt (s : State) (t : TypeRef) : Prop :=
  ∃ place e, t.place? = some place ∧ s.types[place]? = some (.enumeration e)

def Node.IsEnumeration (node : Node) : Prop :=
  ∃ ms, node.schema = .map ms ∧ Schema.shape? ms = some .enumeration

/-- What shares a key with an enumeration among the outputs is an enumeration. -/
def EnumerationsApart (c : Catalog) (given : Node → Prop) (named : String → String → Prop) :
    Prop :=
  ∀ key node other, Filed c given named .output key node → node.IsEnumeration →
    Filed c given named .output key other → other.IsEnumeration

/-- All types that are kept fit the mode that they are kept for. For inputs this is said if
enumerations are apart; they are then found under their own keys only. -/
structure Sorted (c : Catalog) (given : Node → Prop) (named : String → String → Prop)
    (s : State) : Prop where
  entries : ∀ mode label t, Table.get? (s.cache mode) label = some (some t) →
    mode = .output ∨ EnumerationsApart c given named → s.Fits mode t
  origins : EnumerationsApart c given named →
    ∀ label t, Table.get? (s.cache .output) label = some (some t) →
      ∃ node, Filed c given named .output label.key node ∧ (node.IsEnumeration → s.EnumerationAt t)
  fields : ∀ (place : Nat) (k : Composite) (fields : Table String Field),
    s.types[place]? = some (.composite k) → k.fields? = some fields →
    ∀ e ∈ fieldTypes k.plan.mode fields,
      e.1 = .output ∨ EnumerationsApart c given named → s.Fits e.1 e.2

section Sorting

variable {c : Catalog} {given : Node → Prop} {named : String → String → Prop} {s s' : State}

theorem State.Fits.later (h : Extends s s') {mode : Mode} {t : TypeRef} (ht : s.Fits mode t) :
    s'.Fits mode t := by
  intro place hplace
  obtain ⟨type, htype, hmode⟩ := ht place hplace
  obtain ⟨type', htype', hbecomes⟩ := h.types place type htype
  refine ⟨type', htype', ?_⟩
  rintro k rfl
  cases hbecomes with
  | composite name description plan fields => exact plan ▸ hmode _ rfl

theorem State.EnumerationAt.later (h : Extends s s') {t : TypeRef} (ht : s.EnumerationAt t) :
    s'.EnumerationAt t := by
  obtain ⟨place, e, hplace, hheld⟩ := ht
  exact ⟨place, e, hplace, h.enumeration hheld⟩

theorem State.EnumerationAt.fits {t : TypeRef} (h : s.EnumerationAt t) (mode : Mode) :
    s.Fits mode t := by
  intro place hplace
  obtain ⟨place', e, hplace', hheld⟩ := h
  obtain rfl := Option.some.inj (hplace.symm.trans hplace')
  exact ⟨_, hheld, nofun⟩

theorem State.Fits.of_place? {mode : Mode} {t t' : TypeRef} (h : s.Fits mode t)
    (hsame : t'.place? = t.place?) : s.Fits mode t' :=
  fun place hplace => h place (hsame ▸ hplace)

theorem place?_of_scalarType {ms : Schema.Members} {t : TypeRef} (h : scalarType ms = some t) :
    t.place? = none := by
  obtain ⟨scalar, -, rfl⟩ := Option.map_eq_some_iff.mp h
  rfl

/-! ## Types that are read off -/

/-- Where enumerations are apart, what is kept under the key of an enumeration is one. -/
theorem Sorted.enumerationAt (hs : Sorted c given named s)
    (hapart : EnumerationsApart c given named) {node : Node} {label : Label} {t : TypeRef}
    (hfiled : Filed c given named .output label.key node) (henum : node.IsEnumeration)
    (hentry : Table.get? (s.cache .output) label = some (some t)) : s.EnumerationAt t := by
  obtain ⟨origin, horigin, ht⟩ := hs.origins hapart label t hentry
  exact ht (hapart _ node origin hfiled henum horigin)

theorem Filed.of_enumeration {mode : Mode} {name : Value} {ms : Schema.Members} {key : String}
    (hmet : Met c given ⟨mode, name, .map ms⟩) (hshape : Schema.shape? ms = some .enumeration)
    (hname : named name.plain key) :
    Filed c given named .output (Label.ofText key).key ⟨mode, name, .map ms⟩ :=
  .own hmet.known (.enumeration hshape hname)

theorem Reads.enumerationAt (hs : Sorted c given named s) (hnamed : s.NamedWithin named)
    (hapart : EnumerationsApart c given named) {node : Node} {type : Option TypeRef}
    (h : Reads s node type) (hmet : Met c given node) (henum : node.IsEnumeration) :
    ∀ t, type = some t → s.EnumerationAt t := by
  obtain ⟨members, hmembers, hshape⟩ := henum
  cases h with
  | @enumeration mode name ms key type shape registered entry =>
      rintro t ⟨⟩
      have hfiled := Filed.of_enumeration hmet shape (hnamed _ _ registered)
      exact hs.enumerationAt hapart hfiled ⟨ms, rfl, shape⟩ (Option.join_eq_some_iff.mp entry)
  | _ =>
      obtain rfl := Value.map.inj hmembers
      simp_all

/-- The induction goes through the items of arrays. -/
theorem Reads.fits (hs : Sorted c given named s) (hnamed : s.NamedWithin named) {node : Node}
    {type : Option TypeRef} (h : Reads s node type) (hmet : Met c given node)
    (hmode : node.mode = .output ∨ EnumerationsApart c given named) :
    ∀ t, type = some t → s.Fits node.mode t := by
  induction h with
  | object shape labelled entry =>
      rintro t rfl
      exact hs.entries _ _ t entry hmode
  | @enumeration mode name ms key type shape registered entry =>
      rintro t ⟨⟩
      rcases hmode with houtput | hapart
      · obtain rfl : mode = .output := houtput
        exact hs.entries _ _ type (Option.join_eq_some_iff.mp entry) (.inl rfl)
      · have hread : Reads s ⟨mode, name, .map ms⟩ (some type) :=
          .enumeration shape registered entry
        exact (hread.enumerationAt hs hnamed hapart hmet ⟨ms, rfl, shape⟩ type rfl).fits mode
  | emptyObject shape => exact nofun
  | scalar shape =>
      intro t ht place hplace
      rw [place?_of_scalarType ht] at hplace
      cases hplace
  | references shape found refers leads entry =>
      intro t ht
      obtain ⟨item, rfl, rfl⟩ := Option.map_eq_some_iff.mp ht
      exact (hs.entries _ _ item entry hmode).of_place? rfl
  | items shape found own read ih =>
      intro t ht
      obtain ⟨item, rfl, rfl⟩ := Option.map_eq_some_iff.mp ht
      exact (ih (.items hmet shape found own) hmode item rfl).of_place? rfl

theorem Held.fits (hs : Sorted c given named s) (hnamed : s.NamedWithin named) {mode : Mode}
    {t : TypeRef} (h : Held c given s mode t)
    (hmode : mode = .output ∨ EnumerationsApart c given named) : s.Fits mode t := by
  cases h with
  | kept entry => exact hs.entries mode _ t entry hmode
  | read met read => exact read.fits hs hnamed met hmode t rfl

/-! ## Changes -/

theorem Sorted.fileType (hs : Sorted c given named s) {type : NamedType} {mode : Mode}
    {label : Label} (hx : Extends s (s.fileType type mode label))
    (hnew : ∀ k, type = .composite k → k.plan.mode = mode ∧ k.fields? = none)
    (horigin : mode = .output → ∃ node, Filed c given named .output label.key node ∧
      (node.IsEnumeration → ∃ e, type = .enumeration e)) :
    Sorted c given named (s.fileType type mode label) := by
  have hheld : (s.fileType type mode label).types[s.types.size]? = some type := by simp
  refine ⟨?_, ?_, ?_⟩
  · intro ns q t ht hmode
    rw [get?_cache_fileType] at ht
    split at ht
    · rename_i hfiled
      obtain ⟨rfl, -⟩ := hfiled
      cases ht
      rintro place ⟨⟩
      exact ⟨type, hheld, fun k hk => (hnew k hk).1⟩
    · exact (hs.entries ns q t ht hmode).later hx
  · intro hapart q t ht
    rw [get?_cache_fileType] at ht
    split at ht
    · rename_i hfiled
      obtain ⟨hmode, hlabel⟩ := hfiled
      obtain ⟨node, hnode, htype⟩ := horigin hmode
      rw [← (Label.beq_iff _ _).mp hlabel]
      refine ⟨node, hnode, fun henum => ?_⟩
      obtain ⟨e, rfl⟩ := htype henum
      cases ht
      exact ⟨s.types.size, e, rfl, hheld⟩
    · obtain ⟨node, hnode, htype⟩ := hs.origins hapart q t ht
      exact ⟨node, hnode, fun henum => (htype henum).later hx⟩
  · intro place k fields hplace hfields e he hmode
    rw [types_fileType, Array.getElem?_push] at hplace
    split at hplace
    · rw [(hnew k (Option.some.inj hplace)).2] at hfields
      cases hfields
    · exact (hs.fields place k fields hplace hfields e he hmode).later hx

theorem Sorted.setCached (hs : Sorted c given named s) (hnamed : s.NamedWithin named)
    {mode : Mode} {key : String} {schema : Value} {type : Option TypeRef}
    (hdefined : Table.get? (c.schemas mode) key = some schema)
    (hread : Reads s ⟨mode, .text key, schema⟩ type) :
    Sorted c given named (s.setCached mode (.ofText key) type) := by
  have hadds : Adds s (s.setCached mode (.ofText key) type) := TypeFrame.setCached s _ _ _
  have hx := hadds.extends
  have hmet : Met c given ⟨mode, .text key, schema⟩ := .definition hdefined
  refine ⟨?_, ?_, ?_⟩
  · intro ns q t ht hmode
    rw [get?_cache_setCached] at ht
    split at ht
    · rename_i hfiled
      obtain ⟨rfl, -⟩ := hfiled
      cases ht
      exact (hread.fits hs hnamed hmet hmode t rfl).later hx
    · exact (hs.entries ns q t ht hmode).later hx
  · intro hapart q t ht
    rw [get?_cache_setCached] at ht
    split at ht
    · rename_i hfiled
      obtain ⟨rfl, hlabel⟩ := hfiled
      rw [← (Label.beq_iff _ _).mp hlabel]
      refine ⟨_, .definition hdefined, fun henum => ?_⟩
      exact (hread.enumerationAt hs hnamed hapart hmet henum t (Option.some.inj ht)).later hx
    · obtain ⟨node, hnode, htype⟩ := hs.origins hapart q t ht
      exact ⟨node, hnode, fun henum => (htype henum).later hx⟩
  · intro place k fields hplace hfields e he hmode
    rw [types_setCached] at hplace
    exact (hs.fields place k fields hplace hfields e he hmode).later hx

theorem Sorted.change (h : Change c given s s') (hnamed : s'.NamedWithin named)
    (hs : Sorted c given named s) : Sorted c given named s' := by
  have hx := h.adds.extends
  have hbefore := hnamed.of_extends hx
  cases h with
  | log log => exact ⟨hs.entries, hs.origins, hs.fields⟩
  | store stored log => exact ⟨hs.entries, hs.origins, hs.fields⟩
  | @object name label text type met shape labelled free typeName registered unopened =>
      refine hs.fileType hx ?_ ?_
      · rintro k ⟨⟩
        exact ⟨rfl, unopened⟩
      · intro hmode
        have hkey : KeyOf named ⟨type.plan.mode, name, .map type.plan.schema⟩ .output label :=
          hmode ▸ .object shape labelled
        refine ⟨_, .own met.known hkey, ?_⟩
        rintro ⟨ms, hms, henum⟩
        obtain rfl := Value.map.inj hms
        rw [shape] at henum
        cases henum
  | @enumeration mode name ms e met shape registered free =>
      refine hs.fileType hx nofun fun _ => ?_
      exact ⟨_, .of_enumeration met shape (hbefore _ _ registered), fun _ => ⟨e, rfl⟩⟩
  | definition defined read => exact hs.setCached hbefore defined read

/-! ## Histories -/

theorem Passed.fits (hs : Sorted c given named s) {mode : Mode} {t : TypeRef}
    (h : Passed c given s s' mode t) (hnamed : s'.NamedWithin named)
    (hmode : mode = .output ∨ EnumerationsApart c given named) : s'.Fits mode t := by
  rcases h with hnone | ⟨s₁, type, h₁, h₂, hheld, hplace⟩
  · intro place hplace
    rw [hnone] at hplace
    cases hplace
  · have hx := h₂.adds.extends
    have hnamed₁ := hnamed.of_extends hx
    have hs₁ := h₁.invariant (fun _ _ => Sorted.change) hnamed₁ hs
    exact ((hheld.fits hs₁ hnamed₁ hmode).of_place? hplace).later hx

theorem Sorted.keep {place : Nat} {type : Composite} {fields : Table String Field}
    (hs : Sorted c given named s) (hs' : Sorted c given named s')
    (hnamed : s'.NamedWithin named) (hheld : s'.types[place]? = some (.composite type))
    (hpassed : ∀ f ∈ fields, FieldPassed c given s s' type.plan.mode f.2)
    (hx : Extends s' (s'.keep place type fields)) :
    Sorted c given named (s'.keep place type fields) := by
  refine ⟨?_, ?_, ?_⟩
  · intro mode label t ht hmode
    rw [cache_keep] at ht
    exact (hs'.entries mode label t ht hmode).later hx
  · intro hapart label t ht
    rw [cache_keep] at ht
    obtain ⟨node, hnode, htype⟩ := hs'.origins hapart label t ht
    exact ⟨node, hnode, fun henum => (htype henum).later hx⟩
  · intro q k found hq hfound e he hmode
    rw [types_keep hheld] at hq
    split at hq
    · cases hq
      cases hfound
      exact ((FieldPassed.mem_fieldTypes hpassed e he).fits hs hnamed hmode).later hx
    · exact (hs'.fields q k found hq hfound e he hmode).later hx

theorem Sorted.progresses (h : Progresses c given s s') (hnamed : s'.NamedWithin named)
    (hs : Sorted c given named s) : Sorted c given named s' := by
  refine h.invariant (fun _ _ => Sorted.change) ?_ hnamed hs
  intro s s' place type fields _ hnamed hs hs' hheld hpassed hx
  exact hs.keep hs' hnamed hheld hpassed hx

theorem Shown.fits (hs : Sorted c given named s) (hs' : Sorted c given named s')
    (hnamed : s'.NamedWithin named) {e : Mode × TypeRef} (h : Shown c given s s' e)
    (hmode : e.1 = .output ∨ EnumerationsApart c given named) : s'.Fits e.1 e.2 := by
  cases h with
  | passed evolves passed => exact passed.fits hs hnamed hmode
  | kept held found mem => exact hs'.fields _ _ _ held found e mem hmode

theorem sorted_empty (strict : Bool) : Sorted c given named (.empty strict) := by
  refine ⟨fun mode => ?_, fun _ => nofun, ?_⟩
  · cases mode <;> exact nofun
  · intro place k fields hplace
    simp [State.empty] at hplace

end Sorting

/-- Whatever calls come one after the other and whatever their outcomes, every type that is kept
for outputs, that a call gives for outputs, or that is that of a field found for outputs leads
to a scalar, to an enumeration or to an output type. The same goes for inputs and input types
where no key of an enumeration is that of anything else among the outputs. -/
theorem namespaces_of_every_history (c : Catalog) (strict : Bool) (calls : List Call)
    (call : Call) (mode : Mode) :
    let result := (call.build c).run (afterCalls c (.empty strict) calls)
    mode = .output ∨ EnumerationsApart c (Asked c (calls ++ [call])) result.2.Named →
      (∀ label t, Table.get? (result.2.cache mode) label = some (some t) →
        result.2.Fits mode t) ∧
      (∀ types, result.1 = .ok types → ∀ t, (mode, t) ∈ types → result.2.Fits mode t) ∧
      ∀ (place : Nat) (k : Composite) (fields : Table String Field) (t : TypeRef),
        result.2.types[place]? = some (.composite k) → k.fields? = some fields →
        (mode, t) ∈ fieldTypes k.plan.mode fields → result.2.Fits mode t := by
  intro result hmode
  have hwithin : ∀ q ∈ calls, q.Within c (Asked c (calls ++ [call])) :=
    fun q hq => within_of_mem (List.mem_append_left _ hq)
  have hcall : call.Within c (Asked c (calls ++ [call])) := within_of_mem (by simp)
  have hstart := progresses_afterCalls (planned_empty (c := c) strict) hwithin
  have hplanned := (planned_empty strict).progresses hstart
  obtain ⟨hlast, hshown⟩ := call_progresses hplanned hcall
  have hnamed : result.2.NamedWithin result.2.Named := fun _ _ h => h
  have hs := Sorted.progresses hstart (hnamed.of_extends hlast.extends) (sorted_empty strict)
  have hs' := Sorted.progresses hlast hnamed hs
  refine ⟨?_, ?_, ?_⟩
  · intro label t ht
    exact hs'.entries mode label t ht hmode
  · intro types htypes t ht
    exact (hshown types htypes _ ht).fits hs hs' hnamed hmode
  · intro place k fields t hplace hfields ht
    exact hs'.fields place k fields hplace hfields _ ht hmode

theorem apart_taskCatalog {given : Node → Prop} (hgiven : ∀ node, ¬ given node)
    {named : String → String → Prop} (hnamed : ∀ key, named "state" key → key = "state") :
    EnumerationsApart taskCatalog given named := by
  intro key node other hnode henum hother
  have hkey := key_taskCatalog hgiven hnamed hnode
  have hkey' := key_taskCatalog hgiven hnamed hother
  obtain ⟨ms, hmap, hshape⟩ := henum
  rcases known_taskCatalog hgiven hnode.known with ⟨-, hschema⟩ | ⟨hname, -⟩
  · rw [hschema] at hmap
    cases hmap
    exact absurd hshape (by decide)
  · rcases known_taskCatalog hgiven hother.known with ⟨hname', -⟩ | ⟨-, hschema'⟩
    · rw [hkey, hname, hname'] at hkey'
      cases hmode : other.mode <;> rw [hmode] at hkey' <;> exact absurd hkey' (by decide)
    · exact ⟨stateMembers, hschema', by decide⟩

/-- The fields of a task for inputs: another task, and its state. -/
def taskFields : Except Failure (List (Mode × TypeRef)) × State :=
  ((Call.step (.fields 0)).build taskCatalog).run
    (afterCalls taskCatalog (.empty true) [.step (.reference .input "Task" 0)])

theorem types_taskFields :
    taskFields.1.toOption = some [(.input, .named 0), (.input, .named 1)] := by
  decide +kernel

theorem name_state_taskFields : taskFields.2.names.name? "state" = some "state" := by
  decide +kernel

theorem types_of_taskFields_fit :
    EnumerationsApart taskCatalog
        (Asked taskCatalog ([.step (.reference .input "Task" 0)] ++ [.step (.fields 0)]))
        taskFields.2.Named ∧
      taskFields.2.Fits .input (.named 0) ∧ taskFields.2.Fits .input (.named 1) := by
  have hgiven : ∀ node, ¬ Asked taskCatalog
      ([.step (.reference .input "Task" 0)] ++ [.step (.fields 0)]) node := by
    intro node hnode
    cases hnode <;> simp_all
  have hnamed : ∀ key, taskFields.2.Named "state" key → key = "state" := fun key hkey =>
    Option.some.inj (hkey.symm.trans name_state_taskFields)
  have hapart := apart_taskCatalog hgiven hnamed
  obtain ⟨-, hgives, -⟩ := namespaces_of_every_history taskCatalog true
    [.step (.reference .input "Task" 0)] (.step (.fields 0)) .input (.inr hapart)
  have hfit := hgives _ (eq_ok_of_toOption types_taskFields)
  exact ⟨hapart, hfit _ (by simp), hfit _ (by simp)⟩

/-! ### A color for inputs

An object that is defined under the key of an enumeration for inputs.
-/

def colorCatalog : Catalog :=
  ((Catalog.empty default true).define "Color" (.map [("enum", .list [.text "red"])])).define
    "ColorInput" (.map [("type", .text "object"),
      ("properties", .map [("code", .map [("type", .text "string")])])])

/-- The color for inputs, after the object was asked for. -/
def colorRun : Except Failure (List (Mode × TypeRef)) × State :=
  ((Call.step (.reference .input "Color" 0)).build colorCatalog).run
    (afterCalls colorCatalog (.empty true) [.step (.reference .output "ColorInput" 0)])

def NamedType.mode? : NamedType → Option Mode
  | .composite k => some k.plan.mode
  | .enumeration _ => none

theorem types_colorRun : colorRun.1.toOption = some [(.input, .named 0)] := by decide +kernel

theorem mode_colorRun : colorRun.2.types[0]?.map NamedType.mode? = some (some .output) := by
  decide +kernel

/-- What is given for inputs is an object type for outputs, and it is kept for inputs. -/
theorem color_for_inputs_is_output :
    colorRun = (.ok [(.input, .named 0)], colorRun.2) ∧
      ¬ colorRun.2.Fits .input (.named 0) := by
  refine ⟨Prod.ext (eq_ok_of_toOption types_colorRun) rfl, fun hfits => ?_⟩
  obtain ⟨type, htype, hmode⟩ := hfits 0 rfl
  have houtput := mode_colorRun
  rw [htype] at houtput
  cases type with
  | enumeration e => cases houtput
  | composite k =>
      have hinput := hmode k rfl
      have houtput' : k.plan.mode = .output := Option.some.inj (Option.some.inj houtput)
      rw [hinput] at houtput'
      cases houtput'

end RestGraph.Graph
