import RestGraph.Proofs.Call

namespace RestGraph.Graph

open Build

/-!
# Names of types

Every type is named after a text that a node gives: its name, with the suffix of inputs for an
object of that mode. The registry gives different texts different names. So no two types have
one name where nodes of one text have one key, and a key of an enumeration is never taken
from it by a definition without a type.
-/

/-- The text that the type of a node is named after. -/
inductive NameText : Node → String → Prop
  | object {mode : Mode} {name : Value} {ms : Schema.Members} {text : String}
      (shape : Schema.shape? ms = some .object) (typeName : typeText mode name = .ok text) :
      NameText ⟨mode, name, .map ms⟩ text
  | enumeration {mode : Mode} {name : Value} {ms : Schema.Members}
      (shape : Schema.shape? ms = some .enumeration) :
      NameText ⟨mode, name, .map ms⟩ name.plain

/-- The key is that of an enumeration among the outputs. -/
def EnumerationKey (c : Catalog) (given : Node → Prop) (named : String → String → Prop)
    (key : String) : Prop :=
  ∃ mode name ms, Known c given ⟨mode, name, .map ms⟩ ∧
    Schema.shape? ms = some .enumeration ∧ named name.plain key

structure NamesApart (c : Catalog) (given : Node → Prop) (named : String → String → Prop) :
    Prop where
  keys : ∀ node other text ns label ns' label', Known c given node → Known c given other →
    NameText node text → NameText other text → KeyOf named node ns label →
    KeyOf named other ns' label' → ns = ns' ∧ label.key = label'.key
  lasting : ∀ key schema, EnumerationKey c given named key →
    Table.get? c.outputs key = some schema →
    ∃ ms, schema = .map ms ∧
      (Schema.shape? ms = some .object ∨ Schema.shape? ms = some .enumeration)

/-- A type of a state goes back to a node, after which it is named and under whose key
something is kept. The key of an enumeration keeps a type. -/
structure Origin (c : Catalog) (given : Node → Prop) (named : String → String → Prop) (s : State)
    (name : String) (node : Node) (ns : Mode) (label : Label) : Prop where
  known : Known c given node
  key : KeyOf named node ns label
  text : ∃ text, NameText node text ∧ named text name
  kept : Table.get? (s.cache ns) label ≠ none
  lasts : NamesApart c given named → ∀ key, EnumerationKey c given named key →
    ns = .output → label.key = .text key →
    ∃ t, Table.get? (s.cache .output) label = some (some t)

structure WellNamed (c : Catalog) (given : Node → Prop) (named : String → String → Prop)
    (s : State) : Prop where
  origins : ∀ (place : Nat) (type : NamedType), s.types[place]? = some type →
    ∃ node ns label, Origin c given named s type.name node ns label
  distinct : NamesApart c given named → ∀ (p q : Nat) (type other : NamedType),
    s.types[p]? = some type → s.types[q]? = some other → type.name = other.name → p = q

section Naming

variable {c : Catalog} {given : Node → Prop} {named : String → String → Prop} {s s' : State}
  {name : String} {node : Node} {ns : Mode} {label : Label}

theorem Origin.of_cache (h : Origin c given named s name node ns label)
    (hcache : ∀ mode, s'.cache mode = s.cache mode) :
    Origin c given named s' name node ns label where
  known := h.known
  key := h.key
  text := h.text
  kept := by
    rw [hcache]
    exact h.kept
  lasts := by
    rw [hcache]
    exact h.lasts

theorem Origin.fileType (h : Origin c given named s name node ns label) (type : NamedType)
    (mode : Mode) (q : Label) :
    Origin c given named (s.fileType type mode q) name node ns label where
  known := h.known
  key := h.key
  text := h.text
  kept := by
    rw [get?_cache_fileType]
    split
    · exact nofun
    · exact h.kept
  lasts hapart key henum hns hkey := by
    rw [get?_cache_fileType]
    split
    · exact ⟨_, rfl⟩
    · exact h.lasts hapart key henum hns hkey

/-- A definition that is filed under the key of an enumeration has a type. -/
theorem Origin.setCached (h : Origin c given named s name node ns label) {mode : Mode}
    {key : String} {schema : Value} {type : Option TypeRef}
    (hdefined : Table.get? (c.schemas mode) key = some schema)
    (hread : Reads s ⟨mode, .text key, schema⟩ type) :
    Origin c given named (s.setCached mode (.ofText key) type) name node ns label where
  known := h.known
  key := h.key
  text := h.text
  kept := by
    rw [get?_cache_setCached]
    split
    · exact nofun
    · exact h.kept
  lasts hapart enumKey henum hns hkey := by
    have hbefore := h.lasts hapart enumKey henum hns hkey
    rw [get?_cache_setCached]
    split
    · rename_i hfiled
      obtain ⟨rfl, hlabel⟩ := hfiled
      have hsame : Key.text key = .text enumKey := ((Label.beq_iff _ _).mp hlabel).trans hkey
      obtain rfl := Key.text.inj hsame
      obtain ⟨ms, rfl, hshape | hshape⟩ := hapart.lasting key schema henum hdefined
      · have hentry : Table.get? (s.cache .output) (.ofText key) = some type :=
          hread.entry_of_object hshape rfl
        rw [Table.get?_congr _ hlabel] at hentry
        obtain ⟨t, ht⟩ := hbefore
        exact ⟨t, hentry.symm.trans ht ▸ rfl⟩
      · cases hread with
        | enumeration => exact ⟨_, rfl⟩
        | _ => simp_all
    · exact hbefore

/-- Under the key of a new type nothing was kept, or no type for an enumeration. -/
def State.Free (s : State) (c : Catalog) (given : Node → Prop) (named : String → String → Prop)
    (ns : Mode) (label : Label) : Prop :=
  Table.get? (s.cache ns) label = none ∨
    ns = .output ∧ (Table.get? (s.cache .output) label).join = none ∧
      ∃ key, EnumerationKey c given named key ∧ label = .ofText key

theorem Origin.not_free (hapart : NamesApart c given named)
    (h : Origin c given named s name node ns label) {q : Label} (hsame : q.key = label.key) :
    ¬ s.Free c given named ns q := by
  have hbeq : (q == label) = true := (Label.beq_iff _ _).mpr hsame
  rintro (hnone | ⟨rfl, hempty, key, henum, rfl⟩)
  · rw [Table.get?_congr _ hbeq] at hnone
    exact h.kept hnone
  · obtain ⟨t, ht⟩ := h.lasts hapart key henum rfl hsame.symm
    rw [Table.get?_congr _ hbeq, ht] at hempty
    cases hempty

theorem WellNamed.fileType (hs : WellNamed c given named s)
    (hone : ∀ text text' name, named text name → named text' name → text = text')
    {type : NamedType} {mode : Mode} (hknown : Known c given node)
    (hkey : KeyOf named node mode label) {text : String} (htext : NameText node text)
    (hname : named text type.name) (hfree : s.Free c given named mode label) :
    WellNamed c given named (s.fileType type mode label) := by
  have hentry : Table.get? ((s.fileType type mode label).cache mode) label =
      some (some (.named s.types.size)) := by simp [get?_cache_fileType]
  have hother : NamesApart c given named → ∀ (q : Nat) (other : NamedType),
      s.types[q]? = some other → type.name ≠ other.name := by
    intro hapart q other hq hsame
    obtain ⟨node', ns', label', horigin⟩ := hs.origins q other hq
    obtain ⟨text', htext', hname'⟩ := horigin.text
    obtain rfl := hone _ _ _ hname (hsame ▸ hname')
    obtain ⟨rfl, hlabel⟩ := hapart.keys _ _ _ _ _ _ _ hknown horigin.known htext htext' hkey
      horigin.key
    exact horigin.not_free hapart hlabel hfree
  refine ⟨?_, ?_⟩
  · intro place t hplace
    rw [types_fileType, Array.getElem?_push] at hplace
    split at hplace
    · obtain rfl := Option.some.inj hplace
      refine ⟨node, mode, label, hknown, hkey, ⟨text, htext, hname⟩, ?_, ?_⟩
      · rw [hentry]
        exact nofun
      · rintro - key - rfl -
        exact ⟨_, hentry⟩
    · obtain ⟨node', ns', label', horigin⟩ := hs.origins place t hplace
      exact ⟨node', ns', label', horigin.fileType type mode label⟩
  · intro hapart p q t u hp hq hsame
    rw [types_fileType, Array.getElem?_push] at hp hq
    split at hp <;> split at hq
    · omega
    · obtain rfl := Option.some.inj hp
      exact absurd hsame (hother hapart q u hq)
    · obtain rfl := Option.some.inj hq
      exact absurd hsame.symm (hother hapart p t hp)
    · exact hs.distinct hapart p q t u hp hq hsame

theorem WellNamed.of_same (hs : WellNamed c given named s) (htypes : s'.types = s.types)
    (hcache : ∀ mode, s'.cache mode = s.cache mode) : WellNamed c given named s' := by
  refine ⟨?_, ?_⟩
  · intro place type hplace
    rw [htypes] at hplace
    obtain ⟨node, ns, label, horigin⟩ := hs.origins place type hplace
    exact ⟨node, ns, label, horigin.of_cache hcache⟩
  · rw [htypes]
    exact hs.distinct

theorem WellNamed.change
    (hone : ∀ text text' name, named text name → named text' name → text = text')
    (h : Change c given s s') (hnamed : s'.NamedWithin named) (hs : WellNamed c given named s) :
    WellNamed c given named s' := by
  have hbefore := hnamed.of_extends h.adds.extends
  cases h with
  | log log => exact hs.of_same rfl fun mode => by cases mode <;> rfl
  | store stored log => exact hs.of_same rfl fun mode => by cases mode <;> rfl
  | object met shape labelled free typeName registered unopened =>
      exact hs.fileType hone met.known (.object shape labelled) (.object shape typeName)
        (hbefore _ _ registered) (.inl free)
  | @enumeration mode name ms e met shape registered free =>
      have hname := hbefore _ _ registered
      have henum : EnumerationKey c given named e.name :=
        ⟨mode, name, ms, met.known, shape, hname⟩
      exact hs.fileType hone met.known (.enumeration shape hname) (.enumeration shape) hname
        (.inr ⟨rfl, free, e.name, henum, rfl⟩)
  | definition defined read =>
      refine ⟨?_, ?_⟩
      · intro place t hplace
        rw [types_setCached] at hplace
        obtain ⟨node, ns, label, horigin⟩ := hs.origins place t hplace
        exact ⟨node, ns, label, horigin.setCached defined read⟩
      · intro hapart p q t u hp hq hsame
        rw [types_setCached] at hp hq
        exact hs.distinct hapart p q t u hp hq hsame

/-- Keeping fields changes no name. -/
theorem name_keep {place : Nat} {type : Composite} {fields : Table String Field}
    (hheld : s.types[place]? = some (.composite type)) {q : Nat} {t : NamedType}
    (hq : (s.keep place type fields).types[q]? = some t) :
    ∃ u, s.types[q]? = some u ∧ u.name = t.name := by
  rw [types_keep hheld] at hq
  split at hq
  · rename_i hplace
    subst hplace
    cases hq
    exact ⟨_, hheld, rfl⟩
  · exact ⟨t, hq, rfl⟩

theorem WellNamed.progresses
    (hone : ∀ text text' name, named text name → named text' name → text = text')
    (h : Progresses c given s s') (hnamed : s'.NamedWithin named)
    (hs : WellNamed c given named s) : WellNamed c given named s' := by
  refine h.invariant (fun _ _ => WellNamed.change hone) ?_ hnamed hs
  intro s s' place type fields _ _ _ hs' hheld _ _
  refine ⟨?_, ?_⟩
  · intro q t hq
    obtain ⟨u, hu, hname⟩ := name_keep hheld hq
    obtain ⟨node, ns, label, horigin⟩ := hs'.origins q u hu
    exact ⟨node, ns, label, hname ▸ horigin.of_cache fun mode => cache_keep _ _ _ _ _⟩
  · intro hapart p q t u hp hq hsame
    obtain ⟨t', ht', hname⟩ := name_keep hheld hp
    obtain ⟨u', hu', hname'⟩ := name_keep hheld hq
    exact hs'.distinct hapart p q t' u' ht' hu' (hname.trans (hsame.trans hname'.symm))

theorem wellNamed_empty (strict : Bool) : WellNamed c given named (.empty strict) := by
  refine ⟨?_, ?_⟩
  · intro place type hplace
    simp [State.empty] at hplace
  · intro _ p q type other hp
    simp [State.empty] at hp

end Naming

/-- Whatever calls come one after the other, every type is named after the text of a node under
whose key something is kept. Where nodes of one text have one key and the keys of
enumerations last, no two types have one name. -/
theorem type_names_of_every_history (c : Catalog) (strict : Bool) (calls : List Call) :
    let s := afterCalls c (.empty strict) calls
    (∀ (place : Nat) (type : NamedType), s.types[place]? = some type →
      ∃ node ns label text, Known c (Asked c calls) node ∧ KeyOf s.Named node ns label ∧
        NameText node text ∧ s.Named text type.name ∧ Table.get? (s.cache ns) label ≠ none) ∧
    (NamesApart c (Asked c calls) s.Named → ∀ (p q : Nat) (type other : NamedType),
      s.types[p]? = some type → s.types[q]? = some other → type.name = other.name → p = q) := by
  intro s
  have hprogresses : Progresses c (Asked c calls) (.empty strict) s :=
    progresses_afterCalls (planned_empty strict) fun _ => within_of_mem
  have hcoherent : s.names.Coherent :=
    hprogresses.extends.names.2 (Name.Registry.coherent_empty strict)
  have hone : ∀ text text' name, s.Named text name → s.Named text' name → text = text' :=
    fun _ _ _ h h' => hcoherent.text_injective h h'
  have hs : WellNamed c (Asked c calls) s.Named s :=
    WellNamed.progresses hone hprogresses (fun _ _ h => h) (wellNamed_empty strict)
  refine ⟨?_, hs.distinct⟩
  intro place type hplace
  obtain ⟨node, ns, label, horigin⟩ := hs.origins place type hplace
  obtain ⟨text, htext, hname⟩ := horigin.text
  exact ⟨node, ns, label, text, horigin.known, horigin.key, htext, hname, horigin.kept⟩

/-- In the sample the text alone decides where a type is kept. -/
theorem key_of_text_taskCatalog {given : Node → Prop} (hgiven : ∀ node, ¬ given node)
    {named : String → String → Prop} (hnamed : ∀ key, named "state" key → key = "state")
    {node : Node} (hknown : Known taskCatalog given node) {text : String} {ns : Mode}
    {label : Label} (htext : NameText node text) (hkey : KeyOf named node ns label) :
    label.key = .text text ∧ ns = if text = "TaskInput" then .input else .output := by
  have hlabel := key_taskCatalog hgiven hnamed (.own hknown hkey)
  rcases known_taskCatalog hgiven hknown with ⟨hname, hschema⟩ | ⟨hname, hschema⟩
  · cases hkey with
    | @object _ name ms label shape labelled =>
        obtain rfl : name = .text (referenceKey ns "Task") := hname
        obtain rfl : ms = taskMembers := Value.map.inj hschema
        rw [hlabel]
        cases htext with
        | object _ typeName => cases ns <;> cases typeName <;> exact ⟨by decide, by decide⟩
        | enumeration shape => exact absurd shape (by decide)
    | enumeration shape =>
        cases hschema
        exact absurd shape (by decide)
  · cases hkey with
    | object shape =>
        cases hschema
        exact absurd shape (by decide)
    | @enumeration mode name ms key shape registered =>
        obtain rfl : name = .text "state" := hname
        rw [hlabel]
        cases htext with
        | object shape' => exact absurd (shape.symm.trans shape') (by decide)
        | enumeration => exact ⟨rfl, by decide⟩

theorem namesApart_taskCatalog {given : Node → Prop} (hgiven : ∀ node, ¬ given node)
    {named : String → String → Prop} (hnamed : ∀ key, named "state" key → key = "state") :
    NamesApart taskCatalog given named := by
  refine ⟨?_, ?_⟩
  · intro node other text ns label ns' label' hknown hknown' htext htext' hkey hkey'
    obtain ⟨hlabel, hns⟩ := key_of_text_taskCatalog hgiven hnamed hknown htext hkey
    obtain ⟨hlabel', hns'⟩ := key_of_text_taskCatalog hgiven hnamed hknown' htext' hkey'
    exact ⟨hns.trans hns'.symm, hlabel.trans hlabel'.symm⟩
  · intro key schema _ hdefined
    have htask : Table.get? (taskCatalog.schemas .output) key = some schema := hdefined
    obtain ⟨-, rfl⟩ := get?_taskCatalog htask
    exact ⟨_, rfl, .inl (by decide)⟩

/-- Tasks for outputs and for inputs, with their fields. -/
def taskCalls : List Call :=
  [.step (.reference .output "Task" 0), .step (.fields 0), .step (.reference .input "Task" 0),
    .step (.fields 2)]

theorem size_taskCalls : (afterCalls taskCatalog (.empty true) taskCalls).types.size = 3 := by
  decide +kernel

theorem name_state_taskCalls :
    (afterCalls taskCatalog (.empty true) taskCalls).names.name? "state" = some "state" := by
  decide +kernel

/-- The three types of tasks have three names. -/
theorem type_names_of_tasks :
    let s := afterCalls taskCatalog (.empty true) taskCalls
    s.types.size = 3 ∧ NamesApart taskCatalog (Asked taskCatalog taskCalls) s.Named ∧
      ∀ (p q : Nat) (type other : NamedType), s.types[p]? = some type →
        s.types[q]? = some other → type.name = other.name → p = q := by
  intro s
  have hgiven : ∀ node, ¬ Asked taskCatalog taskCalls node := by
    intro node hnode
    cases hnode <;> simp_all [taskCalls]
  have hnamed : ∀ key, s.Named "state" key → key = "state" := fun key hkey =>
    Option.some.inj (hkey.symm.trans name_state_taskCalls)
  have hapart := namesApart_taskCatalog hgiven hnamed
  obtain ⟨-, hdistinct⟩ := type_names_of_every_history taskCatalog true taskCalls
  exact ⟨size_taskCalls, hapart, hdistinct hapart⟩

/-! ### Two pets of one name

The suffix of inputs makes the name of one property that of another.
-/

def withProperty (property : String) (schema : Value) : Value :=
  .map [("type", .text "object"), ("properties", .map [(property, schema)])]

def twoPetsCatalog : Catalog :=
  ((Catalog.empty default true).define "Keeper"
    (withProperty "petInput" (withProperty "id" (.map [("type", .text "string")])))).define "Owner"
    (withProperty "pet" (withProperty "name" (.map [("type", .text "string")])))

/-- After the fields of a keeper were found, and those of an owner for inputs. -/
def twoPetsState : State :=
  afterCalls twoPetsCatalog (.empty true)
    [.step (.reference .output "Keeper" 0), .step (.fields 0),
      .step (.reference .input "Owner" 0), .step (.fields 2)]

/-- One of two types of one name is kept for outputs, the other one for inputs. -/
theorem two_pets_of_one_name :
    Table.get? (twoPetsState.cache .output) (.ofText "petInput") = some (some (.named 1)) ∧
      Table.get? (twoPetsState.cache .input) (.ofText "pet") = some (some (.named 3)) ∧
      twoPetsState.types[1]?.map NamedType.name = some "petInput" ∧
      twoPetsState.types[3]?.map NamedType.name = some "petInput" := by
  decide +kernel

end RestGraph.Graph
