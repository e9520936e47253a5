import RestGraph.Proofs.Call

namespace RestGraph.Graph

open Build

/-!
# Definitions under their names

A definition is kept for outputs under its own name, where inline schemas may be kept too. The
names of properties can be checked for that, but neither the titles of items nor the
registered names of enumerations are. Where none of these comes in its way, a reference to
the definition of an object leads to the type of that object.
-/

/-- The nodes that the check of names passes over: those that are asked for by themselves, the
items of arrays, and enumerations, which are kept under registered names. -/
inductive Unchecked (c : Catalog) (given : Node → Prop) : Node → Prop
  | given {node : Node} (h : given node) : Unchecked c given node
  | items {mode : Mode} {name items : Value} {ms : Schema.Members}
      (known : Known c given ⟨mode, name, .map ms⟩) (shape : Schema.shape? ms = some .array)
      (found : Table.get? ms "items" = some items) (own : Schema.target? items = none) :
      Unchecked c given ⟨mode, itemsLabel name items, items⟩
  | enumeration {node : Node} {ms : Schema.Members} (known : Known c given node)
      (isMap : node.schema = .map ms) (shape : Schema.shape? ms = some .enumeration) :
      Unchecked c given node

/-- None of the nodes that the check passes over is kept for outputs under the name, unless
it has the very schema. -/
def Unrivalled (c : Catalog) (given : Node → Prop) (named : String → String → Prop)
    (name : String) (schema : Value) : Prop :=
  ∀ node, Unchecked c given node → KeyOf named node .output (.ofText name) → node.schema = schema

/-- The type is that of an object for outputs, whose fields are found from a schema. -/
def State.ObjectOf (s : State) (ms : Schema.Members) (type : Option TypeRef) : Prop :=
  ∃ place k, type = some (.named place) ∧ s.types[place]? = some (.composite k) ∧
    k.plan.mode = .output ∧ k.plan.schema = ms

/-- Whatever is kept for outputs under the name is the type of the object. -/
def State.Reserves (s : State) (name : String) (ms : Schema.Members) : Prop :=
  ∀ type, Table.get? (s.cache .output) (.ofText name) = some type → s.ObjectOf ms type

section Reserved

variable {c : Catalog} {given : Node → Prop} {named : String → String → Prop} {s s' : State}
  {name : String} {ms : Schema.Members}

theorem State.ObjectOf.later (h : Extends s s') {type : Option TypeRef}
    (htype : s.ObjectOf ms type) : s'.ObjectOf ms type := by
  obtain ⟨place, k, rfl, hplace, hmode, hschema⟩ := htype
  obtain ⟨k', hplace', hplan, -⟩ := h.composite hplace
  exact ⟨place, k', rfl, hplace', hplan ▸ hmode, hplan ▸ hschema⟩

/-- Of all nodes that are met, only the definition is kept under its name. -/
theorem schema_of_met (hcheck : c.config.failOnCollision = true)
    (hdefined : Table.get? c.outputs name = some (.map ms))
    (halone : Unrivalled c given named name (.map ms)) {node : Node} (hmet : Met c given node)
    (hkey : KeyOf named node .output (.ofText name)) : node.schema = .map ms := by
  have hfiled : Filed c given named .output (.text name) node := .own hmet.known hkey
  rcases hfiled.of_text rfl with ⟨hmode, hname⟩ | ⟨-, members, hmap, hshape⟩
  · cases hmet with
    | given h => exact halone _ (.given h) hkey
    | items met shape found own => exact halone _ (.items met.known shape found own) hkey
    | @definition mode key schema defined =>
        obtain rfl : mode = .output := hmode
        obtain rfl := Value.text.inj hname
        exact Option.some.inj (Eq.trans defined.symm hdefined)
    | @property mode owner members ps p met shape found mem own allowed =>
        -- A property of this name was refused before it could be met.
        have hp : p.1 = name := Value.text.inj hname
        have hdefines : c.defines p.1 = true := by
          rw [hp]
          exact Bool.or_eq_true_iff.mpr (.inl (Table.contains_iff.mpr ⟨_, hdefined⟩))
        rw [allowed hdefines] at hcheck
        cases hcheck
  · exact halone node (.enumeration hmet.known hmap hshape) hkey

theorem State.Reserves.fileType (hs : s.Reserves name ms) {type : NamedType} {mode : Mode}
    {label : Label}
    (htype : mode = .output → label = .ofText name →
      ∃ k, type = .composite k ∧ k.plan.mode = .output ∧ k.plan.schema = ms)
    (hx : Extends s (s.fileType type mode label)) :
    (s.fileType type mode label).Reserves name ms := by
  intro t ht
  rw [get?_cache_fileType] at ht
  split at ht
  · rename_i hfiled
    obtain ⟨k, rfl, hmode, hschema⟩ := htype hfiled.1 (Label.beq_ofText_iff.mp hfiled.2)
    refine ⟨s.types.size, k, (Option.some.inj ht).symm, ?_, hmode, hschema⟩
    simp
  · exact (hs t ht).later hx

theorem reserves_change (hcheck : c.config.failOnCollision = true)
    (hdefined : Table.get? c.outputs name = some (.map ms))
    (hshape : Schema.shape? ms = some .object)
    (halone : Unrivalled c given named name (.map ms)) (h : Change c given s s')
    (hnamed : s'.NamedWithin named) (hs : s.Reserves name ms) : s'.Reserves name ms := by
  have hx := h.adds.extends
  cases h with
  | log log => exact hs
  | store stored log => exact fun type htype => (hs type htype).later hx
  | @object owner label text type met shape labelled free typeName registered unopened =>
      refine hs.fileType ?_ hx
      intro hmode hlabel
      subst hlabel
      have hkey : KeyOf named ⟨type.plan.mode, owner, .map type.plan.schema⟩ .output
          (.ofText name) := hmode ▸ .object shape labelled
      exact ⟨type, rfl, hmode, Value.map.inj (schema_of_met hcheck hdefined halone met hkey)⟩
  | @enumeration mode owner members e met shape registered free =>
      refine hs.fileType ?_ hx
      intro _ hlabel
      have hkey : KeyOf named ⟨mode, owner, .map members⟩ .output (.ofText name) := by
        rw [← hlabel]
        refine .enumeration shape (hnamed _ _ ?_)
        simpa [State.Named] using registered
      have hschema := Value.map.inj (schema_of_met hcheck hdefined halone met hkey)
      rw [hschema, hshape] at shape
      cases shape
  | @definition mode key schema type defined read =>
      intro t ht
      rw [get?_cache_setCached] at ht
      split at ht
      · rename_i hfiled
        obtain ⟨rfl, hlabel⟩ := hfiled
        obtain rfl := Label.ofText_injective (Label.beq_ofText_iff.mp hlabel)
        obtain rfl := Option.some.inj ht
        obtain rfl : schema = .map ms := Option.some.inj (Eq.trans defined.symm hdefined)
        exact (hs _ (read.entry_of_object hshape rfl)).later hx
      · exact (hs t ht).later hx

theorem State.Reserves.progresses (hcheck : c.config.failOnCollision = true)
    (hdefined : Table.get? c.outputs name = some (.map ms))
    (hshape : Schema.shape? ms = some .object)
    (halone : Unrivalled c given named name (.map ms)) (h : Progresses c given s s')
    (hnamed : s'.NamedWithin named) (hs : s.Reserves name ms) : s'.Reserves name ms := by
  refine h.invariant (P := fun s => s.Reserves name ms)
    (fun _ _ step hnamed hs => reserves_change hcheck hdefined hshape halone step hnamed hs) ?_
    hnamed hs
  intro s s' place type fields _ _ _ hs' _ _ hx t ht
  rw [cache_keep] at ht
  exact (hs' t ht).later hx

end Reserved

/-- Where names of properties are checked and nothing that the check passes over is kept under
the name of the definition of an object, a reference to it leads to the type of the object,
whatever a session did before, and no later step changes what that type has. -/
theorem definition_of_every_session {c : Catalog} (hcheck : c.config.failOnCollision = true)
    {name : String} {ms : Schema.Members}
    (hdefined : Table.get? c.outputs name = some (.map ms))
    (hshape : Schema.shape? ms = some .object) {strict : Bool} {steps later : List Step}
    {iteration : Int} {type : Option TypeRef} {s' : State}
    (hrun : (resolveReference c .output name iteration).run (after c (.empty strict) steps) =
      (.ok type, s'))
    (halone : Unrivalled c (Given steps) s'.Named name (.map ms)) :
    Own c (Given (steps ++ later)) (after c s' later) ⟨.output, .text name, .map ms⟩ type := by
  have hwithin : ∀ q ∈ steps ++ later, q.Within (Given (steps ++ later)) True := fun q hq =>
    ⟨fun node links iteration heq => ⟨links, iteration, heq ▸ hq⟩, .inr trivial⟩
  have hs : Faithful c (Given (steps ++ later)) True (after c (.empty strict) steps) :=
    (faithful_after (faithful_empty strict) fun q hq => hwithin q (List.mem_append_left _ hq)).2
  obtain ⟨hsteady, -⟩ := (resolveReference_ensures hs .output name iteration).of_ok hrun
  obtain ⟨hx, hlast⟩ := faithful_after (hsteady.2 hs)
    fun q hq => hwithin q (List.mem_append_right _ hq)
  obtain ⟨hevolves, hentry⟩ := (resolveReference_reads .output name iteration).of_ok hrun
  have hprogresses : Progresses c (Given steps) (.empty strict) s' :=
    (progresses_after strict).trans hevolves.progresses
  have hempty : (State.empty strict).Reserves name ms := nofun
  have hreserves := hempty.progresses hcheck hdefined hshape halone hprogresses fun _ _ h => h
  obtain ⟨place, k, rfl, hheld, hmode, hschema⟩ := (hreserves type hentry).later hx
  exact .object hshape hheld hschema hmode (hlast.composites _ _ hheld).2.2.2

/-- A task, asked for after the fields of its input type were found. -/
def taskSteps : List Step := [.reference .input "Task" 0, .fields 0]

def taskRun : Except Failure (Option TypeRef) × State :=
  (resolveReference taskCatalog .output "Task" 0).run (after taskCatalog (.empty true) taskSteps)

theorem taskRun_type : taskRun.1.toOption = some (some (.named 2)) := by decide +kernel

theorem name_state_taskRun : taskRun.2.names.name? "state" = some "state" := by decide +kernel

theorem unrivalled_task :
    Unrivalled taskCatalog (Given taskSteps) taskRun.2.Named "Task" (.map taskMembers) := by
  have hgiven : ∀ node, ¬ Given taskSteps node := by
    rintro node ⟨links, iteration, hmem⟩
    simp [taskSteps] at hmem
  intro node hunchecked hkey
  cases hunchecked with
  | given h => exact absurd h (hgiven node)
  | items known shape =>
      rcases known_taskCatalog hgiven known with ⟨-, hschema⟩ | ⟨-, hschema⟩
      · cases hschema
        exact absurd shape (by decide)
      · cases hschema
        exact absurd shape (by decide)
  | enumeration known isMap shape =>
      rcases known_taskCatalog hgiven known with ⟨-, hschema⟩ | ⟨hname, hschema⟩
      · exact hschema
      · cases hkey with
        | object shape' =>
            cases hschema
            exact absurd shape' (by decide)
        | enumeration _ registered =>
            cases hname
            have hname := name_state_taskRun.symm.trans registered
            exact absurd hname (by decide)

theorem task_of_session :
    Own taskCatalog (Given (taskSteps ++ [.fields 2])) (after taskCatalog taskRun.2 [.fields 2])
      ⟨.output, .text "Task", .map taskMembers⟩ (some (.named 2)) :=
  definition_of_every_session rfl rfl (by decide)
    (Prod.ext (eq_ok_of_toOption taskRun_type) rfl) unrivalled_task

/-! ### Pets that are something else

The items of one definition have the name of another as their title.
-/

def petMembers (property : String) : Schema.Members :=
  [("type", .text "object"), ("properties", .map [(property, .map [("type", .text "string")])])]

def litterCatalog : Catalog :=
  ((Catalog.empty { (default : Config) with failOnCollision := true } true).define "Pet"
    (.map (petMembers "name"))).define "Litter" (.map [("type", .text "array"),
      ("items", .map (("title", .text "Pet") :: petMembers "id"))])

/-- A pet, asked for after the array of others. -/
def litterRun : Except Failure (Option TypeRef) × State :=
  (resolveReference litterCatalog .output "Pet" 0).run
    (after litterCatalog (.empty true) [.reference .output "Litter" 0])

theorem litterRun_type : litterRun.1.toOption = some (some (.named 0)) := by decide +kernel

theorem fields_litterRun :
    ((fieldsAt litterCatalog 0).run litterRun.2).1.toOption.map Table.keys = some ["id"] := by
  decide +kernel

/-- The type that is kept under the title of the items stands in for the definition, although
names of properties are checked. -/
theorem litter_shadows_pet :
    litterCatalog.config.failOnCollision = true ∧
      Table.get? litterCatalog.outputs "Pet" = some (.map (petMembers "name")) ∧
      Schema.shape? (petMembers "name") = some .object ∧
      litterRun = (.ok (some (.named 0)), litterRun.2) ∧
      ((fieldsAt litterCatalog 0).run litterRun.2).1.toOption.map Table.keys = some ["id"] :=
  ⟨rfl, rfl, by decide, Prod.ext (eq_ok_of_toOption litterRun_type) rfl, fields_litterRun⟩

end RestGraph.Graph
