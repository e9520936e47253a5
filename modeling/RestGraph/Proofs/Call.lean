import RestGraph.Proofs.Evolution

namespace RestGraph.Graph

open Build

/-!
# Histories of calls

Beside the steps of a session, the fields of a plan can be asked for that no type has. A call
gives types, each for a mode. Whatever the calls and their outcomes, all that they do to the
state are elementary changes and the fields that are kept for a type.
-/

inductive Call where
  | step (step : Step)
  /-- The fields of a plan, whether or not a type has it. -/
  | fields (plan : Plan)

/-- The types in some fields, each with the mode that it is for. -/
def fieldTypes (mode : Mode) (fields : Table String Field) : List (Mode × TypeRef) :=
  fields.flatMap fun f => (mode, f.2.type) :: f.2.arguments.map fun a => (.input, a.2.type)

def Step.mode : Step → Mode
  | .translate node _ _ => node.mode
  | .reference mode _ _ => mode
  | _ => .output

namespace Call

/-- What a call does. It gives the types that are asked for, those in the fields or those of
the arguments. -/
def build (c : Catalog) : Call → Build (List (Mode × TypeRef))
  | .fields plan => do return fieldTypes plan.mode (← fieldsOf c plan)
  | .step (.fields place) => do
      let type? ← compositeAt? place
      let fields ← fieldsAt c place
      return (type?.map fun type => fieldTypes type.plan.mode fields).getD []
  | .step (.arguments parameters body required) => do
      return (← Graph.arguments c parameters body required).map fun e => (.input, e.2.type)
  | .step other => do return (← other.build c).toList.map fun type => (other.mode, type)

end Call

def afterCalls (c : Catalog) (s : State) (calls : List Call) : State :=
  calls.foldl (fun s call => ((call.build c).run s).2) s

/-- The nodes that stand in the calls themselves: those to be translated and the inline
properties of the plans, as far as they are met. -/
inductive Asked (c : Catalog) (calls : List Call) : Node → Prop
  | translate {node : Node} {links : Table String Link} {iteration : Int}
      (mem : .step (.translate node links iteration) ∈ calls) : Asked c calls node
  | property {plan : Plan} {ps : List (String × Value)} {p : String × Value}
      (mem : .fields plan ∈ calls) (found : properties plan.schema = .ok ps) (hp : p ∈ ps)
      (own : Schema.target? p.2 = none)
      (allowed : c.defines p.1 = true → c.config.failOnCollision = false) :
      Asked c calls ⟨plan.mode, .text p.1, p.2⟩

def Call.Within (c : Catalog) (given : Node → Prop) (call : Call) : Prop :=
  ∀ node, Asked c [call] node → given node

theorem within_of_mem {c : Catalog} {calls : List Call} {call : Call} (hcall : call ∈ calls) :
    call.Within c (Asked c calls) := by
  intro node hnode
  cases hnode with
  | translate mem =>
      obtain rfl := List.mem_singleton.mp mem
      exact .translate hcall
  | property mem found hp own allowed =>
      obtain rfl := List.mem_singleton.mp mem
      exact .property hcall found hp own allowed

/-! ## Progress -/

/-- The state with the fields of the composite type at a place. -/
def State.keep (s : State) (place : Nat) (type : Composite) (fields : Table String Field) :
    State :=
  { s with types := s.types.setIfInBounds place (.composite { type with fields? := some fields }) }

/-- One step forward: an elementary change, or fields that were found and are kept. -/
inductive Progress (c : Catalog) (given : Node → Prop) : State → State → Prop
  | change {s s' : State} (h : Change c given s s') : Progress c given s s'
  | keep {s s' : State} {place : Nat} {type : Composite} {fields : Table String Field}
      (before : Evolves c given s s') (held : s'.types[place]? = some (.composite type))
      (unopened : type.fields? = none)
      (passed : ∀ f ∈ fields, FieldPassed c given s s' type.plan.mode f.2) :
      Progress c given s (s'.keep place type fields)

def Progresses (c : Catalog) (given : Node → Prop) : State → State → Prop :=
  Relation.ReflTransGen (Progress c given)

/-- Every composite type has the plan of an object that was met. -/
def Planned (c : Catalog) (given : Node → Prop) (s : State) : Prop :=
  ∀ (place : Nat) (type : Composite), s.types[place]? = some (.composite type) →
    ∃ name, Met c given ⟨type.plan.mode, name, .map type.plan.schema⟩ ∧
      Schema.shape? type.plan.schema = some .object

section Laws

variable {c : Catalog} {given : Node → Prop} {s s' : State}

instance : IsPreorder State (Progresses c given) where
  refl _ := .refl
  trans _ _ _ h h' := Relation.ReflTransGen.trans h h'

theorem Evolves.progresses (h : Evolves c given s s') : Progresses c given s s' := by
  induction h with
  | refl => exact .refl
  | tail _ step ih => exact ih.tail (.change step)

theorem progresses_of_evolves {α : Type} {b : Build α} {Q : α → State → Prop}
    (h : Ensures (Evolves c given) s b Q) :
    Ensures (Progresses c given) s b fun a s' => Evolves c given s s' ∧ Q a s' :=
  ⟨h.1.progresses, fun a ha => ⟨h.1, h.2 a ha⟩⟩

@[simp] theorem cache_keep (s : State) (place : Nat) (type : Composite)
    (fields : Table String Field) (mode : Mode) :
    (s.keep place type fields).cache mode = s.cache mode := by
  cases mode <;> rfl

theorem types_keep {place : Nat} {type : Composite}
    (hheld : s.types[place]? = some (.composite type)) (fields : Table String Field) (q : Nat) :
    (s.keep place type fields).types[q]? =
      if place = q then some (.composite { type with fields? := some fields })
        else s.types[q]? := getElem?_keepFields hheld _ q

theorem Progress.extends (h : Progress c given s s') : Extends s s' := by
  cases h with
  | change h => exact h.adds.extends
  | keep before held unopened passed =>
      exact before.adds.extends.trans (extends_keepFields held unopened _)

theorem Progresses.extends (h : Progresses c given s s') : Extends s s' := by
  induction h with
  | refl => exact .refl s
  | tail _ step ih => exact ih.trans step.extends

/-- What every change keeps, and every keeping of fields, is kept all the way. -/
theorem Progresses.invariant {P : State → Prop} {named : String → String → Prop}
    (hchange : ∀ s s', Change c given s s' → s'.NamedWithin named → P s → P s')
    (hkeep : ∀ s s' place type fields, Evolves c given s s' → s'.NamedWithin named → P s → P s' →
      s'.types[place]? = some (.composite type) →
      (∀ f ∈ fields, FieldPassed c given s s' type.plan.mode f.2) →
      Extends s' (s'.keep place type fields) → P (s'.keep place type fields))
    (h : Progresses c given s s') (hnamed : s'.NamedWithin named) (hs : P s) : P s' := by
  induction h with
  | refl => exact hs
  | tail _ step ih =>
      have hprevious := ih (hnamed.of_extends step.extends)
      cases step with
      | change step => exact hchange _ _ step hnamed hprevious
      | keep before held unopened passed =>
          have hs' := before.invariant hchange hnamed hprevious
          exact hkeep _ _ _ _ _ before hnamed hprevious hs' held passed
            (extends_keepFields held unopened _)

theorem Change.types (h : Change c given s s') :
    s'.types = s.types ∨ ∃ type, s'.types = s.types.push type ∧
      ∀ k, type = .composite k → k.fields? = none ∧
        ∃ name, Met c given ⟨k.plan.mode, name, .map k.plan.schema⟩ ∧
          Schema.shape? k.plan.schema = some .object := by
  cases h with
  | log log => exact .inl rfl
  | store stored log => exact .inl rfl
  | definition defined read => exact .inl (by simp)
  | enumeration met shape named free =>
      exact .inr ⟨_, types_fileType _ _ _ _, nofun⟩
  | object met shape labelled free typeName named unopened =>
      refine .inr ⟨_, types_fileType _ _ _ _, ?_⟩
      rintro k ⟨⟩
      exact ⟨unopened, _, met, shape⟩

theorem Planned.change (hs : Planned c given s) (h : Change c given s s') :
    Planned c given s' := by
  intro place type hplace
  rcases h.types with htypes | ⟨new, htypes, hnew⟩
  · exact hs place type (htypes ▸ hplace)
  · rw [htypes, Array.getElem?_push] at hplace
    split at hplace
    · exact (hnew type (Option.some.inj hplace)).2
    · exact hs place type hplace

theorem Planned.progresses (hs : Planned c given s) (h : Progresses c given s s') :
    Planned c given s' := by
  refine h.invariant (fun _ _ h _ hs => Planned.change hs h) ?_ (fun _ _ h => h) hs
  intro s s' place type fields _ _ _ hs' held _ _ q type' hq
  rw [types_keep held] at hq
  split at hq
  · obtain ⟨name, hmet, hshape⟩ := hs' _ _ held
    cases hq
    exact ⟨name, hmet, hshape⟩
  · exact hs' q type' hq

theorem planMet_of_met {plan : Plan} {name : Value}
    (hmet : Met c given ⟨plan.mode, name, .map plan.schema⟩)
    (hshape : Schema.shape? plan.schema = some .object) : PlanMet c given plan :=
  fun _ hps _ hp hown hallowed => .property hmet hshape hps hp hown hallowed

end Laws

/-! ## Calls go forward -/

/-- A type that was given: it was passed on from one state to the other, or it is one of the
types in fields that are kept. -/
inductive Shown (c : Catalog) (given : Node → Prop) (s s' : State) (e : Mode × TypeRef) : Prop
  | passed (evolves : Evolves c given s s') (passed : Passed c given s s' e.1 e.2) :
      Shown c given s s' e
  | kept {place : Nat} {type : Composite} {fields : Table String Field}
      (held : s'.types[place]? = some (.composite type)) (found : type.fields? = some fields)
      (mem : e ∈ fieldTypes type.plan.mode fields) : Shown c given s s' e

/-- A bind whose second part completes what the first one began, as one step from the start. -/
theorem Build.Ensures.whole {α β : Type} {R R' : State → State → Prop} {s : State} {b : Build α}
    {f : α → Build β} {Q : α → State → Prop} {Q' : β → State → Prop} (hb : Ensures R s b Q)
    (hfailed : ∀ s', R s s' → R' s s')
    (hf : ∀ a s', R s s' → Q a s' →
      R' s ((f a).run s').2 ∧ ∀ x, ((f a).run s').1 = .ok x → Q' x ((f a).run s').2) :
    Ensures R' s (b >>= f) Q' := by
  unfold Ensures
  rw [run_bind]
  rcases hrun : b.run s with ⟨e | a, s'⟩
  · have hs : R s s' := by simpa [hrun] using hb.1
    exact ⟨hfailed s' hs, nofun⟩
  · obtain ⟨hs, ha⟩ := hb.of_ok hrun
    exact hf a s' hs ha

section Calls

variable {c : Catalog} {given : Node → Prop} {s : State}

theorem FieldPassed.mem_fieldTypes {s' : State} {mode : Mode} {fields : Table String Field}
    (h : ∀ f ∈ fields, FieldPassed c given s s' mode f.2) :
    ∀ e ∈ fieldTypes mode fields, Passed c given s s' e.1 e.2 := by
  intro e he
  obtain ⟨f, hf, hmem⟩ := List.mem_flatMap.mp he
  rcases List.mem_cons.mp hmem with rfl | hmem
  · exact (h f hf).1
  · obtain ⟨a, ha, rfl⟩ := List.mem_map.mp hmem
    exact (h f hf).2 a ha

theorem fieldsAt_progresses (hs : Planned c given s) (place : Nat) :
    Ensures (Progresses c given) s (fieldsAt c place) fun fields s' =>
      ∀ type, s.types[place]? = some (.composite type) →
        ∃ type', s'.types[place]? = some (.composite type') ∧ type'.plan = type.plan ∧
          type'.fields? = some fields := by
  unfold fieldsAt
  refine .bind (compositeAt?_ensures place s) ?_
  rintro found s - ⟨rfl, hfound⟩
  split
  · exact .pure fun type htype => by cases (hfound type).mpr htype
  · rename_i type
    have hplace := (hfound type).mp rfl
    have hsame : ∀ type', s.types[place]? = some (.composite type') → type' = type := by
      intro type' htype'
      exact (Option.some.inj ((hfound type').mpr htype')).symm
    split
    · rename_i fields hfields
      refine .pure fun type' htype' => ?_
      obtain rfl := hsame type' htype'
      exact ⟨type', hplace, rfl, hfields⟩
    · rename_i hnone
      obtain ⟨name, hmet, hshape⟩ := hs place type hplace
      have hplan : PlanMet c given type.plan := planMet_of_met hmet hshape
      refine .whole (Ensures.tryCatch (fieldsOf_passed hplan)) (fun _ h => h.progresses) ?_
      intro fields s₁ h₁ hpassed
      have hheld := h₁.adds.types _ _ hplace
      refine ⟨.single (.keep h₁ hheld hnone hpassed), ?_⟩
      rintro found ⟨⟩ type' htype'
      obtain rfl := hsame type' htype'
      exact ⟨_, (types_keep hheld fields place).trans (if_pos rfl), rfl, rfl⟩

theorem type_shown {s' : State} {mode : Mode} {type : Option TypeRef}
    (hevolves : Evolves c given s s') (h : ∀ t, type = some t → Held c given s' mode t) :
    ∀ e ∈ type.toList.map fun t => (mode, t), Shown c given s s' e := by
  intro e he
  obtain ⟨t, ht, rfl⟩ := List.mem_map.mp he
  have hheld := h t (Option.mem_toList.mp ht)
  exact .passed hevolves (hheld.passed hevolves .refl rfl)

theorem step_shown (step : Step) {b : Build (Option TypeRef)}
    (h : Ensures (Evolves c given) s b fun type s' =>
      ∀ t, type = some t → Held c given s' step.mode t) :
    Ensures (Progresses c given) s (do return (← b).toList.map fun type => (step.mode, type))
      fun types s' => ∀ e ∈ types, Shown c given s s' e := by
  refine .bind (progresses_of_evolves h) ?_
  rintro type s' - ⟨hevolves, hheld⟩
  exact .pure (type_shown hevolves hheld)

theorem call_progresses (hs : Planned c given s) {call : Call} (hcall : call.Within c given) :
    Ensures (Progresses c given) s (call.build c) fun types s' =>
      ∀ e ∈ types, Shown c given s s' e := by
  cases call with
  | fields plan =>
      have hplan : PlanMet c given plan := fun ps hps p hp hown hallowed =>
        .given (hcall _ (.property List.mem_cons_self hps hp hown hallowed))
      refine .bind (progresses_of_evolves (fieldsOf_passed hplan)) ?_
      rintro fields s' - ⟨hevolves, hpassed⟩
      refine .pure fun e he => ?_
      exact .passed hevolves (FieldPassed.mem_fieldTypes hpassed e he)
  | step step =>
      cases step with
      | translate node links iteration =>
          have hnode : Met c given node := .given (hcall node (.translate List.mem_cons_self))
          refine step_shown (.translate node links iteration) ?_
          refine (translate_reads (fun _ _ => hnode) links iteration).weaken ?_
          rintro type s' - hread t rfl
          exact .read hnode hread
      | reference mode name iteration =>
          refine step_shown (.reference mode name iteration) ?_
          refine (resolveReference_reads mode name iteration).weaken ?_
          rintro type s' - hentry t rfl
          exact .kept hentry
      | response name links =>
          refine step_shown (.response name links) ?_
          refine .bind (translate_reads (fun ms hms => .definition (get?_schemas hms)) links 0) ?_
          intro type s₁ _ hread
          refine .bind (setCached_definition hread) ?_
          intro _ s₂ _ hentry
          refine .pure ?_
          rintro t rfl
          exact .kept hentry
      | fields place =>
          refine .bind (compositeAt?_ensures place s) ?_
          rintro type? s - ⟨rfl, htype⟩
          refine .bind (fieldsAt_progresses hs place) ?_
          intro fields s₁ _ hfields
          cases type? with
          | none => exact .pure (by simp)
          | some type =>
              obtain ⟨type', hplace, hplan, hkept⟩ := hfields type ((htype type).mp rfl)
              refine .pure fun e he => ?_
              exact .kept hplace hkept (hplan ▸ he)
      | arguments parameters body required =>
          refine .bind (progresses_of_evolves (arguments_passed parameters body required)) ?_
          rintro found s' - ⟨hevolves, hpassed⟩
          refine .pure fun e he => ?_
          obtain ⟨a, ha, rfl⟩ := List.mem_map.mp he
          exact .passed hevolves (hpassed a ha)
      | store text =>
          refine step_shown (.store text) ?_
          exact .bind ((keeps_storeName text).ensures s) fun _ _ _ _ => .pure nofun

/-- The run of any calls goes forward, whatever their outcomes. -/
theorem progresses_afterCalls (hs : Planned c given s) {calls : List Call}
    (hcalls : ∀ call ∈ calls, call.Within c given) :
    Progresses c given s (afterCalls c s calls) := by
  induction calls generalizing s with
  | nil => exact .refl
  | cons call calls ih =>
      have hstep := (call_progresses hs (hcalls call List.mem_cons_self)).1
      have hrest := ih (hs.progresses hstep) fun q hq => hcalls q (List.mem_cons_of_mem _ hq)
      exact hstep.trans hrest

theorem planned_empty (strict : Bool) : Planned c given (.empty strict) := by
  intro place type hplace
  simp [State.empty] at hplace

/-! ## Sessions as histories -/

theorem run_return {α β : Type} (b : Build α) (f : α → β) (s : State) :
    ((do return f (← b) : Build β).run s).2 = (b.run s).2 := by
  rw [run_bind]
  rcases b.run s with ⟨_ | _, _⟩ <;> rfl

theorem run_step (step : Step) (s : State) :
    (((Call.step step).build c).run s).2 = ((step.build c).run s).2 := by
  cases step with
  | fields place =>
      obtain ⟨found, hread, -⟩ := run_compositeAt? place s
      refine Eq.trans ?_ (run_return (fieldsAt c place) (fun _ => none) s).symm
      unfold Call.build
      rw [run_bind, hread]
      exact run_return (fieldsAt c place) _ s
  | arguments parameters body required =>
      refine (run_return _ _ s).trans ?_
      exact (run_return (arguments c parameters body required) (fun _ => none) s).symm
  | _ => exact run_return _ _ s

/-- A session is a history of calls that are steps. -/
theorem afterCalls_steps (s : State) (steps : List Step) :
    afterCalls c s (steps.map .step) = after c s steps := by
  induction steps generalizing s with
  | nil => rfl
  | cons step steps ih =>
      have htail := ih ((step.build c).run s).2
      simp only [List.map_cons, afterCalls, after, List.foldl_cons, run_step] at htail ⊢
      exact htail

theorem asked_steps {steps : List Step} {node : Node} (h : Asked c (steps.map .step) node) :
    Given steps node := by
  cases h with
  | translate mem =>
      obtain ⟨step, hstep, heq⟩ := List.mem_map.mp mem
      obtain rfl := Call.step.inj heq
      exact ⟨_, _, hstep⟩
  | property mem =>
      obtain ⟨step, -, heq⟩ := List.mem_map.mp mem
      cases heq

/-- Whatever a session does, the state goes forward. -/
theorem progresses_after (strict : Bool) {steps : List Step} :
    Progresses c (Given steps) (.empty strict) (after c (.empty strict) steps) := by
  rw [← afterCalls_steps]
  refine progresses_afterCalls (planned_empty strict) ?_
  intro call hcall node hnode
  obtain ⟨step, hstep, rfl⟩ := List.mem_map.mp hcall
  have hasked : Asked c [Call.step step] node := hnode
  exact asked_steps (c := c) (within_of_mem (List.mem_map.mpr ⟨step, hstep, rfl⟩) node hasked)

end Calls

/-! ### Tasks

A schema that contains itself, and an enumeration that is not defined anywhere else.
-/

def stateMembers : Schema.Members := [("enum", .list [.text "open", .text "done"])]

def taskMembers : Schema.Members :=
  [("type", .text "object"),
    ("properties", .map [("parent", .map [("$ref", .text "#/definitions/Task")]),
      ("state", .map stateMembers)])]

def taskCatalog : Catalog :=
  (Catalog.empty { (default : Config) with failOnCollision := true } true).define "Task"
    (.map taskMembers)

theorem get?_taskCatalog {mode : Mode} {key : String} {schema : Value}
    (h : Table.get? (taskCatalog.schemas mode) key = some schema) :
    key = referenceKey mode "Task" ∧ schema = .map taskMembers := by
  by_cases hkey : referenceKey mode "Task" = key
  · subst hkey
    cases mode <;> exact ⟨rfl, (Option.some.inj h).symm⟩
  · cases mode with
    | output =>
        have hne : ¬ "Task" = key := hkey
        simp [taskCatalog, Catalog.define, Catalog.empty, Catalog.schemas, Table.get?, hne] at h
    | input =>
        have hne : ¬ "Task" ++ Operation.inputSuffix = key := hkey
        simp [taskCatalog, Catalog.define, Catalog.empty, Catalog.schemas, Table.get?, hne] at h

theorem known_taskCatalog {given : Node → Prop} (hgiven : ∀ node, ¬ given node) {node : Node}
    (h : Known taskCatalog given node) :
    node.name = .text (referenceKey node.mode "Task") ∧ node.schema = .map taskMembers ∨
      node.name = .text "state" ∧ node.schema = .map stateMembers := by
  induction h with
  | definition defined =>
      obtain ⟨rfl, rfl⟩ := get?_taskCatalog defined
      exact .inl ⟨rfl, rfl⟩
  | @given node h => exact absurd h (hgiven node)
  | @property mode name ms ps p known shape found mem own ih =>
      right
      rcases ih with ⟨-, hschema⟩ | ⟨-, hschema⟩
      · obtain rfl := Value.map.inj hschema
        obtain rfl := Except.ok.inj found
        simp only [List.mem_cons, List.not_mem_nil, or_false] at mem
        rcases mem with rfl | rfl
        · simp [Schema.target?, Table.get?] at own
        · exact ⟨rfl, rfl⟩
      · obtain rfl := Value.map.inj hschema
        exact absurd shape (by decide)
  | @items mode name items ms known shape found own ih =>
      rcases ih with ⟨-, hschema⟩ | ⟨-, hschema⟩
      · obtain rfl := Value.map.inj hschema
        exact absurd shape (by decide)
      · obtain rfl := Value.map.inj hschema
        exact absurd shape (by decide)

/-- Each node is kept under its own name, if the enumeration is registered under its. -/
theorem key_taskCatalog {given : Node → Prop} (hgiven : ∀ node, ¬ given node)
    {named : String → String → Prop} (hnamed : ∀ key, named "state" key → key = "state")
    {ns : Mode} {key : Key} {node : Node} (h : Filed taskCatalog given named ns key node) :
    key = node.name.key := by
  cases h with
  | definition defined => rfl
  | own known keyOf =>
      cases keyOf with
      | object shape labelled =>
          obtain rfl := Value.label?_eq_some_iff.mp labelled
          rfl
      | enumeration shape registered =>
          rcases known_taskCatalog hgiven known with ⟨-, hschema⟩ | ⟨hname, -⟩
          · cases hschema
            exact absurd shape (by decide)
          · cases hname
            rw [hnamed _ registered]
            rfl

end RestGraph.Graph
