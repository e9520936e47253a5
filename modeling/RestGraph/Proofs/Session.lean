import RestGraph.Graph.Response
import RestGraph.Proofs.NameHistory
import RestGraph.Proofs.Translate

namespace RestGraph.Graph

open Build

/-!
# Sessions

A graph is asked for types, for the fields of types, for arguments and for names, in any
order. A step that fails leaves what it did until then. Whatever is asked, the state stays
faithful and the types in it stay what they are.
-/

inductive Step where
  | translate (node : Node) (links : Table String Link) (iteration : Int)
  | reference (mode : Mode) (name : String) (iteration : Int)
  /-- The type of a response, which is kept under the name of its schema. -/
  | response (name : String) (links : Table String Link)
  | fields (place : Nat)
  | arguments (parameters : List Parameter) (body : Option String) (required : Bool)
  | store (text : String)

namespace Step

/-- What a step does; those that are asked for a type give it. -/
def build (c : Catalog) : Step → Build (Option TypeRef)
  | .translate node links iteration =>
      Graph.translate c node.mode node.name node.schema links iteration
  | .reference mode name iteration => resolveReference c mode name iteration
  | .response name links => do
      let type ← Graph.translate c .output (.text name) (c.schema .output name) links 0
      setCached .output (.ofText name) type
      return type
  | .fields place => do
      let _ ← fieldsAt c place
      return none
  | .arguments parameters body required => do
      let _ ← Graph.arguments c parameters body required
      return none
  | .store text => do
      let _ ← storeName text
      return none

def links : Step → Table String Link
  | .translate _ links _ => links
  | .response _ links => links
  | _ => []

/-- The nodes whose types a step may give. -/
inductive Asks (c : Catalog) (given : Node → Prop) (named : String → String → Prop) :
    Step → Node → Prop
  | translate {node : Node} {links : Table String Link} {iteration : Int} :
      Asks c given named (.translate node links iteration) node
  | reference {mode : Mode} {name : String} {iteration : Int} {node : Node}
      (refers : Refers c given named mode name node) :
      Asks c given named (.reference mode name iteration) node
  | response {name : String} {links : Table String Link} {schema : Value}
      (defined : Table.get? c.outputs name = some schema) :
      Asks c given named (.response name links) ⟨.output, .text name, schema⟩

def asksType : Step → Bool
  | .translate .. => true
  | .reference .. => true
  | .response .. => true
  | _ => false

end Step

/-- The nodes that are given by the steps themselves. -/
def Given (steps : List Step) (node : Node) : Prop :=
  ∃ links iteration, Step.translate node links iteration ∈ steps

def after (c : Catalog) (s : State) (steps : List Step) : State :=
  steps.foldl (fun s step => ((step.build c).run s).2) s

theorem run_compositeAt? (place : Nat) (s : State) :
    ∃ found, (compositeAt? place).run s = (.ok found, s) ∧
      ∀ type, found = some type ↔ s.types[place]? = some (.composite type) := by
  unfold compositeAt?
  rw [run_bind, run_get]
  dsimp only
  split
  · rename_i type hplace
    exact ⟨some type, rfl, fun type' => by simp [hplace]⟩
  · rename_i hplace
    exact ⟨none, rfl, fun type' => by simpa using hplace type'⟩

theorem compositeAt?_ensures {R : State → State → Prop} [IsPreorder State R] (place : Nat)
    (s : State) :
    Ensures R s (compositeAt? place) fun found t => t = s ∧
      ∀ type, found = some type ↔ s.types[place]? = some (.composite type) := by
  obtain ⟨found, hrun, hfound⟩ := run_compositeAt? place s
  unfold Ensures
  rw [hrun]
  refine ⟨refl_of R s, ?_⟩
  rintro _ ⟨⟩
  exact ⟨rfl, hfound⟩

theorem keeps_compositeAt? {R : State → State → Prop} [IsPreorder State R] (place : Nat) :
    Keeps R (compositeAt? place) := fun s => (compositeAt?_ensures place s).1

theorem keeps_fieldsAt (c : Catalog) (place : Nat) : Keeps NamesReach (fieldsAt c place) := by
  unfold fieldsAt
  refine (keeps_compositeAt? place).bind fun found => ?_
  split
  · exact .pure _
  · rename_i type
    split
    · exact .pure _
    · have hfields : Keeps NamesReach (tryCatch (fieldsOf c type.plan) fun cause =>
          throw (.unresolvedFields type.name cause)) := fun s =>
        (Ensures.tryCatch ((keeps_fieldsOf c type.plan).ensures s)).1
      refine hfields.bind fun fields => ?_
      have hkeep : Keeps NamesReach (keepFields place type fields) := fun s => ⟨[], rfl⟩
      exact hkeep.bind fun _ => .pure _

theorem keeps_step (c : Catalog) (step : Step) : Keeps NamesReach (step.build c) := by
  cases step with
  | translate node links iteration => exact keeps_translate c _ _ _ links iteration
  | reference mode name iteration => exact keeps_resolveReference c mode name iteration
  | response name links =>
      refine (keeps_translate c _ _ _ links 0).bind fun type => ?_
      exact (keeps_setCached _ _ type).bind fun _ => .pure _
  | fields place => exact (keeps_fieldsAt c place).bind fun _ => .pure _
  | arguments ps body required => exact (keeps_arguments c ps body required).bind fun _ => .pure _
  | store text => exact (keeps_storeName text).bind fun _ => .pure _

/-! ## Steps keep states faithful -/

/-- The types that are there only get more fields, and a faithful state stays faithful. -/
def Lasts (c : Catalog) (given : Node → Prop) (linked : Prop) (s s' : State) : Prop :=
  Extends s s' ∧ (Faithful c given linked s → Faithful c given linked s')

instance (c : Catalog) (given : Node → Prop) (linked : Prop) :
    IsPreorder State (Lasts c given linked) where
  refl s := ⟨.refl s, id⟩
  trans _ _ _ h h' := ⟨h.1.trans h'.1, h'.2 ∘ h.2⟩

section Steps

variable {c : Catalog} {given : Node → Prop} {linked : Prop} {s : State}

theorem Steady.lasts {s' : State} (h : Steady c given linked s s') : Lasts c given linked s s' :=
  ⟨h.1.extends, h.2⟩

theorem lasts_of_steady {α : Type} {b : Build α} {Q : α → State → Prop}
    (h : Ensures (Steady c given linked) s b Q) : Ensures (Lasts c given linked) s b Q :=
  ⟨h.1.lasts, h.2⟩

theorem fieldsAt_ensures (hs : Faithful c given linked s) (place : Nat) :
    Ensures (Lasts c given linked) s (fieldsAt c place) fun fields s' =>
      ∀ type, s.types[place]? = some (.composite type) → Filled c given s' type.plan fields := by
  unfold fieldsAt
  refine .bind (compositeAt?_ensures place s) ?_
  rintro found s - ⟨rfl, hfound⟩
  split
  · exact .pure fun type htype => by cases (hfound type).mpr htype
  · rename_i type
    have hplace := (hfound type).mp rfl
    obtain ⟨⟨name, hknown⟩, hshape, -, hfilled⟩ := hs.composites place type hplace
    split
    · rename_i fields hfields
      refine .pure fun type' htype => ?_
      rw [hplace] at htype
      obtain rfl := NamedType.composite.inj (Option.some.inj htype)
      exact hfilled fields hfields
    · rename_i hnone
      have hbase : Ensures (Lasts c given linked) s (fieldsOf c type.plan) fun fields s₁ =>
          Steady c given linked s s₁ ∧ Filled c given s₁ type.plan fields :=
        lasts_of_steady ((fieldsOf_ensures hs hknown hshape).weaken fun _ _ h hf => ⟨h, hf⟩)
      refine .bind (.tryCatch hbase) ?_
      rintro fields s₁ - ⟨h₁, hfilled⟩
      obtain ⟨hx, hs'⟩ := (h₁.2 hs).keepFields (h₁.1.types _ _ hplace) hnone hfilled
      refine .bind (Q := fun _ s₂ => Extends s₁ s₂) ⟨⟨hx, fun _ => hs'⟩, fun _ _ => hx⟩
        fun _ s₂ _ h₂ => .pure fun type' htype => ?_
      rw [hplace] at htype
      obtain rfl := NamedType.composite.inj (Option.some.inj htype)
      exact hfilled.mono h₂

theorem bodyType_ensures (hs : Faithful c given linked s) (name : String) :
    Ensures (Steady c given linked) s (bodyType c name) fun _ _ => True := by
  unfold bodyType
  apply Ensures.bind_cached?
  split
  · exact .pure trivial
  · exact (translate_ensures hs (fun ms hms => known_schema hms) (.inl rfl) 0).weaken
      fun _ _ _ _ => trivial

theorem arguments_steady (hs : Faithful c given linked s) (ps : List Parameter)
    (body : Option String) (required : Bool) :
    Ensures (Steady c given linked) s (arguments c ps body required) fun _ _ => True := by
  unfold arguments
  refine .bind ((keeps_parameterArguments c [] ps).ensures s) fun found s₁ h₁ _ => ?_
  cases body with
  | none => exact .pure trivial
  | some name =>
      unfold bodyArgument
      refine .bind (bodyType_ensures (h₁.2 hs) name) fun type s₂ _ _ => ?_
      split
      · exact .pure trivial
      · refine .bind ((keeps_storeName name).ensures s₂) fun _ s₃ _ _ => ?_
        exact .bind ((keeps_access _).ensures s₃) fun _ _ _ _ => .pure trivial

/-- What a step may do: it gives types of nodes that are given, and links where there may be
any. -/
def Step.Within (given : Node → Prop) (linked : Prop) (step : Step) : Prop :=
  (∀ node links iteration, step = .translate node links iteration → given node) ∧
    (step.links = [] ∨ linked)

theorem Step.Asks.mono {named named' : String → String → Prop}
    (h : ∀ ns key node, Filed c given named ns key node → Filed c given named' ns key node)
    {step : Step} {node : Node} (hasks : step.Asks c given named node) :
    step.Asks c given named' node := by
  cases hasks with
  | translate => exact .translate
  | reference refers => exact .reference (refers.mono h)
  | response defined => exact .response defined

theorem Step.Asks.known {named : String → String → Prop} {step : Step} {node : Node}
    (hasks : step.Asks c given named node) (hstep : step.Within given linked) :
    Known c given node := by
  cases hasks with
  | translate => exact .given (hstep.1 _ _ _ rfl)
  | reference refers => exact refers.known
  | response defined => exact .definition defined

theorem step_ensures (hs : Faithful c given linked s) {step : Step}
    (hstep : step.Within given linked) :
    Ensures (Lasts c given linked) s (step.build c) fun type s' =>
      step.asksType = true →
        ∃ node, step.Asks c given s'.Named node ∧ Made c given s' node type := by
  cases step with
  | translate node links iteration =>
      have hnode : given node := hstep.1 node links iteration rfl
      refine lasts_of_steady ((translate_ensures hs (fun _ _ => .given hnode) hstep.2
        iteration).weaken ?_)
      rintro type s' - htype -
      exact ⟨node, .translate, htype.made⟩
  | reference mode name iteration =>
      refine lasts_of_steady ((resolveReference_ensures hs mode name iteration).weaken ?_)
      rintro type s' - ⟨node, hrefers, hmade⟩ -
      exact ⟨node, .reference hrefers, hmade⟩
  | response name links =>
      refine lasts_of_steady ?_
      refine .bind (translate_ensures hs (fun ms hms => known_schema hms) hstep.2 0) ?_
      rintro type s₁ - ⟨hmade, ⟨ms, hms⟩, -⟩
      have hdefined := get?_schemas hms
      have hfiled : Filed c given s₁.Named .output (Label.ofText name).key
          ⟨.output, .text name, c.schema .output name⟩ := .definition hdefined
      refine .bind (setCached_ensures hfiled hmade) fun _ s₂ _ hmade' => .pure fun _ => ?_
      exact ⟨_, .response hdefined, hmade'⟩
  | fields place =>
      refine .bind (fieldsAt_ensures hs place) fun _ s₁ _ _ => .pure fun h => ?_
      cases h
  | arguments ps body required =>
      refine lasts_of_steady (.bind (arguments_steady hs ps body required)
        fun _ s₁ _ _ => .pure fun h => ?_)
      cases h
  | store text =>
      refine lasts_of_steady (.bind ((keeps_storeName text).ensures s)
        fun _ s₁ _ _ => .pure fun h => ?_)
      cases h

/-- The run of any steps keeps a faithful state faithful, and all of its types. -/
theorem faithful_after (hs : Faithful c given linked s) {steps : List Step}
    (hsteps : ∀ step ∈ steps, step.Within given linked) :
    Extends s (after c s steps) ∧ Faithful c given linked (after c s steps) := by
  induction steps generalizing s with
  | nil => exact ⟨.refl s, hs⟩
  | cons step steps ih =>
      have hstep := (step_ensures hs (hsteps step List.mem_cons_self)).1
      obtain ⟨hx, hs'⟩ := ih (hstep.2 hs) fun q hq => hsteps q (List.mem_cons_of_mem _ hq)
      exact ⟨hstep.1.trans hx, hs'⟩

end Steps

end RestGraph.Graph
