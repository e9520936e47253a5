import RestGraph.Proofs.Filing
import RestGraph.Proofs.Whole

namespace RestGraph.Graph

open Build

/-!
# What can fail in a whole state

A complete state has passed every check of every node that responses lead to. Another run on the
description meets the same nodes, so as long as all its names are among those of the complete
state, no check of it fails: the only failure left is that of the limit of levels.
-/

/-! ## Runs towards a complete state -/

/-- The state is complete, and all names of the earlier one are among its own. -/
structure Target (c : Catalog) (s target : State) : Prop where
  complete : Complete c target
  names : s.NamedWithin target.Named

/-- What holds across each step of a run: nothing is lost, a whole state stays whole, and no name
is stored that a complete state does not have. -/
structure Later (c : Catalog) (s s' : State) : Prop where
  onward : Onward s s'
  whole : Whole c s → Whole c s'
  target : ∀ target, Target c s target → Target c s' target

def IsTooDeep (c : Catalog) (f : Failure) : Prop := ∃ name, f = .tooDeep name c.config.limit

/-- The build leaves a later state, and what it gives satisfies `Q` there. If there is a complete
state to which the run may still come, it fails with nothing but what is allowed. -/
structure Gives {α : Type} (c : Catalog) (allowed : Failure → Prop) (s : State) (b : Build α)
    (Q : α → State → Prop) : Prop where
  ensures : Ensures (Later c) s b Q
  fails : ∀ f, (b.run s).1 = .error f → ∀ target, Target c s target → allowed f

section Rules

variable {α β : Type} {c : Catalog} {allowed : Failure → Prop} {s s' : State}

instance (c : Catalog) : IsPreorder State (Later c) where
  refl s := ⟨.refl s, id, fun _ => id⟩
  trans _ _ _ h h' := ⟨h.onward.trans h'.onward, h'.whole ∘ h.whole,
    fun target htarget => h'.target target (h.target target htarget)⟩

/-- Nothing but the log changes. -/
theorem later_log (s : State) (log : List Record) : Later c s { s with log := log } := by
  have hx : Extends s { s with log := log } := Adds.extends (NameFrame.log s log)
  refine ⟨onward_of_outputs hx rfl, fun hs => hs.names hx rfl rfl, fun target htarget => ?_⟩
  exact ⟨htarget.complete, htarget.names⟩

/-- A new type is settled for the node under whose key it is kept. -/
theorem later_fileType {label : Label} {node : Node} {type : NamedType}
    (hfree : Table.get? s.outputs label = none) (hfiles : Files c label.key node)
    (hnew : ∀ k, type = .composite k → k.fields? = none)
    (hsettled : Settled c (s.fileType type .output label) node (some (.named s.types.size))) :
    Later c s (s.fileType type .output label) := by
  refine ⟨onward_fileType hfree type, fun hs => hs.fileType hfree hfiles hnew hsettled, ?_⟩
  refine fun target htarget => ⟨htarget.complete, ?_⟩
  simpa [State.NamedWithin, State.Named] using htarget.names

/-- What a name leads to is kept under the name. -/
theorem later_setCached (hs : Whole c s) (hschemas : SchemasAgree c) (hnames : NamesAgree c)
    {text : String} {node : Node} (hfiles : Files c (.text text) node) {type : Option TypeRef}
    (hsettled : Settled c s node type) : Later c s (s.setCached .output (.ofText text) type) where
  onward := (hs.setCached hschemas hnames hfiles hsettled).1
  whole hs := (hs.setCached hschemas hnames hfiles hsettled).2
  target _ htarget := ⟨htarget.complete, htarget.names⟩

/-- Fields that are settled are kept for a type that has none. -/
theorem later_keep {place : Nat} {type : Composite} {fields : Table String Field}
    (hheld : s.types[place]? = some (.composite type)) (hnone : type.fields? = none)
    (hfills : Fills c s type.plan.schema fields) : Later c s (s.keep place type fields) where
  onward := onward_of_outputs (extends_keepFields hheld hnone fields) rfl
  whole hs := (hs.keep hheld hnone hfills).2
  target _ htarget := ⟨htarget.complete, htarget.names⟩

namespace Gives

protected theorem pure {a : α} {Q : α → State → Prop} (h : Q a s) :
    Gives c allowed s (Pure.pure a) Q := ⟨.pure h, nofun⟩

protected theorem throw {f : Failure} {Q : α → State → Prop}
    (h : ∀ target, Target c s target → allowed f) :
    Gives c allowed s (MonadExcept.throw f) Q := by
  refine ⟨.throw f, ?_⟩
  rintro _ ⟨⟩
  exact h

theorem weaken {b : Build α} {Q Q' : α → State → Prop} (h : Gives c allowed s b Q)
    (hQ : ∀ a s', Later c s s' → Q a s' → Q' a s') : Gives c allowed s b Q' :=
  ⟨h.ensures.weaken hQ, h.fails⟩

theorem allow {allowed' : Failure → Prop} {b : Build α} {Q : α → State → Prop}
    (h : Gives c allowed s b Q) (hallowed : ∀ f, allowed f → allowed' f) :
    Gives c allowed' s b Q :=
  ⟨h.ensures, fun f hfails target htarget => hallowed f (h.fails f hfails target htarget)⟩

theorem and_keeps {R : State → State → Prop} {b : Build α} {Q : α → State → Prop}
    (h : Gives c allowed s b Q) (hkeeps : Keeps R b) :
    Gives c allowed s b fun a s' => Q a s' ∧ R s s' :=
  ⟨⟨h.ensures.1, fun a ha => ⟨h.ensures.2 a ha, hkeeps s⟩⟩, h.fails⟩

protected theorem bind {b : Build α} {f : α → Build β} {Q : α → State → Prop}
    {Q' : β → State → Prop} (hb : Gives c allowed s b Q)
    (hf : ∀ a s', Later c s s' → Q a s' → Gives c allowed s' (f a) Q') :
    Gives c allowed s (b >>= f) Q' := by
  refine ⟨hb.ensures.bind fun a s' hlater ha => (hf a s' hlater ha).ensures, ?_⟩
  intro failure hfails target htarget
  rw [run_bind] at hfails
  rcases hrun : b.run s with ⟨f' | a, s'⟩
  · rw [hrun] at hfails
    refine hb.fails failure ?_ target htarget
    rw [hrun]
    cases hfails
    rfl
  · rw [hrun] at hfails
    obtain ⟨hlater, ha⟩ := hb.ensures.of_ok hrun
    exact (hf a s' hlater ha).fails failure hfails target (hlater.target target htarget)

protected theorem get_bind {f : State → Build β} {Q : β → State → Prop}
    (h : Gives c allowed s (f s) Q) : Gives c allowed s (get >>= f) Q := ⟨h.ensures, h.fails⟩

/-- A failure is passed on with what it was the cause of. -/
protected theorem tryCatch {b : Build α} {Q : α → State → Prop} (h : Gives c allowed s b Q)
    (g : Failure → Failure) :
    Gives c (fun f => ∃ cause, allowed cause ∧ f = g cause) s
      (tryCatch b fun cause => MonadExcept.throw (g cause)) Q := by
  refine ⟨h.ensures.tryCatch, fun failure hfails target htarget => ?_⟩
  rw [run_tryCatch] at hfails
  rcases hrun : b.run s with ⟨cause | a, s'⟩
  · rw [hrun] at hfails
    refine ⟨cause, h.fails cause (by rw [hrun]) target htarget, ?_⟩
    cases hfails
    rfl
  · rw [hrun] at hfails
    cases hfails

protected theorem access {x : Value.Access α} {Q : α → State → Prop} (h : ∀ a, x = .ok a → Q a s)
    (hx : ∀ target, Target c s target → ∃ a, x = .ok a) : Gives c allowed s (access x) Q := by
  cases x with
  | ok a => exact .pure (h a rfl)
  | error e =>
      refine .throw fun target htarget => ?_
      obtain ⟨a, ha⟩ := hx target htarget
      cases ha

protected theorem liftExcept {x : Except Failure α} {Q : α → State → Prop}
    (h : ∀ a, x = .ok a → Q a s) (hx : ∀ target, Target c s target → ∃ a, x = .ok a) :
    Gives c allowed s (liftExcept x) Q := by
  cases x with
  | ok a => exact .pure (h a rfl)
  | error e =>
      refine .throw fun target htarget => ?_
      obtain ⟨a, ha⟩ := hx target htarget
      cases ha

theorem bind_access {x : Value.Access α} {f : α → Build β} {Q : β → State → Prop}
    (hx : ∀ target, Target c s target → ∃ a, x = .ok a)
    (hf : ∀ a, x = .ok a → Gives c allowed s (f a) Q) : Gives c allowed s (access x >>= f) Q := by
  refine .bind (Q := fun a t => x = .ok a ∧ t = s) (.access (fun a ha => ⟨ha, rfl⟩) hx) ?_
  rintro a t - ⟨ha, rfl⟩
  exact hf a ha

protected theorem keyOf {v : Value} {Q : Label → State → Prop}
    (h : ∀ label, v.label? = some label → Q label s)
    (hv : ∀ target, Target c s target → ∃ label, v.label? = some label) :
    Gives c allowed s (keyOf v) Q := by
  refine .access (fun label hlabel => h label (Value.label?_of_labelOf hlabel)) ?_
  intro target htarget
  obtain ⟨label, hlabel⟩ := hv target htarget
  exact ⟨label, by simp [Value.labelOf, hlabel]⟩

theorem bind_cached? {label : Label} {f : Option (Option TypeRef) → Build β}
    {Q : β → State → Prop} (h : Gives c allowed s (f (Table.get? s.outputs label)) Q) :
    Gives c allowed s (cached? .output label >>= f) Q := ⟨h.ensures, h.fails⟩

protected theorem report (level : Level) (text : String) :
    Gives c allowed s (report level text) fun _ s' => ∃ log, s' = { s with log := log } :=
  ⟨.report level text fun log => ⟨later_log s log, log, rfl⟩, nofun⟩

theorem checkTypeName {name : String} (hname : ∀ target, Target c s target → Usable name) :
    Gives c allowed s (checkTypeName name) fun _ s' => s' = s ∧ Usable name := by
  unfold Graph.checkTypeName
  split
  · rename_i hreserved
    refine .throw fun target htarget => ?_
    obtain ⟨hfree, -⟩ := hname target htarget
    rw [hreserved] at hfree
    cases hfree
  · rename_i hfree
    split
    · rename_i f hillegal
      refine .throw fun target htarget => ?_
      obtain ⟨-, hlegal⟩ := hname target htarget
      simp [hillegal] at hlegal
    · rename_i hlegal
      exact .pure ⟨rfl, by simpa using hfree, hlegal⟩

theorem checkDescription (described : Described) {v : Value}
    (hv : ∀ target, Target c s target → Describes v) :
    Gives c allowed s (checkDescription described v) fun d s' =>
      s' = s ∧ d = v.text? ∧ Describes v := by
  unfold Graph.checkDescription
  split
  · exact .pure ⟨rfl, rfl, .inl rfl⟩
  · exact .pure ⟨rfl, rfl, .inr ⟨_, rfl⟩⟩
  · rename_i hnull htext
    refine .throw fun target htarget => ?_
    rcases hv target htarget with rfl | ⟨text, rfl⟩
    · exact absurd rfl hnull
    · exact absurd rfl (htext text)

/-- A text that a complete state has a name for gets that name: no other text can have it. -/
theorem storeName (hs : Whole c s) {text : String}
    (htext : ∀ target, Target c s target → ∃ name, target.Named text name) :
    Gives c allowed s (storeName text) fun name s' =>
      s'.Named text name ∧ s'.outputs = s.outputs := by
  have hout := Name.Registry.store_outcome s.names text
  constructor
  · refine .storeName text fun name names log hstore => ?_
    have hadds : Adds s { s with names := names, log := log } :=
      NameFrame.store s text name names log hstore
    have hx := hadds.extends
    refine ⟨⟨onward_of_outputs hx rfl, fun hs => hs.names hx rfl rfl, ?_⟩, ?_, rfl⟩
    · refine fun target htarget => ⟨htarget.complete, fun text' name' hname' => ?_⟩
      obtain ⟨known, hknown⟩ := htext target htarget
      have hwhole := htarget.complete.whole
      have hmade := hwhole.coherent.name_of_strict hwhole.strict hknown
      rw [hstore] at hout
      cases hout with
      | known _ => exact htarget.names text' name' hname'
      | plain _ made _ =>
          have hadded : (s.names.add name text).name? text' = some name' := hname'
          rw [Name.Registry.name?_add] at hadded
          split at hadded
          · rename_i hsame
            subst hsame
            obtain rfl := Option.some.inj hadded
            obtain rfl := Option.some.inj (made.symm.trans hmade)
            exact hknown
          · exact htarget.names text' name' hadded
      | numbered _ _ _ lenient =>
          rw [hs.strict] at lenient
          cases lenient
    · exact (Name.Registry.grows_store hstore).2
  · intro f hfails target htarget
    obtain ⟨known, hknown⟩ := htext target htarget
    have hwhole := htarget.complete.whole
    have hmade := hwhole.coherent.name_of_strict hwhole.strict hknown
    rw [run_storeName] at hfails
    cases hstore : s.names.store text with
    | ok stored =>
        rw [hstore] at hfails
        cases hfails
    | error fault =>
        rw [hstore] at hout
        cases hout with
        | unusable _ unmade =>
            rw [unmade] at hmade
            cases hmade
        | taken new made held _ =>
            have hholder := htarget.names _ _ ((hs.coherent.inverse _ _).mp held)
            obtain rfl := Option.some.inj (made.symm.trans hmade)
            obtain rfl := hwhole.coherent.text_injective hknown hholder
            rw [(hs.coherent.inverse _ _).mp held] at new
            cases new

theorem fileType {type : NamedType} {label : Label} {result : Nat → α} {Q : α → State → Prop}
    (hlater : Later c s (s.fileType type .output label))
    (hresult : Q (result s.types.size) (s.fileType type .output label)) :
    Gives c allowed s (do
      let place ← addType type
      setCached .output label (some (.named place))
      return result place) Q :=
  ⟨fileType_ensures type .output label result hlater hresult, nofun⟩

end Gives

end Rules

section Steps

variable {c : Catalog} {allowed : Failure → Prop} {s : State} {kept : Option String}

/-! ## Objects and enumerations -/

theorem Settled.of_object {name : Value} {ms : Schema.Members} {type : Option TypeRef}
    (h : Settled c s ⟨.output, name, .map ms⟩ type) (hshape : Schema.shape? ms = some .object) :
    (∃ label, name.label? = some label) ∧ (∃ key, s.Named name.plain key ∧ Usable key) ∧
      Describes (Value.memberOr ms "description" .null) := by
  cases h with
  | object _ labelled _ _ _ named usable describes =>
      exact ⟨⟨_, labelled⟩, ⟨_, named, usable⟩, describes⟩
  | _ shape => simp [hshape] at shape

theorem Settled.of_enumeration {name : Value} {ms : Schema.Members} {type : Option TypeRef}
    (h : Settled c s ⟨.output, name, .map ms⟩ type)
    (hshape : Schema.shape? ms = some .enumeration) :
    type.isSome = true ∧ ∃ literals vs key members, Table.get? ms "enum" = some literals ∧
      literals.iterate = .ok vs ∧ membersFrom key [] vs = .ok members ∧
      s.Named name.plain key ∧ Usable key := by
  cases h with
  | enumeration _ found items members named usable =>
      exact ⟨rfl, _, _, _, _, found, items, members, named, usable⟩
  | _ shape => simp [hshape] at shape

theorem Target.settled {target : State} (h : Target c s target) (hschemas : SchemasAgree c)
    (hnames : NamesAgree c) {node : Node} (htouched : Touched c kept node) :
    ∃ type, Settled c target node type := by
  obtain ⟨type, hsettled, -⟩ := h.complete.settled hschemas hnames htouched
  exact ⟨type, hsettled⟩

/-- In a complete state the text has the same name. -/
theorem Target.name_eq {target : State} (h : Target c s target) {text name name' : String}
    (hname : s.Named text name) (hname' : target.Named text name') : name' = name :=
  Option.some.inj (hname'.symm.trans (h.names text name hname))

variable (hschemas : SchemasAgree c) (hnames : NamesAgree c)
include hschemas hnames

theorem objectType_gives (hs : Whole c s) {name : Value} {ms : Schema.Members}
    (htouched : Touched c kept ⟨.output, name, .map ms⟩)
    (hshape : Schema.shape? ms = some .object) (iteration : Int) :
    Gives c allowed s (objectType name ⟨ms, [], .output, iteration⟩) fun type s' =>
      Settled c s' ⟨.output, name, .map ms⟩ type := by
  have htarget : ∀ {s' target : State}, Target c s' target →
      (∃ label, name.label? = some label) ∧ (∃ key, target.Named name.plain key ∧ Usable key) ∧
        Describes (Value.memberOr ms "description" .null) := by
    intro s' target h
    obtain ⟨type, hsettled⟩ := h.settled hschemas hnames htouched
    exact hsettled.of_object hshape
  unfold objectType
  refine .bind (Q := fun label t => name.label? = some label ∧ t = s)
    (.keyOf (fun label hlabel => ⟨hlabel, rfl⟩) fun target h => (htarget h).1) ?_
  rintro label s - ⟨hlabel, rfl⟩
  have hfiles : Files c label.key ⟨.output, name, .map ms⟩ := .own htouched (.object hshape hlabel)
  apply Gives.bind_cached?
  split
  · rename_i type hfound
    exact .pure (hs.settled hschemas hnames hfiles hfound)
  · rename_i hfree
    refine .bind (Q := fun text t => text = name.plain ∧ t = s) (.pure ⟨rfl, rfl⟩) ?_
    rintro text s - ⟨rfl, rfl⟩
    refine .bind (.storeName hs fun target h => ?_) ?_
    · obtain ⟨-, ⟨key, hkey, -⟩, -⟩ := htarget h
      exact ⟨key, hkey⟩
    rintro typeName s₁ h₁ ⟨hnamed, houtputs⟩
    refine .bind (.checkTypeName fun target h => ?_) ?_
    · obtain ⟨-, ⟨key, hkey, husable⟩, -⟩ := htarget h
      exact h.name_eq hnamed hkey ▸ husable
    rintro - s₁ - ⟨rfl, husable⟩
    refine .bind (.checkDescription _ fun target h => (htarget h).2.2) ?_
    rintro description s₁ - ⟨rfl, hdescription, hdescribes⟩
    let type : Composite := ⟨typeName, description, ⟨ms, [], .output, iteration⟩, none⟩
    have hfree' : Table.get? s₁.outputs label = none := houtputs ▸ hfree
    have hsettled : Settled c (s₁.fileType (.composite type) .output label)
        ⟨.output, name, .map ms⟩ (some (.named s₁.types.size)) := by
      have hheld : (s₁.fileType (.composite type) .output label).types[s₁.types.size]? =
          some (.composite type) := by simp
      refine .object hshape hlabel ?_ hheld rfl ?_ husable hdescribes hdescription
      · simp [get?_outputs_fileType]
      · simpa [State.Named] using hnamed
    refine .fileType (later_fileType hfree' hfiles ?_ hsettled) hsettled
    rintro k ⟨⟩
    rfl

theorem resolveEnumeration_gives (hs : Whole c s) {name literals : Value} {ms : Schema.Members}
    (htouched : Touched c kept ⟨.output, name, .map ms⟩)
    (hshape : Schema.shape? ms = some .enumeration) (hfound : Table.get? ms "enum" = some literals)
    {key : String} (hnamed : s.Named name.plain key) :
    Gives c allowed s (resolveEnumeration key literals) fun type s' =>
      Settled c s' ⟨.output, name, .map ms⟩ (some type) := by
  have hmade := hs.coherent.name_of_strict hs.strict hnamed
  have hfiles : Files c (Label.ofText key).key ⟨.output, name, .map ms⟩ :=
    .own htouched (.enumeration hshape hmade)
  have htarget : ∀ {s' target : State}, s'.Named name.plain key → Target c s' target →
      Usable key ∧ ∃ vs members, literals.iterate = .ok vs ∧
        membersFrom key [] vs = .ok members := by
    intro s' target hname h
    obtain ⟨type, hsettled⟩ := h.settled hschemas hnames htouched
    obtain ⟨-, literals', vs, key', members, hfound', hvs, hmembers, hkey, husable⟩ :=
      hsettled.of_enumeration hshape
    obtain rfl := Option.some.inj (hfound.symm.trans hfound')
    obtain rfl := h.name_eq hname hkey
    exact ⟨husable, vs, members, hvs, hmembers⟩
  refine .get_bind ?_
  split
  · rename_i type hentry
    refine .bind (.report _ _) ?_
    rintro - _ hlater ⟨log, rfl⟩
    have hkept : Table.get? s.outputs (.ofText key) = some (some type) :=
      Option.join_eq_some_iff.mp hentry
    exact .pure ((hs.settled hschemas hnames hfiles hkept).mono hlater.onward)
  · rename_i hentry
    have hfree : Table.get? s.outputs (.ofText key) = none := by
      cases hkept : Table.get? s.outputs (.ofText key) with
      | none => rfl
      | some type =>
          -- An entry that stands for no type is not that of an enumeration.
          obtain ⟨hsome, -⟩ := (hs.settled hschemas hnames hfiles hkept).of_enumeration hshape
          obtain ⟨t, rfl⟩ := Option.isSome_iff_exists.mp hsome
          simp [State.output?, hkept] at hentry
    refine .bind (.report _ _) ?_
    rintro - s₁ hlater ⟨log, hlog⟩
    have hnamed' : s₁.Named name.plain key := hlater.onward.grows.named _ _ hnamed
    have hfree' : Table.get? s₁.outputs (.ofText key) = none := by rw [hlog, ← hfree]
    refine .bind_access (fun target h => ?_) fun vs hvs => ?_
    · obtain ⟨-, vs, -, hvs, -⟩ := htarget hnamed' h
      exact ⟨vs, hvs⟩
    refine .bind (Q := fun members t => membersFrom key [] vs = .ok members ∧ t = s₁)
      (.liftExcept (fun members hmembers => ⟨hmembers, rfl⟩) fun target h => ?_) ?_
    · obtain ⟨-, vs', members, hvs', hmembers⟩ := htarget hnamed' h
      obtain rfl := Except.ok.inj (hvs.symm.trans hvs')
      exact ⟨members, hmembers⟩
    rintro members s₁ - ⟨hmembers, rfl⟩
    refine .bind (.checkTypeName fun target h => (htarget hnamed' h).1) ?_
    rintro - s₁ - ⟨rfl, husable⟩
    have hsettled : Settled c (s₁.fileType (.enumeration ⟨key, members⟩) .output (.ofText key))
        ⟨.output, name, .map ms⟩ (some (.named s₁.types.size)) := by
      refine .enumeration (e := ⟨key, members⟩) hshape hfound hvs hmembers ?_ husable ?_ (by simp)
      · simpa [State.Named] using hnamed'
      · simp [get?_outputs_fileType]
    refine .fileType (later_fileType hfree' hfiles ?_ hsettled) hsettled
    rintro k ⟨⟩

theorem enumerationType_gives (hs : Whole c s) {name : Value} {ms : Schema.Members}
    (htouched : Touched c kept ⟨.output, name, .map ms⟩)
    (hshape : Schema.shape? ms = some .enumeration) :
    Gives c allowed s (enumerationType name ms) fun type s' =>
      Settled c s' ⟨.output, name, .map ms⟩ type := by
  have htarget : ∀ {s' target : State}, Target c s' target →
      (∃ literals, Table.get? ms "enum" = some literals) ∧
        ∃ key, target.Named name.plain key := by
    intro s' target h
    obtain ⟨type, hsettled⟩ := h.settled hschemas hnames htouched
    obtain ⟨-, literals, -, key, -, hfound, -, -, hkey, -⟩ := hsettled.of_enumeration hshape
    exact ⟨⟨literals, hfound⟩, key, hkey⟩
  unfold enumerationType
  refine .bind (.storeName hs fun target h => (htarget h).2) ?_
  rintro key s₁ hlater ⟨hnamed, -⟩
  split
  · rename_i hnone
    refine .throw fun target h => ?_
    obtain ⟨⟨literals, hfound⟩, -⟩ := htarget h
    rw [hnone] at hfound
    cases hfound
  · rename_i literals hfound
    refine .bind (resolveEnumeration_gives hschemas hnames (hlater.whole hs) htouched hshape hfound
      hnamed) ?_
    rintro type s₂ - hsettled
    exact .pure hsettled

/-! ## References and arrays -/

/-- What is asked of a translation one level deeper. -/
def DeeperGives (c : Catalog) (deeper : Deeper) : Prop :=
  ∀ (s : State) (kept : Option String) (name schema : Value), Whole c s →
    Touched c kept ⟨.output, name, schema⟩ →
    Gives c (IsTooDeep c) s (deeper name schema) fun type s' =>
      Settled c s' ⟨.output, name, schema⟩ type

theorem keepType_gives (hs : Whole c s) {text : String} {node : Node}
    (hfiles : Files c (.text text) node) {type : Option TypeRef}
    (hsettled : Settled c s node type) :
    Gives c allowed s (setCached .output (.ofText text) type) fun _ s' =>
      Table.get? s'.outputs (.ofText text) = some type := by
  refine ⟨.setCached _ _ _ (later_setCached hs hschemas hnames hfiles hsettled) ?_, nofun⟩
  simp [get?_outputs_setCached]

theorem referenceType_gives (hs : Whole c s) {deeper : Deeper} (hdeeper : DeeperGives c deeper)
    {text : String}
    (htouched : Touched c (some text) ⟨.output, .text text, c.schema .output text⟩) :
    Gives c (IsTooDeep c) s (referenceType c deeper .output text) fun type s' =>
      Settled c s' ⟨.output, .text text, c.schema .output text⟩ type ∧
        Table.get? s'.outputs (.ofText text) = some type := by
  have hfiles : Files c (Label.ofText text).key ⟨.output, .text text, c.schema .output text⟩ :=
    .kept htouched
  unfold referenceType
  apply Gives.bind_cached?
  split
  · rename_i type hfound
    exact .pure ⟨hs.settled hschemas hnames hfiles hfound, hfound⟩
  · refine .bind (hdeeper s _ _ _ hs htouched) ?_
    rintro type s₁ hlater hsettled
    refine .bind (keepType_gives hschemas hnames (hlater.whole hs) (.kept htouched) hsettled) ?_
    rintro - s₂ hset hentry
    exact .pure ⟨hsettled.mono hset.onward, hentry⟩

/-- The nodes that a schema within another one leads to are met, and each complete state settles
a type for it. -/
structure Follows (c : Catalog) (name schema : Value) : Prop where
  touched : ∀ kept node, Leads c name schema kept node → Touched c kept node
  settled : ∀ target, Complete c target → ∃ type, SettledWithin c target name schema type

theorem targetType_gives (hs : Whole c s) {deeper : Deeper} (hdeeper : DeeperGives c deeper)
    {name schema target : Value} (hfollows : Follows c name schema)
    (htarget : Schema.target? schema = some target) :
    Gives c (IsTooDeep c) s
      (access (Schema.referenceName target) >>= referenceType c deeper .output) fun type s' =>
        SettledWithin c s' name schema type := by
  refine .bind_access (fun later h => ?_) fun text htext => ?_
  · obtain ⟨type, leads, -, -⟩ := hfollows.settled later h.complete
    cases leads with
    | own own => simp [own] at htarget
    | reference refers leads =>
        obtain rfl := Option.some.inj (refers.symm.trans htarget)
        exact ⟨_, leads⟩
  have hleads : Leads c name schema (some text) _ := .reference htarget htext
  refine (referenceType_gives hschemas hnames hs hdeeper (hfollows.touched _ _ hleads)).weaken ?_
  rintro type s' - ⟨hsettled, hentry⟩
  refine .intro hleads ?_ hsettled
  rintro _ ⟨⟩
  exact hentry

theorem itemType_gives (hs : Whole c s) {deeper : Deeper} (hdeeper : DeeperGives c deeper)
    {name items : Value} (hfollows : Follows c (itemsLabel name items) items) :
    Gives c (IsTooDeep c) s (itemType c deeper .output name items) fun type s' =>
      SettledWithin c s' (itemsLabel name items) items type := by
  cases htarget : Schema.target? items with
  | some target =>
      simp only [itemType, htarget]
      exact targetType_gives hschemas hnames hs hdeeper hfollows htarget
  | none =>
      have hleads : Leads c (itemsLabel name items) items none _ := .own htarget
      have htouched := hfollows.touched _ _ hleads
      have hshaped : ∀ later, Target c s later →
          ∃ ms shape, items = .map ms ∧ Schema.shape? ms = some shape := by
        intro later h
        obtain ⟨type, hsettled⟩ := h.settled hschemas hnames htouched
        exact hsettled.isMap
      cases items with
      | map ms =>
          cases hshape : Schema.shape? ms with
          | none =>
              simp only [itemType, htarget, hshape]
              refine .throw fun later h => ?_
              obtain ⟨_, shape, ⟨⟩, hshape'⟩ := hshaped later h
              rw [hshape] at hshape'
              cases hshape'
          | some shape =>
              by_cases hscalar : shape = .scalar
              · subst hscalar
                simp only [itemType, htarget, hshape]
                exact .pure (.own htarget (.scalar hshape))
              · rw [itemType_of_own c deeper .output name htarget hshape hscalar]
                refine (hdeeper s _ _ _ hs htouched).weaken ?_
                rintro type s' - hsettled
                exact .own htarget hsettled
      | _ =>
          simp only [itemType, htarget]
          refine .throw fun later h => ?_
          obtain ⟨_, _, ⟨⟩, -⟩ := hshaped later h

theorem listType_gives (hs : Whole c s) {deeper : Deeper} (hdeeper : DeeperGives c deeper)
    {name : Value} {ms : Schema.Members} (htouched : Touched c kept ⟨.output, name, .map ms⟩)
    (hshape : Schema.shape? ms = some .array) :
    Gives c (IsTooDeep c) s (listType c deeper .output name ms) fun type s' =>
      Settled c s' ⟨.output, name, .map ms⟩ type := by
  have hitems : ∀ target, Complete c target → ∃ items type,
      Table.get? ms "items" = some items ∧
        SettledWithin c target (itemsLabel name items) items type := by
    intro target h
    obtain ⟨type, hsettled, -⟩ := h.settled hschemas hnames htouched
    cases hsettled with
    | array _ found leads entry settled => exact ⟨_, _, found, leads, entry, settled⟩
    | _ shape => simp [hshape] at shape
  unfold listType
  split
  · rename_i hnone
    refine .throw fun target h => ?_
    obtain ⟨items, -, hfound, -⟩ := hitems target h.complete
    rw [hnone] at hfound
    cases hfound
  · rename_i items hfound
    have hfollows : Follows c (itemsLabel name items) items := by
      refine ⟨fun _ _ leads => .items htouched hshape hfound leads, fun target h => ?_⟩
      obtain ⟨items', type, hfound', hsettled⟩ := hitems target h
      obtain rfl := Option.some.inj (hfound.symm.trans hfound')
      exact ⟨type, hsettled⟩
    refine .bind (itemType_gives hschemas hnames hs hdeeper hfollows) ?_
    rintro item s₁ - hsettled
    exact .pure (.array_of_within hshape hfound hsettled)

/-! ## Whole translations -/

/-- The induction is on the levels that are left. Where none is, the translation is too deep. -/
theorem translate_gives (hs : Whole c s) {name schema : Value}
    (htouched : Touched c kept ⟨.output, name, schema⟩) (iteration : Int) :
    Gives c (IsTooDeep c) s (translate c .output name schema [] iteration) fun type s' =>
      Settled c s' ⟨.output, name, schema⟩ type := by
  induction hlevels : (c.config.limit.count - iteration).toNat using Nat.strong_induction_on
    generalizing s kept name schema iteration with
  | _ levels ih =>
      subst hlevels
      have hshaped : ∀ target, Target c s target →
          ∃ ms shape, schema = .map ms ∧ Schema.shape? ms = some shape := by
        intro target h
        obtain ⟨type, hsettled⟩ := h.settled hschemas hnames htouched
        exact hsettled.isMap
      unfold translate
      split
      · exact .throw fun _ _ => ⟨name, rfl⟩
      · rename_i hlevel
        split
        · rename_i ms
          split
          · rename_i hshape
            refine .throw fun target h => ?_
            obtain ⟨_, shape, ⟨⟩, hshape'⟩ := hshaped target h
            rw [hshape] at hshape'
            cases hshape'
          · rename_i hshape
            exact objectType_gives hschemas hnames hs htouched hshape iteration
          · rename_i hshape
            exact enumerationType_gives hschemas hnames hs htouched hshape
          · rename_i hshape
            refine .bind (.report _ _) ?_
            rintro - s₁ - -
            exact .pure (.emptyObject hshape)
          · rename_i hshape
            refine listType_gives hschemas hnames hs (fun t kept n items ht hn => ?_) htouched
              hshape
            exact ih _ (by omega) ht hn (iteration + 1) rfl
          · rename_i hshape
            exact .pure (.scalar hshape)
        · rename_i hmap
          refine .throw fun target h => ?_
          obtain ⟨ms, -, rfl, -⟩ := hshaped target h
          exact absurd rfl (hmap ms)

theorem deeperGives_translate (iteration : Int) :
    DeeperGives c fun name schema => translate c .output name schema [] iteration :=
  fun _ _ _ _ hs htouched => translate_gives hschemas hnames hs htouched iteration

/-! ## Fields -/

omit hschemas hnames in
theorem noteShadowed_gives {p : String × Value} (hown : Schema.target? p.2 = none)
    (hallowed : ∀ target, Complete c target → Allowed c p) :
    Gives c allowed s (noteShadowed c p.1) fun _ _ => Allowed c p := by
  unfold noteShadowed
  split
  · rename_i hdefined
    split
    · rename_i hrefused
      refine .throw fun target h => ?_
      have hlenient := hallowed target h.complete hown hdefined
      rw [hrefused] at hlenient
      cases hlenient
    · rename_i hlenient
      refine (Gives.report _ _).weaken ?_
      rintro - _ - - - -
      simpa using hlenient
  · rename_i hundefined
    exact .pure fun _ hdefined => absurd hdefined hundefined

theorem propertyType_gives (hs : Whole c s) {ms : Schema.Members} {iteration : Int}
    {p : String × Value} (hfollows : Follows c (.text p.1) p.2)
    (hallowed : ∀ target, Complete c target → Allowed c p) :
    Gives c (IsTooDeep c) s (propertyType c ⟨ms, [], .output, iteration⟩ p.1 p.2)
      fun type s' => Allowed c p ∧ SettledWithin c s' (.text p.1) p.2 type := by
  cases htarget : Schema.target? p.2 with
  | some target =>
      rw [propertyType_of_target c _ p.1 htarget]
      refine (targetType_gives hschemas hnames hs
        (deeperGives_translate hschemas hnames (iteration + 1)) hfollows htarget).weaken ?_
      rintro type s' - hsettled
      refine ⟨fun hown => ?_, hsettled⟩
      rw [htarget] at hown
      cases hown
  | none =>
      have hleads : Leads c (.text p.1) p.2 none _ := .own htarget
      rw [propertyType_of_inline c _ p.1 htarget]
      refine .bind (noteShadowed_gives htarget hallowed) ?_
      rintro - s₁ hlater hchecked
      refine (translate_gives hschemas hnames (hlater.whole hs) (hfollows.touched _ _ hleads)
        (iteration + 1)).weaken ?_
      rintro type s' - hsettled
      exact ⟨hchecked, .own htarget hsettled⟩

omit hschemas hnames in
theorem propertyField_gives (required : List String) (p : String × Value) (fieldName : String)
    (type : TypeRef)
    (hdescribes : ∀ target, Target c s target →
      Describes ((p.2.member? "description").getD .null)) :
    Gives c allowed s (propertyField .output required p.1 fieldName type
        ((p.2.member? "description").getD .null))
      fun field s' => s' = s ∧ field = ownField .output required p fieldName type ∧
        Describes ((p.2.member? "description").getD .null) := by
  refine .bind (.checkDescription _ hdescribes) ?_
  rintro description s - ⟨rfl, rfl, hdescription⟩
  exact .pure ⟨rfl, rfl, hdescription⟩

/-- The properties go on from state to state; a complete state has the fields of all of them. -/
theorem propertyFields_gives (hs : Whole c s) {ms : Schema.Members} {iteration : Int}
    {required : List String} {ps : List (String × Value)}
    (htouched : ∀ p ∈ ps, ∀ kept node, Leads c (.text p.1) p.2 kept node → Touched c kept node)
    (hfields : ∀ target, Complete c target → ∃ fields, FieldsSettled c target required ps fields) :
    Gives c (IsTooDeep c) s (propertyFields c ⟨ms, [], .output, iteration⟩ required ps)
      fun fields s' => FieldsSettled c s' required ps fields := by
  induction ps generalizing s with
  | nil => exact .pure .nil
  | cons p ps ih =>
      have hproperty : ∀ target, Complete c target →
          Allowed c p ∧ ∃ type, SettledWithin c target (.text p.1) p.2 type := by
        intro target h
        obtain ⟨fields, hsettled⟩ := hfields target h
        exact hsettled.property List.mem_cons_self
      have hrest : ∀ target, Complete c target →
          ∃ fields, FieldsSettled c target required ps fields := by
        intro target h
        obtain ⟨fields, hsettled⟩ := hfields target h
        cases hsettled with
        | skip _ _ rest => exact ⟨_, rest⟩
        | keep _ _ _ _ rest => exact ⟨_, rest⟩
      have hlater := fun {t : State} (ht : Whole c t) =>
        ih ht (fun q hq => htouched q (List.mem_cons_of_mem p hq)) hrest
      have hfollows : Follows c (.text p.1) p.2 :=
        ⟨htouched p List.mem_cons_self, fun target h => (hproperty target h).2⟩
      refine .bind (propertyType_gives hschemas hnames hs hfollows
        fun target h => (hproperty target h).1) ?_
      rintro type s₁ h₁ ⟨hallowed, hsettled⟩
      split
      · refine (hlater (h₁.whole hs)).weaken ?_
        intro fields s₂ h₂ hfields
        exact .skip hallowed (hsettled.mono h₂.onward) hfields
      · rename_i type
        have hs₁ := h₁.whole hs
        -- Where one state has a type for the property, so has every other one.
        have hkept : ∀ target, Complete c target → (∃ name, target.Named p.1 name) ∧
            Describes ((p.2.member? "description").getD .null) := by
          intro target h
          obtain ⟨fields, hothers⟩ := hfields target h
          cases hothers with
          | skip _ settled _ =>
              cases hsettled.alike (hs₁.namedAlike h.whole) settled
          | keep _ _ named describes _ => exact ⟨⟨_, named⟩, describes⟩
        refine .bind (.storeName hs₁ fun target h => (hkept target h.complete).1) ?_
        rintro fieldName s₂ h₂ ⟨hnamed, -⟩
        refine .bind (propertyField_gives required p fieldName type
          fun target h => (hkept target h.complete).2) ?_
        rintro field s₂ - ⟨rfl, rfl, hdescribes⟩
        refine .bind (hlater (h₂.whole hs₁)) ?_
        intro fields s₃ h₃ hfields
        have h₁₃ := h₂.onward.trans h₃.onward
        exact .pure (.keep hallowed (hsettled.mono h₁₃) (h₃.onward.grows.named _ _ hnamed)
          hdescribes hfields)

theorem fieldsOf_gives (hs : Whole c s) {name : Value} {ms : Schema.Members}
    (htouched : Touched c kept ⟨.output, name, .map ms⟩)
    (hshape : Schema.shape? ms = some .object) (iteration : Int) :
    Gives c (IsTooDeep c) s (fieldsOf c ⟨ms, [], .output, iteration⟩) fun fields s' =>
      Fills c s' ms fields := by
  have hfills : ∀ target, Complete c target → ∃ required ps own,
      requiredNames ms = .ok required ∧ properties ms = .ok ps ∧
        FieldsSettled c target required ps own := by
    intro target h
    obtain ⟨fields, required, ps, own, hrequired, hps, hown, -⟩ :=
      h.fills hschemas hnames htouched hshape
    exact ⟨required, ps, own, hrequired, hps, hown⟩
  rw [fieldsOf_eq]
  refine .bind_access (fun target h => ?_) fun required hrequired => ?_
  · obtain ⟨required, -, -, hrequired, -⟩ := hfills target h.complete
    exact ⟨required, hrequired⟩
  have hlinks : planLinks c ⟨ms, [], .output, iteration⟩ = pure [] := by
    unfold planLinks
    split <;> rfl
  rw [hlinks]
  refine .bind (Q := fun links t => links = [] ∧ t = s) (.pure ⟨rfl, rfl⟩) ?_
  rintro links s - ⟨rfl, rfl⟩
  refine .bind_access (fun target h => ?_) fun ps hps => ?_
  · obtain ⟨-, ps, -, -, hps, -⟩ := hfills target h.complete
    exact ⟨ps, hps⟩
  refine .bind (propertyFields_gives hschemas hnames hs
    (fun p hp _ _ leads => .property htouched hshape hps hp leads) fun target h => ?_) ?_
  · obtain ⟨required', ps', own, hrequired', hps', hown⟩ := hfills target h
    obtain rfl := Except.ok.inj (hrequired.symm.trans hrequired')
    obtain rfl := Except.ok.inj (hps.symm.trans hps')
    exact ⟨own, hown⟩
  rintro own s₁ - hown
  refine .pure ⟨required, ps, own, hrequired, hps, hown, ?_⟩
  rw [List.append_nil]

/-! ## Asking for fields -/

/-- The failure to find fields because some translation was too deep. -/
def IsUnresolved (c : Catalog) (f : Failure) : Prop :=
  ∃ type name, f = .unresolvedFields type (.tooDeep name c.config.limit)

theorem fieldsAt_gives (hs : Whole c s) (place : Nat) :
    Gives c (IsUnresolved c) s (fieldsAt c place) fun _ _ => True := by
  unfold fieldsAt
  have hread : Gives c (IsUnresolved c) s (compositeAt? place) fun found t => t = s ∧
      ∀ type, found = some type ↔ s.types[place]? = some (.composite type) := by
    obtain ⟨found, hrun, -⟩ := run_compositeAt? place s
    refine ⟨compositeAt?_ensures place s, ?_⟩
    rw [hrun]
    exact nofun
  refine .bind hread ?_
  rintro found s - ⟨rfl, hfound⟩
  split
  · exact .pure trivial
  · rename_i type
    have hheld := (hfound type).mp rfl
    split
    · exact .pure trivial
    · rename_i hnone
      obtain ⟨kept, name, iteration, htouched, hshape, hplan⟩ := hs.composite hheld
      have hfields := fieldsOf_gives hschemas hnames hs htouched hshape iteration
      rw [← hplan] at hfields
      have hadds : Keeps Adds (fieldsOf c type.plan) := keeps_fieldsOf c type.plan
      refine .bind (((hfields.and_keeps hadds).tryCatch (.unresolvedFields type.name)).allow ?_) ?_
      · rintro _ ⟨_, ⟨node, rfl⟩, rfl⟩
        exact ⟨type.name, node, rfl⟩
      rintro fields s₁ - ⟨hfills, hsame⟩
      have hkeep := later_keep (hsame.types _ _ hheld) hnone hfills
      exact ⟨⟨hkeep, fun _ _ => trivial⟩, nofun⟩

end Steps

end RestGraph.Graph
