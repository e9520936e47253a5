import RestGraph.Proofs.Change
import RestGraph.Proofs.Session

namespace RestGraph.Graph

open Build

/-!
# Every build is made of elementary changes

Translating a node changes the state step by step, and the type that it gives can be read off
the caches that it leaves. The same goes for references, arguments and the fields of a plan;
asking for fields keeps them in addition.
-/

section Steps

variable {c : Catalog} {given : Node → Prop} {s : State}

/-- A build that changes nothing leaves the very state. -/
theorem Build.Ensures.still {α : Type} {R : State → State → Prop} [IsPreorder State R]
    {b : Build α} (h : Keeps Eq b) : Ensures R s b fun _ s' => s' = s := by
  have hs : s = (b.run s).2 := h s
  refine ⟨?_, fun _ _ => hs.symm⟩
  rw [← hs]
  exact refl_of R s

theorem named_storeName {R : State → State → Prop} [NameFrame R] (text : String) :
    Ensures R s (storeName text) fun name s' =>
      s'.Named text name ∧ ∀ mode, s'.cache mode = s.cache mode :=
  .storeName text fun name names log hstore =>
    ⟨NameFrame.store s text name names log hstore, (Name.Registry.grows_store hstore).2,
      fun mode => by cases mode <;> rfl⟩

/-- Adding a type and filing it is one change. -/
theorem fileType_ensures {α : Type} {R : State → State → Prop} (type : NamedType) (mode : Mode)
    (label : Label) (result : Nat → α) {Q : α → State → Prop}
    (hchange : R s (s.fileType type mode label))
    (hresult : Q (result s.types.size) (s.fileType type mode label)) :
    Ensures R s (do
      let place ← addType type
      setCached mode label (some (.named place))
      return result place) Q :=
  ⟨hchange, fun a ha => by
    cases ha
    exact hresult⟩

/-! ## Objects and enumerations -/

theorem objectType_reads {name : Value} {plan : Plan}
    (hmet : Met c given ⟨plan.mode, name, .map plan.schema⟩)
    (hshape : Schema.shape? plan.schema = some .object) :
    Ensures (Evolves c given) s (objectType name plan) fun type s' =>
      Reads s' ⟨plan.mode, name, .map plan.schema⟩ type := by
  unfold objectType
  refine .bind_keyOf fun label hlabel => ?_
  apply Ensures.bind_cached?
  split
  · rename_i type hfound
    exact .pure (.object hshape hlabel hfound)
  · rename_i hfree
    refine .bind_access fun text htext => ?_
    refine .bind (named_storeName text) ?_
    rintro typeName s₁ - ⟨hnamed, hcache⟩
    refine .bind (.still (keeps_checkTypeName typeName)) ?_
    rintro - s₁ - rfl
    refine .bind (.still (keeps_checkDescription _ _)) ?_
    rintro description s₁ - rfl
    have hfree' : Table.get? (s₁.cache plan.mode) label = none := by rw [hcache, hfree]
    refine fileType_ensures _ _ _ _ (.single ?_) ?_
    · exact .object hmet hshape hlabel hfree' htext hnamed rfl
    · refine .object hshape hlabel ?_
      simp [get?_cache_fileType]

theorem resolveEnumeration_reads {mode : Mode} {name literals : Value} {ms : Schema.Members}
    (hmet : Met c given ⟨mode, name, .map ms⟩) (hshape : Schema.shape? ms = some .enumeration)
    (hliterals : Table.get? ms "enum" = some literals) {key : String}
    (hnamed : s.Named name.plain key) :
    Ensures (Evolves c given) s (resolveEnumeration key literals) fun type s' =>
      Reads s' ⟨mode, name, .map ms⟩ (some type) := by
  refine .get_bind ?_
  split
  · rename_i type hfound
    refine .bind (.report _ _ (Q := fun _ t => ∃ log, t = { s with log := log })
      fun log => ⟨NameFrame.log s log, log, rfl⟩) ?_
    rintro - _ - ⟨log, rfl⟩
    exact .pure (.enumeration hshape hnamed hfound)
  · rename_i hfree
    refine .bind (.report _ _ (Q := fun _ t => ∃ log, t = { s with log := log })
      fun log => ⟨NameFrame.log s log, log, rfl⟩) ?_
    rintro - s₁ - ⟨log, rfl⟩
    refine .bind_access fun vs hvs => ?_
    refine .bind_liftExcept fun members hmembers => ?_
    refine .bind (.still (keeps_checkTypeName key)) ?_
    rintro - s₁ - rfl
    refine fileType_ensures _ _ _ _ (.single ?_) ?_
    · have hlisted : Enumeration.ListedBy ⟨key, members⟩ ms :=
        ⟨literals, vs, hliterals, hvs, by simpa using members_of_membersFrom hmembers⟩
      exact .enumeration (e := ⟨key, members⟩) hmet hshape hnamed hfree hlisted
    · let filed := State.fileType { s with log := log } (.enumeration ⟨key, members⟩) .output
        (.ofText key)
      have hnamed' : filed.Named name.plain key := by simpa [filed, State.Named] using hnamed
      have hentry := get?_cache_fileType { s with log := log } (.enumeration ⟨key, members⟩)
        .output .output (.ofText key) (.ofText key)
      refine .enumeration hshape hnamed' ?_
      simpa [State.output?, State.cache] using congrArg Option.join hentry

theorem enumerationType_reads {mode : Mode} {name : Value} {ms : Schema.Members}
    (hmet : Met c given ⟨mode, name, .map ms⟩) (hshape : Schema.shape? ms = some .enumeration) :
    Ensures (Evolves c given) s (enumerationType name ms) fun type s' =>
      Reads s' ⟨mode, name, .map ms⟩ type := by
  unfold enumerationType
  refine .bind (named_storeName name.plain) ?_
  rintro key s₁ - ⟨hnamed, -⟩
  split
  · exact .throw _
  · rename_i literals hliterals
    refine .bind (resolveEnumeration_reads hmet hshape hliterals hnamed) ?_
    rintro type s₂ - hread
    exact .pure hread

/-! ## References and arrays -/

/-- What is asked of a translation one level deeper: the type of a node that can be met is
read off the caches that it leaves. -/
def DeeperReads (c : Catalog) (given : Node → Prop) (mode : Mode) (deeper : Deeper) : Prop :=
  ∀ (s : State) (name schema : Value),
    (∀ ms, schema = .map ms → Met c given ⟨mode, name, schema⟩) →
    Ensures (Evolves c given) s (deeper name schema) fun type s' =>
      Reads s' ⟨mode, name, schema⟩ type

/-- Filing a definition under its own key. -/
theorem setCached_definition {mode : Mode} {key : String} {type : Option TypeRef}
    (hread : Reads s ⟨mode, .text key, c.schema mode key⟩ type) :
    Ensures (Evolves c given) s (setCached mode (.ofText key) type) fun _ s' =>
      Table.get? (s'.cache mode) (.ofText key) = some type := by
  obtain ⟨ms, hms⟩ := hread.isMap
  refine .setCached _ _ _ (.single (.definition (get?_schemas hms) hread)) ?_
  simp [get?_cache_setCached]

theorem referenceType_reads {mode : Mode} {deeper : Deeper}
    (hdeeper : DeeperReads c given mode deeper) (name : String) :
    Ensures (Evolves c given) s (referenceType c deeper mode name) fun type s' =>
      Table.get? (s'.cache mode) (.ofText (referenceKey mode name)) = some type := by
  unfold referenceType
  apply Ensures.bind_cached?
  split
  · rename_i type hfound
    exact .pure hfound
  · refine .bind (hdeeper s _ _ fun ms hms => .definition (get?_schemas hms)) ?_
    rintro type s₁ - hread
    refine .bind (setCached_definition hread) ?_
    rintro - s₂ - hentry
    exact .pure hentry

theorem targetType_reads {mode : Mode} {deeper : Deeper}
    (hdeeper : DeeperReads c given mode deeper) (name : Value) {schema target : Value}
    (htarget : Schema.target? schema = some target) :
    Ensures (Evolves c given) s
      (access (Schema.referenceName target) >>= referenceType c deeper mode) fun type s' =>
        SlotReads s' mode name schema type := by
  refine .bind_access fun text htext => ?_
  refine (referenceType_reads hdeeper text).weaken ?_
  intro type s' _ hentry
  exact .reference htarget htext hentry

theorem itemType_reads {mode : Mode} {deeper : Deeper} (hdeeper : DeeperReads c given mode deeper)
    {name items : Value}
    (hmet : Schema.target? items = none → Met c given ⟨mode, itemsLabel name items, items⟩) :
    Ensures (Evolves c given) s (itemType c deeper mode name items) fun type s' =>
      SlotReads s' mode (itemsLabel name items) items type := by
  cases htarget : Schema.target? items with
  | some target =>
      simp only [itemType, htarget]
      exact targetType_reads hdeeper _ htarget
  | none =>
      cases items with
      | map ms =>
          cases hshape : Schema.shape? ms with
          | none =>
              simp only [itemType, htarget, hshape]
              exact .throw _
          | some shape =>
              by_cases hscalar : shape = .scalar
              · subst hscalar
                simp only [itemType, htarget, hshape]
                exact .pure (.own htarget (.scalar hshape))
              · rw [itemType_of_own c deeper mode name htarget hshape hscalar]
                refine (hdeeper s _ _ fun _ _ => hmet htarget).weaken ?_
                intro type s' _ hread
                exact .own htarget hread
      | _ =>
          simp only [itemType, htarget]
          exact .throw _

theorem listType_reads {mode : Mode} {deeper : Deeper} (hdeeper : DeeperReads c given mode deeper)
    {name : Value} {ms : Schema.Members} (hmet : Met c given ⟨mode, name, .map ms⟩)
    (hshape : Schema.shape? ms = some .array) :
    Ensures (Evolves c given) s (listType c deeper mode name ms) fun type s' =>
      Reads s' ⟨mode, name, .map ms⟩ type := by
  unfold listType
  split
  · exact .throw _
  · rename_i items hfound
    refine .bind (itemType_reads hdeeper fun hown => .items hmet hshape hfound hown) ?_
    rintro item s₁ - hslot
    exact .pure (hslot.array hshape hfound)

/-! ## Whole translations -/

theorem translate_reads {mode : Mode} {name schema : Value}
    (hmet : ∀ ms, schema = .map ms → Met c given ⟨mode, name, schema⟩)
    (links : Table String Link) (iteration : Int) :
    Ensures (Evolves c given) s (translate c mode name schema links iteration) fun type s' =>
      Reads s' ⟨mode, name, schema⟩ type := by
  fun_induction translate c mode name schema links iteration generalizing s with
  | case1 => exact .throw _
  | case2 => exact .throw _
  | case3 _ _ _ _ ms hshape => exact objectType_reads (hmet ms rfl) hshape
  | case4 _ _ _ _ ms hshape => exact enumerationType_reads (hmet ms rfl) hshape
  | case5 _ _ _ _ ms hshape =>
      exact .bind ((keeps_report _ _).ensures s) fun _ _ _ _ => .pure (.emptyObject hshape)
  | case6 _ _ _ _ ms hshape ih =>
      exact listType_reads (fun t n items hn => ih n items hn) (hmet ms rfl) hshape
  | case7 _ _ _ _ ms hshape => exact .pure (.scalar hshape)
  | case8 => exact .throw _

theorem deeperReads_translate (c : Catalog) (given : Node → Prop) (mode : Mode)
    (iteration : Int) :
    DeeperReads c given mode fun name schema => translate c mode name schema [] iteration :=
  fun _ _ _ hmet => translate_reads hmet [] iteration

theorem resolveReference_reads (mode : Mode) (name : String) (iteration : Int) :
    Ensures (Evolves c given) s (resolveReference c mode name iteration) fun type s' =>
      Table.get? (s'.cache mode) (.ofText (referenceKey mode name)) = some type :=
  referenceType_reads (deeperReads_translate c given mode _) name

/-! ## Types that are passed on -/

/-- A type that a state has for a mode: it is kept under a key, or it is that of a node. -/
inductive Held (c : Catalog) (given : Node → Prop) (s : State) (mode : Mode) (type : TypeRef) :
    Prop
  | kept {label : Label} (entry : Table.get? (s.cache mode) label = some (some type)) :
      Held c given s mode type
  | read {name schema : Value} (met : Met c given ⟨mode, name, schema⟩)
      (read : Reads s ⟨mode, name, schema⟩ (some type)) : Held c given s mode type

/-- The type leads nowhere, or to the place of one that was held for the mode on the way from
one state to another. -/
def Passed (c : Catalog) (given : Node → Prop) (s s' : State) (mode : Mode) (t : TypeRef) :
    Prop :=
  t.place? = none ∨ ∃ s₁ type, Evolves c given s s₁ ∧ Evolves c given s₁ s' ∧
    Held c given s₁ mode type ∧ t.place? = type.place?

theorem Held.passed {s₁ s' : State} {mode : Mode} {type t : TypeRef}
    (h : Held c given s₁ mode type) (hbefore : Evolves c given s s₁)
    (hafter : Evolves c given s₁ s') (hplace : t.place? = type.place?) :
    Passed c given s s' mode t := .inr ⟨s₁, type, hbefore, hafter, h, hplace⟩

theorem Passed.mono {s₀ s' s₂ : State} {mode : Mode} {t : TypeRef}
    (h : Passed c given s s' mode t) (hbefore : Evolves c given s₀ s)
    (hafter : Evolves c given s' s₂) : Passed c given s₀ s₂ mode t := by
  rcases h with hnone | ⟨s₁, type, h₁, h₂, hheld, hplace⟩
  · exact .inl hnone
  · exact .inr ⟨s₁, type, trans_of _ hbefore h₁, trans_of _ h₂ hafter, hheld, hplace⟩

theorem SlotReads.held {mode : Mode} {name schema : Value} {type : TypeRef}
    (h : SlotReads s mode name schema (some type))
    (hmet : Schema.target? schema = none → Met c given ⟨mode, name, schema⟩) :
    Held c given s mode type := by
  cases h with
  | reference refers leads entry => exact .kept entry
  | own own read => exact .read (hmet own) read

@[simp] theorem place?_whenRequired (required : Bool) (t : TypeRef) :
    (t.whenRequired required).place? = t.place? := by
  cases required <;> rfl

@[simp] theorem place?_parameterArgument (p : Parameter) (name : String) :
    (parameterArgument p name).type.place? = none := by
  simp [parameterArgument, TypeRef.place?]

theorem isInput_of_scalar {t : TypeRef} (h : t.place? = none) : s.isInput t = true := by
  unfold State.isInput
  rw [h]

/-! ## Arguments -/

/-- What holds of the arguments that the parameters make holds of all that are added for them. -/
theorem parameterArguments_forall {P : Argument → Prop} {ps : List Parameter}
    (hown : ∀ p ∈ ps, ∀ name, P (parameterArgument p name)) {found : Table String Argument}
    (hfound : ∀ e ∈ found, P e.2) :
    Ensures (Evolves c given) s (parameterArguments c found ps) fun found' _ =>
      ∀ e ∈ found', P e.2 := by
  induction ps generalizing found s with
  | nil => exact .pure hfound
  | cons p ps ih =>
      obtain ⟨hp, hrest⟩ := List.forall_mem_cons.mp hown
      unfold parameterArguments
      split
      · rename_i name hname
        split
        · exact .bind ((keeps_report _ _).ensures s) fun _ _ _ _ => ih hrest hfound
        · refine .bind ((keeps_storeName name).ensures s) fun key s' _ _ => ih hrest ?_
          exact Table.forall_mem_insert hfound (hp name)
      · exact .bind ((keeps_report _ _).ensures s) fun _ _ _ _ => ih hrest hfound

theorem bodyType_held (name : String) :
    Ensures (Evolves c given) s (bodyType c name) fun type s' =>
      ∀ t, type = some t → Held c given s' .input t := by
  unfold bodyType
  apply Ensures.bind_cached?
  split
  · rename_i type hfound
    refine .pure ?_
    rintro t rfl
    exact .kept hfound
  · have hmet : ∀ ms, c.schema .input name = .map ms →
        Met c given ⟨.input, .text name, c.schema .input name⟩ :=
      fun ms hms => .definition (get?_schemas hms)
    refine (translate_reads hmet [] 0).weaken ?_
    rintro type s' - hread t rfl
    obtain ⟨ms, hms⟩ := hread.isMap
    exact .read (hmet ms hms) hread

theorem arguments_passed (ps : List Parameter) (body : Option String) (required : Bool) :
    Ensures (Evolves c given) s (arguments c ps body required) fun found s' =>
      ∀ e ∈ found, Passed c given s s' .input e.2.type := by
  unfold arguments
  refine .bind (parameterArguments_forall (P := fun a => a.type.place? = none)
    (fun p _ name => place?_parameterArgument p name) nofun) ?_
  intro found s₁ h₁ hscalars
  have hfound : ∀ s', ∀ e ∈ found, Passed c given s s' .input e.2.type :=
    fun _ e he => .inl (hscalars e he)
  cases body with
  | none => exact .pure (hfound s₁)
  | some name =>
      unfold bodyArgument
      refine .bind (bodyType_held name) ?_
      intro type s₂ h₂ hheld
      split
      · exact .pure (hfound s₂)
      · rename_i type
        refine .bind ((keeps_storeName name).ensures s₂) ?_
        intro key s₃ h₃ _
        refine .bind ((keeps_access _).ensures s₃) ?_
        intro description s₄ h₄ _
        refine .pure (Table.forall_mem_insert (hfound s₄) ?_)
        exact (hheld type rfl).passed (trans_of _ h₁ h₂) (trans_of _ h₃ h₄) (by simp)

/-- A definition of an argument has its key and its type. -/
theorem argumentDefs_types {R : State → State → Prop} [IsPreorder State R]
    (found : List (String × Argument)) :
    Ensures R s (argumentDefs found) fun defs _ =>
      defs.map (fun d => (d.1, d.2.type)) = found.map fun e => (e.1, e.2.type) := by
  induction found generalizing s with
  | nil => exact .pure rfl
  | cons e found ih =>
      unfold argumentDefs Argument.def?
      refine .bind (Q := fun d _ => d.type = e.2.type) ?_ ?_
      · refine .bind ((keeps_checkInput _ _).ensures s) fun _ s₁ _ _ => ?_
        exact .bind ((keeps_checkDescription _ _).ensures s₁) fun _ _ _ _ => .pure rfl
      · intro d s₁ _ hd
        refine .bind ih fun defs s₂ _ hdefs => .pure ?_
        simp [hd, hdefs]

theorem argument_of_def {defs : Table String ArgumentDef} {found : Table String Argument}
    (h : defs.map (fun d => (d.1, d.2.type)) = found.map fun e => (e.1, e.2.type)) :
    ∀ d ∈ defs, ∃ e ∈ found, e.2.type = d.2.type := by
  intro d hd
  have hmem : (d.1, d.2.type) ∈ found.map fun e => (e.1, e.2.type) :=
    h ▸ List.mem_map.mpr ⟨d, hd, rfl⟩
  obtain ⟨e, he, heq⟩ := List.mem_map.mp hmem
  exact ⟨e, he, (Prod.mk.inj heq).2⟩

/-! ## Fields -/

/-- A property whose name may stand in the way of a definition is refused where that is
asked for. -/
theorem noteShadowed_ensures (c : Catalog) (name : String) :
    Ensures (Evolves c given) s (noteShadowed c name) fun _ _ =>
      c.defines name = true → c.config.failOnCollision = false := by
  unfold noteShadowed
  split
  · split
    · exact .throw _
    · rename_i hlenient
      refine ((keeps_report _ _).ensures s).weaken ?_
      intro _ _ _ _ _
      simpa using hlenient
  · rename_i hundefined
    refine .pure ?_
    intro hdefined
    exact absurd hdefined hundefined

theorem propertyType_reads {plan : Plan} {p : String × Value}
    (hmet : Schema.target? p.2 = none →
      (c.defines p.1 = true → c.config.failOnCollision = false) →
      Met c given ⟨plan.mode, .text p.1, p.2⟩) :
    Ensures (Evolves c given) s (propertyType c plan p.1 p.2) fun type s' =>
      SlotReads s' plan.mode (.text p.1) p.2 type ∧
        (Schema.target? p.2 = none → Met c given ⟨plan.mode, .text p.1, p.2⟩) := by
  cases htarget : Schema.target? p.2 with
  | some target =>
      rw [propertyType_of_target c plan p.1 htarget]
      refine (targetType_reads (deeperReads_translate c given plan.mode _) (.text p.1)
        htarget).weaken ?_
      intro type s' _ hslot
      exact ⟨hslot, nofun⟩
  | none =>
      rw [propertyType_of_inline c plan p.1 htarget]
      refine .bind (noteShadowed_ensures c p.1) ?_
      intro _ s₁ _ hallowed
      have hnode := hmet htarget hallowed
      refine (translate_reads (fun _ _ => hnode) [] _).weaken ?_
      intro type s' _ hread
      exact ⟨.own htarget hread, fun _ => hnode⟩

/-- The type of a field was held for the mode of the plan, and so was, for inputs, that of each
of its arguments. -/
def FieldPassed (c : Catalog) (given : Node → Prop) (s s' : State) (mode : Mode) (f : Field) :
    Prop :=
  Passed c given s s' mode f.type ∧ ∀ a ∈ f.arguments, Passed c given s s' .input a.2.type

theorem FieldPassed.mono {s₀ s' s₂ : State} {mode : Mode} {f : Field}
    (h : FieldPassed c given s s' mode f) (hbefore : Evolves c given s₀ s)
    (hafter : Evolves c given s' s₂) : FieldPassed c given s₀ s₂ mode f :=
  ⟨h.1.mono hbefore hafter, fun a ha => (h.2 a ha).mono hbefore hafter⟩

/-- The induction is on the properties; what is passed on for one of them is so on the way to
the end. -/
theorem propertyFields_passed {plan : Plan} (required : List String) {ps : List (String × Value)}
    (hmet : ∀ p ∈ ps, Schema.target? p.2 = none →
      (c.defines p.1 = true → c.config.failOnCollision = false) →
      Met c given ⟨plan.mode, .text p.1, p.2⟩) :
    Ensures (Evolves c given) s (propertyFields c plan required ps) fun fields s' =>
      ∀ f ∈ fields, FieldPassed c given s s' plan.mode f.2 := by
  induction ps generalizing s with
  | nil => exact .pure (by simp)
  | cons p ps ih =>
      have hrest := fun q hq => hmet q (List.mem_cons_of_mem p hq)
      refine .bind (propertyType_reads (hmet p List.mem_cons_self)) ?_
      rintro type s₁ h₁ ⟨hslot, hnode⟩
      split
      · refine (ih hrest).weaken ?_
        intro fields s₂ h₂ hfields f hf
        exact (hfields f hf).mono h₁ .refl
      · rename_i type
        refine .bind ((keeps_storeName p.1).ensures s₁) ?_
        intro name s₂ h₂ _
        refine .bind (propertyField_ensures plan.mode required p name type) ?_
        rintro field s₃ h₃ rfl
        refine .bind (ih hrest) ?_
        intro fields s₄ h₄ hfields
        refine .pure (List.forall_mem_cons.mpr ⟨?_, ?_⟩)
        · have hafter : Evolves c given s₁ s₄ := trans_of _ h₂ (trans_of _ h₃ h₄)
          refine ⟨(hslot.held hnode).passed h₁ hafter ?_, ?_⟩
          · unfold ownField
            cases plan.mode <;> simp
          · unfold ownField
            cases plan.mode <;> simp
        · intro f hf
          exact (hfields f hf).mono (trans_of _ h₁ (trans_of _ h₂ h₃)) .refl

theorem linkField_passed (name : String) (link : Link) :
    Ensures (Evolves c given) s (linkField c name link) fun f s' =>
      FieldPassed c given s s' .output f := by
  unfold linkField
  split
  · exact .throw _
  · refine .bind ((keeps_liftExcept _).ensures s) fun o s₁ h₁ _ => ?_
    refine .bind ((keeps_presets _ _ _).ensures s₁) fun preset s₂ h₂ _ => ?_
    refine .bind ((keeps_access _).ensures s₂) fun remaining s₃ h₃ _ => ?_
    refine .bind (arguments_passed remaining none false) ?_
    intro found s₄ h₄ hfound
    refine .bind (Q := fun type t => t = s₄ ∧ type = s₄.output? (.ofText (o.response.getD "")))
      (.get_bind (.pure ⟨rfl, rfl⟩)) ?_
    rintro type s₄ - ⟨rfl, hkept⟩
    split
    · exact .throw _
    · rename_i type
      have hheld : Held c given s₄ .output type :=
        .kept (Option.join_eq_some_iff.mp hkept.symm)
      refine .bind (argumentDefs_types found) fun defs s₅ h₅ hdefs => ?_
      refine .bind ((keeps_checkDescription _ _).ensures s₅) fun description s₆ h₆ _ => .pure ?_
      have hstart : Evolves c given s s₃ := trans_of _ h₁ (trans_of _ h₂ h₃)
      have hend : Evolves c given s₄ s₆ := trans_of _ h₅ h₆
      refine ⟨hheld.passed (trans_of _ hstart h₄) hend rfl, ?_⟩
      intro a ha
      obtain ⟨e, he, htype⟩ := argument_of_def hdefs a ha
      rw [← htype]
      exact (hfound e he).mono hstart hend

theorem linkFields_passed (links : List (String × Link)) :
    Ensures (Evolves c given) s (linkFields c links) fun fields s' =>
      ∀ f ∈ fields, FieldPassed c given s s' .output f.2 := by
  induction links generalizing s with
  | nil => exact .pure (by simp)
  | cons e links ih =>
      refine .bind (linkField_passed e.1 e.2) fun field s₁ h₁ hfield => ?_
      refine .bind ((keeps_storeName e.1).ensures s₁) fun name s₂ h₂ _ => ?_
      refine .bind ih fun fields s₃ h₃ hfields => ?_
      refine .pure (List.forall_mem_cons.mpr ⟨hfield.mono .refl (trans_of _ h₂ h₃), ?_⟩)
      intro f hf
      exact (hfields f hf).mono (trans_of _ h₁ h₂) .refl

theorem planLinks_passed (plan : Plan) :
    Ensures (Evolves c given) s (planLinks c plan) fun fields s' =>
      ∀ f ∈ fields, FieldPassed c given s s' plan.mode f.2 := by
  unfold planLinks
  split
  · rename_i hlinked
    obtain ⟨-, hmode⟩ := Bool.and_eq_true_iff.mp hlinked
    rw [eq_of_beq hmode]
    exact linkFields_passed plan.links
  · exact .pure (by simp)

/-- The properties of a plan that stand inline, as far as they are met. -/
def PlanMet (c : Catalog) (given : Node → Prop) (plan : Plan) : Prop :=
  ∀ ps, properties plan.schema = .ok ps → ∀ p ∈ ps, Schema.target? p.2 = none →
    (c.defines p.1 = true → c.config.failOnCollision = false) →
    Met c given ⟨plan.mode, .text p.1, p.2⟩

theorem fieldsOf_passed {plan : Plan} (hplan : PlanMet c given plan) :
    Ensures (Evolves c given) s (fieldsOf c plan) fun fields s' =>
      ∀ f ∈ fields, FieldPassed c given s s' plan.mode f.2 := by
  rw [fieldsOf_eq]
  refine .bind_access fun required _ => ?_
  refine .bind (planLinks_passed plan) fun links s₁ h₁ hlinks => ?_
  refine .bind_access fun ps hps => ?_
  refine .bind (propertyFields_passed required (hplan ps hps)) fun own s₂ h₂ hown => .pure ?_
  refine Table.forall_mem_ofList ?_
  intro f hf
  rcases List.mem_append.mp hf with hf | hf
  · exact (hown f hf).mono h₁ .refl
  · exact (hlinks f hf).mono .refl h₂

end Steps

end RestGraph.Graph
