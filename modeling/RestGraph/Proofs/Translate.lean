import RestGraph.Proofs.Faithful

namespace RestGraph.Graph

open Build

/-!
# What translation makes

Every step of a translation keeps a faithful state faithful, and the type that it gives was
made from its node. A type that was kept under a key of the node will do; which one it is
does not matter here.
-/

variable {c : Catalog} {given : Node → Prop} {linked : Prop} {s : State}

theorem checkDescription_ensures {R : State → State → Prop} [IsPreorder State R]
    (described : Described) (v : Value) :
    Ensures R s (checkDescription described v) fun d _ => d = v.text? := by
  unfold checkDescription
  split
  · exact .pure rfl
  · exact .pure rfl
  · exact .throw _

theorem storeName_ensures (text : String) :
    Ensures (Steady c given linked) s (storeName text) fun name s' =>
      s'.Named text name ∧ ∀ mode, s'.cache mode = s.cache mode :=
  .storeName text fun name names log hstore =>
    ⟨NameFrame.store s text name names log hstore, (Name.Registry.grows_store hstore).2,
      fun mode => by cases mode <;> rfl⟩

theorem addType_ensures {new : NamedType}
    (hnew : ∀ type, new = .composite type →
      (∃ name, Known c given ⟨type.plan.mode, name, .map type.plan.schema⟩) ∧
      Schema.shape? type.plan.schema = some .object ∧ (type.plan.links = [] ∨ linked) ∧
      type.fields? = none) :
    Ensures (Steady c given linked) s (addType new) fun place s' =>
      s'.types[place]? = some new :=
  .addType new ⟨TypeFrame.addType s new, fun hs => hs.addType new hnew⟩ (by simp)

theorem setCached_ensures {mode : Mode} {label : Label} {node : Node} {type : Option TypeRef}
    (hfiled : Filed c given s.Named mode label.key node) (hmade : Made c given s node type) :
    Ensures (Steady c given linked) s (setCached mode label type) fun _ s' =>
      Made c given s' node type := by
  have h : Adds s (s.setCached mode label type) := TypeFrame.setCached s mode label type
  exact .setCached mode label type ⟨h, fun hs => hs.setCached hfiled hmade⟩ (hmade.mono h.extends)

/-- The node has a key. The type is the one that was kept under the key in a state `s`, if
there was one, and it has the contents of the node if the key was new. A key that stood for
no type may be given one. -/
def KeptOrNew (c : Catalog) (given : Node → Prop) (s s' : State) (node : Node)
    (type : Option TypeRef) : Prop :=
  ∃ ns label, KeyOf s'.Named node ns label ∧
    (∀ t, Table.get? (s.cache ns) label = some (some t) → type = some t) ∧
    (Table.get? (s.cache ns) label = some none → type = none ∨ Own c given s' node type) ∧
    (Table.get? (s.cache ns) label = none → Own c given s' node type)

/-- What a translation in a state `s` gives for a node: a type that was made from it. -/
structure Translated (c : Catalog) (given : Node → Prop) (s s' : State) (node : Node)
    (type : Option TypeRef) : Prop where
  made : Made c given s' node type
  isMap : ∃ ms, node.schema = .map ms
  keptOrNew : ∀ ms, node.schema = .map ms →
    Schema.shape? ms = some .object ∨ Schema.shape? ms = some .enumeration →
    KeptOrNew c given s s' node type

theorem Translated.of_made {s' : State} {mode : Mode} {name : Value} {ms : Schema.Members}
    {type : Option TypeRef} (hmade : Made c given s' ⟨mode, name, .map ms⟩ type)
    (hobject : Schema.shape? ms ≠ some .object)
    (henumeration : Schema.shape? ms ≠ some .enumeration) :
    Translated c given s s' ⟨mode, name, .map ms⟩ type where
  made := hmade
  isMap := ⟨ms, rfl⟩
  keptOrNew ms' hms hshape := by
    obtain rfl := Value.map.inj hms
    exact absurd hshape (not_or.mpr ⟨hobject, henumeration⟩)

theorem objectType_ensures (hs : Faithful c given linked s) {name : Value} {plan : Plan}
    (hknown : Known c given ⟨plan.mode, name, .map plan.schema⟩)
    (hshape : Schema.shape? plan.schema = some .object)
    (hlinks : plan.links = [] ∨ linked) :
    Ensures (Steady c given linked) s (objectType name plan) fun type s' =>
      Translated c given s s' ⟨plan.mode, name, .map plan.schema⟩ type := by
  unfold objectType
  refine .bind_keyOf fun label hlabel => ?_
  apply Ensures.bind_cached?
  have hkey : KeyOf s.Named ⟨plan.mode, name, .map plan.schema⟩ plan.mode label :=
    .object hshape hlabel
  split
  · rename_i type hfound
    obtain ⟨node, hfiled, hmade⟩ := hs.entries _ _ _ hfound
    refine .pure ⟨.shared (.own hknown hkey) hfiled hmade, ⟨_, rfl⟩, fun _ _ _ =>
      ⟨_, _, hkey, fun t hget => ?_, fun hget => ?_, fun hget => ?_⟩⟩
    · exact Option.some.inj (hfound.symm.trans hget)
    · exact .inl (Option.some.inj (hfound.symm.trans hget))
    · simp [hfound] at hget
  · rename_i hfound
    refine .bind_access fun text htext => ?_
    refine .bind (storeName_ensures text) fun typeName s₂ _ hnamed => ?_
    refine .bind ((keeps_checkTypeName typeName).ensures s₂) fun _ s₃ h₃ _ => ?_
    refine .bind (checkDescription_ensures _ _) fun description s₄ h₄ hdescription => ?_
    refine .bind (addType_ensures ?_) fun place s₅ h₅ hplace => ?_
    · rintro type htype
      obtain rfl := NamedType.composite.inj htype
      exact ⟨⟨name, hknown⟩, hshape, hlinks, rfl⟩
    have hadds : Adds s₂ s₅ := trans_of Adds h₃.1 (trans_of Adds h₄.1 h₅.1)
    have hmade : Made c given s₅ ⟨plan.mode, name, .map plan.schema⟩ (some (.named place)) :=
      .object hshape hlabel htext (hadds.extends.named _ _ hnamed.1) hplace rfl rfl hdescription
    refine .bind (setCached_ensures (.own hknown (.object hshape hlabel)) hmade)
      fun _ s₆ h₆ hmade' => .pure ⟨hmade', ⟨_, rfl⟩, fun _ _ _ =>
        ⟨_, _, .object hshape hlabel, fun t hget => ?_, fun hget => ?_, fun _ => ?_⟩⟩
    · simp [hfound] at hget
    · simp [hfound] at hget
    · exact .object hshape (h₆.1.types _ _ hplace) rfl rfl fun fields hfields => by cases hfields

theorem resolveEnumeration_ensures (hs : Faithful c given linked s) {mode : Mode}
    {name literals : Value} {ms : Schema.Members} (hknown : Known c given ⟨mode, name, .map ms⟩)
    (hshape : Schema.shape? ms = some .enumeration)
    (hentry : Table.get? ms "enum" = some literals) {typeName : String}
    (hnamed : s.Named name.plain typeName) :
    Ensures (Steady c given linked) s (resolveEnumeration typeName literals) fun type s' =>
      Translated c given s s' ⟨mode, name, .map ms⟩ (some type) := by
  have hkey : KeyOf s.Named ⟨mode, name, .map ms⟩ .output (.ofText typeName) :=
    .enumeration hshape hnamed
  have hfiled : Filed c given s.Named .output (.text typeName) ⟨mode, name, .map ms⟩ :=
    .own hknown hkey
  refine .get_bind ?_
  split
  · rename_i type hfound
    have hcached : Table.get? (s.cache .output) (.ofText typeName) = some (some type) :=
      Option.join_eq_some_iff.mp hfound
    obtain ⟨node, hfiled', hmade⟩ := hs.entries _ _ _ hcached
    refine .bind ((keeps_report _ _).ensures s) fun _ s₁ h₁ _ => .pure ?_
    refine ⟨Made.mono h₁.1.extends (.shared hfiled hfiled' hmade), ⟨_, rfl⟩, fun _ _ _ =>
      ⟨_, _, hkey.mono h₁.1.extends.named, fun t hget => ?_, fun hget => ?_, fun hget => ?_⟩⟩
    · exact Option.some.inj (hcached.symm.trans hget)
    · simp [hcached] at hget
    · simp [hcached] at hget
  · rename_i hfound
    refine .bind ((keeps_report _ _).ensures s) fun _ s₁ h₁ _ => ?_
    refine .bind_access fun vs hvs => ?_
    refine .bind_liftExcept fun members hmembers => ?_
    refine .bind ((keeps_checkTypeName typeName).ensures s₁) fun _ s₄ h₄ _ => ?_
    refine .bind (addType_ensures fun type htype => by cases htype) fun place s₅ h₅ hplace => ?_
    have hadds : Adds s s₅ := trans_of Adds h₁.1 (trans_of Adds h₄.1 h₅.1)
    have hmade : Made c given s₅ ⟨mode, name, .map ms⟩ (some (.named place)) :=
      .enumeration hshape hentry hvs hmembers (hadds.extends.named _ _ hnamed) hplace
    have hfiled' := hadds.extends.filed _ _ _ hfiled
    refine .bind (setCached_ensures hfiled' hmade) fun _ s₆ h₆ hmade' =>
      .pure ⟨hmade', ⟨_, rfl⟩, fun _ _ _ => ?_⟩
    have hx : Extends s s₆ := (trans_of Adds hadds h₆.1).extends
    have hown : Own c given s₆ ⟨mode, name, .map ms⟩ (some (.named place)) :=
      .enumeration hshape hentry hvs (h₆.1.types _ _ hplace) (members_of_membersFrom hmembers)
    refine ⟨_, _, hkey.mono hx.named, fun t hget => ?_, fun _ => .inr hown, fun _ => hown⟩
    have hcached : (Table.get? (s.cache .output) (.ofText typeName)).join = none := hfound
    simp [hget] at hcached

theorem enumerationType_ensures (hs : Faithful c given linked s) {mode : Mode} {name : Value}
    {ms : Schema.Members} (hknown : Known c given ⟨mode, name, .map ms⟩)
    (hshape : Schema.shape? ms = some .enumeration) :
    Ensures (Steady c given linked) s (enumerationType name ms) fun type s' =>
      Translated c given s s' ⟨mode, name, .map ms⟩ type := by
  unfold enumerationType
  refine .bind (storeName_ensures name.plain) fun typeName s₁ h₁ hnamed => ?_
  obtain ⟨hnamed, hcache⟩ := hnamed
  split
  · exact .throw _
  · rename_i literals hentry
    refine .bind (resolveEnumeration_ensures (h₁.2 hs) hknown hshape hentry hnamed)
      fun type s₂ _ htype => .pure ⟨htype.made, htype.isMap, fun ms hms hshape => ?_⟩
    obtain ⟨ns, label, hkey, hkept⟩ := htype.keptOrNew ms hms hshape
    rw [hcache] at hkept
    exact ⟨ns, label, hkey, hkept⟩

/-! ## References and arrays -/

/-- What is asked of a translation one level deeper: a type that it gives was made from its
node, and it gives none for what is no schema. -/
def DeeperEnsures (c : Catalog) (given : Node → Prop) (linked : Prop) (mode : Mode)
    (deeper : Deeper) : Prop :=
  ∀ (s : State) (name schema : Value), Faithful c given linked s →
    (∀ ms, schema = .map ms → Known c given ⟨mode, name, schema⟩) →
    Ensures (Steady c given linked) s (deeper name schema) fun type s' =>
      Translated c given s s' ⟨mode, name, schema⟩ type

theorem referenceType_ensures (hs : Faithful c given linked s) {mode : Mode} {deeper : Deeper}
    (hdeeper : DeeperEnsures c given linked mode deeper) (name : String) :
    Ensures (Steady c given linked) s (referenceType c deeper mode name) fun type s' =>
      ∃ node, Refers c given s'.Named mode name node ∧ Made c given s' node type := by
  unfold referenceType
  apply Ensures.bind_cached?
  split
  · rename_i type hfound
    obtain ⟨node, hfiled, hmade⟩ := hs.entries _ _ _ hfound
    refine .pure ?_
    cases hdefined : Table.get? (c.schemas mode) (referenceKey mode name) with
    | some schema =>
        exact ⟨_, .definition hdefined, .shared (.definition hdefined) hfiled hmade⟩
    | none => exact ⟨node, .stray hdefined hfiled, hmade⟩
  · refine .bind (hdeeper s _ _ hs fun ms hms => known_schema hms) ?_
    rintro type s₁ - ⟨hmade, ⟨ms, hms⟩, -⟩
    have hdefined := get?_schemas hms
    have hfiled : Filed c given s₁.Named mode (Label.ofText (referenceKey mode name)).key
        ⟨mode, .text (referenceKey mode name), c.schema mode (referenceKey mode name)⟩ :=
      .definition hdefined
    refine .bind (setCached_ensures hfiled hmade) fun _ s₂ _ hmade' => ?_
    exact .pure ⟨_, .definition hdefined, hmade'⟩

theorem targetType_ensures (hs : Faithful c given linked s) {mode : Mode} {deeper : Deeper}
    (hdeeper : DeeperEnsures c given linked mode deeper) {name schema target : Value}
    (htarget : Schema.target? schema = some target) :
    Ensures (Steady c given linked) s
      (access (Schema.referenceName target) >>= referenceType c deeper mode) fun type s' =>
        ∃ node, Slot c given s'.Named mode name schema node ∧ Made c given s' node type := by
  refine .bind_access fun text htext => ?_
  refine (referenceType_ensures hs hdeeper text).weaken ?_
  rintro type s' - ⟨node, hrefers, hmade⟩
  exact ⟨node, .reference htarget htext hrefers, hmade⟩

theorem itemType_of_own (c : Catalog) (deeper : Deeper) (mode : Mode) (name : Value)
    {ms : Schema.Members} (hown : Schema.target? (.map ms) = none) {shape : Schema.Shape}
    (hshape : Schema.shape? ms = some shape) (hscalar : shape ≠ .scalar) :
    itemType c deeper mode name (.map ms) = deeper (itemsLabel name (.map ms)) (.map ms) := by
  cases shape <;> simp_all [itemType, itemsLabel]

theorem itemType_ensures (hs : Faithful c given linked s) {mode : Mode} {deeper : Deeper}
    (hdeeper : DeeperEnsures c given linked mode deeper) {name items : Value}
    (hknown : Schema.target? items = none → Known c given ⟨mode, itemsLabel name items, items⟩) :
    Ensures (Steady c given linked) s (itemType c deeper mode name items) fun type s' =>
      ∃ node, Slot c given s'.Named mode (itemsLabel name items) items node ∧
        Made c given s' node type := by
  cases htarget : Schema.target? items with
  | some target =>
      simp only [itemType, htarget]
      exact targetType_ensures hs hdeeper htarget
  | none =>
      cases items with
      | map ms =>
          cases hshape : Schema.shape? ms with
          | none =>
              simp only [itemType, htarget, hshape]
              exact .throw _
          | some shape =>
              by_cases hscalar : shape = .scalar
              · subst hscalar
                simp only [itemType, htarget, hshape]
                exact .pure ⟨_, .own htarget, .scalar hshape⟩
              · rw [itemType_of_own c deeper mode name htarget hshape hscalar]
                refine (hdeeper s _ _ hs fun _ _ => hknown htarget).weaken ?_
                rintro type s' - htype
                exact ⟨_, .own htarget, htype.made⟩
      | _ =>
          simp only [itemType, htarget]
          exact .throw _

theorem listType_ensures (hs : Faithful c given linked s) {mode : Mode} {deeper : Deeper}
    (hdeeper : DeeperEnsures c given linked mode deeper) {name : Value} {ms : Schema.Members}
    (hknown : Known c given ⟨mode, name, .map ms⟩) (hshape : Schema.shape? ms = some .array) :
    Ensures (Steady c given linked) s (listType c deeper mode name ms) fun type s' =>
      Made c given s' ⟨mode, name, .map ms⟩ type := by
  unfold listType
  split
  · exact .throw _
  · rename_i items hentry
    refine .bind (itemType_ensures hs hdeeper fun hown => .items hknown hshape hentry hown) ?_
    rintro type s' - ⟨node, hslot, hmade⟩
    exact .pure (.array hshape hentry hslot hmade)

/-! ## Whole translations -/

theorem translate_ensures (hs : Faithful c given linked s) {mode : Mode} {name schema : Value}
    (hknown : ∀ ms, schema = .map ms → Known c given ⟨mode, name, schema⟩)
    {links : Table String Link} (hlinks : links = [] ∨ linked) (iteration : Int) :
    Ensures (Steady c given linked) s (translate c mode name schema links iteration)
      fun type s' => Translated c given s s' ⟨mode, name, schema⟩ type := by
  fun_induction translate c mode name schema links iteration generalizing s with
  | case1 => exact .throw _
  | case2 => exact .throw _
  | case3 _ _ _ _ ms hshape => exact objectType_ensures hs (hknown ms rfl) hshape hlinks
  | case4 _ _ _ _ ms hshape => exact enumerationType_ensures hs (hknown ms rfl) hshape
  | case5 _ _ _ _ ms hshape =>
      exact .bind ((keeps_report _ _).ensures s) fun _ _ _ _ =>
        .pure (.of_made (.emptyObject hshape) (by simp [hshape]) (by simp [hshape]))
  | case6 _ _ _ _ ms hshape ih =>
      refine (listType_ensures hs (fun t n items ht hn => ?_) (hknown ms rfl) hshape).weaken
        fun _ _ _ hmade => .of_made hmade (by simp [hshape]) (by simp [hshape])
      exact ih n items ht hn (.inl rfl)
  | case7 _ _ _ _ ms hshape =>
      exact .pure (.of_made (.scalar hshape) (by simp [hshape]) (by simp [hshape]))
  | case8 => exact .throw _

theorem deeperEnsures_translate (c : Catalog) (given : Node → Prop) (linked : Prop) (mode : Mode)
    (iteration : Int) : DeeperEnsures c given linked mode fun name schema =>
      translate c mode name schema [] iteration :=
  fun _ _ _ hs hknown => translate_ensures hs hknown (.inl rfl) iteration

theorem resolveReference_ensures (hs : Faithful c given linked s) (mode : Mode) (name : String)
    (iteration : Int) :
    Ensures (Steady c given linked) s (resolveReference c mode name iteration) fun type s' =>
      ∃ node, Refers c given s'.Named mode name node ∧ Made c given s' node type :=
  referenceType_ensures hs (deeperEnsures_translate c given linked mode _) name

/-! ## Fields -/

theorem propertyType_ensures (hs : Faithful c given linked s) {plan : Plan} {p : String × Value}
    (hknown : Schema.target? p.2 = none → Known c given ⟨plan.mode, .text p.1, p.2⟩) :
    Ensures (Steady c given linked) s (propertyType c plan p.1 p.2) fun type s' =>
      ∃ node, Slot c given s'.Named plan.mode (.text p.1) p.2 node ∧ Made c given s' node type := by
  cases htarget : Schema.target? p.2 with
  | some target =>
      rw [propertyType_of_target c plan p.1 htarget]
      exact targetType_ensures hs (deeperEnsures_translate c given linked plan.mode _) htarget
  | none =>
      rw [propertyType_of_inline c plan p.1 htarget]
      refine .bind ((keeps_noteShadowed c p.1).ensures s) fun _ s₁ h₁ _ => ?_
      refine (translate_ensures (h₁.2 hs) (fun _ _ => hknown htarget) (.inl rfl) _).weaken ?_
      rintro type s' - htype
      exact ⟨_, .own htarget, htype.made⟩

theorem propertyField_ensures {R : State → State → Prop} [IsPreorder State R] (mode : Mode)
    (required : List String) (p : String × Value) (fieldName : String) (type : TypeRef) :
    Ensures R s (propertyField mode required p.1 fieldName type
        ((p.2.member? "description").getD .null))
      fun field _ => field = ownField mode required p fieldName type := by
  cases mode with
  | input =>
      refine .bind ((keeps_checkInput _ _).ensures s) fun _ s₁ _ _ => ?_
      refine .bind (checkDescription_ensures _ _) ?_
      rintro d s₂ - rfl
      exact .pure rfl
  | output =>
      refine .bind (checkDescription_ensures _ _) ?_
      rintro d s₁ - rfl
      exact .pure rfl

theorem propertyFields_ensures (hs : Faithful c given linked s) {plan : Plan}
    (required : List String) {ps : List (String × Value)}
    (hknown : ∀ p ∈ ps, Schema.target? p.2 = none →
      Known c given ⟨plan.mode, .text p.1, p.2⟩) :
    Ensures (Steady c given linked) s (propertyFields c plan required ps) fun fields s' =>
      FieldsMade c given s' plan.mode required ps fields := by
  induction ps generalizing s with
  | nil => exact .pure .nil
  | cons p ps ih =>
      have hrest : ∀ q ∈ ps, Schema.target? q.2 = none →
          Known c given ⟨plan.mode, .text q.1, q.2⟩ :=
        fun q hq => hknown q (List.mem_cons_of_mem _ hq)
      refine .bind (propertyType_ensures hs (hknown p List.mem_cons_self)) ?_
      rintro type s₁ h₁ ⟨node, hslot, hmade⟩
      split
      · refine (ih (h₁.2 hs) hrest).weaken fun fields s₂ h₂ hfields => ?_
        have hx := h₂.1.extends
        exact .skip (hslot.mono hx.filed) (hmade.mono hx) hfields
      · rename_i type
        refine .bind (storeName_ensures p.1) fun fieldName s₂ h₂ hnamed => ?_
        refine .bind (propertyField_ensures plan.mode required p fieldName type) ?_
        rintro field s₃ h₃ rfl
        refine .bind (ih (h₃.2 (h₂.2 (h₁.2 hs))) hrest) fun fields s₄ h₄ hfields => .pure ?_
        have hx : Extends s₂ s₄ := (trans_of Adds h₃.1 h₄.1).extends
        have hx₁ : Extends s₁ s₄ := h₂.1.extends.trans hx
        exact .keep (hslot.mono hx₁.filed) (hmade.mono hx₁) (hx.named _ _ hnamed.1) hfields

theorem planLinks_ensures (plan : Plan) :
    Ensures (Steady c given linked) s (planLinks c plan) fun links _ =>
      plan.links = [] → links = [] := by
  by_cases hnone : plan.links = []
  · have hlinks : planLinks c plan = pure [] := by
      unfold planLinks
      rw [hnone]
      split <;> rfl
    rw [hlinks]
    exact .pure fun _ => rfl
  · exact ((keeps_planLinks c plan).ensures s).weaken fun _ _ _ _ h => absurd h hnone

theorem fieldsOf_ensures (hs : Faithful c given linked s) {plan : Plan} {name : Value}
    (hknown : Known c given ⟨plan.mode, name, .map plan.schema⟩)
    (hshape : Schema.shape? plan.schema = some .object) :
    Ensures (Steady c given linked) s (fieldsOf c plan) fun fields s' =>
      Filled c given s' plan fields := by
  rw [fieldsOf_eq]
  refine .bind_access fun required hrequired => ?_
  refine .bind (planLinks_ensures plan) fun links s₁ h₁ hlinks => ?_
  refine .bind_access fun ps hps => ?_
  refine .bind (propertyFields_ensures (h₁.2 hs) required fun p hp hown =>
    .property hknown hshape hps hp hown) fun own s₄ _ hown => ?_
  exact .pure ⟨required, ps, own, links, hrequired, hps, hown, rfl, hlinks⟩

end RestGraph.Graph
