import RestGraph.Proofs.Call
import RestGraph.Proofs.Refinement
import RestGraph.Proofs.Settled

namespace RestGraph.Graph

open Build

/-!
# Whole states

A state with strict names is whole if each entry of its outputs is settled for a node that has the
key of the entry, and the fields that were found are settled for the properties of their types.
Each way of writing the outputs keeps a state whole, and what was settled stays so.
-/

structure Whole (c : Catalog) (s : State) : Prop where
  coherent : s.names.Coherent
  strict : s.names.strict = true
  entries : ∀ label type, Table.get? s.outputs label = some type →
    ∃ node, Files c label.key node ∧ Settled c s node type
  kept : ∀ (place : Nat) (type : NamedType), s.types[place]? = some type →
    ∃ label, Table.get? s.outputs label = some (some (.named place))
  single : ∀ (place : Nat) (type : Composite) (label other : Label),
    s.types[place]? = some (.composite type) →
    Table.get? s.outputs label = some (some (.named place)) →
    Table.get? s.outputs other = some (some (.named place)) → (label == other) = true
  fields : ∀ (place : Nat) (type : Composite) (fields : Table String Field),
    s.types[place]? = some (.composite type) → type.fields? = some fields →
    Fills c s type.plan.schema fields

section Laws

variable {c : Catalog} {s s' : State} {node : Node} {place : Nat}

theorem scalarType_ne_named (ms : Schema.Members) (place : Nat) :
    scalarType ms ≠ some (.named place) := by
  intro h
  obtain ⟨t, -, ht⟩ := Option.map_eq_some_iff.mp h
  cases ht

/-- A place is settled for objects and enumerations only. -/
theorem Settled.of_named (h : Settled c s node (some (.named place))) :
    (∃ name label type iteration, node = ⟨.output, name, .map type.plan.schema⟩ ∧
      Schema.shape? type.plan.schema = some .object ∧ name.label? = some label ∧
      Table.get? s.outputs label = some (some (.named place)) ∧
      s.types[place]? = some (.composite type) ∧
      type.plan = ⟨type.plan.schema, [], .output, iteration⟩) ∨
    ∃ e, s.types[place]? = some (.enumeration e) ∧ s.Named node.name.plain e.name ∧
      Table.get? s.outputs (.ofText e.name) = some (some (.named place)) := by
  generalize htype : some (TypeRef.named place) = found at h
  cases h with
  | scalar shape => exact absurd htype.symm (scalarType_ne_named _ _)
  | emptyObject shape => cases htype
  | @object name ms label _ type iteration shape labelled entry held plan =>
      obtain rfl := TypeRef.named.inj (Option.some.inj htype)
      refine .inl ⟨name, label, type, iteration, ?_, ?_, labelled, entry, held, ?_⟩
      · rw [plan]
      · rw [plan]
        exact shape
      · rw [plan]
  | enumeration shape found items members named usable entry held =>
      obtain rfl := TypeRef.named.inj (Option.some.inj htype)
      exact .inr ⟨_, held, named, entry⟩
  | array shape => simp at htype

/-- A type with fields is settled for objects only, and it is kept under the name of the node. -/
theorem Settled.of_composite (h : Settled c s node (some (.named place))) {type : Composite}
    (hheld : s.types[place]? = some (.composite type)) :
    ∃ name label iteration, node = ⟨.output, name, .map type.plan.schema⟩ ∧
      Schema.shape? type.plan.schema = some .object ∧ name.label? = some label ∧
      Table.get? s.outputs label = some (some (.named place)) ∧
      type.plan = ⟨type.plan.schema, [], .output, iteration⟩ := by
  rcases h.of_named with ⟨name, label, k, iteration, hnode, hshape, hlabel, hentry, hk, hplan⟩ |
    ⟨e, he, -⟩
  · obtain rfl := NamedType.composite.inj (Option.some.inj (hheld.symm.trans hk))
    exact ⟨name, label, iteration, hnode, hshape, hlabel, hentry, hplan⟩
  · rw [hheld] at he
    cases he

theorem Settled.held (h : Settled c s node (some (.named place))) :
    ∃ type, s.types[place]? = some type := by
  rcases h.of_named with ⟨_, _, type, _, _, _, _, _, hheld, _⟩ | ⟨e, hheld, -⟩
  · exact ⟨_, hheld⟩
  · exact ⟨_, hheld⟩

theorem onward_of_outputs (hx : Extends s s') (houtputs : s'.outputs = s.outputs) :
    Onward s s' := ⟨hx, fun _ _ hentry => houtputs ▸ hentry⟩

theorem Whole.namedAlike (hs : Whole c s) (hs' : Whole c s') : NamedAlike s s' := by
  intro text name name' hname hname'
  have hmade := hs.coherent.name_of_strict hs.strict hname
  exact Option.some.inj (hmade.symm.trans (hs'.coherent.name_of_strict hs'.strict hname'))

/-- Each type with fields is that of an object that responses lead to. -/
theorem Whole.composite (hs : Whole c s) {type : Composite}
    (hheld : s.types[place]? = some (.composite type)) :
    ∃ kept name iteration, Touched c kept ⟨.output, name, .map type.plan.schema⟩ ∧
      Schema.shape? type.plan.schema = some .object ∧
      type.plan = ⟨type.plan.schema, [], .output, iteration⟩ := by
  obtain ⟨label, hentry⟩ := hs.kept place _ hheld
  obtain ⟨node, hfiles, hsettled⟩ := hs.entries label _ hentry
  obtain ⟨kept, htouched⟩ := hfiles.touched
  obtain ⟨name, -, iteration, rfl, hshape, -, -, hplan⟩ := hsettled.of_composite hheld
  exact ⟨kept, name, iteration, htouched, hshape, hplan⟩

theorem Whole.settled (hs : Whole c s) (hschemas : SchemasAgree c) (hnames : NamesAgree c)
    {label : Label} (hfiles : Files c label.key node) {type : Option TypeRef}
    (hentry : Table.get? s.outputs label = some type) : Settled c s node type := by
  obtain ⟨other, hother, hsettled⟩ := hs.entries label type hentry
  exact hsettled.share hschemas hnames hfiles hother

/-! ## At the start -/

theorem whole_of_no_types (hnames : s.names = .empty true) (houtputs : s.outputs = [])
    (htypes : s.types = #[]) : Whole c s where
  coherent := hnames ▸ Name.Registry.coherent_empty true
  strict := hnames ▸ rfl
  entries label type hentry := by simp [houtputs] at hentry
  kept place type hheld := by simp [htypes] at hheld
  single place type label other hheld := by simp [htypes] at hheld
  fields place type fields hheld := by simp [htypes] at hheld

/-! ## Writing the outputs -/

/-- Nothing but names and the log changes. -/
theorem Whole.names (hs : Whole c s) (hx : Extends s s') (houtputs : s'.outputs = s.outputs)
    (htypes : s'.types = s.types) : Whole c s' := by
  have honward := onward_of_outputs hx houtputs
  constructor
  · exact hx.names.2 hs.coherent
  · exact hx.names.1.strict.trans hs.strict
  · rw [houtputs]
    intro label type hentry
    obtain ⟨node, hfiles, hsettled⟩ := hs.entries label type hentry
    exact ⟨node, hfiles, hsettled.mono honward⟩
  · rw [houtputs, htypes]
    exact hs.kept
  · rw [houtputs, htypes]
    exact hs.single
  · rw [htypes]
    exact fun place type fields hheld hfound =>
      (hs.fields place type fields hheld hfound).mono honward

theorem get?_outputs_fileType (s : State) (type : NamedType) (label q : Label) :
    Table.get? (s.fileType type .output label).outputs q =
      if (label == q) = true then some (some (.named s.types.size))
        else Table.get? s.outputs q := by
  simpa [State.cache] using get?_cache_fileType s type .output .output label q

theorem onward_fileType {label : Label} (hfree : Table.get? s.outputs label = none)
    (type : NamedType) : Onward s (s.fileType type .output label) := by
  have hadds : Adds s (s.fileType type .output label) :=
    trans_of Adds (TypeFrame.addType s type) (TypeFrame.setCached _ _ _ _)
  refine ⟨hadds.extends, fun q t hentry => ?_⟩
  rw [get?_outputs_fileType, if_neg, hentry]
  intro hsame
  rw [Table.get?_congr _ hsame, hentry] at hfree
  cases hfree

/-- A new type is settled for the node under whose key it is kept. It has no fields yet. -/
theorem Whole.fileType (hs : Whole c s) {label : Label} {type : NamedType}
    (hfree : Table.get? s.outputs label = none) (hfiles : Files c label.key node)
    (hnew : ∀ k, type = .composite k → k.fields? = none)
    (hsettled : Settled c (s.fileType type .output label) node (some (.named s.types.size))) :
    Whole c (s.fileType type .output label) := by
  have honward := onward_fileType hfree type
  have hsize : ∀ q, Table.get? s.outputs q ≠ some (some (.named s.types.size)) := by
    intro q hentry
    obtain ⟨other, -, hother⟩ := hs.entries q _ hentry
    obtain ⟨held, hheld⟩ := hother.held
    simp at hheld
  have hplace : ∀ {q : Nat} {k : NamedType},
      (s.fileType type .output label).types[q]? = some k →
      q = s.types.size ∧ type = k ∨ q ≠ s.types.size ∧ s.types[q]? = some k := by
    intro q k hheld
    rw [types_fileType, Array.getElem?_push] at hheld
    split at hheld
    · rename_i hq
      exact .inl ⟨hq, Option.some.inj hheld⟩
    · rename_i hq
      exact .inr ⟨hq, hheld⟩
  constructor
  · simpa using hs.coherent
  · simpa using hs.strict
  · intro q t hentry
    rw [get?_outputs_fileType] at hentry
    split at hentry
    · rename_i hsame
      obtain rfl := Option.some.inj hentry
      rw [← (Label.beq_iff _ _).mp hsame]
      exact ⟨node, hfiles, hsettled⟩
    · obtain ⟨other, hother, hold⟩ := hs.entries q t hentry
      exact ⟨other, hother, hold.mono honward⟩
  · intro q k hheld
    rcases hplace hheld with ⟨rfl, -⟩ | ⟨-, hold⟩
    · exact ⟨label, by simp [get?_outputs_fileType]⟩
    · obtain ⟨l, hl⟩ := hs.kept q k hold
      exact ⟨l, honward.entries _ _ hl⟩
  · intro q k l l' hheld hl hl'
    rw [get?_outputs_fileType] at hl hl'
    rcases hplace hheld with ⟨rfl, -⟩ | ⟨hq, hold⟩
    · have hlabel : (label == l) = true := by
        by_contra hother
        rw [if_neg hother] at hl
        exact hsize l hl
      have hlabel' : (label == l') = true := by
        by_contra hother
        rw [if_neg hother] at hl'
        exact hsize l' hl'
      exact BEq.trans (BEq.symm hlabel) hlabel'
    · have hold_of : ∀ {l : Label}, (if (label == l) = true then
          some (some (TypeRef.named s.types.size)) else Table.get? s.outputs l) =
            some (some (.named q)) → Table.get? s.outputs l = some (some (.named q)) := by
        intro l hentry
        split at hentry
        · obtain rfl := TypeRef.named.inj (Option.some.inj (Option.some.inj hentry))
          exact absurd rfl hq
        · exact hentry
      exact hs.single q k l l' hold (hold_of hl) (hold_of hl')
  · intro q k fields hheld hfields
    rcases hplace hheld with ⟨-, hk⟩ | ⟨-, hold⟩
    · rw [hnew k hk] at hfields
      cases hfields
    · exact (hs.fields q k fields hold hfields).mono honward

theorem get?_outputs_setCached (s : State) (label q : Label) (type : Option TypeRef) :
    Table.get? (s.setCached .output label type).outputs q =
      if (label == q) = true then some type else Table.get? s.outputs q := by
  simpa [State.cache] using get?_cache_setCached s .output .output label q type

/-- What a name leads to is kept under the name; if something is kept there, it is that. -/
theorem Whole.setCached (hs : Whole c s) (hschemas : SchemasAgree c) (hnames : NamesAgree c)
    {text : String} (hfiles : Files c (.text text) node) {type : Option TypeRef}
    (hsettled : Settled c s node type) :
    Onward s (s.setCached .output (.ofText text) type) ∧
      Whole c (s.setCached .output (.ofText text) type) := by
  have hadds : Adds s (s.setCached .output (.ofText text) type) := TypeFrame.setCached s _ _ _
  have honward : Onward s (s.setCached .output (.ofText text) type) := by
    refine ⟨hadds.extends, fun q t hentry => ?_⟩
    rw [get?_outputs_setCached]
    split
    · rename_i hsame
      have hother : Files c q.key node := (Label.beq_iff _ _).mp hsame ▸ hfiles
      rw [hsettled.unique (hs.settled hschemas hnames hother hentry)]
    · exact hentry
  -- A type with fields was kept under its name before, so under this one too.
  have hold : ∀ {q : Nat} {k : Composite} {l : Label}, s.types[q]? = some (.composite k) →
      Table.get? (s.setCached .output (.ofText text) type).outputs l = some (some (.named q)) →
      Table.get? s.outputs l = some (some (.named q)) := by
    intro q k l hheld hl
    rw [get?_outputs_setCached] at hl
    split at hl
    · rename_i hsame
      obtain rfl := Option.some.inj hl
      obtain ⟨name, label, -, rfl, hshape, hlabel, hentry, -⟩ := hsettled.of_composite hheld
      obtain ⟨label', hlabel', hkey⟩ := hfiles.label rfl hshape
      obtain rfl := Option.some.inj (hlabel.symm.trans hlabel')
      have hthis : (label == .ofText text) = true := (Label.beq_iff _ _).mpr hkey
      rw [← Table.get?_congr _ (BEq.trans hthis hsame), hentry]
    · exact hl
  refine ⟨honward, ?_⟩
  constructor
  · exact hadds.names.2 hs.coherent
  · exact hadds.names.1.strict.trans hs.strict
  · intro q t hentry
    rw [get?_outputs_setCached] at hentry
    split at hentry
    · rename_i hsame
      obtain rfl := Option.some.inj hentry
      rw [← (Label.beq_iff _ _).mp hsame]
      exact ⟨node, hfiles, hsettled.mono honward⟩
    · obtain ⟨other, hother, hbefore⟩ := hs.entries q t hentry
      exact ⟨other, hother, hbefore.mono honward⟩
  · intro q k hheld
    obtain ⟨l, hl⟩ := hs.kept q k (by simpa using hheld)
    exact ⟨l, honward.entries _ _ hl⟩
  · intro q k l l' hheld hl hl'
    rw [types_setCached] at hheld
    exact hs.single q k l l' hheld (hold hheld hl) (hold hheld hl')
  · intro q k fields hheld hfields
    rw [types_setCached] at hheld
    exact (hs.fields q k fields hheld hfields).mono honward

/-- Fields that were found are kept for a type that has none. -/
theorem Whole.keep (hs : Whole c s) {type : Composite} {fields : Table String Field}
    (hheld : s.types[place]? = some (.composite type)) (hnone : type.fields? = none)
    (hfills : Fills c s type.plan.schema fields) :
    Onward s (s.keep place type fields) ∧ Whole c (s.keep place type fields) := by
  have hx : Extends s (s.keep place type fields) := extends_keepFields hheld hnone fields
  have honward : Onward s (s.keep place type fields) := onward_of_outputs hx rfl
  have hbefore : ∀ {q : Nat} {k : NamedType}, (s.keep place type fields).types[q]? = some k →
      place = q ∧ k = .composite { type with fields? := some fields } ∨
        s.types[q]? = some k := by
    intro q k hq
    rw [types_keep hheld] at hq
    split at hq
    · rename_i hplace
      exact .inl ⟨hplace, (Option.some.inj hq).symm⟩
    · exact .inr hq
  refine ⟨honward, hs.coherent, hs.strict, ?_, ?_, ?_, ?_⟩
  · intro q t hentry
    obtain ⟨other, hother, hsettled⟩ := hs.entries q t hentry
    exact ⟨other, hother, hsettled.mono honward⟩
  · intro q k hq
    rcases hbefore hq with ⟨rfl, -⟩ | hq
    · exact hs.kept place _ hheld
    · exact hs.kept q k hq
  · intro q k l l' hq
    rcases hbefore hq with ⟨rfl, -⟩ | hq
    · exact hs.single place type l l' hheld
    · exact hs.single q k l l' hq
  · intro q k found hq hfound
    rcases hbefore hq with ⟨rfl, hk⟩ | hq
    · obtain rfl := NamedType.composite.inj hk
      obtain rfl := Option.some.inj hfound
      exact hfills.mono honward
    · exact (hs.fields q k found hq hfound).mono honward

end Laws

/-! ## Complete states -/

/-- A whole state in which something is kept for each response and all fields were found. -/
structure Complete (c : Catalog) (s : State) : Prop where
  whole : Whole c s
  opened : s.Opened
  responses : ∀ o ∈ c.operations.map Prod.snd, ∀ name, o.response = some name →
    ∃ type, Table.get? s.outputs (.ofText name) = some type

section Complete

variable {c : Catalog} {s : State} {kept : Option String} {node : Node}

theorem FieldsSettled.property {required : List String} {ps : List (String × Value)}
    {fields : List (String × Field)} (h : FieldsSettled c s required ps fields)
    {p : String × Value} (hp : p ∈ ps) :
    Allowed c p ∧ ∃ type, SettledWithin c s (.text p.1) p.2 type := by
  induction h with
  | nil => cases hp
  | skip allowed settled _ ih =>
      rcases List.mem_cons.mp hp with rfl | hp
      · exact ⟨allowed, _, settled⟩
      · exact ih hp
  | keep allowed settled _ _ _ ih =>
      rcases List.mem_cons.mp hp with rfl | hp
      · exact ⟨allowed, _, settled⟩
      · exact ih hp

theorem Complete.fills_of_settled (hs : Complete c s) {name : Value} {ms : Schema.Members}
    {type : Option TypeRef} (hsettled : Settled c s ⟨.output, name, .map ms⟩ type)
    (hshape : Schema.shape? ms = some .object) : ∃ fields, Fills c s ms fields := by
  cases hsettled with
  | object shape labelled entry held plan =>
      obtain ⟨fields, hfields⟩ := Option.ne_none_iff_exists'.mp (hs.opened _ _ held)
      have hfills := hs.whole.fields _ _ fields held hfields
      rw [plan] at hfills
      exact ⟨fields, hfills⟩
  | _ shape => simp [hshape] at shape

/-- A complete state settles all nodes that responses lead to, and keeps those of responses and
of references under their names. The induction is on the way to the node. -/
theorem Complete.settled (hs : Complete c s) (hschemas : SchemasAgree c) (hnames : NamesAgree c)
    (h : Touched c kept node) :
    ∃ type, Settled c s node type ∧
      ∀ text, kept = some text → Table.get? s.outputs (.ofText text) = some type := by
  induction h with
  | @response o name mem returns =>
      obtain ⟨type, hentry⟩ := hs.responses o mem name returns
      have hfiles : Files c (Label.ofText name).key
          ⟨.output, .text name, c.schema .output name⟩ := .kept (.response mem returns)
      refine ⟨type, hs.whole.settled hschemas hnames hfiles hentry, ?_⟩
      rintro text ⟨⟩
      exact hentry
  | property before shape found mem leads ih =>
      obtain ⟨owner, howner, -⟩ := ih
      obtain ⟨fields, required, ps, own, -, hps, hown, -⟩ := hs.fills_of_settled howner shape
      obtain rfl := Except.ok.inj (hps.symm.trans found)
      obtain ⟨-, type, hwithin⟩ := hown.property mem
      obtain ⟨leads', entry, settled⟩ := hwithin
      obtain ⟨rfl, rfl⟩ := leads.unique leads'
      exact ⟨type, settled, entry⟩
  | items before shape found leads ih =>
      obtain ⟨owner, howner, -⟩ := ih
      cases howner with
      | array shape' found' leads' entry settled =>
          obtain rfl := Option.some.inj (found.symm.trans found')
          obtain ⟨rfl, rfl⟩ := leads.unique leads'
          exact ⟨_, settled, entry⟩
      | _ shape' => simp [shape] at shape'

theorem Complete.fills (hs : Complete c s) (hschemas : SchemasAgree c) (hnames : NamesAgree c)
    {name : Value} {ms : Schema.Members} (h : Touched c kept ⟨.output, name, .map ms⟩)
    (hshape : Schema.shape? ms = some .object) : ∃ fields, Fills c s ms fields := by
  obtain ⟨type, hsettled, -⟩ := hs.settled hschemas hnames h
  exact hs.fills_of_settled hsettled hshape

end Complete

end RestGraph.Graph
