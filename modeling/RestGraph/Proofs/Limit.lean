import RestGraph.Proofs.Cause
import RestGraph.Proofs.Level
import RestGraph.Proofs.OwnName
import RestGraph.Proofs.Schedule

/-!
# The limit of levels

Two runs under different limits go in step until one of them comes to its limit: each does the
same to the same states. So where the run under the wider limit succeeds, the other one either
does what that did, and then has visited all nodes below its own limit, or it fails at a node that
lies exactly there.
-/

namespace RestGraph.Catalog

/-- The same description under another limit. -/
def withLimit (c : Catalog) (limit : Limit) : Catalog :=
  { c with config := { c.config with limit } }

end RestGraph.Catalog

namespace RestGraph.Graph

open Build

/-- The failure of the limit at a node that lies as deep as the limit allows no node to lie. -/
def AtLimit (root : Node) (limit : Limit) (f : Failure) : Prop :=
  ∃ node, Lies root limit.count node ∧ f = .tooDeep node.name limit

/-- All nodes have legal names. -/
def LegalNames (root : Node) : Prop :=
  ∀ depth node, Lies root depth node → Name.legal node.name.plain.toList = true

/-- What is known of a state that comes after a placed one. -/
structure Continues (root : Node) (limit : Nat) (s s' : State) : Prop where
  later : Extends s s'
  placed : Placed root limit s'
  own : LegalNames root → StaysOwn s s'

/-- Where `wide` succeeds, `b` does the same, or it fails as `E` says. -/
def Paced {α : Type} (root : Node) (limit : Nat) (E : Failure → Prop) (b wide : Build α)
    (s : State) (Q : α → State → Prop) : Prop :=
  Placed root limit s → ∀ a s', wide.run s = (.ok a, s') →
    (b.run s = (.ok a, s') ∧ Continues root limit s s' ∧ Q a s') ∨
      ∃ f s'', b.run s = (.error f, s'') ∧ E f

namespace Paced

variable {α β : Type} {root : Node} {limit : Nat} {E : Failure → Prop} {s : State}

/-- What is the same under both limits. -/
protected theorem same {b : Build α} {Q : α → State → Prop}
    (h : Placed root limit s → Ensures (StaysPlaced root limit) s b Q)
    (hown : LegalNames root → Keeps StaysOwn b) : Paced root limit E b b s Q := by
  intro hs a s' hrun
  obtain ⟨hstays, ha⟩ := (h hs).of_ok hrun
  exact .inl ⟨hrun, ⟨hstays.1, hstays.2 hs, fun hlegal => (hown hlegal).of_run hrun⟩, ha⟩

protected theorem pure {a : α} {Q : α → State → Prop} (h : Q a s) :
    Paced root limit E (Pure.pure a) (Pure.pure a) s Q :=
  .same (fun _ => .pure h) fun _ => .pure a

protected theorem throw {b : Build α} {f : Failure} {Q : α → State → Prop} :
    Paced root limit E b (MonadExcept.throw f) s Q := by
  rintro - a s' ⟨⟩

/-- The run under the limit fails at once. -/
theorem stop {wide : Build α} {f : Failure} {Q : α → State → Prop} (h : E f) :
    Paced root limit E (MonadExcept.throw f) wide s Q :=
  fun _ _ _ _ => .inr ⟨f, s, rfl, h⟩

theorem weaken {E' : Failure → Prop} {b wide : Build α} {Q Q' : α → State → Prop}
    (h : Paced root limit E b wide s Q) (hE : ∀ f, E f → E' f)
    (hQ : ∀ a s', wide.run s = (.ok a, s') → Extends s s' → Q a s' → Q' a s') :
    Paced root limit E' b wide s Q' := by
  intro hs a s' hrun
  rcases h hs a s' hrun with ⟨hsame, hs', ha⟩ | ⟨f, t, hfails, hf⟩
  · exact .inl ⟨hsame, hs', hQ a s' hrun hs'.later ha⟩
  · exact .inr ⟨f, t, hfails, hE f hf⟩

protected theorem bind {b wide : Build α} {f g : α → Build β} {Q : α → State → Prop}
    {Q' : β → State → Prop} (hb : Paced root limit E b wide s Q)
    (hf : ∀ a s', Extends s s' → Q a s' → Paced root limit E (f a) (g a) s' Q') :
    Paced root limit E (b >>= f) (wide >>= g) s Q' := by
  intro hs r s'' hrun
  obtain ⟨a, s', hwide, hrest⟩ := run_bind_eq_ok.mp hrun
  rcases hb hs a s' hwide with ⟨hsame, hs', ha⟩ | ⟨e, t, hfails, he⟩
  · rcases hf a s' hs'.later ha hs'.placed r s'' hrest with
      ⟨hsame', hs'', hr⟩ | ⟨e, t, hfails, he⟩
    · refine .inl ⟨run_bind_eq_ok.mpr ⟨a, s', hsame, hsame'⟩, ?_, hr⟩
      exact ⟨hs'.later.trans hs''.later, hs''.placed,
        fun hlegal => hs''.own hlegal ∘ hs'.own hlegal⟩
    · exact .inr ⟨e, t, run_bind_eq_error.mpr (.inr ⟨a, s', hsame, hfails⟩), he⟩
  · exact .inr ⟨e, t, run_bind_eq_error.mpr (.inl hfails), he⟩

theorem bind_access {x : Value.Access α} {f g : α → Build β} {Q : β → State → Prop}
    (h : ∀ a, x = .ok a → Paced root limit E (f a) (g a) s Q) :
    Paced root limit E (access x >>= f) (access x >>= g) s Q := by
  cases x with
  | error e => exact .throw
  | ok a => exact h a rfl

protected theorem tryCatch {E' : Failure → Prop} {b wide : Build α} {Q : α → State → Prop}
    {g : Failure → Failure} (h : Paced root limit E b wide s Q) (hE : ∀ f, E f → E' (g f)) :
    Paced root limit E' (tryCatch b fun f => MonadExcept.throw (g f))
      (tryCatch wide fun f => MonadExcept.throw (g f)) s Q := by
  intro hs a s' hrun
  rw [run_tryCatch] at hrun
  rcases hwide : wide.run s with ⟨e | a', t⟩
  · rw [hwide] at hrun
    cases hrun
  · rw [hwide] at hrun
    cases hrun
    rcases h hs a s' hwide with ⟨hsame, hlater⟩ | ⟨e, t, hfails, he⟩
    · refine .inl ⟨?_, hlater⟩
      rw [run_tryCatch, hsame]
    · refine .inr ⟨g e, t, ?_, hE e he⟩
      rw [run_tryCatch, hfails]
      rfl

end Paced

section Runs

variable {c : Catalog} {root : Node} {limit wide : Limit} {s : State}

/-! ## Translations -/

theorem itemType_of_scalar (c : Catalog) (deeper : Deeper) (mode : Mode) (name : Value)
    {ms : Schema.Members} (hown : Schema.target? (.map ms) = none)
    (hshape : Schema.shape? ms = some .scalar) :
    itemType c deeper mode name (.map ms) = pure (scalarType ms) := by
  simp only [itemType, hown, hshape]

/-- What is asked of translations one level deeper. -/
def DeeperPaced (root : Node) (limit : Limit) (mode : Mode) (depth : Nat)
    (deeper wide : Deeper) : Prop :=
  ∀ s name schema, Lies root (depth + 1) ⟨mode, name, schema⟩ →
    Paced root limit.count (AtLimit root limit) (deeper name schema) (wide name schema) s
      fun _ => Traversed root limit.count (depth + 1) ⟨mode, name, schema⟩

theorem listType_paced (hfree : ReferenceFree root) {mode : Mode} {depth : Nat}
    {deeper deeper' : Deeper} (hdeeper : DeeperPaced root limit mode depth deeper deeper')
    {name : Value} {ms : Schema.Members} (hlies : Lies root depth ⟨mode, name, .map ms⟩)
    (hshape : Schema.shape? ms = some .array) (hbelow : depth < limit.count) :
    Paced root limit.count (AtLimit root limit) (listType (c.withLimit limit) deeper mode name ms)
      (listType (c.withLimit wide) deeper' mode name ms) s
      fun _ => Traversed root limit.count depth ⟨mode, name, .map ms⟩ := by
  unfold listType
  cases hitems : Table.get? ms "items" with
  | none => exact .throw
  | some items =>
      have hinner := hlies.items hshape hitems
      have hown : Schema.target? items = none := hfree _ _ hinner
      suffices hitem : Paced root limit.count (AtLimit root limit)
          (itemType (c.withLimit limit) deeper mode name items)
          (itemType (c.withLimit wide) deeper' mode name items) s fun _ =>
            Traversed root limit.count (depth + itemStep items)
              ⟨mode, itemsLabel name items, items⟩ by
        refine hitem.bind fun type s' _ htraversed => .pure fun hapart => ?_
        exact .array hbelow hshape hitems (htraversed hapart)
      cases items with
      | map inner =>
          cases hkind : Schema.shape? inner with
          | none =>
              simp only [itemType, hown, hkind]
              exact .throw
          | some shape =>
              by_cases hscalar : shape = .scalar
              -- scalars have their types at once, at the level of the array
              · subst hscalar
                rw [itemType_of_scalar _ _ _ _ hown hkind, itemType_of_scalar _ _ _ _ hown hkind]
                refine .pure fun _ => ?_
                simp only [itemStep, hkind, if_true, Nat.add_zero]
                refine .leaf hbelow ?_
                rintro _ ⟨⟩
                simp [hkind]
              · have hstep : itemStep (.map inner) = 1 := by simp [itemStep, hkind, hscalar]
                rw [itemType_of_own _ _ _ _ hown hkind hscalar,
                  itemType_of_own _ _ _ _ hown hkind hscalar]
                rw [hstep] at hinner ⊢
                exact hdeeper s _ _ hinner
      | _ =>
          simp only [itemType, hown]
          exact .throw

theorem translate_of_le {c : Catalog} {iteration : Int} (h : c.config.limit.count ≤ iteration)
    (mode : Mode) (name schema : Value) (links : Table String Link) :
    translate c mode name schema links iteration = throw (.tooDeep name c.config.limit) := by
  unfold translate
  rw [dif_pos h]

/-- One level below the limit: everything but the items of arrays is done at once. -/
theorem translate_paced_of_deeper (hfree : ReferenceFree root) {mode : Mode} {name schema : Value}
    {depth : Nat} (hlies : Lies root depth ⟨mode, name, schema⟩) (hbelow : depth < limit.count)
    (hdeeper : DeeperPaced root limit mode depth
      (fun n items => translate (c.withLimit limit) mode n items [] (depth + 1))
      (fun n items => translate (c.withLimit wide) mode n items [] (depth + 1))) :
    Paced root limit.count (AtLimit root limit)
      (translate (c.withLimit limit) mode name schema [] depth)
      (translate (c.withLimit wide) mode name schema [] depth) s
      fun _ => Traversed root limit.count depth ⟨mode, name, schema⟩ := by
  by_cases hwide : ((c.withLimit wide).config.limit.count : Int) ≤ depth
  · rw [translate_of_le hwide]
    exact .throw
  have hlimit : ¬ ((c.withLimit limit).config.limit.count : Int) ≤ depth :=
    Int.not_le.mpr (Int.ofNat_lt.mpr hbelow)
  rw [translate.eq_def (c.withLimit limit), translate.eq_def (c.withLimit wide), dif_neg hlimit,
    dif_neg hwide]
  cases schema with
  | map ms =>
      have hleaf : ∀ {s' : State}, Schema.shape? ms ≠ some .object →
          Schema.shape? ms ≠ some .array → Visited limit.count s' depth ⟨mode, name, .map ms⟩ := by
        intro s' hobject harray
        refine .leaf hbelow ?_
        rintro _ ⟨⟩
        exact ⟨hobject, harray⟩
      cases hshape : Schema.shape? ms with
      | none =>
          simp only [hshape]
          exact .throw
      | some shape =>
          simp only [hshape]
          cases shape with
          | object =>
              refine .same (fun hs => objectType_visits hs hlies hshape hbelow) fun hlegal => ?_
              exact staysOwn_objectType (hlegal _ _ hlies) _
          | enumeration =>
              refine .same (fun _ => (enumerationType_placed hlies hshape).weaken ?_) ?_
              · intro _ _ _ _ _
                exact hleaf (by simp [hshape]) (by simp [hshape])
              · exact fun hlegal => staysOwn_enumerationType (hlegal _ _ hlies) _
          | emptyObject =>
              refine .bind (.same (fun _ => (keeps_report _ _).ensures s) fun _ =>
                staysOwn_report _ _) fun _ _ _ _ => .pure fun _ => ?_
              exact hleaf (by simp [hshape]) (by simp [hshape])
          | array => exact listType_paced hfree hdeeper hlies hshape hbelow
          | scalar =>
              refine .pure fun _ => ?_
              exact hleaf (by simp [hshape]) (by simp [hshape])
  | _ => exact .throw

/-- The induction is on the levels that are left below the limit. -/
theorem translate_paced (hfree : ReferenceFree root) {mode : Mode} {levels depth : Nat}
    (hlevels : depth + levels = limit.count) (s : State) {name schema : Value}
    (hlies : Lies root depth ⟨mode, name, schema⟩) :
    Paced root limit.count (AtLimit root limit)
      (translate (c.withLimit limit) mode name schema [] depth)
      (translate (c.withLimit wide) mode name schema [] depth) s
      fun _ => Traversed root limit.count depth ⟨mode, name, schema⟩ := by
  induction levels generalizing depth s name schema with
  | zero =>
      obtain rfl : depth = limit.count := hlevels
      have hend : ((c.withLimit limit).config.limit.count : Int) ≤ limit.count := Int.le_refl _
      rw [translate_of_le hend]
      exact .stop ⟨_, hlies, rfl⟩
  | succ levels ih =>
      have hbelow : depth < limit.count := by omega
      have hrest : depth + 1 + levels = limit.count := by omega
      exact translate_paced_of_deeper hfree hlies hbelow fun s name schema hinner =>
        ih hrest s hinner

/-! ## Fields -/

theorem propertyType_paced (hfree : ReferenceFree root) {plan : Plan} {depth : Nat}
    (hplan : PlacedPlan root limit.count plan depth) {ps : List (String × Value)}
    (hps : properties plan.schema = .ok ps) {p : String × Value} (hp : p ∈ ps) :
    Paced root limit.count (AtLimit root limit) (propertyType (c.withLimit limit) plan p.1 p.2)
      (propertyType (c.withLimit wide) plan p.1 p.2) s
      fun _ => Traversed root limit.count (depth + 1) ⟨plan.mode, .text p.1, p.2⟩ := by
  obtain ⟨name, habove⟩ := hplan.lies
  have hlies := habove.property hplan.shape hps hp
  have hown : Schema.target? p.2 = none := hfree _ _ hlies
  obtain ⟨levels, hlevels⟩ := Nat.exists_eq_add_of_lt hplan.below
  rw [propertyType_of_inline _ _ _ hown, propertyType_of_inline _ _ _ hown, hplan.iteration]
  have hshadowed : noteShadowed (c.withLimit limit) p.1 = noteShadowed (c.withLimit wide) p.1 := rfl
  rw [hshadowed]
  refine .bind (.same (fun _ => (keeps_noteShadowed _ p.1).ensures s) fun _ =>
    staysOwn_noteShadowed _ p.1) fun _ s₁ _ _ => ?_
  have hrest : depth + 1 + levels = limit.count := by omega
  exact translate_paced hfree hrest s₁ hlies

theorem propertyFields_paced (hfree : ReferenceFree root) {plan : Plan} {depth : Nat}
    (hplan : PlacedPlan root limit.count plan depth) (required : List String)
    {all : List (String × Value)} (hall : properties plan.schema = .ok all)
    {ps : List (String × Value)} (hps : ps ⊆ all) :
    Paced root limit.count (AtLimit root limit)
      (propertyFields (c.withLimit limit) plan required ps)
      (propertyFields (c.withLimit wide) plan required ps) s fun _ s' => ∀ p ∈ ps,
        Traversed root limit.count (depth + 1) ⟨plan.mode, .text p.1, p.2⟩ s' := by
  induction ps generalizing s with
  | nil => exact .pure (by simp)
  | cons p ps ih =>
      obtain ⟨hp, hrest⟩ := List.cons_subset.mp hps
      refine .bind (propertyType_paced hfree hplan hall hp) fun type s₁ _ htraversed => ?_
      cases type with
      | none =>
          refine (ih hrest).weaken (fun _ => id) fun fields s₂ _ hx hothers => ?_
          exact List.forall_mem_cons.mpr ⟨htraversed.mono hx, hothers⟩
      | some type =>
          obtain ⟨name, habove⟩ := hplan.lies
          have hlies := habove.property hplan.shape hall hp
          refine .bind (.same (fun _ => (keeps_storeName p.1).ensures s₁) fun hlegal =>
            staysOwn_storeName (hlegal _ _ hlies)) fun fieldName s₂ h₂ _ => ?_
          refine .bind (.same (fun _ => (keeps_propertyField _ _ _ _ _ _).ensures s₂) fun _ =>
            keeps_propertyField _ _ _ _ _ _) fun field s₃ h₃ _ => ?_
          refine .bind (ih hrest) fun fields s₄ h₄ hothers => .pure ?_
          have hx : Extends s₁ s₄ := (h₂.trans h₃).trans h₄
          exact List.forall_mem_cons.mpr ⟨htraversed.mono hx, hothers⟩

theorem fieldsOf_paced (hfree : ReferenceFree root) {plan : Plan} {depth : Nat}
    (hplan : PlacedPlan root limit.count plan depth) :
    Paced root limit.count (AtLimit root limit) (fieldsOf (c.withLimit limit) plan)
      (fieldsOf (c.withLimit wide) plan) s
      fun _ => PropertiesTraversed root limit.count depth plan := by
  have hlinks : ∀ c, planLinks c plan = pure [] := by
    intro c
    unfold planLinks
    rw [hplan.links]
    split <;> rfl
  rw [fieldsOf_eq, fieldsOf_eq]
  simp only [hlinks, pure_bind]
  refine .bind_access fun required _ => .bind_access fun ps hps => ?_
  refine .bind (propertyFields_paced hfree hplan required hps (List.Subset.refl ps)) ?_
  refine fun own s' _ htraversed => .pure fun ps' hps' => ?_
  obtain rfl : ps = ps' := Except.ok.inj (hps.symm.trans hps')
  exact htraversed

/-! ## All fields -/

/-- The failure to find the fields of a type is that of the limit. -/
def FieldsAtLimit (root : Node) (limit : Limit) (f : Failure) : Prop :=
  ∃ type cause, f = .unresolvedFields type cause ∧ AtLimit root limit cause

/-- The fields that are found are kept, and nothing else changes. -/
theorem keepFields_paced {E : Failure → Prop} {place : Nat} {type : Composite} {depth : Nat}
    (hheld : s.types[place]? = some (.composite type)) (hnone : type.fields? = none)
    (hdepth : type.plan.iteration = depth)
    (htraversed : PropertiesTraversed root limit.count depth type.plan s)
    (fields : Table String Field) :
    Paced root limit.count E (keepFields place type fields) (keepFields place type fields) s
      fun _ _ => True := by
  have hx : Extends s (s.keep place type fields) := extends_keepFields hheld hnone fields
  have hkeep : Placed root limit.count s → Placed root limit.count (s.keep place type fields) :=
    fun hs => hs.keep hheld hnone hdepth htraversed fields
  exact .same (fun _ => ⟨⟨hx, hkeep⟩, fun _ _ => trivial⟩) fun _ _ => staysOwn_of_names rfl

theorem fieldsAt_paced (hfree : ReferenceFree root) (place : Nat) :
    Paced root limit.count (FieldsAtLimit root limit) (fieldsAt (c.withLimit limit) place)
      (fieldsAt (c.withLimit wide) place) s fun _ _ => True := by
  intro hs
  refine Paced.bind (.same (fun _ => compositeAt?_ensures place s) fun _ =>
    keeps_compositeAt? place) ?_ hs
  rintro found s - ⟨rfl, hfound⟩
  cases found with
  | none => exact .pure trivial
  | some type =>
      have hheld := (hfound type).mp rfl
      cases hopened : type.fields? with
      | some fields =>
          simp only [hopened]
          exact .pure trivial
      | none =>
          simp only [hopened]
          obtain ⟨depth, hplan⟩ := hs.planned place type hheld
          have hfields : Paced root limit.count (AtLimit root limit)
              (fieldsOf (c.withLimit limit) type.plan) (fieldsOf (c.withLimit wide) type.plan) s
              fun _ s₁ => s₁.types[place]? = some (.composite type) ∧
                PropertiesTraversed root limit.count depth type.plan s₁ := by
            refine (fieldsOf_paced hfree hplan).weaken (fun _ => id) ?_
            refine fun fields s₁ hrun _ htraversed => ⟨?_, htraversed⟩
            have hadds : Adds s s₁ := (keeps_fieldsOf (c.withLimit wide) type.plan).of_run hrun
            exact hadds.types _ _ hheld
          refine .bind (hfields.tryCatch fun cause hcause => ⟨_, cause, rfl, hcause⟩) ?_
          rintro fields s₁ - ⟨hheld₁, htraversed⟩
          refine .bind (keepFields_paced hheld₁ hopened hplan.iteration htraversed fields) ?_
          exact fun _ _ _ _ => .pure trivial

theorem forceAll_paced (hfree : ReferenceFree root) (places : List Nat) :
    Paced root limit.count (FieldsAtLimit root limit) (forceAll (c.withLimit limit) places)
      (forceAll (c.withLimit wide) places) s fun _ _ => True := by
  induction places generalizing s with
  | nil => exact .pure trivial
  | cons place places ih => exact (fieldsAt_paced hfree place).bind fun _ _ _ _ => ih

end Runs

/-! ## Whole schemas -/

/-- The type of a node at the first level. Then the fields of the types at some places are asked
for in turn. -/
def translateAll (c : Catalog) (root : Node) (places : List Nat) : Build (Option TypeRef) := do
  let type ← translate c root.mode root.name root.schema [] 0
  forceAll c places
  return type

section Schemas

variable {c : Catalog} {root : Node} {limit wide : Limit} {strict : Bool} {places : List Nat}
  {type : Option TypeRef} {s : State}

theorem translateAll_paced (hfree : ReferenceFree root) :
    Paced root limit.count (fun f => AtLimit root limit (original f))
      (translateAll (c.withLimit limit) root places) (translateAll (c.withLimit wide) root places)
      s fun _ => Traversed root limit.count 0 root := by
  have htype : Paced root limit.count (AtLimit root limit)
      (translate (c.withLimit limit) root.mode root.name root.schema [] 0)
      (translate (c.withLimit wide) root.mode root.name root.schema [] 0) s
      fun _ => Traversed root limit.count 0 root :=
    translate_paced hfree (Nat.zero_add _) s .root
  refine .bind (htype.weaken ?_ fun _ _ _ _ => id) fun type s₁ _ hroot => ?_
  · rintro _ ⟨node, hlies, rfl⟩
    exact ⟨node, hlies, rfl⟩
  refine .bind ((forceAll_paced hfree places).weaken ?_ fun _ _ _ _ => id) fun _ s₂ hx _ => ?_
  · rintro _ ⟨type, cause, rfl, hcause⟩
    exact hcause
  exact .pure (hroot.mono hx)

/-- Where the fields of all types are found, every node was visited. -/
theorem Placed.visited {limit : Nat} (hs : Placed root limit s) (hopened : s.Opened)
    (hkeys : KeysApart root s.Named) (hroot : Traversed root limit 0 root s) {depth : Nat}
    {node : Node} (hlies : Lies root depth node) : Visited limit s depth node := by
  induction hlies with
  | root => exact hroot hkeys
  | property above shape declared mem ih =>
      obtain ⟨place, k, hheld, hplan⟩ := ih.type_of_object shape
      have hproperties := hs.found place k hheld (hopened place k hheld) _ (by rw [hplan])
      rw [hplan] at hproperties
      exact hproperties _ declared _ mem hkeys
  | items above shape declared ih => exact ih.items_of_array shape declared

/-- Legal names are their own texts all the way, so keys can be told apart by the schema alone. -/
theorem keysApart_of_legal (hfree : ReferenceFree root) (hlegal : LegalNames root)
    (hkeys : KeysApart root fun text name => name = text)
    (hrun : (translateAll (c.withLimit wide) root places).run (.empty strict) = (.ok type, s)) :
    KeysApart root s.Named := by
  rcases translateAll_paced hfree (placed_empty root wide.count strict) type s hrun with
    ⟨-, hs, -⟩ | ⟨f, t, hfails, -⟩
  · exact hkeys.mono (hs.own hlegal (ownNamed_empty strict)).own
  · rw [hrun] at hfails
    cases hfails

/-- The limit where no two nodes have one key by the names that are registered in the end. -/
theorem limit_of_keysApart (hfree : ReferenceFree root)
    (hrun : (translateAll (c.withLimit wide) root places).run (.empty strict) = (.ok type, s))
    (hopened : s.Opened) (hkeys : KeysApart root s.Named) (limit : Limit) :
    let run := (translateAll (c.withLimit limit) root places).run (.empty strict)
    ((∃ f name, run.1 = .error f ∧ original f = .tooDeep name limit) ↔
      ∃ depth node, Lies root depth node ∧ limit.count ≤ depth) ∧
    (∀ f, run.1 = .error f →
      ∃ node, Lies root limit.count node ∧ original f = .tooDeep node.name limit) ∧
    ((∀ depth node, Lies root depth node → depth < limit.count) → run = (.ok type, s)) := by
  intro run
  rcases translateAll_paced hfree (placed_empty root limit.count strict) type s hrun with
    ⟨hsame, hs, hroot⟩ | ⟨f, t, hfails, node, hlies, hlimit⟩
  -- the run comes to its end, and all nodes that it visited lie below the limit
  · have hbelow : ∀ depth node, Lies root depth node → depth < limit.count :=
      fun _ _ hlies => (hs.placed.visited hopened hkeys hroot hlies).lt_limit
    have hok : ∀ f, run.1 ≠ .error f := by
      intro f hf
      rw [show run = (.ok type, s) from hsame] at hf
      cases hf
    refine ⟨⟨?_, ?_⟩, fun f hf => absurd hf (hok f), fun _ => hsame⟩
    · rintro ⟨f, name, hf, -⟩
      exact absurd hf (hok f)
    · rintro ⟨depth, node, hlies, hdeep⟩
      exact absurd (hbelow depth node hlies) (Nat.not_lt.mpr hdeep)
  -- the run comes to a node that lies at the limit
  · have herror : run.1 = .error f := by
      rw [show run = (.error f, t) from hfails]
    refine ⟨⟨fun _ => ?_, fun _ => ?_⟩, fun f' hf' => ?_, fun hbelow => ?_⟩
    · exact ⟨limit.count, node, hlies, Nat.le_refl _⟩
    · exact ⟨f, node.name, herror, hlimit⟩
    · obtain rfl : f = f' := Except.error.inj (herror.symm.trans hf')
      exact ⟨node, hlies, hlimit⟩
    · exact absurd (hbelow _ node hlies) (Nat.lt_irrefl _)

/-- Take a schema without references whose nodes have legal names and keys of their own, and that is
translated and has the fields of all its types found under some limit, in any order. Under any
limit, the same comes to the limit if and only if some node lies as deep as that or deeper. It fails
for no other reason, and the failure has the name of a node that lies exactly there. If no node
does, the outcome is the same. -/
theorem limit_of_every_schema (hfree : ReferenceFree root) (hlegal : LegalNames root)
    (hkeys : KeysApart root fun text name => name = text)
    (hrun : (translateAll (c.withLimit wide) root places).run (.empty strict) = (.ok type, s))
    (hopened : s.Opened) (limit : Limit) :
    let run := (translateAll (c.withLimit limit) root places).run (.empty strict)
    ((∃ f name, run.1 = .error f ∧ original f = .tooDeep name limit) ↔
      ∃ depth node, Lies root depth node ∧ limit.count ≤ depth) ∧
    (∀ f, run.1 = .error f →
      ∃ node, Lies root limit.count node ∧ original f = .tooDeep node.name limit) ∧
    ((∀ depth node, Lies root depth node → depth < limit.count) → run = (.ok type, s)) :=
  limit_of_keysApart hfree hrun hopened (keysApart_of_legal hfree hlegal hkeys hrun) limit

end Schemas

/-! ### A schema of three levels

The items of an array that are scalars lie where the array does, and those that are objects lie one
level below it.
-/

def toyMembers : Schema.Members :=
  [("title", .text "Toy"), ("type", .text "object"),
    ("properties", .map [("size", .map [("type", .text "integer")])])]

def tagsMembers : Schema.Members := [("type", .text "array"), ("items", textSchema)]

def toysMembers : Schema.Members := [("type", .text "array"), ("items", .map toyMembers)]

def kennelMembers : Schema.Members :=
  [("type", .text "object"),
    ("properties", .map [("tags", .map tagsMembers), ("toys", .map toysMembers)])]

def kennelNode : Node := ⟨.output, .text "Kennel", .map kennelMembers⟩

def kennelNodes : List (Nat × Node) :=
  [(0, kennelNode), (1, ⟨.output, .text "tags", .map tagsMembers⟩),
    (1, ⟨.output, .text "ArrayItems", textSchema⟩),
    (1, ⟨.output, .text "toys", .map toysMembers⟩), (2, ⟨.output, .text "Toy", .map toyMembers⟩),
    (3, ⟨.output, .text "size", .map [("type", .text "integer")]⟩)]

theorem kennelNodes_closed :
    kennelNodes.flatMap (fun e => (inwards e.2).map fun e' => (e.1 + e'.1, e'.2)) ⊆
      kennelNodes := by
  have hnext : kennelNodes.flatMap (fun e => (inwards e.2).map fun e' => (e.1 + e'.1, e'.2)) =
      [kennelNodes[1], kennelNodes[3], kennelNodes[2], kennelNodes[4], kennelNodes[5]] := rfl
  rw [hnext]
  simp [kennelNodes]

theorem referenceFree_kennel : ReferenceFree kennelNode := by
  refine referenceFree_of_nodes (.head _) kennelNodes_closed ?_
  simp only [List.forall_mem_cons]
  exact ⟨rfl, rfl, rfl, rfl, rfl, rfl, nofun⟩

theorem legalNames_kennel : LegalNames kennelNode := by
  have hall : ∀ e ∈ kennelNodes, Name.legal e.2.name.plain.toList = true := by
    simp only [kennelNodes, List.forall_mem_cons]
    exact ⟨rfl, rfl, rfl, rfl, rfl, rfl, nofun⟩
  exact fun _ _ hlies => hall _ (hlies.mem (.head _) kennelNodes_closed)

theorem keysApart_kennel : KeysApart kennelNode fun text name => name = text := by
  have hnames : kennelNodes.map (fun e => e.2.name) =
      ["Kennel", "tags", "ArrayItems", "toys", "Toy", "size"].map Value.text := rfl
  exact keysApart_of_names (.head _) kennelNodes_closed hnames (by decide)

theorem size_lies : ∃ node, Lies kennelNode 3 node := by
  have hkennel : Lies kennelNode 0 ⟨.output, .text "Kennel", .map kennelMembers⟩ := .root
  have htoys : Lies kennelNode 1 ⟨.output, .text "toys", .map toysMembers⟩ :=
    hkennel.property (p := ("toys", .map toysMembers)) rfl rfl (.tail _ (.head _))
  have htoy : Lies kennelNode 2 ⟨.output, .text "Toy", .map toyMembers⟩ := htoys.items rfl rfl
  exact ⟨_, htoy.property rfl rfl (.head _)⟩

def kennelRun (limit : Nat) : Except Failure (Option TypeRef) × State :=
  (translateAll ((Catalog.empty default true).withLimit ⟨limit, false⟩) kennelNode [0, 1]).run
    (.empty false)

theorem kennelRun_succeeds :
    (kennelRun 20).1.toOption.isSome = true ∧ (kennelRun 20).2.isOpened = true := by
  decide +kernel

/-- Under a limit of three the size of a toy is too deep, and under one of four it is not. -/
theorem limit_of_kennel :
    (∃ f name, (kennelRun 3).1 = .error f ∧ original f = .tooDeep name ⟨3, false⟩) ∧
      kennelRun 4 = kennelRun 20 := by
  obtain ⟨hsome, hisOpened⟩ := kennelRun_succeeds
  obtain ⟨type, htype⟩ := Option.isSome_iff_exists.mp hsome
  have hrun : kennelRun 20 = (.ok type, (kennelRun 20).2) := Prod.ext (eq_ok_of_toOption htype) rfl
  have hopened : (kennelRun 20).2.Opened := State.opened_of_isOpened hisOpened
  constructor
  · obtain ⟨node, hlies⟩ := size_lies
    exact (limit_of_every_schema referenceFree_kennel legalNames_kennel keysApart_kennel hrun
      hopened ⟨3, false⟩).1.mpr ⟨3, node, hlies, Nat.le_refl 3⟩
  · refine ((limit_of_every_schema referenceFree_kennel legalNames_kennel keysApart_kennel hrun
      hopened ⟨4, false⟩).2.2 ?_).trans hrun.symm
    have hall : ∀ e ∈ kennelNodes, e.1 < 4 := by simp [kennelNodes]
    exact fun depth node hlies => hall (depth, node) (hlies.mem (.head _) kennelNodes_closed)

end RestGraph.Graph
