import RestGraph.Proofs.Namespace
import RestGraph.Proofs.Settled

namespace RestGraph.Graph

/-!
# Schemas whose keywords are of their kinds

A keyword of a schema is read as a map, as a list or as a text. Where every keyword has a value
of its kind, in a schema and in all schemas within it, reading one does not fail. The declared
type is not among these keywords: whatever it is, it is looked at.
-/

/-- The keywords that a schema has are of their kinds. -/
structure Keywords (ms : Schema.Members) : Prop where
  properties : ∀ v, Table.get? ms "properties" = some v → ∃ ps, v = .map ps
  required : ∀ v, Table.get? ms "required" = some v →
    ∃ vs, v = .list vs ∧ ∀ w ∈ vs, ∃ text, w = .text text
  literals : ∀ v, Table.get? ms "enum" = some v → ∃ vs, v = .list vs
  title : ∀ v, Table.get? ms "title" = some v → ∃ text, v = .text text
  reference : ∀ v, Table.get? ms "$ref" = some v → ∃ text, v = .text text
  description : ∀ v, Table.get? ms "description" = some v → Describes v

/-- The keywords of the schema and of all schemas in its properties and items are of their
kinds. What is no map has no keywords. -/
inductive WellTyped : Value → Prop
  | other {v : Value} (h : ∀ ms, v ≠ .map ms) : WellTyped v
  | schema {ms : Schema.Members} (keywords : Keywords ms)
      (properties : ∀ ps, Table.get? ms "properties" = some (.map ps) → ∀ p ∈ ps, WellTyped p.2)
      (items : ∀ v, Table.get? ms "items" = some v → WellTyped v) : WellTyped (.map ms)

structure Node.WellTyped (node : Node) : Prop where
  named : ∃ text, node.name = .text text
  schema : Graph.WellTyped node.schema

/-- Where each single reading succeeds, so do all of them in order. -/
theorem exists_mapM_eq_pure {α β : Type} {m : Type → Type} [Monad m] [LawfulMonad m]
    {f : α → m β} {vs : List α} (h : ∀ v ∈ vs, ∃ b, f v = pure b) :
    ∃ bs, vs.mapM f = pure bs := by
  induction vs with
  | nil => exact ⟨[], List.mapM_nil⟩
  | cons v vs ih =>
      obtain ⟨⟨b, hb⟩, hrest⟩ := List.forall_mem_cons.mp h
      obtain ⟨bs, hbs⟩ := ih hrest
      exact ⟨b :: bs, by rw [List.mapM_cons, hb, hbs]; simp⟩

namespace WellTyped

variable {ms : Schema.Members}

theorem keywords (h : WellTyped (.map ms)) : Keywords ms := by
  cases h with
  | other h => exact absurd rfl (h ms)
  | schema keywords => exact keywords

theorem of_properties (h : WellTyped (.map ms)) {ps : List (String × Value)}
    (hps : properties ms = .ok ps) {p : String × Value} (hp : p ∈ ps) : WellTyped p.2 := by
  cases h with
  | other h => exact absurd rfl (h ms)
  | schema keywords hproperties items =>
      unfold Graph.properties at hps
      split at hps
      · cases hps
      · rename_i v hv
        obtain ⟨qs, rfl⟩ := keywords.properties v hv
        obtain rfl := Except.ok.inj hps
        exact hproperties qs hv p hp

theorem of_items (h : WellTyped (.map ms)) {items : Value}
    (hitems : Table.get? ms "items" = some items) : WellTyped items := by
  cases h with
  | other h => exact absurd rfl (h ms)
  | schema keywords properties hall => exact hall items hitems

theorem describes {schema : Value} (h : WellTyped schema) :
    Describes ((schema.member? "description").getD .null) := by
  cases schema with
  | map ms =>
      cases hfound : Table.get? ms "description" with
      | none => exact .inl (by simp [Value.member?, hfound])
      | some v => simpa [Value.member?, hfound] using h.keywords.description v hfound
  | _ => exact .inl rfl

theorem exists_referenceName {schema target : Value} (h : WellTyped schema)
    (htarget : Schema.target? schema = some target) :
    ∃ text, Schema.referenceName target = .ok text := by
  cases schema with
  | map ms =>
      obtain ⟨text, rfl⟩ := h.keywords.reference target htarget
      exact ⟨_, rfl⟩
  | _ => cases htarget

end WellTyped

namespace Keywords

variable {ms : Schema.Members}

theorem label_of_items {name items : Value} (h : ∀ ms, items = .map ms → Keywords ms) :
    ∃ text, itemsLabel name items = .text text := by
  unfold itemsLabel
  split
  · rename_i ms
    unfold Value.memberOr
    cases hfound : Table.get? ms "title" with
    | none => split <;> exact ⟨_, rfl⟩
    | some v =>
        obtain ⟨text, rfl⟩ := (h ms rfl).title v hfound
        exact ⟨text, rfl⟩
  · exact ⟨_, rfl⟩

theorem exists_requiredNames (h : Keywords ms) : ∃ names, requiredNames ms = .ok names := by
  unfold requiredNames
  split
  · exact ⟨[], rfl⟩
  · rename_i v hv
    obtain ⟨vs, rfl, htexts⟩ := h.required v hv
    have hlabelled : ∀ w ∈ vs, ∃ label, w.labelOf = pure label := by
      intro w hw
      obtain ⟨text, rfl⟩ := htexts w hw
      exact ⟨.ofText text, rfl⟩
    obtain ⟨labels, hlabels⟩ := exists_mapM_eq_pure hlabelled
    refine ⟨labels.filterMap Label.text?, ?_⟩
    have hitems : (Value.list vs).iterate = .ok vs := rfl
    rw [hitems]
    simp only [bind, Except.bind, hlabels]
    rfl

theorem exists_properties (h : Keywords ms) (hshape : Schema.shape? ms = some .object) :
    ∃ ps, Graph.properties ms = .ok ps := by
  have hsome : ∃ v, Table.get? ms "properties" = some v := by
    cases hfound : Table.get? ms "properties" with
    | some v => exact ⟨v, rfl⟩
    | none =>
        have hnone : Schema.hasProperties ms = false := by simp [Schema.hasProperties, hfound]
        unfold Schema.shape? at hshape
        split at hshape <;> simp [hnone] at hshape
  obtain ⟨v, hv⟩ := hsome
  obtain ⟨ps, rfl⟩ := h.properties v hv
  refine ⟨ps, ?_⟩
  unfold Graph.properties
  rw [hv]
  rfl

end Keywords

/-- All nodes that are met are well typed if the definitions and those given are. -/
theorem Met.wellTyped {c : Catalog} {given : Node → Prop}
    (hdefined : ∀ mode key schema, Table.get? (c.schemas mode) key = some schema →
      WellTyped schema)
    (hgiven : ∀ node, given node → node.WellTyped) {node : Node} (h : Met c given node) :
    node.WellTyped := by
  induction h with
  | definition defined => exact ⟨⟨_, rfl⟩, hdefined _ _ _ defined⟩
  | given h => exact hgiven _ h
  | property _ _ found mem _ _ ih => exact ⟨⟨_, rfl⟩, ih.schema.of_properties found mem⟩
  | @items mode name items ms _ _ found _ ih =>
      have hitems : WellTyped items := ih.schema.of_items found
      refine ⟨Keywords.label_of_items ?_, hitems⟩
      rintro ms rfl
      exact hitems.keywords

end RestGraph.Graph
