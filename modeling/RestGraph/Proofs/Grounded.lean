import RestGraph.Proofs.Call

namespace RestGraph.Graph

open Build

/-!
# Every type refers to types that are there

The types that are kept under keys, and those of the fields and the arguments that were found,
lead to places that the state has. Each change keeps that, for it refers to nothing but what is
kept already and the type that it adds.
-/

/-- The type leads nowhere or to a type that the state has. -/
def State.Has (s : State) (t : TypeRef) : Prop :=
  ∀ place, t.place? = some place → ∃ type, s.types[place]? = some type

structure Grounded (s : State) : Prop where
  entries : ∀ mode label t, Table.get? (s.cache mode) label = some (some t) → s.Has t
  fields : ∀ (place : Nat) (k : Composite) (fields : Table String Field),
    s.types[place]? = some (.composite k) → k.fields? = some fields →
    ∀ t ∈ mentioned fields, s.Has t

section Grounding

variable {c : Catalog} {given : Node → Prop} {s s' : State}

theorem forall_mem_mentioned {P : TypeRef → Prop} {fields : Table String Field} :
    (∀ t ∈ mentioned fields, P t) ↔
      ∀ f ∈ fields, P f.2.type ∧ ∀ a ∈ f.2.arguments, P a.2.type := by
  simp only [mentioned, List.forall_mem_flatMap, List.forall_mem_cons, List.forall_mem_map]

theorem State.Has.later (h : Extends s s') {t : TypeRef} (ht : s.Has t) : s'.Has t := by
  intro place hplace
  obtain ⟨type, htype⟩ := ht place hplace
  obtain ⟨type', htype', -⟩ := h.types place type htype
  exact ⟨type', htype'⟩

theorem State.Has.of_place? {t t' : TypeRef} (h : s.Has t) (hsame : t'.place? = t.place?) :
    s.Has t' := fun place hplace => h place (hsame ▸ hplace)

theorem State.has_of_none {t : TypeRef} (h : t.place? = none) : s.Has t := by
  intro place hplace
  rw [h] at hplace
  cases hplace

/-! ## Types that are read off -/

/-- The induction goes through the items of arrays. -/
theorem Reads.has (hs : Grounded s) {node : Node} {type : Option TypeRef}
    (h : Reads s node type) : ∀ t, type = some t → s.Has t := by
  induction h with
  | object shape labelled entry =>
      rintro t rfl
      exact hs.entries _ _ t entry
  | @enumeration _ _ _ _ type shape registered entry =>
      rintro t ⟨⟩
      exact hs.entries .output _ type (Option.join_eq_some_iff.mp entry)
  | emptyObject shape => exact nofun
  | scalar shape =>
      intro t ht
      obtain ⟨scalar, -, rfl⟩ := Option.map_eq_some_iff.mp ht
      exact State.has_of_none rfl
  | references shape found refers leads entry =>
      intro t ht
      obtain ⟨item, rfl, rfl⟩ := Option.map_eq_some_iff.mp ht
      exact (hs.entries _ _ item entry).of_place? rfl
  | items shape found own read ih =>
      intro t ht
      obtain ⟨item, rfl, rfl⟩ := Option.map_eq_some_iff.mp ht
      exact (ih item rfl).of_place? rfl

theorem Held.has (hs : Grounded s) {mode : Mode} {t : TypeRef} (h : Held c given s mode t) :
    s.Has t := by
  cases h with
  | kept entry => exact hs.entries mode _ t entry
  | read met read => exact read.has hs t rfl

/-! ## Changes -/

theorem Grounded.fileType (hs : Grounded s) {type : NamedType} {mode : Mode} {label : Label}
    (hx : Extends s (s.fileType type mode label))
    (hnew : ∀ k, type = .composite k → k.fields? = none) :
    Grounded (s.fileType type mode label) := by
  constructor
  · intro ns q t ht
    rw [get?_cache_fileType] at ht
    split at ht
    · cases ht
      rintro place ⟨⟩
      exact ⟨type, by simp⟩
    · exact (hs.entries ns q t ht).later hx
  · intro place k fields hplace hfields t ht
    rw [types_fileType, Array.getElem?_push] at hplace
    split at hplace
    · rw [hnew k (Option.some.inj hplace)] at hfields
      cases hfields
    · exact (hs.fields place k fields hplace hfields t ht).later hx

theorem Grounded.setCached (hs : Grounded s) {mode : Mode} {label : Label}
    {type : Option TypeRef} (htype : ∀ t, type = some t → s.Has t) :
    Grounded (s.setCached mode label type) := by
  have hadds : Adds s (s.setCached mode label type) := TypeFrame.setCached s _ _ _
  have hx := hadds.extends
  constructor
  · intro ns q t ht
    rw [get?_cache_setCached] at ht
    split at ht
    · exact (htype t (Option.some.inj ht)).later hx
    · exact (hs.entries ns q t ht).later hx
  · intro place k fields hplace hfields t ht
    rw [types_setCached] at hplace
    exact (hs.fields place k fields hplace hfields t ht).later hx

theorem Grounded.change (h : Change c given s s') (hs : Grounded s) : Grounded s' := by
  have hx := h.adds.extends
  cases h with
  | log log => exact ⟨hs.entries, hs.fields⟩
  | store stored log => exact ⟨hs.entries, hs.fields⟩
  | object met shape labelled free typeName named unopened =>
      refine hs.fileType hx ?_
      rintro k ⟨⟩
      exact unopened
  | enumeration met shape named free => exact hs.fileType hx nofun
  | definition defined read => exact hs.setCached (read.has hs)

theorem Evolves.grounded (h : Evolves c given s s') (hs : Grounded s) : Grounded s' :=
  h.invariant (fun _ _ hchange _ => Grounded.change hchange) (fun _ _ hname => hname) hs

theorem Passed.has (hs : Grounded s) {mode : Mode} {t : TypeRef}
    (h : Passed c given s s' mode t) : s'.Has t := by
  rcases h with hnone | ⟨s₁, type, h₁, h₂, hheld, hplace⟩
  · exact State.has_of_none hnone
  · exact ((hheld.has (h₁.grounded hs)).of_place? hplace).later h₂.adds.extends

theorem FieldPassed.has (hs : Grounded s) {mode : Mode} {fields : Table String Field}
    (h : ∀ f ∈ fields, FieldPassed c given s s' mode f.2) : ∀ t ∈ mentioned fields, s'.Has t :=
  forall_mem_mentioned.mpr fun f hf =>
    ⟨(h f hf).1.has hs, fun a ha => ((h f hf).2 a ha).has hs⟩

theorem Grounded.keep {place : Nat} {type : Composite} {fields : Table String Field}
    (hs : Grounded s) (hheld : s.types[place]? = some (.composite type))
    (hfields : ∀ t ∈ mentioned fields, s.Has t) (hx : Extends s (s.keep place type fields)) :
    Grounded (s.keep place type fields) := by
  constructor
  · intro mode label t ht
    rw [cache_keep] at ht
    exact (hs.entries mode label t ht).later hx
  · intro q k found hq hfound t ht
    rw [types_keep hheld] at hq
    split at hq
    · cases hq
      cases hfound
      exact (hfields t ht).later hx
    · exact (hs.fields q k found hq hfound t ht).later hx

theorem Progresses.grounded (h : Progresses c given s s') (hs : Grounded s) : Grounded s' := by
  refine h.invariant (fun _ _ hchange _ => Grounded.change hchange) ?_ (fun _ _ hname => hname) hs
  intro s s' place type fields _ _ hs hs' hheld hpassed hx
  exact hs'.keep hheld (FieldPassed.has hs hpassed) hx

theorem grounded_of_no_types (houtputs : s.outputs = []) (hinputs : s.inputs = [])
    (htypes : s.types = #[]) : Grounded s := by
  constructor
  · intro mode label t ht
    cases mode <;> simp_all [State.cache]
  · intro place k fields hplace
    simp [htypes] at hplace

end Grounding

end RestGraph.Graph
