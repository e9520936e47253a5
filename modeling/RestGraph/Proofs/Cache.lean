import RestGraph.Proofs.Filing

namespace RestGraph.Graph

open Build

/-!
# What is kept under a key

A type that is kept under a key stays there. A key that stands for no type stays so too, but for
one thing: an enumeration is filed among the outputs under a name that no type is kept under.
Translation for outputs leaves the inputs alone, and translation for inputs does nothing to the
outputs but file such enumerations.
-/

/-- The enumeration whose name is the key is kept for outputs under it. -/
def State.HoldsEnumeration (s : State) (label : Label) : Prop :=
  ∃ place e, Table.get? s.outputs label = some (some (.named place)) ∧
    s.types[place]? = some (.enumeration e) ∧ label = .ofText e.name

/-- Every entry of the earlier state is there in the later one, but where there was no type
there may be the enumeration of that name now. -/
structure Retains (s s' : State) : Prop where
  grows : Extends s s'
  entries : ∀ mode label type, Table.get? (s.cache mode) label = some type →
    Table.get? (s'.cache mode) label = some type ∨
      mode = .output ∧ type = none ∧ s'.HoldsEnumeration label

/-- What is done for one mode: for outputs nothing to the inputs, for inputs nothing to the
outputs but that enumerations are filed under names without a type. -/
structure Confined (mode : Mode) (s s' : State) : Prop where
  grows : Extends s s'
  inputs : mode = .output → s'.inputs = s.inputs
  outputs : mode = .input → ∀ label, Table.get? s'.outputs label = Table.get? s.outputs label ∨
    s.output? label = none ∧ s'.HoldsEnumeration label

section Laws

variable {s s' s'' : State} {label : Label}

theorem State.HoldsEnumeration.later (h : s.HoldsEnumeration label) (hx : Extends s s')
    (hentry : ∀ type, Table.get? s.outputs label = some (some type) →
      Table.get? s'.outputs label = some (some type)) : s'.HoldsEnumeration label := by
  obtain ⟨place, e, hkept, hheld, hname⟩ := h
  exact ⟨place, e, hentry _ hkept, hx.enumeration hheld, hname⟩

theorem State.HoldsEnumeration.output? (h : s.HoldsEnumeration label) : s.output? label ≠ none := by
  obtain ⟨place, e, hkept, -, -⟩ := h
  simp [State.output?, hkept]

theorem holdsEnumeration_fileType (s : State) (e : Enumeration) :
    (s.fileType (.enumeration e) .output (.ofText e.name)).HoldsEnumeration (.ofText e.name) := by
  have hentry := get?_cache_fileType s (.enumeration e) .output .output (.ofText e.name)
    (.ofText e.name)
  refine ⟨s.types.size, e, ?_, by simp, rfl⟩
  simpa [State.cache] using hentry

theorem Retains.typed (h : Retains s s') (mode : Mode) {type : TypeRef}
    (hentry : Table.get? (s.cache mode) label = some (some type)) :
    Table.get? (s'.cache mode) label = some (some type) := by
  rcases h.entries mode label _ hentry with hsame | ⟨-, hnone, -⟩
  · exact hsame
  · cases hnone

theorem Retains.of_caches (hx : Extends s s') (h : ∀ mode, s'.cache mode = s.cache mode) :
    Retains s s' := ⟨hx, fun mode _ _ hentry => .inl (h mode ▸ hentry)⟩

theorem Retains.trans (h : Retains s s') (h' : Retains s' s'') : Retains s s'' := by
  refine ⟨h.grows.trans h'.grows, fun mode label type hentry => ?_⟩
  rcases h.entries mode label type hentry with hsame | ⟨rfl, rfl, hholds⟩
  · exact h'.entries mode label type hsame
  · exact .inr ⟨rfl, rfl, hholds.later h'.grows fun _ => h'.typed .output⟩

instance : NameFrame Retains where
  refl s := .of_caches (.refl s) fun _ => rfl
  trans _ _ _ h h' := h.trans h'
  log s log := .of_caches (Adds.extends (NameFrame.log s log)) fun mode => by cases mode <;> rfl
  store s text name names log hstore :=
    .of_caches (Adds.extends (NameFrame.store s text name names log hstore))
      fun mode => by cases mode <;> rfl

theorem adds_fileType (s : State) (type : NamedType) (mode : Mode) (label : Label) :
    Adds s (s.fileType type mode label) :=
  trans_of Adds (TypeFrame.addType s type) (TypeFrame.setCached _ _ _ _)

/-- Nothing changes but the entry of a key that was free. -/
theorem Retains.free {mode : Mode} (h : Retains s s') (type : Option TypeRef)
    (hfree : Table.get? (s.cache mode) label = none) :
    Retains s (s'.setCached mode label type) := by
  have hset : Adds s' (s'.setCached mode label type) := TypeFrame.setCached s' _ _ _
  have hother : ∀ ns q t, Table.get? (s.cache ns) q = some t →
      Table.get? ((s'.setCached mode label type).cache ns) q = Table.get? (s'.cache ns) q := by
    intro ns q t hentry
    rw [get?_cache_setCached, if_neg]
    rintro ⟨rfl, hlabel⟩
    rw [Table.get?_congr _ hlabel, hentry] at hfree
    cases hfree
  refine ⟨h.grows.trans hset.extends, fun ns q t hentry => ?_⟩
  rcases h.entries ns q t hentry with hsame | ⟨rfl, rfl, hholds⟩
  · exact .inl ((hother ns q t hentry).trans hsame)
  · refine .inr ⟨rfl, rfl, hholds.later hset.extends fun t ht => ?_⟩
    exact (hother .output q none hentry).trans ht

theorem retains_fileType_enumeration {e : Enumeration}
    (hfree : s.output? (.ofText e.name) = none) :
    Retains s (s.fileType (.enumeration e) .output (.ofText e.name)) := by
  refine ⟨(adds_fileType s _ _ _).extends, fun ns q t hentry => ?_⟩
  rw [get?_cache_fileType]
  split
  · rename_i hfiled
    obtain ⟨rfl, hlabel⟩ := hfiled
    obtain rfl := Label.beq_ofText_iff.mp (BEq.symm hlabel)
    have hnone : (some t).join = none := hentry ▸ hfree
    exact .inr ⟨rfl, by simpa using hnone, holdsEnumeration_fileType s e⟩
  · exact .inl hentry

theorem filing_retains (nodes : Node → Prop) (mode : Mode) : Filing nodes mode Retains where
  object s type label _ _ _ _ _ hfree := by
    have hadd : Retains s { s with types := s.types.push (.composite type) } :=
      .of_caches (Adds.extends (TypeFrame.addType s _)) fun mode => by cases mode <;> rfl
    exact hadd.free _ hfree
  enumeration _ _ hfree := retains_fileType_enumeration hfree
  reference _ _ _ type h hfree := h.free type hfree

theorem opening_retains (nodes : Node → Prop) : Opening nodes Retains where
  filing := filing_retains nodes
  keep s place type fields hheld hnone :=
    .of_caches (extends_keepFields hheld hnone fields) (cache_keep s place type fields)

/-! ## The caches of the two modes -/

theorem Confined.trans {mode : Mode} (h : Confined mode s s') (h' : Confined mode s' s'') :
    Confined mode s s'' := by
  refine ⟨h.grows.trans h'.grows, fun hmode => (h'.inputs hmode).trans (h.inputs hmode), ?_⟩
  intro hmode label
  rcases h'.outputs hmode label with hsame' | ⟨hfree', hholds'⟩
  · rcases h.outputs hmode label with hsame | ⟨hfree, hholds⟩
    · exact .inl (hsame'.trans hsame)
    · exact .inr ⟨hfree, hholds.later h'.grows fun _ ht => hsame'.trans ht⟩
  · rcases h.outputs hmode label with hsame | ⟨-, hholds⟩
    · refine .inr ⟨?_, hholds'⟩
      unfold State.output? at hfree' ⊢
      rw [← hsame, hfree']
    · exact absurd hfree' hholds.output?

theorem Confined.of_caches {mode : Mode} (hx : Extends s s') (hinputs : s'.inputs = s.inputs)
    (houtputs : s'.outputs = s.outputs) : Confined mode s s' :=
  ⟨hx, fun _ => hinputs, fun _ label => .inl (by rw [houtputs])⟩

instance (mode : Mode) : NameFrame (Confined mode) where
  refl s := .of_caches (.refl s) rfl rfl
  trans _ _ _ h h' := h.trans h'
  log s log := .of_caches (Adds.extends (NameFrame.log s log)) rfl rfl
  store s text name names log hstore :=
    .of_caches (Adds.extends (NameFrame.store s text name names log hstore)) rfl rfl

/-- What is kept for the mode itself does not matter. -/
theorem Confined.setCached {mode : Mode} (h : Confined mode s s') (label : Label)
    (type : Option TypeRef) : Confined mode s (s'.setCached mode label type) := by
  have hset : Adds s' (s'.setCached mode label type) := TypeFrame.setCached s' _ _ _
  refine ⟨h.grows.trans hset.extends, ?_, ?_⟩
  · rintro rfl
    exact h.inputs rfl
  · rintro rfl q
    exact (h.outputs rfl q).imp id fun hnew =>
      ⟨hnew.1, hnew.2.later hset.extends fun _ ht => ht⟩

theorem filing_confined (nodes : Node → Prop) (mode : Mode) :
    Filing nodes mode (Confined mode) where
  object s type label _ _ _ _ _ _ := by
    have hadd : Confined mode s { s with types := s.types.push (.composite type) } :=
      .of_caches (Adds.extends (TypeFrame.addType s _)) rfl rfl
    exact hadd.setCached label _
  enumeration s e hfree := by
    refine ⟨(adds_fileType s _ _ _).extends, fun _ => rfl, fun _ q => ?_⟩
    have hentry := get?_cache_fileType s (.enumeration e) .output .output (.ofText e.name) q
    by_cases hlabel : (Label.ofText e.name == q) = true
    · obtain rfl := Label.beq_ofText_iff.mp (BEq.symm hlabel)
      exact .inr ⟨hfree, holdsEnumeration_fileType s e⟩
    · exact .inl (hentry.trans (by simp [hlabel, State.cache]))
  reference _ _ label type h _ := h.setCached label type

end Laws

/-! ## Whatever is asked -/

/-- What is asked of a graph: one of the calls, or an enumeration by its name. -/
inductive Demand where
  | call (call : Call)
  | enumeration (name : String) (literals : Value)

namespace Demand

def build (c : Catalog) : Demand → Build Unit
  | .call asked => do
      let _ ← asked.build c
      return ()
  | .enumeration name literals => do
      let _ ← resolveEnumeration name literals
      return ()

/-- Whether something is kept under a key regardless of what is there: only the type of a
response is. -/
def replaces : Demand → Bool
  | .call (.step (.response ..)) => true
  | _ => false

end Demand

def afterDemands (c : Catalog) (s : State) (demands : List Demand) : State :=
  demands.foldl (fun s demand => ((demand.build c).run s).2) s

section Demands

variable {c : Catalog}

theorem retains_fieldsAt (c : Catalog) (place : Nat) : Keeps Retains (fieldsAt c place) :=
  fun _ => (opening_retains fun _ => True).keeps_fieldsAt (closed_all c)
    fun _ _ _ _ _ _ _ _ => trivial

theorem step_retains {step : Step} (h : ∀ name links, step ≠ .response name links) :
    Keeps Retains (step.build c) := by
  have hall := closed_all c
  have hfiling := filing_retains fun _ => True
  cases step with
  | translate node links iteration =>
      exact (hfiling _).keeps_translate hall (fun _ _ => trivial) links iteration
  | reference mode name iteration =>
      exact (hfiling _).keeps_resolveReference hall (fun _ _ => trivial) iteration
  | response name links => exact absurd rfl (h name links)
  | fields place => exact (retains_fieldsAt c place).bind fun _ => .pure _
  | arguments ps body required =>
      refine ((hfiling _).keeps_arguments hall ps required ?_).bind fun _ => .pure _
      exact fun _ _ _ _ => trivial
  | store text => exact (keeps_storeName text).bind fun _ => .pure _

theorem demand_retains {demand : Demand} (h : demand.replaces = false) :
    Keeps Retains (demand.build c) := by
  have hfiling := filing_retains fun _ => True
  cases demand with
  | enumeration name literals =>
      exact ((hfiling .output).keeps_resolveEnumeration name literals).bind fun _ => .pure _
  | call call =>
      refine Keeps.bind ?_ fun _ => .pure _
      cases call with
      | fields plan =>
          refine ((hfiling _).keeps_fieldsOf (closed_all c) rfl ?_).bind fun _ => .pure _
          exact fun _ _ _ _ _ _ => trivial
      | step step =>
          intro s
          rw [run_step]
          refine step_retains (fun name links heq => ?_) s
          subst heq
          cases h

theorem retains_afterDemands {demands : List Demand} (h : ∀ d ∈ demands, d.replaces = false)
    (s : State) : Retains s (afterDemands c s demands) := by
  induction demands generalizing s with
  | nil => exact refl_of Retains s
  | cons d demands ih =>
      have hstep : Retains s ((d.build c).run s).2 := demand_retains (h d List.mem_cons_self) s
      exact hstep.trans (ih (fun q hq => h q (List.mem_cons_of_mem d hq)) _)

end Demands

/-- Whatever is asked of a graph in whatever state, and whatever fails, an entry of a cache
stays as it is. Only where an entry stands for no type, the enumeration of that name may be
kept for outputs instead. -/
theorem entries_of_every_history (c : Catalog) (s : State) {demands : List Demand}
    (hdemands : ∀ d ∈ demands, d.replaces = false) {mode : Mode} {label : Label}
    {type : Option TypeRef} (hentry : Table.get? (s.cache mode) label = some type) :
    Table.get? ((afterDemands c s demands).cache mode) label = some type ∨
      mode = .output ∧ type = none ∧ (afterDemands c s demands).HoldsEnumeration label :=
  (retains_afterDemands hdemands s).entries mode label type hentry

/-! ### A size that was nothing

An object without properties, and the items of an array that have its name as their title.
-/

def kennelCatalog : Catalog :=
  ((Catalog.empty default true).define "Size" (.map [("type", .text "object")])).define "Kennel"
    (.map [("type", .text "array"),
      ("items", .map [("title", .text "Size"), ("enum", .list [.text "small"])])])

def sizeDemand : Demand := .call (.step (.reference .output "Size" 0))

def kennelDemand : Demand := .call (.step (.reference .output "Kennel" 0))

theorem size_stands_for_nothing :
    Table.get? (afterDemands kennelCatalog (.empty false) [sizeDemand]).outputs (.ofText "Size") =
      some none := by
  decide +kernel

theorem size_after_kennel :
    Table.get? (afterDemands kennelCatalog (.empty false) [sizeDemand, kennelDemand]).outputs
      (.ofText "Size") = some (some (.named 0)) := by
  decide +kernel

/-- The enumeration stays when the size is asked for again, with other literals too. -/
theorem size_of_kennel_stays :
    let s := afterDemands kennelCatalog (.empty false) [sizeDemand, kennelDemand]
    let demands := [sizeDemand, .enumeration "Size" (.list [.text "large"])]
    (∀ d ∈ demands, d.replaces = false) ∧
      Table.get? s.outputs (.ofText "Size") = some (some (.named 0)) ∧
      Table.get? (afterDemands kennelCatalog s demands).outputs (.ofText "Size") =
        some (some (.named 0)) := by
  intro s demands
  have hdemands : ∀ d ∈ demands, d.replaces = false := by
    simp [demands, sizeDemand, Demand.replaces]
  have hentry : Table.get? (s.cache .output) (.ofText "Size") = some (some (.named 0)) :=
    size_after_kennel
  have hkept := entries_of_every_history kennelCatalog s hdemands hentry
  refine ⟨hdemands, size_after_kennel, ?_⟩
  rcases hkept with hsame | ⟨-, hnone, -⟩
  · exact hsame
  · cases hnone

/-- What was kept for the size, no type, is replaced by the enumeration of the items. -/
theorem size_is_replaced :
    kennelDemand.replaces = false ∧
      Table.get? (afterDemands kennelCatalog (.empty false) [sizeDemand]).outputs
        (.ofText "Size") = some none ∧
      ¬ Table.get? (afterDemands kennelCatalog (.empty false) [sizeDemand, kennelDemand]).outputs
        (.ofText "Size") = some none := by
  refine ⟨rfl, size_stands_for_nothing, ?_⟩
  rw [size_after_kennel]
  exact nofun

/-! ## One mode at a time -/

/-- The mode of a call that makes types for one mode. -/
def Call.mode? : Call → Option Mode
  | .fields plan => some plan.mode
  | .step (.translate node _ _) => some node.mode
  | .step (.reference mode _ _) => some mode
  | _ => none

theorem call_confined (c : Catalog) {call : Call} {mode : Mode} (hmode : call.mode? = some mode) :
    Keeps (Confined mode) (call.build c) := by
  have hall := closed_all c
  have hfiling := filing_confined (fun _ => True) mode
  cases call with
  | fields plan =>
      obtain rfl := Option.some.inj hmode
      refine (hfiling.keeps_fieldsOf hall rfl ?_).bind fun _ => .pure _
      exact fun _ _ _ _ _ _ => trivial
  | step step =>
      cases step with
      | translate node links iteration =>
          obtain rfl := Option.some.inj hmode
          refine Keeps.bind ?_ fun _ => .pure _
          exact hfiling.keeps_translate hall (fun _ _ => trivial) links iteration
      | reference ns name iteration =>
          obtain rfl := Option.some.inj hmode
          refine Keeps.bind ?_ fun _ => .pure _
          exact hfiling.keeps_resolveReference hall (fun _ _ => trivial) iteration
      | _ => cases hmode

/-- Whatever the state, a call for outputs changes nothing that is kept for inputs, whether it
fails or not. A call for inputs changes what is kept for outputs only where there was no type,
and what is there then is the enumeration whose name is the key. -/
theorem namespaces_apart_of_every_call (c : Catalog) (s : State) {call : Call} {mode : Mode}
    (hmode : call.mode? = some mode) :
    match mode with
    | .output => ((call.build c).run s).2.inputs = s.inputs
    | .input => ∀ label,
        Table.get? ((call.build c).run s).2.outputs label = Table.get? s.outputs label ∨
          s.output? label = none ∧ ((call.build c).run s).2.HoldsEnumeration label := by
  have hconfined := call_confined c hmode s
  cases mode with
  | output => exact hconfined.inputs rfl
  | input => exact hconfined.outputs rfl

/-- The fields of a task for inputs, with the enumeration of its states. -/
theorem state_of_task_for_inputs :
    let call := Call.fields ⟨taskMembers, [], .input, 0⟩
    let s := State.empty true
    let s' := ((call.build taskCatalog).run s).2
    call.mode? = some .input ∧
      (∀ label, Table.get? s'.outputs label = Table.get? s.outputs label ∨
        s.output? label = none ∧ s'.HoldsEnumeration label) ∧
      Table.get? s'.outputs (.ofText "state") = some (some (.named 1)) := by
  intro call s s'
  have hmode : call.mode? = some .input := rfl
  have hstate : Table.get? s'.outputs (.ofText "state") = some (some (.named 1)) := by
    decide +kernel
  exact ⟨hmode, namespaces_apart_of_every_call taskCatalog s hmode, hstate⟩

end RestGraph.Graph
