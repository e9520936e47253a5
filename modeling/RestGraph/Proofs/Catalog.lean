import Mathlib.Order.Defs.Unbundled
import RestGraph.Graph.Api

namespace RestGraph.Catalog

/-!
# What reading a description leaves alone

Reading a description adds schemas and operations to a catalog, and writes the log. The
configuration of the catalog stays the one that it was started with.
-/

/-- Whatever its outcome, the gathering leaves the configuration as it is. -/
def KeepsConfig {α : Type} (g : Gathering α) : Prop :=
  ∀ d, ((g.run.run d).2.catalog.config, (g.run.run d).2.catalog.fetches) =
    (d.catalog.config, d.catalog.fetches)

namespace KeepsConfig

variable {α β : Type}

protected theorem pure (a : α) : KeepsConfig (Pure.pure a : Gathering α) := fun _ => rfl

protected theorem throw (f : Failure) : KeepsConfig (throw f : Gathering α) := fun _ => rfl

protected theorem bind {g : Gathering α} {f : α → Gathering β} (hg : KeepsConfig g)
    (hf : ∀ a, KeepsConfig (f a)) : KeepsConfig (g >>= f) := by
  intro d
  have hrun : ((g >>= f).run.run d) =
      match g.run.run d with
      | (.ok a, d') => (f a).run.run d'
      | (.error e, d') => (.error e, d') := by
    show (ExceptT.bindCont f (g.run.run d).1).run (g.run.run d).2 = _
    rcases g.run.run d with ⟨_ | _, _⟩ <;> rfl
  have hstart := hg d
  rw [hrun]
  rcases hg' : g.run.run d with ⟨e | a, d'⟩
  · rw [hg'] at hstart
    exact hstart
  · rw [hg'] at hstart
    exact (hf a d').trans hstart

protected theorem access (a : Value.Access α) : KeepsConfig (access a) := by
  cases a with
  | ok x => exact .pure x
  | error b => exact .throw _

protected theorem modify {f : Draft → Draft}
    (h : ∀ d, ((f d).catalog.config, (f d).catalog.fetches) =
      (d.catalog.config, d.catalog.fetches)) :
    KeepsConfig (modify f) := h

end KeepsConfig

theorem keepsConfig_addSchema (name : String) (schema : Value) :
    KeepsConfig (addSchema name schema) := .modify fun _ => rfl

theorem keepsConfig_keepOperation (o : Operation) : KeepsConfig (keepOperation o) :=
  .modify fun _ => rfl

theorem keepsConfig_schemaName? (schema : Value) (fallback : String) :
    KeepsConfig (schemaName? schema fallback) := by
  have hname : KeepsConfig (schemaName schema fallback) := by
    unfold schemaName
    split
    · exact .access _
    · exact (keepsConfig_addSchema fallback schema).bind fun _ => .pure _
  unfold schemaName?
  split
  · exact .pure _
  · exact hname.bind fun _ => .pure _

theorem keepsConfig_responseOf (id definition : Value) :
    KeepsConfig (responseOf id definition) := by
  unfold responseOf
  refine .bind (.access _) fun responses => ?_
  refine .bind (.access _) fun members => ?_
  split
  · exact .pure _
  · refine .bind (.access _) fun schema => ?_
    refine (keepsConfig_schemaName? _ _).bind fun name => ?_
    exact .bind (.access _) fun _ => .pure _

theorem keepsConfig_readOperation (swagger : Bool) (path method : String)
    (definition shared : Value) :
    KeepsConfig (readOperation swagger path method definition shared) := by
  unfold readOperation
  refine .bind (.access _) fun _ => ?_
  refine .bind (.access _) fun _ => ?_
  refine .bind (.access _) fun _ => ?_
  refine .bind (.access _) fun _ => ?_
  refine .bind (.access _) fun _ => ?_
  refine (keepsConfig_responseOf _ _).bind fun found => ?_
  refine .bind (.access _) fun body => ?_
  refine (keepsConfig_schemaName? _ _).bind fun name => ?_
  exact .bind (.access _) fun _ => .pure _

theorem keepsConfig_pathOperations (swagger : Bool) (path : String) (item shared : Value)
    (methods : List String) :
    KeepsConfig (pathOperations swagger path item shared methods) := by
  induction methods with
  | nil => exact .pure _
  | cons method methods ih =>
      refine .bind (.access _) fun definition => ?_
      split
      · exact ih
      · refine (keepsConfig_readOperation _ _ _ _ _).bind fun o => ?_
        exact (keepsConfig_keepOperation o).bind fun _ => ih

theorem keepsConfig_pathItems (swagger : Bool) (items : List (String × Value)) :
    KeepsConfig (pathItems swagger items) := by
  induction items with
  | nil => exact .pure _
  | cons e items ih =>
      refine .bind (.access _) fun shared => ?_
      exact (keepsConfig_pathOperations _ _ _ _ _).bind fun _ => ih

theorem keepsConfig_defineAll (schemas : List (Label × Value)) :
    KeepsConfig (defineAll schemas) := by
  induction schemas with
  | nil => exact .pure _
  | cons e schemas ih =>
      unfold defineAll
      split
      · exact (keepsConfig_addSchema _ _).bind fun _ => ih
      · exact .throw _

theorem keepsConfig_gather (document : Value) : KeepsConfig (gather document) := by
  refine .bind (.access _) fun swagger => ?_
  refine .bind (.access _) fun schemas => ?_
  refine (keepsConfig_defineAll schemas).bind fun _ => ?_
  refine .bind (.access _) fun paths => ?_
  exact .bind (.access _) fun items => keepsConfig_pathItems swagger items

/-- The catalog of a description has the configuration that it was read with. -/
theorem config_of_ofDocument {config : Config} {fetches : Bool} {document : Value} {c : Catalog}
    {log : List Record} (h : ofDocument config fetches document = (.ok c, log)) :
    c.config = config ∧ c.fetches = fetches := by
  have hkept := keepsConfig_gather document ⟨empty config fetches, []⟩
  unfold ofDocument at h
  rcases hrun : (gather document).run.run ⟨empty config fetches, []⟩ with ⟨_ | _, d⟩
  · rw [hrun] at h
    cases h
  · rw [hrun] at h hkept
    cases h
    exact Prod.mk.inj hkept

end RestGraph.Catalog
