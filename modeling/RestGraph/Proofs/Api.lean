import RestGraph.Proofs.ResponseType

namespace RestGraph.Graph

open Build

/-!
# What is kept while a graph is built

A graph is built from the types of its responses, the arguments of its operations and the fields
of all types that these lead to. What holds across each of these holds across the whole.
-/

/-- A relation that the parts of building a graph hold to. -/
structure Building (c : Catalog) (R : State → State → Prop) : Prop where
  response : ∀ o ∈ c.operations.map Prod.snd, ∀ name, o.response = some name →
    ∀ links, Keeps R ((Step.response name links).build c)
  arguments : ∀ o ∈ c.operations.map Prod.snd,
    Keeps R (arguments c o.parameters (if o.isMutation then o.request else none) o.requestRequired)
  fields : ∀ place, Keeps R (fieldsAt c place)

/-- The names are gone through by one step for each response. -/
theorem translateEach_cons (c : Catalog) (links : Table String (Table String Link)) (name : String)
    (names : List String) :
    translateEach c links (name :: names) =
      (Step.response name ((Table.get? links name).getD [])).build c >>= fun _ =>
        translateEach c links names := by
  simp [translateEach, Step.build]

namespace Building

variable {c : Catalog} {R : State → State → Prop} [NameFrame R]

theorem keeps_translateEach (h : Building c R) (links : Table String (Table String Link))
    {names : List String}
    (hnames : ∀ name ∈ names, ∃ o ∈ c.operations.map Prod.snd, o.response = some name) :
    Keeps R (translateEach c links names) := by
  induction names with
  | nil => exact .pure _
  | cons name names ih =>
      obtain ⟨⟨o, ho, hname⟩, hrest⟩ := List.forall_mem_cons.mp hnames
      rw [translateEach_cons]
      exact (h.response o ho name hname _).bind fun _ => ih hrest

theorem keeps_translateResponses (h : Building c R) : Keeps R (translateResponses c) := by
  intro s
  suffices hkept : Ensures R s (translateResponses c) fun _ _ => True from hkept.1
  refine .bind_liftExcept fun ordered hordered => ?_
  refine (h.keeps_translateEach _ fun name hname => ?_).ensures s
  have hkey := mem_of_mem_objectsFirst hordered hname
  have hnone : Table.Distinct ([] : Table String (Table String Link)) := List.nodup_nil
  obtain ⟨-, hkeys⟩ := keys_responseLinks hnone (c.operations.map Prod.snd)
  rcases (hkeys name).mp hkey with hfound | hresponse
  · cases hfound
  · exact hresponse

theorem keeps_operationField (h : Building c R) {o : Operation}
    (ho : o ∈ c.operations.map Prod.snd) : Keeps R (operationField c o) := by
  refine (keeps_responseType? o).bind fun type => ?_
  split
  · exact (keeps_report _ _).bind fun _ => .pure _
  · exact (h.arguments o ho).bind fun found => (keeps_argumentDefs found).bind fun _ =>
      (keeps_checkDescription _ _).bind fun _ => .pure _

theorem keeps_rootFields (h : Building c R) {operations : List Operation}
    (hoperations : operations ⊆ c.operations.map Prod.snd) (found : Roots) :
    Keeps R (rootFields c found operations) := by
  induction operations generalizing found with
  | nil => exact .pure _
  | cons o operations ih =>
      obtain ⟨ho, hrest⟩ := List.cons_subset.mp hoperations
      refine (h.keeps_operationField ho).bind fun field => ?_
      split
      · exact ih hrest found
      · exact (keeps_storeName _).bind fun name => ih hrest _

theorem keeps_reachFrom (h : Building c R) (room : Nat) (types : List TypeRef) (seen : List Nat) :
    Keeps R (reachFrom c room types seen) := by
  induction room generalizing types seen with
  | zero => exact Keeps.get.bind fun _ => .pure _
  | succ room ih =>
      refine Keeps.get.bind fun s => ?_
      split
      · exact .pure _
      · exact (h.fields _).bind fun fields => ih _ _

theorem keeps_reach (h : Building c R) (types : List TypeRef) (seen : List Nat) :
    Keeps R (reach c types seen) := h.keeps_reachFrom _ types seen

theorem keeps_buildApi (h : Building c R) : Keeps R (buildApi c) := by
  refine h.keeps_translateResponses.bind fun _ => ?_
  refine (h.keeps_rootFields (List.Subset.refl _) _).bind fun roots => ?_
  dsimp only
  split
  · exact Keeps.throw_bind _ _
  · refine (h.keeps_reach _ _).bind fun queryPlaces => (h.keeps_reach _ _).bind fun places => ?_
    refine Keeps.get.bind fun s => ?_
    split
    · exact .throw _
    · exact .pure _

end Building

/-- Building a graph does nothing to the names but store texts. -/
theorem building_namesReach (c : Catalog) : Building c NamesReach where
  response _ _ name _ links := keeps_step c (.response name links)
  arguments _ _ := keeps_arguments c _ _ _
  fields place := keeps_fieldsAt c place

end RestGraph.Graph
