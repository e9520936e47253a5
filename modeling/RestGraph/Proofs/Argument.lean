import RestGraph.Proofs.Frame
import RestGraph.Proofs.Label

namespace RestGraph.Graph

open Build

/-!
# The arguments of a field

Every parameter that is exposed has one argument, in order, and the body has one more at
most. The key of each is the registered name of its parameter.
-/

/-- The parameters that become arguments, each with its name. -/
def exposed (c : Catalog) (ps : List Parameter) : List (String × Parameter) :=
  ps.filterMap fun p =>
    match p.name with
    | .text name => if c.config.isPreset name then none else some (name, p)
    | _ => none

theorem mem_exposed {c : Catalog} {ps : List Parameter} {name : String} {p : Parameter} :
    (name, p) ∈ exposed c ps ↔
      p ∈ ps ∧ p.name = .text name ∧ c.config.isPreset name = false := by
  unfold exposed
  rw [List.mem_filterMap]
  constructor
  · rintro ⟨q, hq, hsome⟩
    split at hsome
    · rename_i text htext
      split at hsome
      · cases hsome
      · rename_i hpreset
        cases hsome
        exact ⟨hq, htext, Bool.eq_false_iff.mpr hpreset⟩
    · cases hsome
  · rintro ⟨hp, hname, hpreset⟩
    exact ⟨p, hp, by simp [hname, hpreset]⟩

theorem exposed_cons_text (c : Catalog) {p : Parameter} (ps : List Parameter) {name : String}
    (hname : p.name = .text name) :
    exposed c (p :: ps) =
      if c.config.isPreset name then exposed c ps else (name, p) :: exposed c ps := by
  unfold exposed
  rw [List.filterMap_cons]
  by_cases hpreset : c.config.isPreset name = true <;> simp [hname, hpreset]

theorem exposed_cons_unnamed (c : Catalog) {p : Parameter} (ps : List Parameter)
    (hname : p.name.text? = none) : exposed c (p :: ps) = exposed c ps := by
  unfold exposed
  rw [List.filterMap_cons]
  cases hp : p.name with
  | text name => simp [hp, Value.text?] at hname
  | _ => rfl

/-- The key of the argument is the registered name of its parameter. -/
def Keyed (r : Name.Registry) (e : String × Argument) : Prop :=
  r.name? e.2.parameterName = some e.1

theorem Keyed.later {r r' : Name.Registry} (h : r.Grows r') {e : String × Argument}
    (he : Keyed r e) : Keyed r' e := h.name _ _ he

theorem text?_of_keyed {r : Name.Registry} (h : r.Coherent) {e : String × Argument}
    (he : Keyed r e) : r.text? e.1 = some e.2.parameterName := (h.inverse _ _).mpr he

theorem insert_of_keyed {r : Name.Registry} (h : r.Coherent) {found : Table String Argument}
    (hfound : ∀ e ∈ found, Keyed r e) {key : String} {a : Argument} (ha : Keyed r (key, a))
    (hnew : a.parameterName ∉ found.map fun e => e.2.parameterName) :
    Table.insert found key a = found ++ [(key, a)] := by
  refine Table.insert_of_not_mem ?_ a
  intro hkey
  obtain ⟨e, he, rfl⟩ := List.mem_map.mp hkey
  have hsame : e.2.parameterName = a.parameterName := h.text_injective (hfound e he) ha
  exact hnew (List.mem_map.mpr ⟨e, he, hsame⟩)

@[simp] theorem parameterName_parameterArgument (p : Parameter) (name : String) :
    (parameterArgument p name).parameterName = name := rfl

/-- Names stored on the way are those of arguments, whose keys stay theirs. -/
theorem parameterArguments_ensures (c : Catalog) (ps : List Parameter)
    {found : Table String Argument} {s : State} (hs : s.names.Coherent)
    (hfound : ∀ e ∈ found, Keyed s.names e)
    (hnames : ((found.map fun e => e.2.parameterName) ++ (exposed c ps).map Prod.fst).Nodup) :
    Ensures NamesGrow s (parameterArguments c found ps) fun found' s' =>
      ∃ added, found' = found ++ added ∧
        added.map Prod.snd = (exposed c ps).map (fun e => parameterArgument e.2 e.1) ∧
        ∀ e ∈ found', Keyed s'.names e := by
  induction ps generalizing found s with
  | nil => exact .pure ⟨[], by simp, rfl, hfound⟩
  | cons p ps ih =>
      unfold parameterArguments
      cases hname : p.name with
      | text name =>
          rw [exposed_cons_text c ps hname] at hnames ⊢
          by_cases hpreset : c.config.isPreset name = true
          · simp only [hpreset, if_true] at hnames ⊢
            refine ((keeps_report _ _).ensures s).bind fun _ s' hstep _ => ?_
            exact ih (hstep.2 hs) (fun e he => (hfound e he).later hstep.1) hnames
          · simp only [hpreset, Bool.false_eq_true, if_false] at hnames ⊢
            refine Ensures.bind (Q := fun key s' => s'.names.name? name = some key)
              (.storeName name fun key names log hstore =>
                ⟨TypeFrame.toNameFrame.store s name key names log hstore,
                  (Name.Registry.grows_store hstore).2⟩) fun key s' hstep hkey => ?_
            have hold : ∀ e ∈ found, Keyed s'.names e :=
              fun e he => (hfound e he).later hstep.1
            have hnew : name ∉ found.map fun e => e.2.parameterName := by
              intro hmem
              exact (List.nodup_append.mp hnames).2.2 name hmem name List.mem_cons_self rfl
            have hargument : Keyed s'.names (key, parameterArgument p name) := hkey
            rw [insert_of_keyed (hstep.2 hs) hold hargument hnew]
            refine (ih (hstep.2 hs) ?_ ?_).weaken ?_
            · intro e he
              rcases List.mem_append.mp he with he | he
              · exact hold e he
              · obtain rfl := List.mem_singleton.mp he
                exact hargument
            · simpa using hnames
            · rintro found' s'' - ⟨added, rfl, hadded, hkeyed⟩
              exact ⟨(key, parameterArgument p name) :: added, by simp, by simp [hadded], hkeyed⟩
      | _ =>
          have htext : p.name.text? = none := by rw [hname]; rfl
          rw [exposed_cons_unnamed c ps htext] at hnames ⊢
          refine ((keeps_report _ _).ensures s).bind fun _ s' hstep _ => ?_
          exact ih (hstep.2 hs) (fun e he => (hfound e he).later hstep.1) hnames

theorem bodyArgument_ensures (c : Catalog) {found : Table String Argument} (name : String)
    (required : Bool) {s : State} (hs : s.names.Coherent) (hfound : ∀ e ∈ found, Keyed s.names e)
    (hnew : name ∉ found.map fun e => e.2.parameterName) :
    Ensures NamesGrow s (bodyArgument c found name required) fun found' s' =>
      (∃ added, found' = found ++ added ∧ (added.map fun e => e.2.parameterName) ⊆ [name] ∧
        added.length ≤ 1) ∧ ∀ e ∈ found', Keyed s'.names e := by
  unfold bodyArgument
  refine ((keeps_bodyType c name).ensures s).bind fun type s' hstep _ => ?_
  have hold : ∀ e ∈ found, Keyed s'.names e := fun e he => (hfound e he).later hstep.1
  cases type with
  | none => exact .pure ⟨⟨[], by simp⟩, hold⟩
  | some type =>
      refine Ensures.bind (Q := fun key s'' => s''.names.name? name = some key)
        (.storeName name fun key names log hstore =>
          ⟨TypeFrame.toNameFrame.store s' name key names log hstore,
            (Name.Registry.grows_store hstore).2⟩) fun key s'' hstep' hkey => ?_
      refine .bind_access fun description _ => .pure ?_
      have hold' : ∀ e ∈ found, Keyed s''.names e := fun e he => (hold e he).later hstep'.1
      let argument : Argument :=
        ⟨type.whenRequired required, required, description, name, .text bodyLocation⟩
      have hargument : Keyed s''.names (key, argument) := hkey
      rw [insert_of_keyed (hstep'.2 (hstep.2 hs)) hold' hargument hnew]
      have hname : argument.parameterName = name := rfl
      refine ⟨⟨[_], rfl, by simp [hname], by simp⟩, fun e he => ?_⟩
      rcases List.mem_append.mp he with he | he
      · exact hold' e he
      · obtain rfl := List.mem_singleton.mp he
        exact hkey

/-- All arguments of a field: those of the exposed parameters in order and then the body's,
if there is one. -/
theorem arguments_ensures (c : Catalog) (ps : List Parameter) (body : Option String)
    (required : Bool) {s : State} (hs : s.names.Coherent)
    (hnames : ((exposed c ps).map Prod.fst).Nodup)
    (hbody : ∀ name, body = some name → name ∉ (exposed c ps).map Prod.fst) :
    Ensures NamesGrow s (arguments c ps body required) fun found s' =>
      (∃ own added, found = own ++ added ∧
        own.map Prod.snd = (exposed c ps).map (fun e => parameterArgument e.2 e.1) ∧
        (∀ e ∈ added, body = some e.2.parameterName) ∧ added.length ≤ 1) ∧
      ∀ e ∈ found, Keyed s'.names e := by
  unfold arguments
  have hnone : ∀ e ∈ ([] : Table String Argument), Keyed s.names e := by simp
  refine (parameterArguments_ensures c ps hs hnone (by simpa)).bind ?_
  rintro found s' hstep ⟨own, hfound, hown, hkeyed⟩
  rw [List.nil_append] at hfound
  subst hfound
  cases body with
  | none => exact .pure ⟨⟨found, [], by simp, hown, by simp, by simp⟩, hkeyed⟩
  | some name =>
      have hnew : name ∉ found.map fun e => e.2.parameterName := by
        have hsame : (found.map fun e => e.2.parameterName) = (exposed c ps).map Prod.fst := by
          have hmap := congrArg (List.map Argument.parameterName) hown
          simpa [Function.comp_def] using hmap
        simpa [hsame] using hbody name rfl
      refine (bodyArgument_ensures c name required (hstep.2 hs) hkeyed hnew).weaken ?_
      rintro found' s'' - ⟨⟨added, rfl, hadded, hlen⟩, hkeyed'⟩
      refine ⟨⟨found, added, rfl, hown, fun e he => ?_, hlen⟩, hkeyed'⟩
      have hmem := hadded (List.mem_map.mpr ⟨e, he, rfl⟩)
      exact congrArg some (List.mem_singleton.mp hmem).symm

end RestGraph.Graph
