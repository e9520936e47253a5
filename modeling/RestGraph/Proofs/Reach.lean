import RestGraph.Proofs.Exhaustion
import RestGraph.Proofs.Grounded

namespace RestGraph.Graph

open Build

/-!
# The types of a graph are those that are reached

The search through the fields of a graph stops at each type that has fields and was not seen yet.
There are no more of these than keys, so the search never ends for want of room, and the types of
the graph are all that its root fields lead to.
-/

/-! ## The states of a graph -/

/-- What is known of a state at any point of building a graph. -/
structure Regular (c : Catalog) (s : State) : Prop where
  planned : Planned c (fun _ => False) s
  grounded : Grounded s
  keyed : ∃ key, KeyedBy (Within c) key s

/-- From a regular state there is growth to another one. -/
def Carries (c : Catalog) (s s' : State) : Prop := Regular c s → Regular c s' ∧ Extends s s'

section States

variable {c : Catalog} {s s' : State}

theorem carries_of_progresses (h : Regular c s → Progresses c (fun _ => False) s s')
    (hkeys : Tracks (Within c) s s') : Carries c s s' := by
  intro hs
  obtain ⟨key, hkey⟩ := hs.keyed
  have hprogresses := h hs
  exact ⟨⟨hs.planned.progresses hprogresses, hprogresses.grounded hs.grounded, hkeys key hkey⟩,
    hprogresses.extends⟩

instance (c : Catalog) : NameFrame (Carries c) where
  refl s hs := ⟨hs, .refl s⟩
  trans _ _ _ h h' hs := ⟨(h' (h hs).1).1, (h hs).2.trans (h' (h hs).1).2⟩
  log s log := carries_of_progresses
    (fun _ => Evolves.progresses (NameFrame.log s log)) (NameFrame.log s log)
  store s text name names log hstore := carries_of_progresses
    (fun _ => Evolves.progresses (NameFrame.store s text name names log hstore))
    (NameFrame.store s text name names log hstore)

theorem building_carries (c : Catalog) : Building c (Carries c) where
  response o ho name hname links s := by
    have htracks := (building_tracks c).response o ho name hname links s
    refine carries_of_progresses (fun hs => ?_) htracks
    have hcall : (Call.step (.response name links)).Within c fun _ => False := by
      intro node hnode
      cases hnode with
      | translate mem => simp at mem
      | property mem => simp at mem
    rw [← run_step]
    exact (call_progresses hs.planned hcall).1
  arguments o ho s := by
    refine carries_of_progresses (fun _ => ?_) ((building_tracks c).arguments o ho s)
    exact (arguments_passed _ _ _).1.progresses
  fields place s := by
    refine carries_of_progresses (fun hs => ?_) ((building_tracks c).fields place s)
    exact (fieldsAt_progresses hs.planned place).1

theorem regular_atStart (c : Catalog) (config : Config) (log : List Record) :
    Regular c (atStart config log) where
  planned place type hplace := by simp [atStart, State.empty] at hplace
  grounded := grounded_of_no_types rfl rfl rfl
  keyed := ⟨fun _ => .ofText "", keyedBy_of_no_types _ _ rfl⟩

end States

/-! ## Types that are reached -/

def Roots.types (r : Roots) : List TypeRef := mentioned r.query ++ mentioned r.mutation

def placesOf (types : List TypeRef) : List Nat := types.filterMap TypeRef.place?

@[simp] theorem mem_placesOf_cons {t : TypeRef} {types : List TypeRef} {place : Nat} :
    place ∈ placesOf (t :: types) ↔ t.place? = some place ∨ place ∈ placesOf types := by
  simp [placesOf]

@[simp] theorem placesOf_append (types types' : List TypeRef) :
    placesOf (types ++ types') = placesOf types ++ placesOf types' := List.filterMap_append

/-- The places that types lead to, at once or by the fields of others. -/
inductive Reached (s : State) (types : List TypeRef) : Nat → Prop
  | root {place : Nat} (mem : place ∈ placesOf types) : Reached s types place
  | field {place next : Nat} {type : Composite} {fields : Table String Field}
      (before : Reached s types place) (held : s.types[place]? = some (.composite type))
      (found : type.fields? = some fields) (mem : next ∈ placesOf (mentioned fields)) :
      Reached s types next

/-- There is a type at the place. If it has fields, these were found, and what they lead to is
among the places. -/
def Opened (s : State) (places : List Nat) (place : Nat) : Prop :=
  ∃ type, s.types[place]? = some type ∧ ∀ k, type = .composite k →
    ∃ fields, k.fields? = some fields ∧ placesOf (mentioned fields) ⊆ places

/-- The types of a graph are those that its root fields lead to: the places of queries are all
that the fields of queries lead to, those of mutations all that only the fields of mutations do,
and each is there once. -/
structure Api.Complete (a : Api) (s : State) : Prop where
  nodup : (a.queryPlaces ++ a.mutationPlaces).Nodup
  query : ∀ place, place ∈ a.queryPlaces ↔ Reached s (mentioned a.roots.query) place
  mutation : ∀ place, place ∈ a.mutationPlaces ↔
    Reached s (mentioned a.roots.mutation) place ∧ ¬ Reached s (mentioned a.roots.query) place
  opened : ∀ place ∈ a.queryPlaces ++ a.mutationPlaces,
    Opened s (a.queryPlaces ++ a.mutationPlaces) place

section Reaching

variable {c : Catalog} {s s' : State} {types : List TypeRef} {places : List Nat} {place : Nat}

theorem Reached.later (hx : Extends s s') (h : Reached s types place) : Reached s' types place := by
  induction h with
  | root mem => exact .root mem
  | field before held found mem ih =>
      obtain ⟨type', hheld', -, hfields⟩ := hx.composite held
      exact .field ih hheld' (hfields _ found) mem

theorem Reached.trans {types' : List TypeRef} (htypes : ∀ q ∈ placesOf types, Reached s types' q)
    (h : Reached s types place) : Reached s types' place := by
  induction h with
  | root mem => exact htypes _ mem
  | field before held found mem ih => exact .field ih held found mem

theorem Opened.later {places' : List Nat} (h : Opened s places place) (hx : Extends s s')
    (hplaces : places ⊆ places') : Opened s' places' place := by
  obtain ⟨type, hheld, hopen⟩ := h
  obtain ⟨type', hheld', hbecomes⟩ := hx.types place type hheld
  refine ⟨type', hheld', ?_⟩
  rintro k rfl
  cases hbecomes with
  | composite name description plan fields =>
      obtain ⟨found, hfound, hmentioned⟩ := hopen _ rfl
      exact ⟨found, fields found hfound, List.Subset.trans hmentioned hplaces⟩

/-- Places that are all opened have everything that is reached from types among them. -/
theorem Reached.mem (htypes : placesOf types ⊆ places) (hopen : ∀ q ∈ places, Opened s places q)
    (h : Reached s types place) : place ∈ places := by
  induction h with
  | root mem => exact htypes mem
  | field before held found mem ih =>
      obtain ⟨type, hheld, hfields⟩ := hopen _ ih
      obtain ⟨fields, hfound, hmentioned⟩ := hfields _ (Option.some.inj (hheld.symm.trans held))
      obtain rfl := Option.some.inj (found.symm.trans hfound)
      exact hmentioned mem

/-! ## To the next type with fields -/

/-- Enumerations that types lead to and that were not seen yet. -/
structure Skipped (s : State) (seen : List Nat) (types : List TypeRef) (skipped : List Nat) :
    Prop where
  nodup : (seen ++ skipped).Nodup
  enumerations : ∀ place ∈ skipped, ∃ e, s.types[place]? = some (.enumeration e)
  among : skipped ⊆ placesOf types

/-- Where the search stops: at the end of the types, or at a type with fields that was not seen
yet, with the types that are left. -/
inductive Stops (s : State) (seen : List Nat) (types : List TypeRef) :
    List Nat × Option (Nat × List TypeRef) → Prop
  | done {skipped : List Nat} (skips : Skipped s seen types skipped)
      (all : placesOf types ⊆ seen ++ skipped) : Stops s seen types (seen ++ skipped, none)
  | next {skipped : List Nat} {place : Nat} {type : Composite} {rest : List TypeRef}
      (skips : Skipped s seen types skipped) (new : place ∉ seen ++ skipped)
      (held : s.types[place]? = some (.composite type))
      (all : placesOf types ⊆ seen ++ skipped ++ place :: placesOf rest)
      (among : place :: placesOf rest ⊆ placesOf types) :
      Stops s seen types (seen ++ skipped, some (place, rest))

/-- What is skipped at first is skipped on the whole. -/
theorem Skipped.append {seen more skipped : List Nat} {t : TypeRef}
    (h : Skipped s (seen ++ more) types skipped)
    (hmore : ∀ q ∈ more, t.place? = some q ∧ ∃ e, s.types[q]? = some (.enumeration e)) :
    Skipped s seen (t :: types) (more ++ skipped) := by
  refine ⟨by simpa using h.nodup, fun q hq => ?_, fun q hq => ?_⟩
  · rcases List.mem_append.mp hq with hq | hq
    · exact (hmore q hq).2
    · exact h.enumerations q hq
  · rcases List.mem_append.mp hq with hq | hq
    · exact mem_placesOf_cons.mpr (.inl (hmore q hq).1)
    · exact mem_placesOf_cons.mpr (.inr (h.among hq))

theorem Stops.after {seen more : List Nat} {t : TypeRef}
    {found : List Nat × Option (Nat × List TypeRef)} (h : Stops s (seen ++ more) types found)
    (hmore : ∀ q ∈ more, t.place? = some q ∧ ∃ e, s.types[q]? = some (.enumeration e))
    (ht : ∀ q, t.place? = some q → q ∈ seen ++ more) : Stops s seen (t :: types) found := by
  cases h with
  | @done skipped skips all =>
      rw [List.append_assoc]
      refine .done (skips.append hmore) fun q hq => ?_
      rw [← List.append_assoc]
      rcases mem_placesOf_cons.mp hq with hq | hq
      · exact List.mem_append_left _ (ht q hq)
      · exact all hq
  | @next skipped place type rest skips new held all among =>
      rw [List.append_assoc]
      refine .next (skips.append hmore) (by simpa using new) held (fun q hq => ?_) ?_
      · rw [← List.append_assoc]
        rcases mem_placesOf_cons.mp hq with hq | hq
        · exact List.mem_append_left _ (List.mem_append_left _ (ht q hq))
        · exact all hq
      · exact fun q hq => mem_placesOf_cons.mpr (.inr (among hq))

theorem isComposite_iff :
    s.isComposite place = true ↔ ∃ type, s.types[place]? = some (.composite type) := by
  unfold State.isComposite
  split <;> simp_all

theorem skipped_nil {seen : List Nat} (hseen : seen.Nodup) : Skipped s seen types [] :=
  ⟨by simpa using hseen, by simp, by simp⟩

theorem Stops.pass {seen : List Nat} {t : TypeRef} {found : List Nat × Option (Nat × List TypeRef)}
    (h : Stops s seen types found) (ht : ∀ q, t.place? = some q → q ∈ seen) :
    Stops s seen (t :: types) found := by
  have hstops : Stops s (seen ++ []) types found := by simpa using h
  exact hstops.after (by simp) (by simpa using ht)

theorem nextComposite_stops {seen : List Nat} (hseen : seen.Nodup)
    (htypes : ∀ q ∈ placesOf types, ∃ type, s.types[q]? = some type) :
    Stops s seen types (nextComposite s seen types) := by
  induction types generalizing seen with
  | nil => simpa [nextComposite] using Stops.done (skipped_nil hseen) (by simp [placesOf])
  | cons t types ih =>
      have hrest : ∀ q ∈ placesOf types, ∃ type, s.types[q]? = some type := fun q hq =>
        htypes q (mem_placesOf_cons.mpr (.inr hq))
      unfold nextComposite
      split
      · rename_i hnone
        exact (ih hseen hrest).pass (by simp [hnone])
      · rename_i place hplace
        have hsame : ∀ q, t.place? = some q → q = place := fun q hq =>
          Option.some.inj (hq.symm.trans hplace)
        split
        · rename_i hmem
          refine (ih hseen hrest).pass fun q hq => ?_
          obtain rfl := hsame q hq
          exact List.contains_iff_mem.mp hmem
        · rename_i hmem
          have hnew : place ∉ seen := fun h => hmem (List.contains_iff_mem.mpr h)
          split
          · rename_i hcomposite
            obtain ⟨type, hheld⟩ := isComposite_iff.mp hcomposite
            have hstops : Stops s seen (t :: types) (seen ++ [], some (place, types)) := by
              refine .next (skipped_nil hseen) (by simpa using hnew) hheld ?_ ?_
              · intro q hq
                rcases mem_placesOf_cons.mp hq with hq | hq
                · simp [hsame q hq]
                · simp [hq]
              · intro q hq
                rcases List.mem_cons.mp hq with rfl | hq
                · exact mem_placesOf_cons.mpr (.inl hplace)
                · exact mem_placesOf_cons.mpr (.inr hq)
            simpa using hstops
          · rename_i hcomposite
            obtain ⟨type, hheld⟩ := htypes place (mem_placesOf_cons.mpr (.inl hplace))
            have hseen' : (seen ++ [place]).Nodup := by
              simpa [List.nodup_append] using ⟨hseen, fun q hq => ne_of_mem_of_not_mem hq hnew⟩
            refine (ih hseen' hrest).after ?_ ?_
            · intro q hq
              obtain rfl := List.mem_singleton.mp hq
              cases type with
              | composite k => exact absurd (isComposite_iff.mpr ⟨k, hheld⟩) hcomposite
              | enumeration e => exact ⟨hplace, e, hheld⟩
            · intro q hq
              simp [hsame q hq]

/-! ## The whole search -/

/-- What the search from some types makes of the places that were seen before it. -/
structure Explored (s : State) (seen : List Nat) (types : List TypeRef) (places : List Nat) :
    Prop where
  before : seen <+: places
  nodup : places.Nodup
  all : placesOf types ⊆ places
  opened : ∀ place ∈ places, place ∈ seen ∨ Opened s places place
  reached : ∀ place ∈ places, place ∈ seen ∨ Reached s types place

theorem Skipped.opened {seen skipped : List Nat} (h : Skipped s seen types skipped)
    (hplace : place ∈ skipped) : Opened s places place := by
  obtain ⟨e, hheld⟩ := h.enumerations place hplace
  exact ⟨_, hheld, nofun⟩

theorem Skipped.explored {seen skipped : List Nat} (h : Skipped s seen types skipped)
    (hall : placesOf types ⊆ seen ++ skipped) : Explored s seen types (seen ++ skipped) where
  before := List.prefix_append _ _
  nodup := h.nodup
  all := hall
  opened _ hplace := (List.mem_append.mp hplace).imp id h.opened
  reached _ hplace := (List.mem_append.mp hplace).imp id fun hskipped => .root (h.among hskipped)

/-- What comes of a type whose fields were found, when the search goes on from these. -/
theorem Explored.of_next {seen skipped : List Nat} {rest : List TypeRef} {type : Composite}
    {fields : Table String Field} (hskips : Skipped s seen types skipped)
    (hall : placesOf types ⊆ seen ++ skipped ++ place :: placesOf rest)
    (hamong : place :: placesOf rest ⊆ placesOf types) (hx : Extends s s')
    (hheld : s'.types[place]? = some (.composite type)) (hfound : type.fields? = some fields)
    (h : Explored s' (seen ++ skipped ++ [place]) (mentioned fields ++ rest) places) :
    Explored s' seen types places := by
  have hseen : seen ++ skipped ++ [place] ⊆ places := h.before.subset
  have hmentioned : placesOf (mentioned fields) ⊆ places := fun q hq => h.all (by simp [hq])
  obtain ⟨hroot, hrest⟩ := List.cons_subset.mp hamong
  constructor
  · exact (List.prefix_append seen (skipped ++ [place])).trans (by simpa using h.before)
  · exact h.nodup
  · intro q hq
    rcases List.mem_append.mp (hall hq) with hq | hq
    · exact hseen (List.mem_append_left _ hq)
    · rcases List.mem_cons.mp hq with rfl | hq
      · exact hseen (by simp)
      · exact h.all (by simp [hq])
  · intro q hq
    rcases h.opened q hq with hq | hopen
    · rw [List.append_assoc] at hq
      refine (List.mem_append.mp hq).imp id fun hq => ?_
      rcases List.mem_append.mp hq with hq | hq
      · exact (hskips.opened hq).later hx (List.Subset.refl places)
      · obtain rfl := List.mem_singleton.mp hq
        refine ⟨_, hheld, ?_⟩
        rintro k ⟨⟩
        exact ⟨fields, hfound, hmentioned⟩
    · exact .inr hopen
  · intro q hq
    rcases h.reached q hq with hq | hreached
    · rw [List.append_assoc] at hq
      refine (List.mem_append.mp hq).imp id fun hq => ?_
      rcases List.mem_append.mp hq with hq | hq
      · exact .root (hskips.among hq)
      · obtain rfl := List.mem_singleton.mp hq
        exact .root hroot
    · refine .inr (hreached.trans fun q hq => ?_)
      rw [placesOf_append] at hq
      rcases List.mem_append.mp hq with hq | hq
      · exact .field (.root hroot) hheld hfound hq
      · exact .root (hrest hq)

theorem Regular.countP_le (hs : Regular c s) {seen : List Nat} (hseen : seen.Nodup) :
    seen.countP s.isComposite ≤ keyBound c := by
  obtain ⟨key, hkey⟩ := hs.keyed
  rw [List.countP_eq_length_filter]
  refine hkey.length_le (hseen.filter _) fun place hplace => ?_
  exact isComposite_iff.mp (List.mem_filter.mp hplace).2

/-- Another type with fields was seen. -/
theorem Skipped.countP_next {seen skipped : List Nat} {type : Composite}
    (h : Skipped s seen types skipped) (hnew : place ∉ seen ++ skipped)
    (hheld : s.types[place]? = some (.composite type)) :
    (seen ++ skipped ++ [place]).Nodup ∧
      seen.countP s.isComposite + 1 ≤ (seen ++ skipped ++ [place]).countP s.isComposite := by
  have hcomposite : s.isComposite place = true := isComposite_iff.mpr ⟨type, hheld⟩
  refine ⟨by simpa using h.nodup.concat hnew, ?_⟩
  simp only [List.countP_append, List.countP_singleton, hcomposite, if_true]
  omega

theorem Extends.countP_le (hx : Extends s s') (seen : List Nat) :
    seen.countP s.isComposite ≤ seen.countP s'.isComposite := by
  refine List.countP_mono_left fun place _ hplace => ?_
  obtain ⟨type, hheld⟩ := isComposite_iff.mp hplace
  obtain ⟨type', hheld', -⟩ := hx.composite hheld
  exact isComposite_iff.mpr ⟨type', hheld'⟩

theorem fieldsAt_found (hs : Regular c s) {type : Composite}
    (hheld : s.types[place]? = some (.composite type)) :
    Ensures (Carries c) s (fieldsAt c place) fun fields s' =>
      ∃ type' : Composite, s'.types[place]? = some (.composite type') ∧
        type'.fields? = some fields := by
  refine ⟨(building_carries c).fields place s, fun fields hfields => ?_⟩
  obtain ⟨type', hheld', -, hfound⟩ := (fieldsAt_progresses hs.planned place).2 fields hfields type
    hheld
  exact ⟨type', hheld', hfound⟩

/-- The induction is on the room that is left. There is some as long as there is another type with
fields, for all of them have keys. -/
theorem reachFrom_explored (room : Nat) {seen : List Nat} (hs : Regular c s)
    (hseen : seen.Nodup) (htypes : ∀ q ∈ placesOf types, ∃ type, s.types[q]? = some type)
    (hroom : keyBound c ≤ seen.countP s.isComposite + room) :
    Ensures (Carries c) s (reachFrom c room types seen) fun places s' =>
      Explored s' seen types places := by
  induction room generalizing s types seen with
  | zero =>
      unfold reachFrom
      refine .get_bind ?_
      have hstops := nextComposite_stops hseen htypes
      generalize nextComposite s seen types = found at hstops ⊢
      cases hstops with
      | done skips all => exact .pure (skips.explored all)
      | next skips new held all among =>
          -- With this type there would be one more than there are keys.
          obtain ⟨hnodup, hcount⟩ := skips.countP_next new held
          have hbound := hs.countP_le hnodup
          omega
  | succ room ih =>
      unfold reachFrom
      refine .get_bind ?_
      have hstops := nextComposite_stops hseen htypes
      generalize nextComposite s seen types = found at hstops ⊢
      cases hstops with
      | done skips all => exact .pure (skips.explored all)
      | @next skipped place type rest skips new held all among =>
          obtain ⟨hnodup, hcount⟩ := skips.countP_next new held
          refine .bind (fieldsAt_found hs held) ?_
          rintro fields s₁ h₁ ⟨type', hheld', hfound⟩
          obtain ⟨hs₁, hx₁⟩ := h₁ hs
          have htypes₁ : ∀ q ∈ placesOf (mentioned fields ++ rest),
              ∃ type, s₁.types[q]? = some type := by
            intro q hq
            rw [placesOf_append] at hq
            rcases List.mem_append.mp hq with hq | hq
            · obtain ⟨t, ht, hplace⟩ := List.mem_filterMap.mp hq
              exact hs₁.grounded.fields place type' fields hheld' hfound t ht q hplace
            · obtain ⟨old, hold⟩ := htypes q (among (List.mem_cons_of_mem place hq))
              obtain ⟨new, hnew, -⟩ := hx₁.types q old hold
              exact ⟨new, hnew⟩
          -- Finding the fields may make types but turns none of those seen into something else.
          have hroom₁ := hx₁.countP_le (seen ++ skipped ++ [place])
          refine (ih hs₁ hnodup htypes₁ (by omega)).weaken ?_
          intro places s₂ h₂ hexplored
          obtain ⟨hs₂, hx₂⟩ := h₂ hs₁
          obtain ⟨type'', hheld'', -, hfields⟩ := hx₂.composite hheld'
          exact .of_next skips all among (hx₁.trans hx₂) hheld'' (hfields fields hfound) hexplored

theorem reach_explored {seen : List Nat} (hs : Regular c s) (hseen : seen.Nodup)
    (htypes : ∀ t ∈ types, s.Has t) :
    Ensures (Carries c) s (reach c types seen) fun places s' => Explored s' seen types places := by
  refine reachFrom_explored (keyBound c) hs hseen (fun q hq => ?_) (Nat.le_add_left _ _)
  obtain ⟨t, ht, hplace⟩ := List.mem_filterMap.mp hq
  exact htypes t ht q hplace

theorem Explored.all_opened {seen : List Nat} (h : Explored s seen types places)
    (hseen : ∀ q ∈ seen, Opened s seen q) : ∀ q ∈ places, Opened s places q := by
  intro q hq
  rcases h.opened q hq with hq | hopen
  · exact (hseen q hq).later (.refl s) h.before.subset
  · exact hopen

theorem Explored.mem_iff {seen : List Nat} (h : Explored s seen types places)
    (hseen : ∀ q ∈ seen, Opened s seen q) (q : Nat) :
    q ∈ places ↔ q ∈ seen ∨ Reached s types q := by
  refine ⟨h.reached q, ?_⟩
  rintro (hmem | hreached)
  · exact h.before.subset hmem
  · exact hreached.mem h.all (h.all_opened hseen)

/-! ## Root fields -/

theorem Roots.forall_mem_types_insert {P : TypeRef → Prop} {roots : Roots}
    (hroots : ∀ t ∈ roots.types, P t) {field : Field}
    (hfield : P field.type ∧ ∀ a ∈ field.arguments, P a.2.type) (mutation : Bool) (name : String) :
    ∀ t ∈ (roots.insert mutation name field).types, P t := by
  obtain ⟨hquery, hmutation⟩ := List.forall_mem_append.mp hroots
  cases mutation with
  | true =>
      have hinsert := Table.forall_mem_insert (q := name) (b := field)
        (forall_mem_mentioned.mp hmutation) hfield
      exact List.forall_mem_append.mpr ⟨hquery, forall_mem_mentioned.mpr hinsert⟩
  | false =>
      have hinsert := Table.forall_mem_insert (q := name) (b := field)
        (forall_mem_mentioned.mp hquery) hfield
      exact List.forall_mem_append.mpr ⟨forall_mem_mentioned.mpr hinsert, hmutation⟩

theorem arguments_has (hs : Regular c s) {o : Operation} (ho : o ∈ c.operations.map Prod.snd) :
    Ensures (Carries c) s
      (arguments c o.parameters (if o.isMutation then o.request else none) o.requestRequired)
      fun found s' => ∀ e ∈ found, s'.Has e.2.type := by
  refine ⟨(building_carries c).arguments o ho s, fun found hfound => ?_⟩
  have hpassed : ∀ e ∈ found, Passed c (fun _ => False) s _ .input e.2.type :=
    (arguments_passed _ _ _).2 found hfound
  exact fun e he => (hpassed e he).has hs.grounded

theorem operationField_has (hs : Regular c s) {o : Operation}
    (ho : o ∈ c.operations.map Prod.snd) :
    Ensures (Carries c) s (operationField c o) fun found s' => ∀ f, found = some f →
      s'.Has f.type ∧ ∀ a ∈ f.arguments, s'.Has a.2.type := by
  unfold operationField
  refine .bind (Q := fun type t => t = s ∧ type = s.output? (.ofText (o.response.getD "")))
    (.get_bind (.pure ⟨rfl, rfl⟩)) ?_
  rintro type s - ⟨rfl, hkept⟩
  split
  · exact .bind ((keeps_report _ _).ensures s) fun _ _ _ _ => .pure nofun
  · rename_i type
    have htype : s.Has type := hs.grounded.entries .output _ type (Option.join_eq_some_iff.mp
      hkept.symm)
    refine .bind (arguments_has hs ho) ?_
    intro found s₁ h₁ hhas
    obtain ⟨hs₁, hx₁⟩ := h₁ hs
    refine .bind (argumentDefs_types found) fun defs s₂ h₂ hdefs => ?_
    obtain ⟨hs₂, hx₂⟩ := h₂ hs₁
    refine .bind ((keeps_checkDescription _ _).ensures s₂) fun description s₃ h₃ _ => .pure ?_
    obtain ⟨hs₃, hx₃⟩ := h₃ hs₂
    have hx := hx₂.trans hx₃
    rintro f ⟨⟩
    refine ⟨htype.later (hx₁.trans hx), fun a ha => ?_⟩
    obtain ⟨e, he, heq⟩ := argument_of_def hdefs a ha
    rw [← heq]
    exact (hhas e he).later hx

theorem rootFields_has {operations : List Operation} (hs : Regular c s)
    (hoperations : operations ⊆ c.operations.map Prod.snd) {found : Roots}
    (hfound : ∀ t ∈ found.types, s.Has t) :
    Ensures (Carries c) s (rootFields c found operations) fun roots s' =>
      ∀ t ∈ roots.types, s'.Has t := by
  induction operations generalizing s found with
  | nil => exact .pure hfound
  | cons o operations ih =>
      obtain ⟨ho, hrest⟩ := List.cons_subset.mp hoperations
      refine .bind (operationField_has hs ho) ?_
      intro field s₁ h₁ hfield
      obtain ⟨hs₁, hx₁⟩ := h₁ hs
      have hfound₁ : ∀ t ∈ found.types, s₁.Has t := fun t ht => (hfound t ht).later hx₁
      split
      · exact ih hs₁ hrest hfound₁
      · rename_i field
        refine .bind ((keeps_storeName _).ensures s₁) ?_
        intro name s₂ h₂ _
        obtain ⟨hs₂, hx₂⟩ := h₂ hs₁
        have hroots := Roots.forall_mem_types_insert hfound₁ (hfield field rfl) o.isMutation name
        exact ih hs₂ hrest fun t ht => (hroots t ht).later hx₂

theorem Explored.complete {roots : Roots} {queryPlaces : List Nat}
    (hquery : Explored s [] (mentioned roots.query) queryPlaces) (hx : Extends s s')
    (hmutation : Explored s' queryPlaces (mentioned roots.mutation) places) :
    (Api.mk roots queryPlaces (places.drop queryPlaces.length)).Complete s' := by
  obtain ⟨rest, rfl⟩ := hmutation.before
  rw [List.drop_left]
  have hopen : ∀ q ∈ queryPlaces, Opened s' queryPlaces q := fun q hq =>
    (hquery.all_opened (by simp) q hq).later hx (List.Subset.refl _)
  have hfirst : ∀ q, q ∈ queryPlaces ↔ Reached s' (mentioned roots.query) q := by
    refine fun q => ⟨fun hq => ?_, fun hq => hq.mem hquery.all hopen⟩
    rcases hquery.reached q hq with hnone | hreached
    · cases hnone
    · exact hreached.later hx
  refine ⟨hmutation.nodup, hfirst, fun q => ?_, hmutation.all_opened hopen⟩
  have hall := hmutation.mem_iff hopen q
  have hapart := (List.nodup_append.mp hmutation.nodup).2.2
  rw [List.mem_append] at hall
  rw [← hfirst q]
  constructor
  · intro hq
    have hnot : q ∉ queryPlaces := fun hmem => hapart q hmem q hq rfl
    exact ⟨(hall.mp (.inr hq)).resolve_left hnot, hnot⟩
  · rintro ⟨hreached, hnot⟩
    exact (hall.mpr (.inr hreached)).resolve_left hnot

theorem buildApi_complete (hs : Regular c s) :
    Ensures (Carries c) s (buildApi c) fun api s' => api.Complete s' := by
  unfold buildApi
  refine .bind ((building_carries c).keeps_translateResponses.ensures s) ?_
  intro _ s₁ h₁ _
  obtain ⟨hs₁, -⟩ := h₁ hs
  refine .bind (rootFields_has hs₁ (List.Subset.refl _) (by simp [Roots.types, mentioned])) ?_
  intro roots s₂ h₂ hroots
  obtain ⟨hs₂, -⟩ := h₂ hs₁
  obtain ⟨hquery, hmutation⟩ := List.forall_mem_append.mp hroots
  dsimp only
  split
  · exact .bind (Q := fun _ _ => False) (.throw _) fun _ _ _ hnone => hnone.elim
  · refine .bind (reach_explored hs₂ List.nodup_nil hquery) ?_
    intro queryPlaces s₃ h₃ hfirst
    obtain ⟨hs₃, hx₃⟩ := h₃ hs₂
    refine .bind (reach_explored hs₃ hfirst.nodup fun t ht => (hmutation t ht).later hx₃) ?_
    intro places s₄ h₄ hsecond
    obtain ⟨-, hx₄⟩ := h₄ hs₃
    refine .get_bind ?_
    split
    · exact .throw _
    · exact .pure (hfirst.complete hx₄ hsecond)

end Reaching

/-- A graph that was built from a description is complete, and the fields of all its types were
found. -/
theorem types_of_every_api {config : Config} {fetches : Bool} {document : Value} {c : Catalog}
    {api : Api} {s : State} (h : ofDocument config fetches document buildApi = (.ok (c, api), s)) :
    api.Complete s := by
  obtain ⟨log, -, hrun⟩ := run_of_ofDocument h
  exact ((buildApi_complete (regular_atStart c config log)).of_ok hrun).2

/-- The node that is queried, and its tag. -/
example : (ofDocument default true nodesDocument buildApi).1.toOption.map
    (fun built => (built.2.queryPlaces, built.2.mutationPlaces)) = some ([0, 1], []) := by
  decide +kernel

end RestGraph.Graph
