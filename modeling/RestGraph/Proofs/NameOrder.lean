import RestGraph.Proofs.NameHistory

namespace RestGraph.Graph

open Name Table

/-!
# Names in another order

What becomes of texts that are stored one after the other depends on their order only in the
numbers of names. A strict registry takes all of them, in whatever order, if and only if each makes
a name that no other makes; and any other registry takes those that make a name at all.
-/

/-- Each text is stored when its turn comes. -/
def StoresAll (s : State) (originals : List Value) : Prop :=
  ∀ before v after, originals = before ++ v :: after →
    ∃ name, ((storeName v.plain).run (storing s before)).1 = .ok name

/-- Some text is refused when its turn comes. -/
def Refuses (s : State) (originals : List Value) : Prop :=
  ∃ before v after f, originals = before ++ v :: after ∧
    ((storeName v.plain).run (storing s before)).1 = .error f

theorem refuses_of_not_storesAll {s : State} {originals : List Value}
    (h : ¬ StoresAll s originals) : Refuses s originals := by
  simp only [StoresAll, not_forall] at h
  obtain ⟨before, v, after, hsplit, hnot⟩ := h
  cases hresult : ((storeName v.plain).run (storing s before)).1 with
  | ok name => exact absurd ⟨name, hresult⟩ hnot
  | error f => exact ⟨before, v, after, f, hsplit, hresult⟩

/-! ## What is registered -/

theorem name?_of_storeName {s : State} {text name : String}
    (h : ((storeName text).run s).1 = .ok name) :
    ((storeName text).run s).2.names.name? text = some name := by
  rw [Build.run_storeName] at h ⊢
  cases hstore : s.names.store text with
  | error f => simp [hstore] at h
  | ok stored =>
      obtain ⟨name', names⟩ := stored
      obtain rfl : name' = name := by simpa [hstore] using h
      exact (Registry.grows_store hstore).2

/-- A text that was stored in its turn has its name at the end. -/
theorem name?_storing_of_stored {s : State} {before : List Value} {v : Value} {name : String}
    (h : ((storeName v.plain).run (storing s before)).1 = .ok name) (after : List Value) :
    (storing s (before ++ v :: after)).names.name? v.plain = some name := by
  have hrun : storing s (before ++ v :: after) =
      storing ((storeName v.plain).run (storing s before)).2 after := List.foldl_append
  rw [hrun]
  exact (grows_storing _ after).name _ _ (name?_of_storeName h)

theorem name?_of_storesAll {s : State} {originals : List Value} (h : StoresAll s originals)
    {v : Value} (hv : v ∈ originals) :
    ∃ name, (storing s originals).names.name? v.plain = some name := by
  obtain ⟨before, after, rfl⟩ := List.append_of_mem hv
  obtain ⟨name, hname⟩ := h before v after rfl
  exact ⟨name, name?_storing_of_stored hname after⟩

theorem registered_storeName {s : State} {text other name : String}
    (h : ((storeName text).run s).2.names.name? other = some name) :
    s.names.name? other = some name ∨ text = other := by
  have hout := Registry.store_outcome s.names text
  rw [Build.run_storeName] at h
  generalize s.names.store text = result at hout h
  cases hout with
  | known | unusable | taken => exact .inl h
  | plain | numbered =>
      simp only [Registry.name?_add] at h
      split at h
      · exact .inr ‹_›
      · exact .inl h

/-- Nothing is registered but what was stored. -/
theorem registered_storing {s : State} {originals : List Value} {text name : String}
    (h : (storing s originals).names.name? text = some name) :
    s.names.name? text = some name ∨ text ∈ originals.map Value.plain := by
  induction originals generalizing s with
  | nil => exact .inl h
  | cons v originals ih =>
      rw [List.map_cons, List.mem_cons]
      rcases ih h with hstep | hmem
      · rcases registered_storeName hstep with hold | rfl
        · exact .inl hold
        · exact .inr (.inl rfl)
      · exact .inr (.inr hmem)

theorem stored_of_registered {strict : Bool} {originals : List Value} {text name : String}
    (h : (storing (.empty strict) originals).names.name? text = some name) :
    text ∈ originals.map Value.plain :=
  (registered_storing h).resolve_left fun hempty => by cases hempty

theorem distinct_texts_storing {s : State} (h : Distinct s.names.texts) (originals : List Value) :
    Distinct (storing s originals).names.texts := by
  induction originals generalizing s with
  | nil => exact h
  | cons v originals ih =>
      refine ih (s := ((storeName v.plain).run s).2) ?_
      have hout := Registry.store_outcome s.names v.plain
      rw [Build.run_storeName]
      generalize s.names.store v.plain = result at hout
      cases hout with
      | known | unusable | taken => exact h
      | plain | numbered => exact h.insert _ _

/-- The registry of a history holds each of its pairs once. -/
theorem items_of_history (strict : Bool) (originals : List Value) :
    Distinct (storing (.empty strict) originals).names.items ∧
      ∀ e, e ∈ (storing (.empty strict) originals).names.items ↔
        (storing (.empty strict) originals).names.name? e.2 = some e.1 := by
  have hempty : Distinct (State.empty strict).names.texts := List.nodup_nil
  have hdistinct := distinct_texts_storing hempty originals
  have hinverse := (coherent_storing_empty strict originals).1.inverse
  refine ⟨hdistinct, fun e => ?_⟩
  rw [← hinverse e.1 e.2]
  exact ⟨(apart_iff_distinct.mpr hdistinct).get?_of_mem, mem_of_get?⟩

/-! ## Strict registries -/

/-- Each text makes a name that no other text makes. -/
def OwnNames (originals : List Value) : Prop :=
  ∀ v ∈ originals, ∃ name, sanitize? v.plain = some name ∧
    ∀ w ∈ originals, sanitize? w.plain = some name → w.plain = v.plain

theorem ownNames_of_storesAll {originals : List Value} (h : StoresAll (.empty true) originals) :
    OwnNames originals := by
  obtain ⟨hcoherent, hstrict⟩ := coherent_storing_empty true originals
  have hnamed : ∀ v ∈ originals, ∃ name, sanitize? v.plain = some name ∧
      (storing (.empty true) originals).names.name? v.plain = some name := by
    intro v hv
    obtain ⟨name, hname⟩ := name?_of_storesAll h hv
    exact ⟨name, hcoherent.name_of_strict hstrict hname, hname⟩
  intro v hv
  obtain ⟨name, hmade, hname⟩ := hnamed v hv
  refine ⟨name, hmade, fun w hw hother => ?_⟩
  obtain ⟨name', hmade', hname'⟩ := hnamed w hw
  obtain rfl : name = name' := Option.some.inj (hother.symm.trans hmade')
  exact hcoherent.text_injective hname' hname

theorem storesAll_of_ownNames {originals : List Value} (h : OwnNames originals) :
    StoresAll (.empty true) originals := by
  rintro before v after rfl
  obtain ⟨hcoherent, hstrict⟩ := coherent_storing_empty true before
  obtain ⟨name, hmade, hown⟩ := h v (by simp)
  have hout := Registry.store_outcome (storing (.empty true) before).names v.plain
  rw [Build.run_storeName]
  generalize (storing (.empty true) before).names.store v.plain = result at hout
  cases hout with
  | known | plain | numbered => exact ⟨_, rfl⟩
  | unusable _ hnone => cases hnone.symm.trans hmade
  | @taken name' holder new made held _ =>
      -- The holder was stored before and makes the same name, so that it is the text itself.
      obtain rfl : name' = name := Option.some.inj (made.symm.trans hmade)
      have hholder := (hcoherent.inverse name' holder).mp held
      obtain ⟨w, hw, rfl⟩ := List.mem_map.mp (stored_of_registered hholder)
      have hsame := hown w (by simp [hw]) (hcoherent.name_of_strict hstrict hholder)
      rw [hsame, new] at hholder
      cases hholder

theorem storesAll_iff {originals : List Value} :
    StoresAll (.empty true) originals ↔ OwnNames originals :=
  ⟨ownNames_of_storesAll, storesAll_of_ownNames⟩

theorem mem_items_of_storesAll {originals : List Value} (h : StoresAll (.empty true) originals)
    {e : String × String} :
    e ∈ (storing (.empty true) originals).names.items ↔
      e.2 ∈ originals.map Value.plain ∧ sanitize? e.2 = some e.1 := by
  obtain ⟨hcoherent, hstrict⟩ := coherent_storing_empty true originals
  rw [(items_of_history true originals).2]
  constructor
  · exact fun hname => ⟨stored_of_registered hname, hcoherent.name_of_strict hstrict hname⟩
  · rintro ⟨hmem, hmade⟩
    obtain ⟨v, hv, hplain⟩ := List.mem_map.mp hmem
    obtain ⟨name, hname⟩ := name?_of_storesAll h hv
    rw [hplain] at hname
    have hown := hcoherent.name_of_strict hstrict hname
    rwa [Option.some.inj (hmade.symm.trans hown)]

/-! ## Lenient registries -/

/-- The texts that a registry has names for, in the order in which they came. -/
def originalsOf (r : Registry) : List String := r.items.map Prod.snd

theorem mem_originalsOf_iff {strict : Bool} {originals : List Value} {text : String} :
    text ∈ originalsOf (storing (.empty strict) originals).names ↔
      ∃ name, (storing (.empty strict) originals).names.name? text = some name := by
  have hitems := (items_of_history strict originals).2
  constructor
  · intro h
    obtain ⟨e, he, rfl⟩ := List.mem_map.mp h
    exact ⟨e.1, (hitems e).mp he⟩
  · rintro ⟨name, hname⟩
    exact List.mem_map.mpr ⟨(name, text), (hitems (name, text)).mpr hname, rfl⟩

theorem nodup_originalsOf (strict : Bool) (originals : List Value) :
    (originalsOf (storing (.empty strict) originals).names).Nodup := by
  obtain ⟨hdistinct, hitems⟩ := items_of_history strict originals
  refine List.Nodup.map_on ?_ (List.Nodup.of_map Prod.fst hdistinct)
  intro e he d hd htext
  have hname := (hitems e).mp he
  rw [htext, (hitems d).mp hd] at hname
  exact Prod.ext (Option.some.inj hname).symm htext

theorem registered_iff_of_lenient {originals : List Value} {text : String} :
    (∃ name, (storing (.empty false) originals).names.name? text = some name) ↔
      text ∈ originals.map Value.plain ∧ sanitize? text ≠ none := by
  obtain ⟨hcoherent, -⟩ := coherent_storing_empty false originals
  constructor
  · rintro ⟨name, hname⟩
    obtain ⟨base, hbase, -⟩ := hcoherent.suits name text hname
    refine ⟨stored_of_registered hname, ?_⟩
    rw [hbase]
    exact Option.some_ne_none base
  · rintro ⟨hmem, hmade⟩
    obtain ⟨v, hv, rfl⟩ := List.mem_map.mp hmem
    obtain ⟨before, after, rfl⟩ := List.append_of_mem hv
    have hlenient := (coherent_storing_empty false before).2
    rcases storeName_of_lenient hlenient v.plain with ⟨name, hname⟩ | ⟨-, hnone⟩
    · exact ⟨name, name?_storing_of_stored hname after⟩
    · exact absurd hnone hmade

/-! ## Orders -/

theorem OwnNames.perm {first second : List Value} (h : first.Perm second)
    (hfirst : OwnNames first) : OwnNames second := by
  intro v hv
  obtain ⟨name, hmade, hown⟩ := hfirst v (h.mem_iff.mpr hv)
  exact ⟨name, hmade, fun w hw => hown w (h.mem_iff.mpr hw)⟩

/-- A strict registry takes texts in one order if and only if it takes them in any other, and
then it holds the same pairs, each name being the one that its text makes. A registry that is
not strict has names for the same texts after either order, and equally many names. -/
theorem names_of_every_order {first second : List Value} (h : first.Perm second) :
    ((StoresAll (.empty true) first ∧ StoresAll (.empty true) second ∧
        (storing (.empty true) first).names.items.Perm (storing (.empty true) second).names.items ∧
        ∀ e ∈ (storing (.empty true) first).names.items, sanitize? e.2 = some e.1) ∨
      (Refuses (.empty true) first ∧ Refuses (.empty true) second)) ∧
    (originalsOf (storing (.empty false) first).names).Perm
      (originalsOf (storing (.empty false) second).names) ∧
    (storing (.empty false) first).names.size = (storing (.empty false) second).names.size := by
  have hplain : (first.map Value.plain).Perm (second.map Value.plain) := h.map _
  have hlenient : (originalsOf (storing (.empty false) first).names).Perm
      (originalsOf (storing (.empty false) second).names) := by
    rw [List.perm_ext_iff_of_nodup (nodup_originalsOf false first) (nodup_originalsOf false second)]
    intro text
    rw [mem_originalsOf_iff, mem_originalsOf_iff, registered_iff_of_lenient,
      registered_iff_of_lenient, hplain.mem_iff]
  have hstrict : StoresAll (.empty true) first ↔ StoresAll (.empty true) second := by
    rw [storesAll_iff, storesAll_iff]
    exact ⟨OwnNames.perm h, OwnNames.perm h.symm⟩
  refine ⟨?_, hlenient, ?_⟩
  · by_cases hfirst : StoresAll (.empty true) first
    · have hsecond := hstrict.mp hfirst
      have hnodup : ∀ originals, (storing (.empty true) originals).names.items.Nodup :=
        fun originals => List.Nodup.of_map Prod.fst (items_of_history true originals).1
      refine .inl ⟨hfirst, hsecond, ?_, fun e he => ((mem_items_of_storesAll hfirst).mp he).2⟩
      rw [List.perm_ext_iff_of_nodup (hnodup first) (hnodup second)]
      intro e
      rw [mem_items_of_storesAll hfirst, mem_items_of_storesAll hsecond, hplain.mem_iff]
    · exact .inr ⟨refuses_of_not_storesAll hfirst,
        refuses_of_not_storesAll fun hsecond => hfirst (hstrict.mpr hsecond)⟩
  · simpa [originalsOf, Registry.items, Registry.size] using hlenient.length_eq

/-- Two of the texts make one name, and one makes none. -/
def petTexts : List Value :=
  [.text "pet-id", .int 200, .text "pet-id", .text "pet id", .text "-"]

theorem petTexts_refused : ¬ StoresAll (.empty true) petTexts := by
  intro hall
  obtain ⟨name, hname⟩ := hall [.text "pet-id", .int 200, .text "pet-id"] (.text "pet id")
    [.text "-"] rfl
  have hrefused : ((storeName (Value.text "pet id").plain).run (storing (.empty true)
      [.text "pet-id", .int 200, .text "pet-id"])).1.toOption = none := by
    decide +kernel
  rw [hname] at hrefused
  cases hrefused

theorem items_of_petTexts :
    (storing (.empty false) petTexts).names.items =
        [("petId", "pet-id"), ("_200", "200"), ("petId2", "pet id")] ∧
      (storing (.empty false) petTexts.reverse).names.items =
        [("petId", "pet id"), ("petId2", "pet-id"), ("_200", "200")] := by
  decide +kernel

theorem names_of_petTexts_backwards :
    petTexts.Perm petTexts.reverse ∧
    Refuses (.empty true) petTexts ∧ Refuses (.empty true) petTexts.reverse ∧
    ["pet-id", "200", "pet id"].Perm ["pet id", "pet-id", "200"] ∧
    (storing (.empty false) petTexts.reverse).names.size = 3 := by
  have hperm : petTexts.Perm petTexts.reverse := petTexts.reverse_perm.symm
  obtain ⟨hstrict, hsame, hsize⟩ := names_of_every_order hperm
  obtain ⟨hitems, hbackwards⟩ := items_of_petTexts
  rcases hstrict with ⟨hall, -⟩ | ⟨hfirst, hsecond⟩
  · exact absurd hall petTexts_refused
  · refine ⟨hperm, hfirst, hsecond, ?_, ?_⟩
    · rw [originalsOf, originalsOf, hitems, hbackwards] at hsame
      exact hsame
    · rw [← hsize, Registry.size, ← Registry.items, hitems]
      rfl

end RestGraph.Graph
