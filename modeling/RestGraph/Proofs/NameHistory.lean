import RestGraph.Proofs.Frame

namespace RestGraph.Graph

open Name

/-!
# Histories of names

Texts are stored one after the other, some of them in vain. Whatever the order and the
outcomes, the registry stays coherent and only grows, and each outcome is decided by what
is registered at that moment.
-/

/-- The state after storing the texts of some values in turn; one that cannot be stored is
passed over. -/
def storing (s : State) (originals : List Value) : State :=
  originals.foldl (fun s v => ((storeName v.plain).run s).2) s

theorem state_of_storeName_error {text : String} {s : State} {f : Failure}
    (h : ((storeName text).run s).1 = .error f) : ((storeName text).run s).2 = s := by
  rw [Build.run_storeName] at h ⊢
  cases hstore : s.names.store text with
  | error g => rfl
  | ok stored => simp [hstore] at h

theorem storeName_step (text : String) (s : State) :
    s.names.Grows ((storeName text).run s).2.names ∧
      (s.names.Coherent → ((storeName text).run s).2.names.Coherent) := by
  rw [Build.run_storeName]
  cases hstore : s.names.store text with
  | error f => exact ⟨Registry.Grows.refl s.names, id⟩
  | ok stored => exact ⟨(Registry.grows_store hstore).1, fun h => h.store hstore⟩

theorem grows_storing (s : State) (originals : List Value) :
    s.names.Grows (storing s originals).names := by
  induction originals generalizing s with
  | nil => exact Registry.Grows.refl s.names
  | cons v originals ih =>
      exact (storeName_step v.plain s).1.trans (ih ((storeName v.plain).run s).2)

theorem coherent_storing {s : State} (h : s.names.Coherent) (originals : List Value) :
    (storing s originals).names.Coherent := by
  induction originals generalizing s with
  | nil => exact h
  | cons v originals ih => exact ih ((storeName_step v.plain s).2 h)

theorem names_storeName_congr {s t : State} (h : s.names = t.names) (text : String) :
    ((storeName text).run s).2.names = ((storeName text).run t).2.names := by
  rw [Build.run_storeName, Build.run_storeName, h]
  cases t.names.store text with
  | error f => exact h
  | ok stored => rfl

theorem names_storing_congr {s t : State} (h : s.names = t.names) (originals : List Value) :
    (storing s originals).names = (storing t originals).names := by
  induction originals generalizing s t with
  | nil => exact h
  | cons v originals ih => exact ih (names_storeName_congr h v.plain)

/-- The names of the second state are those of the first with texts stored since. -/
def NamesReach (s s' : State) : Prop := ∃ originals, s'.names = (storing s originals).names

theorem namesReach_storing (s : State) (originals : List Value) :
    NamesReach s (storing s originals) := ⟨originals, rfl⟩

theorem NamesReach.namesGrow {s s' : State} (h : NamesReach s s') : NamesGrow s s' := by
  obtain ⟨originals, h⟩ := h
  exact ⟨h ▸ grows_storing s originals, fun hs => h ▸ coherent_storing hs originals⟩

/-- No build does anything to the names but store texts. -/
instance : Build.TypeFrame NamesReach where
  refl _ := ⟨[], rfl⟩
  trans s s' s'' h h' := by
    obtain ⟨originals, h⟩ := h
    obtain ⟨later, h'⟩ := h'
    refine ⟨originals ++ later, ?_⟩
    have hfold : storing s (originals ++ later) = storing (storing s originals) later :=
      List.foldl_append
    rw [h', hfold, names_storing_congr h]
  log _ _ := ⟨[], rfl⟩
  store s text name names log hstore := by
    refine ⟨[.text text], ?_⟩
    change names = ((storeName text).run s).2.names
    rw [Build.run_storeName, hstore]
  addType _ _ := ⟨[], rfl⟩
  setCached s mode _ _ := ⟨[], by cases mode <;> rfl⟩

theorem text?_of_storeName {text name : String} {s s' : State} (h : s.names.Coherent)
    (hrun : (storeName text).run s = (.ok name, s')) : s'.names.text? name = some text := by
  rw [Build.run_storeName] at hrun
  cases hstore : s.names.store text with
  | error f => simp [hstore] at hrun
  | ok stored =>
      obtain ⟨n, names⟩ := stored
      simp only [hstore, Prod.mk.injEq, Except.ok.injEq] at hrun
      obtain ⟨rfl, rfl⟩ := hrun
      exact ((h.store hstore).inverse n text).mpr (Registry.grows_store hstore).2

theorem storeName_of_lenient {s : State} (h : s.names.strict = false) (text : String) :
    (∃ name, ((storeName text).run s).1 = .ok name) ∨
      ((storeName text).run s).1 = .error (.unusableName text) ∧ sanitize? text = none := by
  have hout := Registry.store_outcome s.names text
  rw [Build.run_storeName]
  generalize s.names.store text = result at hout
  cases hout with
  | known => exact .inl ⟨_, rfl⟩
  | unusable new hnone => exact .inr ⟨rfl, hnone⟩
  | plain => exact .inl ⟨_, rfl⟩
  | taken new made held strict =>
      rw [h] at strict
      cases strict
  | numbered => exact .inl ⟨_, rfl⟩

/-- The search for a number ends, and it ends at the least one that is free. -/
theorem storeName_numbered {s : State} (h : s.names.strict = false) {text base holder : String}
    (hnew : s.names.name? text = none) (hmade : sanitize? text = some base)
    (hheld : s.names.text? base = some holder) :
    ∃ n : Nat, 2 ≤ n ∧ ((storeName text).run s).1 = .ok (base ++ toString n) ∧
      s.names.text? (base ++ toString n) = none ∧
      ∀ m : Nat, 2 ≤ m → m < n → s.names.contains (base ++ toString m) = true := by
  have hout := Registry.store_outcome s.names text
  rw [Build.run_storeName]
  generalize s.names.store text = result at hout
  cases hout with
  | known hknown => simp [hnew] at hknown
  | unusable new hnone => simp [hmade] at hnone
  | plain new made free =>
      obtain rfl : base = _ := Option.some.inj (hmade.symm.trans made)
      simp [hheld] at free
  | taken new made held strict =>
      rw [h] at strict
      cases strict
  | @numbered name _ n new made held lenient two free least =>
      obtain rfl : base = name := Option.some.inj (hmade.symm.trans made)
      exact ⟨n, two, rfl, free, least⟩

theorem storeName_taken_iff {s : State} (h : s.names.Coherent) (hstrict : s.names.strict = true)
    (text : String) :
    (∃ name holder, ((storeName text).run s).1 = .error (.nameTaken name text holder)) ↔
      s.names.name? text = none ∧ ∃ name holder, sanitize? text = some name ∧
        s.names.text? name = some holder ∧ holder ≠ text := by
  have hout := Registry.store_outcome s.names text
  rw [Build.run_storeName]
  generalize s.names.store text = result at hout
  cases hout with
  | known hknown => simp [hknown]
  | unusable new hnone => simp [hnone, Failure.ofStore]
  | plain new made free => simp [made, free]
  | @taken name holder new made held strict =>
      have hother : holder ≠ text := by
        rintro rfl
        have hname := (h.inverse name holder).mp held
        rw [new] at hname
        cases hname
      simp [Failure.ofStore, new, made, held, hother]
  | numbered new made held lenient two free least =>
      rw [hstrict] at lenient
      cases lenient

theorem coherent_storing_empty (strict : Bool) (originals : List Value) :
    (storing (.empty strict) originals).names.Coherent ∧
      (storing (.empty strict) originals).names.strict = strict :=
  ⟨coherent_storing (Registry.coherent_empty strict) originals,
    (grows_storing (.empty strict) originals).strict⟩

/-- In every state that a history of names reaches, names and texts are inverse to each
other, all names are legal and no later step changes a pair. A text that is refused leaves
the state as it was. Without strictness a text is refused only if it has no usable
character, and else gets the least free number when its name is taken; with strictness it
is refused as taken if and only if its name stands for another text. -/
theorem names_of_every_history (strict : Bool) (originals : List Value) :
    let s := storing (.empty strict) originals
    (∀ name text, s.names.text? name = some text ↔ s.names.name? text = some name) ∧
    (∀ name text, s.names.text? name = some text → legal name.toList = true) ∧
    (∀ later name text, s.names.text? name = some text →
      (storing s later).names.text? name = some text ∧
        (storing s later).names.name? text = some name) ∧
    ∀ original : Value,
      let text := original.plain
      let result := ((storeName text).run s).1
      let s' := ((storeName text).run s).2
      (∀ name, result = .ok name → s'.names.text? name = some text) ∧
      (∀ f, result = .error f → s' = s) ∧
      (strict = false →
        ((∃ name, result = .ok name) ∨
          result = .error (.unusableName text) ∧ sanitize? text = none) ∧
        ∀ base holder, s.names.name? text = none → sanitize? text = some base →
          s.names.text? base = some holder →
          ∃ n : Nat, 2 ≤ n ∧ result = .ok (base ++ toString n) ∧
            s.names.text? (base ++ toString n) = none ∧
            ∀ m : Nat, 2 ≤ m → m < n → s.names.contains (base ++ toString m) = true) ∧
      (strict = true →
        ((∃ name holder, result = .error (.nameTaken name text holder)) ↔
          s.names.name? text = none ∧ ∃ name holder, sanitize? text = some name ∧
            s.names.text? name = some holder ∧ holder ≠ text)) := by
  intro s
  obtain ⟨hcoherent, hstrict⟩ := coherent_storing_empty strict originals
  refine ⟨hcoherent.inverse, ?_, ?_, ?_⟩
  · intro name text htext
    exact (hcoherent.suits name text ((hcoherent.inverse name text).mp htext)).legal
  · intro later name text htext
    have hgrows := grows_storing s later
    exact ⟨hgrows.text name text htext,
      hgrows.name text name ((hcoherent.inverse name text).mp htext)⟩
  · intro original text result s'
    refine ⟨?_, fun f hf => state_of_storeName_error hf, ?_, ?_⟩
    · intro name hname
      exact text?_of_storeName hcoherent (Prod.ext hname rfl)
    · rintro rfl
      exact ⟨storeName_of_lenient hstrict text,
        fun base holder hnew hmade hheld => storeName_numbered hstrict hnew hmade hheld⟩
    · rintro rfl
      exact storeName_taken_iff hcoherent hstrict text

end RestGraph.Graph
