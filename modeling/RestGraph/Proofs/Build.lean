import Mathlib.Order.Defs.Unbundled
import RestGraph.Graph.Api
import RestGraph.Proofs.Label
import RestGraph.Proofs.Registry

namespace RestGraph.Graph

/-!
# Reasoning about builds

A build is run from a state and leaves one, whether it fails or not. `Ensures R s b Q` says
that `b`, run from `s`, leaves a state that is related to `s` by `R`, and that what it gives
satisfies `Q` there. The rules follow the way in which builds are put together.
-/

namespace Build

variable {α β : Type}

@[simp] theorem run_get (s : State) : (get : Build State).run s = (.ok s, s) := rfl

theorem run_bind (b : Build α) (f : α → Build β) (s : State) :
    (b >>= f).run s =
      match b.run s with
      | (.ok a, s') => (f a).run s'
      | (.error e, s') => (.error e, s') := by
  show (ExceptT.bindCont f (b.run s).1).run (b.run s).2 = _
  rcases b.run s with ⟨_ | _, _⟩ <;> rfl

theorem run_bind_eq_ok {b : Build α} {f : α → Build β} {s s' : State} {r : β} :
    (b >>= f).run s = (.ok r, s') ↔
      ∃ a t, b.run s = (.ok a, t) ∧ (f a).run t = (.ok r, s') := by
  rw [run_bind]
  rcases b.run s with ⟨_ | _, _⟩ <;> simp

theorem run_bind_eq_error {b : Build α} {f : α → Build β} {s s' : State} {e : Failure} :
    (b >>= f).run s = (.error e, s') ↔
      b.run s = (.error e, s') ∨ ∃ a t, b.run s = (.ok a, t) ∧ (f a).run t = (.error e, s') := by
  rw [run_bind]
  rcases b.run s with ⟨_ | _, _⟩ <;> simp

theorem run_tryCatch (b : Build α) (g : Failure → Build α) (s : State) :
    (tryCatch b g).run s =
      match b.run s with
      | (.ok a, s') => (.ok a, s')
      | (.error e, s') => (g e).run s' := by
  simp only [tryCatch, tryCatchThe, MonadExceptOf.tryCatch, ExceptT.tryCatch, run, ExceptT.run,
    ExceptT.mk, StateT.run, bind, StateT.bind]
  rcases b s with ⟨_ | _, _⟩ <;> rfl

theorem eq_ok_of_toOption {result : Except Failure α} {a : α} (h : result.toOption = some a) :
    result = .ok a := by
  cases result with
  | error f => cases h
  | ok a' => exact congrArg Except.ok (Option.some.inj h)

theorem exists_run_of_ok {b : Build α} {s : State} {a : α} (h : (b.run s).1 = .ok a) :
    ∃ s', b.run s = (.ok a, s') := ⟨_, Prod.ext h rfl⟩

/-- What a build run from `s` does, whether it fails or gives a result. -/
def Ensures (R : State → State → Prop) (s : State) (b : Build α) (Q : α → State → Prop) : Prop :=
  R s (b.run s).2 ∧ ∀ a, (b.run s).1 = .ok a → Q a (b.run s).2

namespace Ensures

variable {R : State → State → Prop} {s : State} {Q : α → State → Prop}

theorem of_ok {b : Build α} (h : Ensures R s b Q) {a : α} {s' : State}
    (hrun : b.run s = (.ok a, s')) : R s s' ∧ Q a s' := by
  have hs : (b.run s).2 = s' := by rw [hrun]
  exact ⟨hs ▸ h.1, hs ▸ h.2 a (by rw [hrun])⟩

theorem weaken {b : Build α} {Q' : α → State → Prop} (h : Ensures R s b Q)
    (hQ : ∀ a s', R s s' → Q a s' → Q' a s') : Ensures R s b Q' :=
  ⟨h.1, fun a ha => hQ a _ h.1 (h.2 a ha)⟩

protected theorem get_bind {f : State → Build β} {Q' : β → State → Prop}
    (h : Ensures R s (f s) Q') : Ensures R s (get >>= f) Q' := h

theorem bind_cached? {mode : Mode} {label : Label} {f : Option (Option TypeRef) → Build β}
    {Q' : β → State → Prop} (h : Ensures R s (f (Table.get? (s.cache mode) label)) Q') :
    Ensures R s (cached? mode label >>= f) Q' := h

protected theorem tryCatch {b : Build α} {g : Failure → Failure} (h : Ensures R s b Q) :
    Ensures R s (tryCatch b fun f => MonadExcept.throw (g f)) Q := by
  unfold Ensures
  rw [run_tryCatch]
  rcases hrun : b.run s with ⟨e | a, s'⟩
  · have hs : R s s' := by simpa [hrun] using h.1
    exact ⟨hs, fun x hx => by cases hx⟩
  · obtain ⟨hs, ha⟩ := h.of_ok hrun
    refine ⟨hs, fun x hx => ?_⟩
    cases hx
    exact ha

protected theorem report (level : Level) (text : String) {Q : Unit → State → Prop}
    (h : ∀ log, R s { s with log := log } ∧ Q () { s with log := log }) :
    Ensures R s (report level text) Q :=
  ⟨(h _).1, fun _ _ => (h _).2⟩

protected theorem addType (type : NamedType) {Q : Nat → State → Prop}
    (hR : R s { s with types := s.types.push type })
    (hQ : Q s.types.size { s with types := s.types.push type }) :
    Ensures R s (addType type) Q :=
  ⟨hR, fun place hplace => by
    cases hplace
    exact hQ⟩

protected theorem setCached (mode : Mode) (key : Label) (type : Option TypeRef)
    {Q : Unit → State → Prop} (hR : R s (s.setCached mode key type))
    (hQ : Q () (s.setCached mode key type)) : Ensures R s (setCached mode key type) Q :=
  ⟨hR, fun _ _ => hQ⟩

variable [IsPreorder State R]

protected theorem pure {a : α} (h : Q a s) : Ensures R s (Pure.pure a) Q :=
  ⟨refl_of R s, fun b hb => by
    cases hb
    exact h⟩

protected theorem throw (f : Failure) : Ensures R s (MonadExcept.throw f) Q :=
  ⟨refl_of R s, fun b hb => by cases hb⟩

protected theorem bind {b : Build α} {f : α → Build β} {Q' : β → State → Prop}
    (hb : Ensures R s b Q) (hf : ∀ a s', R s s' → Q a s' → Ensures R s' (f a) Q') :
    Ensures R s (b >>= f) Q' := by
  unfold Ensures
  rw [run_bind]
  rcases hrun : b.run s with ⟨e | a, s'⟩
  · have hs : R s s' := by simpa [hrun] using hb.1
    exact ⟨hs, fun x hx => by cases hx⟩
  · obtain ⟨hs, ha⟩ := hb.of_ok hrun
    have hrest := hf a s' hs ha
    exact ⟨trans_of R hs hrest.1, hrest.2⟩

protected theorem access {x : Value.Access α} (h : ∀ a, x = .ok a → Q a s) :
    Ensures R s (access x) Q := by
  cases x with
  | error e => exact Ensures.throw _
  | ok a => exact Ensures.pure (h a rfl)

protected theorem liftExcept {x : Except Failure α} (h : ∀ a, x = .ok a → Q a s) :
    Ensures R s (liftExcept x) Q := by
  cases x with
  | error e => exact Ensures.throw _
  | ok a => exact Ensures.pure (h a rfl)

theorem bind_access {x : Value.Access α} {f : α → Build β} {Q' : β → State → Prop}
    (h : ∀ a, x = .ok a → Ensures R s (f a) Q') : Ensures R s (access x >>= f) Q' := by
  cases x with
  | error e => exact ⟨refl_of R s, nofun⟩
  | ok a => exact h a rfl

theorem bind_liftExcept {x : Except Failure α} {f : α → Build β} {Q' : β → State → Prop}
    (h : ∀ a, x = .ok a → Ensures R s (f a) Q') : Ensures R s (liftExcept x >>= f) Q' := by
  cases x with
  | error e => exact ⟨refl_of R s, nofun⟩
  | ok a => exact h a rfl

theorem bind_keyOf {v : Value} {f : Label → Build β} {Q' : β → State → Prop}
    (h : ∀ label, v.label? = some label → Ensures R s (f label) Q') :
    Ensures R s (keyOf v >>= f) Q' :=
  bind_access fun label hlabel => h label (Value.label?_of_labelOf hlabel)

end Ensures

theorem run_storeName (text : String) (s : State) :
    (storeName text).run s =
      match s.names.store text with
      | .ok (name, names) =>
          (.ok name, { s with names := names, log := s.log ++ s.names.note text name })
      | .error f => (.error (.ofStore f), s) := by
  unfold storeName
  rw [run_bind, run_get]
  cases hstore : s.names.store text <;> simp only [hstore] <;> rfl

theorem Ensures.storeName {R : State → State → Prop} [IsPreorder State R] {s : State}
    (text : String) {Q : String → State → Prop}
    (h : ∀ name names log, s.names.store text = .ok (name, names) →
      R s { s with names := names, log := log } ∧ Q name { s with names := names, log := log }) :
    Ensures R s (storeName text) Q := by
  unfold Ensures
  rw [run_storeName]
  cases hstore : s.names.store text with
  | error f => exact ⟨refl_of R s, fun name hname => by cases hname⟩
  | ok stored =>
      obtain ⟨name, names⟩ := stored
      obtain ⟨hR, hQ⟩ := h name names _ hstore
      refine ⟨hR, fun name' hname => ?_⟩
      cases hname
      exact hQ

/-! ## Builds on descriptions -/

/-- The state before a build on a description, with the log of reading it. -/
def atStart (config : Config) (log : List Record) : State :=
  { State.empty config.strictNames with log := log }

/-- A build on a description that succeeds was run on the catalog of that description. -/
theorem run_of_ofDocument {config : Config} {fetches : Bool} {document : Value} {c : Catalog}
    {s : State} {build : Catalog → Build α} {a : α}
    (h : ofDocument config fetches document build = (.ok (c, a), s)) :
    ∃ log, Catalog.ofDocument config fetches document = (.ok c, log) ∧
      (build c).run (atStart config log) = (.ok a, s) := by
  unfold ofDocument at h
  split at h
  · cases h
  · rename_i c' log hread
    have hpair : (((build c').run (atStart config log)).1.map fun a => (c', a),
        ((build c').run (atStart config log)).2) = (.ok (c, a), s) := h
    obtain ⟨hresult, hstate⟩ := Prod.mk.inj hpair
    cases hrun : ((build c').run (atStart config log)).1 with
    | error f =>
        rw [hrun] at hresult
        cases hresult
    | ok built =>
        rw [hrun] at hresult
        cases hresult
        exact ⟨log, hread, Prod.ext hrun hstate⟩

end Build

end RestGraph.Graph
