import RestGraph.Proofs.Evolution
import RestGraph.Proofs.Settled

namespace RestGraph.Graph

open Build

/-!
# How builds fail

`Fails E s b` says that `b`, run from `s`, fails if at all with a failure that `E` allows in the
state that it leaves. The rules follow the way in which builds are put together. What never fails
does so whatever `E` allows.
-/

/-- If the build fails, then with a failure that is possible in the state that it leaves. -/
def Fails {α : Type} (E : State → Failure → Prop) (s : State) (b : Build α) : Prop :=
  ∀ f, (b.run s).1 = .error f → E (b.run s).2 f

namespace Fails

variable {α β : Type} {E : State → Failure → Prop} {s : State}

/-! ## Rules -/

protected theorem pure (a : α) : Fails E s (Pure.pure a : Build α) := nofun

protected theorem throw {f : Failure} (h : E s f) :
    Fails E s (MonadExcept.throw f : Build α) := by
  rintro _ ⟨⟩
  exact h

protected theorem bind {R : State → State → Prop} {b : Build α} {k : α → Build β}
    {Q : α → State → Prop} (hb : Fails E s b) (he : Ensures R s b Q)
    (hk : ∀ a s', R s s' → Q a s' → Fails E s' (k a)) : Fails E s (b >>= k) := by
  intro f hf
  rw [run_bind] at hf ⊢
  rcases hrun : b.run s with ⟨e | a, s'⟩
  · rw [hrun] at hf
    obtain rfl := Except.error.inj hf
    simpa [hrun] using hb e (by rw [hrun])
  · rw [hrun] at hf
    obtain ⟨hs', ha⟩ := he.of_ok hrun
    exact hk a s' hs' ha f hf

/-- Nothing need be known of the state that is left where no failure depends on it. -/
theorem bind_any {b : Build α} {k : α → Build β} (hb : Fails E s b)
    (hk : ∀ a s', Fails E s' (k a)) : Fails E s (b >>= k) := by
  have hall : Ensures (fun _ _ => True) s b fun _ _ => True := ⟨trivial, fun _ _ => trivial⟩
  exact .bind hb hall fun a s' _ _ => hk a s'

theorem bind_still {b : Build α} {k : α → Build β} (hb : Fails E s b) (hkeeps : Keeps Eq b)
    (hk : ∀ a, Fails E s (k a)) : Fails E s (b >>= k) := by
  have hstill : Ensures Eq s b fun _ _ => True := hkeeps.ensures s
  refine .bind hb hstill ?_
  rintro a s' rfl -
  exact hk a

/-- A build whose outcome is known and no failure. -/
theorem bind_run {b : Build α} {k : α → Build β} {a : α} {s' : State}
    (hrun : b.run s = (.ok a, s')) (hk : Fails E s' (k a)) : Fails E s (b >>= k) := by
  intro f hf
  rw [run_bind, hrun] at hf ⊢
  exact hk f hf

protected theorem get_bind {k : State → Build β} (h : Fails E s (k s)) :
    Fails E s (get >>= k) := h

theorem bind_cached? {mode : Mode} {label : Label} {k : Option (Option TypeRef) → Build β}
    (h : Fails E s (k (Table.get? (s.cache mode) label))) :
    Fails E s (cached? mode label >>= k) := h

theorem bind_report {level : Level} {text : String} {k : Unit → Build β}
    (h : ∀ log, Fails E { s with log := log } (k ())) : Fails E s (report level text >>= k) :=
  h _

theorem bind_access {x : Value.Access α} {k : α → Build β} (hx : ∃ a, x = .ok a)
    (h : ∀ a, x = .ok a → Fails E s (k a)) : Fails E s (access x >>= k) := by
  obtain ⟨a, rfl⟩ := hx
  exact h a rfl

theorem bind_liftExcept {x : Except Failure α} {k : α → Build β}
    (hx : ∀ f, x = .error f → E s f) (h : ∀ a, x = .ok a → Fails E s (k a)) :
    Fails E s (liftExcept x >>= k) := by
  cases x with
  | error f =>
      rintro _ ⟨⟩
      exact hx f rfl
  | ok a => exact h a rfl

/-- A failure is passed on with what it was the cause of. -/
protected theorem tryCatch {b : Build α} (h : Fails E s b) (g : Failure → Failure) :
    Fails (fun s f => ∃ cause, E s cause ∧ f = g cause) s
      (tryCatch b fun cause => MonadExcept.throw (g cause)) := by
  intro f hf
  rw [run_tryCatch] at hf ⊢
  rcases hrun : b.run s with ⟨cause | a, s'⟩
  · rw [hrun] at hf
    have hcause : E s' cause := by simpa [hrun] using h cause (by rw [hrun])
    exact ⟨cause, hcause, (Except.error.inj hf).symm⟩
  · rw [hrun] at hf
    cases hf

protected theorem mono {E' : State → Failure → Prop} {b : Build α} (h : Fails E s b)
    (hE : ∀ s f, E s f → E' s f) : Fails E' s b := fun f hf => hE _ f (h f hf)

/-! ## Steps of translations -/

/-- Filing a type never fails. -/
protected theorem fileType (type : NamedType) (mode : Mode) (label : Label) (result : Nat → α) :
    Fails E s (do
      let place ← addType type
      setCached mode label (some (.named place))
      return result place) := nofun

protected theorem checkDescription (described : Described) {v : Value} (h : Describes v) :
    Fails E s (checkDescription described v) := by
  rcases h with rfl | ⟨text, rfl⟩ <;> exact nofun

theorem bind_checkDescription (described : Described) {v : Value} {k : Option String → Build β}
    (h : Describes v) (hk : ∀ d, Fails E s (k d)) :
    Fails E s (checkDescription described v >>= k) :=
  .bind_still (.checkDescription described h) (keeps_checkDescription described v) hk

/-! ## Arguments -/

protected theorem presets (link : String) (found : Table String String)
    (parameters : List (Label × Value)) :
    Fails E s (presets link found parameters) := by
  induction parameters generalizing s found with
  | nil => exact .pure _
  | cons e parameters ih =>
      unfold presets
      split
      · split
        · exact ih _
        · exact ih _
      · exact .bind_report fun _ => ih _

/-- An argument for a scalar, with a description that can be read, is defined. -/
protected theorem argumentDefs {found : List (String × Argument)}
    (h : ∀ e ∈ found, e.2.type.place? = none ∧ Describes e.2.description) :
    Fails E s (argumentDefs found) := by
  induction found with
  | nil => exact .pure _
  | cons e found ih =>
      obtain ⟨⟨hscalar, hdescribes⟩, hrest⟩ := List.forall_mem_cons.mp h
      have hinput : Fails E s (checkInput .argumentNotInput e.2.type) := by
        refine .get_bind ?_
        rw [isInput_of_scalar hscalar]
        exact .pure ()
      have hdef : Fails E s e.2.def? := by
        refine .bind_still hinput (keeps_checkInput _ _) fun _ => ?_
        exact bind_checkDescription _ hdescribes fun _ => .pure _
      have hkeeps : Keeps Eq e.2.def? := (keeps_checkInput _ _).bind fun _ =>
        (keeps_checkDescription _ _).bind fun _ => .pure _
      refine .bind_still hdef hkeeps fun d => ?_
      exact .bind_any (ih hrest) fun _ _ => .pure _

end Fails

end RestGraph.Graph
