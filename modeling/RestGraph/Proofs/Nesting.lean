import RestGraph.Proofs.Build

namespace RestGraph.Graph

open Build

/-!
# How deep translations nest

A translation of the items of an array, or of what they refer to, is nested in that of the
array. Here the translation is written once more, counting the ones that are nested in it.
Without the count it is the same translation, and the count stays below the levels that are
left, whatever refers to what.
-/

/-- A build that counts. -/
abbrev Counted := ExceptT Failure (StateM (State × Nat))

namespace Counted

variable {α β : Type}

/-- The result with the state and the count after it. -/
def run (b : Counted α) (s : State) (n : Nat) : Except Failure α × State × Nat :=
  StateT.run (m := Id) (ExceptT.run b) (s, n)

/-- A build without nested translations. -/
def uncounted (b : Build α) : Counted α :=
  ExceptT.mk fun (s, n) => ((b.run s).1, (b.run s).2, n)

/-- One more nested translation. -/
def nested (b : Counted α) : Counted α :=
  ExceptT.mk fun (s, n) => b.run s (n + 1)

/-! ## The counting translation -/

/-- How a named schema one level deeper becomes a type. -/
abbrev Deeper := Value → Value → Counted (Option TypeRef)

def referenceType (c : Catalog) (deeper : Counted.Deeper) (mode : Mode) (name : String) :
    Counted (Option TypeRef) := do
  let key := referenceKey mode name
  match ← uncounted (cached? mode (.ofText key)) with
  | some type => return type
  | none => do
      let type ← deeper (.text key) (c.schema mode key)
      uncounted (setCached mode (.ofText key) type)
      return type

def itemType (c : Catalog) (deeper : Counted.Deeper) (mode : Mode) (name items : Value) :
    Counted (Option TypeRef) :=
  match Schema.target? items with
  | some target => do
      let text ← uncounted (access (Schema.referenceName target))
      referenceType c deeper mode text
  | none =>
      match items with
      | .map s =>
          match Schema.shape? s with
          | none => throw (.shapeless (Value.memberOr s "title" name) items)
          | some .scalar => pure (scalarType s)
          | some .enumeration =>
              deeper (Value.memberOr s "title" (.text (name.plain ++ "Items"))) items
          | some _ => deeper (Value.memberOr s "title" (.text itemsName)) items
      | _ => throw (.missingSchema name items)

def listType (c : Catalog) (deeper : Counted.Deeper) (mode : Mode) (name : Value)
    (s : Schema.Members) : Counted (Option TypeRef) :=
  match Table.get? s "items" with
  | none => throw (.missingItems name)
  | some items => do return (← itemType c deeper mode name items).map .list

def translate (c : Catalog) (mode : Mode) (name schema : Value) (links : Table String Link)
    (iteration : Int) : Counted (Option TypeRef) :=
  if _h : c.config.limit.count ≤ iteration then throw (.tooDeep name c.config.limit)
  else
    match schema with
    | .map s =>
        match Schema.shape? s with
        | none => throw (.shapeless name schema)
        | some .object => uncounted (objectType name ⟨s, links, mode, iteration⟩)
        | some .enumeration => uncounted (enumerationType name s)
        | some .emptyObject => do
            uncounted (report .warning ("Skipped creation of (input) object type `" ++
              name.plain ++ "`, which has no properties"))
            return none
        | some .array =>
            listType c (fun n items => nested (translate c mode n items [] (iteration + 1))) mode
              name s
        | some .scalar => pure (scalarType s)
    | _ => throw (.missingSchema name schema)
termination_by (c.config.limit.count - iteration).toNat
decreasing_by omega

/-! ## What is counted -/

theorem run_bind (b : Counted α) (f : α → Counted β) (s : State) (n : Nat) :
    (b >>= f).run s n =
      match b.run s n with
      | (.ok a, s', n') => (f a).run s' n'
      | (.error e, s', n') => (.error e, s', n') := by
  show (ExceptT.bindCont f (b.run s n).1).run (b.run s n).2 = _
  rcases b.run s n with ⟨_ | _, _, _⟩ <;> rfl

/-- Without its count, `b` is the other build; it adds at most so many to the count. -/
structure Traces (b : Counted α) (plain : Build α) (bound : Nat) : Prop where
  erases : ∀ s n, ((b.run s n).1, (b.run s n).2.1) = plain.run s
  bounded : ∀ s n, (b.run s n).2.2 ≤ n + bound

namespace Traces

protected theorem uncounted (b : Build α) : Traces (uncounted b) b 0 :=
  ⟨fun _ _ => rfl, fun _ _ => Nat.le_refl _⟩

protected theorem pure (a : α) : Traces (Pure.pure a) (Pure.pure a) 0 :=
  ⟨fun _ _ => rfl, fun _ _ => Nat.le_refl _⟩

protected theorem throw (f : Failure) :
    Traces (MonadExcept.throw f : Counted α) (MonadExcept.throw f) 0 :=
  ⟨fun _ _ => rfl, fun _ _ => Nat.le_refl _⟩

theorem mono {b : Counted α} {plain : Build α} {k l : Nat} (h : Traces b plain k) (hkl : k ≤ l) :
    Traces b plain l :=
  ⟨h.erases, fun s n => (h.bounded s n).trans (Nat.add_le_add_left hkl n)⟩

protected theorem nested {b : Counted α} {plain : Build α} {k : Nat} (h : Traces b plain k) :
    Traces (nested b) plain (k + 1) := by
  refine ⟨fun s n => h.erases s (n + 1), fun s n => ?_⟩
  have hbound := h.bounded s (n + 1)
  show (b.run s (n + 1)).2.2 ≤ n + (k + 1)
  omega

protected theorem bind {b : Counted α} {plain : Build α} {f : α → Counted β} {g : α → Build β}
    {k l : Nat} (hb : Traces b plain k) (hf : ∀ a, Traces (f a) (g a) l) :
    Traces (b >>= f) (plain >>= g) (k + l) := by
  constructor
  · intro s n
    rw [run_bind, Build.run_bind, ← hb.erases s n]
    rcases b.run s n with ⟨e | a, s', n'⟩
    · rfl
    · exact (hf a).erases s' n'
  · intro s n
    rw [run_bind]
    have hfirst := hb.bounded s n
    rcases hrun : b.run s n with ⟨e | a, s', n'⟩
    · have hstopped : n' ≤ n + k := by simpa [hrun] using hfirst
      exact hstopped.trans (Nat.add_le_add_left (Nat.le_add_right k l) n)
    · have hstep : n' ≤ n + k := by simpa [hrun] using hfirst
      have hrest := (hf a).bounded s' n'
      dsimp only
      omega

end Traces

/-! ## The levels that are left -/

section Bounds

variable {c : Catalog} {deeper : Counted.Deeper} {plain : Graph.Deeper} {k : Nat}

theorem referenceType_traces (h : ∀ name schema, Traces (deeper name schema) (plain name schema) k)
    (mode : Mode) (name : String) :
    Traces (referenceType c deeper mode name) (Graph.referenceType c plain mode name) k := by
  refine (Traces.bind (.uncounted _) fun found => ?_).mono (Nat.le_of_eq (Nat.zero_add k))
  cases found with
  | some type => exact (Traces.pure type).mono (Nat.zero_le k)
  | none => exact (h _ _).bind fun type => (Traces.uncounted _).bind fun _ => .pure type

/-- At most one type one level deeper is asked for. -/
theorem itemType_traces (h : ∀ name schema, Traces (deeper name schema) (plain name schema) k)
    (mode : Mode) (name items : Value) :
    Traces (itemType c deeper mode name items) (Graph.itemType c plain mode name items) k := by
  unfold itemType Graph.itemType
  cases Schema.target? items with
  | some target =>
      refine (Traces.bind (.uncounted _) fun text => ?_).mono (Nat.le_of_eq (Nat.zero_add k))
      exact referenceType_traces h mode text
  | none =>
      cases items with
      | map s =>
          dsimp only
          cases Schema.shape? s with
          | none => exact (Traces.throw _).mono (Nat.zero_le k)
          | some shape =>
              cases shape with
              | scalar => exact (Traces.pure _).mono (Nat.zero_le k)
              | _ => exact h _ _
      | _ => exact (Traces.throw _).mono (Nat.zero_le k)

theorem listType_traces (h : ∀ name schema, Traces (deeper name schema) (plain name schema) k)
    (mode : Mode) (name : Value) (s : Schema.Members) :
    Traces (listType c deeper mode name s) (Graph.listType c plain mode name s) k := by
  unfold listType Graph.listType
  cases Table.get? s "items" with
  | none => exact (Traces.throw _).mono (Nat.zero_le k)
  | some items => exact (itemType_traces h mode name items).bind fun _ => .pure _

/-- The induction is on the levels that are left: one of them is taken for the next translation,
and there is none when none is left. -/
theorem translate_traces (c : Catalog) (mode : Mode) (name schema : Value)
    (links : Table String Link) (iteration : Int) :
    Traces (translate c mode name schema links iteration)
      (Graph.translate c mode name schema links iteration)
      (c.config.limit.count - iteration).toNat := by
  induction hlevels : (c.config.limit.count - iteration).toNat using Nat.strong_induction_on
    generalizing name schema links iteration with
  | _ levels ih =>
      subst hlevels
      unfold translate Graph.translate
      have hleast := Nat.zero_le (c.config.limit.count - iteration).toNat
      by_cases hlevel : c.config.limit.count ≤ iteration
      · rw [dif_pos hlevel, dif_pos hlevel]
        exact (Traces.throw _).mono hleast
      · rw [dif_neg hlevel, dif_neg hlevel]
        cases schema with
        | map s =>
            dsimp only
            cases Schema.shape? s with
            | none => exact (Traces.throw _).mono hleast
            | some shape =>
                cases shape with
                | object => exact (Traces.uncounted _).mono hleast
                | enumeration => exact (Traces.uncounted _).mono hleast
                | emptyObject => exact (Traces.bind (.uncounted _) fun _ => .pure _).mono hleast
                | scalar => exact (Traces.pure _).mono hleast
                | array =>
                    have hless : (c.config.limit.count - (iteration + 1)).toNat + 1 =
                        (c.config.limit.count - iteration).toNat := by omega
                    rw [← hless]
                    refine listType_traces (fun n items => ?_) mode name s
                    exact (ih _ (by omega) n items [] (iteration + 1) rfl).nested
        | _ => exact (Traces.throw _).mono hleast

end Bounds

end Counted

/-- Every translation makes at most as many nested ones as levels are left, also where arrays
refer to each other. -/
theorem nested_le (c : Catalog) (mode : Mode) (name schema : Value) (links : Table String Link)
    (iteration : Int) (s : State) :
    ∃ nested : Nat, (Counted.translate c mode name schema links iteration).run s 0 =
        (((translate c mode name schema links iteration).run s).1,
          ((translate c mode name schema links iteration).run s).2, nested) ∧
      (nested : Int) ≤ max 0 (c.config.limit.count - iteration) := by
  have htraces := Counted.translate_traces c mode name schema links iteration
  let counted := (Counted.translate c mode name schema links iteration).run s 0
  refine ⟨counted.2.2, ?_, ?_⟩
  · rw [← htraces.erases s 0]
  · have hbound : counted.2.2 ≤ 0 + _ := htraces.bounded s 0
    omega

end RestGraph.Graph
