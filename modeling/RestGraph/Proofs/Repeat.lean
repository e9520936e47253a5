import RestGraph.Proofs.Cache
import RestGraph.Proofs.Failing

namespace RestGraph.Graph

open Build

/-!
# Asking for a type again

Once a translation has written a cache, nothing that is left of it can fail. So a translation
that fails leaves the caches as they were, at whatever depth it fails, and one that succeeds
finds what it made when it is asked for again.
-/

/-! ## Failures -/

/-- Nothing but the names and the log is different, and names were only added. -/
structure OnlyNamed (s s' : State) : Prop where
  outputs : s'.outputs = s.outputs
  inputs : s'.inputs = s.inputs
  types : s'.types = s.types
  names : NamesGrow s s'

instance : NameFrame OnlyNamed where
  refl s := ⟨rfl, rfl, rfl, refl_of NamesGrow s⟩
  trans _ _ _ h h' := ⟨h'.outputs.trans h.outputs, h'.inputs.trans h.inputs,
    h'.types.trans h.types, trans_of NamesGrow h.names h'.names⟩
  log s log := ⟨rfl, rfl, rfl, NameFrame.log s log⟩
  store s text name names log hstore :=
    ⟨rfl, rfl, rfl, NameFrame.store s text name names log hstore⟩

/-- If the build fails, it has changed nothing but the names and the log. -/
def FailsClean {α : Type} (b : Build α) : Prop := ∀ s, Fails (fun s' _ => OnlyNamed s s') s b

namespace FailsClean

variable {α β : Type}

theorem of_keeps {b : Build α} (h : Keeps OnlyNamed b) : FailsClean b := fun s _ _ => h s

theorem onlyNamed {b : Build α} (h : FailsClean b) {s s' : State} {f : Failure}
    (hrun : b.run s = (.error f, s')) : OnlyNamed s s' := by
  have hnamed := h s f
  rw [hrun] at hnamed
  exact hnamed rfl

/-- Before anything is written. -/
protected theorem bind {b : Build α} {k : α → Build β} (hb : Keeps OnlyNamed b)
    (hk : ∀ a, FailsClean (k a)) : FailsClean (b >>= k) := by
  intro s
  refine .bind (of_keeps hb s) (hb.ensures s) fun a s' h _ => ?_
  exact (hk a s').mono fun _ _ h' => trans_of OnlyNamed h h'

/-- What follows never fails. -/
theorem bind_total {b : Build α} {k : α → Build β} (hb : FailsClean b)
    (hk : ∀ a s, Fails (fun _ _ => False) s (k a)) : FailsClean (b >>= k) := fun s =>
  .bind_any (hb s) fun a s' => (hk a s').mono fun _ _ h => h.elim

end FailsClean

section Failures

variable {c : Catalog} {mode : Mode}

theorem failsClean_objectType (name : Value) (plan : Plan) : FailsClean (objectType name plan) := by
  refine .bind (keeps_keyOf name) fun label => .bind (keeps_cached? _ _) fun found => ?_
  split
  · exact .of_keeps (.pure _)
  · refine .bind (keeps_access _) fun text => .bind (keeps_storeName _) fun typeName => ?_
    refine .bind (keeps_checkTypeName _) fun _ => .bind (keeps_checkDescription _ _) fun _ => ?_
    exact fun s => .fileType _ _ _ _

theorem failsClean_resolveEnumeration (name : String) (literals : Value) :
    FailsClean (resolveEnumeration name literals) := by
  refine .bind Keeps.get fun s => ?_
  split
  · exact .of_keeps ((keeps_report _ _).bind fun _ => .pure _)
  · refine .bind (keeps_report _ _) fun _ => .bind (keeps_access _) fun vs => ?_
    refine .bind (keeps_liftExcept _) fun members => .bind (keeps_checkTypeName _) fun _ => ?_
    exact fun s => .fileType _ _ _ _

theorem failsClean_enumerationType (name : Value) (ms : Schema.Members) :
    FailsClean (enumerationType name ms) := by
  refine .bind (keeps_storeName _) fun typeName => ?_
  split
  · exact .of_keeps (.throw _)
  · exact (failsClean_resolveEnumeration _ _).bind_total fun _ _ => .pure _

section Deeper

variable {deeper : Deeper} (hdeeper : ∀ name schema, FailsClean (deeper name schema))

include hdeeper

/-- What a reference leads to is kept after all that could fail. -/
theorem failsClean_referenceType (name : String) :
    FailsClean (referenceType c deeper mode name) := by
  refine .bind (keeps_cached? _ _) fun found => ?_
  split
  · exact .of_keeps (.pure _)
  · exact (hdeeper _ _).bind_total fun _ _ => nofun

theorem failsClean_itemType (name items : Value) :
    FailsClean (itemType c deeper mode name items) := by
  unfold itemType
  split
  · exact .bind (keeps_access _) fun text => failsClean_referenceType hdeeper text
  · split
    · split
      · exact .of_keeps (.throw _)
      · exact .of_keeps (.pure _)
      · exact hdeeper _ _
      · exact hdeeper _ _
    · exact .of_keeps (.throw _)

theorem failsClean_listType (name : Value) (ms : Schema.Members) :
    FailsClean (listType c deeper mode name ms) := by
  unfold listType
  split
  · exact .of_keeps (.throw _)
  · exact (failsClean_itemType hdeeper name _).bind_total fun _ _ => .pure _

end Deeper

theorem failsClean_translate (name schema : Value) (links : Table String Link) (iteration : Int) :
    FailsClean (translate c mode name schema links iteration) := by
  fun_induction translate c mode name schema links iteration with
  | case1 => exact .of_keeps (.throw _)
  | case2 => exact .of_keeps (.throw _)
  | case3 => exact failsClean_objectType _ _
  | case4 => exact failsClean_enumerationType _ _
  | case5 => exact .of_keeps ((keeps_report _ _).bind fun _ => .pure _)
  | case6 name links iteration _ ms _ ih => exact failsClean_listType ih name ms
  | case7 => exact .of_keeps (.pure _)
  | case8 => exact .of_keeps (.throw _)

end Failures

/-- Whatever the state and however deep in lists and references a translation fails, and whatever
it fails with, it leaves what is kept under the keys of both modes, and the registry of names has
all that it had. -/
theorem caches_of_every_failure (c : Catalog) (s : State) (mode : Mode) (iteration : Int) :
    (∀ name schema links f s',
      (translate c mode name schema links iteration).run s = (.error f, s') → OnlyNamed s s') ∧
    ∀ name f s',
      (resolveReference c mode name iteration).run s = (.error f, s') → OnlyNamed s s' := by
  constructor
  · intro name schema links f s' hrun
    exact (failsClean_translate name schema links iteration).onlyNamed hrun
  · intro name f s' hrun
    have hclean : FailsClean (resolveReference c mode name iteration) :=
      failsClean_referenceType (fun _ _ => failsClean_translate _ _ _ _) name
    exact hclean.onlyNamed hrun

/-! ### Two shades of one name

A palette lists paints, and a paint lists shades.
-/

def listOf (name : String) : Value :=
  .map [("type", .text "array"),
    ("items", .map [("$ref", .text ("#/components/schemas/" ++ name))])]

def paletteCatalog : Catalog :=
  ((((Catalog.empty default true).define "Brush" (.map [("properties", .map [("width",
    .map [("type", .text "integer")])])])).define "Shade" (.map [("enum",
    .list [.text "light blue", .text "lightBlue"])])).define "Paint" (listOf "Shade")).define
    "Palette" (listOf "Paint")

def withBrush : State := ((resolveReference paletteCatalog .output "Brush" 0).run (.empty true)).2

def paletteMessage : String :=
  "Enum `Shade` has values `'light blue'` and `'lightBlue'` with the same name `lightBlue`"

def message? {α : Type} : Except Failure α → Option String
  | .error f => some f.message
  | .ok _ => none

theorem exists_failure_of_message? {α : Type} {b : Build α} {s : State} {message : String}
    (h : message? (b.run s).1 = some message) :
    ∃ f s', b.run s = (.error f, s') ∧ f.message = message := by
  rcases hrun : b.run s with ⟨f | a, s'⟩
  · rw [hrun] at h
    exact ⟨f, s', rfl, Option.some.inj h⟩
  · rw [hrun] at h
    cases h

theorem message_of_palette :
    message? ((resolveReference paletteCatalog .output "Palette" 0).run withBrush).1 =
      some paletteMessage := by
  decide +kernel

theorem message_of_paints :
    message? ((translate paletteCatalog .output (.text "Paints") (listOf "Paint") [] 0).run
      withBrush).1 = some paletteMessage := by
  decide +kernel

theorem kept_with_palette :
    Table.get? withBrush.outputs (.ofText "Brush") = some (some (.named 0)) ∧
      ((resolveReference paletteCatalog .output "Palette" 0).run withBrush).2.names.name? "Shade" =
        some "Shade" := by
  decide +kernel

/-- The brush stays, and the shade has its name although there is no type of it. -/
theorem palette_spares_brush :
    (∃ f s', (resolveReference paletteCatalog .output "Palette" 0).run withBrush = (.error f, s') ∧
      f.message = paletteMessage ∧ OnlyNamed withBrush s' ∧
      Table.get? s'.outputs (.ofText "Brush") = some (some (.named 0)) ∧
      s'.names.name? "Shade" = some "Shade") ∧
    ∃ f s', (translate paletteCatalog .output (.text "Paints") (listOf "Paint") [] 0).run
        withBrush = (.error f, s') ∧ f.message = paletteMessage ∧ OnlyNamed withBrush s' := by
  obtain ⟨htranslate, hresolve⟩ := caches_of_every_failure paletteCatalog withBrush .output 0
  constructor
  · obtain ⟨f, s', hrun, hmessage⟩ := exists_failure_of_message? message_of_palette
    obtain ⟨hbrush, hshade⟩ := kept_with_palette
    have hnamed := hresolve "Palette" f s' hrun
    rw [hrun] at hshade
    exact ⟨f, s', hrun, hmessage, hnamed, hnamed.outputs ▸ hbrush, hshade⟩
  · obtain ⟨f, s', hrun, hmessage⟩ := exists_failure_of_message? message_of_paints
    exact ⟨f, s', hrun, hmessage, htranslate (.text "Paints") (listOf "Paint") [] f s' hrun⟩

/-! ## Asking again -/

/-- With whatever log, the build gives `a` and changes nothing but the log. -/
def Recalls {α : Type} (s : State) (b : Build α) (a : α) : Prop :=
  ∀ log, ∃ log', b.run { s with log := log } = (.ok a, { s with log := log' })

namespace Recalls

variable {α β : Type} {s : State}

protected theorem pure (a : α) : Recalls s (Pure.pure a) a := fun log => ⟨log, rfl⟩

protected theorem bind {b : Build α} {k : α → Build β} {a : α} {x : β} (hb : Recalls s b a)
    (hk : Recalls s (k a) x) : Recalls s (b >>= k) x := by
  intro log
  obtain ⟨log₁, hfirst⟩ := hb log
  obtain ⟨log₂, hrest⟩ := hk log₁
  refine ⟨log₂, ?_⟩
  rw [run_bind, hfirst]
  exact hrest

protected theorem get_bind {k : State → Build β} {x : β}
    (h : ∀ log, Recalls s (k { s with log := log }) x) : Recalls s (get >>= k) x :=
  fun log => h log log

theorem bind_report {level : Level} {text : String} {k : Unit → Build β} {x : β}
    (h : Recalls s (k ()) x) : Recalls s (report level text >>= k) x := fun _ => h _

theorem bind_access {x : Value.Access α} {k : α → Build β} {a : α} {y : β} (hx : x = .ok a)
    (h : Recalls s (k a) y) : Recalls s (access x >>= k) y := by
  subst hx
  exact h

theorem bind_cached? {mode : Mode} {label : Label} {k : Option (Option TypeRef) → Build β}
    {found : Option TypeRef} {x : β} (hfound : Table.get? (s.cache mode) label = some found)
    (h : Recalls s (k (some found)) x) : Recalls s (cached? mode label >>= k) x := by
  have hcached : Recalls s (cached? mode label) (some found) := by
    intro log
    refine ⟨log, ?_⟩
    rw [← hfound]
    cases mode <;> rfl
  exact hcached.bind h

/-- A text that has a name keeps it. -/
protected theorem storeName {text name : String} (h : s.Named text name) :
    Recalls s (storeName text) name := by
  intro log
  have hstore : s.names.store text = .ok (name, s.names) := by
    unfold Name.Registry.store
    rw [show Table.get? s.names.names text = some name from h]
  refine ⟨log ++ s.names.note text name, ?_⟩
  rw [run_storeName]
  simp only [hstore]

end Recalls

/-- Whenever the build succeeds, it gives the same when it is run again at once, and changes
nothing but the log. -/
def Repeats {α : Type} (b : Build α) : Prop := ∀ s a s', b.run s = (.ok a, s') → Recalls s' b a

namespace Repeats

variable {α β : Type}

protected theorem pure (a : α) : Repeats (Pure.pure a : Build α) := by
  rintro s _ _ ⟨⟩
  exact .pure a

protected theorem throw (f : Failure) : Repeats (MonadExcept.throw f : Build α) := nofun

/-- What it gives can be told from what it leaves. -/
theorem of_ensures {R : State → State → Prop} {b : Build α} {Q : State → α → State → Prop}
    (h : ∀ s, Ensures R s b (Q s)) (hQ : ∀ s a s', Q s a s' → Recalls s' b a) : Repeats b :=
  fun s a s' hrun => hQ s a s' ((h s).of_ok hrun).2

protected theorem map {b : Build α} (h : Repeats b) (f : α → β) :
    Repeats (b >>= fun a => Pure.pure (f a)) := by
  intro s x s' hrun
  rw [run_bind] at hrun
  rcases hfirst : b.run s with ⟨e | a, s₁⟩
  · rw [hfirst] at hrun
    cases hrun
  · rw [hfirst] at hrun
    cases hrun
    exact (h s a _ hfirst).bind (.pure _)

theorem report_bind {level : Level} {text : String} {k : Unit → Build β} (h : Repeats (k ())) :
    Repeats (report level text >>= k) := fun _ a s' hrun => .bind_report (h _ a s' hrun)

theorem access_bind {x : Value.Access α} {k : α → Build β} (h : ∀ a, Repeats (k a)) :
    Repeats (access x >>= k) := by
  cases x with
  | error e => exact nofun
  | ok a => exact h a

end Repeats

section Successes

variable {c : Catalog} {mode : Mode}

theorem repeats_objectType (name : Value) (plan : Plan) : Repeats (objectType name plan) := by
  refine .of_ensures (R := Adds) (fun s => objectType_files fun t type label _ _ _ _ _ =>
    adds_fileType t (.composite type) plan.mode label) ?_
  rintro - found s ⟨label, hname, hfound, -⟩
  have hlabel : name.labelOf = .ok label := by
    unfold Value.labelOf
    rw [Value.label?_eq_some_iff.mpr hname]
  exact .bind_access hlabel (.bind_cached? hfound (.pure found))

theorem recalls_resolveEnumeration {s : State} {key : String} {type : TypeRef}
    (hentry : s.output? (.ofText key) = some type) (literals : Value) :
    Recalls s (resolveEnumeration key literals) type := by
  refine .get_bind fun log => ?_
  rw [show State.output? { s with log := log } (.ofText key) = some type from hentry]
  exact .bind_report (.pure type)

theorem repeats_enumerationType (c : Catalog) (mode : Mode) (name : Value) {ms : Schema.Members}
    (hshape : Schema.shape? ms = some .enumeration) : Repeats (enumerationType name ms) := by
  cases hliterals : Table.get? ms "enum" with
  | none =>
      have hfails : ∀ s, Ensures Adds s (enumerationType name ms) fun _ _ => False := by
        intro s
        unfold enumerationType
        refine .bind (named_storeName name.plain) fun key s₁ _ _ => ?_
        rw [hliterals]
        exact .throw _
      exact .of_ensures hfails fun _ _ _ h => h.elim
  | some literals =>
      have hreads : ∀ s, Ensures (Evolves c fun _ => True) s (enumerationType name ms)
          fun type s' => Reads s' ⟨mode, name, .map ms⟩ type :=
        fun s => enumerationType_reads (.given trivial) hshape
      -- The name is known now, and the type is kept under it.
      refine .of_ensures hreads ?_
      intro _ type s hread
      cases hread with
      | enumeration _ named entry =>
          unfold enumerationType
          refine .bind (.storeName named) ?_
          rw [hliterals]
          exact .bind (recalls_resolveEnumeration entry literals) (.pure _)
      | _ shape => simp [hshape] at shape

/-- Whatever is one level deeper, it is not asked for again. -/
theorem repeats_referenceType {deeper : Deeper}
    (hdeeper : DeeperReads c (fun _ => True) mode deeper) (name : String) :
    Repeats (referenceType c deeper mode name) := by
  refine .of_ensures (fun s => referenceType_reads hdeeper name) ?_
  intro _ type s hentry
  exact .bind_cached? hentry (.pure type)

section Deeper

variable {deeper : Deeper} (hdeeper : DeeperReads c (fun _ => True) mode deeper)
  (hrepeats : ∀ name schema, Repeats (deeper name schema))

include hdeeper hrepeats

theorem repeats_itemType (name items : Value) : Repeats (itemType c deeper mode name items) := by
  unfold itemType
  split
  · exact .access_bind fun text => repeats_referenceType hdeeper text
  · split
    · split
      · exact .throw _
      · exact .pure _
      · exact hrepeats _ _
      · exact hrepeats _ _
    · exact .throw _

theorem repeats_listType (name : Value) (ms : Schema.Members) :
    Repeats (listType c deeper mode name ms) := by
  unfold listType
  split
  · exact .throw _
  · exact (repeats_itemType hdeeper hrepeats name _).map _

end Deeper

theorem repeats_translate (name schema : Value) (links : Table String Link) (iteration : Int) :
    Repeats (translate c mode name schema links iteration) := by
  fun_induction translate c mode name schema links iteration with
  | case1 => exact .throw _
  | case2 => exact .throw _
  | case3 => exact repeats_objectType _ _
  | case4 name _ _ _ _ hshape => exact repeats_enumerationType c mode name hshape
  | case5 => exact .report_bind (.pure _)
  | case6 name links iteration _ ms _ ih =>
      exact repeats_listType (deeperReads_translate c _ mode _) ih name ms
  | case7 => exact .pure _
  | case8 => exact .throw _

end Successes

/-- Whatever the state, a translation that succeeds succeeds again when it is asked for at once
with the same arguments, and so does the resolution of a reference. It gives the same type, or
no type again, and changes neither the caches nor the types nor the names. -/
theorem same_type_when_asked_again (c : Catalog) (s : State) (mode : Mode) (iteration : Int) :
    (∀ name schema links type s',
      (translate c mode name schema links iteration).run s = (.ok type, s') →
        ∃ log, (translate c mode name schema links iteration).run s' =
          (.ok type, { s' with log := log })) ∧
    ∀ name type s', (resolveReference c mode name iteration).run s = (.ok type, s') →
      ∃ log, (resolveReference c mode name iteration).run s' =
        (.ok type, { s' with log := log }) := by
  constructor
  · intro name schema links type s' hrun
    exact repeats_translate name schema links iteration s type s' hrun s'.log
  · intro name type s' hrun
    have hrepeats : Repeats (resolveReference c mode name iteration) :=
      repeats_referenceType (deeperReads_translate c _ mode _) name
    exact hrepeats s type s' hrun s'.log

/-! ### Items with the title of their array

The pets that are the items are kept under the key of the array, until that is kept there.
-/

def petsCatalog : Catalog :=
  (Catalog.empty default true).define "Pets" (.map [("type", .text "array"),
    ("items", .map [("title", .text "Pets"),
      ("properties", .map [("name", .map [("type", .text "string")])])])])

/-- An array of literals, whose enumeration is named after the array. -/
def moodsSchema : Value :=
  .map [("type", .text "array"), ("items", .map [("enum", .list [.text "good mood"])])]

theorem result_of_pets :
    ((resolveReference petsCatalog .output "Pets" 0).run (.empty true)).1.toOption =
      some (some (.list (.named 0))) := by
  decide +kernel

theorem result_of_moods :
    ((translate petsCatalog .input (.text "pet moods") moodsSchema [] 0).run
      (.empty true)).1.toOption = some (some (.list (.named 0))) := by
  decide +kernel

theorem same_pets_when_asked_again :
    (∃ s' log, (resolveReference petsCatalog .output "Pets" 0).run (.empty true) =
        (.ok (some (.list (.named 0))), s') ∧
      (resolveReference petsCatalog .output "Pets" 0).run s' =
        (.ok (some (.list (.named 0))), { s' with log := log })) ∧
    ∃ s' log, (translate petsCatalog .input (.text "pet moods") moodsSchema [] 0).run
        (.empty true) = (.ok (some (.list (.named 0))), s') ∧
      (translate petsCatalog .input (.text "pet moods") moodsSchema [] 0).run s' =
        (.ok (some (.list (.named 0))), { s' with log := log }) := by
  constructor
  · obtain ⟨s', hrun⟩ := exists_run_of_ok (eq_ok_of_toOption result_of_pets)
    obtain ⟨log, hagain⟩ :=
      (same_type_when_asked_again petsCatalog (.empty true) .output 0).2 "Pets" _ s' hrun
    exact ⟨s', log, hrun, hagain⟩
  · obtain ⟨s', hrun⟩ := exists_run_of_ok (eq_ok_of_toOption result_of_moods)
    obtain ⟨log, hagain⟩ :=
      (same_type_when_asked_again petsCatalog (.empty true) .input 0).1 _ _ [] _ s' hrun
    exact ⟨s', log, hrun, hagain⟩

end RestGraph.Graph
