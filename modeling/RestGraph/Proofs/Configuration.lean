import RestGraph.Proofs.Options
import RestGraph.Proofs.Table

namespace RestGraph.Config

/-!
# Which values are configurations

A value comes to a configuration, to a fault, or to a value that has to be written and cannot be.
That is one that the message about the first misfit would show, or an entry that becomes a text.
The options are checked one after the other and so are the entries of a table, so it is always
the first of them with a fault that decides.
-/

variable {env : Environment} {ms : Table String Value}

/-! ## Acceptance -/

/-- Every value is a text, a number or a truth value, every number can be written, and every text
can be expanded. -/
def TakesEntries (env : Environment) (v : Value) : Prop :=
  ∃ es, v = .map es ∧ ∀ e ∈ es, isEntry e.2 = true ∧ e.2.isWritable = true ∧
    ∀ s, e.2 = .text s → ∃ r, Expands env s.toList r

/-- Options are known, what is present has its type and its least value, numbers of entries can be
written, and texts can be expanded. -/
structure Accepted (env : Environment) (ms : Table String Value) : Prop where
  known : Known ms
  baseUrl : ∀ v, Table.get? ms "base-url" = some v →
    ∃ s, v = .text s ∧ ∃ r, Expands env s.toList r
  limit : ∀ v, Table.get? ms "max-iterations" = some v → ∃ n, IsWhole v n ∧ 1 ≤ n
  strictNames : ∀ v, Table.get? ms "strict-names" = some v → ∃ b, v = .bool b
  failOnCollision : ∀ v, Table.get? ms "fail-on-name-collision" = some v → ∃ b, v = .bool b
  headers : ∀ v, Table.get? ms "headers" = some v → TakesEntries env v
  query : ∀ v, Table.get? ms "qs" = some v → TakesEntries env v

theorem exists_gives_iff {α : Type} {name : String} {default : α} {Reads : Value → α → Prop} :
    (∃ a, Gives ms name default Reads a) ↔
      ∀ v, Table.get? ms name = some v → ∃ a, Reads v a := by
  unfold Gives
  cases Table.get? ms name with
  | none => simp
  | some v => simp

theorem exists_becomes_iff {v : Value} :
    (∃ r, Becomes env v r) ↔
      v.isWritable = true ∧ ∀ s, v = .text s → ∃ r, Expands env s.toList r := by
  constructor
  · rintro ⟨r, h⟩
    cases h with
    | @text s r h =>
        refine ⟨rfl, ?_⟩
        rintro _ ⟨rfl⟩
        exact ⟨_, h⟩
    | plain h hwritten =>
        refine ⟨hwritten, ?_⟩
        rintro s rfl
        cases h
  · rintro ⟨hwritten, h⟩
    cases htext : v.text? with
    | none => exact ⟨_, .plain htext hwritten⟩
    | some s =>
        obtain rfl := Value.text?_eq_some_iff.mp htext
        obtain ⟨r, hr⟩ := h s rfl
        exact ⟨String.ofList r, .text (by rwa [String.toList_ofList])⟩

theorem exists_forall₂_iff {α β : Type} {R : α → β → Prop} {as : List α} :
    (∃ bs, List.Forall₂ R as bs) ↔ ∀ a ∈ as, ∃ b, R a b := by
  induction as with
  | nil => simp
  | cons a as ih =>
      rw [List.forall_mem_cons, ← ih]
      constructor
      · rintro ⟨_, h⟩
        cases h with
        | cons hb hbs => exact ⟨⟨_, hb⟩, _, hbs⟩
      · rintro ⟨⟨b, hb⟩, bs, hbs⟩
        exact ⟨b :: bs, .cons hb hbs⟩

theorem exists_readsEntries_iff {v : Value} :
    (∃ t, ReadsEntries env v t) ↔ TakesEntries env v := by
  have hbecomes : ∀ e : String × Value,
      (∃ e' : String × String, e'.1 = e.1 ∧ Becomes env e.2 e'.2) ↔
        e.2.isWritable = true ∧ ∀ s, e.2 = .text s → ∃ r, Expands env s.toList r := by
    intro e
    rw [← exists_becomes_iff]
    constructor
    · rintro ⟨e', -, h⟩
      exact ⟨_, h⟩
    · rintro ⟨r, h⟩
      exact ⟨(e.1, r), rfl, h⟩
  constructor
  · rintro ⟨t, es, rfl, hes, h⟩
    refine ⟨es, rfl, fun e he => ⟨hes e he, (hbecomes e).mp ?_⟩⟩
    exact exists_forall₂_iff.mp ⟨t, h⟩ e he
  · rintro ⟨es, rfl, h⟩
    obtain ⟨t, ht⟩ := exists_forall₂_iff.mpr fun e he => (hbecomes e).mpr (h e he).2
    exact ⟨t, es, rfl, fun e he => (h e he).1, ht⟩

theorem exists_readsUrl_iff {v : Value} :
    (∃ url, ReadsUrl env v url) ↔ ∃ s, v = .text s ∧ ∃ r, Expands env s.toList r := by
  constructor
  · rintro ⟨url, s, r, rfl, h, -⟩
    exact ⟨s, rfl, _, h⟩
  · rintro ⟨s, rfl, r, h⟩
    exact ⟨_, s, String.ofList r, rfl, by rwa [String.toList_ofList], rfl⟩

theorem exists_readsLimit_iff {v : Value} :
    (∃ limit, ReadsLimit v limit) ↔ ∃ n, IsWhole v n ∧ 1 ≤ n := by
  constructor
  · rintro ⟨limit, hwhole, hleast, -⟩
    exact ⟨limit.count, hwhole, by omega⟩
  · rintro ⟨n, hwhole, hn⟩
    exact ⟨_, (readsLimit_iff (.count hwhole hn)).mp rfl⟩

theorem exists_loads_iff : (∃ c, Loads env ms c) ↔ Accepted env ms := by
  constructor
  · rintro ⟨c, h⟩
    refine ⟨h.known, ?_, ?_, ?_, ?_, ?_, ?_⟩
    · intro v hv
      exact exists_readsUrl_iff.mp (exists_gives_iff.mp ⟨_, h.baseUrl⟩ v hv)
    · intro v hv
      exact exists_readsLimit_iff.mp (exists_gives_iff.mp ⟨_, h.limit⟩ v hv)
    · exact exists_gives_iff.mp ⟨_, h.strictNames⟩
    · exact exists_gives_iff.mp ⟨_, h.failOnCollision⟩
    · intro v hv
      exact exists_readsEntries_iff.mp (exists_gives_iff.mp ⟨_, h.headers⟩ v hv)
    · intro v hv
      exact exists_readsEntries_iff.mp (exists_gives_iff.mp ⟨_, h.query⟩ v hv)
  · intro h
    obtain ⟨url, hurl⟩ := exists_gives_iff.mpr fun v hv => exists_readsUrl_iff.mpr (h.baseUrl v hv)
    obtain ⟨headers, hheaders⟩ :=
      exists_gives_iff.mpr fun v hv => exists_readsEntries_iff.mpr (h.headers v hv)
    obtain ⟨query, hquery⟩ :=
      exists_gives_iff.mpr fun v hv => exists_readsEntries_iff.mpr (h.query v hv)
    obtain ⟨limit, hlimit⟩ :=
      exists_gives_iff.mpr fun v hv => exists_readsLimit_iff.mpr (h.limit v hv)
    obtain ⟨strict, hstrict⟩ := exists_gives_iff.mpr h.strictNames
    obtain ⟨fail, hfail⟩ := exists_gives_iff.mpr h.failOnCollision
    exact ⟨⟨url, headers, query, limit, strict, fail⟩,
      ⟨h.known, hurl, hheaders, hquery, hlimit, hstrict, hfail⟩⟩

/-! ## Values that cannot be written -/

/-- The first of a list with a property. -/
inductive FirstWith {α : Type} (P : α → Prop) : List α → α → Prop where
  | head {a : α} {as : List α} (h : P a) : FirstWith P (a :: as) a
  | tail {b a : α} {as : List α} (hb : ¬P b) (h : FirstWith P as a) : FirstWith P (b :: as) a

@[simp] theorem not_firstWith_nil {α : Type} {P : α → Prop} {a : α} : ¬FirstWith P [] a := nofun

theorem firstWith_cons_iff {α : Type} {P : α → Prop} {b a : α} {as : List α} :
    FirstWith P (b :: as) a ↔ (P b ∧ a = b) ∨ (¬P b ∧ FirstWith P as a) := by
  constructor
  · rintro (h | ⟨hb, h⟩)
    · exact .inl ⟨h, rfl⟩
    · exact .inr ⟨hb, h⟩
  · rintro (⟨h, rfl⟩ | ⟨hb, h⟩)
    · exact .head h
    · exact .tail hb h

theorem FirstWith.mem {α : Type} {P : α → Prop} {a : α} {as : List α} (h : FirstWith P as a) :
    a ∈ as := by
  induction h with
  | head h => exact .head _
  | tail _ _ ih => exact .tail _ ih

theorem shown_eq_unwritable_iff {v : Value} {fault : Value → Fault}
    (h : ∀ v, fault v ≠ .unwritable) :
    Fault.shown v fault = .unwritable ↔ v.isWritable = false := by
  unfold Fault.shown
  split <;> simp_all

/-- The message about a value of an option shows the value itself. -/
def Whole (kind : OptionKind) (v : Value) : Prop := kind = .entries → ∀ es, v ≠ .map es

/-- The value that the message about an option shows: the option's own, or the first of its
entries that is neither text nor number nor truth value. -/
inductive Misfit : OptionKind → Value → Value → Prop where
  | option {kind : OptionKind} {v : Value} (whole : Whole kind v) (misfit : ¬Fits kind v) :
      Misfit kind v v
  | entry {es : List (String × Value)} {e : String × Value}
      (first : FirstWith (fun e => isEntry e.2 = false) es e) : Misfit .entries (.map es) e.2

theorem misfit_option_iff {kind : OptionKind} {v w : Value} (whole : Whole kind v) :
    Misfit kind v w ↔ ¬Fits kind v ∧ w = v := by
  constructor
  · rintro (⟨-, h⟩ | ⟨-⟩)
    · exact ⟨h, rfl⟩
    · exact absurd rfl (whole rfl _)
  · rintro ⟨h, rfl⟩
    exact .option whole h

theorem misfit_entry_iff {es : List (String × Value)} {w : Value} :
    Misfit .entries (.map es) w ↔
      ∃ e, FirstWith (fun e => isEntry e.2 = false) es e ∧ e.2 = w := by
  constructor
  · rintro (⟨whole, -⟩ | ⟨first⟩)
    · exact absurd rfl (whole rfl es)
    · exact ⟨_, first, rfl⟩
  · rintro ⟨e, first, rfl⟩
    exact .entry first

theorem Misfit.isWritable {kind : OptionKind} {v w : Value} (h : Misfit kind v w)
    (hv : v.isWritable = true) : w.isWritable = true := by
  cases h with
  | option => exact hv
  | entry first => exact Value.isWritable_of_mem hv _ first.mem

theorem checkEntries_eq_error_iff {name : String} {es : List (String × Value)} {f : Fault} :
    checkEntries name es = .error f ↔ ∃ e, FirstWith (fun e => isEntry e.2 = false) es e ∧
      Fault.shown e.2 (.wrongType [name, e.1] entryTypes) = f := by
  induction es with
  | nil => simp [checkEntries]
  | cons e es ih =>
      rw [checkEntries]
      split
      · rename_i hentry
        simp [firstWith_cons_iff, hentry, ih]
      · rename_i hentry
        simp [firstWith_cons_iff, hentry]

theorem exists_shown_of_not_fits (name : String) {kind : OptionKind} {v : Value}
    (whole : Whole kind v) (h : ¬Fits kind v) :
    ∃ fault, kind.check name v = .error (.shown v fault) ∧ ∀ w, fault w ≠ .unwritable := by
  unfold OptionKind.check
  split
  · exact absurd (.text _) h
  · exact ⟨_, rfl, nofun⟩
  · exact absurd (.truth _) h
  · exact ⟨_, rfl, nofun⟩
  · split
    · exact ⟨_, rfl, nofun⟩
    · rename_i n hn
      split
      · exact ⟨_, rfl, nofun⟩
      · rename_i hleast
        exact absurd (.count (whole?_eq_some_iff.mp hn) (by omega)) h
  · exact absurd rfl (whole rfl _)
  · exact ⟨_, rfl, nofun⟩

theorem checkOption_eq_unwritable_iff {name : String} {kind : OptionKind} {v : Value} :
    kind.check name v = .error .unwritable ↔ ∃ w, Misfit kind v w ∧ w.isWritable = false := by
  by_cases whole : Whole kind v
  · simp only [misfit_option_iff whole, and_assoc, exists_and_left, exists_eq_left]
    by_cases hfits : Fits kind v
    · simp [check_of_fits hfits, hfits]
    · obtain ⟨fault, hcheck, hfault⟩ := exists_shown_of_not_fits name whole hfits
      rw [hcheck, Except.error.injEq, shown_eq_unwritable_iff hfault, and_iff_right hfits]
  · simp only [Whole, not_forall, not_not] at whole
    obtain ⟨rfl, es, rfl⟩ := whole
    have hshown : ∀ e : String × Value,
        Fault.shown e.2 (.wrongType [name, e.1] entryTypes) = .unwritable ↔
          e.2.isWritable = false := fun e => shown_eq_unwritable_iff nofun
    refine checkEntries_eq_error_iff.trans ?_
    simp only [misfit_entry_iff, hshown]
    constructor
    · rintro ⟨e, first, h⟩
      exact ⟨_, ⟨e, first, rfl⟩, h⟩
    · rintro ⟨_, ⟨e, first, rfl⟩, h⟩
      exact ⟨e, first, h⟩

/-- An option that is given and does not fit. -/
def Misfits (ms : Table String Value) (o : String × OptionKind) : Prop :=
  ∃ v, Table.get? ms o.1 = some v ∧ ¬Fits o.2 v

theorem checkOptions_eq_error_iff {os : List (String × OptionKind)} {f : Fault} :
    checkOptions ms os = .error f ↔ ∃ o v, FirstWith (Misfits ms) os o ∧
      Table.get? ms o.1 = some v ∧ o.2.check o.1 v = .error f := by
  induction os with
  | nil => simp [checkOptions]
  | cons o os ih =>
      simp only [checkOptions, firstWith_cons_iff]
      split
      · rename_i habsent
        simp [habsent, Misfits, ih]
      · rename_i v hv
        have hmisfits : Misfits ms o ↔ ¬Fits o.2 v := by simp [Misfits, hv]
        rw [bind_eq_error_iff]
        by_cases hfits : Fits o.2 v
        · simp [hmisfits, hfits, check_of_fits hfits, ih]
        · have hcheck : ∀ u, o.2.check o.1 v ≠ .ok u := fun _ h => hfits (fits_of_check h)
          simp [hmisfits, hfits, hcheck, hv]

/-- The check comes to a value that cannot be written: the whole is no map, or the first misfit
shows a value. -/
def ShowsUnwritten (v : Value) : Prop :=
  ((∀ ms, v ≠ .map ms) ∧ v.isWritable = false) ∨
    ∃ ms o w shown, v = .map ms ∧ Known ms ∧ FirstWith (Misfits ms) options o ∧
      Table.get? ms o.1 = some w ∧ Misfit o.2 w shown ∧ shown.isWritable = false

theorem check_eq_unwritable_iff {v : Value} :
    check v = .error .unwritable ↔ ShowsUnwritten v := by
  have hmap : ∀ ms, check (.map ms) = .error .unwritable ↔
      Known ms ∧ checkOptions ms options = .error .unwritable := by
    intro ms
    rw [check, show Known ms ↔ unknownKeys ms = [] from unknownKeys_eq_nil_iff.symm]
    split
    · rename_i hknown
      simp [hknown, bind_eq_error_iff, pure, Except.pure]
    · rename_i hunknown
      simpa using fun h => absurd h hunknown
  cases v with
  | map ms =>
      simp [hmap, checkOptions_eq_error_iff, checkOption_eq_unwritable_iff, ShowsUnwritten]
  | _ => simp [check, ShowsUnwritten, shown_eq_unwritable_iff]

theorem expandTable_eq_error_iff {es : List (String × Value)} {f : Fault} :
    expandTable env es = .error f ↔
      ∃ e, FirstWith (fun e => ¬∃ r, Becomes env e.2 r) es e ∧ expandValue env e.2 = .error f := by
  induction es with
  | nil => simp [expandTable]
  | cons e es ih =>
      have hbecomes : (∃ r, Becomes env e.2 r) ↔ ∃ r, expandValue env e.2 = .ok r := by
        simp only [expandValue_eq_ok_iff]
      simp only [expandTable, bind_eq_error_iff, firstWith_cons_iff, hbecomes, ih]
      cases hvalue : expandValue env e.2 with
      | error g => simp [hvalue]
      | ok r => simp [pure, Except.pure]

/-- The address is absent or a text that can be expanded. -/
def ReadableUrl (env : Environment) (ms : Table String Value) : Prop :=
  ∀ v, Table.get? ms "base-url" = some v → ∃ s, v = .text s ∧ ∃ r, Expands env s.toList r

/-- The first entry of a table that does not become a text cannot be written. -/
def EntryUnwritten (env : Environment) (ms : Table String Value) (name : String) : Prop :=
  ∃ es e, Table.get? ms name = some (.map es) ∧
    FirstWith (fun e => ¬∃ r, Becomes env e.2 r) es e ∧ e.2.isWritable = false

/-- Reading comes to a value that has to be written and cannot be: in the check, or at an entry of
the headers or else of the query. -/
inductive Unwritten (env : Environment) : Value → Prop where
  | check {v : Value} (shown : ShowsUnwritten v) : Unwritten env v
  | header {ms : Table String Value} (checked : IsChecked ms) (url : ReadableUrl env ms)
      (entry : EntryUnwritten env ms "headers") : Unwritten env (.map ms)
  | query {ms : Table String Value} (checked : IsChecked ms) (url : ReadableUrl env ms)
      (headers : ∀ v, Table.get? ms "headers" = some v → TakesEntries env v)
      (entry : EntryUnwritten env ms "qs") : Unwritten env (.map ms)

theorem IsChecked.fits (h : IsChecked ms) {name : String} {kind : OptionKind}
    (hmem : (name, kind) ∈ options) : ∀ v, Table.get? ms name = some v → Fits kind v :=
  h.2 _ hmem

theorem exists_urlOf_iff (h : IsChecked ms) :
    (∃ url, urlOf env ms = .ok url) ↔ ReadableUrl env ms := by
  have hfits : ∀ v, Table.get? ms "base-url" = some v → Fits .text v := h.fits (by simp [options])
  simp only [urlOf_eq_ok_iff hfits, exists_gives_iff, exists_readsUrl_iff, ReadableUrl]

theorem urlOf_ne_unwritable : urlOf env ms ≠ .error .unwritable := by
  unfold urlOf
  split
  · rename_i s hs
    have hexpand : expand env s ≠ .error .unwritable := expand_ne_unwritable s
    cases hresult : expand env s with
    | error f => simp_all
    | ok r => simp
  · simp [pure, Except.pure]

theorem exists_expandTable_iff (h : IsChecked ms) {name : String}
    (hmem : (name, OptionKind.entries) ∈ options) :
    (∃ t, expandTable env (entries ms name) = .ok t) ↔
      ∀ v, Table.get? ms name = some v → TakesEntries env v := by
  simp only [expandTable_entries_eq_ok_iff (h.fits hmem), exists_gives_iff, exists_readsEntries_iff]

theorem expandTable_entries_eq_unwritable_iff {name : String} :
    expandTable env (entries ms name) = .error .unwritable ↔ EntryUnwritten env ms name := by
  simp only [expandTable_eq_error_iff, expandValue_eq_unwritable_iff, EntryUnwritten, entries]
  split
  · rename_i es hes
    simp [hes]
  · rename_i hother
    refine iff_of_false (by simp) ?_
    rintro ⟨es, e, hes, -⟩
    exact hother es hes

theorem ofValue_eq_unwritable_iff {v : Value} :
    ofValue env v = .error .unwritable ↔ Unwritten env v := by
  simp only [ofValue_eq, bind_eq_error_iff, check_eq_ok_iff, check_eq_unwritable_iff,
    urlOf_ne_unwritable, false_or, expandTable_entries_eq_unwritable_iff]
  constructor
  · rintro (h | ⟨ms, ⟨rfl, hchecked⟩, url, hurl, h⟩)
    · exact .check h
    have hurl := (exists_urlOf_iff hchecked).mp ⟨url, hurl⟩
    rcases h with h | ⟨headers, hheaders, h | ⟨query, -, h⟩⟩
    · exact .header hchecked hurl h
    · exact .query hchecked hurl
        ((exists_expandTable_iff hchecked (by simp [options])).mp ⟨headers, hheaders⟩) h
    · cases h
  · rintro (h | ⟨hchecked, hurl, h⟩ | ⟨hchecked, hurl, hheaders, h⟩)
    · exact .inl h
    · obtain ⟨url, hurl⟩ := (exists_urlOf_iff hchecked).mpr hurl
      exact .inr ⟨_, ⟨rfl, hchecked⟩, url, hurl, .inl h⟩
    · obtain ⟨url, hurl⟩ := (exists_urlOf_iff hchecked).mpr hurl
      obtain ⟨headers, hheaders⟩ :=
        (exists_expandTable_iff hchecked (by simp [options])).mpr hheaders
      exact .inr ⟨_, ⟨rfl, hchecked⟩, url, hurl, .inr ⟨headers, hheaders, .inl h⟩⟩

/-- Only a value with a part that cannot be written comes to such a part. -/
theorem Unwritten.not_isWritable {v : Value} (h : Unwritten env v) : v.isWritable = false := by
  by_contra hwritten
  rw [Bool.not_eq_false] at hwritten
  have hmember : ∀ {ms name w}, v = .map ms → Table.get? ms name = some w →
      w.isWritable = true := by
    rintro ms name w rfl hw
    exact Value.isWritable_of_mem hwritten _ (Table.mem_of_get? hw)
  have hentry : ∀ {ms name}, v = .map ms → ¬EntryUnwritten env ms name := by
    rintro ms name hv ⟨es, e, hes, first, he⟩
    exact Bool.false_ne_true (he.symm.trans (Value.isWritable_of_mem (hmember hv hes) e first.mem))
  rcases h with (⟨-, h⟩ | ⟨ms, o, w, shown, hv, -, -, hw, misfit, h⟩) | ⟨-, -, h⟩ | ⟨-, -, -, h⟩
  · exact Bool.false_ne_true (h.symm.trans hwritten)
  · exact Bool.false_ne_true (h.symm.trans (misfit.isWritable (hmember hv hw)))
  · exact hentry rfl h
  · exact hentry rfl h

/-! ## Doubled dollar signs -/

def doubleDollars (s : String) : String := String.ofList (doubled s.toList)

def doubleEntries (t : Table String String) : Value :=
  .map (t.map fun e => (e.1, .text (doubleDollars e.2)))

theorem readsUrl_doubleDollars (s : String) : ReadsUrl env (.text (doubleDollars s)) (some s) := by
  refine ⟨_, s, rfl, ?_, rfl⟩
  rw [doubleDollars, String.toList_ofList]
  exact expands_doubled _

theorem readsEntries_doubleEntries (t : Table String String) :
    ReadsEntries env (doubleEntries t) t := by
  refine ⟨_, rfl, ?_, ?_⟩
  · rintro _ he
    obtain ⟨e, -, rfl⟩ := List.mem_map.mp he
    rfl
  · rw [List.forall₂_map_left_iff]
    refine List.forall₂_same.mpr fun e _ => ⟨rfl, .text ?_⟩
    rw [doubleDollars, String.toList_ofList]
    exact expands_doubled _

theorem ofValue_doubled (env : Environment) (url : String) (headers query : Table String String) :
    ofValue env (.map [("base-url", .text (doubleDollars url)),
        ("headers", doubleEntries headers), ("qs", doubleEntries query)]) =
      .ok { default with baseUrl := some url, headers := headers, query := query } := by
  refine ofValue_eq_ok_iff.mpr ⟨_, rfl, ?_, ?_, ?_, ?_, ?_, ?_, ?_⟩
  · simp [Known, Table.keys]
  · exact .inr ⟨_, rfl, readsUrl_doubleDollars url⟩
  · exact .inr ⟨_, rfl, readsEntries_doubleEntries headers⟩
  · exact .inr ⟨_, rfl, readsEntries_doubleEntries query⟩
  · exact .inl ⟨rfl, rfl⟩
  · exact .inl ⟨rfl, rfl⟩
  · exact .inl ⟨rfl, rfl⟩

/-- A value is read as a configuration exactly if it is accepted, option by option. Otherwise it is
refused with a fault, unless reading comes to a value that has to be written and cannot be, as only
a value that holds one does. Texts with doubled dollar signs are read as the texts themselves. -/
theorem configuration_of_every_value (env : Environment) (v : Value) :
    ((∃ c, ofValue env v = .ok c) ↔ ∃ ms, v = .map ms ∧ Accepted env ms) ∧
    (ofValue env v = .error .unwritable ↔ Unwritten env v) ∧
    ((∃ f, f ≠ .unwritable ∧ ofValue env v = .error f) ↔
      (¬ ∃ ms, v = .map ms ∧ Accepted env ms) ∧ ¬Unwritten env v) ∧
    (Unwritten env v → v.isWritable = false) ∧
    (∀ c, ofValue env v = .ok c ↔ ∃ ms, v = .map ms ∧ Loads env ms c) ∧
    ∀ url headers query,
      ofValue env (.map [("base-url", .text (doubleDollars url)),
          ("headers", doubleEntries headers), ("qs", doubleEntries query)]) =
        .ok { default with baseUrl := some url, headers := headers, query := query } := by
  have haccepted : (∃ c, ofValue env v = .ok c) ↔ ∃ ms, v = .map ms ∧ Accepted env ms := by
    simp only [ofValue_eq_ok_iff, ← exists_loads_iff]
    constructor
    · rintro ⟨c, ms, hv, h⟩
      exact ⟨ms, hv, c, h⟩
    · rintro ⟨ms, hv, c, h⟩
      exact ⟨c, ms, hv, h⟩
  refine ⟨haccepted, ofValue_eq_unwritable_iff, ?_, Unwritten.not_isWritable,
    fun c => ofValue_eq_ok_iff, ofValue_doubled env⟩
  rw [← haccepted, ← ofValue_eq_unwritable_iff]
  cases ofValue env v with
  | ok c => simp
  | error f => simp

def shopEnvironment : Environment := [("HOST", "$h"), ("KEY", "k")]

def shopOptions : Table String Value :=
  [("max-iterations", .int 5), ("headers", .map [("Id", .int 3), ("Key", .text "$KEY")]),
    ("base-url", .text "$$\x7b$\x7bHOST\x7d$KEY-")]

def shopConfig : Config :=
  { default with
    baseUrl := some "$\x7b$hk-", headers := [("Id", "3"), ("Key", "k")], limit := ⟨5, false⟩ }

theorem isWritable_shopId : (Value.int 3).isWritable = true := by decide +kernel

theorem loads_shopConfig : Loads shopEnvironment shopOptions shopConfig := by
  have hurl : expandChars shopEnvironment "$$\x7b$\x7bHOST\x7d$KEY-".toList =
      .ok "$\x7b$hk-".toList := by cbv
  have hkey : expandChars shopEnvironment "$KEY".toList = .ok "k".toList := by cbv
  have hknown : Known shopOptions := by simp [Known, Table.keys, shopOptions]
  refine ⟨hknown, ?_, ?_, .inl ⟨rfl, rfl⟩, ?_, .inl ⟨rfl, rfl⟩, .inl ⟨rfl, rfl⟩⟩
  · exact .inr ⟨_, rfl, _, _, rfl, expandChars_eq_ok_iff.mp hurl, rfl⟩
  · refine .inr ⟨_, rfl, _, rfl, by decide, .cons ⟨rfl, ?_⟩ (.cons ⟨rfl, ?_⟩ .nil)⟩
    · exact .plain rfl isWritable_shopId
    · exact .text (expandChars_eq_ok_iff.mp hkey)
  · exact .inr ⟨_, rfl, .int 5, by decide, by simp [shopConfig]⟩

theorem configuration_of_shop : ofValue shopEnvironment (.map shopOptions) = .ok shopConfig :=
  ((configuration_of_every_value _ _).2.2.2.2.1 _).mpr ⟨_, rfl, loads_shopConfig⟩

/-! ### A number that cannot be written -/

/-- One header, which is a number. -/
def numberedHeader (n : Int) : Table String Value := [("headers", .map [("a", .int n)])]

theorem isChecked_numberedHeader (n : Int) : IsChecked (numberedHeader n) := by
  refine ⟨by simp [numberedHeader, Table.keys, optionNames, options], ?_⟩
  rintro ⟨name, kind⟩ ho v hv
  obtain ⟨rfl, rfl⟩ : "headers" = name ∧ Value.map [("a", .int n)] = v := by
    simpa [numberedHeader, Table.get?] using hv
  obtain rfl : kind = .entries := by simpa [options] using ho
  exact .entries (by simp [isEntry])

theorem not_mem_numberedHeader (n : Int) (s : String) :
    .text s ∉ (entries (numberedHeader n) "headers").map Prod.snd := by
  simp [entries, numberedHeader, Table.get?]

theorem unwritten_numberedHeader {n : Int} (h : (Value.int n).isWritable = false) :
    Unwritten env (.map (numberedHeader n)) := by
  refine .header (isChecked_numberedHeader n) nofun ⟨_, _, rfl, .head ?_, h⟩
  rintro ⟨r, hbecomes⟩
  cases hbecomes with
  | plain _ hwritable => exact Bool.false_ne_true (h.symm.trans hwritable)

theorem not_isWritable_writtenBound : (Value.int Value.writtenBound).isWritable = false := by
  rw [Value.isWritable, Int.natAbs_natCast]
  exact decide_eq_false (Nat.lt_irrefl _)

/-- The options are known and fit, there is no text to expand, and yet there is neither a
configuration nor a fault that is reported. -/
theorem long_header_breaks :
    (∀ s, .text s ∉ (entries (numberedHeader Value.writtenBound) "headers").map Prod.snd) ∧
      IsChecked (numberedHeader Value.writtenBound) ∧
      ofValue [] (.map (numberedHeader Value.writtenBound)) = .error .unwritable :=
  ⟨not_mem_numberedHeader _, isChecked_numberedHeader _,
    ofValue_eq_unwritable_iff.mpr (unwritten_numberedHeader not_isWritable_writtenBound)⟩

end RestGraph.Config
