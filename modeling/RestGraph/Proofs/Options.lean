import Mathlib.Algebra.Order.Field.Power
import Mathlib.Data.Nat.Cast.Field
import Mathlib.Data.Rat.Cast.Order
import RestGraph.Config.Reader
import RestGraph.Proofs.Placeholder

namespace RestGraph

/-!
# Laws of reading a configuration

A value is a configuration if it is a map of known options, each of which holds what its kind
asks for, and if its texts can be expanded. Every option is then read on its own: an absent one
has its default, and the texts are what they are expanded to. The check of an option and the
step that reads it are put together here, so that what is read is never a value that the check
would refuse.
-/

/-! ## Whole numbers -/

namespace Decimal

/-- The value of a binary number is an integer. -/
def Equals (x : Float) (n : Int) : Prop :=
  ∃ negative m q, parts x = .finite negative m q ∧
    (n : ℚ) = (if negative then -1 else 1) * m * 2 ^ q

def signed (negative : Bool) (n : Nat) : Int := if negative then -(n : Int) else n

theorem cast_signed (negative : Bool) (n : Nat) :
    (signed negative n : ℚ) = (if negative then -1 else 1) * n := by
  cases negative <;> simp [signed]

theorem natAbs_signed (negative : Bool) (n : Nat) : (signed negative n).natAbs = n := by
  cases negative <;> simp [signed]

theorem zpow_of_nonneg {q : Int} (h : 0 ≤ q) : (2 : ℚ) ^ q = (twos q.toNat : Nat) := by
  obtain ⟨k, rfl⟩ := Int.eq_ofNat_of_zero_le h
  simp [twos]

theorem zpow_of_neg {q : Int} (h : q < 0) : (2 : ℚ) ^ q = ((twos (-q).toNat : Nat) : ℚ)⁻¹ := by
  rw [← zpow_of_nonneg (by omega), ← zpow_neg, neg_neg]

theorem dvd_of_eq_signed {negative : Bool} {m t : Nat} {n : Int} (ht : (t : ℚ) ≠ 0)
    (h : (n : ℚ) = signed negative m * (t : ℚ)⁻¹) : t ∣ m := by
  have hscaled : ((n * t : ℤ) : ℚ) = (signed negative m : ℚ) := by
    rw [Int.cast_mul, Int.cast_natCast, h, inv_mul_cancel_right₀ ht]
  have habs := congrArg Int.natAbs (Int.cast_inj.mp hscaled)
  rw [Int.natAbs_mul, Int.natAbs_natCast, natAbs_signed] at habs
  exact ⟨n.natAbs, by rw [← habs, Nat.mul_comm]⟩

theorem integral?_eq_some_iff {x : Float} {n : Int} : integral? x = some n ↔ Equals x n := by
  rw [integral?, Equals]
  cases hparts : parts x with
  | finite negative m q =>
      change (if 0 ≤ q then some (signed negative (m * twos q.toNat))
        else if m % twos (-q).toNat == 0 then some (signed negative (m / twos (-q).toNat))
        else none) = some n ↔ _
      have hvalue : (∃ negative' m' q', Parts.finite negative m q = .finite negative' m' q' ∧
          (n : ℚ) = (if negative' then -1 else 1) * m' * 2 ^ q') ↔
          (n : ℚ) = signed negative m * 2 ^ q := by
        rw [cast_signed]
        simp
      rw [hvalue]
      split
      · rename_i hq
        rw [zpow_of_nonneg hq, Option.some.injEq, eq_comm, ← Int.cast_inj (α := ℚ), cast_signed,
          cast_signed, Nat.cast_mul, mul_assoc]
      · rename_i hq
        have hpos : (twos (-q).toNat : ℚ) ≠ 0 := by simp [twos]
        rw [zpow_of_neg (by omega)]
        split
        · rename_i hrest
          have hdvd := Nat.dvd_of_mod_eq_zero (eq_of_beq hrest)
          rw [Option.some.injEq, eq_comm, ← Int.cast_inj (α := ℚ), cast_signed, cast_signed,
            Nat.cast_div hdvd hpos, mul_assoc, div_eq_mul_inv]
        · rename_i hrest
          refine iff_of_false (by simp) fun h => hrest ?_
          rw [beq_iff_eq]
          exact Nat.mod_eq_zero_of_dvd (dvd_of_eq_signed hpos h)
  | infinite negative => simp
  | notANumber => simp

end Decimal

namespace Config

/-- A value is a whole number, with a point or without. -/
inductive IsWhole : Value → Int → Prop where
  | int (n : Int) : IsWhole (.int n) n
  | num {x : Float} {n : Int} (h : Decimal.Equals x n) : IsWhole (.num x) n

theorem whole?_eq_some_iff {v : Value} {n : Int} : whole? v = some n ↔ IsWhole v n := by
  constructor
  · intro h
    cases v with
    | int k =>
        obtain rfl := Option.some.inj h
        exact .int k
    | num x => exact .num (Decimal.integral?_eq_some_iff.mp h)
    | _ => cases h
  · intro h
    cases h with
    | int n => rfl
    | num h => exact Decimal.integral?_eq_some_iff.mpr h

/-! ## Checks -/

/-- What an option may hold. -/
inductive Fits : OptionKind → Value → Prop where
  | text (s : String) : Fits .text (.text s)
  | truth (b : Bool) : Fits .truth (.bool b)
  | count {v : Value} {n : Int} (h : IsWhole v n) (hn : 1 ≤ n) : Fits .count v
  | entries {es : List (String × Value)} (h : ∀ e ∈ es, isEntry e.2 = true) :
      Fits .entries (.map es)

theorem checkEntries_eq_ok_iff {name : String} {es : List (String × Value)} :
    checkEntries name es = .ok () ↔ ∀ e ∈ es, isEntry e.2 = true := by
  induction es with
  | nil => simp [checkEntries]
  | cons e es ih =>
      rw [checkEntries, List.forall_mem_cons]
      split
      · rename_i hentry
        simp [hentry, ih]
      · rename_i hentry
        simp [hentry]

theorem fits_of_check {name : String} {kind : OptionKind} {v : Value}
    (h : kind.check name v = .ok ()) : Fits kind v := by
  unfold OptionKind.check at h
  split at h
  · exact .text _
  · cases h
  · exact .truth _
  · cases h
  · split at h
    · cases h
    · rename_i n hn
      split at h
      · cases h
      · rename_i hleast
        exact .count (whole?_eq_some_iff.mp hn) (by omega)
  · exact .entries (checkEntries_eq_ok_iff.mp h)
  · cases h

theorem check_of_fits {name : String} {kind : OptionKind} {v : Value} (h : Fits kind v) :
    kind.check name v = .ok () := by
  cases h with
  | text s => rfl
  | truth b => rfl
  | @count v n h hn =>
      rw [OptionKind.check, whole?_eq_some_iff.mpr h]
      exact if_neg (by omega)
  | entries h => exact checkEntries_eq_ok_iff.mpr h

theorem checkOptions_eq_ok_iff {ms : Table String Value} {os : List (String × OptionKind)} :
    checkOptions ms os = .ok () ↔
      ∀ o ∈ os, ∀ v, Table.get? ms o.1 = some v → Fits o.2 v := by
  induction os with
  | nil => simp [checkOptions]
  | cons o os ih =>
      rw [checkOptions, List.forall_mem_cons, ← ih]
      split
      · rename_i habsent
        simp [habsent]
      · rename_i v hv
        rw [bind_eq_ok_iff, hv]
        constructor
        · rintro ⟨_, hcheck, hrest⟩
          refine ⟨fun w hw => ?_, hrest⟩
          obtain rfl := Option.some.inj hw
          exact fits_of_check hcheck
        · rintro ⟨hfits, hrest⟩
          exact ⟨(), check_of_fits (hfits v rfl), hrest⟩

theorem unknownKeys_eq_nil_iff {ms : Table String Value} :
    unknownKeys ms = [] ↔ ∀ key ∈ Table.keys ms, key ∈ optionNames := by
  rw [unknownKeys, ← List.length_eq_zero_iff, List.length_mergeSort, List.length_eq_zero_iff,
    List.filter_eq_nil_iff]
  simp

/-- All options are known, and what is present fits. -/
def IsChecked (ms : Table String Value) : Prop :=
  (∀ key ∈ Table.keys ms, key ∈ optionNames) ∧
    ∀ o ∈ options, ∀ v, Table.get? ms o.1 = some v → Fits o.2 v

theorem check_eq_ok_iff {v : Value} {ms : Table String Value} :
    check v = .ok ms ↔ v = .map ms ∧ IsChecked ms := by
  cases v with
  | map ms' =>
      rw [check, IsChecked, ← unknownKeys_eq_nil_iff, ← checkOptions_eq_ok_iff]
      split
      · rename_i hknown
        rw [bind_eq_ok_iff]
        constructor
        · rintro ⟨_, hoptions, hms⟩
          obtain rfl := Except.ok.inj hms
          exact ⟨rfl, hknown, hoptions⟩
        · rintro ⟨hms, -, hoptions⟩
          obtain rfl := Value.map.inj hms
          exact ⟨(), hoptions, rfl⟩
      · rename_i hunknown
        refine iff_of_false (by simp) ?_
        rintro ⟨hms, hknown, -⟩
        obtain rfl := Value.map.inj hms
        exact hunknown hknown
  | _ => simp [check]

/-! ## Options -/

/-- What an option is read as: an absent one has its default. -/
def Gives {α : Type} (ms : Table String Value) (name : String) (default : α)
    (Reads : Value → α → Prop) (a : α) : Prop :=
  (Table.get? ms name = none ∧ a = default) ∨ ∃ v, Table.get? ms name = some v ∧ Reads v a

/-- Names stay, and every value becomes a text. -/
def ReadsEntries (env : Environment) (v : Value) (t : Table String String) : Prop :=
  ∃ es, v = .map es ∧ (∀ e ∈ es, isEntry e.2 = true) ∧
    List.Forall₂ (fun e e' => e'.1 = e.1 ∧ Becomes env e.2 e'.2) es t

def ReadsUrl (env : Environment) (v : Value) (url : Option String) : Prop :=
  ∃ s r, v = .text s ∧ Expands env s.toList r.toList ∧ url = some r

def ReadsLimit (v : Value) (limit : Limit) : Prop :=
  IsWhole v limit.count ∧ 1 ≤ limit.count ∧ (limit.pointed = true ↔ ∃ x, v = .num x)

def ReadsTruth (v : Value) (b : Bool) : Prop := v = .bool b

def Known (ms : Table String Value) : Prop :=
  ∀ key ∈ Table.keys ms, key ∈ ["base-url", "max-iterations", "strict-names",
    "fail-on-name-collision", "headers", "qs"]

/-- A configuration is what its options are read as. -/
structure Loads (env : Environment) (ms : Table String Value) (c : Config) : Prop where
  known : Known ms
  baseUrl : Gives ms "base-url" none (ReadsUrl env) c.baseUrl
  headers : Gives ms "headers" [] (ReadsEntries env) c.headers
  query : Gives ms "qs" [] (ReadsEntries env) c.query
  limit : Gives ms "max-iterations" ⟨20, false⟩ ReadsLimit c.limit
  strictNames : Gives ms "strict-names" false ReadsTruth c.strictNames
  failOnCollision : Gives ms "fail-on-name-collision" false ReadsTruth c.failOnCollision

variable {env : Environment} {ms : Table String Value}

theorem flag_eq_iff {name : String} {b : Bool}
    (h : ∀ v, Table.get? ms name = some v → Fits .truth v) :
    flag ms name = b ↔ Gives ms name false ReadsTruth b := by
  unfold flag Gives ReadsTruth
  cases hv : Table.get? ms name with
  | none => simp [eq_comm]
  | some v =>
      obtain ⟨b'⟩ := h v hv
      simp

theorem IsWhole.unique {v : Value} {n n' : Int} (h : IsWhole v n) (h' : IsWhole v n') :
    n = n' :=
  Option.some.inj ((whole?_eq_some_iff.mpr h).symm.trans (whole?_eq_some_iff.mpr h'))

theorem limitOf_of_isWhole {v : Value} {n : Int} (h : IsWhole v n) :
    (limitOf (some v)).count = n.toNat ∧
      ((limitOf (some v)).pointed = true ↔ ∃ x, v = .num x) := by
  cases h with
  | int n => simp [limitOf]
  | num h => simp [limitOf, Decimal.integral?_eq_some_iff.mpr h]

theorem readsLimit_iff {v : Value} {limit : Limit} (h : Fits .count v) :
    limitOf (some v) = limit ↔ ReadsLimit v limit := by
  cases h with | @count v n hwhole hn => ?_
  obtain ⟨hcount, hpointed⟩ := limitOf_of_isWhole hwhole
  have hnat : ((limitOf (some v)).count : Int) = n := by omega
  constructor
  · rintro rfl
    refine ⟨?_, by omega, hpointed⟩
    rwa [hnat]
  · rintro ⟨hlimit, hleast, hmark⟩
    have hsame := hlimit.unique hwhole
    have hcounts : (limitOf (some v)).count = limit.count := by omega
    have hmarks : (limitOf (some v)).pointed = limit.pointed := by
      rw [Bool.eq_iff_iff, hpointed, hmark]
    cases limit
    exact congrArg₂ Limit.mk hcounts hmarks

theorem limitOf_eq_iff {name : String} {limit : Limit}
    (h : ∀ v, Table.get? ms name = some v → Fits .count v) :
    limitOf (Table.get? ms name) = limit ↔ Gives ms name ⟨20, false⟩ ReadsLimit limit := by
  rw [Gives]
  cases hv : Table.get? ms name with
  | none => simp [limitOf, defaultLimit, eq_comm]
  | some v =>
      rw [readsLimit_iff (h v hv)]
      simp

theorem expandTable_entries_eq_ok_iff {name : String} {t : Table String String}
    (h : ∀ v, Table.get? ms name = some v → Fits .entries v) :
    expandTable env (entries ms name) = .ok t ↔ Gives ms name [] (ReadsEntries env) t := by
  rw [expandTable_eq_ok_iff, entries, Gives]
  cases hv : Table.get? ms name with
  | none => simp
  | some v =>
      cases h v hv with
      | @entries es hes =>
          simp only [Option.some.injEq, reduceCtorEq, false_and, false_or, exists_eq_left',
            ReadsEntries, Value.map.injEq, and_iff_right hes]

/-- The address, expanded if it is given. -/
def urlOf (env : Environment) (ms : Table String Value) : Except Fault (Option String) :=
  match Table.get? ms "base-url" with
  | some (.text s) => some <$> expand env s
  | _ => pure none

theorem urlOf_eq_ok_iff {url : Option String}
    (h : ∀ v, Table.get? ms "base-url" = some v → Fits .text v) :
    urlOf env ms = .ok url ↔ Gives ms "base-url" none (ReadsUrl env) url := by
  rw [urlOf, Gives]
  cases hv : Table.get? ms "base-url" with
  | none => simp [pure, Except.pure, eq_comm]
  | some v =>
      obtain ⟨s⟩ := h v hv
      have hexpand : some <$> expand env s = .ok url ↔ ReadsUrl env (.text s) url := by
        refine map_eq_ok_iff.trans ?_
        simp only [expand_eq_ok_iff, ReadsUrl, Value.text.injEq, exists_and_left,
          exists_eq_left', eq_comm (a := url)]
      simp [hexpand]

theorem ofValue_eq (env : Environment) (v : Value) :
    ofValue env v = (do
      let ms ← check v
      let url ← urlOf env ms
      let headers ← expandTable env (entries ms "headers")
      let query ← expandTable env (entries ms "qs")
      return ⟨url, headers, query, limitOf (Table.get? ms "max-iterations"),
        flag ms "strict-names", flag ms "fail-on-name-collision"⟩) := by
  rw [ofValue]
  congr 1
  funext ms
  rw [urlOf]
  cases Table.get? ms "base-url" with
  | none => rfl
  | some v => cases v <;> rfl

theorem Gives.fits {α : Type} {name : String} {default a : α} {Reads : Value → α → Prop}
    {kind : OptionKind} (h : Gives ms name default Reads a)
    (hfits : ∀ v, Reads v a → Fits kind v) : ∀ v, Table.get? ms name = some v → Fits kind v := by
  intro v hv
  rcases h with ⟨habsent, -⟩ | ⟨w, hw, hreads⟩
  · cases habsent.symm.trans hv
  · obtain rfl := Option.some.inj (hw.symm.trans hv)
    exact hfits w hreads

theorem Loads.isChecked {c : Config} (h : Loads env ms c) : IsChecked ms := by
  refine ⟨h.known, ?_⟩
  have htruth : ∀ {b : Bool} (v : Value), ReadsTruth v b → Fits .truth v := by
    rintro b v rfl
    exact .truth b
  have hentries : ∀ {t : Table String String} (v : Value), ReadsEntries env v t →
      Fits .entries v := by
    rintro t v ⟨es, rfl, hes, -⟩
    exact .entries hes
  have hurl : ∀ v, ReadsUrl env v c.baseUrl → Fits .text v := by
    rintro v ⟨s, r, rfl, -⟩
    exact .text s
  have hlimit : ∀ v, ReadsLimit v c.limit → Fits .count v := by
    rintro v ⟨hwhole, hleast, -⟩
    exact .count hwhole (by omega)
  simp only [options, List.forall_mem_cons]
  exact ⟨h.baseUrl.fits hurl, h.limit.fits hlimit, h.strictNames.fits htruth,
    h.failOnCollision.fits htruth, h.headers.fits hentries, h.query.fits hentries, by simp⟩

theorem loads_iff {c : Config} (h : IsChecked ms) :
    Loads env ms c ↔ urlOf env ms = .ok c.baseUrl ∧
      expandTable env (entries ms "headers") = .ok c.headers ∧
      expandTable env (entries ms "qs") = .ok c.query ∧
      limitOf (Table.get? ms "max-iterations") = c.limit ∧
      flag ms "strict-names" = c.strictNames ∧
      flag ms "fail-on-name-collision" = c.failOnCollision := by
  obtain ⟨hknown, hfits⟩ := h
  simp only [options, List.forall_mem_cons] at hfits
  obtain ⟨hurl, hlimit, hstrict, hfail, hheaders, hquery, -⟩ := hfits
  rw [urlOf_eq_ok_iff hurl, expandTable_entries_eq_ok_iff hheaders,
    expandTable_entries_eq_ok_iff hquery, limitOf_eq_iff hlimit, flag_eq_iff hstrict,
    flag_eq_iff hfail]
  constructor
  · intro h
    exact ⟨h.baseUrl, h.headers, h.query, h.limit, h.strictNames, h.failOnCollision⟩
  · rintro ⟨hbaseUrl, hheaders, hquery, hlimit, hstrict, hfail⟩
    exact ⟨hknown, hbaseUrl, hheaders, hquery, hlimit, hstrict, hfail⟩

theorem ofValue_eq_ok_iff {v : Value} {c : Config} :
    ofValue env v = .ok c ↔ ∃ ms, v = .map ms ∧ Loads env ms c := by
  simp only [ofValue_eq, bind_eq_ok_iff, check_eq_ok_iff]
  constructor
  · rintro ⟨ms, ⟨rfl, hchecked⟩, url, hurl, headers, hheaders, query, hquery, hread⟩
    obtain rfl := Except.ok.inj hread
    exact ⟨ms, rfl, (loads_iff hchecked).mpr ⟨hurl, hheaders, hquery, rfl, rfl, rfl⟩⟩
  · rintro ⟨ms, rfl, h⟩
    obtain ⟨hurl, hheaders, hquery, hlimit, hstrict, hfail⟩ := (loads_iff h.isChecked).mp h
    refine ⟨ms, ⟨rfl, h.isChecked⟩, _, hurl, _, hheaders, _, hquery, ?_⟩
    rw [hlimit, hstrict, hfail]
    rfl

end Config

end RestGraph
