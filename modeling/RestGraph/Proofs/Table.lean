import Mathlib.Data.List.Induction
import Mathlib.Data.List.Nodup
import RestGraph.Table

namespace RestGraph.Table

/-!
# Laws of ordered tables

What an insertion does to later look-ups and to the keys. All laws of look-up hold for
keys that are compared by an equivalence; tables without repeated keys are those that
arise from insertions.
-/

variable {κ α β : Type} [BEq κ]

theorem contains_iff {t : Table κ α} {q : κ} : contains t q = true ↔ ∃ a, get? t q = some a := by
  rw [← isSome_get?, Option.isSome_iff_exists]

theorem contains_eq_false_iff {t : Table κ α} {q : κ} : contains t q = false ↔ get? t q = none := by
  rw [← isSome_get?, Option.isSome_eq_false_iff, Option.isNone_iff_eq_none]

@[simp] theorem get?_map (f : α → β) (t : Table κ α) (q : κ) :
    get? (t.map fun e => (e.1, f e.2)) q = (get? t q).map f := by
  induction t with
  | nil => rfl
  | cons e t ih =>
      obtain ⟨k, a⟩ := e
      by_cases h : (k == q) = true <;> simp [get?, h, ih]

theorem get?_eq_none_iff_forall {t : Table κ α} {q : κ} :
    get? t q = none ↔ ∀ e ∈ t, (e.1 == q) = false := by
  induction t with
  | nil => simp
  | cons e t ih =>
      obtain ⟨k, a⟩ := e
      by_cases h : (k == q) = true <;> simp [get?, h, ih]

theorem contains_iff_exists_mem {t : Table κ α} {q : κ} :
    contains t q = true ↔ ∃ e ∈ t, (e.1 == q) = true := by
  rw [← Bool.not_eq_false, contains_eq_false_iff, get?_eq_none_iff_forall]
  simp

theorem get?_append (t s : Table κ α) (q : κ) :
    get? (t ++ s) q = (get? t q).or (get? s q) := by
  induction t with
  | nil => rfl
  | cons e t ih =>
      obtain ⟨k, a⟩ := e
      by_cases h : (k == q) = true <;> simp [get?, h, ih]

theorem exists_append_of_get? {t : Table κ α} {q : κ} {a : α} (h : get? t q = some a) :
    ∃ before k after, t = before ++ (k, a) :: after ∧ (k == q) = true ∧ get? before q = none := by
  induction t with
  | nil => cases h
  | cons e t ih =>
      obtain ⟨k, b⟩ := e
      by_cases hk : (k == q) = true
      · obtain rfl : b = a := by simpa [get?, hk] using h
        exact ⟨[], k, t, rfl, hk, rfl⟩
      · obtain ⟨before, r, after, rfl, hr, hbefore⟩ := ih (by simpa [get?, hk] using h)
        exact ⟨(k, b) :: before, r, after, rfl, hr, by simpa [get?, hk] using hbefore⟩

theorem insert_of_contains_eq_false {t : Table κ α} {q : κ} (h : contains t q = false) (b : α) :
    insert t q b = t ++ [(q, b)] := by
  induction t with
  | nil => rfl
  | cons e t ih =>
      obtain ⟨k, a⟩ := e
      obtain ⟨hk, ht⟩ := Bool.or_eq_false_iff.mp h
      simp [insert, hk, ih ht]

theorem length_insert (t : Table κ α) (q : κ) (b : α) :
    (insert t q b).length = if contains t q = true then t.length else t.length + 1 := by
  induction t with
  | nil => rfl
  | cons e t ih =>
      obtain ⟨k, a⟩ := e
      by_cases hk : (k == q) = true
      · simp [insert, contains, hk]
      · simp only [insert, contains, hk, Bool.false_eq_true, if_false, List.length_cons, ih,
          Bool.false_or]
        split <;> rfl

/-- Keys may be renamed before or after an insertion. -/
theorem map_insert {ρ : Type} [BEq ρ] {f : κ → ρ} (hf : ∀ k q, (f k == f q) = (k == q))
    (t : Table κ α) (q : κ) (b : α) :
    (insert t q b).map (fun e => (f e.1, e.2)) =
      insert (t.map fun e => (f e.1, e.2)) (f q) b := by
  induction t with
  | nil => rfl
  | cons e t ih =>
      obtain ⟨k, a⟩ := e
      by_cases hk : (k == q) = true <;> simp [insert, hf, hk, ih]

theorem map_insertAll {ρ : Type} [BEq ρ] {f : κ → ρ} (hf : ∀ k q, (f k == f q) = (k == q))
    (t : Table κ α) (entries : List (κ × α)) :
    (insertAll t entries).map (fun e => (f e.1, e.2)) =
      insertAll (t.map fun e => (f e.1, e.2)) (entries.map fun e => (f e.1, e.2)) := by
  induction entries generalizing t with
  | nil => rfl
  | cons e entries ih =>
      show (insertAll (insert t e.1 e.2) entries).map _ = _
      rw [ih, map_insert hf]
      rfl

theorem get?_map_keys {ρ : Type} [BEq ρ] {f : κ → ρ} (hf : ∀ k q, (f k == f q) = (k == q))
    (t : Table κ α) (q : κ) : get? (t.map fun e => (f e.1, e.2)) (f q) = get? t q := by
  induction t with
  | nil => rfl
  | cons e t ih =>
      obtain ⟨k, a⟩ := e
      by_cases hk : (k == q) = true <;> simp [get?, hf, hk, ih]

/-- Things that are filed under their own marks are found by them. -/
theorem get?_map_pair (f : α → κ) (xs : List α) (q : κ) :
    get? (xs.map fun x => (f x, x)) q = xs.find? fun x => f x == q := by
  induction xs with
  | nil => rfl
  | cons x xs ih =>
      by_cases hx : (f x == q) = true <;> simp [get?, hx, ih]

theorem insertAll_append (t : Table κ α) (xs ys : List (κ × α)) :
    insertAll t (xs ++ ys) = insertAll (insertAll t xs) ys := List.foldl_append

theorem ofList_concat (entries : List (κ × α)) (e : κ × α) :
    ofList (entries ++ [e]) = insert (ofList entries) e.1 e.2 := insertAll_append [] entries [e]

/-- Entries of equal keys whose contents are related stay so when related contents are inserted
under one key. -/
theorem forall₂_insert {P : α → β → Prop} {t : Table κ α} {s : Table κ β}
    (h : List.Forall₂ (fun e f => e.1 = f.1 ∧ P e.2 f.2) t s) (q : κ) {a : α} {b : β}
    (hab : P a b) :
    List.Forall₂ (fun e f => e.1 = f.1 ∧ P e.2 f.2) (insert t q a) (insert s q b) := by
  induction h with
  | nil => exact .cons ⟨rfl, hab⟩ .nil
  | @cons e f t s hef hrest ih =>
      obtain ⟨k, x⟩ := e
      obtain ⟨k', y⟩ := f
      obtain ⟨hkey, hxy⟩ := hef
      obtain rfl : k = k' := hkey
      by_cases hk : (k == q) = true
      · simpa only [insert, hk, if_true] using .cons ⟨rfl, hab⟩ hrest
      · simpa only [insert, hk, Bool.false_eq_true, if_false] using .cons ⟨rfl, hxy⟩ ih

theorem forall₂_ofList {P : α → β → Prop} {entries : List (κ × α)} {others : List (κ × β)}
    (h : List.Forall₂ (fun e f => e.1 = f.1 ∧ P e.2 f.2) entries others) :
    List.Forall₂ (fun e f => e.1 = f.1 ∧ P e.2 f.2) (ofList entries) (ofList others) := by
  suffices hall : ∀ {t : Table κ α} {s : Table κ β},
      List.Forall₂ (fun e f => e.1 = f.1 ∧ P e.2 f.2) t s →
      List.Forall₂ (fun e f => e.1 = f.1 ∧ P e.2 f.2) (insertAll t entries)
        (insertAll s others) from hall .nil
  intro t s hts
  induction h generalizing t s with
  | nil => exact hts
  | @cons e f _ _ hef _ ih =>
      obtain ⟨k, x⟩ := e
      obtain ⟨k', y⟩ := f
      obtain ⟨hkey, hxy⟩ := hef
      obtain rfl : k = k' := hkey
      exact ih (forall₂_insert hts k hxy)

theorem keys_insert_of_contains {t : Table κ α} {q : κ} (h : contains t q = true) (b : α) :
    keys (insert t q b) = keys t := by
  induction t with
  | nil => cases h
  | cons e t ih =>
      obtain ⟨k, a⟩ := e
      by_cases hk : (k == q) = true
      · simp [insert, keys, hk]
      · have ht : contains t q = true := by simpa [contains, hk] using h
        simpa [insert, keys, hk] using ih ht

/-- Tables in which no key stands for the key of another entry. -/
def Apart (t : Table κ α) : Prop := (keys t).Pairwise fun k r => (k == r) = false

theorem apart_concat_iff {t : Table κ α} {e : κ × α} :
    Apart (t ++ [e]) ↔ Apart t ∧ get? t e.1 = none := by
  rw [get?_eq_none_iff_forall]
  simp [Apart, keys, List.pairwise_append]

/-- What is apart already is taken as it is. -/
theorem Apart.ofList_eq {entries : List (κ × α)} (h : Apart entries) :
    ofList entries = entries := by
  induction entries using List.reverseRecOn with
  | nil => rfl
  | append_singleton entries e ih =>
      obtain ⟨hentries, hnone⟩ := apart_concat_iff.mp h
      rw [ofList_concat, ih hentries, insert_of_contains_eq_false (contains_eq_false_iff.mpr hnone)]

theorem Apart.insert {t : Table κ α} (h : Apart t) (q : κ) (b : α) :
    Apart (Table.insert t q b) := by
  cases hq : contains t q with
  | true =>
      unfold Apart
      rwa [keys_insert_of_contains hq]
  | false =>
      rw [insert_of_contains_eq_false hq]
      exact apart_concat_iff.mpr ⟨h, contains_eq_false_iff.mp hq⟩

theorem apart_ofList (entries : List (κ × α)) : Apart (ofList entries) := by
  induction entries using List.reverseRecOn with
  | nil => exact List.Pairwise.nil
  | append_singleton entries e ih =>
      rw [ofList_concat]
      exact ih.insert e.1 e.2

section Equivalence

variable [EquivBEq κ]

theorem get?_congr (t : Table κ α) {q r : κ} (h : (q == r) = true) : get? t q = get? t r := by
  induction t with
  | nil => rfl
  | cons e t ih => simp only [get?, BEq.congr_right h, ih]

@[simp] theorem get?_insert (t : Table κ α) (q r : κ) (b : α) :
    get? (insert t q b) r = if (q == r) = true then some b else get? t r := by
  induction t with
  | nil => simp [get?]
  | cons e t ih =>
      obtain ⟨k, a⟩ := e
      by_cases hkq : (k == q) = true
      · simp only [insert, hkq, if_true, get?, BEq.congr_left hkq]
        split <;> rfl
      · simp only [insert, hkq, Bool.false_eq_true, if_false, get?, ih]
        by_cases hqr : (q == r) = true
        · have hkr : ¬ (k == r) = true := fun h => hkq (BEq.trans h (BEq.symm hqr))
          simp [hqr, hkr]
        · simp [hqr]

theorem get?_insertAll_reverse (t : Table κ α) (entries : List (κ × α)) (q : κ) :
    get? (insertAll t entries) q = (get? entries.reverse q).or (get? t q) := by
  induction entries using List.reverseRecOn with
  | nil => rfl
  | append_singleton entries e ih =>
      have hlast : insertAll t (entries ++ [e]) = insert (insertAll t entries) e.1 e.2 :=
        insertAll_append t entries [e]
      rw [hlast, get?_insert, ih, List.reverse_append]
      by_cases he : (e.1 == q) = true <;> simp [get?, he]

/-- Of several entries of one key, the last one is kept. -/
theorem get?_ofList (entries : List (κ × α)) (q : κ) :
    get? (ofList entries) q = get? entries.reverse q :=
  (get?_insertAll_reverse [] entries q).trans (Option.or_none ..)

theorem contains_insertAll_of_mem (t : Table κ α) {entries : List (κ × α)} {q : κ}
    (h : ∃ e ∈ entries, (e.1 == q) = true) : contains (insertAll t entries) q = true := by
  have hentries : contains entries.reverse q = true :=
    contains_iff_exists_mem.mpr (by simpa using h)
  rw [← isSome_get?, get?_insertAll_reverse, Option.isSome_or, isSome_get?, hentries, Bool.true_or]

theorem get?_insertAll_last {t before after : Table κ α} {k q : κ} {a : α} (hk : (k == q) = true)
    (hafter : get? after q = none) :
    get? (insertAll t (before ++ (k, a) :: after)) q = some a := by
  have hreverse : get? after.reverse q = none := by
    rw [get?_eq_none_iff_forall] at hafter ⊢
    simpa using hafter
  rw [get?_insertAll_reverse, List.reverse_append, List.reverse_cons, get?_append, get?_append,
    hreverse]
  simp [get?, hk]

/-- What a table made of entries holds comes from the last entry of the key. -/
theorem exists_last_of_get?_ofList {entries : List (κ × α)} {q : κ} {a : α}
    (h : get? (ofList entries) q = some a) :
    ∃ before k after, entries = before ++ (k, a) :: after ∧ (k == q) = true ∧
      get? after q = none := by
  rw [get?_ofList] at h
  obtain ⟨after, k, before, hsplit, hk, hafter⟩ := exists_append_of_get? h
  refine ⟨before.reverse, k, after.reverse, ?_, hk, ?_⟩
  · rw [← List.reverse_inj, hsplit]
    simp
  · rw [get?_eq_none_iff_forall] at hafter ⊢
    simpa using hafter

theorem Apart.get?_of_mem {t : Table κ α} (h : Apart t) {e : κ × α} (he : e ∈ t) :
    get? t e.1 = some e.2 := by
  obtain ⟨before, after, rfl⟩ := List.append_of_mem he
  have hbefore : get? before e.1 = none := by
    apply get?_eq_none_iff_forall.mpr
    intro d hd
    have happ : (keys before ++ e.1 :: keys after).Pairwise fun k r => (k == r) = false := by
      simpa [Apart, keys] using h
    exact (List.pairwise_append.mp happ).2.2 d.1 (List.mem_map_of_mem hd) e.1 List.mem_cons_self
  rw [get?_append, hbefore]
  simp [get?]

end Equivalence

section Lawful

variable [LawfulBEq κ]

theorem mem_keys_iff {t : Table κ α} {q : κ} : q ∈ keys t ↔ ∃ a, get? t q = some a := by
  induction t with
  | nil => simp [keys]
  | cons e t ih =>
      obtain ⟨k, b⟩ := e
      by_cases hk : k = q
      · simp [keys, get?, hk]
      · have hq : ¬ q = k := fun h => hk h.symm
        simpa [keys, get?, hk, hq] using ih

theorem get?_eq_none_iff {t : Table κ α} {q : κ} : get? t q = none ↔ q ∉ keys t := by
  rw [mem_keys_iff, Option.eq_none_iff_forall_ne_some]
  simp

theorem mem_of_get? {t : Table κ α} {q : κ} {a : α} (h : get? t q = some a) : (q, a) ∈ t := by
  induction t with
  | nil => cases h
  | cons e t ih =>
      obtain ⟨k, b⟩ := e
      by_cases hk : k = q
      · subst hk
        obtain rfl : b = a := by simpa [get?] using h
        exact List.mem_cons_self
      · simp only [get?, beq_iff_eq, hk, if_false] at h
        exact List.mem_cons_of_mem _ (ih h)

def Distinct (t : Table κ α) : Prop := (keys t).Nodup

instance [DecidableEq κ] (t : Table κ α) : Decidable (Distinct t) :=
  inferInstanceAs (Decidable (keys t).Nodup)

omit [BEq κ] [LawfulBEq κ] in
theorem keys_map (f : α → β) (t : Table κ α) : keys (t.map fun e => (e.1, f e.2)) = keys t := by
  simp [keys]

theorem keys_insert (t : Table κ α) (q : κ) (b : α) :
    keys (insert t q b) = if q ∈ keys t then keys t else keys t ++ [q] := by
  induction t with
  | nil => simp [keys]
  | cons e t ih =>
      obtain ⟨k, a⟩ := e
      by_cases hk : k = q
      · simp [insert, keys, hk]
      · have hq : ¬ q = k := fun h => hk h.symm
        simp only [insert, beq_iff_eq, hk, if_false]
        simp only [keys, List.map_cons, List.mem_cons, hq, false_or] at ih ⊢
        rw [ih]
        by_cases hmem : q ∈ t.map Prod.fst <;> simp [hmem]

/-- The keys of a table made of entries stand in the order in which they come first. -/
theorem keys_ofList (entries : List (κ × α)) :
    keys (ofList entries) = (keys entries).eraseDups := by
  induction entries using List.reverseRecOn with
  | nil => rfl
  | append_singleton entries e ih =>
      have hkeys : keys (entries ++ [e]) = keys entries ++ [e.1] := List.map_append
      rw [ofList_concat, keys_insert, ih, hkeys, List.eraseDups_append]
      by_cases hmem : e.1 ∈ keys entries <;> simp [hmem, List.removeAll, List.eraseDups_cons]

theorem apart_iff_distinct {t : Table κ α} : Apart t ↔ Distinct t := by
  simp [Apart, Distinct, List.nodup_iff_pairwise_ne]

theorem Distinct.insert {t : Table κ α} (h : Distinct t) (q : κ) (b : α) :
    Distinct (Table.insert t q b) :=
  apart_iff_distinct.mp ((apart_iff_distinct.mpr h).insert q b)

theorem Distinct.insertAll {t : Table κ α} (h : Distinct t) (s : Table κ α) :
    Distinct (Table.insertAll t s) := by
  induction s generalizing t with
  | nil => exact h
  | cons e s ih => exact ih (h.insert e.1 e.2)

theorem insert_of_not_mem {t : Table κ α} {q : κ} (h : q ∉ keys t) (b : α) :
    insert t q b = t ++ [(q, b)] :=
  insert_of_contains_eq_false (contains_eq_false_iff.mpr (get?_eq_none_iff.mpr h)) b

theorem forall_mem_insert {P : κ × α → Prop} {t : Table κ α} (h : ∀ e ∈ t, P e) {q : κ} {b : α}
    (hq : P (q, b)) : ∀ e ∈ insert t q b, P e := by
  induction t with
  | nil => simpa using hq
  | cons e t ih =>
      obtain ⟨k, a⟩ := e
      obtain ⟨hk, ht⟩ := List.forall_mem_cons.mp h
      by_cases hkq : k = q
      · subst hkq
        simpa [insert] using ⟨hq, fun k' a' => ht (k', a')⟩
      · simp only [insert, beq_iff_eq, hkq, if_false]
        exact List.forall_mem_cons.mpr ⟨hk, ih ht⟩

theorem forall_mem_insertAll {P : κ × α → Prop} {t : Table κ α} (h : ∀ e ∈ t, P e)
    {s : Table κ α} (hs : ∀ e ∈ s, P e) : ∀ e ∈ insertAll t s, P e := by
  induction s generalizing t with
  | nil => exact h
  | cons e s ih =>
      obtain ⟨he, hrest⟩ := List.forall_mem_cons.mp hs
      exact ih (forall_mem_insert h he) hrest

theorem forall_mem_ofList {P : κ × α → Prop} {entries : List (κ × α)} (h : ∀ e ∈ entries, P e) :
    ∀ e ∈ ofList entries, P e := forall_mem_insertAll (by simp) h

theorem get?_insertAll (t : Table κ α) {s : Table κ α} (h : Distinct s) (q : κ) :
    get? (insertAll t s) q = (get? s q).or (get? t q) := by
  induction s generalizing t with
  | nil => rfl
  | cons e s ih =>
      obtain ⟨k, a⟩ := e
      obtain ⟨hk, hs⟩ := List.nodup_cons.mp h
      have hstep : get? (insertAll t ((k, a) :: s)) q = get? (insertAll (insert t k a) s) q := rfl
      rw [hstep, ih _ hs, get?_insert]
      by_cases hkq : k = q
      · subst hkq
        have hnone : get? s k = none := get?_eq_none_iff.mpr hk
        simp [hnone, get?]
      · simp [hkq, get?]

/-- What is inserted under a new key comes after what was there. -/
theorem keys_insertAll (t : Table κ α) {s : Table κ α} (h : Distinct s) :
    keys (insertAll t s) = keys t ++ (keys s).filter fun q => q ∉ keys t := by
  induction s generalizing t with
  | nil => simp [insertAll, keys]
  | cons e s ih =>
      obtain ⟨k, a⟩ := e
      obtain ⟨hk, hs⟩ := List.nodup_cons.mp h
      have hstep : insertAll t ((k, a) :: s) = insertAll (insert t k a) s := rfl
      have hkeys : keys ((k, a) :: s) = k :: keys s := rfl
      rw [hstep, ih _ hs, keys_insert, hkeys, List.filter_cons]
      by_cases hmem : k ∈ keys t
      · simp [hmem]
      · have hother : (keys s).filter (fun q => q ∉ keys t ++ [k]) =
            (keys s).filter fun q => q ∉ keys t := by
          refine List.filter_congr fun q hq => ?_
          have hne : q ≠ k := ne_of_mem_of_not_mem hq hk
          simp [hne]
        simp only [hmem, if_false, hother, not_false_eq_true, decide_true, if_true,
          List.append_assoc, List.singleton_append]

theorem ofList_of_distinct {t : Table κ α} (h : Distinct t) : ofList t = t :=
  (apart_iff_distinct.mpr h).ofList_eq

end Lawful

end RestGraph.Table
