import Mathlib.Data.List.TakeWhile
import RestGraph.Json.Reader

namespace RestGraph.Json

/-!
# Laws of reading JSON

A text that is no JSON is refused for a reason of its own, but for two. An integer of more than
4300 digits is refused for its length, and then the text has a run of so many digits. An array or
an object for which there is no room is refused for its depth, and then the text has more opening
brackets than there was room for. Readers leave an end of the text that they were given, so what
is found in an end lies in the whole text; this is what every reader keeps.
-/

open Text (Taken fail isDigit)

/-- A run of more digits than are read. -/
def HasLongRun (s : List Char) : Prop :=
  ∃ ds, ds <:+: s ∧ 4300 < ds.length ∧ ∀ d ∈ ds, isDigit d = true

def isOpening (c : Char) : Bool := c == '[' || c == '\x7b'

/-- What a text has that a reader with so much room refuses for the reason. -/
def Causes (room : Nat) (s : List Char) : Reason → Prop
  | .longInteger => HasLongRun s
  | .tooNested => room < s.countP isOpening
  | _ => True

theorem Causes.of_suffix {room : Nat} {r s : List Char} {reason : Reason}
    (h : Causes room r reason) (hr : r <:+ s) : Causes room s reason := by
  cases reason with
  | longInteger =>
      obtain ⟨ds, hds, hlong, hdigits⟩ := h
      exact ⟨ds, hds.trans hr.isInfix, hlong, hdigits⟩
  | tooNested => exact Nat.lt_of_lt_of_le h (hr.sublist.countP_le)
  | _ => trivial

/-- An opening bracket takes up the room that is left around what it opens. -/
theorem Causes.opened {room : Nat} {c : Char} {r s : List Char} {reason : Reason}
    (h : Causes (room - 1) r reason) (hc : isOpening c = true) (hr : r <:+ s) :
    Causes room (c :: s) reason := by
  cases reason with
  | longInteger => exact Causes.of_suffix h (hr.trans (List.suffix_cons c s))
  | tooNested =>
      have hinner : room - 1 < s.countP isOpening := Nat.lt_of_lt_of_le h hr.sublist.countP_le
      change room < (c :: s).countP isOpening
      rw [List.countP_cons_of_pos hc]
      omega
  | _ => trivial

/-- A reader leaves an end of the text, and where it fails, the text has a cause. -/
structure Safe {α : Type} (room : Nat) (s : List Char) (x : Read α s) : Prop where
  rest : ∀ t, x = .ok t → t.rest <:+ s
  refusal : ∀ e, x = .error e → Causes room s e.1

section
variable {α β : Type} {room : Nat} {r s : List Char}

theorem Safe.ok {t : Taken α s} (h : t.rest <:+ s) : Safe room s (.ok t : Read α s) where
  rest := by
    intro t' ht
    obtain rfl := Except.ok.inj ht
    exact h
  refusal := by
    intro e he
    cases he

theorem Safe.fail {reason : Reason} {left : List Char} (h : Causes room s reason) :
    Safe room s (fail reason left : Read α s) where
  rest := by
    intro t ht
    cases ht
  refusal := by
    intro e he
    obtain rfl := Except.error.inj he
    exact h

theorem Safe.error {x : Read α r} {e : Reason × Nat} (h : Safe room r x) (hx : x = .error e)
    (hr : r <:+ s) : Safe room s (.error e : Read β s) where
  rest := by
    intro t ht
    cases ht
  refusal := by
    intro e' he
    obtain rfl := Except.error.inj he
    exact (h.refusal e hx).of_suffix hr

/-- A reader of an end of the text, perhaps with other room, is one of the text. -/
theorem Safe.within {inner : Nat} {x : Read α r} {f : Taken α r → Taken β s}
    (h : Safe inner r x) (hr : r <:+ s) (hf : ∀ t, (f t).rest = t.rest)
    (hcauses : ∀ reason, Causes inner r reason → Causes room s reason) :
    Safe room s (x.map f) where
  rest := by
    intro t ht
    cases x with
    | error e => cases ht
    | ok t' =>
        obtain rfl := Except.ok.inj ht
        rw [hf]
        exact (h.rest t' rfl).trans hr
  refusal := by
    intro e he
    cases x with
    | error e' =>
        obtain rfl := Except.error.inj he
        exact hcauses _ (h.refusal e' rfl)
    | ok t => cases he

theorem Safe.map {x : Read α r} {f : Taken α r → Taken β s} (h : Safe room r x) (hr : r <:+ s)
    (hf : ∀ t, (f t).rest = t.rest) : Safe room s (x.map f) :=
  h.within hr hf fun _ hcause => hcause.of_suffix hr

end

theorem skip_suffix (s : List Char) : skip s <:+ s := List.dropWhile_suffix _

theorem suffix_of_skip {s r : List Char} {c : Char} (h : skip s = c :: r) : r <:+ s :=
  (List.suffix_cons c r).trans (h ▸ skip_suffix s)

/-! ## Strings -/

theorem fourDigits?_suffix {s r : List Char} {n : Nat} (h : fourDigits? s = some (n, r)) :
    r <:+ s := by
  unfold fourDigits? at h
  split at h
  · rename_i a b c d e t
    obtain ⟨m, -, hm⟩ := Option.map_eq_some_iff.mp h
    obtain ⟨-, rfl⟩ := Prod.mk.inj hm
    exact ⟨[a, b, c, d], rfl⟩
  · cases h

theorem unicodeEscape_suffix {r rest : List Char} {c : Char}
    (h : unicodeEscape r = .ok (c, rest)) : rest <:+ r := by
  unfold unicodeEscape at h
  split at h
  · cases h
  · rename_i n r₂ hfirst
    have hr₂ := fourDigits?_suffix hfirst
    split at h
    · split at h
      · cases h
      · rename_i m r₃ hsecond
        have hr₃ := (fourDigits?_suffix hsecond).trans
          (((List.suffix_cons _ _).trans (List.suffix_cons _ _)).trans hr₂)
        split at h
        · obtain ⟨-, rfl⟩ := Prod.mk.inj (Except.ok.inj h)
          exact hr₃
        · obtain ⟨-, rfl⟩ := Prod.mk.inj (Except.ok.inj h)
          exact hr₂
    · obtain ⟨-, rfl⟩ := Prod.mk.inj (Except.ok.inj h)
      exact hr₂
  · rename_i hfirst
    obtain ⟨-, rfl⟩ := Prod.mk.inj (Except.ok.inj h)
    exact fourDigits?_suffix hfirst

theorem safe_string {room : Nat} (opening acc s : List Char) :
    Safe room s (string opening acc s) := by
  fun_induction string opening acc s with
  | case1 => exact .fail trivial
  | case2 acc r => exact .ok (List.suffix_cons _ _)
  | case3 => exact .fail trivial
  | case4 => exact .fail trivial
  | case5 acc r c rest hescape _ ih =>
      have hrest := (unicodeEscape_suffix hescape).trans (List.suffix_cons 'u' r)
      exact ih.map (hrest.trans (List.suffix_cons _ _)) fun _ => rfl
  | case6 => exact .fail trivial
  | case7 acc c r _ d _ ih =>
      exact ih.map ((List.suffix_cons c r).trans (List.suffix_cons _ _)) fun _ => rfl
  | case8 => exact .fail trivial
  | case9 acc c r _ _ _ _ _ ih => exact ih.map (List.suffix_cons c r) fun _ => rfl

/-! ## Numbers -/

theorem fraction_suffix (s : List Char) : (fraction s).2 <:+ s := by
  unfold fraction
  split
  · split
    · exact (List.dropWhile_suffix _).trans ((List.suffix_cons _ _).trans (List.suffix_cons _ _))
    · exact List.suffix_refl _
  · exact List.suffix_refl _

theorem sign_suffix (s : List Char) : (sign s).2 <:+ s := by
  unfold sign
  split
  · exact List.suffix_cons _ _
  · exact List.suffix_cons _ _
  · exact List.suffix_refl _

theorem exponent_suffix (s : List Char) : (exponent s).2 <:+ s := by
  unfold exponent
  split
  · rename_i e r
    dsimp only
    split
    · exact (List.dropWhile_suffix _).trans ((sign_suffix r).trans (List.suffix_cons e r))
    · exact List.suffix_refl _
  · exact List.suffix_refl _

theorem wholePart_spec {s whole r : List Char} (h : wholePart s = some (whole, r)) :
    s = whole ++ r ∧ ∀ d ∈ whole, isDigit d = true := by
  unfold wholePart at h
  split at h
  · obtain ⟨rfl, rfl⟩ := Prod.mk.inj (Option.some.inj h)
    exact ⟨rfl, List.forall_mem_singleton.mpr rfl⟩
  · rename_i c t _
    split at h
    · rename_i hdigit
      obtain ⟨rfl, rfl⟩ := Prod.mk.inj (Option.some.inj h)
      refine ⟨by rw [List.cons_append, List.takeWhile_append_dropWhile], ?_⟩
      intro d hd
      rcases List.mem_cons.mp hd with rfl | hd
      · exact hdigit
      · exact List.mem_takeWhile_imp hd
    · cases h
  · cases h

theorem long_of_numberOf {negative : Bool} {whole fractional : List Char} {power : Option Int}
    (h : numberOf negative whole fractional power = none) : 4300 < whole.length := by
  unfold numberOf at h
  split at h
  · split at h
    · assumption
    · cases h
  · cases h

/-- The only place where an integer is refused: its digits are the run. -/
theorem safe_unsignedNumber {room : Nat} (start : List Char) (negative : Bool) (s : List Char) :
    Safe room s (unsignedNumber start negative s) := by
  unfold unsignedNumber
  split
  · exact .fail trivial
  · rename_i whole r hwhole
    obtain ⟨hs, hdigits⟩ := wholePart_spec hwhole
    have hr : r <:+ s := ⟨whole, hs.symm⟩
    split
    · rename_i hlong
      exact .fail ⟨whole, ⟨[], r, hs.symm⟩, long_of_numberOf hlong, hdigits⟩
    · exact .ok ((exponent_suffix _).trans ((fraction_suffix r).trans hr))

theorem safe_number {room : Nat} (s : List Char) : Safe room s (number s) := by
  unfold number
  split
  · exact (safe_unsignedNumber _ _ _).map (List.suffix_cons _ _) fun _ => rfl
  · exact safe_unsignedNumber _ _ _

/-! ## Values -/

theorem word?_suffix {s : List Char} {t : Taken Value s} (h : word? s = some t) :
    t.rest <:+ s := by
  unfold word? at h
  split at h
  · cases h
  · split at h
    · obtain rfl := Option.some.inj h
      exact List.drop_suffix _ _
    · cases h

section
variable {room : Nat} {s : List Char}

theorem safe_value_of
    (hitems : ∀ r, r.length < s.length → ∀ room acc, Safe room r (items room acc r))
    (hmembers : ∀ r, r.length < s.length → ∀ room acc, Safe room r (members room acc r)) :
    Safe room s (value room s) := by
  unfold value
  split
  · exact (safe_string _ _ _).map (List.suffix_cons _ _) fun _ => rfl
  · rename_i r
    have hlength := length_skip_le r
    have hread := hmembers (skip r) (by rw [List.length_cons]; omega) (room - 1) []
    dsimp only
    split
    · rename_i hroom
      exact .fail (by simp [Causes, hroom, isOpening])
    split
    · rename_i hend
      exact .ok ((suffix_of_skip hend).trans (List.suffix_cons _ r))
    · exact hread.within ((skip_suffix r).trans (List.suffix_cons _ r)) (fun _ => rfl)
        fun _ hcause => hcause.opened (by decide) (skip_suffix r)
  · rename_i r
    have hlength := length_skip_le r
    have hread := hitems (skip r) (by rw [List.length_cons]; omega) (room - 1) []
    dsimp only
    split
    · rename_i hroom
      exact .fail (by simp [Causes, hroom, isOpening])
    split
    · rename_i hend
      exact .ok ((suffix_of_skip hend).trans (List.suffix_cons _ r))
    · exact hread.within ((skip_suffix r).trans (List.suffix_cons _ r)) (fun _ => rfl)
        fun _ hcause => hcause.opened (by decide) (skip_suffix r)
  · split
    · rename_i t ht
      exact .ok (word?_suffix ht)
    · exact safe_number _

theorem safe_items_of (hvalue : Safe room s (value room s))
    (hitems : ∀ r, r.length < s.length → ∀ acc, Safe room r (items room acc r))
    (acc : List Value) : Safe room s (items room acc s) := by
  unfold items
  split
  · rename_i e he
    exact hvalue.error he (List.suffix_refl _)
  · rename_i t ht
    have hrest := hvalue.rest t ht
    have hshorter := t.shorter
    dsimp only
    split
    · rename_i hend
      exact .ok ((suffix_of_skip hend).trans hrest)
    · rename_i r hcomma
      have hlength := length_skip_le r
      have hless := length_of_skip hcomma
      have hr := (skip_suffix r).trans ((suffix_of_skip hcomma).trans hrest)
      exact (hitems (skip r) (by omega) _).map hr fun _ => rfl
    · exact .fail trivial

theorem safe_members_of (hvalue : ∀ r, r.length < s.length → Safe room r (value room r))
    (hmembers : ∀ r, r.length < s.length → ∀ acc, Safe room r (members room acc r))
    (acc : List (String × Value)) : Safe room s (members room acc s) := by
  unfold members
  split
  · rename_i q
    rw [List.length_cons] at hvalue hmembers
    have hname : Safe room q (string ('\x22' :: q) [] q) := safe_string _ _ _
    split
    · rename_i e he
      exact hname.error he (List.suffix_cons _ q)
    · rename_i name hn
      have hafter := (hname.rest name hn).trans (List.suffix_cons '\x22' q)
      have hshorter := name.shorter
      dsimp only
      split
      · rename_i r hcolon
        have hlength := length_skip_le r
        have hless := length_of_skip hcolon
        have hr := (skip_suffix r).trans ((suffix_of_skip hcolon).trans hafter)
        have hread := hvalue (skip r) (by omega)
        split
        · rename_i e he
          exact hread.error he hr
        · rename_i t ht
          have hrest := (hread.rest t ht).trans hr
          have hshorter' := t.shorter
          split
          · rename_i hend
            exact .ok ((suffix_of_skip hend).trans hrest)
          · rename_i r' hcomma
            have hlength' := length_skip_le r'
            have hless' := length_of_skip hcomma
            have hr' := (skip_suffix r').trans ((suffix_of_skip hcomma).trans hrest)
            exact (hmembers (skip r') (by omega) _).map hr' fun _ => rfl
          · exact .fail trivial
      · exact .fail trivial
  · exact .fail trivial

end

/-- Items and members are read from proper ends of the text, so the induction is on its length. -/
theorem safe_readers (s : List Char) (room : Nat) :
    Safe room s (value room s) ∧ (∀ acc, Safe room s (items room acc s)) ∧
      ∀ acc, Safe room s (members room acc s) := by
  induction hn : s.length using Nat.strong_induction_on generalizing s room with
  | h n ih =>
      subst hn
      have hvalue : Safe room s (value room s) :=
        safe_value_of (fun r hr room => (ih _ hr r room rfl).2.1)
          fun r hr room => (ih _ hr r room rfl).2.2
      exact ⟨hvalue, safe_items_of hvalue fun r hr => (ih _ hr r room rfl).2.1,
        safe_members_of (fun r hr => (ih _ hr r room rfl).1) fun r hr => (ih _ hr r room rfl).2.2⟩

/-- Where reading fails for another reason than the syntax, the text has a cause. -/
theorem causes_of_parseWithin {room : Nat} {text : String} {f : Fault}
    (h : parseWithin room text = .error f) : Causes room text.toList f.reason := by
  unfold parseWithin at h
  dsimp only at h
  split at h
  · obtain rfl := Except.error.inj h
    trivial
  · split at h
    · rename_i e he
      obtain rfl := Except.error.inj h
      exact ((safe_readers _ _).1.refusal e he).of_suffix (skip_suffix _)
    · split at h
      · cases h
      · obtain rfl := Except.error.inj h
        trivial

/-- With room for each character, no text is nested too deep. -/
theorem parse_ne_tooNested {text : String} {f : Fault} (h : parse text = .error f) :
    f.reason ≠ .tooNested := by
  intro hreason
  have hcause := causes_of_parseWithin h
  rw [hreason] at hcause
  exact absurd List.countP_le_length (Nat.not_le.mpr hcause)

end RestGraph.Json
