import RestGraph.Proofs.Sanitize
import RestGraph.Schema.Reference
import RestGraph.Text.Taken
import RestGraph.Value.Label

namespace RestGraph

/-!
# Laws of pointers

Slashes separate the steps of a pointer, and an escaped step holds none. Splitting a pointer
finds the steps again, and restoring slashes before tildes gives back what was escaped. A
pointer then leads where its steps lead, one by one.
-/

namespace Text

theorem splitBy_append_cons {p : Char → Bool} {cs : List Char} (hcs : ∀ c ∈ cs, p c = false)
    {mark : Char} (hmark : p mark = true) (rest : List Char) :
    splitBy p (cs ++ mark :: rest) = cs :: splitBy p rest := by
  induction cs with
  | nil => simp [splitBy, hmark]
  | cons c cs ih =>
      have hc : p c = false := hcs c List.mem_cons_self
      have hrest := ih fun d hd => hcs d (List.mem_cons_of_mem _ hd)
      simp [splitBy, hc, hrest]

/-- Splitting finds the pieces that were joined, if no mark is within them. -/
theorem splitBy_intercalate {mark : Char} {pieces : List (List Char)} (hne : pieces ≠ [])
    (h : ∀ piece ∈ pieces, mark ∉ piece) :
    splitBy (· == mark) (List.intercalate [mark] pieces) = pieces := by
  have hfree : ∀ piece ∈ pieces, ∀ c ∈ piece, (c == mark) = false := by
    intro piece hpiece c hc
    exact beq_false_of_ne fun heq => h piece hpiece (heq ▸ hc)
  induction pieces with
  | nil => exact absurd rfl hne
  | cons piece pieces ih =>
      have hpiece := hfree piece List.mem_cons_self
      cases pieces with
      | nil =>
          rw [List.intercalate_singleton]
          exact splitBy_of_forall_not hpiece
      | cons next pieces =>
          rw [List.intercalate_cons_cons, List.append_assoc, List.singleton_append,
            splitBy_append_cons hpiece (beq_self_eq_true mark)]
          congr 1
          apply ih (List.cons_ne_nil _ _)
          · exact fun p hp => h p (List.mem_cons_of_mem _ hp)
          · exact fun p hp => hfree p (List.mem_cons_of_mem _ hp)

theorem exists_intercalate_cons (separator piece : List Char) (pieces : List (List Char)) :
    ∃ rest, List.intercalate separator (piece :: pieces) = piece ++ rest := by
  cases pieces with
  | nil => exact ⟨[], by rw [List.intercalate_singleton, List.append_nil]⟩
  | cons next pieces =>
      rw [List.intercalate_cons_cons, List.append_assoc]
      exact ⟨_, rfl⟩

theorem dropWhile_replicate_append (mark : Char) (count : Nat) (cs : List Char) :
    (List.replicate count mark ++ cs).dropWhile (· == mark) = cs.dropWhile (· == mark) := by
  apply List.dropWhile_append_of_pos
  intro c hc
  rw [List.eq_of_mem_replicate hc, beq_self_eq_true]

theorem afterLast_append_cons {mark : Char} {cs : List Char} (h : mark ∉ cs) (before : List Char) :
    afterLast mark (before ++ mark :: cs) = cs := by
  have hall : ∀ c ∈ cs.reverse, (c != mark) = true := by
    intro c hc
    have hother : c ≠ mark := fun heq => h (heq ▸ List.mem_reverse.mp hc)
    simpa using hother
  unfold afterLast
  rw [List.reverse_append, List.reverse_cons, List.append_assoc,
    List.takeWhile_append_of_pos hall]
  simp

/-! ## Decimal numerals -/

theorem isDigit_iff {c : Char} : isDigit c = true ↔ 48 ≤ c.toNat ∧ c.toNat ≤ 57 := by
  simp [isDigit, Char.le_def, UInt32.le_iff_toNat_le]

/-- The decimal digits of ASCII have the values that they show. -/
theorem digitBelow?_of_isDigit {c : Char} (h : isDigit c = true) :
    digitBelow? 10 c = some (c.toNat - 0x30) := by
  obtain ⟨hlow, hhigh⟩ := isDigit_iff.mp h
  have hvalue : digitValue? c = some (c.toNat - 0x30) := by
    have hzero : (0x30 ≤ c.toNat && c.toNat < 0x30 + 10) = true := by
      simp only [Bool.and_eq_true, decide_eq_true_eq]
      omega
    simp [digitValue?, digitZeros, hzero]
  have hsmall : c.toNat - 0x30 < 10 := by omega
  simp [digitBelow?, hvalue, hsmall]

theorem ne_of_isDigit {c d : Char} (h : isDigit c = true) (hd : isDigit d = false) : c ≠ d := by
  rintro rfl
  rw [h] at hd
  cases hd

theorem isBlank_of_isDigit {c : Char} (h : isDigit c = true) : isBlank c = false := by
  obtain ⟨hlow, hhigh⟩ := isDigit_iff.mp h
  simp only [isBlank, Bool.or_eq_false_iff, Bool.and_eq_false_imp, decide_eq_true_eq,
    decide_eq_false_iff_not, beq_eq_false_iff_ne, ne_eq]
  omega

theorem dropWhile_of_forall_not {p : Char → Bool} {cs : List Char} (h : ∀ c ∈ cs, p c = false) :
    cs.dropWhile p = cs := by
  cases cs with
  | nil => rfl
  | cons c cs => simp [h c List.mem_cons_self]

theorem trimBlanks_of_forall_not {cs : List Char} (h : ∀ c ∈ cs, isBlank c = false) :
    trimBlanks cs = cs := by
  have hreverse : ∀ c ∈ cs.reverse, isBlank c = false := fun c hc => h c (List.mem_reverse.mp hc)
  rw [trimBlanks, dropWhile_of_forall_not h, dropWhile_of_forall_not hreverse,
    List.reverse_reverse]

/-- A nonempty text of ASCII digits. -/
structure IsNumeral (cs : List Char) : Prop where
  nonempty : cs ≠ []
  digits : ∀ c ∈ cs, isDigit c = true

theorem readDigits?_of_digits {cs : List Char} (h : ∀ c ∈ cs, isDigit c = true) (n : Nat) :
    readDigits? 10 n true cs = some (cs.foldl (fun n d => 10 * n + (d.toNat - 0x30)) n) := by
  induction cs generalizing n with
  | nil => rfl
  | cons c cs ih =>
      have hc := h c List.mem_cons_self
      have hline : (c == '_') = false := beq_false_of_ne (ne_of_isDigit hc (by decide))
      simp [readDigits?, hline, digitBelow?_of_isDigit hc,
        ih fun d hd => h d (List.mem_cons_of_mem _ hd)]

theorem dropBaseMark_ten (cs : List Char) : dropBaseMark 10 cs = cs := by
  unfold dropBaseMark
  split
  · simp [baseLetter]
  · rfl

theorem readNatural?_of_numeral {cs : List Char} (h : IsNumeral cs) :
    readNatural? 10 cs = if cs.length ≤ integerDigits then some (naturalOf cs) else none := by
  have hfilter : cs.filter (· != '_') = cs := by
    apply List.filter_eq_self.mpr
    intro c hc
    simpa using ne_of_isDigit (h.digits c hc) (d := '_') (by decide)
  have hread : readDigits? 10 0 false cs = some (naturalOf cs) := by
    cases cs with
    | nil => exact absurd rfl h.nonempty
    | cons c cs =>
        have hc := h.digits c List.mem_cons_self
        have hline : (c == '_') = false := beq_false_of_ne (ne_of_isDigit hc (by decide))
        simp [readDigits?, hline, digitBelow?_of_isDigit hc, naturalOf,
          readDigits?_of_digits fun d hd => h.digits d (List.mem_cons_of_mem _ hd)]
  unfold readNatural? tooLong
  rw [hfilter, dropBaseMark_ten, hread]
  by_cases hlong : integerDigits < cs.length
  · simp [hlong]
  · simp [hlong, Nat.le_of_not_lt hlong]

/-- A numeral is read unless it is longer than any integer that is read. -/
theorem readInteger?_of_numeral {cs : List Char} (h : IsNumeral cs) :
    readInteger? 10 cs =
      if cs.length ≤ integerDigits then some (naturalOf cs : Int) else none := by
  have hblank : ∀ c ∈ cs, isBlank c = false := fun c hc => isBlank_of_isDigit (h.digits c hc)
  have hnatural : (readNatural? 10 cs).map (fun n => (n : Int)) =
      if cs.length ≤ integerDigits then some (naturalOf cs : Int) else none := by
    rw [readNatural?_of_numeral h]
    split <;> rfl
  unfold readInteger?
  rw [trimBlanks_of_forall_not hblank]
  split
  · exact absurd (h.digits '-' List.mem_cons_self) (by decide)
  · exact absurd (h.digits '+' List.mem_cons_self) (by decide)
  · exact hnatural

end Text

namespace Value

/-! ## Escaping -/

theorem replaceEscape_cons_of_ne {d : Char} (hd : d ≠ '~') (digit c : Char) (r : List Char) :
    replaceEscape digit c (d :: r) = d :: replaceEscape digit c r := by
  rw [replaceEscape.eq_def]
  split
  · rename_i heq
    exact absurd (List.cons.inj heq).1 hd
  · rename_i heq
    obtain ⟨rfl, rfl⟩ := List.cons.inj heq
    rfl
  · rename_i heq
    cases heq

theorem replaceEscape_tilde (digit c d : Char) (r : List Char) :
    replaceEscape digit c ('~' :: d :: r) =
      if d == digit then c :: replaceEscape digit c r
      else '~' :: replaceEscape digit c (d :: r) := by
  rw [replaceEscape]

theorem escapeStep_tilde (cs : List Char) : escapeStep ('~' :: cs) = '~' :: '0' :: escapeStep cs :=
  rfl

theorem escapeStep_slash (cs : List Char) : escapeStep ('/' :: cs) = '~' :: '1' :: escapeStep cs :=
  rfl

theorem escapeStep_cons_of_ne {c : Char} (htilde : c ≠ '~') (hslash : c ≠ '/') (cs : List Char) :
    escapeStep (c :: cs) = c :: escapeStep cs := by
  simp [escapeStep, htilde, hslash]

/-- A text in which tildes are escaped and slashes are not. -/
def escapeTildes (cs : List Char) : List Char :=
  cs.flatMap fun c => if c == '~' then ['~', '0'] else [c]

theorem escapeTildes_tilde (cs : List Char) :
    escapeTildes ('~' :: cs) = '~' :: '0' :: escapeTildes cs := rfl

theorem escapeTildes_cons_of_ne {c : Char} (htilde : c ≠ '~') (cs : List Char) :
    escapeTildes (c :: cs) = c :: escapeTildes cs := by
  simp [escapeTildes, htilde]

/-- An escaped tilde is no escaped slash, whatever follows it. -/
theorem replaceEscape_escapeStep (cs : List Char) :
    replaceEscape '1' '/' (escapeStep cs) = escapeTildes cs := by
  induction cs with
  | nil => rfl
  | cons c cs ih =>
      by_cases htilde : c = '~'
      · subst htilde
        rw [escapeStep_tilde, replaceEscape_tilde, if_neg (by decide),
          replaceEscape_cons_of_ne (by decide), ih, escapeTildes_tilde]
      · by_cases hslash : c = '/'
        · subst hslash
          rw [escapeStep_slash, replaceEscape_tilde, if_pos (by decide), ih,
            escapeTildes_cons_of_ne htilde]
        · rw [escapeStep_cons_of_ne htilde hslash, replaceEscape_cons_of_ne htilde, ih,
            escapeTildes_cons_of_ne htilde]

theorem replaceEscape_escapeTildes (cs : List Char) :
    replaceEscape '0' '~' (escapeTildes cs) = cs := by
  induction cs with
  | nil => rfl
  | cons c cs ih =>
      by_cases htilde : c = '~'
      · subst htilde
        rw [escapeTildes_tilde, replaceEscape_tilde, if_pos (by decide), ih]
      · rw [escapeTildes_cons_of_ne htilde, replaceEscape_cons_of_ne htilde, ih]

theorem unescape_escapeStep (cs : List Char) : unescape (escapeStep cs) = cs := by
  rw [unescape, replaceEscape_escapeStep, replaceEscape_escapeTildes]

theorem slash_not_mem_escapeStep (cs : List Char) : '/' ∉ escapeStep cs := by
  intro hmem
  obtain ⟨c, -, hc⟩ := List.mem_flatMap.mp hmem
  by_cases htilde : c = '~'
  · simp [htilde] at hc
  · by_cases hslash : c = '/'
    · simp [hslash] at hc
    · simp only [beq_iff_eq, htilde, hslash, if_false, List.mem_singleton] at hc
      exact hslash hc.symm

theorem escapeStep_ne_nil {cs : List Char} (h : cs ≠ []) : escapeStep cs ≠ [] := by
  intro hnil
  have hcs := unescape_escapeStep cs
  rw [hnil] at hcs
  exact h hcs.symm

/-! ## Steps -/

/-- The pointer of a path: the escaped steps between slashes, with any number of slashes in
front. -/
def pointerTo (slashes : Nat) (path : List String) : String :=
  String.ofList (List.replicate slashes '/' ++
    List.intercalate ['/'] (path.map fun step => escapeStep step.toList))

/-- A step in decimal is the position of an item. -/
def IsPosition (step : String) (n : Nat) : Prop :=
  Text.IsNumeral step.toList ∧ Text.naturalOf step.toList = n

theorem isPosition_of_digit (step : String) (d : Char) (h : step.toList = [d])
    (hd : Text.isDigit d = true) : IsPosition step (d.toNat - 0x30) := by
  rw [IsPosition, h]
  refine ⟨⟨List.cons_ne_nil d [], List.forall_mem_singleton.mpr hd⟩, ?_⟩
  simp [Text.naturalOf]

/-- The value to which a path leads from another: through members of maps by their keys and
through items of lists by their positions. -/
inductive LeadsTo : Value → List String → Value → Prop where
  | here (v : Value) : LeadsTo v [] v
  | member {ms : List (String × Value)} {key : String} {path : List String} {v w : Value}
      (hkey : Table.get? ms key = some v) (h : LeadsTo v path w) :
      LeadsTo (.map ms) (key :: path) w
  | item {items : List Value} {step : String} {n : Nat} {path : List String} {v w : Value}
      (hstep : IsPosition step n) (hdigits : step.length ≤ Text.integerDigits)
      (hitem : items[n]? = some v) (h : LeadsTo v path w) :
      LeadsTo (.list items) (step :: path) w

/-- A path on which a member is absent, a position is past the end, or a value is neither a map
nor a list. -/
inductive Strays : Value → List String → Prop where
  | absent {ms : List (String × Value)} {key : String} {path : List String}
      (hkey : Table.get? ms key = none) : Strays (.map ms) (key :: path)
  | past {items : List Value} {step : String} {n : Nat} {path : List String}
      (hstep : IsPosition step n) (hend : items.length ≤ n) : Strays (.list items) (step :: path)
  | single {v : Value} {step : String} {path : List String} (hsingle : v.isSingle = true) :
      Strays v (step :: path)
  | member {ms : List (String × Value)} {key : String} {path : List String} {v : Value}
      (hkey : Table.get? ms key = some v) (h : Strays v path) : Strays (.map ms) (key :: path)
  | item {items : List Value} {step : String} {n : Nat} {path : List String} {v : Value}
      (hstep : IsPosition step n) (hdigits : step.length ≤ Text.integerDigits)
      (hitem : items[n]? = some v) (h : Strays v path) : Strays (.list items) (step :: path)

/-- Wherever a path reaches a list, its step is a position in decimal, which has no more digits
than an integer that is read unless it is past the end. -/
def Addresses : Value → List String → Prop
  | _, [] => True
  | .map ms, key :: path => ∀ v, Table.get? ms key = some v → Addresses v path
  | .list items, step :: path => ∃ n, IsPosition step n ∧
      (step.length ≤ Text.integerDigits ∨ items.length ≤ n) ∧
      ∀ v, items[n]? = some v → Addresses v path
  | _, _ :: _ => True

theorem Addresses.leadsTo_or_strays {v : Value} {path : List String} (h : Addresses v path) :
    (∃ w, LeadsTo v path w) ∨ Strays v path := by
  induction path generalizing v with
  | nil => exact .inl ⟨v, .here v⟩
  | cons step path ih =>
      cases v with
      | map ms =>
          cases hkey : Table.get? ms step with
          | none => exact .inr (.absent hkey)
          | some v =>
              rcases ih (h v hkey) with ⟨w, hw⟩ | hstrays
              · exact .inl ⟨w, .member hkey hw⟩
              · exact .inr (.member hkey hstrays)
      | list items =>
          obtain ⟨n, hstep, hdigits, hitems⟩ := h
          cases hitem : items[n]? with
          | none => exact .inr (.past hstep (List.getElem?_eq_none_iff.mp hitem))
          | some v =>
              have hinside : n < items.length := (List.getElem?_eq_some_iff.mp hitem).1
              have hread : step.length ≤ Text.integerDigits :=
                hdigits.resolve_right (Nat.not_le_of_lt hinside)
              rcases ih (hitems v hitem) with ⟨w, hw⟩ | hstrays
              · exact .inl ⟨w, .item hstep hread hitem hw⟩
              · exact .inr (.item hstep hread hitem hstrays)
      | _ => exact .inr (.single rfl)

theorem walk_null (tokens : List (List Char)) : walk .null tokens = .null := by
  cases tokens <;> rfl

theorem walk_of_step {v w : Value} {token : List Char} (h : step? v (unescape token) = some w)
    (tokens : List (List Char)) : walk v (token :: tokens) = walk w tokens := by
  rw [walk, h]
  cases w with
  | null => exact (walk_null tokens).symm
  | _ => rfl

theorem walk_of_no_step {v : Value} {token : List Char} (h : step? v (unescape token) = none)
    (tokens : List (List Char)) : walk v (token :: tokens) = .null := by
  rw [walk, h]

theorem step?_member (ms : List (String × Value)) (key : String) :
    step? (.map ms) (unescape (escapeStep key.toList)) = Table.get? ms key := by
  rw [unescape_escapeStep, step?, String.ofList_toList]

theorem itemAt?_natCast (items : List Value) (n : Nat) : itemAt? items n = items[n]? := by
  simp [itemAt?]

theorem step?_item (items : List Value) {step : String} {n : Nat} (h : IsPosition step n) :
    step? (.list items) (unescape (escapeStep step.toList)) =
      if step.length ≤ Text.integerDigits then items[n]? else none := by
  rw [unescape_escapeStep, step?, Text.readInteger?_of_numeral h.1, h.2, String.length_toList]
  split
  · exact itemAt?_natCast items n
  · rfl

theorem step?_single {v : Value} (h : v.isSingle = true) (token : List Char) :
    step? v token = none := by
  cases v with
  | list items => cases h
  | map ms => cases h
  | _ => rfl

theorem LeadsTo.walk_eq {v w : Value} {path : List String} (h : LeadsTo v path w) :
    walk v (path.map fun step => escapeStep step.toList) = w := by
  induction h with
  | here v => rfl
  | @member ms key path v w hkey _ ih =>
      rw [List.map_cons, walk_of_step ((step?_member ms key).trans hkey), ih]
  | @item items step n path v w hstep hdigits hitem _ ih =>
      have hfound := step?_item items hstep
      rw [if_pos hdigits, hitem] at hfound
      rw [List.map_cons, walk_of_step hfound, ih]

theorem Strays.walk_eq {v : Value} {path : List String} (h : Strays v path) :
    walk v (path.map fun step => escapeStep step.toList) = .null := by
  induction h with
  | @absent ms key path hkey =>
      rw [List.map_cons, walk_of_no_step ((step?_member ms key).trans hkey)]
  | @past items step n path hstep hend =>
      have hfound := step?_item items hstep
      rw [List.getElem?_eq_none hend, ite_self] at hfound
      rw [List.map_cons, walk_of_no_step hfound]
  | @single v step path hsingle => rw [List.map_cons, walk_of_no_step (step?_single hsingle _)]
  | @member ms key path v hkey _ ih =>
      rw [List.map_cons, walk_of_step ((step?_member ms key).trans hkey), ih]
  | @item items step n path v hstep hdigits hitem _ ih =>
      have hfound := step?_item items hstep
      rw [if_pos hdigits, hitem] at hfound
      rw [List.map_cons, walk_of_step hfound, ih]

/-- The steps of a pointer are found again if the first one is not empty. -/
theorem resolve_pointerTo (v : Value) (slashes : Nat) {first : String} (hfirst : first ≠ "")
    (rest : List String) :
    resolve v (pointerTo slashes (first :: rest)) =
      walk v ((first :: rest).map fun step => escapeStep step.toList) := by
  have hsteps : ∀ step ∈ (first :: rest).map fun step => escapeStep step.toList, '/' ∉ step := by
    intro step hstep
    obtain ⟨text, -, rfl⟩ := List.mem_map.mp hstep
    exact slash_not_mem_escapeStep text.toList
  obtain ⟨tail, hjoin⟩ := Text.exists_intercalate_cons ['/'] (escapeStep first.toList)
    (rest.map fun step => escapeStep step.toList)
  rw [← List.map_cons (f := fun step : String => escapeStep step.toList)] at hjoin
  -- The first step begins with no slash, so that only the slashes in front are dropped.
  obtain ⟨c, cs, hc, hfront⟩ : ∃ c cs, c ≠ '/' ∧ escapeStep first.toList = c :: cs := by
    have hne : escapeStep first.toList ≠ [] :=
      escapeStep_ne_nil fun hnil => hfirst (String.toList_eq_nil_iff.mp hnil)
    obtain ⟨c, cs, hfront⟩ := List.exists_cons_of_ne_nil hne
    refine ⟨c, cs, ?_, hfront⟩
    rintro rfl
    exact slash_not_mem_escapeStep first.toList (hfront ▸ List.mem_cons_self)
  rw [hfront, List.cons_append] at hjoin
  have hnonempty : (pointerTo slashes (first :: rest)).isEmpty = false := by
    rw [pointerTo, hjoin, String.isEmpty_eq_false_iff]
    intro hempty
    have hchars := congrArg String.toList hempty
    simp at hchars
  have hdrop : (pointerTo slashes (first :: rest)).toList.dropWhile (· == '/') =
      List.intercalate ['/'] ((first :: rest).map fun step => escapeStep step.toList) := by
    rw [pointerTo, String.toList_ofList, Text.dropWhile_replicate_append, hjoin,
      List.dropWhile_cons_of_neg (by simpa using hc)]
  rw [resolve, hnonempty, hdrop, Text.splitBy_intercalate _ hsteps]
  · rfl
  · simp

end Value

/-- A reference with an escaped name at its end has that name, whatever stands before it. -/
theorem Schema.targetName_append (start name : String) :
    targetName (start ++ "/" ++ String.ofList (Value.escapeStep name.toList)) = name := by
  have hchars : (start ++ "/" ++ String.ofList (Value.escapeStep name.toList)).toList =
      start.toList ++ '/' :: Value.escapeStep name.toList := by
    simp
  rw [targetName, hchars, Text.afterLast_append_cons (Value.slash_not_mem_escapeStep _),
    Value.unescape_escapeStep, String.ofList_toList]

namespace Value

/-- A pointer that is made of the steps of a path, of which the first is not empty, leads where
the path leads, with or without slashes in front, and to null where the path strays; a path whose
steps at lists are positions does one of the two. The name at the end of a reference is the one
that was escaped, whatever stands before it. -/
theorem resolve_of_every_path :
    (∀ (v : Value) (slashes : Nat) (first : String) (rest : List String), first ≠ "" →
      (Addresses v (first :: rest) →
        (∃ w, LeadsTo v (first :: rest) w) ∨ Strays v (first :: rest)) ∧
      (∀ w, LeadsTo v (first :: rest) w → resolve v (pointerTo slashes (first :: rest)) = w) ∧
      (Strays v (first :: rest) → resolve v (pointerTo slashes (first :: rest)) = .null)) ∧
    ∀ start name : String,
      Schema.targetName (start ++ "/" ++ String.ofList (escapeStep name.toList)) = name := by
  constructor
  · intro v slashes first rest hfirst
    rw [resolve_pointerTo v slashes hfirst rest]
    exact ⟨fun h => h.leadsTo_or_strays, fun w h => h.walk_eq, fun h => h.walk_eq⟩
  · exact Schema.targetName_append

/-! ### A sample document -/

def shelf : Value := .map [("a/b", .list [.null, .map [("~1", .int 7)]])]

theorem shelf_leads : LeadsTo shelf ["a/b", "1", "~1"] (.int 7) := by
  have hposition : IsPosition "1" 1 := isPosition_of_digit "1" '1' (by decide) (by decide)
  exact .member rfl (.item hposition (by decide) rfl (.member rfl (.here _)))

theorem shelf_strays : Strays shelf ["a/b", "2", "~1"] := by
  have hposition : IsPosition "2" 2 := isPosition_of_digit "2" '2' (by decide) (by decide)
  exact .member rfl (.past hposition (by decide))

theorem resolve_shelf :
    resolve shelf "/a~1b/1/~01" = .int 7 ∧ resolve shelf "a~1b/1/~01" = .int 7 ∧
      resolve shelf "/a~1b/2/~01" = .null ∧ Schema.targetName "#/definitions/a~1b" = "a/b" := by
  obtain ⟨hpointers, hnames⟩ := resolve_of_every_path
  have hone : pointerTo 1 ["a/b", "1", "~1"] = "/a~1b/1/~01" := by decide +kernel
  have hnone : pointerTo 0 ["a/b", "1", "~1"] = "a~1b/1/~01" := by decide +kernel
  have hpast : pointerTo 1 ["a/b", "2", "~1"] = "/a~1b/2/~01" := by decide +kernel
  have hname : "#/definitions" ++ "/" ++ String.ofList (escapeStep "a/b".toList) =
      "#/definitions/a~1b" := by decide +kernel
  rw [← hone, ← hnone, ← hpast, ← hname]
  refine ⟨?_, ?_, ?_, hnames _ _⟩
  · exact (hpointers shelf 1 "a/b" _ (by decide)).2.1 _ shelf_leads
  · exact (hpointers shelf 0 "a/b" _ (by decide)).2.1 _ shelf_leads
  · exact (hpointers shelf 1 "a/b" _ (by decide)).2.2 shelf_strays

end Value

end RestGraph
