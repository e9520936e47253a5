import RestGraph.Proofs.Percent
import RestGraph.Proofs.Request

namespace RestGraph

open Table

/-!
# Filling a path

A placeholder of a path is filled from the value that was sent under its name, if the last
parameter of that name belongs to the path. When all of them are, and what is sent as text can be
written, the request is prepared.
-/

namespace Request.Template

section Filling

variable {α : Type} {text : α → Value.Access (List Nat)}

/-- The text of the value has these characters. -/
def HasText (text : α → Value.Access (List Nat)) (v : α) (cs : List Char) : Prop :=
  text v = .ok (cs.map Char.toNat)

theorem filling_eq_ok_iff {v : α} {encoded : List Char} :
    filling text v = .ok encoded ↔ ∃ cs, HasText text v cs ∧ Text.Percent.encode cs = encoded := by
  unfold filling HasText
  cases text v with
  | error b => exact iff_of_false (by rintro ⟨⟩) (by rintro ⟨cs, ⟨⟩, -⟩)
  | ok points =>
      simp only [bind, Except.bind, Except.ok.injEq, ← Text.Percent.encode?_eq_some_iff]
      cases Text.Percent.encode? points with
      | none => exact iff_of_false (by rintro ⟨⟩) (by rintro ⟨⟩)
      | some cs => simp [pure, Except.pure]

theorem HasText.filling_eq {v : α} {cs : List Char} (h : HasText text v cs) :
    filling text v = .ok (Text.Percent.encode cs) := filling_eq_ok_iff.mpr ⟨cs, h, rfl⟩

/-- What a piece of a template becomes. -/
def Piece.filled (text : α → Value.Access (List Nat)) (values : Table String α) :
    Piece → List Char
  | .char c => [c]
  | .placeholder name => ((get? values name).bind fun v => (filling text v).toOption).getD []

theorem HasText.filled_eq {values : Table String α} {name : String} {v : α} {cs : List Char}
    (h : HasText text v cs) (hv : get? values name = some v) :
    Piece.filled text values (.placeholder name) = Text.Percent.encode cs := by
  rw [Piece.filled, hv, Option.bind_some, h.filling_eq]
  rfl

/-- All placeholders have a value with a text. -/
def Given (text : α → Value.Access (List Nat)) (values : Table String α) (ps : List Piece) : Prop :=
  ∀ name, .placeholder name ∈ ps → ∃ v cs, get? values name = some v ∧ HasText text v cs

theorem fill_of_given (path : String) {values : Table String α} {ps : List Piece}
    (h : Given text values ps) :
    fill text path values ps = .ok (ps.flatMap (Piece.filled text values)) := by
  induction ps with
  | nil => rfl
  | cons piece ps ih =>
      have hrest := ih fun name hname => h name (List.mem_cons_of_mem _ hname)
      cases piece with
      | char c =>
          unfold fill
          rw [hrest]
          rfl
      | placeholder name =>
          obtain ⟨v, cs, hv, hcs⟩ := h name List.mem_cons_self
          unfold fill
          rw [hrest, List.flatMap_cons, hcs.filled_eq hv]
          simp only [hv, hcs.filling_eq]
          rfl

end Filling

theorem hasText_points {v : Value} (h : v.isWritable = true) :
    HasText points v v.plain.toList := by
  unfold HasText points
  rw [Value.written_of_isWritable h]
  rfl

end Request.Template

/-! ## The last parameter of a name -/

/-- Of several parameters of one name the last one counts. -/
def Parameter.last? (ps : List Parameter) (name : String) : Option Parameter :=
  ps.reverse.find? fun p => p.name.text? == some name

theorem Parameter.last?_cons (p : Parameter) (ps : List Parameter) (name : String) :
    last? (p :: ps) name =
      (last? ps name).or (if p.name.text? = some name then some p else none) := by
  unfold last?
  rw [List.reverse_cons, List.find?_append]
  by_cases h : p.name.text? = some name <;> simp [h]

namespace Request

theorem get?_parts_last (found : Table String Part) (ps : List Parameter) (name : String) :
    get? (parts found ps) name =
      ((Parameter.last? ps name).map fun p => Part.ofLocation p.location).or (get? found name) := by
  induction ps generalizing found with
  | nil => rfl
  | cons p ps ih =>
      rw [Parameter.last?_cons]
      unfold parts
      cases hname : p.name with
      | text text =>
          simp only [ih, get?_insert, Value.text?]
          cases Parameter.last? ps name with
          | some q => rfl
          | none => by_cases htext : text = name <;> simp [htext]
      | _ =>
          simp only [ih, Value.text?]
          cases Parameter.last? ps name <;> simp

section Prepare

variable {names : Name.Registry} {o : Operation} {parent : Value}
  {arguments : Table String Value}

/-- The value of an argument is sent as text: its parameter is one of the path, the headers or
the cookies. -/
def SentAsText (names : Name.Registry) (o : Operation) (key : String) : Prop :=
  o.request ≠ some (names.textOr key key) ∧
    (get? (parts [] o.parameters) (names.textOr key key)).getD .query ≠ .query

/-- What is sent as text can be written. -/
def Writable (names : Name.Registry) (o : Operation) (arguments : Table String Value) : Prop :=
  ∀ key v, get? arguments key = some v → SentAsText names o key → v.isWritable = true

/-- The name of a parameter of the path has a value: it was sent under the key of the name and
is not null. -/
structure Supplied (names : Name.Registry) (o : Operation) (arguments : Table String Value)
    (name key : String) (v : Value) : Prop where
  path : ∃ p, Parameter.last? o.parameters name = some p ∧ p.location = .text "path"
  other : o.request ≠ some name
  named : names.text? key = some name
  sent : get? arguments key = some v
  present : v ≠ .null

theorem Supplied.part {name key : String} {v : Value} (h : Supplied names o arguments name key v) :
    get? (parts [] o.parameters) name = some .path := by
  obtain ⟨p, hlast, hlocation⟩ := h.path
  rw [get?_parts_last, hlast]
  simp [hlocation, Part.ofLocation]

theorem Supplied.isWritable {name key : String} {v : Value}
    (h : Supplied names o arguments name key v) (htexts : Writable names o arguments) :
    v.isWritable = true := by
  have hname : names.textOr key key = name := by simp [Name.Registry.textOr, h.named]
  refine htexts key v h.sent ⟨by rw [hname]; exact h.other, ?_⟩
  rw [hname, h.part]
  simp

theorem Supplied.get?_pathValues {name key : String} {v : Value} {placed : Request}
    (h : Supplied names o arguments name key v) (hcoherent : names.Coherent)
    (hargs : Distinct arguments)
    (hknown : ∀ key ∈ keys arguments, ∃ text, names.text? key = some text)
    (hplaced : placeAll (parts [] o.parameters)
      (blank o (contentOf names o [] parent arguments).body)
      (contentOf names o [] parent arguments).values = .ok placed) :
    get? placed.pathValues name = some v := by
  have hdistinct := distinct_sent hcoherent o.request hargs hknown
  have hvalue : get? (contentOf names o [] parent arguments).values name = some v := by
    unfold contentOf
    rw [content_values, get?_insertAll _ hdistinct, get?_sent hcoherent hknown h.named h.other,
      h.sent]
    rfl
  have hempty : Distinct ([] : Table String String) := List.nodup_nil
  have hin := valueIn_placeAll (distinct_contentOf names o hempty parent arguments) hplaced .path
    name
  have hshare : Part.path.share .path v = some v := by
    rw [Part.share_of_ne_null _ _ h.present]
    rfl
  rw [hvalue, h.part] at hin
  exact hin.trans (by simp [hshare])

theorem exists_placed (parent : Value) (hargs : Distinct arguments)
    (htexts : Writable names o arguments) :
    ∃ placed, placeAll (parts [] o.parameters)
      (blank o (contentOf names o [] parent arguments).body)
      (contentOf names o [] parent arguments).values = .ok placed := by
  apply exists_placeAll
  unfold contentOf
  rw [content_values]
  refine forall_mem_insertAll (fun e he => absurd he List.not_mem_nil) fun e he hpart => ?_
  obtain ⟨⟨key, v⟩, hmem, hsome⟩ := List.mem_filterMap.mp he
  split at hsome
  · cases hsome
  · rename_i hbody
    obtain rfl := Option.some.inj hsome
    have hsent : get? arguments key = some v := (apart_iff_distinct.mpr hargs).get?_of_mem hmem
    refine htexts key v hsent ⟨fun heq => hbody (beq_iff_eq.mpr heq), ?_⟩
    rintro hquery
    rw [hquery] at hpart
    rcases hpart with hpart | hpart <;> cases hpart

/-- If every placeholder is supplied, the request is prepared, and its address is the path with
all placeholders filled. -/
theorem prepare_of_supplied (c : Config) (parent : Value) (hcoherent : names.Coherent)
    (hargs : Distinct arguments)
    (hknown : ∀ key ∈ keys arguments, ∃ text, names.text? key = some text)
    (htexts : Writable names o arguments)
    (hsupplied : ∀ name, .placeholder name ∈ Template.pieces o.path.toList →
      ∃ key v, Supplied names o arguments name key v) :
    ∃ r, prepare c names o [] parent arguments = .ok r ∧
      (∀ name key v, Supplied names o arguments name key v →
        get? r.pathValues name = some v) ∧
      r.url = String.ofList (Text.dropTrailing '/' (c.baseUrl.getD "").toList ++
        (Template.pieces o.path.toList).flatMap
          (Template.Piece.filled Template.points r.pathValues)) := by
  obtain ⟨placed, hplaced⟩ := exists_placed parent hargs htexts
  let r := placed.configure c
  have hvalue : ∀ name key v, Supplied names o arguments name key v →
      get? r.pathValues name = some v := by
    intro name key v h
    have hin : get? placed.pathValues name = some v :=
      h.get?_pathValues hcoherent hargs hknown hplaced
    exact hin
  have hgiven : Template.Given Template.points r.pathValues (Template.pieces o.path.toList) := by
    intro name hname
    obtain ⟨key, v, h⟩ := hsupplied name hname
    exact ⟨v, _, hvalue name key v h, Template.hasText_points (h.isWritable htexts)⟩
  have hurl : Template.url Template.points c.baseUrl o.path r.pathValues =
      .ok (String.ofList (Text.dropTrailing '/' (c.baseUrl.getD "").toList ++
        (Template.pieces o.path.toList).flatMap
          (Template.Piece.filled Template.points r.pathValues))) := by
    unfold Template.url
    rw [Template.fill_of_given o.path hgiven]
    rfl
  have hprepare : prepare c names o [] parent arguments =
      (do return { r with
        url := ← Template.url Template.points c.baseUrl o.path r.pathValues }) := by
    unfold contentOf blank at hplaced
    unfold prepare
    simp only [List.map_nil] at hplaced ⊢
    rw [hplaced]
    rfl
  rw [hurl] at hprepare
  exact ⟨_, hprepare, hvalue, rfl⟩

end Prepare

end Request

end RestGraph
