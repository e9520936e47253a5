import RestGraph.Graph.Argument
import RestGraph.Name.Sanitize
import RestGraph.Proofs.Path

namespace RestGraph

open Table

/-!
# Headers of the configuration

Names of headers are compared ignoring the case of ASCII letters. A request holds each header
of the configuration as it is configured. Another spelling of its name is there only if the
operation has a header parameter of that spelling and a value came for it.
-/

/-- The letters of a header's name, all in one case. -/
def folded (name : String) : List Char := name.toList.map Name.upper

/-- No two headers of the configuration have one name but for its case. -/
def Config.HeadersApart (c : Config) : Prop := (c.headers.map fun e => folded e.1).Nodup

theorem Config.HeadersApart.distinct {c : Config} (h : c.HeadersApart) : Distinct c.headers := by
  have hfolded : (c.headers.map fun e => folded e.1) = (keys c.headers).map folded := by
    rw [keys, List.map_map]
    rfl
  unfold HeadersApart at h
  rw [hfolded] at h
  exact h.of_map folded

theorem Config.HeadersApart.eq_of_folded {c : Config} (h : c.HeadersApart) {e e' : String × String}
    (he : e ∈ c.headers) (he' : e' ∈ c.headers) (hsame : folded e.1 = folded e'.1) : e = e' :=
  List.inj_on_of_nodup_map h he he' hsame

/-- The last of its parameters of that name is what an operation declares for a name. -/
def Operation.TakesHeader (o : Operation) (name : String) : Prop :=
  ∃ p, Parameter.last? o.parameters name = some p ∧ p.location = .text "header"

namespace Request

/-- All headers of a request whose name is the given one but for its case. -/
def headersLike (r : Request) (name : String) : Table String String :=
  r.headers.filter fun e => folded e.1 == folded name

theorem filter_eq_singleton_iff {t : Table String String} (ht : Distinct t) {name value : String}
    (hmem : (name, value) ∈ t) :
    (t.filter fun e => folded e.1 == folded name) = [(name, value)] ↔
      ∀ spelling ∈ keys t, folded spelling = folded name → spelling = name := by
  have hapart : ∀ e ∈ t, e.1 = name → e = (name, value) := fun e he hname =>
    List.inj_on_of_nodup_map ht he hmem hname
  constructor
  · intro hsingle spelling hspelling hfolded
    obtain ⟨e, he, rfl⟩ := List.mem_map.mp hspelling
    have hfound : e ∈ t.filter fun e => folded e.1 == folded name :=
      List.mem_filter.mpr ⟨he, by simpa using hfolded⟩
    rw [hsingle] at hfound
    exact congrArg Prod.fst (List.mem_singleton.mp hfound)
  · intro hunique
    have hnodup : (t.filter fun e => folded e.1 == folded name).Nodup :=
      (List.Nodup.of_map Prod.fst ht).filter _
    apply List.perm_singleton.mp
    apply (List.perm_ext_iff_of_nodup hnodup (List.nodup_singleton _)).mpr
    intro e
    rw [List.mem_filter, List.mem_singleton]
    constructor
    · rintro ⟨he, hfolded⟩
      have hspelling : e.1 ∈ keys t := List.mem_map.mpr ⟨e, he, rfl⟩
      exact hapart e he (hunique e.1 hspelling (eq_of_beq hfolded))
    · rintro rfl
      exact ⟨hmem, beq_self_eq_true _⟩

theorem distinct_headers_placeAll {parts : Table String Part} {r r' : Request}
    {values : Table String Value} (h : placeAll parts r values = .ok r')
    (hr : Distinct r.headers) : Distinct r'.headers := by
  refine placeAll_keeps (P := fun q => Distinct q.headers) ?_ h hr
  intro q q' own name v hplace hq
  rcases place_outcome hplace with ⟨-, rfl⟩ | ⟨-, rfl⟩
  · exact hq
  · cases own <;> first | exact hq | exact hq.insert _ _

section Prepare

variable {c : Config} {names : Name.Registry} {o : Operation} {preset : Table String String}
  {parent : Value} {arguments : Table String Value} {r : Request}

theorem distinct_headers_prepare (h : prepare c names o preset parent arguments = .ok r) :
    Distinct r.headers := by
  obtain ⟨placed, url, hplaced, rfl⟩ := exists_url_of_prepare h
  have hblank : Distinct (blank o (contentOf names o preset parent arguments).body).headers :=
    List.nodup_nil
  exact (distinct_headers_placeAll hplaced hblank).insertAll _

/-- A value that is not null came for a header parameter of this name, from the parent or from
an argument. -/
def Supplies (names : Name.Registry) (o : Operation) (preset : Table String String)
    (parent : Value) (arguments : Table String Value) (name : String) : Prop :=
  o.TakesHeader name ∧
    ∃ v, v ≠ .null ∧ get? (contentOf names o preset parent arguments).values name = some v

theorem Part.ofLocation_eq_header {v : Value} :
    Part.ofLocation v = .header ↔ v = .text "header" := by
  constructor
  · intro h
    unfold Part.ofLocation at h
    split at h <;> first | rfl | cases h
  · rintro rfl
    rfl

theorem Part.isSome_share_header (own : Part) (v : Value) :
    (own.share .header v).isSome = true ↔ own = .header ∧ v ≠ .null := by
  cases v <;> cases own <;> simp [Part.share]

/-- The part of a name is the header if the operation takes it there. -/
theorem getD_parts_eq_header (o : Operation) (name : String) :
    (get? (parts [] o.parameters) name).getD .query = .header ↔ o.TakesHeader name := by
  rw [get?_parts_last, get?_nil, Option.or_none]
  unfold Operation.TakesHeader
  cases Parameter.last? o.parameters name with
  | none => simp
  | some p => simp [Part.ofLocation_eq_header]

theorem get?_headers_prepare (hheaders : Distinct c.headers) (hpreset : Distinct preset)
    (h : prepare c names o preset parent arguments = .ok r) (name : String) :
    (get? r.headers name).map .text = ((get? c.headers name).map .text).or
      ((get? (contentOf names o preset parent arguments).values name).bind
        (((get? (parts [] o.parameters) name).getD .query).share .header)) := by
  obtain ⟨placed, url, hplaced, rfl⟩ := exists_url_of_prepare h
  have hin := valueIn_placeAll (distinct_contentOf names o hpreset parent arguments) hplaced
    .header name
  rw [valueIn_blank, Option.or_none] at hin
  rw [← hin]
  simp only [configure, valueIn, get?_insertAll _ hheaders]
  cases get? c.headers name <;> rfl

/-- A header is in a request if it is configured or a value came for it. -/
theorem mem_keys_headers_prepare (hheaders : Distinct c.headers) (hpreset : Distinct preset)
    (h : prepare c names o preset parent arguments = .ok r) (name : String) :
    name ∈ keys r.headers ↔
      name ∈ keys c.headers ∨ Supplies names o preset parent arguments name := by
  have hget := get?_headers_prepare hheaders hpreset h name
  rw [mem_keys_iff, mem_keys_iff]
  unfold Supplies
  rw [← getD_parts_eq_header]
  cases hconfigured : get? c.headers name with
  | some value =>
      rw [hconfigured] at hget
      obtain ⟨w, hw, -⟩ := Option.map_eq_some_iff.mp hget
      exact iff_of_true ⟨w, hw⟩ (.inl ⟨value, rfl⟩)
  | none =>
      rw [hconfigured, Option.map_none, Option.none_or] at hget
      cases hvalue : get? (contentOf names o preset parent arguments).values name with
      | none =>
          rw [hvalue, Option.bind_none] at hget
          rw [Option.map_eq_none_iff.mp hget]
          simp
      | some v =>
          rw [hvalue, Option.bind_some] at hget
          have hshare := Part.isSome_share_header
            ((get? (parts [] o.parameters) name).getD .query) v
          rw [← hget, Option.isSome_map, Option.isSome_iff_exists] at hshare
          simp [hshare]

theorem mem_headers_of_configured (hheaders : Distinct c.headers) (hpreset : Distinct preset)
    (h : prepare c names o preset parent arguments = .ok r) {name value : String}
    (hmem : (name, value) ∈ c.headers) : (name, value) ∈ r.headers := by
  have hget := get?_headers_prepare hheaders hpreset h name
  have hvalue : get? c.headers name = some value :=
    (apart_iff_distinct.mpr hheaders).get?_of_mem hmem
  rw [hvalue] at hget
  obtain ⟨w, hw, hsame⟩ := Option.map_eq_some_iff.mp hget
  cases hsame
  exact mem_of_get? hw

/-- The only entry of a configured header is the configured one, unless a value came for a
header parameter with another spelling of its name. -/
theorem headersLike_eq_iff (hheaders : c.HeadersApart) (hpreset : Distinct preset)
    (h : prepare c names o preset parent arguments = .ok r) {name value : String}
    (hmem : (name, value) ∈ c.headers) :
    r.headersLike name = [(name, value)] ↔
      ∀ spelling, folded spelling = folded name → spelling ≠ name →
        ¬ Supplies names o preset parent arguments spelling := by
  have hdistinct := hheaders.distinct
  unfold headersLike
  rw [filter_eq_singleton_iff (distinct_headers_prepare h)
    (mem_headers_of_configured hdistinct hpreset h hmem)]
  constructor
  · intro hunique spelling hfolded hother hsupplies
    have hkey := (mem_keys_headers_prepare hdistinct hpreset h spelling).mpr (.inr hsupplies)
    exact hother (hunique spelling hkey hfolded)
  · intro hnone spelling hkey hfolded
    by_contra hother
    rcases (mem_keys_headers_prepare hdistinct hpreset h spelling).mp hkey with hown | hsupplies
    · obtain ⟨e, he, rfl⟩ := List.mem_map.mp hown
      exact hother (congrArg Prod.fst (hheaders.eq_of_folded he hmem hfolded))
    · exact hnone spelling hfolded hother hsupplies

end Prepare

/-- Every request holds each configured header as it is configured. No other header has that
name but for its case, exactly if no value came for a header parameter with another spelling of
it. If the operation has no such parameter, neither parent nor arguments decide anything here. -/
theorem configured_headers_of_every_request {c : Config} (hheaders : c.HeadersApart)
    (names : Name.Registry) (o : Operation) {preset : Table String String}
    (hpreset : Distinct preset) {name value : String} (hmem : (name, value) ∈ c.headers) :
    (∀ parent arguments r, prepare c names o preset parent arguments = .ok r →
      (name, value) ∈ r.headers ∧
      (r.headersLike name = [(name, value)] ↔
        ∀ spelling, folded spelling = folded name → spelling ≠ name →
          ¬ Supplies names o preset parent arguments spelling)) ∧
    ((∀ spelling, o.TakesHeader spelling → folded spelling = folded name → spelling = name) →
      ∀ parent parent' arguments arguments' r r',
        prepare c names o preset parent arguments = .ok r →
        prepare c names o preset parent' arguments' = .ok r' →
        r.headersLike name = [(name, value)] ∧ r'.headersLike name = r.headersLike name) := by
  constructor
  · intro parent arguments r h
    constructor
    · exact mem_headers_of_configured hheaders.distinct hpreset h hmem
    · exact headersLike_eq_iff hheaders hpreset h hmem
  · intro hspelled parent parent' arguments arguments' r r' h h'
    have hsingle : ∀ parent arguments r, prepare c names o preset parent arguments = .ok r →
        r.headersLike name = [(name, value)] := by
      intro parent arguments r h
      apply (headersLike_eq_iff hheaders hpreset h hmem).mpr
      intro spelling hfolded hother hsupplies
      exact hother (hspelled spelling hsupplies.1 hfolded)
    have hown := hsingle parent arguments r h
    exact ⟨hown, (hsingle parent' arguments' r' h').trans hown.symm⟩

/-! ### A sample operation

It has one header parameter, and the configuration has one header.
-/

def keyedCatalog : Catalog :=
  Catalog.empty { (default : Config) with headers := [("X-Key", "k")] } true

def lookup (header : String) : Operation where
  id := .ofText "getPet"
  method := "get"
  path := "/pet"
  parameters := [[("name", .text header), ("in", .text "header")]]
  response := none
  request := none
  requestRequired := false
  links := []
  description := .null

def lookupArguments (header : String) :
    Except Failure (Table String Graph.Argument) × Graph.State :=
  (Graph.arguments keyedCatalog (lookup header).parameters none false).run (.empty true)

def lookupRequest (header key value : String) : Except Failure Request :=
  prepare keyedCatalog.config (lookupArguments header).2.names (lookup header) [] .null
    [(key, .text value)]

theorem headersApart_keyedCatalog : keyedCatalog.config.HeadersApart := by
  unfold Config.HeadersApart
  decide +kernel

theorem headers_lookup_trace :
    (lookupRequest "trace" "trace" "t1").toOption.map Request.headers =
      some [("trace", "t1"), ("X-Key", "k")] := by
  decide +kernel

/-- A header of another name leaves the configured one alone. -/
theorem headersLike_of_lookup :
    ∃ r, lookupRequest "trace" "trace" "t1" = .ok r ∧ r.headersLike "X-Key" = [("X-Key", "k")] := by
  have hheaders := headers_lookup_trace
  cases hrequest : lookupRequest "trace" "trace" "t1" with
  | error f => simp [hrequest, Except.toOption] at hheaders
  | ok r =>
      have hother : ∀ spelling, (lookup "trace").TakesHeader spelling →
          folded spelling = folded "X-Key" → spelling = "X-Key" := by
        rintro spelling ⟨p, hp, -⟩ hfolded
        have hname : p.name.text? = some spelling := by simpa using List.find?_some hp
        obtain rfl := List.mem_singleton.mp (List.mem_reverse.mp (List.mem_of_find?_eq_some hp))
        obtain rfl := Option.some.inj hname
        exact absurd hfolded (by decide +kernel)
      have hnone : Distinct ([] : Table String String) := List.nodup_nil
      have hkey : ("X-Key", "k") ∈ keyedCatalog.config.headers := List.mem_cons_self
      obtain ⟨-, hsingle⟩ := configured_headers_of_every_request headersApart_keyedCatalog
        (lookupArguments "trace").2.names (lookup "trace") hnone hkey
      exact ⟨r, rfl, (hsingle hother _ _ _ _ r r hrequest hrequest).1⟩

/-- An argument is made for a header that has another spelling in the configuration, and its
value is sent besides the configured one. -/
theorem configured_header_is_joined :
    keyedCatalog.config.HeadersApart ∧
    (lookupArguments "x-key").1.toOption.map keys = some ["xKey"] ∧
    (lookupRequest "x-key" "xKey" "mine").toOption.map (headersLike · "X-Key") =
      some [("x-key", "mine"), ("X-Key", "k")] :=
  ⟨headersApart_keyedCatalog, by decide +kernel, by decide +kernel⟩

end Request

end RestGraph
