import RestGraph.Proofs.Endpoint

namespace RestGraph

/-!
# Laws of merging parameters

Parameters are told apart by their name and their place. Those that all operations of a path share
come first, then the operation's own; the first of a pair fixes where it stands, and the last one,
if need be with a schema of the type that it declares, is what stands there. The merging works on
labels, which are equal when their keys are; keys are compared as they are.
-/

namespace Parameter

/-- Where a parameter says that it belongs; null if it does not say. -/
def place (p : Parameter) : Value := Value.memberOr p "in" .null

/-- The name and the place of a parameter can be part of a label. -/
def IsKeyed (p : Parameter) : Prop := p.name.isSingle = true ∧ p.place.isSingle = true

instance (p : Parameter) : Decidable p.IsKeyed :=
  inferInstanceAs (Decidable (p.name.isSingle = true ∧ p.place.isSingle = true))

/-- What tells a parameter apart. -/
def pair (p : Parameter) : Key × Key := (p.name.key, p.place.key)

/-- Of several parameters of one pair the last one counts. -/
def lastOf? (ps : List Parameter) (k : Key × Key) : Option Parameter :=
  ps.reverse.find? fun p => p.pair == k

theorem lastOf?_append (ps qs : List Parameter) (k : Key × Key) :
    lastOf? (ps ++ qs) k = (lastOf? qs k).or (lastOf? ps k) := by
  rw [lastOf?, List.reverse_append, List.find?_append]
  rfl

/-! ## Normal parameters -/

theorem normalize_of_schema {p : Parameter} (h : Table.get? p "schema" ≠ none) :
    normalize p = p := by
  rw [normalize, if_pos]
  rw [← Table.isSome_get?]
  exact Option.isSome_iff_ne_none.mpr h

theorem normalize_of_no_type {p : Parameter} (h : Table.get? p "type" = none) :
    normalize p = p := by
  rw [normalize, h]
  split <;> rfl

theorem normalize_of_type {p : Parameter} {type : Value} (hschema : Table.get? p "schema" = none)
    (htype : Table.get? p "type" = some type) :
    normalize p = p ++ [("schema", .map [("type", type)])] := by
  have hnone := Table.contains_eq_false_iff.mpr hschema
  rw [normalize, hnone, if_neg Bool.false_ne_true, htype]
  exact Table.insert_of_contains_eq_false hnone _

/-- A parameter is normal as it is, or it gets a schema of the type that it declares. -/
theorem normalize_eq_or (p : Parameter) :
    normalize p = p ∨ Table.get? p "schema" = none ∧
      ∃ type, normalize p = p ++ [("schema", .map [("type", type)])] := by
  cases hschema : Table.get? p "schema" with
  | some schema => exact .inl (normalize_of_schema (by simp [hschema]))
  | none =>
      cases htype : Table.get? p "type" with
      | none => exact .inl (normalize_of_no_type htype)
      | some type => exact .inr ⟨rfl, type, normalize_of_type hschema htype⟩

theorem get?_normalize (p : Parameter) {key : String} (hkey : key ≠ "schema") :
    Table.get? (normalize p) key = Table.get? p key := by
  have hother : ("schema" == key) = false := beq_false_of_ne hkey.symm
  rcases normalize_eq_or p with h | ⟨-, type, h⟩
  · rw [h]
  · rw [h, Table.get?_append]
    simp [Table.get?, hother]

theorem get?_normalize_of_some {p : Parameter} {key : String} {v : Value}
    (h : Table.get? p key = some v) : Table.get? (normalize p) key = some v := by
  rcases normalize_eq_or p with hp | ⟨-, type, hp⟩
  · rwa [hp]
  · rw [hp, Table.get?_append, h, Option.some_or]

theorem normalize_normalize (p : Parameter) : normalize (normalize p) = normalize p := by
  rcases normalize_eq_or p with h | ⟨hnone, type, h⟩
  · rw [h, h]
  · apply normalize_of_schema
    rw [h, Table.get?_append, hnone]
    simp [Table.get?]

theorem name_normalize (p : Parameter) : (normalize p).name = p.name := by
  rw [name, Value.memberOr, get?_normalize p (by decide)]
  rfl

theorem place_normalize (p : Parameter) : (normalize p).place = p.place := by
  rw [place, Value.memberOr, get?_normalize p (by decide)]
  rfl

theorem pair_normalize (p : Parameter) : (normalize p).pair = p.pair := by
  rw [pair, name_normalize, place_normalize]
  rfl

theorem IsKeyed.normalize {p : Parameter} (h : IsKeyed p) : IsKeyed (normalize p) := by
  rwa [IsKeyed, name_normalize, place_normalize]

/-! ## Merging -/

/-- The keys of the labels that tell parameters apart. -/
def keysOf (k : Label × Label) : Key × Key := (k.1.key, k.2.key)

theorem keysOf_beq (k q : Label × Label) : (keysOf k == keysOf q) = (k == q) := by
  apply Bool.eq_iff_iff.mpr
  rw [beq_iff_eq]
  show keysOf k = keysOf q ↔ (k.1 == q.1 && k.2 == q.2) = true
  rw [Bool.and_eq_true, Label.beq_iff, Label.beq_iff]
  exact Prod.ext_iff

theorem labelOf_of_isSingle {v : Value} (h : v.isSingle = true) : v.labelOf = .ok ⟨v, h⟩ := by
  rw [Value.labelOf, Value.label?, dif_pos h]

theorem key_of_isKeyed {p : Parameter} (h : IsKeyed p) :
    ∃ k, key (.map p) = .ok (k, p) ∧ keysOf k = p.pair := by
  refine ⟨(⟨p.name, h.1⟩, ⟨p.place, h.2⟩), ?_, rfl⟩
  have hname : (Value.memberOr p "name" .null).labelOf = .ok ⟨p.name, h.1⟩ :=
    labelOf_of_isSingle h.1
  have hplace : (Value.memberOr p "in" .null).labelOf = .ok ⟨p.place, h.2⟩ :=
    labelOf_of_isSingle h.2
  rw [key, hname, hplace]
  rfl

theorem keyed_of_isKeyed {ps : List Parameter} (h : ∀ p ∈ ps, IsKeyed p) :
    ∃ entries, keyed (.list (ps.map .map)) = .ok entries ∧
      entries.map (fun e => (keysOf e.1, e.2)) = ps.map fun p => (p.pair, p) := by
  show ∃ entries, (ps.map Value.map).mapM key = .ok entries ∧ _
  induction ps with
  | nil => exact ⟨[], rfl, rfl⟩
  | cons p ps ih =>
      obtain ⟨hp, hps⟩ := List.forall_mem_cons.mp h
      obtain ⟨k, hkey, hpair⟩ := key_of_isKeyed hp
      obtain ⟨entries, hentries, hpairs⟩ := ih hps
      refine ⟨(k, p) :: entries, ?_, ?_⟩
      · rw [List.map_cons, List.mapM_cons, hkey, hentries]
        rfl
      · rw [List.map_cons, List.map_cons, hpair, hpairs]

/-- What is merged, by the pairs that tell it apart. -/
def mergedTable (ps : List Parameter) : Table (Key × Key) Parameter :=
  Table.ofList (ps.map fun p => (p.pair, p))

/-- The list that is merged, each parameter in its normal form. -/
def merged (ps : List Parameter) : List Parameter := (mergedTable ps).map fun e => normalize e.2

theorem merge_eq {shared own : List Parameter} (hshared : ∀ p ∈ shared, IsKeyed p)
    (hown : ∀ p ∈ own, IsKeyed p) :
    merge (.list (shared.map .map)) (.list (own.map .map)) =
      .ok (merged (shared ++ own)) := by
  obtain ⟨outer, houter, hfirst⟩ := keyed_of_isKeyed hshared
  obtain ⟨inner, hinner, hsecond⟩ := keyed_of_isKeyed hown
  have htable : (Table.insertAll (Table.ofList outer) inner).map (fun e => (keysOf e.1, e.2)) =
      mergedTable (shared ++ own) := by
    rw [Table.map_insertAll keysOf_beq, Table.ofList, Table.map_insertAll keysOf_beq, hfirst,
      hsecond, ← Table.insertAll_append, mergedTable, List.map_append]
    rfl
  have hvalues : (Table.insertAll (Table.ofList outer) inner).map (fun e => normalize e.2) =
      merged (shared ++ own) := by
    rw [merged, ← htable, List.map_map]
    rfl
  rw [merge, houter, hinner, ← hvalues]
  rfl

theorem pair_of_mem_mergedTable {ps : List Parameter} {e : (Key × Key) × Parameter}
    (h : e ∈ mergedTable ps) : e.2.pair = e.1 ∧ lastOf? ps e.1 = some e.2 := by
  have hpairs : ∀ e ∈ mergedTable ps, e.2.pair = e.1 := by
    apply Table.forall_mem_ofList
    intro e he
    obtain ⟨p, -, rfl⟩ := List.mem_map.mp he
    rfl
  have hfound := (Table.apart_ofList _).get?_of_mem h
  rw [Table.get?_ofList, ← List.map_reverse, Table.get?_map_pair] at hfound
  exact ⟨hpairs e h, hfound⟩

theorem map_pair_merged (ps : List Parameter) :
    (merged ps).map pair = Table.keys (mergedTable ps) := by
  rw [merged, List.map_map]
  apply List.map_congr_left
  intro e he
  exact (pair_normalize e.2).trans (pair_of_mem_mergedTable he).1

theorem map_pair_merged_eq_eraseDups (ps : List Parameter) :
    (merged ps).map pair = (ps.map pair).eraseDups := by
  rw [map_pair_merged, mergedTable, Table.keys_ofList]
  simp [Table.keys, Function.comp_def]

theorem exists_of_mem_merged {ps : List Parameter} {q : Parameter} (h : q ∈ merged ps) :
    ∃ p, lastOf? ps q.pair = some p ∧ q = normalize p := by
  obtain ⟨e, he, rfl⟩ := List.mem_map.mp h
  obtain ⟨hpair, hlast⟩ := pair_of_mem_mergedTable he
  exact ⟨e.2, by rwa [pair_normalize, hpair], rfl⟩

theorem isKeyed_of_mem_merged {ps : List Parameter} (h : ∀ p ∈ ps, IsKeyed p) :
    ∀ q ∈ merged ps, IsKeyed q := by
  intro q hq
  obtain ⟨p, hlast, rfl⟩ := exists_of_mem_merged hq
  exact (h p (List.mem_reverse.mp (List.mem_of_find?_eq_some hlast))).normalize

/-- What is merged already is merged into itself. -/
theorem merged_merged (ps : List Parameter) : merged (merged ps) = merged ps := by
  have hdistinct : Table.Distinct ((merged ps).map fun p => (p.pair, p)) := by
    have hkeys : Table.keys ((merged ps).map fun p => (p.pair, p)) = (merged ps).map pair := by
      simp [Table.keys, Function.comp_def]
    rw [Table.Distinct, hkeys, map_pair_merged]
    exact Table.apart_iff_distinct.mp (Table.apart_ofList _)
  have hnormal : ∀ q ∈ merged ps, normalize q = q := by
    intro q hq
    obtain ⟨p, -, rfl⟩ := exists_of_mem_merged hq
    exact normalize_normalize p
  conv_lhs => rw [merged, mergedTable, Table.ofList_of_distinct hdistinct, List.map_map]
  exact List.map_congr_left hnormal |>.trans (List.map_id _)

end Parameter

namespace Catalog

open Parameter

/-! ## Parameters of operations -/

/-- Parameters without the first of them that is a body. -/
inductive WithoutBody : List Parameter → List Parameter → Prop
  | all {ps : List Parameter} (h : ∀ p ∈ ps, isBody p = false) : WithoutBody ps ps
  | first {before after : List Parameter} {p : Parameter} (hbefore : ∀ q ∈ before, isBody q = false)
      (hp : isBody p = true) : WithoutBody (before ++ p :: after) (before ++ after)

theorem withoutBody_bodyParameter (ps : List Parameter) : WithoutBody ps (bodyParameter ps).2 := by
  unfold bodyParameter
  cases hfind : ps.find? isBody with
  | none => exact .all (by simpa using hfind)
  | some p =>
      obtain ⟨hp, before, after, rfl, hbefore⟩ := List.find?_eq_some_iff_append.mp hfind
      have hothers : ∀ q ∈ before, isBody q = false := by simpa using hbefore
      have herase : (before ++ p :: after).eraseP isBody = before ++ after := by
        rw [List.eraseP_append_right _ fun q hq => by simp [hothers q hq],
          List.eraseP_cons_of_pos hp]
      show WithoutBody _ ((before ++ p :: after).eraseP isBody)
      rw [herase]
      exact .first hothers hp

theorem parameters_of_readOperation {swagger : Bool} {path method : String}
    {definition shared : Value} {d d' : Draft} {o : Operation}
    (h : Gathers (readOperation swagger path method definition shared) d o d') :
    ∃ own merged body, definition.get "parameters" (.list []) = .ok own ∧
      Parameter.merge shared own = .ok merged ∧
      bodyOf swagger definition merged = .ok (body, o.parameters) := by
  unfold readOperation at h
  obtain ⟨_, -, h⟩ := gathers_access_bind.mp h
  obtain ⟨own, hown, h⟩ := gathers_access_bind.mp h
  obtain ⟨merged, hmerged, h⟩ := gathers_access_bind.mp h
  obtain ⟨_, -, h⟩ := gathers_access_bind.mp h
  obtain ⟨_, -, h⟩ := gathers_access_bind.mp h
  obtain ⟨_, _, -, h⟩ := gathers_bind.mp h
  obtain ⟨⟨body, parameters⟩, hbody, h⟩ := gathers_access_bind.mp h
  obtain ⟨_, _, -, h⟩ := gathers_bind.mp h
  obtain ⟨_, -, h⟩ := gathers_access_bind.mp h
  obtain ⟨rfl, -⟩ := gathers_pure.mp h
  exact ⟨own, merged, body, hown, hmerged, hbody⟩

/-- Of parameters whose names and places can be told apart there is one for each pair of a name and
a place, in the order in which the pairs come first: the operation's own last one of the pair, or
else the last shared one, in its normal form. The normal form has all members of a parameter, and
besides them at most a schema of the declared type. What is merged stays as it is when it is merged
again; and where the body is a parameter, an operation has all that was merged but the first
body. -/
theorem parameters_of_every_operation {shared own : List Parameter}
    (hshared : ∀ p ∈ shared, p.IsKeyed) (hown : ∀ p ∈ own, p.IsKeyed) :
    ∃ merged, merge (.list (shared.map .map)) (.list (own.map .map)) = .ok merged ∧
      merged.map pair = ((shared ++ own).map pair).eraseDups ∧
      (∀ q ∈ merged, ∃ p, (lastOf? own q.pair).or (lastOf? shared q.pair) = some p ∧
        q = normalize p) ∧
      (∀ p : Parameter,
        (∀ key v, Table.get? p key = some v → Table.get? (normalize p) key = some v) ∧
        (∀ type, Table.get? p "schema" = none → Table.get? p "type" = some type →
          normalize p = p ++ [("schema", .map [("type", type)])]) ∧
        (Table.get? p "schema" ≠ none ∨ Table.get? p "type" = none → normalize p = p)) ∧
      merge (.list (merged.map .map)) (.list []) = .ok merged ∧
      ∀ path method definition d o d',
        definition.get "parameters" (.list []) = .ok (.list (own.map .map)) →
        Gathers (readOperation true path method definition (.list (shared.map .map))) d o d' →
        WithoutBody merged o.parameters := by
  have hall : ∀ p ∈ shared ++ own, p.IsKeyed := List.forall_mem_append.mpr ⟨hshared, hown⟩
  have hmerge := merge_eq hshared hown
  refine ⟨merged (shared ++ own), hmerge, map_pair_merged_eq_eraseDups _, ?_, ?_, ?_, ?_⟩
  · intro q hq
    rw [← lastOf?_append]
    exact exists_of_mem_merged hq
  · intro p
    refine ⟨fun key v => get?_normalize_of_some, fun type => normalize_of_type, ?_⟩
    rintro (hschema | htype)
    · exact normalize_of_schema hschema
    · exact normalize_of_no_type htype
  · have hempty : ∀ p ∈ ([] : List Parameter), p.IsKeyed := by simp
    have hagain := merge_eq (isKeyed_of_mem_merged hall) hempty
    rwa [List.append_nil, merged_merged] at hagain
  · intro path method definition d o d' hparameters hread
    obtain ⟨found, merged', body, hfound, hmerged, hbody⟩ := parameters_of_readOperation hread
    obtain rfl := Except.ok.inj (hparameters.symm.trans hfound)
    obtain rfl := Except.ok.inj (hmerge.symm.trans hmerged)
    have hkept : (bodyParameter (merged (shared ++ own))).2 = o.parameters :=
      congrArg Prod.snd (Except.ok.inj hbody)
    exact hkept ▸ withoutBody_bodyParameter _

def sharedParameters : List Parameter :=
  [[("name", .text "id"), ("in", .text "path"), ("type", .text "string")],
    [("name", .int 1), ("in", .text "query")],
    [("name", .text "id"), ("in", .text "path"), ("type", .text "integer")]]

def ownParameters : List Parameter :=
  [[("name", .text "pet"), ("in", .text "body")],
    [("name", .bool true), ("in", .text "query"), ("schema", .null), ("type", .text "string")],
    [("name", .text "draft"), ("in", .text "body")]]

def petDefinition : Value := .map [("parameters", .list (ownParameters.map .map))]

def mergedTexts : List String :=
  ["\x7b'name': 'id', 'in': 'path', 'type': 'integer', 'schema': \x7b'type': 'integer'\x7d\x7d",
    "\x7b'name': True, 'in': 'query', 'schema': None, 'type': 'string'\x7d",
    "\x7b'name': 'pet', 'in': 'body'\x7d", "\x7b'name': 'draft', 'in': 'body'\x7d"]

theorem merged_of_petDefinition :
    (merge (.list (sharedParameters.map .map)) (.list (ownParameters.map .map))).toOption.map
      (fun ps => ps.map fun p => (Value.map p).quoted) = some mergedTexts := by
  decide +kernel

theorem kept_of_petDefinition :
    ((readOperation true "/pets" "post" petDefinition (.list (sharedParameters.map .map))).run.run
        ⟨empty default true, []⟩).1.toOption.map
        (fun o => o.parameters.map fun p => p.name.plain) =
      some ["id", "True", "draft"] := by
  decide +kernel

theorem parameters_of_petDefinition :
    (∀ p ∈ sharedParameters, p.IsKeyed) ∧ (∀ p ∈ ownParameters, p.IsKeyed) ∧
    ∃ merged o d',
      merge (.list (sharedParameters.map .map)) (.list (ownParameters.map .map)) = .ok merged ∧
      (merged.map fun p => (Value.map p).quoted) = mergedTexts ∧
      merge (.list (merged.map .map)) (.list []) = .ok merged ∧
      Gathers (readOperation true "/pets" "post" petDefinition (.list (sharedParameters.map .map)))
        ⟨empty default true, []⟩ o d' ∧
      (o.parameters.map fun p => p.name.plain) = ["id", "True", "draft"] ∧
      WithoutBody merged o.parameters := by
  have hshared : ∀ p ∈ sharedParameters, p.IsKeyed := by decide +kernel
  have hown : ∀ p ∈ ownParameters, p.IsKeyed := by decide +kernel
  obtain ⟨merged, hmerge, -, -, -, hagain, hkept⟩ := parameters_of_every_operation hshared hown
  have htexts := merged_of_petDefinition
  rw [hmerge] at htexts
  have hnames := kept_of_petDefinition
  rcases hrun : (readOperation true "/pets" "post" petDefinition
    (.list (sharedParameters.map .map))).run.run ⟨empty default true, []⟩ with ⟨f | o, d'⟩
  · rw [hrun] at hnames
    cases hnames
  · rw [hrun] at hnames
    exact ⟨hshared, hown, merged, o, d', hmerge, Option.some.inj htexts, hagain, hrun,
      Option.some.inj hnames, hkept _ _ _ _ _ _ rfl hrun⟩

end Catalog

end RestGraph
