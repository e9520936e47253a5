import Mathlib.Logic.Relation
import RestGraph.Proofs.Session

namespace RestGraph.Graph

open Build

/-!
# The types of inline schemas

An inline schema has no name of its own. Its type is kept under the name of a property or
under a title, and whatever is kept there before it is taken for its type. What is new under
a key has the contents of its schema, and no later step changes the contents of a type.
-/

/-- The nodes that stand inline in others. Unless `untitled` holds, enumerations without a
title in arrays are left out: they are named after their arrays. -/
inductive Inline (c : Catalog) (given : Node → Prop) (untitled : Prop) : Node → Prop
  | property {mode : Mode} {name : Value} {ms : Schema.Members} {ps : List (String × Value)}
      {p : String × Value} (known : Known c given ⟨mode, name, .map ms⟩)
      (shape : Schema.shape? ms = some .object) (found : properties ms = .ok ps) (mem : p ∈ ps)
      (own : Schema.target? p.2 = none) : Inline c given untitled ⟨mode, .text p.1, p.2⟩
  | items {mode : Mode} {name : Value} {ms items : Schema.Members}
      (known : Known c given ⟨mode, name, .map ms⟩) (shape : Schema.shape? ms = some .array)
      (found : Table.get? ms "items" = some (.map items))
      (own : Schema.target? (.map items) = none)
      (titled : Table.contains items "title" = true ∨
        Schema.shape? items ≠ some .enumeration ∨ untitled) :
      Inline c given untitled ⟨mode, itemsLabel name (.map items), .map items⟩

/-- The builds that translate a node: on its own, or as the items of an array. -/
inductive Translates (c : Catalog) : Node → Build (Option TypeRef) → Prop
  | direct {node : Node} {links : Table String Link} {iteration : Int} :
      Translates c node (translate c node.mode node.name node.schema links iteration)
  | item {mode : Mode} {name : Value} {items : Schema.Members} {iteration : Int}
      (own : Schema.target? (.map items) = none) :
      Translates c ⟨mode, itemsLabel name (.map items), .map items⟩
        (itemType c (fun n schema => translate c mode n schema [] iteration) mode name
          (.map items))

/-- The nodes that have a key in common, directly or through others. -/
def SharesKey (c : Catalog) (given : Node → Prop) (named : String → String → Prop) :
    Node → Node → Prop :=
  Relation.ReflTransGen fun node other =>
    ∃ ns key, Filed c given named ns key node ∧ Filed c given named ns key other

section Contents

variable {c : Catalog} {given : Node → Prop} {linked untitled : Prop} {s : State}
  {node other : Node} {type : Option TypeRef}

theorem Inline.known (h : Inline c given untitled node) : Known c given node := by
  cases h with
  | property known shape found mem own => exact .property known shape found mem own
  | items known shape found own => exact .items known shape found own

theorem Filed.mode_of_object {named : String → String → Prop} {ns : Mode} {key : Key}
    (h : Filed c given named ns key node) {ms : Schema.Members} (hmap : node.schema = .map ms)
    (hshape : Schema.shape? ms = some .object) : node.mode = ns := by
  cases h with
  | definition defined => rfl
  | own known keyOf =>
      cases keyOf with
      | object => rfl
      | enumeration shape =>
          obtain rfl := Value.map.inj hmap
          simp [shape] at hshape

theorem Own.shared {named : String → String → Prop} {ns : Mode} {key : Key}
    (h : Filed c given named ns key node) (h' : Filed c given named ns key other)
    (hsame : other.schema = node.schema) (hown : Own c given s other type) :
    Own c given s node type := by
  cases hown with
  | object shape held schema sameMode filled =>
      have hmode := (h'.mode_of_object rfl shape).trans (h.mode_of_object hsame.symm shape).symm
      obtain ⟨mode, name, schema'⟩ := node
      obtain rfl : _ = mode := hmode
      obtain rfl : Value.map _ = schema' := hsame
      exact .object shape held schema sameMode filled
  | enumeration shape entry items held members =>
      obtain ⟨mode, name, schema'⟩ := node
      obtain rfl : Value.map _ = schema' := hsame
      exact .enumeration shape entry items held members

/-- If all nodes that share a key with an inline object or enumeration have its schema, its
type has its contents, whichever of them it was made from. -/
theorem Made.own (hs : Faithful c given linked s) (hmade : Made c given s node type)
    (hagree : ∀ other, SharesKey c given s.Named node other → other.schema = node.schema)
    {ms : Schema.Members} (hmap : node.schema = .map ms)
    (hshape : Schema.shape? ms = some .object ∨ Schema.shape? ms = some .enumeration) :
    Own c given s node type := by
  induction hmade with
  | scalar shape =>
      obtain rfl := Value.map.inj hmap
      simp [shape] at hshape
  | emptyObject shape =>
      obtain rfl := Value.map.inj hmap
      simp [shape] at hshape
  | array shape =>
      obtain rfl := Value.map.inj hmap
      simp [shape] at hshape
  | object shape labelled typeName named held schema sameMode described =>
      exact .object shape held schema sameMode (hs.composites _ _ held).2.2.2
  | enumeration shape entry items members named held =>
      exact .enumeration shape entry items held (members_of_membersFrom members)
  | @shared ns key node other type filed filed' _ ih =>
      have hstep : SharesKey c given s.Named node other := .single ⟨ns, key, filed, filed'⟩
      have hsame := hagree other hstep
      have hagree' : ∀ x, SharesKey c given s.Named other x → x.schema = other.schema :=
        fun x hx => (hagree x (hstep.trans hx)).trans hsame.symm
      exact (ih hagree' (hsame.trans hmap)).shared filed filed' hsame

theorem translates_ensures (hs : Faithful c given True s) (hknown : Known c given node)
    {ms : Schema.Members} (hmap : node.schema = .map ms)
    (hshape : Schema.shape? ms = some .object ∨ Schema.shape? ms = some .enumeration)
    {b : Build (Option TypeRef)} (hb : Translates c node b) :
    Ensures (Steady c given True) s b fun type s' => Translated c given s s' node type := by
  cases hb with
  | direct => exact translate_ensures hs (fun _ _ => hknown) (.inr trivial) _
  | @item mode name items iteration own =>
      obtain rfl := Value.map.inj hmap
      obtain ⟨shape, hfound, hscalar⟩ :
          ∃ shape, Schema.shape? items = some shape ∧ shape ≠ .scalar := by
        rcases hshape with hshape | hshape
        · exact ⟨.object, hshape, by decide⟩
        · exact ⟨.enumeration, hshape, by decide⟩
      rw [itemType_of_own c _ _ _ own hfound hscalar]
      exact translate_ensures hs (fun _ _ => hknown) (.inl rfl) _

end Contents

/-- Whatever a session did before, an inline object or enumeration whose key is new gets a
type of its own contents, and so does one that shares its keys with equal schemas only; the
contents stay what they are in all later states. If a type was kept under the key of an
inline node, the node gets that type. It never gets the contents of another in any other
way. -/
theorem inline_types_of_every_session {c : Catalog} {strict : Bool} {steps later : List Step}
    {node : Node} (hinline : Inline c (Given (steps ++ later)) True node) {ms : Schema.Members}
    (hmap : node.schema = .map ms)
    (hshape : Schema.shape? ms = some .object ∨ Schema.shape? ms = some .enumeration)
    {b : Build (Option TypeRef)} (hb : Translates c node b) {type : Option TypeRef} {s' : State}
    (hrun : b.run (after c (.empty strict) steps) = (.ok type, s')) :
    let s := after c (.empty strict) steps
    let last := after c s' later
    (∃ ns label, KeyOf s'.Named node ns label ∧
      (Table.get? (s.cache ns) label = none → Own c (Given (steps ++ later)) last node type) ∧
      (Table.get? (s.cache ns) label = some none →
        type = none ∨ Own c (Given (steps ++ later)) last node type) ∧
      (Inline c (Given (steps ++ later)) False node →
        ∀ t, Table.get? (s.cache ns) label = some (some t) → type = some t)) ∧
    ((∀ other, SharesKey c (Given (steps ++ later)) last.Named node other →
        other.schema = node.schema) →
      Own c (Given (steps ++ later)) last node type) := by
  intro s last
  have hwithin : ∀ q ∈ steps ++ later, q.Within (Given (steps ++ later)) True := fun q hq =>
    ⟨fun node links iteration heq => ⟨links, iteration, heq ▸ hq⟩, .inr trivial⟩
  have hs : Faithful c (Given (steps ++ later)) True s := (faithful_after (faithful_empty strict)
    fun q hq => hwithin q (List.mem_append_left _ hq)).2
  obtain ⟨hsteady, htype⟩ := (translates_ensures hs hinline.known hmap hshape hb).of_ok hrun
  obtain ⟨hx, hlast⟩ := faithful_after (hsteady.2 hs)
    fun q hq => hwithin q (List.mem_append_right _ hq)
  refine ⟨?_, fun hagree => (htype.made.mono hx).own hlast hagree hmap hshape⟩
  obtain ⟨ns, label, hkey, hkept, hvoid, hnew⟩ := htype.keptOrNew ms hmap hshape
  refine ⟨ns, label, hkey, fun hget => (hnew hget).later hx hlast, fun hget => ?_,
    fun _ => hkept⟩
  exact (hvoid hget).imp_right fun hown => hown.later hx hlast

/-! ### Two addresses -/

def textSchema : Value := .map [("type", .text "string")]

def addressMembers (property : String) : Schema.Members :=
  [("type", .text "object"), ("properties", .map [(property, textSchema)])]

def addressNode (property : String) : Node :=
  ⟨.output, .text "address", .map (addressMembers property)⟩

def ownerMembers (property : String) : Schema.Members :=
  [("type", .text "object"),
    ("properties", .map [("address", .map (addressMembers property))])]

def ownerCatalog : Catalog :=
  ((Catalog.empty default true).define "Person" (.map (ownerMembers "street"))).define "Company"
    (.map (ownerMembers "city"))

theorem inline_address {steps : List Step} {untitled : Prop} (name property : String)
    (h : Table.get? ownerCatalog.outputs name = some (.map (ownerMembers property))) :
    Inline ownerCatalog (Given steps) untitled (addressNode property) :=
  .property (p := ("address", .map (addressMembers property))) (.definition h)
    rfl rfl List.mem_cons_self rfl

/-- The address of a person, asked for when that of a company may come later. -/
def streetRun : Except Failure (Option TypeRef) × State :=
  (translate ownerCatalog .output (.text "address") (addressNode "street").schema [] 0).run
    (after ownerCatalog (.empty true) [.reference .output "Company" 0])

theorem streetRun_type : streetRun.1.toOption = some (some (.named 1)) := by decide +kernel

theorem get?_before_streetRun :
    Table.get? ((after ownerCatalog (.empty true) [.reference .output "Company" 0]).cache .output)
      (.ofText "address") = none := by
  decide +kernel

/-- The address of a person keeps its street, also when the fields of a company are found
later. -/
theorem inline_address_of_person :
    Own ownerCatalog (Given ([.reference .output "Company" 0] ++ [.fields 0]))
      (after ownerCatalog streetRun.2 [.fields 0]) (addressNode "street") (some (.named 1)) := by
  have hinline : Inline ownerCatalog
      (Given ([.reference .output "Company" 0] ++ [.fields 0])) True (addressNode "street") :=
    inline_address "Person" "street" rfl
  obtain ⟨⟨ns, label, hkey, hnew, -, -⟩, -⟩ := inline_types_of_every_session hinline rfl
    (.inl (by decide)) .direct (Prod.ext (eq_ok_of_toOption streetRun_type) rfl)
  cases hkey with
  | enumeration shape => exact absurd shape (by decide)
  | object shape labelled =>
      obtain rfl := Option.some.inj labelled
      exact hnew get?_before_streetRun

/-- The address of a company, after the fields of a person were found. -/
def cityRun : Except Failure (Option TypeRef) × State :=
  (translate ownerCatalog .output (.text "address") (addressNode "city").schema [] 0).run
    (after ownerCatalog (.empty true) [.reference .output "Person" 0, .fields 0])

theorem cityRun_type : cityRun.1.toOption = some (some (.named 1)) := by decide +kernel

/-- The names of the fields of a composite type, as far as they were found, and those of the
properties that they are found from. -/
def NamedType.names : NamedType → Option (List String) × Option (List String)
  | .composite type =>
      (type.fields?.map Table.keys, (properties type.plan.schema).toOption.map Table.keys)
  | .enumeration _ => (none, none)

theorem names_after_cityRun :
    (after ownerCatalog cityRun.2 [.fields 1]).types[1]?.map NamedType.names =
      some (some ["street"], some ["street"]) := by
  decide +kernel

/-- The address of a company has the street of a person's and not its own city. -/
theorem inline_address_of_company_has_street :
    Inline ownerCatalog (Given [.reference .output "Person" 0, .fields 0, .fields 1]) False
        (addressNode "city") ∧
      cityRun = (.ok (some (.named 1)), cityRun.2) ∧
      (after ownerCatalog cityRun.2 [.fields 1]).types[1]?.map NamedType.names =
        some (some ["street"], some ["street"]) ∧
      ¬ Own ownerCatalog (Given [.reference .output "Person" 0, .fields 0, .fields 1])
        (after ownerCatalog cityRun.2 [.fields 1]) (addressNode "city") (some (.named 1)) := by
  refine ⟨inline_address "Company" "city" rfl, Prod.ext (eq_ok_of_toOption cityRun_type) rfl,
    names_after_cityRun, fun hown => ?_⟩
  have hnames := names_after_cityRun
  cases hown with
  | object shape held schema =>
      rw [held] at hnames
      obtain ⟨-, hproperties⟩ := Prod.mk.inj (Option.some.inj hnames)
      rw [schema] at hproperties
      exact absurd hproperties (by decide)
  | enumeration shape => exact absurd shape (by decide)

end RestGraph.Graph
