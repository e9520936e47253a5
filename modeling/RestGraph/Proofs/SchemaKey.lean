import RestGraph.Graph.Key
import RestGraph.Proofs.Filing

namespace RestGraph.Graph

open Build

/-!
# Translation stays within the keys

Whatever the properties and the items of a schema lead to, the names of all objects on the way are
among the keys of the description.
-/

/-! ## Names in schemas -/

section Membership

variable {c : Catalog} {mode : Mode} {s : Schema.Members}

theorem keysIn_subset_members {key : String} {v : Value} {ms : List (String × Value)}
    (h : (key, v) ∈ ms) : keysIn mode v ⊆ keysInMembers mode ms := by
  induction ms with
  | nil => cases h
  | cons e ms ih =>
      rcases List.mem_cons.mp h with rfl | hrest
      · exact List.subset_append_left _ _
      · exact List.subset_append_of_subset_right _ (ih hrest)

theorem members_subset_keysIn (mode : Mode) (s : Schema.Members) :
    keysInMembers mode s ⊆ keysIn mode (.map s) := by
  unfold keysIn
  exact List.subset_append_right _ _

theorem keysIn_subset_of_get? {key : String} {v : Value} (h : Table.get? s key = some v) :
    keysIn mode v ⊆ keysIn mode (.map s) :=
  List.Subset.trans (keysIn_subset_members (Table.mem_of_get? h)) (members_subset_keysIn mode s)

theorem mem_keysIn_of_reference {target : Value} {text : String}
    (htarget : Table.get? s "$ref" = some target)
    (hleads : Schema.referenceName target = .ok text) :
    .text (referenceKey mode text) ∈ keysIn mode (.map s) := by
  cases target with
  | text t =>
      obtain rfl := Except.ok.inj hleads
      simp [keysIn, referenceNames, htarget]
  | _ => cases hleads

theorem properties_eq_ok {ps : List (String × Value)} (h : properties s = .ok ps) :
    Table.get? s "properties" = some (.map ps) := by
  unfold properties at h
  split at h
  · cases h
  · rename_i v hv
    cases v with
    | map ms =>
        cases h
        exact hv
    | _ => cases h

theorem mem_keysIn_of_property {ps : List (String × Value)} {p : String × Value}
    (hps : Table.get? s "properties" = some (.map ps)) (hp : p ∈ ps) :
    .text p.1 ∈ keysIn mode (.map s) := by
  simp only [keysIn, propertyNames, hps, List.mem_append, List.mem_map]
  exact .inl (.inl (.inr ⟨p, hp, rfl⟩))

theorem mem_keysOf_of_schema {key : String} {schema : Value}
    (h : Table.get? (c.schemas mode) key = some schema) : keysIn mode schema ⊆ keysOf c mode := by
  intro k hk
  have hmem := Table.mem_of_get? h
  exact List.mem_append_right _ (List.mem_flatMap.mpr ⟨_, hmem, hk⟩)

theorem mem_keysOf_of_root {name : String} (h : name ∈ rootNames c mode) :
    .text name ∈ keysOf c mode :=
  List.mem_append_left _ (List.mem_cons_of_mem _ (List.mem_map_of_mem h))

end Membership

/-! ## Nodes of those names -/

/-- An object among the nodes has a name that is a key, and so have all that it leads to. -/
structure Within (c : Catalog) (node : Node) : Prop where
  inner : keysIn node.mode node.schema ⊆ keysOf c node.mode
  name : ∀ ms, node.schema = .map ms → Schema.shape? ms = some .object →
    node.name ∈ keysOf c node.mode

section Closure

variable {c : Catalog} {mode : Mode}

theorem within_definition {key : String} {schema : Value}
    (h : Table.get? (c.schemas mode) key = some schema) (hkey : .text key ∈ keysOf c mode) :
    Within c ⟨mode, .text key, schema⟩ :=
  ⟨mem_keysOf_of_schema h, fun _ _ _ => hkey⟩

theorem within_root {name : String} (hname : name ∈ rootNames c mode) {schema : Value}
    (h : Table.get? (c.schemas mode) name = some schema) : Within c ⟨mode, .text name, schema⟩ :=
  within_definition h (mem_keysOf_of_root hname)

theorem within_of_inner {name schema : Value} {node : Node}
    (hkeys : keysIn mode schema ⊆ keysOf c mode)
    (hname : ∀ ms, schema = .map ms → Schema.shape? ms = some .object → name ∈ keysOf c mode)
    (h : Inner c mode name schema node) : Within c node := by
  cases h with
  | own own => exact ⟨hkeys, hname⟩
  | definition refers leads defined =>
      refine within_definition defined (hkeys ?_)
      cases schema with
      | map ms => exact mem_keysIn_of_reference refers leads
      | _ => cases refers

theorem closed_within (c : Catalog) : Closed c (Within c) where
  property := by
    intro mode name s ps p node hnode _ hps hp hinner
    have hproperties := properties_eq_ok hps
    have hschema : keysIn mode (.map s) ⊆ keysOf c mode := hnode.inner
    refine within_of_inner ?_ ?_ hinner
    · refine List.Subset.trans ?_ hschema
      refine List.Subset.trans ?_ (keysIn_subset_of_get? hproperties)
      exact List.Subset.trans (keysIn_subset_members hp) (members_subset_keysIn mode ps)
    · exact fun _ _ _ => hschema (mem_keysIn_of_property hproperties hp)
  items := by
    intro mode name items s node hnode _ hitems hinner
    have hschema : keysIn mode (.map s) ⊆ keysOf c mode := hnode.inner
    refine within_of_inner (List.Subset.trans (keysIn_subset_of_get? hitems) hschema) ?_ hinner
    rintro ms rfl hshape
    have htitle : itemsLabel name (.map ms) = Value.memberOr ms "title" (.text itemsName) := by
      simp [itemsLabel, hshape]
    rw [htitle]
    unfold Value.memberOr
    cases hfound : Table.get? ms "title" with
    | none => exact List.mem_cons_self
    | some title => exact hschema (by simp [keysIn, itemTitles, hitems, hfound])

end Closure

end RestGraph.Graph
