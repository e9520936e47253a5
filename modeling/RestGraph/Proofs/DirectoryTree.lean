import Mathlib.Data.List.Infix
import RestGraph.Files.Tree
import RestGraph.Proofs.Pointer
import RestGraph.Proofs.Table

namespace RestGraph

/-!
# Laws of directory trees

The path made of the names on the way to a place leads to the place, if all but the last name
lead to directories. What lies above a directory is a directory.
-/

theorem Text.toList_intersperse (separator : String) (parts : List String) :
    (Text.intersperse separator parts).toList =
      List.intercalate separator.toList (parts.map String.toList) := by
  induction parts with
  | nil => rfl
  | cons part parts ih =>
      cases parts with
      | nil => simp [Text.intersperse, List.intercalate_singleton]
      | cons next parts =>
          rw [Text.intersperse, String.toList_append, String.toList_append, ih]
          simp [List.intercalate_cons_cons]

namespace Files

/-- What can name an entry of a directory. -/
structure IsEntryName (name : String) : Prop where
  nonempty : name ≠ ""
  here : name ≠ "."
  above : name ≠ ".."
  slash : '/' ∉ name.toList

instance (name : String) : Decidable (IsEntryName name) :=
  decidable_of_iff (name ≠ "" ∧ name ≠ "." ∧ name ≠ ".." ∧ '/' ∉ name.toList)
    ⟨fun ⟨hnonempty, hhere, habove, hslash⟩ => ⟨hnonempty, hhere, habove, hslash⟩,
      fun h => ⟨h.nonempty, h.here, h.above, h.slash⟩⟩

/-! ## Places above a place -/

theorem ancestors_eq (place : List String) : ancestors place = place.inits.reverse := by
  induction place with
  | nil => rfl
  | cons name names ih => simp [ancestors, ih]

theorem mem_ancestors_iff {place directory : List String} :
    directory ∈ ancestors place ↔ directory <+: place := by
  rw [ancestors_eq, List.mem_reverse, List.mem_inits]

/-- The nearest place comes first. -/
theorem pairwise_ancestors (place : List String) :
    (ancestors place).Pairwise fun near far => far.length < near.length := by
  induction place with
  | nil => exact List.pairwise_singleton _ _
  | cons name names ih =>
      rw [ancestors, List.pairwise_append]
      refine ⟨?_, List.pairwise_singleton _ _, ?_⟩
      · apply List.pairwise_map.mpr
        exact ih.imp fun hlt => Nat.succ_lt_succ hlt
      · intro near hnear far hfar
        obtain ⟨names', -, rfl⟩ := List.mem_map.mp hnear
        obtain rfl := List.mem_singleton.mp hfar
        exact Nat.zero_lt_succ _

theorem mem_before_iff {place directory : List String} {before after : List (List String)}
    (h : ancestors place = before ++ directory :: after) {other : List String} :
    other ∈ before ↔ other <+: place ∧ directory.length < other.length := by
  have hsorted := pairwise_ancestors place
  rw [h, List.pairwise_append, List.pairwise_cons] at hsorted
  obtain ⟨-, ⟨hafter, -⟩, hbefore⟩ := hsorted
  rw [← mem_ancestors_iff, h, List.mem_append, List.mem_cons]
  constructor
  · exact fun hmem => ⟨.inl hmem, hbefore other hmem directory List.mem_cons_self⟩
  · rintro ⟨hmem | rfl | hmem, hlt⟩
    · exact hmem
    · exact absurd hlt (Nat.lt_irrefl _)
    · exact absurd hlt (Nat.lt_asymm (hafter other hmem))

namespace Tree

variable {t : Tree}

theorem isDirectory_iff {p : Place} :
    t.isDirectory p = true ↔
      p = [] ∨ (∃ d ∈ t.directories, p <+: d) ∨ ∃ f ∈ t.files, p ≠ f.1 ∧ p <+: f.1 := by
  simp [isDirectory, or_assoc]

theorem isDirectory_of_within {p q : Place} (hq : q <+: p) (h : t.isDirectory p = true) :
    t.isDirectory q = true := by
  rw [isDirectory_iff] at h ⊢
  rcases h with rfl | ⟨d, hd, hp⟩ | ⟨f, hf, hne, hp⟩
  · exact .inl (List.prefix_nil.mp hq)
  · exact .inr (.inl ⟨d, hd, hq.trans hp⟩)
  · refine .inr (.inr ⟨f, hf, ?_, hq.trans hp⟩)
    rintro rfl
    exact hne (hp.eq_of_length_le hq.length_le)

theorem step_of_isEntryName {p : Place} (hp : t.isDirectory p = true) {name : String}
    (hname : IsEntryName name) : t.step p name = .ok (p ++ [name]) := by
  simp [step, hp, hname.nonempty, hname.here, hname.above]

theorem walk_of_isDirectory {p q : Place} (hq : ∀ name ∈ q, IsEntryName name)
    (h : t.isDirectory (p ++ q) = true) : t.walk p q = .ok (p ++ q) := by
  induction q generalizing p with
  | nil => simp [walk]
  | cons name q ih =>
      have hp := step_of_isEntryName (isDirectory_of_within (List.prefix_append p (name :: q)) h)
        (hq name List.mem_cons_self)
      have hrest : t.walk (p ++ [name]) q = .ok (p ++ [name] ++ q) := by
        apply ih
        · exact fun other hother => hq other (List.mem_cons_of_mem _ hother)
        · rwa [List.append_assoc]
      rw [walk, hp]
      show t.walk (p ++ [name]) q = _
      rw [hrest, List.append_assoc]
      rfl

theorem walk_append (p : Place) (names more : List String) :
    t.walk p (names ++ more) = (t.walk p names).bind fun q => t.walk q more := by
  induction names generalizing p with
  | nil => rfl
  | cons name names ih =>
      rw [List.cons_append, walk, walk]
      cases t.step p name with
      | error f => rfl
      | ok q => exact ih q

section Rooted

variable {directory : Place} {name : String} (hdirectory : t.isDirectory directory = true)
  (hnames : ∀ part ∈ directory, IsEntryName part) (hname : IsEntryName name) (current : Place)

include hdirectory hnames hname

/-- The path to an entry of a directory is followed from the root, wherever the current directory
is. -/
theorem locate_rooted :
    t.locate current (rooted (directory ++ [name])) = .ok (directory ++ [name]) := by
  have hparts : ∀ part ∈ directory ++ [name], IsEntryName part :=
    List.forall_mem_append.mpr ⟨hnames, List.forall_mem_singleton.mpr hname⟩
  have hpath : (rooted (directory ++ [name])).toList =
      List.intercalate ['/'] ([] :: (directory ++ [name]).map String.toList) := by
    obtain ⟨first, rest, hcons⟩ : ∃ first rest, directory ++ [name] = first :: rest :=
      List.exists_cons_of_ne_nil (by simp)
    rw [rooted, String.toList_append, Text.toList_intersperse, hcons, List.map_cons,
      List.intercalate_cons_cons]
    rfl
  have hsplit : Text.splitBy (· == '/') (rooted (directory ++ [name])).toList =
      [] :: (directory ++ [name]).map String.toList := by
    rw [hpath]
    apply Text.splitBy_intercalate (List.cons_ne_nil _ _)
    intro piece hpiece
    rcases List.mem_cons.mp hpiece with rfl | hpiece
    · exact List.not_mem_nil
    · obtain ⟨part, hpart, rfl⟩ := List.mem_map.mp hpiece
      exact (hparts part hpart).slash
  have hstart : Text.hasStart (rooted (directory ++ [name])) "/" = true := by
    rw [Text.hasStart, rooted, String.toList_append]
    exact List.isPrefixOf_iff_prefix.mpr (List.prefix_append _ _)
  have hempty : (rooted (directory ++ [name])).isEmpty = false := by simp [rooted]
  have hwalk : t.walk [] (directory ++ [name]) = .ok (directory ++ [name]) := by
    rw [walk_append, walk_of_isDirectory hnames hdirectory]
    show t.walk directory [name] = _
    rw [walk, step_of_isEntryName hdirectory hname]
    rfl
  have hpieces : (([] :: (directory ++ [name]).map String.toList).map String.ofList) =
      "" :: (directory ++ [name]) := by
    simp
  rw [locate, hsplit, hempty, hstart, hpieces]
  exact hwalk

theorem kind?_rooted :
    ((system current).kind? (rooted (directory ++ [name]))).run t =
      (t.kindAt? (directory ++ [name]), t) := by
  show ((t.locate current (rooted (directory ++ [name]))).toOption.bind t.kindAt?, t) = _
  rw [locate_rooted hdirectory hnames hname]
  rfl

theorem read_rooted :
    ((system current).read (rooted (directory ++ [name]))).run t =
      (t.read (directory ++ [name]), t) := by
  show ((t.locate current (rooted (directory ++ [name]))).bind t.read, t) = _
  rw [locate_rooted hdirectory hnames hname]
  rfl

end Rooted

theorem read_of_kindAt? {place : Place} (h : t.kindAt? place = some .file) :
    ∃ content, Table.get? t.files place = some content ∧ t.read place = .ok content := by
  unfold kindAt? at h
  split at h
  · cases h
  · rename_i hdirectory
    split at h
    · rename_i hfile
      obtain ⟨content, hcontent⟩ := Table.contains_iff.mp hfile
      refine ⟨content, hcontent, ?_⟩
      rw [read, if_neg hdirectory, hcontent]
    · cases h

end Tree

end Files

end RestGraph
