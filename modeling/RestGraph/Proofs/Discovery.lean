import RestGraph.Config.Discovery
import RestGraph.Proofs.DirectoryTree

namespace RestGraph.Config

open Files

/-!
# Laws of finding the configuration

The directories from the current one up to the root are looked at in turn. The search ends at the
first that has a configuration file or else a repository, so that a file is found unless a
repository lies below it.
-/

def HoldsFile (t : Tree) (directory : Place) : Prop :=
  t.kindAt? (directory ++ [fileName]) = some .file

def HoldsRepository (t : Tree) (directory : Place) : Prop :=
  t.kindAt? (directory ++ [repositoryName]) = some .directory

instance (t : Tree) (directory : Place) : Decidable (HoldsFile t directory) :=
  inferInstanceAs (Decidable (t.kindAt? (directory ++ [fileName]) = some .file))

instance (t : Tree) (directory : Place) : Decidable (HoldsRepository t directory) :=
  inferInstanceAs (Decidable (t.kindAt? (directory ++ [repositoryName]) = some .directory))

/-- The directory with a configuration file that is the nearest to the current one. -/
structure Nearest (t : Tree) (current directory : Place) : Prop where
  above : directory <+: current
  holds : HoldsFile t directory
  nearest : ∀ other, other <+: current → HoldsFile t other → other.length ≤ directory.length

/-- A repository lies strictly nearer to the current directory. -/
def Hidden (t : Tree) (current directory : Place) : Prop :=
  ∃ other, other <+: current ∧ directory.length < other.length ∧ HoldsRepository t other

/-! ## The search -/

/-- The first of some directories that has a configuration file, if no repository comes before. -/
def firstHolder? (t : Tree) : List Place → Option Place
  | [] => none
  | directory :: above =>
      if HoldsFile t directory then some directory
      else if HoldsRepository t directory then none
      else firstHolder? t above

theorem isEntryName_fileName : IsEntryName fileName := by decide

theorem isEntryName_repositoryName : IsEntryName repositoryName := by decide

theorem run_bind_of_run {α β : Type} {x : StateM Tree α} {t t' : Tree} {a : α}
    (h : x.run t = (a, t')) (f : α → StateM Tree β) : (x >>= f).run t = (f a).run t' := by
  rw [StateT.run_bind, h]
  rfl

section Search

variable {t : Tree} (current : Place)

theorem run_find? {directories : List Place}
    (h : ∀ directory ∈ directories, t.isDirectory directory = true ∧
      ∀ part ∈ directory, IsEntryName part) :
    (find? (Tree.system current) directories).run t =
      ((firstHolder? t directories).map (· ++ [fileName]), t) := by
  induction directories with
  | nil => rfl
  | cons directory above ih =>
      obtain ⟨hdirectory, hparts⟩ := h directory List.mem_cons_self
      have hfile := Tree.kind?_rooted hdirectory hparts isEntryName_fileName current
      have hrepository := Tree.kind?_rooted hdirectory hparts isEntryName_repositoryName current
      have hrest := ih fun other hother => h other (List.mem_cons_of_mem _ hother)
      unfold find? firstHolder?
      rw [run_bind_of_run hfile]
      by_cases hholds : HoldsFile t directory
      · rw [if_pos hholds, if_pos (beq_iff_eq.mpr hholds)]
        rfl
      · rw [if_neg hholds, if_neg (mt beq_iff_eq.mp hholds), run_bind_of_run hrepository]
        by_cases hends : HoldsRepository t directory
        · rw [if_pos hends, if_pos (beq_iff_eq.mpr hends)]
          rfl
        · rw [if_neg hends, if_neg (mt beq_iff_eq.mp hends)]
          exact hrest

theorem firstHolder?_eq_some_iff {directories : List Place} {directory : Place} :
    firstHolder? t directories = some directory ↔
      ∃ before after, directories = before ++ directory :: after ∧ HoldsFile t directory ∧
        ∀ other ∈ before, ¬ HoldsFile t other ∧ ¬ HoldsRepository t other := by
  induction directories with
  | nil => simp [firstHolder?]
  | cons first above ih =>
      unfold firstHolder?
      constructor
      · intro h
        split at h
        · rename_i hholds
          obtain rfl := Option.some.inj h
          exact ⟨[], above, rfl, hholds, by simp⟩
        · rename_i hholds
          split at h
          · cases h
          · rename_i hends
            obtain ⟨before, after, rfl, hdirectory, hbefore⟩ := ih.mp h
            exact ⟨first :: before, after, rfl, hdirectory,
              List.forall_mem_cons.mpr ⟨⟨hholds, hends⟩, hbefore⟩⟩
      · rintro ⟨before, after, hsplit, hdirectory, hbefore⟩
        cases before with
        | nil =>
            obtain ⟨rfl, rfl⟩ := List.cons.inj hsplit
            rw [if_pos hdirectory]
        | cons other before =>
            obtain ⟨rfl, rfl⟩ := List.cons.inj hsplit
            obtain ⟨⟨hholds, hends⟩, hbefore⟩ := List.forall_mem_cons.mp hbefore
            rw [if_neg hholds, if_neg hends]
            exact ih.mpr ⟨before, after, rfl, hdirectory, hbefore⟩

/-- The search up to the root ends at the nearest configuration file, unless it is hidden. -/
theorem firstHolder?_ancestors_iff {directory : Place} :
    firstHolder? t (ancestors current) = some directory ↔
      Nearest t current directory ∧ ¬ Hidden t current directory := by
  rw [firstHolder?_eq_some_iff]
  constructor
  · rintro ⟨before, after, hsplit, hholds, hbefore⟩
    have hmem : directory ∈ ancestors current := by simp [hsplit]
    refine ⟨⟨mem_ancestors_iff.mp hmem, hholds, ?_⟩, ?_⟩
    · intro other habove hother
      by_contra hlt
      have hnear := (mem_before_iff hsplit).mpr ⟨habove, Nat.lt_of_not_le hlt⟩
      exact (hbefore other hnear).1 hother
    · rintro ⟨other, habove, hlt, hother⟩
      exact (hbefore other ((mem_before_iff hsplit).mpr ⟨habove, hlt⟩)).2 hother
  · rintro ⟨⟨habove, hholds, hnearest⟩, hhidden⟩
    obtain ⟨before, after, hsplit⟩ := List.append_of_mem (mem_ancestors_iff.mpr habove)
    refine ⟨before, after, hsplit, hholds, fun other hother => ?_⟩
    obtain ⟨habove', hlt⟩ := (mem_before_iff hsplit).mp hother
    refine ⟨fun hfile => ?_, fun hends => hhidden ⟨other, habove', hlt, hends⟩⟩
    exact Nat.not_lt.mpr (hnearest other habove' hfile) hlt

variable (env : Environment) (hcurrent : t.isDirectory current = true)
  (hnames : ∀ name ∈ current, IsEntryName name)

include hcurrent hnames

omit hnames in
theorem isDirectory_of_mem_ancestors {directory : Place} (h : directory ∈ ancestors current) :
    t.isDirectory directory = true :=
  Tree.isDirectory_of_within (mem_ancestors_iff.mp h) hcurrent

omit hcurrent in
theorem isEntryName_of_mem_ancestors {directory : Place} (h : directory ∈ ancestors current) :
    ∀ part ∈ directory, IsEntryName part :=
  fun part hpart => hnames part ((mem_ancestors_iff.mp h).mem hpart)

theorem run_find?_ancestors :
    (find? (Tree.system current) (ancestors current)).run t =
      ((firstHolder? t (ancestors current)).map (· ++ [fileName]), t) :=
  run_find? current fun _ h =>
    ⟨isDirectory_of_mem_ancestors current hcurrent h, isEntryName_of_mem_ancestors current hnames h⟩

theorem run_discover_none (h : firstHolder? t (ancestors current) = none) :
    (discover (Tree.system current) env).run t = (.ok (default, none), t) := by
  have hfind := run_find?_ancestors current hcurrent hnames
  rw [h] at hfind
  unfold discover
  exact run_bind_of_run hfind _

theorem run_discover_some {directory : Place}
    (h : firstHolder? t (ancestors current) = some directory) {content : String}
    (hcontent : t.read (directory ++ [fileName]) = .ok content) :
    (discover (Tree.system current) env).run t =
      (((ofContent env content).mapError .content).map fun c =>
        (c, some (directory ++ [fileName])), t) := by
  have hfind := run_find?_ancestors current hcurrent hnames
  rw [h] at hfind
  have habove : directory ∈ ancestors current := by
    obtain ⟨before, after, hsplit, -⟩ := firstHolder?_eq_some_iff.mp h
    simp [hsplit]
  have hread := Tree.read_rooted (isDirectory_of_mem_ancestors current hcurrent habove)
    (isEntryName_of_mem_ancestors current hnames habove) isEntryName_fileName current
  rw [hcontent] at hread
  have hfile : (ofFile (Tree.system current) env (rooted (directory ++ [fileName]))).run t =
      ((ofContent env content).mapError .content, t) := run_bind_of_run hread _
  unfold discover
  refine (run_bind_of_run hfind _).trans ?_
  exact run_bind_of_run hfile _

end Search

/-- In every directory tree and current directory of it, the configuration is what the content of
the nearest configuration file gives, be it a configuration or a failure, unless a repository lies
strictly nearer; a repository beside the file does not hide it. Without such a file the
configuration is the default and comes from nowhere. The tree stays as it is. -/
theorem configuration_of_every_tree (t : Tree) (current : Place) (env : Environment)
    (hcurrent : t.isDirectory current = true) (hnames : ∀ name ∈ current, IsEntryName name) :
    (∀ directory, Nearest t current directory → ¬ Hidden t current directory →
      ∃ content, Table.get? t.files (directory ++ [fileName]) = some content ∧
        (discover (Tree.system current) env).run t =
          (((ofContent env content).mapError .content).map fun c =>
            (c, some (directory ++ [fileName])), t)) ∧
    ((∀ directory, Nearest t current directory → Hidden t current directory) →
      (discover (Tree.system current) env).run t = (.ok (default, none), t)) := by
  constructor
  · intro directory hnearest hhidden
    obtain ⟨content, hcontent, hread⟩ := Tree.read_of_kindAt? hnearest.holds
    have hfirst := (firstHolder?_ancestors_iff current).mpr ⟨hnearest, hhidden⟩
    exact ⟨content, hcontent, run_discover_some current env hcurrent hnames hfirst hread⟩
  · intro hhidden
    apply run_discover_none current env hcurrent hnames
    apply Option.eq_none_iff_forall_ne_some.mpr
    intro directory hfirst
    obtain ⟨hnearest, hnot⟩ := (firstHolder?_ancestors_iff current).mp hfirst
    exact hnot (hhidden directory hnearest)

/-- A project with a file and a repository in one directory, and a repository further inside. -/
def projectTree : Tree :=
  ⟨[(["oasgraph.toml"], "strict-names = true\n"),
    (["api", "oasgraph.toml"], "max-iterations = 3\n")],
    [["api", ".git"], ["api", "docs", "old", ".git"]]⟩

theorem nearest_of_projectTree : Nearest projectTree ["api", "docs"] ["api"] := by
  refine ⟨by decide, by decide +kernel, fun other habove => ?_⟩
  have hall : ∀ other ∈ ancestors ["api", "docs"], HoldsFile projectTree other →
      other.length ≤ 1 := by
    decide +kernel
  exact hall other (mem_ancestors_iff.mpr habove)

theorem not_hidden_of_projectTree : ¬ Hidden projectTree ["api", "docs"] ["api"] := by
  rintro ⟨other, habove, hlt, hholds⟩
  have hall : ∀ other ∈ ancestors ["api", "docs"], 1 < other.length →
      ¬ HoldsRepository projectTree other := by
    decide +kernel
  exact hall other (mem_ancestors_iff.mpr habove) hlt hholds

theorem hidden_of_old {directory : Place}
    (h : Nearest projectTree ["api", "docs", "old"] directory) :
    Hidden projectTree ["api", "docs", "old"] directory := by
  refine ⟨["api", "docs", "old"], List.prefix_rfl, ?_, by decide +kernel⟩
  have hall : ∀ other ∈ ancestors ["api", "docs", "old"], HoldsFile projectTree other →
      other.length < 3 := by
    decide +kernel
  exact hall directory (mem_ancestors_iff.mpr h.above) h.holds

theorem limit_of_projectTree :
    (ofContent [] "max-iterations = 3\n").toOption.map (fun c => (c.limit.count, c.strictNames)) =
      some (3, false) := by
  decide +kernel

theorem configuration_of_projectTree :
    projectTree.isDirectory ["api", "docs"] = true ∧ (∀ name ∈ ["api", "docs"], IsEntryName name) ∧
    ((discover (Tree.system ["api", "docs"]) []).run projectTree).1.toOption.map
        (fun c => (c.1.limit.count, c.1.strictNames, c.2)) =
      some (3, false, some ["api", "oasgraph.toml"]) ∧
    (discover (Tree.system ["api", "docs", "old"]) []).run projectTree =
      (.ok (default, none), projectTree) := by
  have hdirectory : projectTree.isDirectory ["api", "docs"] = true := by decide +kernel
  have hnames : ∀ name ∈ ["api", "docs"], IsEntryName name := by decide
  obtain ⟨content, hcontent, hrun⟩ := (configuration_of_every_tree projectTree ["api", "docs"] []
    hdirectory hnames).1 ["api"] nearest_of_projectTree not_hidden_of_projectTree
  obtain rfl : "max-iterations = 3\n" = content := Option.some.inj hcontent
  refine ⟨hdirectory, hnames, ?_, ?_⟩
  · have hlimit := limit_of_projectTree
    rw [hrun]
    cases hload : ofContent [] "max-iterations = 3\n" with
    | error f => simp [hload, Except.toOption] at hlimit
    | ok c => simpa [hload, Except.toOption, Except.map, Except.mapError, fileName] using hlimit
  · exact (configuration_of_every_tree projectTree ["api", "docs", "old"] [] (by decide +kernel)
      (by decide)).2 fun directory => hidden_of_old

end RestGraph.Config
