import RestGraph.Name.Restore
import RestGraph.Proofs.Evolution
import RestGraph.Proofs.NameHistory

namespace RestGraph.Graph

open Build Name

/-!
# Renaming and restoring

The keys of a value are replaced by the names that are stored for them, one after the other, and
restored by the registry that is left or by a later one. At whatever depth, each name still stands
for its key, and no two keys of one map have one name, so the value comes back as it was.
-/

mutual

/-- The value with the key of each member replaced by the name that is stored for it. -/
def rename : Value → Build Value
  | .map ms => do return .map (Table.ofList (← renameMembers ms))
  | .list vs => do return .list (← renameItems vs)
  | v => pure v

def renameItems : List Value → Build (List Value)
  | [] => pure []
  | v :: vs => do
      let renamed ← rename v
      return renamed :: (← renameItems vs)

def renameMembers : List (String × Value) → Build (List (String × Value))
  | [] => pure []
  | (k, v) :: ms => do
      let name ← storeName k
      let renamed ← rename v
      return (name, renamed) :: (← renameMembers ms)

end

mutual

/-- Whether no map within the value holds a key twice. -/
def isTidy : Value → Bool
  | .map ms => decide (Table.Distinct ms) && areTidyMembers ms
  | .list vs => areTidy vs
  | _ => true

def areTidy : List Value → Bool
  | [] => true
  | v :: vs => isTidy v && areTidy vs

def areTidyMembers : List (String × Value) → Bool
  | [] => true
  | (_, v) :: ms => isTidy v && areTidyMembers ms

end

/-! ## Each part comes back -/

/-- What was made of `a` is restored to it by every registry that has grown since. -/
def ComesBack {α : Type} (restore : Registry → α → α) (a made : α) (s : State) : Prop :=
  ∀ r, s.names.Grows r → r.Coherent → restore r made = a

theorem textOr_of_named {r : Registry} (hr : r.Coherent) {text name : String}
    (h : r.name? text = some name) : r.textOr name name = text := by
  unfold Registry.textOr
  rw [(hr.inverse name text).mpr h, Option.getD_some]

theorem keys_restoreMembers (r : Registry) (ms : List (String × Value)) :
    Table.keys (r.restoreMembers ms) = (Table.keys ms).map fun k => r.textOr k k := by
  induction ms with
  | nil => rfl
  | cons e ms ih => exact congrArg (r.textOr e.1 e.1 :: ·) ih

/-- Keys that are distinct when they are restored were so before. -/
theorem distinct_of_restoreMembers {r : Registry} {ms : List (String × Value)}
    (h : Table.Distinct (r.restoreMembers ms)) : Table.Distinct ms := by
  unfold Table.Distinct at h
  rw [keys_restoreMembers] at h
  exact h.of_map _

/-! The induction is on the value. What is stored for later parts only adds to the registry. -/

mutual

theorem rename_comes_back (v : Value) (htidy : isTidy v = true) (s : State) :
    Ensures NamesGrow s (rename v) fun made s' => ComesBack Registry.restore v made s' := by
  cases v with
  | map ms =>
      obtain ⟨hdistinct, hmembers⟩ := Bool.and_eq_true_iff.mp htidy
      refine .bind (renameMembers_comes_back ms hmembers s) fun made s' _ hmade => .pure ?_
      intro r hr hcoherent
      have hback := hmade r hr hcoherent
      have hms : Table.Distinct ms := of_decide_eq_true hdistinct
      -- Members of one name would be one member, but their keys are restored to different ones.
      have hapart : Table.Distinct made := distinct_of_restoreMembers (hback ▸ hms)
      simp only [Registry.restore, Table.ofList_of_distinct hapart, hback,
        Table.ofList_of_distinct hms]
  | list vs =>
      refine .bind (renameItems_comes_back vs htidy s) fun made s' _ hmade => .pure ?_
      intro r hr hcoherent
      simp only [Registry.restore, hmade r hr hcoherent]
  | _ => exact .pure fun _ _ _ => rfl

theorem renameItems_comes_back (vs : List Value) (htidy : areTidy vs = true) (s : State) :
    Ensures NamesGrow s (renameItems vs) fun made s' =>
      ComesBack Registry.restoreItems vs made s' := by
  cases vs with
  | nil => exact .pure fun _ _ _ => rfl
  | cons v vs =>
      obtain ⟨hfirst, hrest⟩ := Bool.and_eq_true_iff.mp htidy
      refine .bind (rename_comes_back v hfirst s) fun made s₁ _ hmade => ?_
      refine .bind (renameItems_comes_back vs hrest s₁) fun others s₂ h₂ hothers => .pure ?_
      intro r hr hcoherent
      simp only [Registry.restoreItems, hmade r (h₂.1.trans hr) hcoherent,
        hothers r hr hcoherent]

theorem renameMembers_comes_back (ms : List (String × Value)) (htidy : areTidyMembers ms = true)
    (s : State) :
    Ensures NamesGrow s (renameMembers ms) fun made s' =>
      ComesBack Registry.restoreMembers ms made s' := by
  match ms with
  | [] => exact .pure fun _ _ _ => rfl
  | (k, v) :: ms =>
      obtain ⟨hfirst, hrest⟩ := Bool.and_eq_true_iff.mp htidy
      refine .bind (named_storeName k) fun name s₁ _ hnamed => ?_
      refine .bind (rename_comes_back v hfirst s₁) fun made s₂ h₂ hmade => ?_
      refine .bind (renameMembers_comes_back ms hrest s₂) fun others s₃ h₃ hothers => .pure ?_
      intro r hr hcoherent
      have hkey : r.name? k = some name :=
        ((h₂.1.trans h₃.1).trans hr).name k name hnamed.1
      simp only [Registry.restoreMembers, textOr_of_named hcoherent hkey,
        hmade r (h₃.1.trans hr) hcoherent, hothers r hr hcoherent]

end

/-- Whatever texts were stored before and whatever texts are stored later, a value whose keys were
replaced by the names stored for them, at every depth, is restored to what it was. -/
theorem value_back_from_its_names {strict : Bool} {s s₁ s₂ : State}
    (hs : NamesReach (.empty strict) s) {v made : Value} (htidy : isTidy v = true)
    (hrun : (rename v).run s = (.ok made, s₁)) (hlater : NamesReach s₁ s₂) :
    s₂.names.restore made = v := by
  obtain ⟨hgrows, hback⟩ := (rename_comes_back v htidy s).of_ok hrun
  have hcoherent : s₁.names.Coherent :=
    hgrows.2 (hs.namesGrow.2 (Registry.coherent_empty strict))
  exact hback s₂.names hlater.namesGrow.1 (hlater.namesGrow.2 hcoherent)

/-! ### Pets with many identifiers

One name is taken before, and a key is the name that another key is given a number for.
-/

def petRecord : Value :=
  .map [("pet-id", .int 1),
    ("petId", .list [.map [("pet id", .null), ("pet-id", .bool true)], .text "petId"]),
    ("petId2", .map [])]

def petNames : String :=
  "\x7b'petId': 1, 'petId3': [\x7b'petId4': None, 'petId': True\x7d, 'petId'], " ++
    "'petId22': \x7b\x7d\x7d"

def withNumber : State := storing (.empty false) [.text "pet-id-2"]

theorem names_of_petRecord :
    ((rename petRecord).run withNumber).1.toOption.map Value.quoted = some petNames := by
  decide +kernel

theorem petRecord_back_from_petNames :
    ∃ made s₁, (rename petRecord).run withNumber = (.ok made, s₁) ∧ made.quoted = petNames ∧
      (storing s₁ [.text "petId22", .text "pet_id"]).names.restore made = petRecord := by
  obtain ⟨made, hmade, hquoted⟩ := Option.map_eq_some_iff.mp names_of_petRecord
  obtain ⟨s₁, hrun⟩ := exists_run_of_ok (eq_ok_of_toOption hmade)
  have hstart : NamesReach (.empty false) withNumber := namesReach_storing _ [.text "pet-id-2"]
  have hlater := namesReach_storing s₁ [.text "petId22", .text "pet_id"]
  exact ⟨made, s₁, hrun, hquoted, value_back_from_its_names hstart rfl hrun hlater⟩

end RestGraph.Graph
