import RestGraph.Proofs.YamlScalar

namespace RestGraph.Yaml

/-!
# Laws of reading node graphs

While values are built, mappings lose their merge keys and gain the members that these bring, and
marks of default values become strings. Nothing else of a node changes, and a mapping never gets a
pair that none of the mappings merged into it has. This invariant is kept by every step of a
reading, so what makes one fail is seen in the nodes as they were composed: a collection that
stands for a key, for a timestamp or for the members of a mapping, a scalar whose text has no value
of its tag, or nodes within one another for which there is no room.
-/

/-! ## Nodes -/

def nodeAt (nodes : Array Node) (i : Nat) : Node := nodes.getD i (.scalar .null [])

/-- What a merge key stands before: a node, or the items of one. -/
inductive Brings (nodes : Array Node) : Nat → Nat → Prop where
  | node (i : Nat) : Brings nodes i i
  | item {i j : Nat} {tag : Tag} {items : List Nat} (h : nodeAt nodes i = .sequence tag items)
      (hj : j ∈ items) : Brings nodes i j

/-- A mapping has a pair: one of its own, or one of a mapping that is merged into it. -/
inductive Holds (nodes : Array Node) : Nat → Nat × Nat → Prop where
  | own {i : Nat} {tag : Tag} {pairs : List (Nat × Nat)} {p : Nat × Nat}
      (h : nodeAt nodes i = .mapping tag pairs) (hp : p ∈ pairs) : Holds nodes i p
  | merged {i j : Nat} {key p : Nat × Nat} (hkey : Holds nodes i key)
      (hmerge : (nodeAt nodes key.1).tag = .merge) (hj : Brings nodes key.2 j)
      (hp : Holds nodes j p) : Holds nodes i p

/-- A node lies within another: it is one of its items, or the key or value of one of its pairs, or
lies within such a node. -/
inductive Inside (nodes : Array Node) : Nat → Nat → Prop where
  | item {i j : Nat} {tag : Tag} {items : List Nat} (h : nodeAt nodes i = .sequence tag items)
      (hj : j ∈ items) : Inside nodes i j
  | key {i : Nat} {p : Nat × Nat} (h : Holds nodes i p) : Inside nodes i p.1
  | member {i : Nat} {p : Nat × Nat} (h : Holds nodes i p) : Inside nodes i p.2
  | trans {i j k : Nat} (h : Inside nodes i j) (h' : Inside nodes j k) : Inside nodes i k

/-- Steps within one another, the first of which is at a node: each stays where the step around it
is or goes to a node within that. -/
inductive LeadsTo (nodes : Array Node) : List Step → Nat → Prop where
  | first (s : Step) : LeadsTo nodes [s] s.node
  | here {steps : List Step} {i : Nat} {s : Step} (h : LeadsTo nodes steps i) (hs : s.node = i) :
      LeadsTo nodes (s :: steps) i
  | inside {steps : List Step} {i : Nat} (s : Step) (h : LeadsTo nodes steps i)
      (hs : Inside nodes i s.node) : LeadsTo nodes (s :: steps) s.node

/-- Steps within one another for which there is no room, or as many as do not end. -/
def Crowded (room : Room) (nodes : Array Node) : Prop :=
  ∃ steps i, LeadsTo nodes steps i ∧ (room steps = false ∨ graphSize nodes ≤ steps.length)

/-- A tag stays, but that of a mark of a default value may become that of a string. -/
def Retags (tag tag' : Tag) : Prop := tag' = tag ∨ (tag = .default ∧ tag' = .string)

theorem Retags.eq_of_ne_string {tag tag' : Tag} (h : Retags tag tag') (hne : tag' ≠ .string) :
    tag = tag' := by
  rcases h with rfl | ⟨-, rfl⟩
  · rfl
  · exact absurd rfl hne

/-- What may have become of a node: its tag may have changed, and the pairs of a mapping. -/
inductive Alike (nodes : Array Node) (i : Nat) : Node → Prop where
  | scalar {tag tag' : Tag} {text : List Char} (h : nodeAt nodes i = .scalar tag text)
      (htag : Retags tag tag') : Alike nodes i (.scalar tag' text)
  | sequence {tag tag' : Tag} {items : List Nat} (h : nodeAt nodes i = .sequence tag items)
      (htag : Retags tag tag') : Alike nodes i (.sequence tag' items)
  | mapping {tag tag' : Tag} {pairs pairs' : List (Nat × Nat)}
      (h : nodeAt nodes i = .mapping tag pairs) (htag : Retags tag tag')
      (hpairs : ∀ p ∈ pairs', Holds nodes i p) : Alike nodes i (.mapping tag' pairs')

/-- The text that a node has: its own, or that of a default member. -/
inductive Shows (nodes : Array Node) : Nat → List Char → Prop where
  | scalar {i : Nat} {tag : Tag} {text : List Char} (h : nodeAt nodes i = .scalar tag text) :
      Shows nodes i text
  | member {i : Nat} {p : Nat × Nat} {text : List Char} (hp : Holds nodes i p)
      (hdefault : (nodeAt nodes p.1).tag = .default) (htext : Shows nodes p.2 text) :
      Shows nodes i text

/-- What is seen in the nodes where a reading fails. -/
inductive Spoils (room : Room) (nodes : Array Node) : Fault → Prop where
  | illFormed : Spoils room nodes .illFormed
  | key {i : Nat} {p : Nat × Nat} (hp : Holds nodes i p)
      (hcollection : (nodeAt nodes p.1).isScalar = false)
      (htag : (nodeAt nodes p.1).tag ≠ .string) : Spoils room nodes .wrongKind
  | members {i item : Nat} {items : List Nat}
      (h : nodeAt nodes i = .sequence .mapping (item :: items)) : Spoils room nodes .wrongKind
  | timestamp {i : Nat} (htag : (nodeAt nodes i).tag = .timestamp)
      (hcollection : (nodeAt nodes i).isScalar = false) : Spoils room nodes .wrongKind
  | scalar {i : Nat} {text : List Char} {f : Fault} (htext : Shows nodes i text)
      (h : Refused (nodeAt nodes i).tag text f) : Spoils room nodes f
  | nested (h : Crowded room nodes) : Spoils room nodes .tooNested

/-! ## Readings -/

/-- The nodes of a state are those of the text, but for what merging changes. -/
def Kept (nodes : Array Node) (w : Work) : Prop := ∀ i, Alike nodes i (nodeAt w.nodes i)

/-- What a reading gives, that it keeps the nodes, and why it fails. -/
def Reads {α : Type} (room : Room) (nodes : Array Node) (x : Reading α) (P : α → Prop) : Prop :=
  ∀ w, Kept nodes w → match x.run w with
    | .ok (a, w') => P a ∧ Kept nodes w'
    | .error f => Spoils room nodes f

theorem Alike.refl {nodes : Array Node} (i : Nat) : Alike nodes i (nodeAt nodes i) := by
  cases h : nodeAt nodes i with
  | scalar tag text => exact .scalar h (.inl rfl)
  | sequence tag items => exact .sequence h (.inl rfl)
  | mapping tag pairs => exact .mapping h (.inl rfl) fun p hp => .own h hp

theorem Alike.retags {nodes : Array Node} {i : Nat} {n : Node} (h : Alike nodes i n) :
    Retags (nodeAt nodes i).tag n.tag := by
  cases h with
  | scalar h htag => rwa [h]
  | sequence h htag => rwa [h]
  | mapping h htag => rwa [h]

theorem Alike.isScalar_eq {nodes : Array Node} {i : Nat} {n : Node} (h : Alike nodes i n) :
    (nodeAt nodes i).isScalar = n.isScalar := by
  cases h with
  | scalar h => rw [h]; rfl
  | sequence h => rw [h]; rfl
  | mapping h => rw [h]; rfl

/-- A mark of a default value becomes a string. -/
theorem Alike.named {nodes : Array Node} {i : Nat} {n : Node} (h : Alike nodes i n)
    (hn : n.tag = .default) : Alike nodes i (n.withTag .string) := by
  have hstring : ∀ {tag tag' : Tag}, Retags tag tag' → tag' = .default → Retags tag .string := by
    rintro tag tag' htag rfl
    exact .inr ⟨htag.eq_of_ne_string (by decide), rfl⟩
  cases h with
  | scalar h htag => exact .scalar h (hstring htag hn)
  | sequence h htag => exact .sequence h (hstring htag hn)
  | mapping h htag hpairs => exact .mapping h (hstring htag hn) hpairs

theorem nodeAt_setIfInBounds (nodes : Array Node) (i j : Nat) (n : Node) :
    (i = j ∧ nodeAt (nodes.setIfInBounds i n) j = n) ∨
      nodeAt (nodes.setIfInBounds i n) j = nodeAt nodes j := by
  unfold nodeAt
  by_cases hij : i = j
  · subst hij
    by_cases hi : i < nodes.size
    · exact .inl ⟨rfl, by simp [hi]⟩
    · exact .inr (by simp [hi])
  · exact .inr (by simp [Array.getD_eq_getD_getElem?, hij])

variable {α β : Type} {room : Room} {nodes : Array Node}

namespace Reads

variable {P : α → Prop} {Q : β → Prop}

protected theorem pure {a : α} (h : P a) : Reads room nodes (pure a : Reading α) P :=
  fun _ hw => ⟨h, hw⟩

protected theorem throw {f : Fault} (h : Spoils room nodes f) :
    Reads room nodes (throw f : Reading α) P := fun _ _ => h

protected theorem bind {x : Reading α} {k : α → Reading β} (hx : Reads room nodes x P)
    (hk : ∀ a, P a → Reads room nodes (k a) Q) : Reads room nodes (x >>= k) Q := by
  intro w hw
  have hstep := hx w hw
  rw [StateT.run_bind]
  cases hrun : x.run w with
  | error f =>
      rw [hrun] at hstep
      exact hstep
  | ok r =>
      rw [hrun] at hstep
      exact hk r.1 hstep.1 r.2 hstep.2

theorem weaken {P' : α → Prop} {x : Reading α} (hx : Reads room nodes x P)
    (h : ∀ a, P a → P' a) : Reads room nodes x P' := by
  intro w hw
  have hstep := hx w hw
  revert hstep
  cases x.run w with
  | error f => exact id
  | ok r => exact fun hr => ⟨h r.1 hr.1, hr.2⟩

theorem get_bind {k : Work → Reading β} (h : ∀ w, Reads room nodes (k w) Q) :
    Reads room nodes (get >>= k) Q := fun w hw => h w w hw

/-- What leaves the nodes alone. -/
theorem modify {f : Work → Work} (h : ∀ w, (f w).nodes = w.nodes) :
    Reads room nodes (modify f) fun _ => True := by
  intro w hw
  have hkept : Kept nodes (f w) := fun i => by
    rw [h]
    exact hw i
  exact ⟨trivial, hkept⟩

theorem liftM {x : Except Fault α} (h : ∀ f, x = .error f → Spoils room nodes f) :
    Reads room nodes (liftM x : Reading α) fun _ => True := by
  intro w hw
  cases x with
  | error f => exact h f rfl
  | ok a => exact ⟨trivial, hw⟩

theorem mapM {f : α → Reading β} : ∀ {as : List α}, (∀ a ∈ as, Reads room nodes (f a) Q) →
    Reads room nodes (as.mapM f) fun bs => ∀ b ∈ bs, Q b
  | [], _ => .pure (by simp)
  | a :: as, h => by
      rw [List.mapM_cons]
      refine .bind (h a List.mem_cons_self) fun b hb => ?_
      refine .bind (mapM fun a' ha' => h a' (List.mem_cons_of_mem _ ha')) fun bs hbs => ?_
      exact .pure (List.forall_mem_cons.mpr ⟨hb, hbs⟩)

end Reads

theorem enter_reads {steps : List Step} {i : Nat} (h : LeadsTo nodes steps i) :
    Reads room nodes (enter room steps) fun _ => True := by
  unfold enter
  split
  · exact .pure trivial
  · rename_i hroom
    exact .throw (.nested ⟨steps, i, h, .inl (by simpa using hroom)⟩)

/-! ## Steps -/

theorem content_reads (i : Nat) : Reads room nodes (content i) (Alike nodes i) :=
  fun _ hw => ⟨hw i, hw⟩

theorem setContent_reads {i : Nat} {n : Node} (h : Alike nodes i n) :
    Reads room nodes (setContent i n) fun _ => True := by
  intro w hw
  refine ⟨trivial, fun j => ?_⟩
  change Alike nodes j (nodeAt (w.nodes.setIfInBounds i n) j)
  rcases nodeAt_setIfInBounds w.nodes i j n with ⟨rfl, hset⟩ | hset
  · rwa [hset]
  · rw [hset]
    exact hw j

theorem pairsOf_reads (i : Nat) :
    Reads room nodes (pairsOf i) fun pairs => ∀ p ∈ pairs, Holds nodes i p := by
  refine .bind (content_reads i) fun n hn => ?_
  cases hn with
  | mapping _ _ hpairs => exact .pure hpairs
  | _ => exact .pure (by simp)

theorem setPairs_reads {i : Nat} {pairs : List (Nat × Nat)} (h : ∀ p ∈ pairs, Holds nodes i p) :
    Reads room nodes (setPairs i pairs) fun _ => True := by
  refine .bind (content_reads i) fun n hn => ?_
  cases hn with
  | mapping hi htag => exact setContent_reads (.mapping hi htag h)
  | _ => exact .pure trivial

theorem tagOf_reads (i : Nat) : Reads room nodes (tagOf i) (Retags (nodeAt nodes i).tag) :=
  .bind (content_reads i) fun _ hn => .pure hn.retags

/-- The first pair with a tag is one of the pairs. -/
def SplitAt (nodes : Array Node) (tag : Tag) (pairs : List (Nat × Nat)) :
    Option (List (Nat × Nat) × (Nat × Nat) × List (Nat × Nat)) → Prop
  | none => True
  | some (before, p, after) => pairs = before ++ p :: after ∧ (nodeAt nodes p.1).tag = tag

theorem splitAtTag_reads {tag : Tag} (hstring : tag ≠ .string) (pairs : List (Nat × Nat)) :
    Reads room nodes (splitAtTag tag pairs) (SplitAt nodes tag pairs) := by
  induction pairs with
  | nil => exact .pure trivial
  | cons p rest ih =>
      refine .bind (tagOf_reads p.1) fun t ht => ?_
      split
      · rename_i heq
        obtain rfl := eq_of_beq heq
        exact .pure ⟨rfl, ht.eq_of_ne_string hstring⟩
      · refine .bind ih fun found hfound => ?_
        split
        · exact .pure trivial
        · obtain ⟨rfl, htag⟩ := hfound
          exact .pure ⟨rfl, htag⟩

theorem nameDefaults_reads (pairs : List (Nat × Nat)) :
    Reads room nodes (nameDefaults pairs) fun _ => True := by
  induction pairs with
  | nil => exact .pure trivial
  | cons p rest ih =>
      refine .bind (content_reads p.1) fun n hn => ?_
      split
      · rename_i hdefault
        exact .bind (setContent_reads (hn.named (eq_of_beq hdefault))) fun _ _ => ih
      · exact ih

/-! ## Merging -/

theorem flatten_reads {fuel i : Nat} {around : List Step}
    (hgather : Reads room nodes (gather room fuel around i []) fun pairs =>
      ∀ p ∈ pairs, Holds nodes i p) :
    Reads room nodes (flatten room (fuel + 1) around i) fun _ => True := by
  rw [flatten]
  refine .bind hgather fun merged hmerged => ?_
  split
  · refine .bind (pairsOf_reads i) fun pairs hpairs => ?_
    exact setPairs_reads (List.forall_mem_append.mpr ⟨hmerged, hpairs⟩)
  · exact .pure trivial

/-- The members of a mapping that is merged. -/
theorem brought_reads {fuel i j : Nat} {key : Nat × Nat} {around : List Step}
    (haround : LeadsTo nodes around i) (hkey : Holds nodes i key)
    (hmerge : (nodeAt nodes key.1).tag = .merge) (hj : Brings nodes key.2 j)
    (hflatten : LeadsTo nodes (.merge j :: around) j →
      Reads room nodes (flatten room fuel (.merge j :: around) j) fun _ => True) :
    Reads room nodes (do
      enter room (.merge j :: around)
      flatten room fuel (.merge j :: around) j
      pairsOf j) fun pairs => ∀ p ∈ pairs, Holds nodes i p := by
  have hinside : Inside nodes i j := by
    cases hj with
    | node => exact .member hkey
    | item h hj => exact .trans (.member hkey) (.item h hj)
  have hsteps : LeadsTo nodes (.merge j :: around) j := .inside (.merge j) haround hinside
  refine .bind (enter_reads hsteps) fun _ _ => .bind (hflatten hsteps) fun _ _ => ?_
  exact (pairsOf_reads j).weaken fun pairs hpairs p hp => .merged hkey hmerge hj (hpairs p hp)

theorem gather_reads {fuel i : Nat} {around : List Step} {merged : List (Nat × Nat)}
    (haround : LeadsTo nodes around i) (hmerged : ∀ p ∈ merged, Holds nodes i p)
    (hflatten : ∀ around j, LeadsTo nodes around j →
      Reads room nodes (flatten room fuel around j) fun _ => True)
    (hgather : ∀ more, (∀ p ∈ more, Holds nodes i p) →
      Reads room nodes (gather room fuel around i more) fun pairs =>
        ∀ p ∈ pairs, Holds nodes i p) :
    Reads room nodes (gather room (fuel + 1) around i merged) fun pairs =>
      ∀ p ∈ pairs, Holds nodes i p := by
  rw [gather]
  refine .bind (pairsOf_reads i) fun pairs hpairs => ?_
  refine .bind (splitAtTag_reads (by decide) pairs) fun found hfound => ?_
  split
  · refine .bind (pairsOf_reads i) fun pairs _ => ?_
    exact .bind (nameDefaults_reads pairs) fun _ _ => .pure hmerged
  · rename_i before key after
    obtain ⟨rfl, hmerge⟩ := hfound
    obtain ⟨hbefore, hafter⟩ := List.forall_mem_append.mp hpairs
    obtain ⟨hkey, hafter⟩ := List.forall_mem_cons.mp hafter
    refine .bind (nameDefaults_reads before) fun _ _ => ?_
    refine .bind (setPairs_reads (List.forall_mem_append.mpr ⟨hbefore, hafter⟩)) fun _ _ => ?_
    refine .bind (content_reads key.2) fun n hn => ?_
    cases hn with
    | mapping =>
        have hbrought := brought_reads haround hkey hmerge (.node key.2) (hflatten _ key.2)
        simpa only [bind_assoc] using hbrought.bind fun brought h =>
          hgather (merged ++ brought) (List.forall_mem_append.mpr ⟨hmerged, h⟩)
    | sequence hitems =>
        rename_i items
        refine .bind (P := fun parts => ∀ part ∈ parts, ∀ p ∈ part, Holds nodes i p)
          (.mapM fun j hj => ?_) fun parts hparts => ?_
        · refine .bind (content_reads j) fun n _ => ?_
          split
          · exact brought_reads haround hkey hmerge (.item hitems hj) (hflatten _ j)
          · exact .throw .illFormed
        · refine hgather _ (List.forall_mem_append.mpr ⟨hmerged, fun p hp => ?_⟩)
          obtain ⟨part, hpart, hp⟩ := List.mem_flatten.mp hp
          exact hparts part (List.mem_reverse.mp hpart) p hp
    | scalar => exact .throw .illFormed

theorem merge_reads (fuel : Nat) :
    (∀ around i, LeadsTo nodes around i →
      Reads room nodes (flatten room fuel around i) fun _ => True) ∧
    ∀ around i merged, LeadsTo nodes around i → (∀ p ∈ merged, Holds nodes i p) →
      Reads room nodes (gather room fuel around i merged) fun pairs =>
        ∀ p ∈ pairs, Holds nodes i p := by
  induction fuel with
  | zero => exact ⟨fun _ _ _ => .pure trivial, fun _ _ _ _ h => .pure h⟩
  | succ fuel ih =>
      obtain ⟨hflatten, hgather⟩ := ih
      constructor
      · exact fun around i h => flatten_reads (hgather around i [] h (by simp))
      · exact fun around i merged h hmerged =>
          gather_reads h hmerged hflatten fun more => hgather around i more h

/-! ## Values -/

section Building

variable {around : List Step} {i : Nat}

theorem scalarText_reads {fuel : Nat} (h : LeadsTo nodes around i)
    (hfuel : graphSize nodes ≤ around.length + fuel) :
    Reads room nodes (scalarText room fuel around i) (Shows nodes i) := by
  induction fuel generalizing around i with
  | zero => exact .throw (.nested ⟨around, i, h, .inr hfuel⟩)
  | succ fuel ih =>
      refine .bind (content_reads i) fun n hn => ?_
      cases hn with
      | scalar hi => exact .pure (.scalar hi)
      | sequence => exact .throw .illFormed
      | mapping _ _ hpairs =>
          refine .bind (splitAtTag_reads (by decide) _) fun found hfound => ?_
          split
          · rename_i before p after
            obtain ⟨rfl, hdefault⟩ := hfound
            have hp : Holds nodes i p := hpairs p (by simp)
            have hsteps : LeadsTo nodes (.default p.2 :: around) p.2 :=
              .inside (.default p.2) h (.member hp)
            refine .bind (enter_reads hsteps) fun _ _ => ?_
            refine (ih hsteps ?_).weaken fun text htext => .member hp hdefault htext
            rw [List.length_cons]
            omega
          · exact .throw .illFormed

theorem keepValue_reads (i : Nat) (v : Value) :
    Reads room nodes (keepValue i v) fun _ => True :=
  .bind (.modify fun _ => rfl) fun _ _ => .pure trivial

/-- A text without a value of the tag is refused, and nothing else fails here. -/
theorem keepScalar_reads {text : List Char} (htext : Shows nodes i text) {tag : Tag}
    (htag : Retags (nodeAt nodes i).tag tag) :
    Reads room nodes (do keepValue i (← liftM (scalarValue tag text))) fun _ => True := by
  refine .bind (.liftM fun f hf => ?_) fun v _ => keepValue_reads i v
  by_cases hill : f = .illFormed
  · exact hill ▸ .illFormed
  · have hrefused := (scalarValue_eq_error_iff hill).mp hf
    rcases htag with rfl | ⟨-, rfl⟩
    · exact .scalar htext hrefused
    · cases hrefused

theorem scalar_reads (h : LeadsTo nodes around i) {tag : Tag}
    (htag : Retags (nodeAt nodes i).tag tag) :
    Reads room nodes (scalar room (graphSize nodes) around i tag) fun _ => True := by
  refine .bind (scalarText_reads h (Nat.le_add_left _ _)) fun text htext => ?_
  refine .bind (content_reads i) fun n hn => ?_
  split
  · rename_i hcollection
    simp only [Bool.and_eq_true, beq_iff_eq, Bool.not_eq_true'] at hcollection
    obtain ⟨rfl, hcollection⟩ := hcollection
    exact .throw (.timestamp (htag.eq_of_ne_string (by decide)) (hn.isScalar_eq.trans hcollection))
  · exact keepScalar_reads htext htag

/-- A key without a text is a collection that is not tagged as a string. -/
theorem keyText?_reads (h : LeadsTo nodes around i) {j : Nat} (hj : Inside nodes i j) :
    Reads room nodes (keyText? room (graphSize nodes) around j) fun key => key = none →
      (nodeAt nodes j).isScalar = false ∧ (nodeAt nodes j).tag ≠ .string := by
  have hvisit : LeadsTo nodes (.visit j :: around) j := .inside (.visit j) h hj
  have hbuild : LeadsTo nodes (.build j :: .visit j :: around) j := .here hvisit rfl
  refine .bind (tagOf_reads j) fun tag htag => ?_
  split
  · refine .bind (enter_reads hvisit) fun _ _ => .get_bind fun w => ?_
    split
    · exact .pure (by simp)
    · refine .bind (enter_reads hbuild) fun _ _ => ?_
      refine .bind (scalarText_reads hbuild (Nat.le_add_left _ _)) fun text _ => ?_
      exact .bind (keepValue_reads j _) fun _ _ => .pure (by simp)
  · rename_i hstring
    have hne : tag ≠ .string := by simpa using hstring
    refine .bind (content_reads j) fun n hn => ?_
    split
    · exact .pure (by simp)
    · rename_i hcollection
      refine .pure fun _ => ⟨hn.isScalar_eq.trans ?_, htag.eq_of_ne_string hne ▸ hne⟩
      cases n with
      | scalar tag text => exact absurd rfl (hcollection tag text)
      | _ => rfl

/-- The value of a member is built before its key is used. -/
theorem member_reads (h : LeadsTo nodes around i) {part : Nat → Reading Value}
    (hpart : ∀ j, Inside nodes i j → Reads room nodes (part j) fun _ => True) {p : Nat × Nat}
    (hp : Holds nodes i p) :
    Reads room nodes (member room (graphSize nodes) part around p) fun _ => True := by
  refine .bind (keyText?_reads h (.key hp)) fun key hkey => ?_
  refine .bind (hpart p.2 (.member hp)) fun v _ => ?_
  split
  · obtain ⟨hcollection, htag⟩ := hkey rfl
    exact .throw (.key hp hcollection htag)
  · exact .pure trivial

theorem entry_reads {part : Nat → Reading Value}
    (hpart : ∀ j, Inside nodes i j → Reads room nodes (part j) fun _ => True) {j : Nat}
    (hj : Inside nodes i j) : Reads room nodes (entry part j) fun _ => True := by
  refine .bind (content_reads j) fun n hn => ?_
  split
  · rename_i p
    cases hn with
    | mapping _ _ hpairs =>
        have hp : Holds nodes j p := hpairs p (by simp)
        refine .bind (hpart p.1 (.trans hj (.key hp))) fun _ _ => ?_
        exact .bind (hpart p.2 (.trans hj (.member hp))) fun _ _ => .pure trivial
  · exact .throw .illFormed

theorem element_reads {part : Nat → Reading Value}
    (hpart : ∀ j, Inside nodes i j → Reads room nodes (part j) fun _ => True) {p : Nat × Nat}
    (hp : Holds nodes i p) : Reads room nodes (element part p) fun _ => True := by
  refine .bind (hpart p.1 (.key hp)) fun v _ => ?_
  split
  · exact .throw .illFormed
  · exact .bind (hpart p.2 (.member hp)) fun _ _ => .pure trivial

theorem filled_reads (h : LeadsTo nodes around i) {part : Nat → Reading Value}
    (hpart : ∀ j, Inside nodes i j → Reads room nodes (part j) fun _ => True) :
    Reads room nodes (filled room (graphSize nodes) part around i) fun _ => True := by
  refine .bind (content_reads i) fun n hn => ?_
  split
  · cases hn with
    | sequence hi =>
        exact .bind (.mapM fun j hj => hpart j (.item hi hj)) fun _ _ => .pure trivial
  · cases hn with
    | sequence hi =>
        exact .bind (.mapM fun j hj => entry_reads hpart (.item hi hj)) fun _ _ => .pure trivial
  · cases hn with
    | sequence hi =>
        exact .bind (.mapM fun j hj => entry_reads hpart (.item hi hj)) fun _ _ => .pure trivial
  · refine .bind ((merge_reads (graphSize nodes)).1 around i h) fun _ _ => ?_
    refine .bind (pairsOf_reads i) fun pairs hpairs => ?_
    exact .bind (.mapM fun p hp => element_reads hpart (hpairs p hp)) fun _ _ => .pure trivial
  · exact .throw .illFormed

/-- As long as there is fuel, a step stands for each that was used, so where it runs out, the steps
around do not end. -/
theorem value_reads {fuel : Nat} (h : LeadsTo nodes (.visit i :: around) i)
    (hfuel : graphSize nodes ≤ around.length + fuel) :
    Reads room nodes (value room (graphSize nodes) fuel around i) fun _ => True := by
  induction fuel generalizing around i with
  | zero =>
      refine .throw (.nested ⟨_, i, h, .inr ?_⟩)
      rw [List.length_cons]
      omega
  | succ fuel ih =>
      have hbuild : LeadsTo nodes (.build i :: .visit i :: around) i := .here h rfl
      have hpart : ∀ j, Inside nodes i j → Reads room nodes
          (value room (graphSize nodes) fuel (.build i :: .visit i :: around) j) fun _ => True := by
        intro j hj
        refine ih (.inside (.visit j) hbuild hj) ?_
        simp only [List.length_cons]
        omega
      refine .bind (enter_reads h) fun _ _ => .get_bind fun w => ?_
      split
      · exact .pure trivial
      split
      · exact .throw .illFormed
      refine .bind (enter_reads hbuild) fun _ _ => .bind (tagOf_reads i) fun tag htag => ?_
      split
      · exact scalar_reads hbuild htag
      split
      · exact .bind (filled_reads hbuild hpart) fun _ _ => keepValue_reads i _
      refine .bind (content_reads i) fun n hn => ?_
      split
      · cases hn with
        | scalar hi htag =>
            exact keepScalar_reads (.scalar hi) (by rw [hi]; exact htag)
      · exact keepValue_reads i _
      -- Items that stand for members: only where there are none, they have a value.
      · rename_i items hne
        cases hn with
        | sequence hi htag =>
            cases items with
            | nil => exact absurd rfl hne
            | cons item items =>
                obtain rfl := htag.eq_of_ne_string (by decide)
                exact .throw (.members hi)
      · refine .bind ((merge_reads (graphSize nodes)).1 _ i hbuild) fun _ _ => ?_
        refine .bind (pairsOf_reads i) fun pairs hpairs => ?_
        refine .bind (.mapM fun p hp => member_reads hbuild hpart (hpairs p hp)) fun ms _ => ?_
        exact keepValue_reads i _
      · exact .throw .illFormed

theorem beginValue_reads (h : LeadsTo nodes (.visit i :: around) i) :
    Reads room nodes (beginValue room (graphSize nodes) around i) fun _ => True := by
  refine .bind (tagOf_reads i) fun tag _ => .get_bind fun w => ?_
  split
  · refine .bind (enter_reads h) fun _ _ => .bind (enter_reads (.here h rfl)) fun _ _ => ?_
    exact .bind (.modify fun _ => rfl) fun _ _ => keepValue_reads i _
  · exact value_reads h (Nat.le_add_left _ _)

theorem fillAll_reads (fuel : Nat) :
    Reads room nodes (fillAll room (graphSize nodes) fuel) fun _ => True := by
  induction fuel with
  | zero => exact .pure trivial
  | succ fuel ih =>
      refine .get_bind fun w => ?_
      split
      · exact .pure trivial
      · rename_i i rest _
        have hfill : LeadsTo nodes [.fill i] i := .first (.fill i)
        refine .bind (.modify fun _ => rfl) fun _ _ => .bind (enter_reads hfill) fun _ _ => ?_
        refine .bind (filled_reads hfill fun j hj => ?_) fun _ _ => ih
        exact beginValue_reads (.inside (.visit j) hfill hj)

theorem root_reads (i : Nat) : Reads room nodes (root room (graphSize nodes) i) fun _ => True := by
  refine .bind (beginValue_reads (.first (.visit i))) fun v _ => ?_
  exact .bind (fillAll_reads _) fun _ _ => .pure trivial

end Building

/-- A text that is tokens and composed nodes fails to have a value only for what its nodes
show. -/
theorem spoils_of_parseWithin {text : String} {f : Fault} (h : parseWithin room text = .error f)
    (hf : f ≠ .illFormed) :
    ∃ tokens i nodes, Token.ofText? text = some tokens ∧
      Graph.ofTokens? tokens.toList = some (some i, nodes) ∧ Spoils room nodes f := by
  unfold parseWithin at h
  cases htokens : Token.ofText? text with
  | none =>
      rw [htokens] at h
      exact absurd (Except.error.inj h).symm hf
  | some tokens =>
      simp only [htokens, required, bind, Except.bind] at h
      cases hgraph : Graph.ofTokens? tokens.toList with
      | none =>
          rw [hgraph] at h
          exact absurd (Except.error.inj h).symm hf
      | some g =>
          rw [hgraph] at h
          obtain ⟨_ | i, nodes⟩ := g
          · cases h
          · refine ⟨tokens, i, nodes, rfl, hgraph, ?_⟩
            have hreads : Reads room nodes (root room (graphSize nodes) i) fun _ => True :=
              root_reads i
            have hread := hreads ⟨nodes, nodes.map fun _ => none, []⟩ (Alike.refl ·)
            revert h hread
            dsimp only
            cases StateT.run (root room (graphSize nodes) i)
                ⟨nodes, nodes.map fun _ => none, []⟩ with
            | error f' =>
                rintro ⟨⟩ hspoils
                exact hspoils
            | ok r => rintro ⟨⟩

end RestGraph.Yaml
