import RestGraph.Value.Label

namespace RestGraph

/-!
# Access to untrusted values

Descriptions are not checked as a whole. Where a step meets a value of another kind
than it needs, or one that cannot be written, it breaks.
-/

/-- How a malformed value breaks a step that has no failure of its own for it. -/
inductive Breakage where
  /-- A map or a text is used where another value stands. -/
  | missingOperation
  | wrongKind
  | missingEntry
  | badContent
  | pastEnd
deriving DecidableEq, Repr

namespace Value

abbrev Access := Except Breakage

/-- The plain form of a value, if it can be written. -/
def written (v : Value) : Access String :=
  if v.isWritable then .ok v.plain else .error .badContent

@[simp] theorem written_text (s : String) : written (.text s) = .ok s := by simp [written]

theorem written_of_isWritable {v : Value} (h : v.isWritable = true) : v.written = .ok v.plain :=
  if_pos h

theorem written_eq_ok_iff {v : Value} {s : String} :
    v.written = .ok s ↔ v.isWritable = true ∧ v.plain = s := by
  unfold written
  split <;> simp_all

/-- The member `key` of a value that must be a map; an absent one is `default`. -/
def get (v : Value) (key : String) (default : Value) : Access Value :=
  match v with
  | .map ms => .ok (memberOr ms key default)
  | _ => .error .missingOperation

def members (v : Value) : Access (List (String × Value)) :=
  match v with
  | .map ms => .ok ms
  | _ => .error .missingOperation

def labelOf (v : Value) : Access Label :=
  match v.label? with
  | some l => .ok l
  | none => .error .wrongKind

/-- The items of a value that is gone through: the characters of a text, the keys of a map. -/
def iterate (v : Value) : Access (List Value) :=
  match v with
  | .list vs => .ok vs
  | .text s => .ok (s.toList.map fun c => .text (String.singleton c))
  | .map ms => .ok (ms.map fun m => .text m.1)
  | .bytes bs => .ok (bs.map fun b => .int b.toNat)
  | _ => .error .wrongKind

/-- An entry that a value of two items makes. -/
def entryOf (v : Value) : Access (Label × Value) := do
  match ← v.iterate with
  | [k, item] => return (← k.labelOf, item)
  | _ => .error .badContent

/-- The table that a value makes: a map, or a list of entries. -/
def entries (v : Value) : Access (Table Label Value) :=
  match v with
  | .map ms => .ok (ms.map fun m => (.ofText m.1, m.2))
  | v => do
      let pairs ← (← v.iterate).mapM entryOf
      return Table.ofList pairs

/-- Whether a text is in a value: an item of a list, a key of a map, a part of a text. -/
def holdsText (v : Value) (s : String) : Access Bool :=
  match v with
  | .map ms => .ok (Table.contains ms s)
  | .list vs => .ok (vs.any fun item => item.text? == some s)
  | .text t => .ok (Text.contains s.toList t.toList)
  | _ => .error .wrongKind

end Value

end RestGraph
