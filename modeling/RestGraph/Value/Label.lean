import RestGraph.Value.Text

namespace RestGraph

/-!
# Labels

A label is a value that can name an entry of a table: text as a rule, but a
description may put any other value that is neither a list nor a map in its place.
Numbers and truth values that are equal as numbers are one label.
-/

def Value.isSingle : Value → Bool
  | .list _ => false
  | .map _ => false
  | _ => true

/-- What two values have in common when they are one label. -/
inductive Key where
  | null
  | whole (n : Int)
  | binary (bits : UInt64)
  | text (s : String)
  | bytes (octets : List UInt8)
  | moment (m : Moment)
deriving DecidableEq

def Value.key : Value → Key
  | .bool b => .whole (if b then 1 else 0)
  | .int n => .whole n
  | .num x => match Decimal.integral? x with
      | some n => .whole n
      | none => .binary x.toBits
  | .text s => .text s
  | .bytes bs => .bytes bs
  | .moment m => .moment m
  | _ => .null

structure Label where
  value : Value
  single : value.isSingle = true

namespace Label

def ofText (s : String) : Label := ⟨.text s, rfl⟩

def key (l : Label) : Key := l.value.key

instance : BEq Label := ⟨fun a b => a.key = b.key⟩

theorem beq_iff (a b : Label) : (a == b) = true ↔ a.key = b.key := by
  show decide (a.key = b.key) = true ↔ a.key = b.key
  exact decide_eq_true_iff

instance : EquivBEq Label where
  rfl := (beq_iff _ _).2 rfl
  symm h := (beq_iff _ _).2 ((beq_iff _ _).1 h).symm
  trans h g := (beq_iff _ _).2 (((beq_iff _ _).1 h).trans ((beq_iff _ _).1 g))

instance : Inhabited Label := ⟨ofText ""⟩

def plain (l : Label) : String := l.value.plain

def text? (l : Label) : Option String := l.value.text?

end Label

/-- The label that a value is, unless it is a list or a map. -/
def Value.label? (v : Value) : Option Label :=
  if h : v.isSingle = true then some ⟨v, h⟩ else none

@[simp] theorem Value.label?_text (s : String) :
    (Value.text s).label? = some (.ofText s) := rfl

end RestGraph
