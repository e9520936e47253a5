namespace RestGraph

/-!
# Ordered tables

Tables keep their keys in the order of first insertion. Storing under a key that
is present replaces the entry where it stands. Keys are compared with `==`, which
may be coarser than equality: keys that are `==` share one entry, and the entry
keeps the key under which it was first stored.
-/

abbrev Table (κ α : Type) := List (κ × α)

namespace Table

variable {κ α : Type} [BEq κ]

def get? : Table κ α → κ → Option α
  | [], _ => none
  | (k, a) :: t, q => if k == q then some a else get? t q

def contains : Table κ α → κ → Bool
  | [], _ => false
  | (k, _) :: t, q => k == q || contains t q

def insert : Table κ α → κ → α → Table κ α
  | [], q, b => [(q, b)]
  | (k, a) :: t, q, b => if k == q then (k, b) :: t else (k, a) :: insert t q b

def insertAll (t s : Table κ α) : Table κ α :=
  s.foldl (fun u e => insert u e.1 e.2) t

def ofList (entries : List (κ × α)) : Table κ α :=
  insertAll [] entries

omit [BEq κ] in
def keys (t : Table κ α) : List κ := t.map Prod.fst

@[simp] theorem get?_nil (q : κ) : get? ([] : Table κ α) q = none := rfl

@[simp] theorem contains_nil (q : κ) : contains ([] : Table κ α) q = false := rfl

@[simp] theorem insert_nil (q : κ) (b : α) : insert ([] : Table κ α) q b = [(q, b)] := rfl

theorem isSome_get? (t : Table κ α) (q : κ) : (get? t q).isSome = contains t q := by
  induction t with
  | nil => rfl
  | cons e t ih =>
      obtain ⟨k, a⟩ := e
      by_cases h : k == q <;> simp [get?, contains, h, ih]

end Table

end RestGraph
