import RestGraph.Decimal.Reader
import RestGraph.Text.Integer
import RestGraph.Text.Split
import RestGraph.Value.Label
import RestGraph.Yaml.Base64
import RestGraph.Yaml.Graph
import RestGraph.Yaml.Timestamp

namespace RestGraph.Yaml

/-!
# Values of YAML

A key that is a string by its tag has its text, and so has every other scalar key. Members that
are merged into a mapping come before its own, which override them in place; of several mappings
that are merged the first wins. A node within itself has no value.

Values are built by steps within one another, and some of these may have no room. No value is a
set or a pair: a set is kept as the list of its elements and a pair as a list of two values.
-/

inductive Fault where
  /-- The text is ill formed, or a node has no value. -/
  | illFormed
  /-- A list or a map stands for a key, a list of nodes for the members of a map, or a map for
  the text of a timestamp. -/
  | wrongKind
  | unknownWord
  | notANumber
  | emptyNumber
  | noTimestamp
  /-- A timestamp of no day or no time. -/
  | noDate
  /-- A number in base sixty of more places than a binary number can hold. -/
  | overflow
  /-- A step within more steps than there is room for. -/
  | tooNested
deriving DecidableEq, Repr

/-! ## Scalars -/

def truthWord (text : List Char) : Except Fault Value :=
  let word := String.ofList (text.map Char.toLower)
  if word == "yes" || word == "true" || word == "on" then .ok (.bool true)
  else if word == "no" || word == "false" || word == "off" then .ok (.bool false)
  else .error .unknownWord

def dropLines (text : List Char) : List Char := text.filter (· != '_')

def sixtyInteger (parts : List Int) : Int := parts.foldl (fun n d => 60 * n + d) 0

/-- Digits in base sixty are summed from the last one on. -/
def sixtyNumber (parts : List Float) : Float :=
  (parts.reverse.foldl (fun (sum, scale) d => (sum + d * Float.ofNat scale, scale * 60))
    ((0.0 : Float), 1)).1

/-- The places of a number in base sixty whose powers of sixty are binary numbers. -/
def sixtyPlaces : Nat := 174

def required {α : Type} (f : Fault) : Option α → Except Fault α
  | some a => .ok a
  | none => .error f

def unsignedInteger (text : List Char) : Except Fault Int :=
  match text with
  | [] => .error .emptyNumber
  | ['0'] => .ok 0
  | '0' :: 'b' :: r => required .notANumber (Text.readInteger? 2 r)
  | '0' :: 'x' :: r => required .notANumber (Text.readInteger? 16 r)
  | '0' :: r => required .notANumber (Text.readInteger? 8 ('0' :: r))
  | r =>
      if r.contains ':' then
        (required .notANumber ((Text.splitBy (· == ':') r).mapM (Text.readInteger? 10))).map
          sixtyInteger
      else required .notANumber (Text.readInteger? 10 r)

def integer (text : List Char) : Except Fault Value :=
  match dropLines text with
  | '-' :: r => (unsignedInteger r).map fun n => .int (-n)
  | '+' :: r => (unsignedInteger r).map .int
  | r => (unsignedInteger r).map .int

def unsignedNumber (text : List Char) : Except Fault Float :=
  if text == ".inf".toList then .ok Decimal.infinity
  else if text == ".nan".toList then .ok Decimal.notANumber
  else if text.contains ':' then do
    let parts ← required .notANumber ((Text.splitBy (· == ':') text).mapM Decimal.read?)
    if sixtyPlaces < parts.length then .error .overflow else .ok (sixtyNumber parts)
  else required .notANumber (Decimal.read? text)

def number (text : List Char) : Except Fault Value :=
  match (dropLines text).map Char.toLower with
  | [] => .error .emptyNumber
  | '-' :: r => (unsignedNumber r).map fun x => .num (-x)
  | '+' :: r => (unsignedNumber r).map .num
  | r => (unsignedNumber r).map .num

def timestamp (text : List Char) : Except Fault Value :=
  match Stamp.ofText? text with
  | none => .error .noTimestamp
  | some s => if s.isValid then .ok (.moment s.moment) else .error .noDate

def scalarValue (tag : Tag) (text : List Char) : Except Fault Value :=
  match tag with
  | .null => .ok .null
  | .truth => truthWord text
  | .integer => integer text
  | .number => number text
  | .string => .ok (.text (String.ofList text))
  | .binary => (required .illFormed (octets? text)).map .bytes
  | .timestamp => timestamp text
  | .mapping => if text.isEmpty then .ok (.map []) else .error .notANumber
  | _ => .error .illFormed

def Tag.isScalar : Tag → Bool
  | .null => true
  | .truth => true
  | .integer => true
  | .number => true
  | .string => true
  | .binary => true
  | .timestamp => true
  | _ => false

/-- Tags of collections that are filled after they were begun. -/
def Tag.isFilled : Tag → Bool
  | .sequence => true
  | .set => true
  | .orderedMap => true
  | .pairs => true
  | _ => false

/-! ## Steps -/

/-- A step of building values, at a node. -/
inductive Step where
  | visit (node : Nat)
  | build (node : Nat)
  | merge (node : Nat)
  | default (node : Nat)
  /-- To fill a collection that was begun. -/
  | fill (node : Nat)
deriving DecidableEq, Repr

def Step.node : Step → Nat
  | visit i => i
  | build i => i
  | merge i => i
  | default i => i
  | fill i => i

/-- Whether there is room for the first of some steps within the others. -/
abbrev Room := List Step → Bool

structure Work where
  nodes : Array Node
  values : Array (Option Value)
  /-- Collections that were begun and are to be filled. -/
  begun : List Nat

abbrev Reading := StateT Work (Except Fault)

/-- Goes a step further within the steps around it. -/
def enter (room : Room) (steps : List Step) : Reading Unit :=
  if room steps then pure () else throw .tooNested

/-! ## Merged members -/

def content (i : Nat) : Reading Node := do
  return (← get).nodes.getD i (.scalar .null [])

def setContent (i : Nat) (n : Node) : Reading Unit :=
  modify fun w => { w with nodes := w.nodes.setIfInBounds i n }

def pairsOf (i : Nat) : Reading (List (Nat × Nat)) := do
  match ← content i with
  | .mapping _ pairs => return pairs
  | _ => return []

def setPairs (i : Nat) (pairs : List (Nat × Nat)) : Reading Unit := do
  match ← content i with
  | .mapping tag _ => setContent i (.mapping tag pairs)
  | _ => pure ()

def tagOf (i : Nat) : Reading Tag := do
  return (← content i).tag

def splitAtTag (tag : Tag) : List (Nat × Nat) →
    Reading (Option (List (Nat × Nat) × (Nat × Nat) × List (Nat × Nat)))
  | [] => return none
  | p :: rest => do
      if (← tagOf p.1) == tag then return some ([], p, rest)
      else match ← splitAtTag tag rest with
        | none => return none
        | some (before, q, after) => return some (p :: before, q, after)

/-- Keys that are marks of a default value become strings. -/
def nameDefaults : List (Nat × Nat) → Reading Unit
  | [] => pure ()
  | p :: rest => do
      let n ← content p.1
      if n.tag == .default then setContent p.1 (n.withTag .string)
      nameDefaults rest

section Merging

variable (room : Room)

mutual

/-- Puts the merged members of a mapping in front of its own, within the steps `around` it. -/
def flatten : Nat → List Step → Nat → Reading Unit
  | 0, _, _ => pure ()
  | fuel + 1, around, i => do
      let merged ← gather fuel around i []
      if !merged.isEmpty then setPairs i (merged ++ (← pairsOf i))

/-- Takes the merge keys off a mapping and collects the members that they bring. -/
def gather : Nat → List Step → Nat → List (Nat × Nat) → Reading (List (Nat × Nat))
  | 0, _, _, merged => return merged
  | fuel + 1, around, i, merged => do
      match ← splitAtTag .merge (← pairsOf i) with
      | none =>
          nameDefaults (← pairsOf i)
          return merged
      | some (before, p, after) =>
          nameDefaults before
          setPairs i (before ++ after)
          match ← content p.2 with
          | .mapping _ _ =>
              enter room (.merge p.2 :: around)
              flatten fuel (.merge p.2 :: around) p.2
              gather fuel around i (merged ++ (← pairsOf p.2))
          | .sequence _ items =>
              let parts ← items.mapM fun j => do
                match ← content j with
                | .mapping _ _ =>
                    enter room (.merge j :: around)
                    flatten fuel (.merge j :: around) j
                    pairsOf j
                | _ => throw .illFormed
              gather fuel around i (merged ++ parts.reverse.flatten)
          | .scalar _ _ => throw .illFormed

end

end Merging

/-! ## Nodes -/

/-- The text of a node that is tagged as a scalar: its own, or that of its default member, which
may be a mapping again. -/
def scalarText (room : Room) : Nat → List Step → Nat → Reading (List Char)
  | 0, _, _ => throw .tooNested
  | fuel + 1, around, i => do
      match ← content i with
      | .scalar _ text => return text
      | .sequence _ _ => throw .illFormed
      | .mapping _ pairs =>
          match ← splitAtTag .default pairs with
          | some (_, p, _) =>
              enter room (.default p.2 :: around)
              scalarText room fuel (.default p.2 :: around) p.2
          | none => throw .illFormed

def keepValue (i : Nat) (v : Value) : Reading Value := do
  modify fun w => { w with values := w.values.setIfInBounds i (some v) }
  return v

def value? (i : Nat) : Reading (Option Value) := do
  return (← get).values.getD i none

section Building

variable (room : Room) (size : Nat)

/-- The value of a node with the tag of a scalar. -/
def scalar (around : List Step) (i : Nat) (tag : Tag) : Reading Value := do
  let text ← scalarText room size around i
  if tag == .timestamp && !(← content i).isScalar then throw .wrongKind
  keepValue i (← liftM (scalarValue tag text))

/-- The text of a key, if it has one: a key that is tagged as a string is built as a value. -/
def keyText? (around : List Step) (i : Nat) : Reading (Option String) := do
  if (← tagOf i) == .string then
    enter room (.visit i :: around)
    match ← value? i with
    | some (.text s) => return some s
    | _ =>
        enter room (.build i :: .visit i :: around)
        let text ← scalarText room size (.build i :: .visit i :: around) i
        let _ ← keepValue i (.text (String.ofList text))
        return some (String.ofList text)
  else match ← content i with
    | .scalar _ text => return some (String.ofList text)
    | _ => return none

/-- A pair of an ordered map: a mapping of one member. -/
def entry (part : Nat → Reading Value) (j : Nat) : Reading Value := do
  match ← content j with
  | .mapping _ [p] => return .list [← part p.1, ← part p.2]
  | _ => throw .illFormed

/-- An element of a set, which can be a label. -/
def element (part : Nat → Reading Value) (p : Nat × Nat) : Reading (Label × Unit) := do
  match (← part p.1).label? with
  | none => throw .illFormed
  | some l =>
      let _ ← part p.2
      return (l, ())

/-- The value of a collection that is filled, by the values of its parts. -/
def filled (part : Nat → Reading Value) (around : List Step) (i : Nat) : Reading Value := do
  match ← content i with
  | .sequence .sequence items => return .list (← items.mapM part)
  | .sequence .orderedMap items => return .list (← items.mapM (entry part))
  | .sequence .pairs items => return .list (← items.mapM (entry part))
  | .mapping .set _ =>
      flatten room size around i
      let elements ← (← pairsOf i).mapM (element part)
      return .list ((Table.ofList elements).map fun e => e.1.value)
  | _ => throw .illFormed

/-- The members of a mapping; the value of each is built before its key is used. -/
def member (part : Nat → Reading Value) (around : List Step) (p : Nat × Nat) :
    Reading (String × Value) := do
  let key ← keyText? room size around p.1
  let v ← part p.2
  match key with
  | none => throw .wrongKind
  | some s => return (s, v)

/-- The value of a node within the steps `around` it. `size` is the count of all nodes and
pairs, which no chain of merges exceeds, and nodes nest no deeper. -/
def value : Nat → List Step → Nat → Reading Value
  | 0, _, _ => throw .tooNested
  | fuel + 1, around, i => do
      enter room (.visit i :: around)
      match ← value? i with
      | some v => return v
      | none =>
          if around.contains (.build i) then throw .illFormed
          let inner := .build i :: .visit i :: around
          enter room inner
          let tag ← tagOf i
          if tag.isScalar then scalar room size inner i tag
          else if tag.isFilled then
            keepValue i (← filled room size (fun j => value fuel inner j) inner i)
          else match ← content i with
            | .scalar tag text => keepValue i (← liftM (scalarValue tag text))
            | .sequence .mapping [] => keepValue i (.map [])
            | .sequence .mapping _ => throw .wrongKind
            | .mapping .mapping _ =>
                flatten room size inner i
                let ms ← (← pairsOf i).mapM
                  (member room size (fun j => value fuel inner j) inner)
                keepValue i (.map (Table.ofList ms))
            | _ => throw .illFormed

/-- The value of a node that stands in no map: a collection is begun as a list, and filled
later. -/
def beginValue (around : List Step) (i : Nat) : Reading Value := do
  if (← tagOf i).isFilled && (← value? i).isNone then
    enter room (.visit i :: around)
    enter room (.build i :: .visit i :: around)
    modify fun w => { w with begun := w.begun ++ [i] }
    keepValue i (.list [])
  else value room size size around i

/-- Fills the collections that were begun, each with those that it begins. -/
def fillAll : Nat → Reading Unit
  | 0 => pure ()
  | fuel + 1 => do
      match (← get).begun with
      | [] => pure ()
      | i :: rest =>
          modify fun w => { w with begun := rest }
          enter room [.fill i]
          let _ ← filled room size (beginValue room size [.fill i]) [.fill i] i
          fillAll fuel

def root (i : Nat) : Reading Value := do
  let v ← beginValue room size [] i
  fillAll room size size
  return v

end Building

def pairCount : Node → Nat
  | .mapping _ pairs => pairs.length + 1
  | _ => 1

/-- More than the nodes and pairs, and than any loop over them takes steps. -/
def graphSize (nodes : Array Node) : Nat :=
  2 * nodes.foldl (fun n node => n + pairCount node) 2

/-- The value of the document in a text. The items of a list that is the whole document are
looked at and left out, for no description is a list. -/
def parseWithin (room : Room) (text : String) : Except Fault Value := do
  let tokens ← required .illFormed (Token.ofText? text)
  match ← required .illFormed (Graph.ofTokens? tokens.toList) with
  | (none, _) => return .null
  | (some i, nodes) =>
      let (v, _) ← (root room (graphSize nodes) i).run ⟨nodes, nodes.map fun _ => none, []⟩
      return v

end RestGraph.Yaml
