import RestGraph.Table
import RestGraph.Yaml.Tag
import RestGraph.Yaml.Token

namespace RestGraph.Yaml

/-!
# Node graphs of YAML

The nodes of a document are numbered. Sequences and mappings hold the numbers of
their parts, so that an alias shares the node of its anchor, even one that encloses
it. A text must hold one document at most.
-/

inductive Node where
  | scalar (tag : Tag) (text : List Char)
  | sequence (tag : Tag) (items : List Nat)
  | mapping (tag : Tag) (pairs : List (Nat × Nat))
deriving Inhabited

namespace Node

def tag : Node → Tag
  | scalar tag _ => tag
  | sequence tag _ => tag
  | mapping tag _ => tag

def withTag (t : Tag) : Node → Node
  | scalar _ text => scalar t text
  | sequence _ items => sequence t items
  | mapping _ pairs => mapping t pairs

def isScalar : Node → Bool
  | scalar _ _ => true
  | _ => false

end Node

structure Graph where
  nodes : Array Node
  anchors : Table String Nat
  handles : Table String (List Char)

abbrev Draft := StateT Graph Option

def fault {α : Type} : Draft α := fun _ => none

def addNode (n : Node) : Draft Nat := do
  let g ← get
  set { g with nodes := g.nodes.push n }
  return g.nodes.size

def setNode (i : Nat) (n : Node) : Draft Unit :=
  modify fun g => { g with nodes := g.nodes.setIfInBounds i n }

def setAnchor (name : Option (List Char)) (i : Nat) : Draft Unit := do
  match name with
  | none => pure ()
  | some cs =>
      let g ← get
      let key := String.ofList cs
      if Table.contains g.anchors key then fault
      set { g with anchors := Table.insert g.anchors key i }

/-- The name of a tag; `!` alone stands for none. -/
def tagName (t : Option (List Char × List Char)) : Draft (Option (List Char)) := do
  match t with
  | none => return none
  | some ([], suffix) => return some suffix
  | some (handle, suffix) =>
      match Table.get? (← get).handles (String.ofList handle) with
      | some leader => return some (leader ++ suffix)
      | none => fault

def properties : List Token →
    Option (List Char) × Option (List Char × List Char) × List Token
  | .anchor a :: .tag h s :: ts => (some a, some (h, s), ts)
  | .anchor a :: ts => (some a, none, ts)
  | .tag h s :: .anchor a :: ts => (some a, some (h, s), ts)
  | .tag h s :: ts => (none, some (h, s), ts)
  | ts => (none, none, ts)

def collectionTag (name : Option (List Char)) (usual : Tag) : Tag :=
  match name with
  | none => usual
  | some ['!'] => usual
  | some n => Tag.ofName n

def scalarTag (plain : Bool) (name : Option (List Char)) (text : List Char) : Tag :=
  match name with
  | none => if plain then Tag.ofPlain text else .string
  | some ['!'] => Tag.ofPlain text
  | some n => Tag.ofName n

def addScalar (anchor : Option (List Char)) (tag : Tag) (text : List Char) : Draft Nat := do
  let i ← addNode (.scalar tag text)
  setAnchor anchor i
  return i

def empty : Draft Nat := addScalar none .null []

/-- The tokens after which a part of a block may be left out. -/
def endsBlockPart : List Token → Bool
  | .key :: _ => true
  | .value :: _ => true
  | .blockEnd :: _ => true
  | _ => false

def endsFlowPart (close : Token) : List Token → Bool
  | .value :: _ => true
  | .flowEntry :: _ => true
  | t :: _ => t == close
  | [] => false

mutual

/-- A node at the front of the tokens: `block` allows block collections, and `indentless` a
sequence whose entries are not indented further than the key before them. -/
def node : Nat → Bool → Bool → List Token → Draft (Nat × List Token)
  | 0, _, _, _ => fault
  | steps + 1, block, indentless, ts =>
      match ts with
      | .alias name :: ts => do
          match Table.get? (← get).anchors (String.ofList name) with
          | some i => return (i, ts)
          | none => fault
      | ts => do
          let (anchor, tag, ts) := properties ts
          let name ← tagName tag
          match ts with
          | .scalar plain text :: ts =>
              return (← addScalar anchor (scalarTag plain name text) text, ts)
          | .flowSequence :: ts => do
              let tag := collectionTag name .sequence
              let i ← addNode (.sequence tag [])
              setAnchor anchor i
              let (items, ts) ← flowItems steps true [] ts
              setNode i (.sequence tag items)
              return (i, ts)
          | .flowMapping :: ts => do
              let tag := collectionTag name .mapping
              let i ← addNode (.mapping tag [])
              setAnchor anchor i
              let (pairs, ts) ← flowPairs steps true [] ts
              setNode i (.mapping tag pairs)
              return (i, ts)
          | .entry :: _ =>
              if indentless then do
                let tag := collectionTag name .sequence
                let i ← addNode (.sequence tag [])
                setAnchor anchor i
                let (items, ts) ← indentlessItems steps [] ts
                setNode i (.sequence tag items)
                return (i, ts)
              else bare anchor name ts
          | .blockSequence :: rest =>
              if block then do
                let tag := collectionTag name .sequence
                let i ← addNode (.sequence tag [])
                setAnchor anchor i
                let (items, ts) ← blockItems steps [] rest
                setNode i (.sequence tag items)
                return (i, ts)
              else bare anchor name ts
          | .blockMapping :: rest =>
              if block then do
                let tag := collectionTag name .mapping
                let i ← addNode (.mapping tag [])
                setAnchor anchor i
                let (pairs, ts) ← blockPairs steps [] rest
                setNode i (.mapping tag pairs)
                return (i, ts)
              else bare anchor name ts
          | ts => bare anchor name ts

def bare (anchor name : Option (List Char)) (ts : List Token) : Draft (Nat × List Token) := do
  if anchor.isNone && name.isNone then fault
  let tag := match name with
    | none => Tag.null
    | some ['!'] => .string
    | some n => Tag.ofName n
  return (← addScalar anchor tag [], ts)

def blockItems : Nat → List Nat → List Token → Draft (List Nat × List Token)
  | 0, _, _ => fault
  | steps + 1, acc, ts =>
      match ts with
      | .entry :: ts => do
          match ts with
          | .entry :: _ => blockItems steps ((← empty) :: acc) ts
          | .blockEnd :: _ => blockItems steps ((← empty) :: acc) ts
          | ts =>
              let (i, ts) ← node steps true false ts
              blockItems steps (i :: acc) ts
      | .blockEnd :: ts => return (acc.reverse, ts)
      | _ => fault

def indentlessItems : Nat → List Nat → List Token → Draft (List Nat × List Token)
  | 0, _, _ => fault
  | steps + 1, acc, ts =>
      match ts with
      | .entry :: ts => do
          if endsBlockPart ts || ts.head? == some .entry then
            indentlessItems steps ((← empty) :: acc) ts
          else
            let (i, ts) ← node steps true false ts
            indentlessItems steps (i :: acc) ts
      | ts => return (acc.reverse, ts)

def blockPairs : Nat → List (Nat × Nat) → List Token → Draft (List (Nat × Nat) × List Token)
  | 0, _, _ => fault
  | steps + 1, acc, ts =>
      match ts with
      | .key :: ts => do
          let (k, ts) ← if endsBlockPart ts then do pure (← empty, ts) else node steps true true ts
          let (v, ts) ← blockValue steps ts
          blockPairs steps ((k, v) :: acc) ts
      | .value :: _ => fault
      | .blockEnd :: ts => return (acc.reverse, ts)
      | _ => fault

def blockValue : Nat → List Token → Draft (Nat × List Token)
  | 0, _ => fault
  | steps + 1, ts =>
      match ts with
      | .value :: ts => do
          if endsBlockPart ts then return (← empty, ts) else node steps true true ts
      | ts => do return (← empty, ts)

def flowItems : Nat → Bool → List Nat → List Token → Draft (List Nat × List Token)
  | 0, _, _, _ => fault
  | steps + 1, first, acc, ts =>
      match ts with
      | .flowSequenceEnd :: ts => return (acc.reverse, ts)
      | ts => do
          let ts ← if first then pure ts else
            match ts with
            | .flowEntry :: ts => pure ts
            | _ => fault
          match ts with
          | .flowSequenceEnd :: ts => return (acc.reverse, ts)
          | .key :: ts => do
              let i ← addNode (.mapping .mapping [])
              let (pair, ts) ← flowPair steps ts
              setNode i (.mapping .mapping [pair])
              flowItems steps false (i :: acc) ts
          | ts =>
              let (i, ts) ← node steps false false ts
              flowItems steps false (i :: acc) ts

/-- A single pair within a flow sequence. Where its key is left out, the next token goes with
it. -/
def flowPair : Nat → List Token → Draft ((Nat × Nat) × List Token)
  | 0, _ => fault
  | steps + 1, ts => do
      let (k, ts) ←
        if endsFlowPart .flowSequenceEnd ts then do pure (← empty, ts.drop 1)
        else node steps false false ts
      match ts with
      | .value :: ts =>
          match ts with
          | .flowEntry :: _ => return ((k, ← empty), ts)
          | .flowSequenceEnd :: _ => return ((k, ← empty), ts)
          | ts =>
              let (v, ts) ← node steps false false ts
              return ((k, v), ts)
      | ts => return ((k, ← empty), ts)

def flowPairs : Nat → Bool → List (Nat × Nat) → List Token →
    Draft (List (Nat × Nat) × List Token)
  | 0, _, _, _ => fault
  | steps + 1, first, acc, ts =>
      match ts with
      | .flowMappingEnd :: ts => return (acc.reverse, ts)
      | ts => do
          let ts ← if first then pure ts else
            match ts with
            | .flowEntry :: ts => pure ts
            | _ => fault
          match ts with
          | .flowMappingEnd :: ts => return (acc.reverse, ts)
          | .key :: ts => do
              let (k, ts) ←
                if endsFlowPart .flowMappingEnd ts then do pure (← empty, ts)
                else node steps false false ts
              let (v, ts) ← flowValue steps ts
              flowPairs steps false ((k, v) :: acc) ts
          | ts =>
              let (k, ts) ← node steps false false ts
              flowPairs steps false ((k, ← empty) :: acc) ts

def flowValue : Nat → List Token → Draft (Nat × List Token)
  | 0, _ => fault
  | steps + 1, ts =>
      match ts with
      | .value :: ts => do
          match ts with
          | .flowEntry :: _ => return (← empty, ts)
          | .flowMappingEnd :: _ => return (← empty, ts)
          | ts => node steps false false ts
      | ts => do return (← empty, ts)

end

/-! ## Documents -/

def standardHandles : Table String (List Char) := [("!", ['!']), ("!!", Tag.family)]

/-- The directives of a document, of which each may stand once. -/
def directives (seen : Bool) (handles : Table String (List Char)) :
    List Token → Option (Table String (List Char) × List Token)
  | .version major minor :: ts =>
      if seen || major != 1 || (minor != 1 && minor != 2) then none
      else directives true handles ts
  | .tagHandle h leader :: ts =>
      let key := String.ofList h
      if Table.contains handles key then none
      else directives seen (handles ++ [(key, leader)]) ts
  | ts => some (handles, ts)

def Token.startsContent : Token → Bool
  | .version _ _ => false
  | .tagHandle _ _ => false
  | .documentStart => false
  | .documentEnd => false
  | .streamEnd => false
  | _ => true

/-- The directives before a document and its tokens from the first on; none if there is no
document. A document whose start is not marked has no directives. -/
def prologue (ts : List Token) :
    Option (Option (Table String (List Char) × List Token)) :=
  match ts with
  | .streamEnd :: _ => some none
  | .version _ _ :: _ => marked ts
  | .tagHandle _ _ :: _ => marked ts
  | .documentStart :: _ => marked ts
  | ts => some (some ([], ts))
where
  marked (ts : List Token) : Option (Option (Table String (List Char) × List Token)) :=
    match directives false [] ts with
    | some (handles, .documentStart :: ts) => some (some (handles, ts))
    | _ => none

/-- The nodes of the document of a text with the number of its root; no root if there is no
document. -/
def Graph.ofTokens? (tokens : List Token) : Option (Option Nat × Array Node) := do
  match ← prologue tokens with
  | none => return (none, #[])
  | some (handles, ts) =>
      let all := handles ++ standardHandles.filter fun h => !Table.contains handles h.1
      let explicit := ts.length < tokens.length
      let content : Draft (Nat × List Token) :=
        if explicit && (ts.head?.any fun t => !t.startsContent) then do return (← empty, ts)
        else node (8 * tokens.length + 8) true false ts
      let ((root, rest), g) ← content.run ⟨#[], [], all⟩
      match rest.dropWhile (· == .documentEnd) with
      | [.streamEnd] => return (some root, g.nodes)
      | _ => none

end RestGraph.Yaml
