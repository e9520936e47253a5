import RestGraph.Yaml.Cursor

namespace RestGraph.Yaml

/-!
# Scalars of YAML

A scalar is plain, quoted or a block. Lines of plain, quoted and folded scalars are
joined by spaces, while blank lines between them stay breaks. A scalar that ends too
early or is ill formed is none.

The loops below take characters off the text, so a count of steps that begins above
the length of the text does not run out. They gather what they read in reverse.
-/

def pushAll (acc cs : List Char) : List Char := cs.reverseAux acc

/-- A break after which the text went on, with the further breaks behind it. -/
def folded (first more : List Char) : List Char :=
  if first == ['\n'] then (if more.isEmpty then [' '] else more) else first ++ more

/-! ## Blanks between the words of a flow scalar -/

structure Gap where
  /-- The blanks, as long as no break has come. -/
  blanks : List Char
  /-- The first break, if one has come. -/
  first : List Char
  more : List Char
  broken : Bool

def Gap.none : Gap := ⟨[], [], [], false⟩

def Gap.text (g : Gap) : List Char :=
  if g.broken then folded g.first g.more else g.blanks

/-- The gap from here to the next word. Tabs that stand before column `indent` of a later line
are refused. -/
def gap (indent : Nat) : Nat → Gap → Cursor → Option (Gap × Cursor)
  | 0, g, c => some (g, c)
  | steps + 1, g, c =>
      match c.peek with
      | some d =>
          if isSpace d then
            if g.broken then
              if d == '\t' && c.column < indent then Option.none else gap indent steps g (c.skip 1)
            else gap indent steps { g with blanks := g.blanks ++ [d] } (c.skip 1)
          else if isBreak d then
            let (b, c) := c.takeBreak
            if g.broken then gap indent steps { g with more := g.more ++ b } c
            else gap indent steps { g with blanks := [], first := b, broken := true } c
          else some (g, c)
      | Option.none => some (g, c)

/-! ## Quoted scalars -/

def simpleEscape? : Char → Option Nat
  | '0' => some 0x0
  | 'a' => some 0x7
  | 'b' => some 0x8
  | 't' => some 0x9
  | '\t' => some 0x9
  | 'n' => some 0xa
  | 'v' => some 0xb
  | 'f' => some 0xc
  | 'r' => some 0xd
  | 'e' => some 0x1b
  | ' ' => some 0x20
  | '\x22' => some 0x22
  | '/' => some 0x2f
  | '\\' => some 0x5c
  | 'N' => some 0x85
  | '_' => some 0xa0
  | 'L' => some 0x2028
  | 'P' => some 0x2029
  | _ => none

def hexWidth? : Char → Option Nat
  | 'x' => some 2
  | 'u' => some 4
  | 'U' => some 8
  | _ => none

def escape? (c : Cursor) : Option (Char × Cursor) := do
  let letter ← c.peekAt 1
  match simpleEscape? letter with
  | some n => return (Char.ofNat n, c.skip 2)
  | none =>
      let width ← hexWidth? letter
      let c := c.skip 2
      let ds := c.rest.take width
      if ds.length < width then none
      let n ← Text.hexNumber? ds
      if (0xd800 ≤ n && n ≤ 0xdfff) || 0x10ffff < n then none
      return (Char.ofNat n, c.skip width)

/-- What is gathered up to the next blank of a quoted scalar, and whether an escaped break ends
it there. -/
def quotedWord (single : Bool) : Nat → List Char → Cursor → Option (List Char × Bool × Cursor)
  | 0, acc, c => some (acc, false, c)
  | steps + 1, acc, c =>
      match c.rest with
      | [] => some (acc, false, c)
      | d :: r =>
          if isSpace d || isBreak d then some (acc, false, c)
          else if single then
            if d == '\x27' then
              if r.head? == some '\x27' then quotedWord single steps (d :: acc) (c.skip 2)
              else some (acc, false, c)
            else quotedWord single steps (d :: acc) (c.skip 1)
          else if d == '\x22' then some (acc, false, c)
          else if d == '\\' then
            if r.head?.any isBreak then some (acc, true, (c.skip 1).skipBreak)
            else match escape? c with
              | none => none
              | some (e, c) => quotedWord single steps (e :: acc) c
          else quotedWord single steps (d :: acc) (c.skip 1)

def quotedRest (single : Bool) : Nat → List Char → Cursor → Option (List Char × Cursor)
  | 0, _, _ => none
  | steps + 1, acc, c =>
      if c.atDocumentMark || c.atEnd then none
      else
        match quotedWord single c.steps acc c with
        | none => none
        | some (acc, broken, c) =>
            if c.isAt (if single then '\x27' else '\x22') then some (acc.reverse, c.skip 1)
            else
              match gap 0 c.steps { Gap.none with broken := broken } c with
              | none => none
              | some (g, c) => quotedRest single steps (pushAll acc g.text) c

def quotedScalar (single : Bool) (c : Cursor) : Option (List Char × Cursor) :=
  quotedRest single c.steps [] (c.skip 1)

/-! ## Plain scalars -/

def isFlowMark (c : Char) : Bool :=
  c == ',' || c == '[' || c == ']' || c == '\x7b' || c == '\x7d'

/-- A word of a plain scalar; within brackets a colon may not be followed by a flow mark. -/
def plainWord (flow : Bool) : Nat → List Char → Cursor → Option (List Char × Cursor)
  | 0, acc, c => some (acc, c)
  | steps + 1, acc, c =>
      match c.peek with
      | none => some (acc, c)
      | some d =>
          if isSpace d || isBreak d then some (acc, c)
          else if flow && d == ':' &&
              ((c.peekAt 1).any fun e => isFlowMark e || e == '?') then none
          else if d == ':' && c.endsWordAt 1 then some (acc, c)
          else if flow && isFlowMark d then some (acc, c)
          else plainWord flow steps (d :: acc) (c.skip 1)

/-- The plain scalar from here on, and whether a break stood behind it. -/
def plainRest (flow : Bool) (indent : Nat) : Nat → List Char → Gap → Cursor →
    Option (List Char × Bool × Cursor)
  | 0, acc, g, c => some (acc.reverse, g.broken, c)
  | steps + 1, acc, g, c =>
      if c.atDocumentMark || c.isAt '#' then some (acc.reverse, g.broken, c)
      else
        match plainWord flow c.steps [] c with
        | none => none
        | some (word, c) =>
            let (acc, g) :=
              if word.isEmpty then (acc, g) else (word ++ pushAll acc g.text, Gap.none)
            if !c.holds (fun d => isSpace d || isBreak d) then some (acc.reverse, g.broken, c)
            else
              match gap indent c.steps g c with
              | none => none
              | some (g, c) =>
                  if !flow && c.column < indent then some (acc.reverse, g.broken, c)
                  else plainRest flow indent steps acc g c

def plainScalar (flow : Bool) (indent : Nat) (c : Cursor) : Option (List Char × Bool × Cursor) :=
  plainRest flow indent c.steps [] Gap.none c

/-! ## Block scalars -/

inductive Chomp where
  | strip
  | clip
  | keep
deriving DecidableEq

def blockHeader (c : Cursor) : Option (Chomp × Nat × Cursor) :=
  let chomp (c : Cursor) : Option (Chomp × Cursor) :=
    if c.isAt '+' then some (.keep, c.skip 1)
    else if c.isAt '-' then some (.strip, c.skip 1)
    else none
  let digit (c : Cursor) : Option (Nat × Cursor) :=
    match c.peek with
    | some d => if isDigit d then some (d.toNat - 0x30, c.skip 1) else none
    | none => none
  match chomp c with
  | some (k, c) =>
      match digit c with
      | some (0, _) => none
      | some (n, c) => some (k, n, c)
      | none => some (k, 0, c)
  | none =>
      match digit c with
      | some (0, _) => none
      | some (n, c) =>
          match chomp c with
          | some (k, c) => some (k, n, c)
          | none => some (.clip, n, c)
      | none => some (.clip, 0, c)

/-- The breaks up to the next line that is not empty, and the widest indentation met. While
`indent` is zero, it is not known yet. -/
def blockBreaks (indent : Nat) : Nat → List Char → Nat → Cursor →
    Option (List Char × Nat × Cursor)
  | 0, breaks, widest, c => some (breaks, widest, c)
  | steps + 1, breaks, widest, c =>
      let spaces := (c.rest.takeWhile (· == ' ')).length
      let c := c.skip (if indent == 0 then spaces else min spaces (indent - c.column))
      let widest := max widest c.column
      if (indent == 0 || c.column < indent) && c.isAt '\t' then none
      else if c.holds isBreak then
        let (b, c) := c.takeBreak
        blockBreaks indent steps (breaks ++ b) widest c
      else some (breaks, widest, c)

structure BlockText where
  text : List Char
  leading : List Char
  trailing : List Char
  /-- Whether the last line began with a blank. -/
  indented : Bool

def blockLines (literal : Bool) (indent : Nat) : Nat → BlockText → Cursor →
    Option (BlockText × Cursor)
  | 0, b, c => some (b, c)
  | steps + 1, b, c =>
      if c.column != indent || c.atEnd then some (b, c)
      else
        let blank := c.holds isSpace
        let joint :=
          if !literal && b.leading == ['\n'] && !b.indented && !blank then
            if b.trailing.isEmpty then [' '] else []
          else b.leading
        let line := c.taken (fun d => !isBreak d)
        let (leading, c) := (c.skip line.length).takeBreak
        match blockBreaks indent c.steps [] 0 c with
        | none => none
        | some (trailing, _, c) =>
            blockLines literal indent steps
              ⟨pushAll (pushAll (pushAll b.text joint) b.trailing) line, leading, trailing, blank⟩ c

/-- The block scalar whose mark the cursor stands at, in a block that is indented to column
`parent`, if in any. -/
def blockScalar (literal : Bool) (parent : Option Nat) (c : Cursor) :
    Option (List Char × Cursor) := do
  let (chomp, increment, c) ← blockHeader (c.skip 1)
  let c := c.skipComment
  if !c.endsLine then none
  let c := c.skipBreak
  let fixed := if increment == 0 then 0 else parent.getD 0 + increment
  let (trailing, widest, c) ← blockBreaks fixed c.steps [] 0 c
  let least := match parent with
    | some n => n + 1
    | none => 0
  let indent := if fixed == 0 then max 1 (max widest least) else fixed
  let (b, c) ← blockLines literal indent c.steps ⟨[], [], trailing, false⟩ c
  let lines := b.text.reverse
  let text := match chomp with
    | .strip => lines
    | .clip => lines ++ b.leading
    | .keep => lines ++ b.leading ++ b.trailing
  return (text, c)

end RestGraph.Yaml
