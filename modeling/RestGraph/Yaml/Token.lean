import RestGraph.Yaml.Scalar

namespace RestGraph.Yaml

/-!
# Tokens of YAML

Indentation shows as tokens that begin and end blocks. A word may turn out to be a
key when a colon follows it on its line, so the tokens that open a mapping and mark
its key are put in before tokens that were found earlier.
-/

inductive Token where
  | version (major minor : Nat)
  | tagHandle (handle leader : List Char)
  | documentStart
  | documentEnd
  | blockSequence
  | blockMapping
  | blockEnd
  | flowSequence
  | flowSequenceEnd
  | flowMapping
  | flowMappingEnd
  | entry
  | flowEntry
  | key
  | value
  | alias (name : List Char)
  | anchor (name : List Char)
  | tag (handle suffix : List Char)
  | scalar (plain : Bool) (text : List Char)
  | streamEnd
deriving DecidableEq, Repr, Inhabited

/-- A place where a key may have begun. -/
structure Candidate where
  /-- Whether the place must turn out to be a key. -/
  required : Bool
  number : Nat
  index : Nat
  line : Nat
  column : Nat

structure Lexer where
  cursor : Cursor
  tokens : Array Token
  /-- The columns of the open blocks, the innermost first. -/
  indents : List Nat
  /-- A candidate for each open bracket and for the block around them, the innermost first. -/
  candidates : List (Option Candidate)
  keyAllowed : Bool

namespace Lexer

def start (s : List Char) : Lexer := ⟨Cursor.start s, #[], [], [none], true⟩

def inFlow (l : Lexer) : Bool := 1 < l.candidates.length

def indent? (l : Lexer) : Option Nat := l.indents.head?

def emit (l : Lexer) (t : Token) : Lexer := { l with tokens := l.tokens.push t }

def moveTo (l : Lexer) (c : Cursor) : Lexer := { l with cursor := c }

def allow (l : Lexer) (b : Bool) : Lexer := { l with keyAllowed := b }

def insertAt (l : Lexer) (n : Nat) (t : Token) : Lexer :=
  { l with tokens := l.tokens.insertIdxIfInBounds n t }

/-! ## Candidates for keys -/

def setCandidate (l : Lexer) (k : Option Candidate) : Lexer :=
  { l with candidates := k :: l.candidates.tail }

def candidate? (l : Lexer) : Option Candidate := l.candidates.head?.join

/-- The innermost candidate given up, unless it must be a key. -/
def dropCandidate (l : Lexer) : Option Lexer :=
  if l.candidate?.any Candidate.required then none else some (l.setCandidate none)

/-- A candidate is a key within its line and 1024 characters only. -/
def expire (c : Cursor) : List (Option Candidate) → Option (List (Option Candidate))
  | [] => some []
  | none :: rest => (expire c rest).map (none :: ·)
  | some k :: rest =>
      if k.line < c.line || k.index + 1024 < c.index then
        if k.required then none else (expire c rest).map (none :: ·)
      else (expire c rest).map (some k :: ·)

def saveCandidate (l : Lexer) : Option Lexer :=
  if l.keyAllowed then
    let required := !l.inFlow && l.indent? == some l.cursor.column
    let k : Candidate :=
      ⟨required, l.tokens.size, l.cursor.index, l.cursor.line, l.cursor.column⟩
    l.dropCandidate.map (·.setCandidate (some k))
  else some l

/-! ## Blocks -/

def openBlock (l : Lexer) (column : Nat) (at? : Option Nat) (t : Token) : Lexer :=
  if l.inFlow || l.indent?.any (column ≤ ·) then l
  else
    let l := { l with indents := column :: l.indents }
    match at? with
    | some n => l.insertAt n t
    | none => l.emit t

def closeBlocks (column : Option Nat) : List Nat → Lexer → Lexer
  | [], l => l
  | n :: rest, l =>
      if column.all (· < n) then
        closeBlocks column rest { l.emit .blockEnd with indents := rest }
      else l

def unroll (l : Lexer) (column : Option Nat) : Lexer :=
  if l.inFlow then l else closeBlocks column l.indents l

/-! ## Blanks between tokens -/

/-- Tabs are blanks where no key may begin. -/
def toNextToken : Nat → Lexer → Lexer
  | 0, l => l
  | steps + 1, l =>
      let tabs := l.inFlow || !l.keyAllowed
      let c := l.cursor
      let c := if c.index == 0 && c.isAt '\ufeff' then c.skip 1 else c
      let c := c.skipWhile fun d => d == ' ' || (tabs && d == '\t')
      let c := if c.isAt '#' then c.skipWhile (fun d => !isBreak d) else c
      if c.holds isBreak then
        let l := l.moveTo c.skipBreak
        toNextToken steps (if l.inFlow then l else l.allow true)
      else l.moveTo c

/-! ## Tags and directives -/

def isUri (c : Char) : Bool :=
  isWord c || ";/?:@&=+$.%!~*()".toList.contains c || c == '\x27'

def isVerbatimUri (c : Char) : Bool := isUri c || c == ',' || c == '[' || c == ']'

/-- One octet written as a percent sign and two digits. -/
def octet? : List Char → Option (Nat × List Char)
  | '%' :: a :: b :: r => (Text.hexNumber? [a, b]).map fun n => (n, r)
  | _ => none

def octets? : Nat → Nat → List Char → Option (Nat × List Char)
  | 0, n, s => some (n, s)
  | count + 1, n, s =>
      match octet? s with
      | none => none
      | some (o, r) => if o / 64 == 2 then octets? count (n * 64 + o % 64) r else none

def escaped? (s : List Char) : Option (Char × List Char) :=
  match octet? s with
  | none => none
  | some (o, r) =>
      if o < 0x80 then some (Char.ofNat o, r)
      else
        let further :=
          if o / 32 == 6 then some (1, o % 32)
          else if o / 16 == 14 then some (2, o % 16)
          else if o / 8 == 30 then some (3, o % 8)
          else none
        match further with
        | none => none
        | some (count, n) => (octets? count n r).map fun (n, r) => (Char.ofNat n, r)

def unescapeUri : Nat → List Char → Option (List Char)
  | 0, _ => some []
  | _, [] => some []
  | steps + 1, '%' :: r =>
      match escaped? ('%' :: r) with
      | none => none
      | some (d, r) => (unescapeUri steps r).map (d :: ·)
  | steps + 1, d :: r => (unescapeUri steps r).map (d :: ·)

/-- A tag URI after what its handle has left over; only an empty one is refused. -/
def uri (p : Char → Bool) (head : List Char) (c : Cursor) : Option (List Char × Cursor) :=
  let text := c.taken p
  if head.isEmpty && text.isEmpty then none
  else (unescapeUri (text.length + 1) text).map fun cs => (head.drop 1 ++ cs, c.skip text.length)

/-- A handle from its exclamation mark on; without a second mark it is part of a tag, which a
directive has no use for. -/
def handle (directive : Bool) (c : Cursor) : Option (List Char × Cursor) :=
  if !c.isAt '!' then none
  else
    let word := (c.skip 1).taken isWord
    let c := c.skip (1 + word.length)
    if c.isAt '!' then some ('!' :: word ++ ['!'], c.skip 1)
    else if directive && !word.isEmpty then none
    else some ('!' :: word, c)

def tag (l : Lexer) : Option Lexer := do
  let c := l.cursor
  let (token, c) ←
    if c.peekAt 1 == some '<' then do
      let (suffix, c) ← uri isVerbatimUri [] (c.skip 2)
      if !c.isAt '>' then none
      pure (Token.tag [] suffix, c.skip 1)
    else do
      let (h, c) ← handle false c
      if 1 < h.length && h.getLast? == some '!' then
        let (suffix, c) ← uri isUri [] c
        pure (Token.tag h suffix, c)
      else
        let (suffix, c) ← uri isUri h c
        pure (if suffix.isEmpty then Token.tag [] ['!'] else Token.tag ['!'] suffix, c)
  if !c.endsWordAt 0 && !(l.inFlow && c.isAt ',') then none
  return (l.moveTo c).emit token

def smallNumber (c : Cursor) : Option (Nat × Cursor) :=
  let ds := c.taken isDigit
  if ds.isEmpty || 9 < ds.length then none
  else some (ds.foldl (fun n d => 10 * n + (d.toNat - 0x30)) 0, c.skip ds.length)

def directive (l : Lexer) : Option Lexer := do
  let c := l.cursor.skip 1
  let name := c.taken isWord
  let c := c.skip name.length
  if name.isEmpty || !c.endsWordAt 0 then none
  let (token, c) ←
    if name == "YAML".toList then do
      let (major, c) ← smallNumber (c.skipWhile isSpace)
      if !c.isAt '.' then none
      let (minor, c) ← smallNumber (c.skip 1)
      pure (Token.version major minor, c)
    else if name == "TAG".toList then do
      let (h, c) ← handle true (c.skipWhile isSpace)
      if !c.holds isSpace then none
      let (leader, c) ← uri isVerbatimUri [] (c.skipWhile isSpace)
      if !c.endsWordAt 0 then none
      pure (Token.tagHandle h leader, c)
    else none
  let c := c.skipComment
  if !c.endsLine then none
  return (l.moveTo c.skipBreak).emit token

/-! ## Tokens -/

def endsAnchor (c : Char) : Bool :=
  "?:,]%@".toList.contains c || c == '\x7d' || c == '\x60'

def anchorName (c : Cursor) : Option (List Char × Cursor) :=
  let name := (c.skip 1).taken isWord
  let c := c.skip (1 + name.length)
  if name.isEmpty || !(c.endsWordAt 0 || c.holds endsAnchor) then none else some (name, c)

def openFlow (l : Lexer) (t : Token) : Option Lexer := do
  let l ← l.saveCandidate
  let l := { l with candidates := none :: l.candidates }
  return ((l.moveTo (l.cursor.skip 1)).emit t).allow true

def closeFlow (l : Lexer) (t : Token) : Option Lexer := do
  let l ← l.dropCandidate
  let l := if l.inFlow then { l with candidates := l.candidates.tail } else l
  return ((l.moveTo (l.cursor.skip 1)).emit t).allow false

def flowEntry (l : Lexer) : Option Lexer := do
  let l ← l.dropCandidate
  return ((l.moveTo (l.cursor.skip 1)).emit .flowEntry).allow true

def blockEntry (l : Lexer) : Option Lexer := do
  if !l.inFlow && !l.keyAllowed then none
  let l := l.openBlock l.cursor.column none .blockSequence
  let l ← l.dropCandidate
  return ((l.moveTo (l.cursor.skip 1)).emit .entry).allow true

def keyMark (l : Lexer) : Option Lexer := do
  if !l.inFlow && !l.keyAllowed then none
  let l := l.openBlock l.cursor.column none .blockMapping
  let l ← l.dropCandidate
  return ((l.moveTo (l.cursor.skip 1)).emit .key).allow (!l.inFlow)

def valueMark (l : Lexer) : Option Lexer :=
  match l.candidate? with
  | some k =>
      let l := l.insertAt k.number .key
      let l := l.openBlock k.column (some k.number) .blockMapping
      let l := l.setCandidate none
      some (((l.moveTo (l.cursor.skip 1)).emit .value).allow false)
  | none =>
      if !l.inFlow && !l.keyAllowed then none
      else
        let l := l.openBlock l.cursor.column none .blockMapping
        some (((l.moveTo (l.cursor.skip 1)).emit .value).allow (!l.inFlow))

def anchor (l : Lexer) (make : List Char → Token) : Option Lexer := do
  let l ← l.saveCandidate
  let (name, c) ← anchorName l.cursor
  return ((l.moveTo c).emit (make name)).allow false

def documentMark (l : Lexer) (t : Token) : Option Lexer := do
  let l ← (l.unroll none).dropCandidate
  return ((l.moveTo (l.cursor.skip 3)).emit t).allow false

def blockText (l : Lexer) (literal : Bool) : Option Lexer := do
  let l ← l.dropCandidate
  let (text, c) ← blockScalar literal l.indent? l.cursor
  return ((l.moveTo c).emit (.scalar false text)).allow true

def quotedText (l : Lexer) (single : Bool) : Option Lexer := do
  let l ← l.saveCandidate
  let (text, c) ← quotedScalar single l.cursor
  return ((l.moveTo c).emit (.scalar false text)).allow false

def plainText (l : Lexer) : Option Lexer := do
  let l ← l.saveCandidate
  let least := match l.indent? with
    | some n => n + 1
    | none => 0
  let (text, broken, c) ← plainScalar l.inFlow least l.cursor
  return ((l.moveTo c).emit (.scalar true text)).allow broken

def startsPlain (l : Lexer) (d : Char) : Bool :=
  let c := l.cursor
  !(isSpace d || isBreak d || isFlowMark d || "-?:#&*!|>%@".toList.contains d ||
      d == '\x27' || d == '\x22' || d == '\x60') ||
    (d == '-' && !((c.peekAt 1).any isSpace)) ||
    (!l.inFlow && (d == '?' || d == ':') && !c.endsWordAt 1)

def token (l : Lexer) (d : Char) : Option Lexer :=
  let c := l.cursor
  if c.column == 0 && d == '%' then do
    let l ← (l.unroll none).dropCandidate
    (l.allow false).directive
  else if c.atDocumentMark then
    documentMark l (if d == '-' then .documentStart else .documentEnd)
  else if d == '[' then openFlow l .flowSequence
  else if d == '\x7b' then openFlow l .flowMapping
  else if d == ']' then closeFlow l .flowSequenceEnd
  else if d == '\x7d' then closeFlow l .flowMappingEnd
  else if d == ',' then flowEntry l
  else if d == '-' && c.endsWordAt 1 then blockEntry l
  else if d == '?' && (l.inFlow || c.endsWordAt 1) then keyMark l
  else if d == ':' && (l.inFlow || c.endsWordAt 1) then valueMark l
  else if d == '*' then anchor l .alias
  else if d == '&' then anchor l .anchor
  else if d == '!' then do
    let l ← l.saveCandidate
    (l.allow false).tag
  else if d == '|' && !l.inFlow then blockText l true
  else if d == '>' && !l.inFlow then blockText l false
  else if d == '\x27' then quotedText l true
  else if d == '\x22' then quotedText l false
  else if startsPlain l d then plainText l
  else none

/-- The tokens from here on; every token takes a character. -/
def run : Nat → Lexer → Option (Array Token)
  | 0, _ => none
  | steps + 1, l =>
      let l := toNextToken l.cursor.steps l
      match expire l.cursor l.candidates with
      | none => none
      | some candidates =>
          let l := { l with candidates := candidates }.unroll (some l.cursor.column)
          match l.cursor.peek with
          | none => (l.unroll none).dropCandidate.map fun l => (l.emit .streamEnd).tokens
          | some d => (token l d).bind (run steps)

end Lexer

/-- The tokens of a text, of which a byte order mark at the front is no part. -/
def Token.ofText? (text : String) : Option (Array Token) :=
  let s := match text.toList with
    | '\ufeff' :: r => r
    | r => r
  if s.all isAllowed then Lexer.run (s.length + 2) (Lexer.start s) else none

end RestGraph.Yaml
