namespace RestGraph.Similarity

/-!
# Similar words

Two words are as similar as the share of their characters that lie in matching
blocks. The first block is the longest common run, the earliest among equals; the
rest are found in the same way to its left and to its right. In a word of two
hundred characters or more a character that makes up over a hundredth of it starts
no block, but a block is extended over it.
-/

/-- A common run: where it starts in both words, and its length. -/
structure Block where
  first : Nat
  second : Nat
  size : Nat

/-- The lengths of the common runs that end at a character `c` of the first word and at each
character of the second; `diagonal` is the length before the first of these. -/
def nextRow (starts : Char → Bool) (c : Char) : Nat → List Char → List Nat → List Nat
  | _, [], _ => []
  | diagonal, d :: ds, row =>
      (if d == c && starts c then diagonal + 1 else 0) ::
        nextRow starts c (row.headD 0) ds row.tail

/-- The better of a block and those that end in a row; an equal one does not replace it. -/
def improve (i : Nat) : Nat → List Nat → Block → Block
  | _, [], best => best
  | j, k :: ks, best =>
      improve i (j + 1) ks (if best.size < k then ⟨i + 1 - k, j + 1 - k, k⟩ else best)

def scanRows (starts : Char → Bool) (bs : List Char) : Nat → List Char → List Nat → Block → Block
  | _, [], _, best => best
  | i, c :: cs, row, best =>
      let row := nextRow starts c 0 bs row
      scanRows starts bs (i + 1) cs row (improve i 0 row best)

def commonPrefix : List Char → List Char → Nat
  | a :: as, b :: bs => if a == b then commonPrefix as bs + 1 else 0
  | _, _ => 0

def extend (as bs : List Char) (b : Block) : Block :=
  let before := commonPrefix (as.take b.first).reverse (bs.take b.second).reverse
  let after := commonPrefix (as.drop (b.first + b.size)) (bs.drop (b.second + b.size))
  ⟨b.first - before, b.second - before, before + b.size + after⟩

def longest (starts : Char → Bool) (as bs : List Char) : Block :=
  extend as bs (scanRows starts bs 0 as [] ⟨0, 0, 0⟩)

/-- The characters in matching blocks; each step splits off at least one of `as`. -/
def matched (starts : Char → Bool) : Nat → List Char → List Char → Nat
  | 0, _, _ => 0
  | steps + 1, as, bs =>
      let b := longest starts as bs
      if b.size == 0 then 0
      else b.size + matched starts steps (as.take b.first) (bs.take b.second) +
        matched starts steps (as.drop (b.first + b.size)) (bs.drop (b.second + b.size))

def startsBlock (word : List Char) (c : Char) : Bool :=
  word.length < 200 || word.count c ≤ word.length / 100 + 1

structure Score where
  share : Nat
  whole : Nat

def score (candidate word : String) : Score :=
  let as := candidate.toList
  let bs := word.toList
  let whole := as.length + bs.length
  if whole == 0 then ⟨1, 1⟩
  else ⟨2 * matched (startsBlock bs) (as.length + 1) as bs, whole⟩

/-- Words are close from a similarity of three fifths on. -/
def Score.close (s : Score) : Bool := 3 * s.whole ≤ 5 * s.share

def Score.less (s t : Score) : Bool := s.share * t.whole < t.share * s.whole

/-- Whether the first candidate is worse: less similar, or equally similar and smaller. -/
def worse (s t : Score × String) : Bool :=
  s.1.less t.1 || (!t.1.less s.1 && s.2 < t.2)

def closest? (word : String) (candidates : List String) : Option String :=
  let scored := candidates.map fun c => (score c word, c)
  let best := (scored.filter fun s => s.1.close).foldl
    (fun best s => match best with
      | none => some s
      | some b => if worse b s then some s else some b) none
  best.map Prod.snd

end RestGraph.Similarity
