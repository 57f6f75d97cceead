import Constituency.Chart.Basic
import Constituency.Search.Edge
import Constituency.Sentence

/-!
# Exhaustive search

The cells are filled from the shortest spans to the longest, so that both halves of a span are
complete before the span itself. A cell of one word takes the rules for that word, and a longer one
crosses the left children of one half with the right children of the other. Unary rules are then
applied once to what the cell holds; what they add is not carried further.
-/

namespace Constituency

namespace Exhaustive

variable {α : Type} [Score α]

/-- The entries that the rules for a word give. -/
def lexicalEntries (g : Grammar α) (terminal : Option Terminal) : List (Entry α) :=
  match terminal with
  | none => []
  | some word => (g.byWord word).map fun p => ⟨p.parent, p.logProb, .lexical word⟩

/-- The entries that unary rules give over a list of entries. -/
def unaryEntries (g : Grammar α) (children : List (Entry α)) : List (Entry α) :=
  children.flatMap fun child =>
    (g.byUnaryChild child.nonterminal).map fun p =>
      ⟨p.parent, p.logProb + child.inside, .unary child.nonterminal⟩

/-- The entries that binary rules give over a span, from the left children in a segment. -/
def binaryEntries (g : Grammar α) (chart : Chart α) (start stop : Nat)
    (inSegment : NonTerminal → Bool) : List (Entry α) :=
  (midpoints start stop).flatMap fun midpoint =>
    let lefts := (chart.leftChildren start midpoint).filter (inSegment ·.1)
    let rights := chart.rightChildren midpoint stop
    lefts.flatMap fun (left, leftInside) =>
      rights.flatMap fun (right, rightInside) =>
        (g.byChildPair left right).map fun p =>
          ⟨p.parent, p.logProb + leftInside + rightInside, .binary left right midpoint⟩

/-- A scratch cell with some entries added in turn. -/
def filled (g : Grammar α) (acc : Accumulator α) (start stop : Nat) (entries : List (Entry α)) :
    Scratch α :=
  entries.foldl (Scratch.add acc) (Scratch.empty start stop g.numNonterminals)

/-- The cell of one word before unary rules, and the number of derivations scored for it. -/
def lexicalCell (g : Grammar α) (acc : Accumulator α) (s : Sentence) (start : Nat) :
    Scratch α × Nat :=
  let entries := lexicalEntries g (s.terminal? start)
  (filled g acc start (start + 1) entries, entries.length)

/-- The left children in each of a number of equal segments. Segments behind the last non-terminal
have none and are left out. -/
def segments (g : Grammar α) (count : Nat) : List (NonTerminal → Bool) :=
  let length := (g.numNonterminals + count - 1) / count
  (List.range (min count g.numNonterminals)).map fun i nt =>
    decide (i * length ≤ nt) && decide (nt < (i + 1) * length)

/-- The cell of several words before unary rules, and the number of derivations scored for it.
Each segment of left children fills a cell of its own, and these are then merged in order. -/
def crossCell (g : Grammar α) (acc : Accumulator α) (segmentCount : Nat) (chart : Chart α)
    (start stop : Nat) : Scratch α × Nat :=
  if segmentCount ≤ 1 then
    let entries := binaryEntries g chart start stop fun _ => true
    (filled g acc start stop entries, entries.length)
  else
    let parts := (segments g segmentCount).map (binaryEntries g chart start stop)
    ((parts.map (filled g acc start stop)).foldl (Scratch.merge acc)
      (Scratch.empty start stop g.numNonterminals), parts.flatten.length)

/-- The cell after one round of unary rules, and the number of derivations scored in it. -/
def unaryPass (g : Grammar α) (acc : Accumulator α) (cell : Scratch α) : Scratch α × Nat :=
  let entries := unaryEntries g cell.entries
  (entries.foldl (Scratch.add acc) cell, entries.length)

/-- Fills one cell of a chart whose shorter spans are filled. -/
def fillCell (g : Grammar α) (acc : Accumulator α) (segmentCount : Nat) (s : Sentence)
    (state : Chart α × Stats) (span : Nat × Nat) : Chart α × Stats :=
  let (chart, stats) := state
  let (start, stop) := span
  let (cell, crossed) :=
    if stop == start + 1 then lexicalCell g acc s start
    else crossCell g acc segmentCount chart start stop
  let (cell, derived) := unaryPass g acc cell
  (chart.commit cell,
    { stats with
      considered := stats.considered + crossed + derived
      added := stats.added + cell.size })

/-- Fills an empty chart for a sentence. -/
def fill (g : Grammar α) (acc : Accumulator α) (segmentCount : Nat) (s : Sentence)
    (chart : Chart α) : Chart α × Stats :=
  (spansUp s.size).foldl (fillCell g acc segmentCount s) (chart, Stats.zero)

end Exhaustive

end Constituency
