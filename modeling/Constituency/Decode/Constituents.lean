import Constituency.Chart.Derivation
import Constituency.Options

/-!
# Decoding by constituents

The tree with the most correct constituents in expectation. Each cell has a gain, the posterior
probability of its best label less a bias for longer spans, and the decoder chooses the bracketing
with the highest sum of gains. Labels are the non-terminals themselves, or the coarse categories,
whose posterior is the sum over their splits.
-/

namespace Constituency

/-- What a decoder by constituents works on: a chart with inside and outside scores. -/
structure ConstituentTask (α : Type) where
  grammar : Grammar α
  chart : PackedChart α
  words : List String
  /-- The bias against spans of more than one word. -/
  lambda : α
  /-- How the splits of a coarse category combine. -/
  sums : Accumulator α
  /-- Labels are coarse categories. -/
  coarse : Bool

/-- A label that a cell can have. -/
structure Candidate (α : Type) where
  label : NonTerminal
  gain : α
  /-- The label below it, if it is the parent of a unary rule. -/
  unaryChild : Option NonTerminal

/-- The choice for a cell. -/
structure ConstituentCell (α : Type) extends Candidate α where
  /-- The sum of the gains in the best bracketing of the span. -/
  score : α
  midpoint : Nat

namespace ConstituentTask

variable {α : Type} [Score α]

/-- The score of the whole sentence. -/
def sentenceScore (t : ConstituentTask α) : α :=
  t.chart.inside 0 t.chart.size t.grammar.start

/-- The label that the whole sentence must have. -/
def rootLabel (t : ConstituentTask α) : NonTerminal :=
  if t.coarse then t.grammar.symbols.baseStart else t.grammar.start

/-- The name of a label. -/
def name (t : ConstituentTask α) (label : NonTerminal) : String :=
  if t.coarse then t.grammar.symbols.baseName label else t.grammar.symbols.name label

/-- What a label costs over a span. -/
def penalty (t : ConstituentTask α) (start stop : Nat) : α :=
  if 1 < stop - start then t.lambda else 0

/-- The gain of a label over a span, from the score of all derivations of the sentence with it. The
artefacts of binarization gain nothing. -/
def gain (t : ConstituentTask α) (start stop : Nat) (factored : Bool) (score : α) : α :=
  if factored then 0 else Score.exp (score - t.sentenceScore) - t.penalty start stop

/-- The non-terminals of a cell as candidates. -/
def splitCandidates (t : ConstituentTask α) (start stop : Nat) : List (Candidate α) :=
  (t.chart.row start stop).map fun e =>
    { label := e.nonterminal
      gain := t.gain start stop (t.grammar.symbols.isFactored e.nonterminal)
        (e.inside + e.outside)
      unaryChild := e.backpointer.unaryChild? }

/-- The first of the entries with the highest score together with what surrounds it. -/
def mostProbable : List (PackedEntry α) → Option (PackedEntry α)
  | [] => none
  | first :: rest =>
    let (entry, _) := (first :: rest).foldl
      (fun (entry, best) e =>
        let score := e.inside + e.outside
        if best < score then (e, score) else (entry, best))
      (first, Score.impossible)
    some entry

/-- The coarse categories of a cell as candidates, in order. The most probable split of a category
decides whether it is the parent of a unary rule. -/
def baseCandidates (t : ConstituentTask α) (start stop : Nat) : List (Candidate α) :=
  let symbols := t.grammar.symbols
  let row := t.chart.row start stop
  (List.range symbols.numBases).filterMap fun base =>
    let splits := row.filter (symbols.base ·.nonterminal == base)
    (mostProbable splits).map fun best =>
      let scores := splits.map fun e => e.inside + e.outside
      { label := base
        gain := t.gain start stop (symbols.isBaseFactored base)
          (scores.foldl t.sums.combine Score.impossible)
        unaryChild := (best.backpointer.unaryChild?.map symbols.base).filter (· != base) }

/-- The candidates of a cell. The whole sentence can only have the root label. -/
def candidates (t : ConstituentTask α) (start stop : Nat) : List (Candidate α) :=
  let all := if t.coarse then t.baseCandidates start stop else t.splitCandidates start stop
  if stop - start == t.chart.size then all.filter (·.label == t.rootLabel) else all

/-- The better of two candidates. Of equal gains the parent of a unary rule is preferred, and then
the first. -/
def better (a b : Candidate α) : Candidate α :=
  let preferred := b.unaryChild.isSome && a.unaryChild.isNone
  if decide (a.gain < b.gain) || (b.gain == a.gain && preferred) then b else a

/-- The best candidate. -/
def bestCandidate? : List (Candidate α) → Option (Candidate α)
  | [] => none
  | first :: rest => some (rest.foldl better first)

/-- The choices made so far. -/
abbrev Choices (α : Type) := SpanTable (Option (ConstituentCell α))

/-- The best midpoint of a span, with the gains of its two halves, the first one of several. Both
halves must have a choice. -/
def bestSplit? (choices : Choices α) (start stop : Nat) : Option (α × Nat) :=
  let splits := (midpoints start stop).filterMap fun midpoint =>
    match choices.get start midpoint, choices.get midpoint stop with
    | some left, some right => some (left.score + right.score, midpoint)
    | _, _ => none
  splits.foldl
    (fun best split =>
      match best with
      | none => some split
      | some (score, midpoint) => if split.1 ≤ score then some (score, midpoint) else some split)
    none

/-- The choice for a cell, if it has candidates and its span can be split. -/
def choose (t : ConstituentTask α) (choices : Choices α) (start stop : Nat) :
    Option (ConstituentCell α) :=
  (bestCandidate? (t.candidates start stop)).bind fun best =>
    if stop == start + 1 then some { best with score := best.gain, midpoint := stop }
    else
      (bestSplit? choices start stop).map fun (halves, midpoint) =>
        { best with score := best.gain + halves, midpoint }

/-- The choices for all cells. -/
def choices (t : ConstituentTask α) : Choices α :=
  (spansUp t.chart.size).foldl
    (fun choices (start, stop) => choices.set start stop (t.choose choices start stop))
    (SpanTable.make t.chart.size none)

/-- The split of a coarse category with the highest rank over a span, the last one of several. -/
def topSplit? (t : ConstituentTask α) (start stop : Nat) (base : NonTerminal) :
    Option NonTerminal :=
  let splits := (t.chart.row start stop).filter
    (t.grammar.symbols.base ·.nonterminal == base)
  let scored := splits.map fun e => (e.nonterminal, e.inside + e.outside)
  let top := scored.foldl
    (fun top e =>
      match top with
      | none => some e
      | some best => if Score.outranks best.2 e.2 then some best else some e)
    none
  top.map (·.1)

/-- The tree over a word from the chain of unary rules that the chart has below a non-terminal. Only
a bounded number of them is followed. -/
def unaryChain (t : ConstituentTask α) (start : Nat) : Nat → NonTerminal → Option Tree
  | unaries, nt =>
    let label := t.name (if t.coarse then t.grammar.symbols.base nt else nt)
    match t.chart.get? start (start + 1) nt, unaries with
    | some ⟨_, _, .lexical _⟩, _ =>
      t.words[start]?.map fun word => .join label [.leaf word start]
    | some ⟨_, _, .unary child⟩, unaries + 1 =>
      (t.unaryChain start unaries child).map fun tree => .join label [tree]
    | _, _ => none

/-- The tree over a word whose cell has a label. -/
def wordTree (t : ConstituentTask α) (start : Nat) (label : NonTerminal) : Option Tree :=
  let nt? := if t.coarse then t.topSplit? start (start + 1) label else some label
  nt?.bind (t.unaryChain start (t.grammar.numNonterminals + 1))

/-- A constituent that is worth nothing loses its label, unless it is the whole sentence. -/
def labelOf (t : ConstituentTask α) (start stop : Nat) (cell : ConstituentCell α) : String :=
  let isRoot := start == 0 && stop == t.chart.size
  if decide (cell.score ≤ 0) && !isRoot then Tree.nullLabel else t.name cell.label

/-- The tree of a span by the choices made. -/
def treeOf (t : ConstituentTask α) (choices : Choices α) (start stop : Nat) : Option Tree :=
  match choices.get start stop with
  | none => none
  | some cell =>
    if stop - start == 1 then t.wordTree start cell.label
    else if _ : start < cell.midpoint ∧ cell.midpoint < stop then
      match t.treeOf choices start cell.midpoint, t.treeOf choices cell.midpoint stop with
      | some left, some right =>
        let label := t.labelOf start stop cell
        match cell.unaryChild with
        | some child => some (.join label [.join (t.name child) [left, right]])
        | none => some (.join label [left, right])
      | _, _ => none
    else none
termination_by stop - start

/-- The tree of the sentence, if it has a parse. -/
def tree? (t : ConstituentTask α) : Option Tree :=
  if t.chart.size == 0 || t.sentenceScore == Score.impossible then none
  else t.treeOf t.choices 0 t.chart.size

end ConstituentTask

/-- The task of decoding a chart by constituents. -/
def Options.constituentTask {α : Type} (o : Options α) (g : Grammar α) (chart : PackedChart α)
    (words : List String) (coarse : Bool) : ConstituentTask α where
  grammar := g
  chart
  words
  lambda := o.lambda
  sums := o.sums
  coarse

end Constituency
