import Constituency.Merit
import Constituency.Search.Exhaustive
import Constituency.Search.MeritTable

/-!
# Beam search

The cells are filled bottom-up as in the exhaustive search, but only the most promising entries of
each are kept: the candidates of a cell wait in a queue, at most a certain number of them are
committed, and none that falls too far below the best. A committed entry queues its unary parents,
so that unary and binary derivations compete with each other. Words are committed before all else,
for the figure of merit to look at.
-/

namespace Constituency

namespace Beam

variable {α : Type} [Score α]

/-- What stays the same during a search. -/
structure Task (α : Type) where
  grammar : Grammar α
  merit : SentenceMerit α
  /-- The number of entries that may be committed in a cell. -/
  width : Nat
  /-- How far the merit of an edge may fall below the best of its cell. -/
  delta : α

/-- A cell under way. -/
structure CellState (α : Type) where
  queue : List (Edge α)
  cell : Scratch α
  table : MeritTable α
  /-- The best merit taken so far. -/
  bestMerit : α
  stats : Stats

/-- The edge to an entry, ranked by its merit. -/
def Task.edge (t : Task α) (start stop : Nat) (e : Entry α) : Edge α :=
  { e with start, stop, merit := t.merit.score start stop e.nonterminal e.inside }

/-- The unary parents of an entry. -/
def unaryEdges (t : Task α) (start stop : Nat) (child : NonTerminal) (inside : α) :
    List (Edge α) :=
  (t.grammar.byUnaryChild child).map fun p =>
    t.edge start stop ⟨p.parent, p.logProb + inside, .unary child⟩

/-- Drops the edges at the head of a queue that do not improve upon a cell and its chart. Answers
the first one that does, the queue behind it, and the best merit taken. There is none if the queue
ends or if the merits fall too far below the best. -/
def nextImprovement (t : Task α) (chart : Chart α) (cell : Scratch α) (bestMerit : α) :
    List (Edge α) → Option (Edge α × List (Edge α) × α)
  | [] => none
  | e :: rest =>
    if e.merit < bestMerit - t.delta then none
    else
      let bestMerit := Score.best bestMerit e.merit
      let present := Score.best (cell.inside e.nonterminal)
        (chart.inside e.start e.stop e.nonterminal)
      if e.inside ≤ present then nextImprovement t chart cell bestMerit rest
      else some (e, rest, bestMerit)

/-- Commits an edge and queues its unary parents. -/
def commitEdge (t : Task α) (s : CellState α) (e : Edge α) (rest : List (Edge α))
    (bestMerit : α) : CellState α :=
  let unaries := unaryEdges t e.start e.stop e.nonterminal e.inside
  { queue := ((Queue.mk rest).insertAll unaries).edges
    cell := s.cell.add .best e.toEntry
    table := (s.table.update e.start e.stop e.nonterminal e.merit e.backpointer).2
    bestMerit
    stats := { s.stats with
      considered := s.stats.considered + unaries.length
      added := s.stats.added + 1 } }

/-- Commits at most `width` edges, from the best one down. -/
def commitBest (t : Task α) (chart : Chart α) : Nat → CellState α → CellState α
  | 0, s => s
  | width + 1, s =>
    match nextImprovement t chart s.cell s.bestMerit s.queue with
    | none => s
    | some (e, rest, bestMerit) => commitBest t chart width (commitEdge t s e rest bestMerit)

/-- A search under way. -/
structure State (α : Type) where
  chart : Chart α
  table : MeritTable α
  stats : Stats

/-- Fills a cell from its candidates. -/
def runCell (t : Task α) (s : State α) (start stop : Nat) (candidates : List (Edge α)) :
    State α :=
  let filled := commitBest t s.chart t.width
    { queue := (Queue.ofList candidates).edges
      cell := Scratch.empty start stop t.grammar.numNonterminals
      table := s.table
      bestMerit := Score.impossible
      stats := s.stats }
  { chart := s.chart.commit filled.cell, table := filled.table, stats := filled.stats }

/-- The candidates of a cell, and the number of derivations scored for them: the unary parents of a
word's entries, or the best binary derivation of each non-terminal. -/
def candidates (t : Task α) (segments : Nat) (chart : Chart α) (start stop : Nat) :
    List (Edge α) × Nat :=
  if stop == start + 1 then
    ((chart.entries start stop).flatMap fun e => unaryEdges t start stop e.nonterminal e.inside, 0)
  else
    let (cell, considered) := Exhaustive.crossCell t.grammar .best segments chart start stop
    (cell.entries.map (t.edge start stop), considered)

/-- Fills the cell of a span. -/
def fillCell (t : Task α) (segments : Nat) (s : State α) (span : Nat × Nat) : State α :=
  let (start, stop) := span
  let (edges, considered) := candidates t segments s.chart start stop
  let stats := { s.stats with considered := s.stats.considered + considered }
  runCell t { s with stats } start stop edges

/-- Enters the words of a sentence into a chart. -/
def commitWords (g : Grammar α) (s : Sentence) (chart : Chart α) : Chart α × Stats :=
  (List.range s.size).foldl
    (fun (chart, stats) start =>
      let (cell, considered) := Exhaustive.lexicalCell g .best s start
      (chart.commit cell,
        { stats with
          considered := stats.considered + considered
          added := stats.added + cell.size }))
    (chart, Stats.zero)

/-- A merit table with the words of a chart. -/
def wordTable (g : Grammar α) (merit : SentenceMerit α) (summing : Bool) (chart : Chart α) :
    MeritTable α :=
  let words := (List.range chart.size).flatMap fun start =>
    (chart.entries start (start + 1)).map (start, ·)
  words.foldl
    (fun table (start, e) =>
      let score := merit.scoreLexical start (start + 1) e.nonterminal e.inside
      (table.update start (start + 1) e.nonterminal score e.backpointer).2)
    (MeritTable.empty chart.size g.numNonterminals summing)

/-- Searches for the parses of a sentence in an empty chart. -/
def search (g : Grammar α) (merit : Merit α) (width : Nat) (delta : α) (segments : Nat)
    (summing : Bool) (s : Sentence) (chart : Chart α) : State α :=
  let (chart, stats) := commitWords g s chart
  let merit := merit.forSentence chart
  let task : Task α := { grammar := g, merit, width, delta }
  (spansUp s.size).foldl (fillCell task segments)
    { chart, table := wordTable g merit summing chart, stats }

end Beam

end Constituency
