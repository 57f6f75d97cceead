import Constituency.Merit
import Constituency.Search.Exhaustive

/-!
# Agenda search

Edges of the whole sentence wait in one queue. An edge that is taken off it enters the chart if it
outranks what stands in its place, and then all edges are queued that build directly on it: unary
parents in its cell, and binary parents over it and a neighbour that is in the chart already. The
search ends when the queue is empty, or when it has taken a certain number of edges in view of how
many it took to find the first complete parse.
-/

namespace Constituency

namespace Agenda

variable {α : Type} [Score α]

/-- What stays the same during a search. -/
structure Task (α : Type) where
  grammar : Grammar α
  merit : SentenceMerit α
  /-- The number of words. -/
  size : Nat
  /-- The number of edges after which to end, in view of the number at the first complete parse. -/
  popLimit : Nat → Option Nat
  /-- The number of edges taken off the queue at a time. -/
  batch : Nat

/-- A search under way. -/
structure State (α : Type) where
  chart : SlotChart α
  queue : Queue α
  /-- The number of edges taken off the queue. -/
  pops : Nat
  /-- The number of edges put into the queue. -/
  pushes : Nat
  /-- The number of edges entered into the chart. -/
  added : Nat
  /-- The number of edges after which the search ends, once it is known. -/
  target : Option Nat
  done : Bool

/-- The edge to an entry, ranked by its merit. -/
def Task.edge (t : Task α) (start stop : Nat) (e : Entry α) : Edge α :=
  { e with start, stop, merit := t.merit.score start stop e.nonterminal e.inside }

/-- The unary parents of an entry. -/
def unaryParents (t : Task α) (start stop : Nat) (nt : NonTerminal) (inside : α) :
    List (Edge α) :=
  (t.grammar.byUnaryChild nt).map fun p =>
    t.edge start stop ⟨p.parent, p.logProb + inside, .unary nt⟩

/-- The binary parents of an entry and a neighbour on its right. -/
def parentsToRight (t : Task α) (chart : SlotChart α) (start stop : Nat) (nt : NonTerminal)
    (inside : α) : List (Edge α) :=
  (t.grammar.byLeftChild nt).flatMap fun p =>
    match p.children with
    | .binary _ right =>
      (List.range' (stop + 1) (t.size - stop)).filterMap fun rightStop =>
        let rightInside := chart.inside stop rightStop right
        if Score.impossible < rightInside then
          some (t.edge start rightStop
            ⟨p.parent, p.logProb + inside + rightInside, .binary nt right stop⟩)
        else none
    | _ => []

/-- The binary parents of an entry and a neighbour on its left. -/
def parentsToLeft (t : Task α) (chart : SlotChart α) (start stop : Nat) (nt : NonTerminal)
    (inside : α) : List (Edge α) :=
  (t.grammar.byRightChild nt).flatMap fun p =>
    match p.children with
    | .binary left _ =>
      (List.range start).filterMap fun leftStart =>
        let leftInside := chart.inside leftStart start left
        if Score.impossible < leftInside then
          some (t.edge leftStart stop
            ⟨p.parent, p.logProb + leftInside + inside, .binary left nt start⟩)
        else none
    | _ => []

/-- The edge has a higher score than what stands in its place. -/
def improves (chart : SlotChart α) (e : Edge α) : Bool :=
  chart.inside e.start e.stop e.nonterminal < e.inside

/-- The edges that build directly on an entry and improve the chart. -/
def frontier (t : Task α) (chart : SlotChart α) (start stop : Nat) (nt : NonTerminal)
    (inside : α) : List (Edge α) :=
  (unaryParents t start stop nt inside ++ parentsToRight t chart start stop nt inside ++
    parentsToLeft t chart start stop nt inside).filter (improves chart)

/-- Queues the edges that build directly on an entry. -/
def expand (t : Task α) (s : State α) (start stop : Nat) (nt : NonTerminal) (inside : α) :
    State α :=
  let edges := frontier t s.chart start stop nt inside
  { s with queue := s.queue.insertAll edges, pushes := s.pushes + edges.length }

/-- Counts an edge that has been taken off the queue. The last one that the search may take ends
it. -/
def countPop (s : State α) : State α :=
  let pops := s.pops + 1
  { s with pops, done := s.done || s.target.any (· ≤ pops) }

/-- Sets the number of edges to take at the first complete parse. -/
def noteParse (t : Task α) (s : State α) (e : Edge α) : State α :=
  if e.start == 0 && e.stop == t.size && e.nonterminal == t.grammar.start && s.target.isNone then
    let target := t.popLimit s.pops
    { s with target, done := s.done || target.any (· ≤ s.pops) }
  else s

/-- Takes one edge: it is entered into the chart and expanded, unless its place is taken. -/
def process (t : Task α) (s : State α) (e : Edge α) : State α :=
  let s := countPop s
  match s.chart.install e.start e.stop e.toEntry with
  | (false, chart) => { s with chart }
  | (true, chart) =>
    let s := noteParse t { s with chart, added := s.added + 1 } e
    expand t s e.start e.stop e.nonterminal e.inside

/-- Takes the edges of a batch as long as the search is not done. -/
def processBatch (t : Task α) (s : State α) (batch : List (Edge α)) : State α :=
  batch.foldl (fun s e => if s.done then s else process t s e) s

/-- Takes batches until the search is done or the queue is empty, and at most `rounds` of them. -/
def run (t : Task α) : Nat → State α → State α
  | 0, s => s
  | rounds + 1, s =>
    if s.done || s.queue.edges.isEmpty then s
    else
      let (batch, queue) := s.queue.take t.batch
      run t rounds (processBatch t { s with queue } batch)

/-- A number of rounds that no search exceeds. Each round takes an edge, and edges are queued by
entries: every slot takes at most one entry for each of the `2 ^ 32` ranks of a score, and an entry
has at most so many parents as there are productions and ends of neighbours. -/
def maxRounds (t : Task α) : Nat :=
  let entries := numCells t.size * t.grammar.numNonterminals * UInt32.size
  2 * entries * (t.grammar.productions.length * (t.size + 1)) + 1

/-- The entries for the words of a sentence, with their positions. -/
def lexicalEntries (g : Grammar α) (s : Sentence) : List (Nat × Entry α) :=
  s.terminals.zipIdx.flatMap fun (terminal, start) =>
    (Exhaustive.lexicalEntries g terminal).map (start, ·)

/-- Installs the entry of a word and notes its place, once more for each installation. -/
def seedStep (state : SlotChart α × List (Nat × NonTerminal)) (x : Nat × Entry α) :
    SlotChart α × List (Nat × NonTerminal) :=
  match state.1.install x.1 (x.1 + 1) x.2 with
  | (true, chart) => (chart, state.2 ++ [(x.1, x.2.nonterminal)])
  | (false, chart) => (chart, state.2)

/-- A chart with the words of a sentence, and the places of the entries installed, one for each
installation. -/
def seed (g : Grammar α) (s : Sentence) : SlotChart α × List (Nat × NonTerminal) :=
  (lexicalEntries g s).foldl seedStep (SlotChart.empty s.size g, [])

/-- A search whose chart holds the words and whose queue holds what builds on them. -/
def initial (t : Task α) (chart : SlotChart α) (seeds : List (Nat × NonTerminal)) : State α :=
  seeds.foldl
    (fun s (start, nt) =>
      expand t s start (start + 1) nt (s.chart.inside start (start + 1) nt))
    { chart, queue := Queue.empty, pops := 0, pushes := 0, added := 0, target := none,
      done := false }

/-- Searches for the parses of a sentence. -/
def search (g : Grammar α) (merit : Merit α) (popLimit : Nat → Option Nat) (batch : Nat)
    (s : Sentence) : SlotChart α × Stats :=
  let (chart, seeds) := seed g s
  let task : Task α :=
    { grammar := g, merit := merit.forSentence (.slots chart), size := s.size, popLimit,
      batch := max batch 1 }
  let final := run task (maxRounds task) (initial task chart seeds)
  (final.chart,
    { considered := (lexicalEntries g s).length + final.pushes
      added := chart.numEntries + final.added
      pushes := final.pushes
      pops := final.pops })

end Agenda

end Constituency
