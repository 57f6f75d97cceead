import Constituency.Chart.Posterior
import Constituency.Decode.Constituents
import Constituency.Decode.Rules
import Constituency.Search.Agenda
import Constituency.Search.Beam

/-!
# Parsers

A parser fills a chart for a sentence by one of the searches and reads a tree off it by one of the
decoders. There is no tree unless the start symbol derives the whole sentence.
-/

namespace Constituency

/-- A grammar with the options of a parser and a figure of merit. -/
structure Parser (α : Type) where
  grammar : Grammar α
  options : Options α
  merit : Merit α

/-- A filled chart. A beam search also leaves a merit table. -/
structure Searched (α : Type) where
  chart : Chart α
  meritTable : Option (MeritTable α)
  stats : Stats

/-- The parse of a sentence. -/
structure Parse (α : Type) where
  /-- The tree, without hidden constituents. -/
  tree : Option Tree
  /-- The score of the start symbol over the whole sentence. -/
  inside : α
  stats : Stats
  /-- The chart that the tree was read off. -/
  chart : Chart α

namespace Parser

variable {α : Type} [Score α]

/-- An empty chart in a storage. -/
def emptyChart (g : Grammar α) (storage : Storage) (size : Nat) : Chart α :=
  match storage with
  | .slots => .slots (SlotChart.empty size g)
  | .packed => .packed (PackedChart.empty size g)

/-- Fills a chart for a sentence. -/
def search (p : Parser α) (s : Sentence) : Searched α :=
  let g := p.grammar
  let o := p.options
  let chart := emptyChart g o.storage s.size
  match o.strategy with
  | .exhaustive =>
    let (chart, stats) := Exhaustive.fill g o.accumulator o.segments s chart
    { chart, meritTable := none, stats }
  | .agenda =>
    let (chart, stats) := Agenda.search g p.merit o.popLimit o.agendaBatch s
    { chart := .slots chart, meritTable := none, stats }
  | .beam =>
    let final := Beam.search g p.merit o.beamWidth o.beamDelta o.segments
      (o.decoder == .meritSum) s chart
    { chart := final.chart, meritTable := some final.table, stats := final.stats }

/-- A chart in rows, with inside and outside scores summed over all derivations it holds. -/
def weighed (acc : Accumulator α) (g : Grammar α) (s : Sentence) (chart : PackedChart α) :
    PackedChart α :=
  (chart.resum acc g s.terminals).surround acc g

/-- The tree that a decoder by posteriors reads off a weighed chart. -/
def posteriorTree? (p : Parser α) (s : Sentence) (chart : PackedChart α) (decoder : Decoder) :
    Option Tree :=
  match decoder with
  | .goodman => (p.options.constituentTask p.grammar chart s.words false).tree?
  | .splitSum => (p.options.constituentTask p.grammar chart s.words true).tree?
  | _ => (p.options.ruleTask p.grammar chart s).tree?

/-- The tree of the best derivation by figures of merit, or else by score. -/
def meritTree? (p : Parser α) (s : Sentence) (found : Searched α) : Option Tree :=
  let byScore := found.chart.viterbiTree? p.grammar.symbols s.words p.grammar.start
  match found.meritTable with
  | none => byScore
  | some table => (table.tree? p.grammar.symbols s.words p.grammar.start).or byScore

/-- The tree and the chart it was read off. -/
def decode (p : Parser α) (s : Sentence) (found : Searched α) : Option Tree × Chart α :=
  let g := p.grammar
  let o := p.options
  if o.decoder.needsOutside then
    let packed := found.chart.toPacked g
    if (Chart.packed packed).hasParse g.start then
      let chart := weighed o.sums g s packed
      ((p.posteriorTree? s chart o.decoder).map Tree.unfactor, .packed chart)
    else (none, .packed packed)
  else
    let tree :=
      if o.decoder.needsMerits then p.meritTree? s found
      else found.chart.viterbiTree? g.symbols s.words g.start
    (tree.map Tree.unfactor, found.chart)

/-- Parses the words of a sentence. -/
def parse (p : Parser α) (words : List String) : Parse α :=
  let s := Sentence.ofWords p.grammar words
  let found := p.search s
  let (tree, chart) := p.decode s found
  { tree
    inside := if 0 < s.size then chart.inside 0 s.size p.grammar.start else Score.impossible
    stats := found.stats
    chart }

end Parser

/-- The tree of a sentence by the standard options. -/
def Grammar.parse (g : Grammar Float32) (words : List String) : Option Tree :=
  (Parser.parse ⟨g, Options.standard, .inside⟩ words).tree

end Constituency
