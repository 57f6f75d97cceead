import Constituency.Chart.Derivation
import Constituency.Options
import Constituency.Sentence

/-!
# Decoding by rules

The tree with the highest product of rule posteriors. The posterior of a rule over coarse
categories, at a place in the sentence, is the sum over the splits of its symbols, divided by the
score of the whole sentence. Unlike a choice of constituents, this never uses a rule that the
grammar does not have.
-/

namespace Constituency

/-- What a decoder by rules works on: a chart with inside and outside scores. -/
structure RuleTask (α : Type) where
  grammar : Grammar α
  chart : PackedChart α
  sentence : Sentence
  /-- How the splits of a coarse rule combine. -/
  sums : Accumulator α
  /-- A rule is weighed without what its children weigh. -/
  localOnly : Bool

/-- The best derivation of a coarse category over a span. -/
structure RuleCell (α : Type) where
  score : α
  backpointer : Backpointer

/-- A coarse rule at a place in the sentence. -/
structure CoarseRule where
  parent : NonTerminal
  children : Children
deriving DecidableEq

/-- The best derivations found so far, for every span and coarse category. -/
abbrev RuleTable (α : Type) := StrideTable (RuleCell α)

namespace RuleTable

variable {α : Type} [Score α]

/-- The derivation kept of a category. -/
def find? (t : RuleTable α) (start stop : Nat) (base : NonTerminal) : Option (RuleCell α) :=
  StrideTable.find? t start stop base

/-- Offers a derivation of a category, which is kept unless the present one is at least as good. -/
def offer (t : RuleTable α) (start stop : Nat) (base : NonTerminal) (score : α)
    (backpointer : Backpointer) : RuleTable α :=
  let keep :=
    match RuleTable.find? t start stop base with
    | some present => decide (score ≤ present.score)
    | none => false
  if keep then t
  else t.set start stop base ⟨score, backpointer⟩

end RuleTable

namespace RuleTask

variable {α : Type} [Score α]

/-- The score of the whole sentence. -/
def sentenceScore (t : RuleTask α) : α :=
  t.chart.inside 0 t.chart.size t.grammar.start

/-- Adds a score to those of a coarse rule. -/
def addScore (t : RuleTask α) (rule : CoarseRule) (score : α) :
    List (CoarseRule × α) → List (CoarseRule × α)
  | [] => [(rule, t.sums.combine Score.impossible score)]
  | (other, sum) :: rest =>
    if other = rule then (other, t.sums.combine sum score) :: rest
    else (other, sum) :: t.addScore rule score rest

/-- The scores of coarse rules summed over their splits, in the order of their first instances. -/
def summed (t : RuleTask α) (instances : List (CoarseRule × α)) : List (CoarseRule × α) :=
  instances.foldl (fun sums (rule, score) => t.addScore rule score sums) []

/-- The rules for a word in the cell of that word, one instance for each part of speech. -/
def lexicalInstances (t : RuleTask α) (start : Nat) : List (CoarseRule × α) :=
  match t.sentence.terminal? start with
  | none => []
  | some word =>
    (t.chart.row start (start + 1)).filterMap fun e =>
      let score := e.outside + t.grammar.logProb e.nonterminal (.lexical word)
      if t.grammar.classes.isPos e.nonterminal && !(score == Score.impossible) then
        some (⟨t.grammar.symbols.base e.nonterminal, .lexical word⟩, score)
      else none

/-- The binary rules over a span that meet at a midpoint. -/
def binaryInstances (t : RuleTask α) (start stop midpoint : Nat) : List (CoarseRule × α) :=
  let base := t.grammar.symbols.base
  (t.chart.scored t.chart.classes.isLeft start midpoint).flatMap fun (left, leftInside) =>
    (t.grammar.byLeftChild left).filterMap fun p =>
      match p.children with
      | .binary _ right =>
        let parentOutside := t.chart.outside start stop p.parent
        let rightInside := t.chart.inside midpoint stop right
        if parentOutside == Score.impossible || rightInside == Score.impossible then none
        else
          some (⟨base p.parent, .binary (base left) (base right)⟩,
            parentOutside + p.logProb + leftInside + rightInside)
      | _ => none

/-- The unary rules over a span between different coarse categories. -/
def unaryInstances (t : RuleTask α) (start stop : Nat) : List (CoarseRule × α) :=
  let base := t.grammar.symbols.base
  (t.chart.row start stop).flatMap fun child =>
    (t.grammar.byUnaryChild child.nonterminal).filterMap fun p =>
      let parentOutside := t.chart.outside start stop p.parent
      if parentOutside == Score.impossible || base p.parent == base child.nonterminal then none
      else
        some (⟨base p.parent, .unary (base child.nonterminal)⟩,
          parentOutside + p.logProb + child.inside)

/-- What a child weighs in the score of its parent. -/
def weight (t : RuleTask α) (child : RuleCell α) : α :=
  if t.localOnly then 0 else child.score

/-- Offers the rules for the word at a position. -/
def offerLexical (t : RuleTask α) (start : Nat) (table : RuleTable α) : RuleTable α :=
  (t.summed (t.lexicalInstances start)).foldl
    (fun table (rule, score) =>
      match rule.children with
      | .lexical word =>
        RuleTable.offer table start (start + 1) rule.parent (score - t.sentenceScore) (.lexical word)
      | _ => table)
    table

/-- Offers the binary rules over a span that meet at a midpoint. Both children must have
derivations. -/
def offerBinary (t : RuleTask α) (start stop : Nat) (table : RuleTable α) (midpoint : Nat) :
    RuleTable α :=
  (t.summed (t.binaryInstances start stop midpoint)).foldl
    (fun table (rule, score) =>
      match rule.children with
      | .binary left right =>
        match RuleTable.find? table start midpoint left,
            RuleTable.find? table midpoint stop right with
        | some leftCell, some rightCell =>
          RuleTable.offer table start stop rule.parent
            (score - t.sentenceScore + t.weight leftCell + t.weight rightCell)
            (.binary left right midpoint)
        | _, _ => table
      | _ => table)
    table

/-- The child of a unary rule. -/
def unaryChild (rule : CoarseRule) : NonTerminal :=
  match rule.children with
  | .unary child => child
  | _ => 0

/-- The order in which unary rules are offered: by parent, and then by child. -/
def unaryBefore (a b : CoarseRule × α) : Bool :=
  decide (a.1.parent < b.1.parent) ||
    (a.1.parent == b.1.parent && decide (unaryChild a.1 ≤ unaryChild b.1))

/-- Offers the unary rules over a span, each of them once. The child must have a derivation that
does not begin with a unary rule itself. -/
def offerUnary (t : RuleTask α) (start stop : Nat) (table : RuleTable α) : RuleTable α :=
  ((t.summed (t.unaryInstances start stop)).mergeSort unaryBefore).foldl
    (fun table (rule, score) =>
      match rule.children with
      | .unary child =>
        match RuleTable.find? table start stop child with
        | none => table
        | some cell =>
          if cell.backpointer.isUnary then table
          else
            RuleTable.offer table start stop rule.parent
              (score - t.sentenceScore + t.weight cell) (.unary child)
      | _ => table)
    table

/-- Fills the cell of a span, whose halves are filled. -/
def fillCell (t : RuleTask α) (table : RuleTable α) (span : Nat × Nat) : RuleTable α :=
  let (start, stop) := span
  let derived :=
    if stop == start + 1 then t.offerLexical start table
    else (midpoints start stop).foldl (t.offerBinary start stop) table
  t.offerUnary start stop derived

/-- The best derivations of all coarse categories over all spans. -/
def table (t : RuleTask α) : RuleTable α :=
  (spansUp t.chart.size).foldl t.fillCell
    (StrideTable.make t.chart.size t.grammar.symbols.numBases)

/-- The table as backpointers. -/
def backpointers (t : RuleTask α) (table : RuleTable α) : Backpointers where
  find? start stop base := (RuleTable.find? table start stop base).map (·.backpointer)
  name := t.grammar.symbols.baseName
  words := t.sentence.words
  maxUnaries := t.grammar.symbols.numBases + 1

/-- The tree of the sentence, if it has a parse. -/
def tree? (t : RuleTask α) : Option Tree :=
  if t.chart.size == 0 || t.sentenceScore == Score.impossible then none
  else (t.backpointers t.table).tree? 0 t.chart.size t.grammar.symbols.baseStart

end RuleTask

/-- The task of decoding a chart by rules. -/
def Options.ruleTask {α : Type} (o : Options α) (g : Grammar α) (chart : PackedChart α)
    (sentence : Sentence) : RuleTask α where
  grammar := g
  chart
  sentence
  sums := o.sums
  localOnly := o.localMaxRule

end Constituency
