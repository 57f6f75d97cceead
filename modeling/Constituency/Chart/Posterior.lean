import Constituency.Chart.Packed

/-!
# Posterior passes

Two passes over a packed chart weigh its entries. The first recomputes the inside score of every
entry from the entries below it, bottom-up; the second computes the outside score of every entry,
the weight of all that surrounds it, top-down. Neither changes which entries there are or how they
were first derived.
-/

namespace Constituency

namespace PackedChart

variable {α : Type} [Score α]

/-- The scores of alternatives together. -/
def total (acc : Accumulator α) (scores : List α) : α :=
  scores.foldl acc.combine Score.impossible

/-! ## Unary chains

A level holds a score for each entry of a row. One step along the unary rules leads from a level to
the next, and the levels together make up the chains of all lengths. A chain that visits no entry
twice takes at most as many steps as the row has entries. -/

/-- The entries of a row with the scores of a level. -/
def leveled (symbols : List NonTerminal) (level : List α) : List (NonTerminal × α) :=
  symbols.zip level

/-- The level reached upwards: each entry collects from its unary children. -/
def levelUp (acc : Accumulator α) (g : Grammar α) (symbols : List NonTerminal)
    (level : List α) : List α :=
  symbols.map fun parent =>
    total acc <| (leveled symbols level).flatMap fun (child, score) =>
      if score == Score.impossible then []
      else ((g.byUnaryChild child).filter (·.parent == parent)).map (·.logProb + score)

/-- The level reached downwards: each entry collects from its unary parents. -/
def levelDown (acc : Accumulator α) (g : Grammar α) (symbols : List NonTerminal)
    (level : List α) : List α :=
  symbols.map fun child =>
    total acc <| (g.byUnaryChild child).filterMap fun p =>
      match (leveled symbols level).lookup p.parent with
      | none => none
      | some score => if Score.impossible < score then some (score + p.logProb) else none

/-- Adds up the levels from the next one on, as long as something is reached. -/
def addLevels (acc : Accumulator α) (next : List α → List α) :
    Nat → List α → List α → List α
  | 0, _, sums => sums
  | steps + 1, level, sums =>
    let reached := next level
    if reached.all (· == Score.impossible) then sums
    else addLevels acc next steps reached (sums.zipWith acc.combine reached)

/-! ## Inside -/

/-- The scores of the binary derivations of a parent over a span. -/
def binaryInside (c : PackedChart α) (g : Grammar α) (start stop : Nat) (parent : NonTerminal) :
    List α :=
  (midpoints start stop).flatMap fun midpoint =>
    (c.scored c.classes.isLeft start midpoint).flatMap fun (left, leftInside) =>
      (g.byLeftChild left).filterMap fun p =>
        match p.children with
        | .binary _ right =>
          let rightInside := c.inside midpoint stop right
          if p.parent == parent && decide (Score.impossible < rightInside) then
            some (p.logProb + leftInside + rightInside)
          else none
        | _ => none

/-- The scores of the entries of a cell without unary rules. -/
def baseInside (acc : Accumulator α) (c : PackedChart α) (g : Grammar α)
    (terminals : List (Option Terminal)) (start stop : Nat) (symbols : List NonTerminal) :
    List α :=
  if stop == start + 1 then
    match terminals[start]?.join with
    | some word => symbols.map fun nt => g.logProb nt (.lexical word)
    | none => symbols.map fun _ => Score.impossible
  else symbols.map fun parent => total acc (c.binaryInside g start stop parent)

/-- Recomputes the inside scores of a cell. -/
def resumCell (acc : Accumulator α) (g : Grammar α) (terminals : List (Option Terminal))
    (c : PackedChart α) (span : Nat × Nat) : PackedChart α :=
  let (start, stop) := span
  let row := c.row start stop
  let symbols := row.map (·.nonterminal)
  let base := baseInside acc c g terminals start stop symbols
  let sums := addLevels acc (levelUp acc g symbols) symbols.length base base
  { c with rows := c.rows.copyInside start stop sums }

/-- Recomputes all inside scores from the words and the entries of the chart. -/
def resum (acc : Accumulator α) (g : Grammar α) (terminals : List (Option Terminal))
    (c : PackedChart α) : PackedChart α :=
  (spansUp c.size).foldl (resumCell acc g terminals) c

/-! ## Outside -/

/-- What a binary derivation contributes to the outside score of a child. -/
structure Contribution (α : Type) where
  start : Nat
  stop : Nat
  nonterminal : NonTerminal
  score : α

/-- The contributions of all binary derivations of a span to the entries below it. -/
def binaryOutside (c : PackedChart α) (g : Grammar α) (start stop : Nat) :
    List (Contribution α) :=
  (midpoints start stop).flatMap fun midpoint =>
    (c.scored c.classes.isLeft start midpoint).flatMap fun (left, leftInside) =>
      (g.byLeftChild left).flatMap fun p =>
        match p.children with
        | .binary _ right =>
          let parentOutside := c.outside start stop p.parent
          let rightInside := c.inside midpoint stop right
          if parentOutside == Score.impossible || rightInside == Score.impossible then []
          else
            let context := parentOutside + p.logProb
            [⟨start, midpoint, left, context + rightInside⟩,
             ⟨midpoint, stop, right, context + leftInside⟩]
        | _ => []

/-- Adds a contribution to the outside score of its entry. -/
def contribute (acc : Accumulator α) (c : PackedChart α) (x : Contribution α) : PackedChart α :=
  if x.score == Score.impossible then c
  else
    { c with
      rows := c.rows.adjustOutside x.start x.stop x.nonterminal (acc.combine · x.score) }

/-- The outside scores of a row, extended along its unary chains. -/
def unaryOutside (acc : Accumulator α) (g : Grammar α) (row : List (PackedEntry α)) : List α :=
  let symbols := row.map (·.nonterminal)
  let base := row.map (·.outside)
  addLevels acc (levelDown acc g symbols) symbols.length base base

/-- Completes the outside scores of a cell and passes them on to the entries below. -/
def passDown (acc : Accumulator α) (g : Grammar α) (c : PackedChart α) (span : Nat × Nat) :
    PackedChart α :=
  let (start, stop) := span
  let sums := unaryOutside acc g (c.row start stop)
  let c := { c with rows := c.rows.copyOutside start stop sums }
  (c.binaryOutside g start stop).foldl (contribute acc) c

/-- The chart before the outside pass: nothing surrounds anything but the start symbol over the
whole sentence. -/
def unsurrounded (g : Grammar α) (c : PackedChart α) : PackedChart α :=
  { c with
    rows := c.rows.clearOutside.adjustOutside 0 c.size g.start fun _ => 0
    hasOutside := true }

/-- Computes all outside scores from the inside scores. -/
def surround (acc : Accumulator α) (g : Grammar α) (c : PackedChart α) : PackedChart α :=
  (spansDown c.size).foldl (passDown acc g) (c.unsurrounded g)

end PackedChart

end Constituency
