import Constituency.Chart.Basic
import Constituency.Decimal

/-!
# Writing charts

A chart is listed cell by cell, from the shortest spans to the longest. Empty cells are left out.
-/

namespace Constituency.Chart

/-- An entry: its rule, its score, the midpoint, and what surrounds it if that is possible. -/
def entryLine (c : Chart Float32) (symbols : SymbolTable) (start stop : Nat)
    (e : Entry Float32) : String :=
  let children :=
    match e.backpointer with
    | .lexical word => symbols.word word
    | .unary child => symbols.name child
    | .binary left right _ => symbols.name left ++ " " ++ symbols.name right
  let outside := c.outside start stop e.nonterminal
  "  " ++ symbols.name e.nonterminal ++ " -> " ++ children ++ " (" ++ Decimal.ofScore e.inside ++
    ", " ++ toString (e.backpointer.midpoint stop) ++ ")" ++
    (if Score.impossible < outside then " outside=" ++ Decimal.ofScore outside else "")

/-- A cell: its span, the number of its entries, and a line for each of them. -/
def cellLines (c : Chart Float32) (symbols : SymbolTable) (span : Nat × Nat) : List String :=
  let (start, stop) := span
  match c.entries start stop with
  | [] => []
  | entries =>
    ("[" ++ toString start ++ "," ++ toString stop ++ "] " ++ toString entries.length ++
      " entries") :: entries.map (c.entryLine symbols start stop)

/-- The lines of a chart. -/
def lines (c : Chart Float32) (symbols : SymbolTable) : List String :=
  (spansUp c.size).flatMap (c.cellLines symbols)

/-- The text of a chart. -/
def text (c : Chart Float32) (symbols : SymbolTable) : String :=
  String.join ((c.lines symbols).map (· ++ "\n"))

end Constituency.Chart
