import Constituency.Decimal
import Constituency.Grammar.Basic

/-!
# Writing grammars

A grammar is written as a heading of comments, which lists its symbols, and its rules in order, each
with its log probability.
-/

namespace Constituency

/-- A rule with its log probability. -/
def Production.text (symbols : SymbolTable) (p : Production Float32) : String :=
  let children :=
    match p.children with
    | .binary left right => symbols.name left ++ " " ++ symbols.name right
    | .unary child => symbols.name child
    | .lexical word => symbols.word word
  symbols.name p.parent ++ " -> " ++ children ++ " [log=" ++ Decimal.ofScore p.logProb ++ "]"

/-- The heading: the non-terminals, the start symbol and the number of words. -/
def SymbolTable.heading (t : SymbolTable) : List String :=
  ["//** nonterminals:" ++ String.join (t.nonterminals.toList.map (" " ++ ·)),
   "//** start: " ++ t.name t.start,
   "//** words: " ++ toString t.lexicon.size]

/-- The lines of a grammar. -/
def Grammar.lines (g : Grammar Float32) : List String :=
  g.symbols.heading ++ g.productions.map (·.text g.symbols)

/-- The text of a grammar. -/
def Grammar.text (g : Grammar Float32) : String :=
  String.join (g.lines.map (· ++ "\n"))

end Constituency
