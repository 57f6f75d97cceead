import Constituency.Chart.Basic
import Constituency.Tree

/-!
# Trees from backpointers

A table of backpointers describes a derivation of each entry. To follow it never runs forever: a
binary backpointer leads to shorter spans, and only a bounded number of unary ones is followed in
a row.
-/

namespace Constituency

/-- A table of backpointers and what is needed to turn it into a tree. -/
structure Backpointers where
  /-- The backpointer of a symbol over a span. -/
  find? : Nat → Nat → NonTerminal → Option Backpointer
  /-- The label of a symbol. -/
  name : NonTerminal → String
  words : List String
  /-- The number of unary backpointers that are followed in a row. -/
  maxUnaries : Nat

namespace Backpointers

/-- The tree below a symbol over a span, with a number of unary backpointers left to follow. There
is none if a backpointer or a word is missing. -/
def follow (b : Backpointers) (start stop : Nat) (nt : NonTerminal) (unaries : Nat) :
    Option Tree :=
  match b.find? start stop nt with
  | none => none
  | some (.lexical _) =>
    b.words[start]?.map fun word => .join (b.name nt) [.leaf word start]
  | some (.unary child) =>
    match unaries with
    | 0 => none
    | unaries + 1 => (b.follow start stop child unaries).map fun tree => .join (b.name nt) [tree]
  | some (.binary left right midpoint) =>
    if _ : start < midpoint ∧ midpoint < stop then
      match b.follow start midpoint left b.maxUnaries,
          b.follow midpoint stop right b.maxUnaries with
      | some leftTree, some rightTree => some (.join (b.name nt) [leftTree, rightTree])
      | _, _ => none
    else none
termination_by (stop - start, unaries)

/-- The tree of a symbol over a span. -/
def tree? (b : Backpointers) (start stop : Nat) (nt : NonTerminal) : Option Tree :=
  b.follow start stop nt b.maxUnaries

end Backpointers

namespace Chart

variable {α : Type} [Score α]

/-- The backpointers of a chart. A chain of unaries without repetition is shorter than the number
of non-terminals, so that the bound only cuts off cycles. -/
def backpointers (c : Chart α) (symbols : SymbolTable) (words : List String) : Backpointers where
  find? start stop nt := (c.get? start stop nt).map (·.backpointer)
  name := symbols.name
  words
  maxUnaries := c.numNonterminals + 1

/-- The tree of the best derivation of the whole sentence from a symbol. -/
def viterbiTree? (c : Chart α) (symbols : SymbolTable) (words : List String)
    (root : NonTerminal) : Option Tree :=
  if c.hasParse root then (c.backpointers symbols words).tree? 0 c.size root else none

end Chart

end Constituency
