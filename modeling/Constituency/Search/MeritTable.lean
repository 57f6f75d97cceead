import Constituency.Chart.Derivation
import Constituency.Span

/-!
# Merit tables

Beside a chart, a beam search keeps for each entry the derivation that is best by figures of merit.
A derivation is worth its own merit and what its children are worth, taken together either as a
product or as a sum.
-/

namespace Constituency

/-- The best derivation of an entry by figures of merit. -/
structure MeritEntry (α : Type) where
  score : α
  backpointer : Backpointer

/-- The best derivations of all entries by figures of merit. -/
structure MeritTable (α : Type) where
  /-- Merits are summed rather than multiplied. -/
  summing : Bool
  cells : StrideTable (MeritEntry α)

namespace MeritTable

variable {α : Type} [Score α]

/-- A table without derivations. -/
def empty (size numNonterminals : Nat) (summing : Bool) : MeritTable α where
  summing
  cells := StrideTable.make size numNonterminals

/-- The number of non-terminals that each cell has a place for. -/
def numNonterminals (t : MeritTable α) : Nat :=
  t.cells.stride

/-- The derivation kept of a non-terminal. -/
def find? (t : MeritTable α) (start stop : Nat) (nt : NonTerminal) : Option (MeritEntry α) :=
  t.cells.find? start stop nt

/-- What a non-terminal is worth. -/
def score (t : MeritTable α) (start stop : Nat) (nt : NonTerminal) : α :=
  match t.find? start stop nt with
  | some e => e.score
  | none => Score.impossible

/-- The backpointer of the derivation kept of a non-terminal. -/
def backpointer? (t : MeritTable α) (start stop : Nat) (nt : NonTerminal) : Option Backpointer :=
  (t.find? start stop nt).map (·.backpointer)

/-- What two parts are worth together. -/
def combine (t : MeritTable α) (a b : α) : α :=
  if t.summing then Score.logSum a b else a + b

/-- What a derivation is worth whose top edge has a merit. There is no answer if a child is missing,
or if unary follows upon unary, which could go on forever. -/
def worth? (t : MeritTable α) (start stop : Nat) (merit : α) : Backpointer → Option α
  | .lexical _ => some merit
  | .unary child =>
    match t.find? start stop child with
    | none => none
    | some e => if e.backpointer.isUnary then none else some (t.combine merit e.score)
  | .binary left right midpoint =>
    let left := t.score start midpoint left
    let right := t.score midpoint stop right
    if left == Score.impossible || right == Score.impossible then none
    else some (t.combine merit (t.combine left right))

/-- Offers a derivation of a non-terminal, which is kept if it is worth more than the present one,
and tells whether it is. -/
def update (t : MeritTable α) (start stop : Nat) (nt : NonTerminal) (merit : α)
    (backpointer : Backpointer) : Bool × MeritTable α :=
  match t.worth? start stop merit backpointer with
  | none => (false, t)
  | some score =>
    if t.score start stop nt < score then
      (true, { t with cells := t.cells.set start stop nt ⟨score, backpointer⟩ })
    else (false, t)

/-- The table as backpointers. -/
def backpointers (t : MeritTable α) (symbols : SymbolTable) (words : List String) :
    Backpointers where
  find? := t.backpointer?
  name := symbols.name
  words
  maxUnaries := t.numNonterminals + 1

/-- The tree of the best derivation of the whole sentence by figures of merit. -/
def tree? (t : MeritTable α) (symbols : SymbolTable) (words : List String) (root : NonTerminal) :
    Option Tree :=
  if t.cells.size == 0 then none else (t.backpointers symbols words).tree? 0 t.cells.size root

end MeritTable

end Constituency
