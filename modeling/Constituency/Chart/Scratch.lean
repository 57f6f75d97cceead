import Constituency.Chart.Entry

/-!
# Scratch cells

The work space for a single cell, with a place for every non-terminal. While scores combine over
all derivations, the backpointer stays with the best of them.
-/

namespace Constituency

/-- What a scratch cell keeps of a non-terminal. -/
structure Held (α : Type) where
  /-- The score of all derivations together. -/
  inside : α
  /-- The score of the best derivation. -/
  best : α
  /-- The first of the best derivations. -/
  backpointer : Backpointer

/-- The work space for the cell of a span. -/
structure Scratch (α : Type) where
  start : Nat
  stop : Nat
  held : Array (Option (Held α))

namespace Scratch

variable {α : Type} [Score α]

/-- A cell without derivations. -/
def empty (start stop numNonterminals : Nat) : Scratch α where
  start
  stop
  held := Array.replicate numNonterminals none

/-- What the cell keeps of a non-terminal. -/
def find? (c : Scratch α) (nt : NonTerminal) : Option (Held α) :=
  c.held.getD nt none

/-- The score of a non-terminal. -/
def inside (c : Scratch α) (nt : NonTerminal) : α :=
  match c.find? nt with
  | some h => h.inside
  | none => Score.impossible

/-- The entry of a non-terminal. -/
def get? (c : Scratch α) (nt : NonTerminal) : Option (Entry α) :=
  (c.find? nt).map fun h => ⟨nt, h.inside, h.backpointer⟩

/-- What is kept after one more derivation, and whether that derivation became the best. -/
def improve (acc : Accumulator α) (inside : α) (backpointer : Backpointer) :
    Option (Held α) → Bool × Held α
  | none => (true, ⟨inside, inside, backpointer⟩)
  | some h =>
    let combined := acc.combine h.inside inside
    if h.best < inside then (true, ⟨combined, inside, backpointer⟩)
    else (false, { h with inside := combined })

/-- Adds a derivation of a non-terminal and tells whether it became the best one. Scores that no
derivation can have are passed over. -/
def update (acc : Accumulator α) (c : Scratch α) (nt : NonTerminal) (inside : α)
    (backpointer : Backpointer) : Bool × Scratch α :=
  if Score.admissible inside then
    let (became, h) := improve acc inside backpointer (c.find? nt)
    (became, { c with held := c.held.setIfInBounds nt (some h) })
  else (false, c)

/-- Adds an entry as a derivation. -/
def add (acc : Accumulator α) (c : Scratch α) (e : Entry α) : Scratch α :=
  (c.update acc e.nonterminal e.inside e.backpointer).2

/-- What two cells keep of a non-terminal together. The first cell wins a tie. -/
def mergeHeld (acc : Accumulator α) : Option (Held α) → Option (Held α) → Option (Held α)
  | h, none => h
  | none, some h => some h
  | some g, some h =>
    let inside := acc.combine g.inside h.inside
    if g.best < h.best then some { h with inside } else some { g with inside }

/-- Folds the second cell of a span into the first one. -/
def merge (acc : Accumulator α) (c d : Scratch α) : Scratch α :=
  { c with held := Array.zipWith (mergeHeld acc) c.held d.held }

/-- The entries in the order of their non-terminals. -/
def entries (c : Scratch α) : List (Entry α) :=
  (List.range c.held.size).filterMap c.get?

/-- The number of entries. -/
def size (c : Scratch α) : Nat :=
  c.entries.length

end Scratch

end Constituency
