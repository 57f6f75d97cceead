import Constituency.Chart.RowTable
import Constituency.Chart.Scratch
import Constituency.Grammar.Basic

/-!
# Packed charts

A chart that keeps in each cell a row of entries, in ascending order of their non-terminals and
without gaps. Its entries also carry the score of what surrounds them.
-/

namespace Constituency

/-- A chart of rows. -/
structure PackedChart (α : Type) where
  numNonterminals : Nat
  classes : SymbolClasses
  /-- How the children of an entry are packed. -/
  code : ChildCode
  rows : RowTable α
  /-- The scores of the surroundings have been computed. -/
  hasOutside : Bool

namespace PackedChart

variable {α : Type} [Score α]

/-- A chart without entries for a sentence of `size` words. -/
def empty (size : Nat) (g : Grammar α) : PackedChart α where
  numNonterminals := g.numNonterminals
  classes := g.classes
  code := g.code
  rows := RowTable.make size g.numNonterminals
  hasOutside := false

/-- The number of words. -/
def size (c : PackedChart α) : Nat := c.rows.size

/-- The entries of a cell with their surroundings. -/
def row (c : PackedChart α) (start stop : Nat) : List (PackedEntry α) :=
  c.rows.get start stop

/-- The entry of a non-terminal. -/
def get? (c : PackedChart α) (start stop : Nat) (nt : NonTerminal) : Option (Entry α) :=
  (c.rows.find? start stop nt).map (·.toEntry)

/-- The score of a non-terminal. -/
def inside (c : PackedChart α) (start stop : Nat) (nt : NonTerminal) : α :=
  match c.rows.find? start stop nt with
  | some e => e.inside
  | none => Score.impossible

/-- The score of the surroundings of a non-terminal. -/
def outside (c : PackedChart α) (start stop : Nat) (nt : NonTerminal) : α :=
  match c.rows.find? start stop nt with
  | some e => e.outside
  | none => Score.impossible

/-- The entries of a cell. -/
def entries (c : PackedChart α) (start stop : Nat) : List (Entry α) :=
  (c.row start stop).map (·.toEntry)

/-- The entries of a cell with a property of their non-terminals, with their scores. -/
def scored (c : PackedChart α) (keep : NonTerminal → Bool) (start stop : Nat) :
    List (NonTerminal × α) :=
  ((c.row start stop).filter (keep ·.nonterminal)).map fun e => (e.nonterminal, e.inside)

/-- Something derives the words of the cell. -/
def isPopulated (c : PackedChart α) (start stop : Nat) : Bool :=
  decide (0 < c.rows.count start stop)

/-- Puts an entry into its cell if its score is one that a derivation can have and exceeds the
present one. Tells whether it did. -/
def update (c : PackedChart α) (start stop : Nat) (e : Entry α) : Bool × PackedChart α :=
  if Score.admissible e.inside then
    let (changed, rows) := c.rows.update start stop e
    (changed, { c with rows })
  else (false, c)

/-- The chart with the entries of a cell replaced. They come in ascending order. -/
def write (c : PackedChart α) (start stop : Nat) (entries : List (Entry α)) : PackedChart α :=
  { c with rows := c.rows.write start stop entries }

/-- Enters a scratch cell: as a whole if the cell of the chart is empty, and else entry by entry. -/
def commit (c : PackedChart α) (cell : Scratch α) : PackedChart α :=
  if c.isPopulated cell.start cell.stop then
    cell.entries.foldl (fun c e => (c.update cell.start cell.stop e).2) c
  else c.write cell.start cell.stop cell.entries

/-- The number of entries. -/
def numEntries (c : PackedChart α) : Nat :=
  c.rows.total

/-- The children and midpoints of a cell, packed. -/
def packedChildren (c : PackedChart α) (start stop : Nat) : List (Int32 × Nat) :=
  (c.row start stop).map (·.backpointer.encode c.code stop)

end PackedChart

end Constituency
