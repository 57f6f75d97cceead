import Constituency.Chart.Arena
import Constituency.Chart.CellBits
import Constituency.Chart.Scratch
import Constituency.Grammar.Basic
import Constituency.Score.Binary32
import Constituency.Span

/-!
# Slot charts

A chart with a slot for every non-terminal in every cell. A slot holds the score of its entry and
the number under which the entry is stored in an arena, so that to replace an entry is to replace
one slot, and it is replaced only by an entry that outranks it. Each cell also keeps the sets of
its filled slots and of those that can be a left child, a right child, or a part of speech.
-/

namespace Constituency

/-- A filled slot. -/
structure Slot (α : Type) where
  score : α
  /-- The number of the entry. -/
  edge : UInt32

/-- A slot in one machine word: the rank of the score above the number of the entry. An empty slot
is zero. -/
def Slot.word : Option (Slot Float32) → UInt64
  | none => 0
  | some s => (Binary32.rank s.score.toBits).toUInt64 <<< 32 ||| s.edge.toUInt64

/-- A chart of slots. -/
structure SlotChart (α : Type) where
  /-- The number of words. -/
  size : Nat
  numNonterminals : Nat
  classes : SymbolClasses
  slots : Vector (Option (Slot α)) (numCells size * numNonterminals)
  arena : Arena (Entry α)
  populated : CellBits
  leftChildren : CellBits
  rightChildren : CellBits
  pos : CellBits
  /-- The number of filled slots. -/
  numEntries : Nat

namespace SlotChart

variable {α : Type} [Score α]

/-- A chart without entries for a sentence of `size` words. -/
def empty (size : Nat) (g : Grammar α) : SlotChart α where
  size
  numNonterminals := g.numNonterminals
  classes := g.classes
  slots := Vector.replicate _ none
  arena := Arena.empty
  populated := CellBits.make size g.numNonterminals
  leftChildren := CellBits.make size g.numNonterminals
  rightChildren := CellBits.make size g.numNonterminals
  pos := CellBits.make size g.numNonterminals
  numEntries := 0

/-- The span lies in the sentence and is not empty, and the symbol is one of the grammar. -/
def covers (c : SlotChart α) (start stop : Nat) (nt : NonTerminal) : Bool :=
  start < stop && stop ≤ c.size && nt < c.numNonterminals

/-- The place of the slot of a non-terminal. -/
def place (c : SlotChart α) (start stop : Nat) (nt : NonTerminal) : Nat :=
  cellIndex start stop c.size * c.numNonterminals + nt

/-- The slot of a non-terminal. -/
def slot? (c : SlotChart α) (start stop : Nat) (nt : NonTerminal) : Option (Slot α) :=
  if c.covers start stop nt then c.slots[c.place start stop nt]?.join else none

/-- The entry of a non-terminal. -/
def get? (c : SlotChart α) (start stop : Nat) (nt : NonTerminal) : Option (Entry α) :=
  (c.slot? start stop nt).bind fun s => c.arena.get? s.edge

/-- The score of a non-terminal. -/
def inside (c : SlotChart α) (start stop : Nat) (nt : NonTerminal) : α :=
  match c.slot? start stop nt with
  | some s => s.score
  | none => Score.impossible

/-- The score is better than what the slot holds. -/
def beats (score : α) : Option (Slot α) → Bool
  | none => true
  | some s => Score.outranks score s.score

/-- Enters a non-terminal whose slot has been filled for the first time into the sets of its
cell. -/
def mark (c : SlotChart α) (start stop : Nat) (nt : NonTerminal) : SlotChart α :=
  let enter := fun (belongs : Bool) (sets : CellBits) =>
    if belongs then sets.insert start stop nt else sets
  { c with
    numEntries := c.numEntries + 1
    populated := enter true c.populated
    leftChildren := enter (c.classes.isLeft nt) c.leftChildren
    rightChildren := enter (c.classes.isRight nt) c.rightChildren
    pos := enter (c.classes.isPos nt) c.pos }

/-- The chart with a slot filled. -/
def put (c : SlotChart α) (start stop : Nat) (nt : NonTerminal) (slot : Slot α) : SlotChart α :=
  { c with
    slots :=
      if c.covers start stop nt then c.slots.setIfInBounds (c.place start stop nt) (some slot)
      else c.slots }

/-- Puts an entry into its slot if its score is one that a derivation can have and outranks the
score in the slot. Tells whether it did. -/
def install (c : SlotChart α) (start stop : Nat) (e : Entry α) : Bool × SlotChart α :=
  let slot := c.slot? start stop e.nonterminal
  if Score.admissible e.inside && beats e.inside slot then
    match c.arena.push e with
    | (none, arena) => (false, { c with arena })
    | (some edge, arena) =>
      let filled := { c with arena }.put start stop e.nonterminal ⟨e.inside, edge⟩
      (true, if slot.isNone then filled.mark start stop e.nonterminal else filled)
  else (false, c)

/-- Installs the entries of a scratch cell. -/
def commit (c : SlotChart α) (cell : Scratch α) : SlotChart α :=
  cell.entries.foldl (fun c e => (c.install cell.start cell.stop e).2) c

/-- The entries of a cell in the order of their non-terminals. -/
def entries (c : SlotChart α) (start stop : Nat) : List (Entry α) :=
  (c.populated.members start stop).filterMap (c.get? start stop)

/-- The members of one of the sets of a cell, with their scores. -/
def scored (c : SlotChart α) (sets : CellBits) (start stop : Nat) : List (NonTerminal × α) :=
  (sets.members start stop).map fun nt => (nt, c.inside start stop nt)

/-- Something derives the words of the cell. -/
def isPopulated (c : SlotChart α) (start stop : Nat) : Bool :=
  !(c.populated.members start stop).isEmpty

/-- The number of entries stored so far, those included that have been replaced. -/
def edgesAllocated (c : SlotChart α) : Nat := c.arena.next

/-- A summary of the chart. -/
def summary (c : SlotChart α) : String :=
  let field := fun (name : String) (value : Nat) => name ++ ": " ++ toString value
  let fields := [field "size" c.size, field "num_nonterminals" c.numNonterminals,
    field "num_entries" c.numEntries, field "edges_allocated" c.edgesAllocated]
  "HashSlotChart \x7b " ++ ", ".intercalate fields ++ " \x7d"

end SlotChart

end Constituency
