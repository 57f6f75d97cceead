import Constituency.Chart.Entry
import Constituency.Score.Basic
import Constituency.Span

/-!
# Rows in strides

A table with a row of entries for every span of a sentence. All rows stand in the same five arrays, in
each of which a cell has a stride of places, one for every non-terminal. The first places of a stride are live:
they hold the entries of the cell, in ascending order of their non-terminals, so that an entry is found by
binary search, and that those behind it move up by one place when another one is inserted.
-/

namespace Constituency

/-- An entry with the log probability of the rest of the sentence around it. -/
structure PackedEntry (α : Type) extends Entry α where
  outside : α

/-- What stands at one place of the arrays: the parts of an entry. -/
structure PackedParts (α : Type) where
  nonterminal : NonTerminal
  inside : α
  children : Children
  midpoint : Nat
  outside : α

/-- The entry that is made up of its parts. -/
def PackedParts.entry {α : Type} (p : PackedParts α) : PackedEntry α where
  nonterminal := p.nonterminal
  inside := p.inside
  backpointer := .ofChildren p.midpoint p.children
  outside := p.outside

/-- A table of rows. -/
structure RowTable (α : Type) where
  /-- The number of words. -/
  size : Nat
  /-- The number of places that a cell has. -/
  stride : Nat
  nonterminals : Vector NonTerminal (numCells size * stride)
  inside : Vector α (numCells size * stride)
  children : Vector Children (numCells size * stride)
  midpoints : Vector Nat (numCells size * stride)
  outside : Vector α (numCells size * stride)
  /-- The number of live places of each cell. -/
  counts : Vector Nat (numCells size)
  /-- The number of live places of all cells. -/
  total : Nat

namespace RowTable

variable {α : Type}

/-- The table whose rows are all empty. -/
def make [Score α] (size stride : Nat) : RowTable α where
  size
  stride
  nonterminals := Vector.replicate _ 0
  inside := Vector.replicate _ Score.impossible
  children := Vector.replicate _ (.unary 0)
  midpoints := Vector.replicate _ 0
  outside := Vector.replicate _ Score.impossible
  counts := Vector.replicate _ 0
  total := 0

/-! ## Reading -/

/-- The span lies in the sentence and is not empty. -/
def covers (t : RowTable α) (start stop : Nat) : Bool :=
  start < stop && stop ≤ t.size

/-- The first place of a cell. -/
def offset (t : RowTable α) (start stop : Nat) : Nat :=
  cellIndex start stop t.size * t.stride

/-- The number of live places of a cell. -/
def count (t : RowTable α) (start stop : Nat) : Nat :=
  if t.covers start stop then t.counts.getD (cellIndex start stop t.size) 0 else 0

/-- The parts of an entry at a place of the arrays. -/
def parts? (t : RowTable α) (place : Nat) : Option (PackedParts α) := do
  let nonterminal ← t.nonterminals[place]?
  let inside ← t.inside[place]?
  let children ← t.children[place]?
  let midpoint ← t.midpoints[place]?
  let outside ← t.outside[place]?
  return { nonterminal, inside, children, midpoint, outside }

/-- The entry at a place of the arrays. -/
def entryAt? (t : RowTable α) (place : Nat) : Option (PackedEntry α) :=
  (t.parts? place).map (·.entry)

/-- The live entries of a cell. -/
def get (t : RowTable α) (start stop : Nat) : List (PackedEntry α) :=
  (List.range' (t.offset start stop) (t.count start stop)).filterMap t.entryAt?

/-- Halves a stretch of places in ascending order until a single one is left: the last one whose
non-terminal does not come after `nt`, or else the first one. -/
def lastNotAfter {length : Nat} (keys : Vector NonTerminal length) (nt : NonTerminal)
    (first size : Nat) : Nat :=
  if size ≤ 1 then first
  else
    let middle := first + size / 2
    lastNotAfter keys nt (if nt < keys.getD middle 0 then first else middle) (size - size / 2)
termination_by size

/-- The place of a non-terminal in a cell, or else the place where it belongs. -/
def search (t : RowTable α) (start stop : Nat) (nt : NonTerminal) : Except Nat Nat :=
  let first := t.offset start stop
  let count := t.count start stop
  if count == 0 then .error first
  else
    let place := lastNotAfter t.nonterminals nt first count
    let key := t.nonterminals.getD place 0
    if key == nt then .ok place else .error (if key < nt then place + 1 else place)

/-- The entry of a non-terminal in a cell. -/
def find? (t : RowTable α) (start stop : Nat) (nt : NonTerminal) : Option (PackedEntry α) :=
  match t.search start stop nt with
  | .ok place => t.entryAt? place
  | .error _ => none

/-! ## Writing -/

/-- Writes an entry to a place of a cell that ends at `stop`. Its surroundings stay as they are. -/
def store (t : RowTable α) (place stop : Nat) (e : Entry α) : RowTable α :=
  { t with
    nonterminals := t.nonterminals.setIfInBounds place e.nonterminal
    inside := t.inside.setIfInBounds place e.inside
    children := t.children.setIfInBounds place e.backpointer.children
    midpoints := t.midpoints.setIfInBounds place (e.backpointer.midpoint stop) }

/-- Writes entries to places that follow one another. -/
def storeAll (t : RowTable α) (place stop : Nat) : List (Entry α) → RowTable α
  | [] => t
  | e :: rest => (t.store place stop e).storeAll (place + 1) stop rest

/-- Writes all parts of an entry to a place. -/
def put (t : RowTable α) (place : Nat) (p : PackedParts α) : RowTable α :=
  { t with
    nonterminals := t.nonterminals.setIfInBounds place p.nonterminal
    inside := t.inside.setIfInBounds place p.inside
    children := t.children.setIfInBounds place p.children
    midpoints := t.midpoints.setIfInBounds place p.midpoint
    outside := t.outside.setIfInBounds place p.outside }

/-- Copies the parts of an entry to the next place. -/
def moveUp (t : RowTable α) (place : Nat) : RowTable α :=
  match t.parts? place with
  | some p => t.put (place + 1) p
  | none => t

/-- Moves the entries of so many places up by one, from the last one to the first one. -/
def shift (t : RowTable α) (first : Nat) : Nat → RowTable α
  | 0 => t
  | size + 1 => (t.moveUp (first + size)).shift first size

/-- The table with another number of live places in a cell, and in all cells. -/
def recount (t : RowTable α) (start stop count total : Nat) : RowTable α :=
  { t with counts := t.counts.setIfInBounds (cellIndex start stop t.size) count, total }

/-- The table with the row of a cell replaced. The entries come in ascending order. -/
def write (t : RowTable α) (start stop : Nat) (entries : List (Entry α)) : RowTable α :=
  if t.covers start stop then
    (t.storeAll (t.offset start stop) stop entries).recount start stop entries.length
      (t.total + entries.length - t.count start stop)
  else t

/-- The table with a score of the surroundings set at one place. -/
def setOutside (t : RowTable α) (place : Nat) (outside : α) : RowTable α :=
  { t with outside := t.outside.setIfInBounds place outside }

/-- The table with a new entry at a place, and those of so many places behind it moved up. Nothing is
known of its surroundings. -/
def insert [Score α] (t : RowTable α) (place stop size : Nat) (e : Entry α) : RowTable α :=
  ((t.shift place size).store place stop e).setOutside place Score.impossible

/-- Puts an entry into its cell unless there is one for its non-terminal with at least its score. One
that replaces another takes over its surroundings. -/
def update [Score α] (t : RowTable α) (start stop : Nat) (e : Entry α) : Bool × RowTable α :=
  if t.covers start stop then
    match t.search start stop e.nonterminal with
    | .ok place =>
      if (t.inside[place]?).any (· < e.inside) then (true, t.store place stop e) else (false, t)
    | .error place =>
      let count := t.count start stop
      let behind := t.offset start stop + count - place
      (true, (t.insert place stop behind e).recount start stop (count + 1) (t.total + 1))
  else (false, t)

/-! ## Weighing -/

/-- Writes values to places that follow one another. -/
def overwrite {β : Type} {length : Nat} (values : Vector β length) (place : Nat) :
    List β → Vector β length
  | [] => values
  | x :: rest => overwrite (values.setIfInBounds place x) (place + 1) rest

/-- The table with the scores of the live entries of a cell replaced. -/
def copyInside (t : RowTable α) (start stop : Nat) (scores : List α) : RowTable α :=
  if t.covers start stop then
    { t with inside := overwrite t.inside (t.offset start stop) scores }
  else t

/-- The table with the scores of the surroundings of the live entries of a cell replaced. -/
def copyOutside (t : RowTable α) (start stop : Nat) (scores : List α) : RowTable α :=
  if t.covers start stop then
    { t with outside := overwrite t.outside (t.offset start stop) scores }
  else t

/-- The table with the score of the surroundings of one entry changed. -/
def adjustOutside (t : RowTable α) (start stop : Nat) (nt : NonTerminal) (change : α → α) :
    RowTable α :=
  match t.search start stop nt with
  | .ok place =>
    match t.outside[place]? with
    | some outside => t.setOutside place (change outside)
    | none => t
  | .error _ => t

/-- The table with nothing known of any surroundings. -/
def clearOutside [Score α] (t : RowTable α) : RowTable α :=
  { t with outside := Vector.replicate _ Score.impossible }

end RowTable

end Constituency
