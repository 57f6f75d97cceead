/-!
# Spans

A sentence of `n` words has a cell for every span of words `start ≤ i < stop`. The cells are
numbered row by row. A table over them keeps one value for each, or a stride of values.
-/

namespace Constituency

/-- The number of spans of a sentence. -/
def numCells (size : Nat) : Nat :=
  size * (size + 1) / 2

/-- The position of a span among all spans of a sentence, ordered by start and then by stop. -/
def cellIndex (start stop size : Nat) : Nat :=
  start * (2 * size - start + 1) / 2 + (stop - start - 1)

/-- The spans of one length from left to right. -/
def spansOfLength (size length : Nat) : List (Nat × Nat) :=
  (List.range (size + 1 - length)).map fun start => (start, start + length)

/-- The spans from the shortest to the longest, and from left to right among those of one length. -/
def spansUp (size : Nat) : List (Nat × Nat) :=
  (List.range' 1 size).flatMap (spansOfLength size)

/-- The spans from the longest to the shortest, and from left to right among those of one length. -/
def spansDown (size : Nat) : List (Nat × Nat) :=
  (List.range' 1 size).reverse.flatMap (spansOfLength size)

/-- The spans ordered by start and then by stop. -/
def spansByStart (size : Nat) : List (Nat × Nat) :=
  (List.range size).flatMap fun start =>
    (List.range' (start + 1) (size - start)).map (start, ·)

/-- The positions strictly inside a span. -/
def midpoints (start stop : Nat) : List Nat :=
  List.range' (start + 1) (stop - start - 1)

/-- A value for every span of a sentence. What lies outside the sentence has the blank value. -/
structure SpanTable (β : Type) where
  size : Nat
  blank : β
  cells : Array β
  cells_size : cells.size = numCells size

namespace SpanTable

variable {β : Type}

/-- The table with the blank value everywhere. -/
def make (size : Nat) (blank : β) : SpanTable β where
  size
  blank
  cells := Array.replicate (numCells size) blank
  cells_size := Array.size_replicate

/-- The span lies in the sentence and is not empty. -/
def covers (t : SpanTable β) (start stop : Nat) : Bool :=
  start < stop && stop ≤ t.size

/-- The value of a span. -/
def get (t : SpanTable β) (start stop : Nat) : β :=
  if t.covers start stop then t.cells.getD (cellIndex start stop t.size) t.blank else t.blank

/-- The table with the value of one span changed. -/
def modify (t : SpanTable β) (start stop : Nat) (change : β → β) : SpanTable β :=
  if t.covers start stop then
    { t with
      cells := t.cells.modify (cellIndex start stop t.size) change
      cells_size := by rw [Array.size_modify, t.cells_size] }
  else t

/-- The table with the value of one span replaced. -/
def set (t : SpanTable β) (start stop : Nat) (value : β) : SpanTable β :=
  t.modify start stop fun _ => value

end SpanTable

/-- Values for the columns of every span of a sentence, as far as there are any. They stand in one array,
in which a cell has a stride of places, one for every column. -/
structure StrideTable (β : Type) where
  size : Nat
  /-- The number of columns. -/
  stride : Nat
  values : Vector (Option β) (numCells size * stride)

namespace StrideTable

variable {β : Type}

/-- The table without values. -/
def make (size stride : Nat) : StrideTable β where
  size
  stride
  values := Vector.replicate _ none

/-- The span lies in the sentence and is not empty, and the column is one of the table. -/
def covers (t : StrideTable β) (start stop column : Nat) : Bool :=
  start < stop && stop ≤ t.size && column < t.stride

/-- The place of a column of a span. -/
def place (t : StrideTable β) (start stop column : Nat) : Nat :=
  cellIndex start stop t.size * t.stride + column

/-- The value of a column of a span. -/
def find? (t : StrideTable β) (start stop column : Nat) : Option β :=
  if t.covers start stop column then t.values[t.place start stop column]?.join else none

/-- The table with the value of a column of one span replaced. -/
def set (t : StrideTable β) (start stop column : Nat) (value : β) : StrideTable β :=
  if t.covers start stop column then
    { t with values := t.values.setIfInBounds (t.place start stop column) (some value) }
  else t

end StrideTable

end Constituency
