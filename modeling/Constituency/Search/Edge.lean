import Constituency.Chart.Entry

/-!
# Edges

An edge is an entry that has not been entered into a chart yet. Edges wait in a queue from which
the most promising ones are taken first.
-/

namespace Constituency

/-- A candidate for a cell, with its figure of merit. -/
structure Edge (α : Type) extends Entry α where
  start : Nat
  stop : Nat
  merit : α

/-- How two merits stand to each other in a queue. -/
def compareMerit {α : Type} [Score α] (a b : α) : Ordering :=
  if Score.outranks a b then .gt else if Score.outranks b a then .lt else .eq

/-- Counts of what a search has done. -/
structure Stats where
  /-- Derivations that were scored. -/
  considered : Nat
  /-- Derivations that were entered into the chart. -/
  added : Nat
  /-- Edges that were put into the agenda. -/
  pushes : Nat
  /-- Edges that were taken off the agenda. -/
  pops : Nat
deriving DecidableEq

/-- The counts before a search. -/
def Stats.zero : Stats := ⟨0, 0, 0, 0⟩

/-- Edges in the order in which they are taken: from the highest merit down, and the edges of one
merit in the order in which they came. -/
structure Queue (α : Type) where
  edges : List (Edge α)

namespace Queue

variable {α : Type} [Score α]

/-- The queue without edges. -/
def empty : Queue α := ⟨[]⟩

/-- Puts an edge before all edges that it outranks. -/
def place (e : Edge α) : List (Edge α) → List (Edge α)
  | [] => [e]
  | x :: rest => if Score.outranks e.merit x.merit then e :: x :: rest else x :: place e rest

/-- The queue with one more edge. -/
def insert (q : Queue α) (e : Edge α) : Queue α :=
  ⟨place e q.edges⟩

/-- The queue with more edges. -/
def insertAll (q : Queue α) (edges : List (Edge α)) : Queue α :=
  edges.foldl insert q

/-- The queue of some edges. -/
def ofList (edges : List (Edge α)) : Queue α :=
  empty.insertAll edges

/-- The first edges, at most `count` of them, and the queue of the others. -/
def take (q : Queue α) (count : Nat) : List (Edge α) × Queue α :=
  (q.edges.take count, ⟨q.edges.drop count⟩)

theorem place_perm (e : Edge α) (edges : List (Edge α)) :
    (place e edges).Perm (e :: edges) := by
  induction edges with
  | nil => exact .refl _
  | cons x rest ih =>
    unfold place
    split
    · exact .refl _
    · exact (ih.cons x).trans (.swap e x rest)

end Queue

end Constituency
