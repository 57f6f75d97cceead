import Constituency.Chart.Packed
import Constituency.Chart.Slots

/-!
# Charts

A chart of a sentence in either storage, read and written in the same way.
-/

namespace Constituency

/-- A chart of slots or of rows. -/
inductive Chart (α : Type) where
  | slots (chart : SlotChart α)
  | packed (chart : PackedChart α)

namespace Chart

variable {α : Type} [Score α]

/-- The number of words. -/
def size : Chart α → Nat
  | slots c => c.size
  | packed c => c.size

/-- The number of non-terminals of the grammar. -/
def numNonterminals : Chart α → Nat
  | slots c => c.numNonterminals
  | packed c => c.numNonterminals

/-- The entry of a non-terminal over a span. -/
def get? (c : Chart α) (start stop : Nat) (nt : NonTerminal) : Option (Entry α) :=
  match c with
  | slots c => c.get? start stop nt
  | packed c => c.get? start stop nt

/-- The score of a non-terminal over a span, `impossible` without an entry. -/
def inside (c : Chart α) (start stop : Nat) (nt : NonTerminal) : α :=
  match c with
  | slots c => c.inside start stop nt
  | packed c => c.inside start stop nt

/-- The score of the surroundings of an entry, `impossible` unless it has been computed. -/
def outside (c : Chart α) (start stop : Nat) (nt : NonTerminal) : α :=
  match c with
  | slots _ => Score.impossible
  | packed c => c.outside start stop nt

/-- The entries of a cell in the order of their non-terminals. -/
def entries (c : Chart α) (start stop : Nat) : List (Entry α) :=
  match c with
  | slots c => c.entries start stop
  | packed c => c.entries start stop

/-- The entries of a cell that can be a left child. -/
def leftChildren (c : Chart α) (start stop : Nat) : List (NonTerminal × α) :=
  match c with
  | slots c => c.scored c.leftChildren start stop
  | packed c => c.scored c.classes.isLeft start stop

/-- The entries of a cell that can be a right child. -/
def rightChildren (c : Chart α) (start stop : Nat) : List (NonTerminal × α) :=
  match c with
  | slots c => c.scored c.rightChildren start stop
  | packed c => c.scored c.classes.isRight start stop

/-- The parts of speech of a cell. -/
def posEntries (c : Chart α) (start stop : Nat) : List (NonTerminal × α) :=
  match c with
  | slots c => c.scored c.pos start stop
  | packed c => c.scored c.classes.isPos start stop

/-- Offers an entry to a cell and tells whether the chart has changed. -/
def update (c : Chart α) (start stop : Nat) (e : Entry α) : Bool × Chart α :=
  match c with
  | slots c => (c.install start stop e).map id slots
  | packed c => (c.update start stop e).map id packed

/-- Enters a scratch cell. -/
def commit (c : Chart α) (cell : Scratch α) : Chart α :=
  match c with
  | slots c => slots (c.commit cell)
  | packed c => packed (c.commit cell)

/-- The number of entries. -/
def numEntries : Chart α → Nat
  | slots c => c.numEntries
  | packed c => c.numEntries

/-- Something derives the words of the cell. -/
def isPopulated (c : Chart α) (start stop : Nat) : Bool :=
  match c with
  | slots c => c.isPopulated start stop
  | packed c => c.isPopulated start stop

/-- The symbol derives the whole sentence. -/
def hasParse (c : Chart α) (symbol : NonTerminal) : Bool :=
  decide (0 < c.size) && decide (Score.impossible < c.inside 0 c.size symbol)

/-- The chart in rows. -/
def toPacked (c : Chart α) (g : Grammar α) : PackedChart α :=
  match c with
  | packed c => c
  | slots c =>
    (spansUp c.size).foldl
      (fun packed (start, stop) => packed.write start stop (c.entries start stop))
      (PackedChart.empty c.size g)

end Chart

end Constituency
