import Constituency.Chart.Basic
import Constituency.Sentence

/-!
# Figures of merit

A figure of merit ranks constituents by how promising they are, which their own score does not
tell: it is prepared for a sentence once its words have been entered into a chart. Besides the
score itself, and the score per word, there is a model of the parts of speech around a constituent.
-/

namespace Constituency

/-- A figure of merit for one sentence: functions of a span, a non-terminal and its score. -/
structure SentenceMerit (α : Type) where
  /-- The merit of a constituent. -/
  score : Nat → Nat → NonTerminal → α → α
  /-- The merit of a constituent that is a single word. -/
  scoreLexical : Nat → Nat → NonTerminal → α → α

/-- A model of what stands next to a constituent. Parts of speech are numbered by their places
among all parts of speech, and the number behind the last one is the boundary of the sentence. All
entries are log probabilities. -/
structure BoundaryModel (α : Type) where
  posSymbols : List NonTerminal
  /-- A non-terminal, given the part of speech before it. -/
  left : Array (Array α)
  /-- The part of speech after a non-terminal, filed by non-terminal. -/
  right : Array (Array α)
  /-- A part of speech, given the one before it. -/
  transitions : Array (Array α)

namespace BoundaryModel

variable {α : Type} [Score α]

/-- The model with the same entry everywhere. -/
def filled (g : Grammar α) (entry : α) : BoundaryModel α :=
  let places := g.posSymbols.length + 1
  let row := Array.replicate places entry
  { posSymbols := g.posSymbols
    left := Array.replicate g.numNonterminals row
    right := Array.replicate g.numNonterminals row
    transitions := Array.replicate places row }

/-- The model in which nothing can stand next to anything. -/
def impossible (g : Grammar α) : BoundaryModel α :=
  filled g Score.impossible

/-- The number of the boundary. -/
def boundary (m : BoundaryModel α) : Nat :=
  m.posSymbols.length

/-- The number of a part of speech, or of the boundary. -/
def place? (m : BoundaryModel α) : Option NonTerminal → Option Nat
  | none => some m.boundary
  | some nt => m.posSymbols.idxOf? nt

/-- An entry of a table. -/
def lookup (table : Array (Array α)) (row column : Nat) : α :=
  (table.getD row #[]).getD column Score.impossible

/-- A table with one entry changed. -/
def replace (table : Array (Array α)) (row column : Nat) (entry : α) : Array (Array α) :=
  table.modify row (·.setIfInBounds column entry)

/-- Sets the score of a non-terminal behind a part of speech. What is no part of speech is passed
over. -/
def setLeft (m : BoundaryModel α) (nt : NonTerminal) (previous : Option NonTerminal) (entry : α) :
    BoundaryModel α :=
  match m.place? previous with
  | some place => { m with left := replace m.left nt place entry }
  | none => m

/-- Sets the score of a part of speech behind a non-terminal. What is no part of speech is passed
over. -/
def setRight (m : BoundaryModel α) (next : Option NonTerminal) (nt : NonTerminal) (entry : α) :
    BoundaryModel α :=
  match m.place? next with
  | some place => { m with right := replace m.right nt place entry }
  | none => m

/-- Sets the score of a part of speech behind another one. -/
def setTransition (m : BoundaryModel α) (pos previous : Option NonTerminal) (entry : α) :
    BoundaryModel α :=
  match m.place? pos, m.place? previous with
  | some place, some before => { m with transitions := replace m.transitions place before entry }
  | _, _ => m

/-- A column of the lattice of parts of speech: the readings of one word, with scores. -/
abbrev Column (α : Type) := List (Nat × α)

/-- The best of some scores. -/
def bestOf (scores : List α) : α :=
  scores.foldl Score.best Score.impossible

/-- The column outside the sentence, at either end. -/
def outer (m : BoundaryModel α) : Column α :=
  [(m.boundary, 0)]

/-- The readings of the word at a position, as the chart has them. -/
def emission (m : BoundaryModel α) (chart : Chart α) (position : Nat) : Column α :=
  (chart.posEntries position (position + 1)).filterMap fun (nt, inside) =>
    (m.place? (some nt)).map (·, inside)

/-- The best paths up to each reading of a word, from those up to the word before it. -/
def forward (m : BoundaryModel α) (before emission : Column α) : Column α :=
  emission.map fun (pos, inside) =>
    let scores := before.map fun (previous, path) => path + lookup m.transitions pos previous
    (pos, bestOf scores + inside)

/-- The best paths from each reading of a word on, from those from the next word on. -/
def backward (m : BoundaryModel α) (emission after : Column α) : Column α :=
  emission.map fun (pos, inside) =>
    let scores := after.map fun (next, path) => path + lookup m.transitions next pos
    (pos, bestOf scores + inside)

/-- The columns of best paths from the left: first the one outside the sentence, then one for each
word. -/
def forwardColumns (m : BoundaryModel α) (emissions : List (Column α)) : List (Column α) :=
  emissions.foldl (fun columns emission =>
    columns ++ [m.forward (columns.getLast?.getD []) emission]) [m.outer]

/-- The columns of best paths to the right: one for each word, and last the one outside the
sentence. -/
def backwardColumns (m : BoundaryModel α) (emissions : List (Column α)) : List (Column α) :=
  emissions.foldr (fun emission columns =>
    m.backward emission (columns.head?.getD []) :: columns) [m.outer]

/-- The best score of what stands to the left of a non-terminal that starts behind a column. -/
def leftContext (m : BoundaryModel α) (column : Column α) (nt : NonTerminal) : α :=
  bestOf (column.map fun (pos, path) => path + lookup m.left nt pos)

/-- The best score of what stands to the right of a non-terminal that stops before a column. -/
def rightContext (m : BoundaryModel α) (column : Column α) (nt : NonTerminal) : α :=
  bestOf (column.map fun (pos, path) => path + lookup m.right nt pos)

/-- The model prepared for a sentence: a constituent is ranked by the best paths on its two sides
and its own score together, and a single word by its own score. -/
def forSentence (m : BoundaryModel α) (chart : Chart α) : SentenceMerit α :=
  let emissions := (List.range chart.size).map (m.emission chart)
  let before := (m.forwardColumns emissions).toArray
  let after := (m.backwardColumns emissions).toArray
  { score := fun start stop nt inside =>
      m.leftContext (before.getD start []) nt + inside + m.rightContext (after.getD stop []) nt
    scoreLexical := fun _ _ _ inside => inside }

/-- The model in which all parts of speech are alike. -/
def uniform (g : Grammar Float32) : BoundaryModel Float32 :=
  filled g (-(g.posSymbols.length + 1).toFloat32.log)

end BoundaryModel

/-- A figure of merit. -/
inductive Merit (α : Type) where
  /-- The score of a constituent. -/
  | inside
  /-- The score per word. -/
  | normalized
  /-- The score together with the best surroundings in a model. -/
  | boundary (model : BoundaryModel α)

/-- The figure of merit prepared for a sentence, whose words have been entered into the chart. -/
def Merit.forSentence {α : Type} [Score α] : Merit α → Chart α → SentenceMerit α
  | inside, _ => ⟨fun _ _ _ x => x, fun _ _ _ x => x⟩
  | normalized, _ =>
    ⟨fun start stop _ x => Score.perWord x (stop - start),
     fun start stop _ x => Score.perWord x (stop - start)⟩
  | boundary model, chart => model.forSentence chart

end Constituency
