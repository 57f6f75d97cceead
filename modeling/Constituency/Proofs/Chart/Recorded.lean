import Constituency.Proofs.Chart.Cells
import Constituency.Proofs.Derivation

/-!
# Backpointers that record rules

A backpointer records how an entry was made: by a rule of the grammar over a word of the sentence or over
live places that make up the span (`Records`). More live places do no harm to what has been recorded, so
that a chart all of whose entries record rules over its own entries stays one when a cell is committed
whose entries record rules over the chart and the cell (`Recorded.commit`).
-/

namespace Constituency

variable {α : Type} [Score α] {g : Grammar α} {s : Sentence}
  {live live' : Nat → Nat → NonTerminal → Prop} {i j : Nat} {A : NonTerminal} {b : Backpointer}

/-- A backpointer of a symbol over a span is a possible rule of the grammar, over the word at the start
of the span or over live places that make up the span. -/
inductive Records (g : Grammar α) (s : Sentence) (live : Nat → Nat → NonTerminal → Prop) :
    Backpointer → Nat → Nat → NonTerminal → Prop
  | word {i : Nat} {p : Production α} {word : Terminal} (mem : p ∈ g.productions)
      (children : p.children = .lexical word) (possible : Score.impossible < p.logProb)
      (terminal : s.terminal? i = some word) :
      Records g s live (.lexical word) i (i + 1) p.parent
  | unary {i j : Nat} {p : Production α} {B : NonTerminal} (mem : p ∈ g.productions)
      (children : p.children = .unary B) (possible : Score.impossible < p.logProb)
      (below : live i j B) : Records g s live (.unary B) i j p.parent
  | binary {i m j : Nat} {p : Production α} {B C : NonTerminal} (mem : p ∈ g.productions)
      (children : p.children = .binary B C) (possible : Score.impossible < p.logProb)
      (inside : i < m ∧ m < j) (left : live i m B) (right : live m j C) :
      Records g s live (.binary B C m) i j p.parent

namespace Records

theorem mono (hle : ∀ i j A, live i j A → live' i j A) (h : Records g s live b i j A) :
    Records g s live' b i j A := by
  cases h with
  | word mem children possible terminal => exact .word mem children possible terminal
  | unary mem children possible below => exact .unary mem children possible (hle _ _ _ below)
  | binary mem children possible inside left right =>
    exact .binary mem children possible inside (hle _ _ _ left) (hle _ _ _ right)

theorem nt_lt (h : Records g s live b i j A) : A < g.numNonterminals := by
  cases h <;> exact Grammar.parent_lt ‹_›

/-- The span lies in the sentence if the live places do. -/
theorem bounds (h : Records g s live b i j A)
    (hlive : ∀ i j A, live i j A → i < j ∧ j ≤ s.size) : i < j ∧ j ≤ s.size := by
  cases h with
  | word _ _ _ terminal => exact ⟨Nat.lt_succ_self i, Sentence.lt_size_of_terminal? terminal⟩
  | unary _ _ _ below => exact hlive _ _ _ below
  | binary _ _ _ inside left right =>
    exact ⟨Nat.lt_trans inside.1 inside.2, (hlive _ _ _ right).2⟩

end Records

/-- A rule applied to what a chart has for its children is one that a backpointer may record. -/
theorem Application.records [MonotoneScore α] {inside : Nat → Nat → NonTerminal → α} {x : α}
    (h : Application g s inside b i j A x) (hpos : Score.impossible < x)
    (hlive : ∀ i j A, Score.impossible < inside i j A → live i j A)
    (hbounds : ∀ i j A, Score.impossible < inside i j A → i < j) : Records g s live b i j A := by
  cases h with
  | word mem children terminal => exact .word mem children hpos terminal
  | unary mem children possible =>
    exact .unary mem children (Score.impossible_lt_of_add hpos).1 (hlive _ _ _ possible)
  | binary mem children leftPossible rightPossible =>
    have hrule := (Score.impossible_lt_of_add (Score.impossible_lt_of_add hpos).1).1
    exact .binary mem children hrule ⟨hbounds _ _ _ leftPossible, hbounds _ _ _ rightPossible⟩
      (hlive _ _ _ leftPossible) (hlive _ _ _ rightPossible)

/-! ## Scratch cells -/

namespace Scratch

variable {acc : Accumulator α} {cell cell' : Scratch α} {entries : List (Entry α)}

/-- A cell for a span whose entries record rules over live places. -/
structure Recorded (g : Grammar α) (s : Sentence) (live : Nat → Nat → NonTerminal → Prop)
    (i j : Nat) (cell : Scratch α) : Prop extends cell.Proper g i j where
  recorded : cell.All fun A b => Records g s live b i j A

namespace Recorded

theorem empty (g : Grammar α) (s : Sentence) (live : Nat → Nat → NonTerminal → Prop) (i j : Nat) :
    (Scratch.empty i j g.numNonterminals : Scratch α).Recorded g s live i j where
  toProper := proper_empty g i j
  recorded := all_empty i j _

theorem mono (hle : ∀ i j A, live i j A → live' i j A) (h : cell.Recorded g s live i j) :
    cell.Recorded g s live' i j where
  toProper := h.toProper
  recorded := h.recorded.mono fun _ _ => Records.mono hle

theorem add [MonotoneScore α] {e : Entry α} (h : cell.Recorded g s live i j)
    (hacc : acc.KeepsPossible) (hnt : e.nonterminal < g.numNonterminals)
    (he : Score.impossible < e.inside → Records g s live e.backpointer i j e.nonterminal) :
    (cell.add acc e).Recorded g s live i j where
  toProper := h.toProper.add hacc hnt
  recorded := h.recorded.add (h.size_eq ▸ hnt) fun hadm => he (Score.admissible_iff.1 hadm)

theorem foldl_add [MonotoneScore α] (h : cell.Recorded g s live i j) (hacc : acc.KeepsPossible)
    (hnt : ∀ e ∈ entries, e.nonterminal < g.numNonterminals)
    (he : ∀ e ∈ entries, Score.impossible < e.inside →
      Records g s live e.backpointer i j e.nonterminal) :
    (entries.foldl (Scratch.add acc) cell).Recorded g s live i j := by
  induction entries generalizing cell with
  | nil => exact h
  | cons e rest ih =>
    refine ih (h.add hacc (hnt e List.mem_cons_self) (he e List.mem_cons_self)) ?_ ?_
    · exact fun e' he' => hnt e' (List.mem_cons_of_mem _ he')
    · exact fun e' he' => he e' (List.mem_cons_of_mem _ he')

theorem merge (h : cell.Recorded g s live i j) (h' : cell'.Recorded g s live i j)
    (hacc : acc.KeepsPossible) : (Scratch.merge acc cell cell').Recorded g s live i j where
  toProper := h.toProper.merge h'.toProper hacc
  recorded := h.recorded.merge h'.recorded (h.size_eq.trans h'.size_eq.symm)

theorem foldl_merge {cells : List (Scratch α)} (h : cell.Recorded g s live i j)
    (hacc : acc.KeepsPossible) (hcells : ∀ c ∈ cells, c.Recorded g s live i j) :
    (cells.foldl (Scratch.merge acc) cell).Recorded g s live i j := by
  induction cells generalizing cell with
  | nil => exact h
  | cons c rest ih =>
    exact ih (h.merge (hcells c List.mem_cons_self) hacc) fun c' hc' =>
      hcells c' (List.mem_cons_of_mem _ hc')

/-- What is found in a cell records a rule. -/
theorem records (h : cell.Recorded g s live i j) (hA : (cell.find? A).isSome = true) :
    ∃ b, Records g s live b i j A := by
  obtain ⟨held, hheld⟩ := Option.isSome_iff_exists.1 hA
  exact ⟨held.backpointer, h.recorded A held hheld⟩

end Recorded

end Scratch

/-! ## Charts -/

namespace Chart

variable {c : Chart α} {cell : Scratch α}

/-- A sound chart for a sentence. Unless its arena has run out of numbers, its entries record rules over
its entries. -/
structure Recorded (g : Grammar α) (s : Sentence) (c : Chart α) : Prop where
  sound : c.Sound g
  size_eq : c.size = s.size
  records : c.Fits → ∀ i j A e, c.get? i j A = some e → Records g s c.Live e.backpointer i j A

/-- A cell may be committed whose entries record rules over those of the chart and its own. -/
theorem Recorded.commit [MonotoneScore α] (h : c.Recorded g s)
    (hcell : cell.Recorded g s (cell.among c.Live) i j) (hij : i < j) (hj : j ≤ s.size) :
    (c.commit cell).Recorded g s := by
  have hj' : j ≤ c.size := h.size_eq ▸ hj
  obtain ⟨hsound, hsize⟩ := sound_commit h.sound hcell.toShaped hij hj'
  refine ⟨hsound, hsize.trans h.size_eq, fun hfits k l A e he => ?_⟩
  have hlive := live_commit h.sound hcell.toProper hij hj' hfits
  rcases get?_commit_cases h.sound hcell.toShaped hij hj' he with hold | ⟨⟨rfl, rfl⟩, hnew⟩
  · have hrecords := h.records (fits_of_fits_commit hfits) k l A e hold
    exact hrecords.mono fun k l B hB => (hlive k l B).2 (.inl hB)
  · obtain ⟨held, hheld, rfl⟩ := Scratch.get?_eq_some_iff.1 hnew
    exact (hcell.recorded A held hheld).mono fun k l B hB => (hlive k l B).2 hB

end Chart

end Constituency
