import Constituency.Proofs.Search.Agreement

/-!
# The backpointers of a searched chart

In the chart that a search returns, every entry of a cell records a rule of the grammar over the word of
the cell or over entries of the chart (`Intact`), whatever has been cut off or overwritten meanwhile. A
search for the best derivations by rules that are no gain leaves no entry with a score above what its rule
makes of the present scores of its children (`Bounded`).
-/

namespace Constituency

namespace Chart

variable {α : Type} [Score α] {g : Grammar α} {s : Sentence} {c : Chart α}

/-- Every entry of a cell records a rule over entries of the chart. -/
def Intact (g : Grammar α) (s : Sentence) (c : Chart α) : Prop :=
  ∀ i j, ∀ e ∈ c.entries i j, Records g s c.Live e.backpointer i j e.nonterminal

/-- Every entry of a cell has at most the score that its rule and the present scores of its children
make. -/
def Bounded (g : Grammar α) (s : Sentence) (c : Chart α) : Prop :=
  ∀ i j, ∀ e ∈ c.entries i j,
    ∃ x, Application g s c.inside e.backpointer i j e.nonterminal x ∧ e.inside ≤ x

theorem Upheld.intact (h : c.Upheld g s) (hfits : c.Fits) : c.Intact g s :=
  fun i j e he => h.records hfits i j e.nonterminal e ((mem_entries h.sound).1 he)

theorem Linked.bounded (h : c.Linked g s (· ≤ ·)) : c.Bounded g s :=
  fun i j e he => h.made i j e.nonterminal e ((mem_entries h.sound).1 he)

end Chart

theorem Agenda.Held.intact {α : Type} [Score α] {g : Grammar α} {s : Sentence} {c : SlotChart α}
    (h : Agenda.Held g s c) : (Chart.slots c).Intact g s :=
  fun i j e he => h.records i j e.nonterminal e ((Chart.mem_entries h.upheld.sound).1 he)

namespace Parser

variable {α : Type} [Score α] [MonotoneScore α]

end Parser

end Constituency
