import Constituency.Proofs.Search.Within

/-!
# Rules behind backpointers

Every backpointer that a search leaves, in its chart or in its merit table, names a rule of the grammar,
and a lexical one names the word of its span. Entries and derivations by merit are overwritten at will, but
always by what some rule makes. This says nothing of scores, and so it holds of any numbers, rounded or
not, and of charts whose arena has run out of numbers.
-/

namespace Constituency

variable {α : Type} [Score α] {g : Grammar α} {s : Sentence} {i j : Nat}

/-- A rule of the grammar leads from the symbol to what the backpointer names, and if that is a word, it is
the only word of the span. -/
structure Backpointer.Named (g : Grammar α) (s : Sentence) (i j : Nat) (A : NonTerminal)
    (b : Backpointer) : Prop where
  rule : ∃ p ∈ g.productions, p.parent = A ∧ p.children = b.children
  word : ∀ w, b = .lexical w → j = i + 1 ∧ s.terminal? i = some w

/-- What a rule makes names the rule. -/
theorem Backpointer.ruleClosed_named (g : Grammar α) (s : Sentence) :
    RuleClosed g s (fun _ _ _ => True) fun i j A b => b.Named g s i j A where
  word hp hpc hw _ := ⟨⟨_, hp, rfl, hpc⟩, fun _ heq => Backpointer.lexical.inj heq ▸ ⟨rfl, hw⟩⟩
  unary hp hpc _ := ⟨⟨_, hp, rfl, hpc⟩, fun _ heq => by cases heq⟩
  binary hp hpc _ _ := ⟨⟨_, hp, rfl, hpc⟩, fun _ heq => by cases heq⟩
  reached _ := trivial
  empty _ := trivial

/-- A sound chart for a sentence whose backpointers name rules. -/
structure Chart.Named (g : Grammar α) (s : Sentence) (c : Chart α) : Prop where
  sound : c.Sound g
  size_eq : c.size = s.size
  named : ∀ i j A e, c.get? i j A = some e → e.backpointer.Named g s i j A

/-- A merit table for a sentence whose backpointers name rules. -/
structure MeritTable.Named (g : Grammar α) (s : Sentence) (t : MeritTable α) : Prop where
  size_eq : t.cells.size = s.size
  named : ∀ i j A b, t.backpointer? i j A = some b → b.Named g s i j A

/-- All backpointers of a searched chart, and of the merit table beside it, name rules. -/
theorem Parser.search_named (p : Parser α) (s : Sentence) :
    (p.search s).chart.Named p.grammar s ∧
      ∀ table, (p.search s).meritTable = some table → table.Named p.grammar s := by
  obtain ⟨hchart, htable⟩ := p.search_within s (Backpointer.ruleClosed_named p.grammar s)
  exact ⟨⟨hchart.sound, hchart.size_eq, hchart.within⟩, fun table heq =>
    ⟨(htable table heq).size_eq, (htable table heq).within⟩⟩

/-! ## Where words are derived -/

/-- What stands for a word is one word wide. -/
def Backpointer.WordWide (start stop : Nat) : Backpointer → Prop
  | .lexical _ => stop = start + 1
  | .unary _ | .binary _ _ _ => True

omit [Score α] in
/-- No search derives a word over a span of more than one word. -/
theorem Backpointer.Named.wordWide {A : NonTerminal} {b : Backpointer} (h : b.Named g s i j A) :
    b.WordWide i j := by
  cases b with
  | lexical w => exact (h.word w rfl).1
  | unary | binary => trivial

end Constituency
