import Constituency.Proofs.Grammar.Printed
import Constituency.Proofs.Grammar.Spelling

/-!
# Grammars that are read again

The text of a grammar that was read is read as the same grammar: the same symbols with the same numbers, and
the same productions in the same order, with the log probabilities that are read again for those that were
written (`Grammar.read_text`).
-/

namespace Constituency

open WrittenRule

namespace WrittenRule

variable {rules : List (WrittenRule Float32)} {first : WrittenRule Float32} {g : Grammar Float32}

/-- The grammar of some rules is built from their binary form. -/
theorem exists_builder (h : Grammar.ofRules rules = .ok g) : ∃ first, rules.head? = some first ∧
    ((binaryRules rules).foldl GrammarBuilder.add (GrammarBuilder.new first.parent)).build = .ok g := by
  rw [ofRules_eq_assemble, assemble] at h
  split at h
  · cases h
  · cases h
  · next first hfirst _ => exact ⟨first, hfirst, h⟩

/-- The first rule in binary form is the beginning of the first rule. -/
theorem head?_binaryRules (hfirst : rules.head? = some first) (hne : first.children ≠ []) :
    (binaryRules rules).head?.map (·.parent) = some first.parent := by
  cases rules with
  | nil => cases hfirst
  | cons r rest =>
    obtain rfl := Option.some.inj hfirst
    obtain ⟨children, htop⟩ := exists_top hne (wordTest (r :: rest))
    rw [binaryRules, List.flatMap_cons, steps, htop]
    rfl

end WrittenRule

namespace Layout

variable {rules : List (NamedRule Float32)} {b : GrammarBuilder Float32} {g : Grammar Float32}
  {start : String}

/-- If the symbols of some rules can be written, the text of their grammar lays out the productions. -/
theorem exists_layout_build (hb : b = rules.foldl GrammarBuilder.add (.new start))
    (hbuild : b.build = .ok g) (hstart : Writable start)
    (hnames : ∀ s ∈ rules, ∀ name ∈ s.names, Writable name)
    (hle : ∀ p ∈ g.productions, p.logProb ≤ 0) :
    ∃ l : Layout, String.ofList l.text = g.text ∧ l.rules = NamedRule.writtenFrom 4
      (b.productions.map fun p => (p.named b.nonterminals b.lexicon).map Decimal.reread) := by
  obtain ⟨-, hnonterminals, hlexicon, hproductions⟩ := GrammarBuilder.of_build hbuild
  rw [← hnonterminals, ← hlexicon, ← hproductions]
  refine exists_layout_text ?_ fun p hp => ⟨?_, hle p hp⟩
  · rw [hnonterminals]
    exact GrammarBuilder.forall_nonterminals hb hstart hnames
  · rw [hnonterminals, hlexicon]
    exact GrammarBuilder.forall_names_productions hb hnames p (hproductions ▸ hp)

end Layout

namespace Grammar

variable {text : String} {rules : List (WrittenRule Float32)} {g : Grammar Float32}

/-- The text of a grammar that was read from rules is read as a grammar with the same symbols, under the
same numbers, and with the same productions in the same order. Each log probability is the number that was
written for it, which is at most zero. No symbol behind an arrow of the rules may look as if binarization
had made it up. -/
theorem read_text (hread : readAll text = .ok rules) (hg : Grammar.read text = .ok g)
    (hunmarked : ∀ r ∈ rules, ∀ name ∈ r.children, isFactoredName name = false) :
    (∀ p ∈ g.productions, Text.number? (Decimal.ofScore p.logProb).toList =
      some (Decimal.reread p.logProb) ∧ Decimal.reread p.logProb ≤ 0) ∧
    ∃ g', Grammar.read g.text = .ok g' ∧ g'.symbols = g.symbols ∧
      g'.productions = g.productions.map (·.map Decimal.reread) := by
  have hrules : Grammar.ofRules rules = .ok g := by
    rw [Grammar.read, hread] at hg
    exact hg
  obtain ⟨first, hfirst, hbuild⟩ := exists_builder hrules
  generalize hb : (binaryRules rules).foldl GrammarBuilder.add (GrammarBuilder.new first.parent) = b
    at hbuild
  replace hb := hb.symm
  have hmem : first ∈ rules := List.mem_of_mem_head? (Option.mem_def.2 hfirst)
  have hne : ∀ r ∈ rules, r.children ≠ [] := fun r => children_ne_nil_of_readAll hread
  have hspelled : ∀ r ∈ rules, ∀ name ∈ r.parent :: r.children, Layout.Writable name :=
    fun r => writable_of_readAll hread
  have hle : ∀ p ∈ g.productions, p.logProb ≤ 0 :=
    forall_assemble (P := (· ≤ 0)) (by decide) (fun r => le_zero_of_readAll hread)
      ((ofRules_eq_assemble rules).symm.trans hrules)
  refine ⟨fun p hp => Decimal.number?_ofScore (hle p hp), ?_⟩
  -- the text lays out the productions, which are closed
  obtain ⟨l, hl, hlrules⟩ := Layout.exists_layout_build hb hbuild
    (hspelled first hmem _ List.mem_cons_self) (writable_binaryRules hspelled) hle
  have hclosed := GrammarBuilder.closed_productions hb
    (closed_binaryRules hne (holds_of_ofRules hrules).2 hunmarked) Decimal.reread
  have hstart := (GrammarBuilder.head?_parent_productions hb Decimal.reread).trans
    (head?_binaryRules hfirst (hne first hmem))
  have hagain : Grammar.read g.text = assemble l.rules := by
    rw [← hl, Grammar.read, l.readAll, ← ofRules_eq_assemble]
    rfl
  -- a builder that takes them makes the same of them again
  obtain ⟨hnonterminals, hlexicon, hproductions⟩ := GrammarBuilder.retake hb Decimal.reread rfl
  obtain ⟨g', hg', hsymbols, -, hsame⟩ :=
    GrammarBuilder.build_map hbuild hnonterminals hlexicon hproductions
  refine ⟨g', ?_, hsymbols, hsame⟩
  rw [hagain, hlrules, hclosed.assemble_writtenFrom 4 hstart]
  exact hg'

end Grammar

namespace Layout

theorem writable_sentence : Writable "S" := by decide

theorem writable_noun : Writable "N" := by decide

theorem writable_word : Writable "a" := by decide

/-- A rule with three children, and a word that is given twice. -/
def threeNouns : Layout :=
  let sentence := Name.of "S" writable_sentence
  let noun := Name.of "N" writable_noun
  let word := Name.of "a" writable_word
  let chance := some (Break.single.toGap, minusOne)
  { ended := [
      Line.ofRule ⟨sentence, Break.single, Break.single.toGap, noun,
        [(Break.single, noun), (Break.single, noun)], chance⟩,
      Line.ofRule ⟨noun, Break.single, Break.single.toGap, word, [], chance⟩]
    last := Line.ofRule ⟨noun, Break.single, Break.single.toGap, word, [], none⟩ }

theorem threeNouns_read_text :
    String.ofList threeNouns.text = "S -> N N N [log=-1]\nN -> a [log=-1]\nN -> a" ∧
    ∃ rules g, WrittenRule.readAll (String.ofList threeNouns.text) = .ok rules ∧
      Grammar.read (String.ofList threeNouns.text) = .ok g ∧
      (∀ r ∈ rules, ∀ name ∈ r.children, isFactoredName name = false) ∧
      (∀ p ∈ g.productions, Text.number? (Decimal.ofScore p.logProb).toList =
        some (Decimal.reread p.logProb) ∧ Decimal.reread p.logProb ≤ 0) ∧
      ∃ g', Grammar.read g.text = .ok g' ∧ g'.symbols = g.symbols ∧
        g'.productions = g.productions.map (·.map Decimal.reread) := by
  have hlegible : Legible threeNouns.rules :=
    ⟨by decide, by decide, by decide, apart_of_free (by decide) (by decide)⟩
  obtain ⟨g, hg⟩ := Grammar.exists_ofRules hlegible (by decide) (by decide +kernel)
  have hread := threeNouns.readAll
  have hok : Grammar.read (String.ofList threeNouns.text) = .ok g := by
    rw [Grammar.read, hread]
    exact hg
  have hunmarked : ∀ r ∈ threeNouns.rules, ∀ name ∈ r.children, isFactoredName name = false := by
    decide
  exact ⟨by decide, _, g, hread, hok, hunmarked, Grammar.read_text hread hok hunmarked⟩

end Layout

end Constituency
