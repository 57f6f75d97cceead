import Constituency.Options
import Constituency.Proofs.Score.Whole
import Constituency.Sentence

/-!
# A chain of unary rules

The smallest grammar on which the searches and decoders part ways: one word, and two unary rules on
top of each other above it. On a grammar of pairs over the same symbols they agree.
-/

namespace Constituency

/-- The standard options over any scores. -/
def Options.plain {α : Type} (beamDelta lambda sumCutoff : α) : Options α where
  strategy := .exhaustive
  storage := .packed
  decoder := .viterbi
  semiring := .viterbi
  beamWidth := 15
  beamDelta
  overParse := 1
  lambda
  sumCutoff
  sumByTable := false
  localMaxRule := false
  segments := 1
  agendaWorkers := 1
  agendaBatch := 100

example : Options.standard = Options.plain 7 0 16 := rfl

theorem Vocabulary.find?_eq_none {v : Vocabulary} {name : String} (h : name ∉ v.names) :
    v.find? name = none := by
  rw [Option.eq_none_iff_forall_ne_some]
  intro id hid
  rw [find?_eq_some_iff, get?] at hid
  exact h (Array.mem_of_getElem? hid)

theorem Vocabulary.find?_empty (name : String) : Vocabulary.empty.find? name = none :=
  find?_eq_none (by simp [empty])

namespace Chain

/-- The sentence symbol and two more below it. -/
def nonterminals : Vocabulary :=
  ((Vocabulary.empty.push "S" (Vocabulary.find?_eq_none (by simp [Vocabulary.empty]))).push "A"
    (Vocabulary.find?_eq_none (by simp [Vocabulary.empty, Vocabulary.push]))).push "B"
    (Vocabulary.find?_eq_none (by simp [Vocabulary.empty, Vocabulary.push]))

/-- A single word. -/
def lexicon : Vocabulary :=
  Vocabulary.empty.push "b" (Vocabulary.find?_eq_none (by simp [Vocabulary.empty]))

/-- Each symbol is a category of its own. -/
def symbols : SymbolTable where
  nonterminals
  lexicon
  bases := nonterminals
  baseIndex := #[0, 1, 2]
  start := 0
  start_lt := by decide
  baseIndex_size := by decide
  baseIndex_lt := by decide

/-- Two bits for each symbol. -/
def code : ChildCode := ⟨2, by decide⟩

theorem fits : symbols.numNonterminals ≤ 1 <<< code.shift := by decide

/-- `S → A`, `A → B` and `B → b`, with the log probabilities of the three rules. -/
def grammar {α : Type} (top middle word : α) : Grammar α :=
  .ofProductions symbols code fits
    [⟨0, .unary 1, top⟩, ⟨1, .unary 2, middle⟩, ⟨2, .lexical 0, word⟩]
    (by
      have hsize : symbols.numNonterminals = 3 ∧ symbols.lexicon.size = 1 := by decide
      rw [hsize.1, hsize.2]
      simp [Production.InRange, Children.InRange])
    (by simp [Production.sameRule])

/-- The rules with whole scores. -/
def whole : Grammar (WithBot ℤ) := grammar (-1 : ℤ) (-1 : ℤ) 0

/-- The standard options with whole scores. -/
def options : Options (WithBot ℤ) := .plain (7 : ℤ) 0 (16 : ℤ)

/-- The word by itself. -/
def sentence : Sentence := ⟨["b"], [some 0], rfl⟩

/-- The grammar knows its word. -/
theorem ofWords_eq {α : Type} (g : Grammar α) (hg : g.symbols = symbols) :
    Sentence.ofWords g ["b"] = sentence := by
  have hword : g.terminal? "b" = some 0 := by
    rw [Grammar.terminal?, hg]
    exact Vocabulary.find?_eq_some_iff.2 (by decide)
  simp [Sentence.ofWords, sentence, hword]

/-! ## Pairs -/

/-- `S → A`, `A → B B`, `A → b` and `B → b`: the only unary rule stands on no other one. -/
def pairs : Grammar (WithBot ℤ) :=
  .ofProductions symbols code fits
    [⟨0, .unary 1, (-1 : ℤ)⟩, ⟨1, .binary 2 2, 0⟩, ⟨1, .lexical 0, (-1 : ℤ)⟩, ⟨2, .lexical 0, 0⟩]
    (by
      have hsize : symbols.numNonterminals = 3 ∧ symbols.lexicon.size = 1 := by decide
      rw [hsize.1, hsize.2]
      simp [Production.InRange, Children.InRange])
    (by simp [Production.sameRule])

/-- Two words. -/
def pair : Sentence := ⟨["b", "b"], [some 0, some 0], rfl⟩

theorem ofWords_pair : Sentence.ofWords pairs ["b", "b"] = pair := by
  have hword : pairs.terminal? "b" = some 0 := Vocabulary.find?_eq_some_iff.2 (by decide)
  simp [Sentence.ofWords, pair, hword]

end Chain

end Constituency
