import Constituency.Proofs.Decode.Unsplit
import Constituency.Proofs.Score.LogSum

/-!
# A cascade of additions

A grammar in which a small difference at the bottom is a difference between a possible score and an impossible
one at the top. Each rule adds to the score of its child the number just above some `-2 ^ n`, so that the sum is
half way between that number and `-2 ^ n` if the score is `-2 ^ (n - 25)`, and is rounded to the former if
the score is any higher. The last addition is to the least finite number.

It begins with a symbol that has three derivations of a word. Sums of logarithms with a cutoff depend on
the order in which these come, and the best one is below any sum.
-/

namespace Constituency

namespace Binary32

/-- Scores in single precision that have steps for elementary functions. -/
def Stepped : Type := Float32

instance : Score Stepped := Elementary.steps.score

end Binary32

namespace Cascade

open Binary32 (Stepped)

/-- A symbol for each addition, and two for the other derivations. -/
def symbols : SymbolTable :=
  .ofNames "S" ["A", "B", "C", "D", "E", "F", "G"] (by decide) Chain.lexicon

/-- A score with a bit pattern. -/
def ofBits (pattern : UInt32) : Stepped := Float32.ofBits pattern

/-- `S → A F`, `A → B` and `B → C G`, with `F → b` and `G → b`, and `C → b`, `C → D` and `C → E` with `D → b`
and `E → b`. The log probabilities of the latter words are `-8.5`, `-8.5` and `-8`. -/
def grammar : Grammar Stepped :=
  .ofProductions symbols ⟨3, by decide⟩ (by decide)
    [⟨0, .binary 1 6, ofBits 0xF2FFFFFF⟩, ⟨1, .unary 2, ofBits 0xE67FFFFF⟩,
      ⟨2, .binary 3 7, ofBits 0xCD7FFFFF⟩, ⟨3, .lexical 0, ofBits 0xC1080000⟩, ⟨3, .unary 4, 0⟩,
      ⟨3, .unary 5, 0⟩, ⟨4, .lexical 0, ofBits 0xC1080000⟩, ⟨5, .lexical 0, ofBits 0xC1000000⟩,
      ⟨6, .lexical 0, ofBits 0xFF7FFFFF⟩, ⟨7, .lexical 0, ofBits 0xD9FFFFFF⟩]
    (by
      have hsize : Chain.lexicon.size = 1 := by decide
      show ∀ p ∈ _, Production.InRange 8 Chain.lexicon.size p
      rw [hsize]
      simp [Production.InRange, Children.InRange])
    (by simp [Production.sameRule])

/-- A parser that sums while it searches, with a cutoff of a quarter. -/
def parser (decoder : Decoder) : Parser Stepped where
  grammar
  options := { Options.plain (ofBits 0x40E00000) 0 (ofBits 0x3E800000) with semiring := .sum, decoder }
  merit := .inside

/-- Three words. -/
def sentence : Sentence := ⟨.replicate 3 "b", .replicate 3 (some 0), by simp⟩

theorem ofWords_eq : Sentence.ofWords grammar ["b", "b", "b"] = sentence := by
  have hword : grammar.terminal? "b" = some 0 := Vocabulary.find?_eq_some_iff.2 (by decide)
  simp [Sentence.ofWords, sentence, hword, List.replicate]

theorem nonpos : ∀ r ∈ grammar.productions, r.logProb ≤ 0 := by decide +kernel

end Cascade

end Constituency
