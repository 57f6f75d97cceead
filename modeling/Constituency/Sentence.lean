import Constituency.Grammar.Basic

/-!
# Sentences

The words of an input, looked up in the lexicon of a grammar.
-/

namespace Constituency

/-- Words with their numbers. A word that the grammar does not know has none. -/
structure Sentence where
  words : List String
  terminals : List (Option Terminal)
  terminals_length : terminals.length = words.length

namespace Sentence

/-- The sentence of some words. -/
def ofWords {α : Type} (g : Grammar α) (words : List String) : Sentence where
  words
  terminals := words.map g.terminal?
  terminals_length := List.length_map _

/-- The number of words. -/
def size (s : Sentence) : Nat := s.words.length

/-- The number of the word at a position. -/
def terminal? (s : Sentence) (position : Nat) : Option Terminal :=
  s.terminals[position]?.join

theorem lt_size_of_terminal? {s : Sentence} {position : Nat} {word : Terminal}
    (h : s.terminal? position = some word) : position < s.size := by
  rw [terminal?, Option.join_eq_some_iff] at h
  obtain ⟨hlt, -⟩ := List.getElem?_eq_some_iff.1 h
  rwa [size, ← s.terminals_length]

end Sentence

end Constituency
