import Constituency.Span
import Constituency.Symbol.Table

/-!
# Sets of non-terminals in machine words

A set of non-terminals for every span of a sentence. All sets stand in one array of words of 64 bits, in
which a cell has as many words as it takes to have a bit for every non-terminal.
-/

namespace Constituency

/-- The words of 64 bits that have so many bits. -/
def wordsFor (bits : Nat) : Nat :=
  (bits + 63) / 64

/-- A set of non-terminals for every span of a sentence. -/
structure CellBits where
  /-- The number of words of the sentence. -/
  size : Nat
  /-- The number of machine words that a cell has. -/
  stride : Nat
  words : Vector UInt64 (numCells size * stride)

namespace CellBits

/-- The sets without members. -/
def make (size numNonterminals : Nat) : CellBits where
  size
  stride := wordsFor numNonterminals
  words := Vector.replicate _ 0

/-- The span lies in the sentence and is not empty. -/
def covers (b : CellBits) (start stop : Nat) : Bool :=
  start < stop && stop ≤ b.size

/-- The place of a machine word of a cell. -/
def place (b : CellBits) (start stop word : Nat) : Nat :=
  cellIndex start stop b.size * b.stride + word

/-- A machine word of a cell. -/
def word (b : CellBits) (start stop word : Nat) : UInt64 :=
  b.words[b.place start stop word]?.getD 0

/-- The sets with a non-terminal entered into that of one span. -/
def insert (b : CellBits) (start stop : Nat) (nt : NonTerminal) : CellBits :=
  if b.covers start stop then
    let word := b.word start stop (nt / 64) ||| 1 <<< UInt64.ofNat (nt % 64)
    { b with words := b.words.setIfInBounds (b.place start stop (nt / 64)) word }
  else b

/-- The position of the lowest bit of a word that is set. -/
def lowest (word : UInt64) : Nat :=
  (word ^^^ (word - 1)).log2.toNat

/-- The positions of the bits of a word that are set, from the lowest one to the highest one. -/
def bitsOf (word : UInt64) : List Nat :=
  if word == 0 then [] else lowest word :: bitsOf (word &&& (word - 1))
termination_by word.toNat
decreasing_by
  next hne =>
  have hpos : 0 < word.toNat := Nat.pos_of_ne_zero fun h =>
    hne (beq_iff_eq.2 (UInt64.toNat_inj.1 h))
  have hone : (1 : UInt64) ≤ word := UInt64.le_iff_toNat_le.2 hpos
  rw [UInt64.toNat_and, UInt64.toNat_sub_of_le _ _ hone]
  exact Nat.lt_of_le_of_lt Nat.and_le_right (Nat.sub_lt hpos Nat.one_pos)

/-- The members of the set of a span, word by word. -/
def members (b : CellBits) (start stop : Nat) : List NonTerminal :=
  if b.covers start stop then
    (List.range b.stride).flatMap fun word =>
      (bitsOf (b.word start stop word)).map (word * 64 + ·)
  else []

end CellBits

end Constituency
