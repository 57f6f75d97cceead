import Constituency.Grammar.Index

/-!
# Grammars

A probabilistic grammar in binary form, with its rules listed once in order and filed under the
symbols that a search asks for.
-/

namespace Constituency

/-- A probabilistic context-free grammar in binary form. -/
structure Grammar (α : Type) where
  symbols : SymbolTable
  code : ChildCode
  /-- The non-terminals can be told apart by their codes. -/
  fits : symbols.numNonterminals ≤ 1 <<< code.shift
  /-- The rules in order of insertion. -/
  productions : List (Production α)
  index : ProductionIndex α
  /-- The index files the productions of the grammar. -/
  index_eq : index = ProductionIndex.ofProductions symbols code productions
  /-- The rules speak of symbols of the grammar. -/
  inRange : ∀ p ∈ productions, p.InRange symbols.numNonterminals symbols.lexicon.size
  /-- No rule is listed twice. -/
  distinct : productions.Pairwise fun p q => p.sameRule q = false

namespace Grammar

variable {α : Type}

/-- The grammar of a list of productions. -/
def ofProductions (symbols : SymbolTable) (code : ChildCode)
    (fits : symbols.numNonterminals ≤ 1 <<< code.shift) (productions : List (Production α))
    (inRange : ∀ p ∈ productions, p.InRange symbols.numNonterminals symbols.lexicon.size)
    (distinct : productions.Pairwise fun p q => p.sameRule q = false) : Grammar α where
  symbols
  code
  fits
  productions
  index := ProductionIndex.ofProductions symbols code productions
  index_eq := rfl
  inRange
  distinct

/-- The number of non-terminals. -/
def numNonterminals (g : Grammar α) : Nat := g.symbols.numNonterminals

/-- The symbol that a whole sentence derives from. -/
def start (g : Grammar α) : NonTerminal := g.symbols.start

/-- What each non-terminal can be in a derivation. -/
def classes (g : Grammar α) : SymbolClasses := g.index.classes

/-- The number of a word, if the grammar knows it. -/
def terminal? (g : Grammar α) (word : String) : Option Terminal := g.symbols.lexicon.find? word

/-- The binary productions with this left child. -/
def byLeftChild (g : Grammar α) (nt : NonTerminal) : List (Production α) :=
  g.index.byLeftChild.getD nt []

/-- The binary productions with this right child. -/
def byRightChild (g : Grammar α) (nt : NonTerminal) : List (Production α) :=
  g.index.byRightChild.getD nt []

/-- The binary productions with these two children. Codes tell pairs of symbols of the grammar apart,
and no other pair is looked up. -/
def byChildPair (g : Grammar α) (left right : NonTerminal) : List (Production α) :=
  if left < g.numNonterminals ∧ right < g.numNonterminals then
    g.index.byChildPair.getD (g.code.ofPair left right) []
  else []

/-- The unary productions over this child. -/
def byUnaryChild (g : Grammar α) (nt : NonTerminal) : List (Production α) :=
  g.index.byUnaryChild.getD nt []

/-- The productions that yield this word. -/
def byWord (g : Grammar α) (word : Terminal) : List (Production α) :=
  g.index.byWord.getD word []

/-- The non-terminals that yield some word by a rule, in order. -/
def posSymbols (g : Grammar α) : List NonTerminal :=
  (List.range g.numNonterminals).filter g.classes.isPos

/-- The log probability of a rule, `impossible` if the grammar does not have it. -/
def logProb [Score α] (g : Grammar α) (parent : NonTerminal) : Children → α
  | .binary left right =>
    g.index.binaryLogProbs.getD (parent, g.code.ofPair left right) Score.impossible
  | .unary child => g.index.unaryLogProbs.getD (parent, child) Score.impossible
  | .lexical word => g.index.lexicalLogProbs.getD (parent, word) Score.impossible

end Grammar

end Constituency
