import Constituency.ChildCode
import Std.Data.TreeMap

/-!
# Productions filed by symbol

The productions of a grammar are filed one by one under the symbols that a search asks for, pairs
of children under their codes. Each file keeps the order of the grammar.
-/

namespace Constituency

/-- What each non-terminal can be in a derivation. -/
structure SymbolClasses where
  /-- Left child of a binary rule. -/
  left : Array Bool
  /-- Right child of a binary rule. -/
  right : Array Bool
  /-- Part of speech: parent of a lexical rule. -/
  pos : Array Bool
  /-- Artefact of binarization. -/
  factored : Array Bool

namespace SymbolClasses

/-- The number of non-terminals. -/
def size (c : SymbolClasses) : Nat := c.left.size

/-- The non-terminal is the left child of some rule. -/
def isLeft (c : SymbolClasses) (nt : NonTerminal) : Bool := c.left.getD nt false

/-- The non-terminal is the right child of some rule. -/
def isRight (c : SymbolClasses) (nt : NonTerminal) : Bool := c.right.getD nt false

/-- The non-terminal is a part of speech. -/
def isPos (c : SymbolClasses) (nt : NonTerminal) : Bool := c.pos.getD nt false

/-- The non-terminal is an artefact of binarization. -/
def isFactored (c : SymbolClasses) (nt : NonTerminal) : Bool := c.factored.getD nt false

end SymbolClasses

/-- Rules are ordered by their parents, those of one parent by their children. -/
def compareRules {κ : Type} [Ord κ] : NonTerminal × κ → NonTerminal × κ → Ordering :=
  compareLex (compareOn (·.1)) (compareOn (·.2))

/-- The log probabilities of the rules of one kind, by parent and children. -/
abbrev LogProbTable (κ α : Type) [Ord κ] : Type := Std.TreeMap (NonTerminal × κ) α compareRules

/-- Productions filed by symbol, each file in the order of the grammar. -/
structure ProductionIndex (α : Type) where
  /-- Binary productions under the codes of their children. -/
  byChildPair : Std.TreeMap Int32 (List (Production α))
  byLeftChild : Array (List (Production α))
  byRightChild : Array (List (Production α))
  byUnaryChild : Array (List (Production α))
  byWord : Array (List (Production α))
  /-- The children are given by their code. -/
  binaryLogProbs : LogProbTable Int32 α
  unaryLogProbs : LogProbTable NonTerminal α
  lexicalLogProbs : LogProbTable Terminal α
  classes : SymbolClasses

namespace ProductionIndex

variable {α : Type}

/-- An index without productions. -/
def empty (symbols : SymbolTable) : ProductionIndex α :=
  let count := symbols.numNonterminals
  { byChildPair := ∅
    byLeftChild := .replicate count []
    byRightChild := .replicate count []
    byUnaryChild := .replicate count []
    byWord := .replicate symbols.lexicon.size []
    binaryLogProbs := ∅
    unaryLogProbs := ∅
    lexicalLogProbs := ∅
    classes :=
      { left := .replicate count false
        right := .replicate count false
        pos := .replicate count false
        factored := Array.ofFn fun nt : Fin count => symbols.isFactored nt } }

/-- The index with one more production. -/
def add (code : ChildCode) (index : ProductionIndex α) (p : Production α) : ProductionIndex α :=
  match p.children with
  | .binary left right =>
    let packed := code.ofPair left right
    { index with
      byChildPair := index.byChildPair.insert packed (index.byChildPair.getD packed [] ++ [p])
      byLeftChild := index.byLeftChild.modify left (· ++ [p])
      byRightChild := index.byRightChild.modify right (· ++ [p])
      binaryLogProbs := index.binaryLogProbs.insert (p.parent, packed) p.logProb
      classes :=
        { index.classes with
          left := index.classes.left.setIfInBounds left true
          right := index.classes.right.setIfInBounds right true } }
  | .unary child =>
    { index with
      byUnaryChild := index.byUnaryChild.modify child (· ++ [p])
      unaryLogProbs := index.unaryLogProbs.insert (p.parent, child) p.logProb }
  | .lexical word =>
    { index with
      byWord := index.byWord.modify word (· ++ [p])
      lexicalLogProbs := index.lexicalLogProbs.insert (p.parent, word) p.logProb
      classes :=
        { index.classes with pos := index.classes.pos.setIfInBounds p.parent true } }

/-- The index of a list of productions. -/
def ofProductions (symbols : SymbolTable) (code : ChildCode) (productions : List (Production α)) :
    ProductionIndex α :=
  productions.foldl (add code) (empty symbols)

end ProductionIndex

end Constituency
