import Constituency.Symbol.Category
import Constituency.Symbol.Vocabulary

/-!
# Symbols

The names behind the numbers that a grammar works with: non-terminals, words, and the coarse
categories that the non-terminals are splits of.
-/

namespace Constituency

/-- The position of a non-terminal, or of a coarse category, in its vocabulary. -/
abbrev NonTerminal := Nat

/-- The position of a word in the lexicon. -/
abbrev Terminal := Nat

/-- The three vocabularies of a grammar and its start symbol. -/
structure SymbolTable where
  nonterminals : Vocabulary
  lexicon : Vocabulary
  /-- The coarse categories in the order of their first splits. -/
  bases : Vocabulary
  /-- The coarse category of each non-terminal. -/
  baseIndex : Array NonTerminal
  start : NonTerminal
  start_lt : start < nonterminals.size
  baseIndex_size : baseIndex.size = nonterminals.size
  baseIndex_lt : ∀ base ∈ baseIndex, base < bases.size

namespace SymbolTable

/-- The table of two vocabularies; the coarse categories are read off the names. -/
def ofVocabularies (nonterminals lexicon : Vocabulary) (start : NonTerminal)
    (start_lt : start < nonterminals.size) : SymbolTable :=
  let bases := Vocabulary.ofList (nonterminals.toList.map baseCategory)
  { nonterminals, lexicon, bases, start, start_lt,
    baseIndex := nonterminals.names.map fun name => (bases.find? (baseCategory name)).getD 0
    baseIndex_size := by rw [Array.size_map, Vocabulary.size]
    baseIndex_lt := by
      intro base hbase
      obtain ⟨name, hname, rfl⟩ := Array.mem_map.1 hbase
      have hmem : baseCategory name ∈ nonterminals.toList.map baseCategory :=
        List.mem_map_of_mem (Array.mem_toList_iff.2 hname)
      obtain ⟨id, hid⟩ := Option.isSome_iff_exists.1 (Vocabulary.find?_ofList_isSome hmem)
      rw [hid]
      exact Vocabulary.lt_size_of_find? hid }

/-- The number of non-terminals. -/
def numNonterminals (t : SymbolTable) : Nat :=
  t.nonterminals.size

/-- The number of coarse categories. -/
def numBases (t : SymbolTable) : Nat :=
  t.bases.size

/-- The name of a non-terminal. -/
def name (t : SymbolTable) (nt : NonTerminal) : String :=
  t.nonterminals.name nt

/-- The spelling of a word. -/
def word (t : SymbolTable) (w : Terminal) : String :=
  t.lexicon.name w

/-- The name of a coarse category. -/
def baseName (t : SymbolTable) (base : NonTerminal) : String :=
  t.bases.name base

/-- The coarse category of a non-terminal. -/
def base (t : SymbolTable) (nt : NonTerminal) : NonTerminal :=
  t.baseIndex.getD nt 0

/-- The coarse category of the start symbol. -/
def baseStart (t : SymbolTable) : NonTerminal :=
  t.base t.start

/-- The non-terminal is an artefact of binarization. -/
def isFactored (t : SymbolTable) (nt : NonTerminal) : Bool :=
  isFactoredName (t.name nt)

/-- The coarse category is an artefact of binarization. -/
def isBaseFactored (t : SymbolTable) (base : NonTerminal) : Bool :=
  isFactoredName (t.baseName base)

theorem base_lt {t : SymbolTable} {nt : NonTerminal} (h : nt < t.numNonterminals) :
    t.base nt < t.numBases := by
  have hsize : nt < t.baseIndex.size := t.baseIndex_size ▸ h
  rw [base, Array.getD_eq_getD_getElem?, Array.getElem?_eq_getElem hsize]
  exact t.baseIndex_lt _ (Array.getElem_mem hsize)

end SymbolTable

end Constituency
