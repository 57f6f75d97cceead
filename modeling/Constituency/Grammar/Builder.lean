import Constituency.Grammar.Basic
import Constituency.Grammar.Error

/-!
# Building grammars

A builder takes rules one by one, numbers their symbols in the order of first mention, and keeps
the highest probability of a rule that is given more than once.
-/

namespace Constituency

/-- The list with a production added at its end. If it has the rule already, the higher probability
is kept in its place. -/
def Production.insert {α : Type} [Score α] (p : Production α) (productions : List (Production α)) :
    List (Production α) :=
  if productions.any (·.sameRule p) then
    productions.map fun q =>
      if q.sameRule p then { q with logProb := Score.best q.logProb p.logProb } else q
  else productions ++ [p]

/-- The symbols and rules gathered so far. -/
structure GrammarBuilder (α : Type) where
  /-- The name of the start symbol, which is the first non-terminal. -/
  start : String
  nonterminals : Vocabulary
  lexicon : Vocabulary
  productions : List (Production α)
  /-- There is a start symbol. -/
  nonempty : 0 < nonterminals.size
  inRange : ∀ p ∈ productions, p.InRange nonterminals.size lexicon.size
  distinct : productions.Pairwise fun p q => p.sameRule q = false

namespace GrammarBuilder

variable {α : Type}

/-! ## Symbols -/

/-- A builder without rules. -/
def new (start : String) : GrammarBuilder α where
  start
  nonterminals := (Vocabulary.empty.intern start).2
  lexicon := Vocabulary.empty
  productions := []
  nonempty := Nat.lt_of_le_of_lt (Nat.zero_le _) (Vocabulary.intern_lt _ _)
  inRange := by simp
  distinct := .nil

/-- The number of a non-terminal, which is added if it is new. -/
def nonterminal (b : GrammarBuilder α) (name : String) : NonTerminal × GrammarBuilder α :=
  let interned := b.nonterminals.intern name
  have larger : b.nonterminals.size ≤ interned.2.size := b.nonterminals.size_le_intern name
  (interned.1,
    { b with
      nonterminals := interned.2
      nonempty := Nat.lt_of_lt_of_le b.nonempty larger
      inRange := fun p hp => (b.inRange p hp).mono larger (Nat.le_refl _) })

/-- The number of a word, which is added if it is new. -/
def terminal (b : GrammarBuilder α) (word : String) : Terminal × GrammarBuilder α :=
  let interned := b.lexicon.intern word
  (interned.1,
    { b with
      lexicon := interned.2
      inRange := fun p hp =>
        (b.inRange p hp).mono (Nat.le_refl _) (b.lexicon.size_le_intern word) })

theorem nonterminal_lt (b : GrammarBuilder α) (name : String) :
    (b.nonterminal name).1 < (b.nonterminal name).2.nonterminals.size :=
  Vocabulary.intern_lt _ _

theorem size_le_nonterminal (b : GrammarBuilder α) (name : String) :
    b.nonterminals.size ≤ (b.nonterminal name).2.nonterminals.size :=
  Vocabulary.size_le_intern _ _

theorem terminal_lt (b : GrammarBuilder α) (word : String) :
    (b.terminal word).1 < (b.terminal word).2.lexicon.size :=
  Vocabulary.intern_lt _ _

/-! ## Rules -/

variable [Score α]

theorem inRange_insert {m n : Nat} {p : Production α} {productions : List (Production α)}
    (hp : p.InRange m n) (h : ∀ q ∈ productions, q.InRange m n) :
    ∀ q ∈ p.insert productions, q.InRange m n := by
  intro q hq
  unfold Production.insert at hq
  split at hq
  · obtain ⟨r, hr, rfl⟩ := List.mem_map.1 hq
    split
    · exact h r hr
    · exact h r hr
  · rcases List.mem_append.1 hq with hq | hq
    · exact h q hq
    · exact List.mem_singleton.1 hq ▸ hp

theorem distinct_insert {p : Production α} {productions : List (Production α)}
    (h : productions.Pairwise fun p q => p.sameRule q = false) :
    (p.insert productions).Pairwise fun p q => p.sameRule q = false := by
  unfold Production.insert
  split
  · -- only probabilities change, and they are no part of a rule
    rw [List.pairwise_map]
    refine h.imp fun {q r} hqr => ?_
    rw [← hqr]
    by_cases hq : q.sameRule p <;> by_cases hr : r.sameRule p <;> simp only [hq, hr] <;> rfl
  · next hnone =>
    rw [List.pairwise_append]
    refine ⟨h, List.pairwise_singleton _ _, fun q hq r hr => ?_⟩
    rw [List.mem_singleton.1 hr]
    simp only [List.any_eq_true, not_exists, not_and, Bool.not_eq_true] at hnone
    exact hnone q hq

/-- Adds a production over numbered symbols. -/
def push (b : GrammarBuilder α) (p : Production α)
    (h : p.InRange b.nonterminals.size b.lexicon.size) : GrammarBuilder α :=
  { b with
    productions := p.insert b.productions
    inRange := inRange_insert h b.inRange
    distinct := distinct_insert b.distinct }

/-- Adds a rule with two children. -/
def binary (b : GrammarBuilder α) (parent left right : String) (logProb : α) :
    GrammarBuilder α :=
  let x := b.nonterminal parent
  let y := x.2.nonterminal left
  let z := y.2.nonterminal right
  have hy : y.2.nonterminals.size ≤ z.2.nonterminals.size := y.2.size_le_nonterminal right
  have hx : x.2.nonterminals.size ≤ z.2.nonterminals.size :=
    Nat.le_trans (x.2.size_le_nonterminal left) hy
  z.2.push ⟨x.1, .binary y.1 z.1, logProb⟩
    ⟨Nat.lt_of_lt_of_le (b.nonterminal_lt parent) hx,
      Nat.lt_of_lt_of_le (x.2.nonterminal_lt left) hy, y.2.nonterminal_lt right⟩

/-- Adds a rule with one non-terminal child. -/
def unary (b : GrammarBuilder α) (parent child : String) (logProb : α) : GrammarBuilder α :=
  let x := b.nonterminal parent
  let y := x.2.nonterminal child
  y.2.push ⟨x.1, .unary y.1, logProb⟩
    ⟨Nat.lt_of_lt_of_le (b.nonterminal_lt parent) (x.2.size_le_nonterminal child),
      x.2.nonterminal_lt child⟩

/-- Adds a rule that yields a word. -/
def lexical (b : GrammarBuilder α) (parent word : String) (logProb : α) : GrammarBuilder α :=
  let x := b.nonterminal parent
  let w := x.2.terminal word
  w.2.push ⟨x.1, .lexical w.1, logProb⟩ ⟨b.nonterminal_lt parent, x.2.terminal_lt word⟩

/-- The grammar of the rules, provided there are some, the start symbol has one, and the
non-terminals are not too many. -/
def build (b : GrammarBuilder α) : Except GrammarError (Grammar α) :=
  if b.productions.isEmpty then .error .empty
  else if b.productions.all (·.parent != 0) then .error (.unknownStart b.start)
  else
    match h : ChildCode.forSymbols? b.nonterminals.size with
    | none => .error (.tooManySymbols b.nonterminals.size)
    | some code =>
      let symbols := SymbolTable.ofVocabularies b.nonterminals b.lexicon 0 b.nonempty
      .ok (Grammar.ofProductions symbols code (ChildCode.le_of_forSymbols? h) b.productions
        b.inRange b.distinct)

end GrammarBuilder

end Constituency
