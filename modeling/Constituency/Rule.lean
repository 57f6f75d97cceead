import Constituency.Score.Basic
import Constituency.Symbol.Table

/-!
# Rules

A grammar in binary form has three kinds of rules, told apart by what they expand a non-terminal
to: two non-terminals, one non-terminal, or a word.
-/

namespace Constituency

/-- The right-hand side of a rule. -/
inductive Children where
  | binary (left right : NonTerminal)
  | unary (child : NonTerminal)
  | lexical (word : Terminal)
deriving DecidableEq

/-- The symbols of a right-hand side lie in vocabularies of these sizes. -/
def Children.InRange (numNonterminals numWords : Nat) : Children → Prop
  | .binary left right => left < numNonterminals ∧ right < numNonterminals
  | .unary child => child < numNonterminals
  | .lexical word => word < numWords

instance (m k : Nat) : (c : Children) → Decidable (c.InRange m k)
  | .binary left right => inferInstanceAs (Decidable (left < m ∧ right < m))
  | .unary child => inferInstanceAs (Decidable (child < m))
  | .lexical word => inferInstanceAs (Decidable (word < k))

theorem Children.InRange.mono {m n k l : Nat} {c : Children} (h : c.InRange m k) (hmn : m ≤ n)
    (hkl : k ≤ l) : c.InRange n l := by
  cases c with
  | binary left right => exact ⟨Nat.lt_of_lt_of_le h.1 hmn, Nat.lt_of_lt_of_le h.2 hmn⟩
  | unary child => exact Nat.lt_of_lt_of_le h hmn
  | lexical word => exact Nat.lt_of_lt_of_le h hkl

/-- A rule with its log probability. -/
structure Production (α : Type) where
  parent : NonTerminal
  children : Children
  logProb : α

namespace Production

variable {α : Type}

/-- The two productions are the same rule, whatever their probabilities. -/
def sameRule (p q : Production α) : Bool :=
  p.parent == q.parent && p.children == q.children

theorem sameRule_iff {p q : Production α} :
    p.sameRule q = true ↔ p.parent = q.parent ∧ p.children = q.children := by
  simp [sameRule]

/-- The symbols of a rule lie in vocabularies of these sizes. -/
def InRange (numNonterminals numWords : Nat) (p : Production α) : Prop :=
  p.parent < numNonterminals ∧ p.children.InRange numNonterminals numWords

instance (m k : Nat) (p : Production α) : Decidable (p.InRange m k) :=
  inferInstanceAs (Decidable (p.parent < m ∧ p.children.InRange m k))

theorem InRange.mono {m n k l : Nat} {p : Production α} (h : p.InRange m k) (hmn : m ≤ n)
    (hkl : k ≤ l) : p.InRange n l :=
  ⟨Nat.lt_of_lt_of_le h.1 hmn, h.2.mono hmn hkl⟩

end Production

end Constituency
