import Constituency.ChildCode

/-!
# Entries

A cell of a chart has at most one entry for a non-terminal: its score, and the best way found to
derive it.
-/

namespace Constituency

/-- How an entry is derived. -/
inductive Backpointer where
  /-- It yields the word of its cell. -/
  | lexical (word : Terminal)
  /-- It has another entry of its cell as its only child. -/
  | unary (child : NonTerminal)
  /-- Its children are entries of two cells that meet at the midpoint. -/
  | binary (left right : NonTerminal) (midpoint : Nat)
deriving DecidableEq

namespace Backpointer

/-- The right-hand side of the rule. -/
def children : Backpointer → Children
  | lexical word => .lexical word
  | unary child => .unary child
  | binary left right _ => .binary left right

/-- The midpoint of a cell that ends at `stop`; only two children leave a choice. -/
def midpoint (stop : Nat) : Backpointer → Nat
  | lexical _ | unary _ => stop
  | binary _ _ midpoint => midpoint

/-- The rule has a single non-terminal as its child. -/
def isUnary : Backpointer → Bool
  | unary _ => true
  | lexical _ | binary _ _ _ => false

/-- The single child of a unary rule. -/
def unaryChild? : Backpointer → Option NonTerminal
  | unary child => some child
  | lexical _ | binary _ _ _ => none

/-- The children as one integer, and the midpoint, of which thirty-two bits are kept. -/
def encode (code : ChildCode) (stop : Nat) (b : Backpointer) : Int32 × Nat :=
  (code.encode b.children, (UInt32.ofNat (b.midpoint stop)).toNat)

/-- The backpointer to some children, of which only two have a midpoint. -/
def ofChildren (midpoint : Nat) : Children → Backpointer
  | .lexical word => lexical word
  | .unary child => unary child
  | .binary left right => binary left right midpoint

/-- The backpointer behind an encoded one. -/
def decode (code : ChildCode) (packed : Int32) (midpoint : Nat) : Backpointer :=
  ofChildren midpoint (code.decode packed)

end Backpointer

/-- A non-terminal over a cell. -/
structure Entry (α : Type) where
  nonterminal : NonTerminal
  /-- The log probability of deriving the words of the cell from the non-terminal. -/
  inside : α
  backpointer : Backpointer

end Constituency
