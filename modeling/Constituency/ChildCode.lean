import Constituency.Rule

/-!
# Child codes

The children of a rule fit into one 32-bit integer. A pair of non-terminals becomes a non-negative
number, the left child above `shift` bits that hold the right one; a single child becomes a
negative odd number and a word a negative even one.
-/

namespace Constituency

/-- A code for the children of rules over a bounded number of non-terminals. -/
structure ChildCode where
  /-- The number of bits that hold a non-terminal. -/
  shift : Nat
  shift_le : shift ≤ 15

namespace ChildCode

/-- The largest number of bits that a non-terminal may take. -/
def maxShift : Nat := 15

/-- The largest number of non-terminals that can be told apart. -/
def capacity : Nat := 1 <<< maxShift

/-- The least number of bits, and at least one, that holds `count` non-terminals. -/
def shiftFor (count : Nat) : Nat :=
  if count ≤ 2 then 1 else (count - 1).log2 + 1

/-- The code for `count` non-terminals, if they are not too many. -/
def forSymbols? (count : Nat) : Option ChildCode :=
  if h : shiftFor count ≤ maxShift then some ⟨shiftFor count, h⟩ else none

theorem le_shiftFor (count : Nat) : count ≤ 1 <<< shiftFor count := by
  rw [Nat.one_shiftLeft, shiftFor]
  split
  · next hfew => exact hfew
  · have hlast : count - 1 < 2 ^ ((count - 1).log2 + 1) := Nat.lt_log2_self
    omega

theorem le_of_forSymbols? {count : Nat} {code : ChildCode} (h : forSymbols? count = some code) :
    count ≤ 1 <<< code.shift := by
  unfold forSymbols? at h
  split at h
  · obtain rfl := Option.some.inj h
    exact le_shiftFor count
  · cases h

/-- Every pair of non-terminals is coded below this number. -/
def binaryLimit (c : ChildCode) : Int32 :=
  1 <<< Int32.ofNat (2 * c.shift)

/-- The code of a pair. -/
def ofPair (c : ChildCode) (left right : NonTerminal) : Int32 :=
  (Int32.ofNat left <<< Int32.ofNat c.shift) ||| Int32.ofNat right

/-- The code of a single child. -/
def ofUnary (child : NonTerminal) : Int32 :=
  -2 * Int32.ofNat child - 1

/-- The code of a word. -/
def ofLexical (word : Terminal) : Int32 :=
  -2 * Int32.ofNat word - 2

/-- The code of the children of a rule. -/
def encode (c : ChildCode) : Children → Int32
  | .binary left right => c.ofPair left right
  | .unary child => ofUnary child
  | .lexical word => ofLexical word

/-- What `right` answers for the code of a single child. -/
def unaryMark : Int32 := -1

/-- What `right` answers for the code of a word. -/
def lexicalMark : Int32 := -2

/-- The bits of the right child of a pair. -/
def mask (c : ChildCode) : Int32 :=
  (1 <<< Int32.ofNat c.shift) - 1

/-- The left child of a pair, the single child, or the word. -/
def left (c : ChildCode) (code : Int32) : Nat :=
  if 0 ≤ code then (code >>> Int32.ofNat c.shift).toUInt32.toNat
  else if code &&& 1 != 0 then ((-code - 1) / 2).toUInt32.toNat
  else ((-code - 2) / 2).toUInt32.toNat

/-- The right child of a pair, or a mark for the other two kinds. -/
def right (c : ChildCode) (code : Int32) : Int32 :=
  if 0 ≤ code then code &&& c.mask
  else if code &&& 1 != 0 then unaryMark
  else lexicalMark

/-- The children behind a code. -/
def decode (c : ChildCode) (code : Int32) : Children :=
  let left := c.left code
  let right := c.right code
  if right == unaryMark then .unary left
  else if right == lexicalMark then .lexical left
  else .binary left right.toUInt32.toNat

end ChildCode

end Constituency
