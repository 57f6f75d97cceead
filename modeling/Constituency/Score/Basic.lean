/-!
# Scores

Derivations are scored by log probabilities: the score of a product is a sum, `0` is certainty,
and `impossible` is the logarithm of zero. Grammars, charts, searches and decoders are written
over any `Score`, so that each of them runs on machine numbers and can be reasoned about over
exact ones.
-/

namespace Constituency

/-- A type of log probabilities with the operations that parsing needs.

`<`, `≤` and `==` compare numerically, so that they may all fail on a value that is not a number.
`outranks` is a total comparison: it also separates values that are numerically equal. -/
class Score (α : Type) extends Zero α, Add α, Sub α, LT α, LE α, BEq α where
  /-- The score of what cannot happen. -/
  impossible : α
  /-- Strict comparison is decided. -/
  decidableLT : DecidableLT α
  /-- Comparison is decided. -/
  decidableLE : DecidableLE α
  /-- The value stands for no number. -/
  isNaN : α → Bool
  /-- The first value comes strictly before the second one in a ranking from best to worst. -/
  outranks : α → α → Bool
  /-- The exponential: the probability of a score. -/
  exp : α → α
  /-- `x ↦ ln (1 + e ^ x)`. -/
  softplus : α → α
  /-- The gap between two scores is so wide that no table covers it. -/
  beyondTable : α → Bool
  /-- A tabulated approximation of `x ↦ ln (1 + e ^ -x)` for a gap that the table covers. -/
  tableSoftplus : α → α
  /-- A score divided by a number of words. -/
  perWord : α → Nat → α

namespace Score

variable {α : Type} [Score α]

instance : DecidableLT α := decidableLT

instance : DecidableLE α := decidableLE

/-- The better of two scores. A value that is not a number is passed over, and of two numerically
equal scores the first is kept. -/
def best (a b : α) : α :=
  if isNaN a then b else if a < b then b else a

/-- A score that a derivation can have: a number other than `impossible`. -/
def admissible (x : α) : Bool :=
  !(x == impossible || isNaN x)

/-- The two scores, the larger one first. -/
def descending (a b : α) : α × α :=
  if b ≤ a then (a, b) else (b, a)

/-- `ln (e ^ a + e ^ b)`: the score of an alternative of two. -/
def logSum (a b : α) : α :=
  let (hi, lo) := descending a b
  if lo == impossible then hi else hi + softplus (lo - hi)

/-- `logSum`, with the smaller score left out once it trails the larger by more than `cutoff`. -/
def logSumWithin (cutoff a b : α) : α :=
  let (hi, lo) := descending a b
  if lo == impossible || decide (cutoff < hi - lo) then hi else hi + softplus (lo - hi)

/-- `logSumWithin` by table. -/
def logSumTable (cutoff a b : α) : α :=
  let (hi, lo) := descending a b
  let gap := hi - lo
  if lo == impossible || decide (cutoff < gap) || beyondTable gap then hi
  else hi + tableSoftplus gap

end Score

/-- How the scores of competing derivations of one constituent combine. -/
inductive Accumulator (α : Type) where
  /-- The best derivation alone counts. -/
  | best
  /-- Every derivation counts: probabilities add up, up to the cutoff of `Score.logSumWithin`,
  exactly or by table. -/
  | sum (cutoff : α) (byTable : Bool)

/-- The score of two competing derivations together. -/
def Accumulator.combine {α : Type} [Score α] : Accumulator α → α → α → α
  | .best, a, b => Score.best a b
  | .sum cutoff false, a, b => Score.logSumWithin cutoff a b
  | .sum cutoff true, a, b => Score.logSumTable cutoff a b

end Constituency
