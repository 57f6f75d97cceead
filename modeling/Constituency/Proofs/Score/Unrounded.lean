import Constituency.Proofs.Chart.Maxima
import Constituency.Proofs.Score.Exact
import Constituency.Proofs.Score.Extended

/-!
# Scores without rounding

What the optimum of a sum asks of scores: terms are added up in any order with the same result, and scores
that compare equal are equal (`UnroundedScore`). Then a list of scores has one greatest member, which is
its total by `Accumulator.best` (`PackedChart.total_best_eq`), and the lists of a sum's terms may be cut up
as one likes.
-/

namespace Constituency

/-- Scores that form a linearly ordered commutative monoid. Nothing becomes possible by taking a score
off. -/
class UnroundedScore (α : Type) [Score α] : Prop extends LosslessScore α where
  add_assoc (a b c : α) : a + b + c = a + (b + c)
  add_comm (a b : α) : a + b = b + a
  zero_add (a : α) : 0 + a = a
  le_antisymm {a b : α} : a ≤ b → b ≤ a → a = b
  beq_iff {a b : α} : (a == b) = true ↔ a = b
  impossible_lt_of_sub {a b : α} : Score.impossible < a - b → Score.impossible < a

instance : UnroundedScore EReal where
  add_assoc := add_assoc
  add_comm := add_comm
  zero_add := zero_add
  le_antisymm := le_antisymm
  beq_iff := decide_eq_true_iff
  impossible_lt_of_sub {a b} h := by
    refine bot_lt_iff_ne_bot.2 ?_
    rintro rfl
    rw [EReal.bot_sub] at h
    exact lt_irrefl _ h

instance : UnroundedScore (WithBot ℤ) where
  add_assoc := add_assoc
  add_comm := add_comm
  zero_add := zero_add
  le_antisymm := le_antisymm
  beq_iff := beq_iff_eq
  impossible_lt_of_sub {a b} h := by
    refine WithBot.bot_lt_iff_ne_bot.2 ?_
    rintro rfl
    exact lt_irrefl _ h

instance : UnroundedScore (WithBot ℝ) where
  add_assoc := add_assoc
  add_comm := add_comm
  zero_add := zero_add
  le_antisymm := le_antisymm
  beq_iff := decide_eq_true_iff
  impossible_lt_of_sub {a b} h := by
    refine WithBot.bot_lt_iff_ne_bot.2 ?_
    rintro rfl
    exact lt_irrefl _ h

section Laws

variable {α : Type} [Score α] [UnroundedScore α]

instance UnroundedScore.associative : Std.Associative (α := α) (· + ·) :=
  ⟨UnroundedScore.add_assoc⟩

instance UnroundedScore.commutative : Std.Commutative (α := α) (· + ·) :=
  ⟨UnroundedScore.add_comm⟩

instance UnroundedScore.lawfulLeftIdentity : Std.LawfulLeftIdentity (α := α) (· + ·) 0 where
  left_id := UnroundedScore.zero_add

theorem UnroundedScore.add_zero (a : α) : a + 0 = a := by
  rw [UnroundedScore.add_comm, UnroundedScore.zero_add]

/-- A greatest member is what the best of all members is. -/
theorem PackedChart.total_best_eq {x : α} {xs : List α} (hx : x ∈ xs) (hle : ∀ y ∈ xs, y ≤ x) :
    total .best xs = x :=
  UnroundedScore.le_antisymm (total_best_le hle) (le_total_best hx (Score.le_refl x))

end Laws

end Constituency
