import Constituency.Proofs.Score.Order
import Mathlib.Algebra.Order.Field.Basic
import Mathlib.Algebra.Order.Field.Rat
import Mathlib.Algebra.Order.Ring.NNRat

/-!
# Probabilities as scores

Rational probabilities in the place of their logarithms: a sum of scores is a product of probabilities.
Nothing is rounded, probabilities are added up exactly, and everything can be computed.
-/

namespace Constituency

/-- A probability that stands for its logarithm. -/
structure Chance where
  value : ℚ≥0
deriving DecidableEq

namespace Chance

instance : Score Chance where
  zero := ⟨1⟩
  add a b := ⟨a.value * b.value⟩
  sub a b := ⟨a.value / b.value⟩
  lt a b := a.value < b.value
  le a b := a.value ≤ b.value
  beq a b := decide (a = b)
  impossible := ⟨0⟩
  decidableLT a b := inferInstanceAs (Decidable (a.value < b.value))
  decidableLE a b := inferInstanceAs (Decidable (a.value ≤ b.value))
  isNaN _ := false
  outranks a b := decide (b.value < a.value)
  exp a := a
  softplus a := ⟨1 + a.value⟩
  beyondTable _ := false
  tableSoftplus a := ⟨1 + a.value⁻¹⟩
  perWord a _ := a

theorem le_iff {a b : Chance} : a ≤ b ↔ a.value ≤ b.value := Iff.rfl

instance : LosslessScore Chance where
  le_refl a := le_refl a.value
  le_trans {a b c} := @le_trans _ _ a.value b.value c.value
  le_total a b := le_total a.value b.value
  lt_iff_not_le {a b} := @lt_iff_not_ge _ _ a.value b.value
  impossible_le a := zero_le (a := a.value)
  beq_impossible_iff {a} := by
    rw [le_iff]
    show decide (a = ⟨0⟩) = true ↔ a.value ≤ 0
    rw [decide_eq_true_iff, nonpos_iff_eq_zero]
    exact ⟨fun h => congrArg value h, fun h => congrArg Chance.mk h⟩
  isNaN_eq_false _ := rfl
  outranks_of_lt h := decide_eq_true h
  le_of_outranks h := le_of_lt (of_decide_eq_true h)
  add_le_add {a b c d} hab hcd := mul_le_mul' (α := ℚ≥0) hab hcd
  zero_add_le a := (one_mul a.value).le
  impossible_add_le a := (zero_mul a.value).le
  add_impossible_le a := (mul_zero a.value).le
  impossible_lt_add {a b} ha hb := mul_pos (α := ℚ≥0) ha hb
  le_add_zero a := (mul_one a.value).ge
  softplus_nonneg _ := le_self_add (α := ℚ≥0)
  tableSoftplus_nonneg _ := le_self_add (α := ℚ≥0)

instance : DivisibleScore Chance where
  impossible_lt_sub_iff {a b} hb := div_pos_iff_of_pos_right (a := a.value) (b := b.value) hb

end Chance

end Constituency
