import Constituency.Proofs.Score.Binary32
import Constituency.Proofs.Score.Order

/-!
# The bottom of the scores

`impossible` marks what has no derivation. It is all that an argument about empty cells needs that the scores
of derivations lie above it and that it does not lie above itself (`BottomScore`); where besides nothing
else compares as low, an alternative added to it is taken over as it is (`SoleBottomScore`). About tables
that only ever take what lies above the present score, it is enough that such a score lies above
`impossible` as well (`RisingScore`). All of them hold in single precision, values that stand for no number
included, although these have no total order.
-/

namespace Constituency

/-- The scores that a derivation can have lie above `impossible`, which does not lie above itself. -/
class BottomScore (α : Type) [Score α] : Prop where
  possible_of_admissible {a : α} : Score.admissible a = true → Score.impossible < a
  not_impossible_lt : ¬ (Score.impossible : α) < Score.impossible

/-- No score but `impossible` compares as low. -/
class SoleBottomScore (α : Type) [Score α] : Prop extends BottomScore α where
  eq_impossible_of_le {a : α} : a ≤ Score.impossible → a = Score.impossible
  beq_impossible : ((Score.impossible : α) == Score.impossible) = true

/-- What lies above anything lies above `impossible`, which is equal to itself. -/
class RisingScore (α : Type) [Score α] : Prop extends BottomScore α where
  impossible_lt_of_lt {a b : α} : a < b → Score.impossible < b
  impossible_beq : ((Score.impossible : α) == Score.impossible) = true

variable {α : Type} [Score α]

instance [MonotoneScore α] : BottomScore α where
  possible_of_admissible := Score.admissible_iff.1
  not_impossible_lt := Score.not_impossible_lt_impossible

instance [MonotoneScore α] : RisingScore α where
  impossible_lt_of_lt h := Score.lt_of_le_of_lt (Score.impossible_le _) h
  impossible_beq := MonotoneScore.beq_impossible_iff.2 (Score.le_refl _)

instance : SoleBottomScore Float32 where
  possible_of_admissible {a} h := by
    simp only [Score.admissible, Bool.not_eq_true', Bool.or_eq_false_iff] at h
    exact Binary32.negInfinity_lt h.2 h.1
  not_impossible_lt := by decide
  eq_impossible_of_le := Binary32.eq_negInfinity_of_le
  beq_impossible := by decide

instance : RisingScore Float32 where
  impossible_lt_of_lt {a b} h := by
    obtain ⟨ha, hb⟩ := Binary32.isNaN_eq_false_of_lt h
    refine Binary32.negInfinity_lt hb (Bool.not_eq_true _ ▸ fun hbeq => ?_)
    rw [Binary32.beq_iff_signed_eq hb Binary32.isNaN_negInfinity] at hbeq
    rw [Binary32.lt_iff_signed_lt ha hb, hbeq] at h
    exact Binary32.not_lt_negInfinity ((Binary32.lt_iff_signed_lt ha Binary32.isNaN_negInfinity).2 h)
  impossible_beq := by decide

/-- To `impossible` a sum adds any alternative as it is, be it a number or not. -/
theorem Accumulator.sum_combine_impossible [SoleBottomScore α] (cutoff : α) (byTable : Bool) (a : α) :
    (Accumulator.sum cutoff byTable).combine Score.impossible a = a := by
  have hbeq : ((Score.impossible : α) == Score.impossible) = true := SoleBottomScore.beq_impossible
  by_cases hle : a ≤ Score.impossible
  · obtain rfl := SoleBottomScore.eq_impossible_of_le hle
    cases byTable <;>
      simp [Accumulator.combine, Score.logSumWithin, Score.logSumTable, Score.descending, hbeq]
  · cases byTable <;>
      simp [Accumulator.combine, Score.logSumWithin, Score.logSumTable, Score.descending, hle, hbeq]

end Constituency
