import Constituency.Proofs.Score.Order
import Mathlib.Algebra.Order.Monoid.Unbundled.WithTop
import Mathlib.Algebra.Order.Ring.Int
import Mathlib.Algebra.Tropical.Basic

/-!
# Whole scores

Whole numbers and minus infinity as log probabilities. All that is asked of scores holds of them and can
be computed. They are as coarse as can be: the sum of two probabilities is the larger one, and the
probability of a score is the power of two, rounded down.
-/

namespace Constituency

instance : Score (WithBot ℤ) where
  toLT := WithBot.instLT
  toLE := WithBot.instLE
  sub
    | some a, some b => some (a - b)
    | _, _ => ⊥
  impossible := ⊥
  decidableLT := WithBot.decidableLT
  decidableLE := WithBot.decidableLE
  isNaN _ := false
  outranks a b := (WithBot.decidableLT b a).decide
  exp
    | (a : ℤ) => if 0 ≤ a then (2 ^ a.toNat : ℤ) else 0
    | ⊥ => 0
  softplus
    | some a => some a.toNat
    | none => 0
  beyondTable _ := false
  tableSoftplus _ := 0
  perWord a _ := a

instance : LosslessScore (WithBot ℤ) where
  le_refl := le_refl
  le_trans := le_trans
  le_total := le_total
  lt_iff_not_le := lt_iff_not_ge
  impossible_le a := bot_le (a := a)
  beq_impossible_iff {a} := by rw [beq_iff_eq]; exact le_bot_iff.symm
  isNaN_eq_false _ := rfl
  outranks_of_lt h := decide_eq_true h
  le_of_outranks h := le_of_lt (of_decide_eq_true h)
  add_le_add := add_le_add
  zero_add_le a := (zero_add a).le
  impossible_add_le a := (WithBot.bot_add a).le
  add_impossible_le a := (WithBot.add_bot a).le
  impossible_lt_add {a b} ha hb := by
    rw [show (Score.impossible : WithBot ℤ) = ⊥ from rfl] at ha hb ⊢
    rw [WithBot.bot_lt_iff_ne_bot] at ha hb ⊢
    exact WithBot.add_ne_bot.2 ⟨ha, hb⟩
  le_add_zero a := (add_zero a).ge
  softplus_nonneg a := by
    cases a with
    | bot => exact le_refl 0
    | coe a => exact WithBot.coe_le_coe.2 (Int.natCast_nonneg a.toNat)
  tableSoftplus_nonneg _ := le_refl 0

instance : DivisibleScore (WithBot ℤ) where
  impossible_lt_sub_iff {a b} hb := by
    cases b with
    | bot => exact absurd hb (lt_irrefl _)
    | coe b =>
      cases a with
      | bot => exact Iff.rfl
      | coe a => exact iff_of_true (WithBot.bot_lt_coe (a - b)) (WithBot.bot_lt_coe a)

instance : UnitalScore (WithBot ℤ) where
  add_zero_le a := (add_zero a).le

/-- A score as a loss: the better of two scores is the smaller loss, which is the sum of the tropical
semiring. -/
def loss : WithBot ℤ → Tropical (WithTop ℤ)
  | ⊥ => 0
  | (a : ℤ) => Tropical.trop ((-a : ℤ) : WithTop ℤ)

theorem loss_coe (a : ℤ) : loss (a : WithBot ℤ) = Tropical.trop ((-a : ℤ) : WithTop ℤ) := rfl

theorem loss_eq_zero_iff {a : WithBot ℤ} : loss a = 0 ↔ a = ⊥ := by
  cases a with
  | bot => exact ⟨fun _ => rfl, fun _ => rfl⟩
  | coe a =>
    rw [loss_coe, ← Tropical.trop_top, Tropical.trop_inj_iff]
    exact ⟨fun h => absurd h (WithTop.coe_ne_top), fun h => absurd h (WithBot.coe_ne_bot)⟩

theorem loss_injective : Function.Injective loss := by
  intro a b h
  cases a with
  | bot => exact (loss_eq_zero_iff.1 h.symm).symm
  | coe a =>
    cases b with
    | bot => exact loss_eq_zero_iff.1 h
    | coe b =>
      rw [loss_coe, loss_coe, Tropical.trop_inj_iff, WithTop.coe_inj, neg_inj] at h
      rw [h]

theorem Accumulator.exact_best :
    (Accumulator.best : Accumulator (WithBot ℤ)).Exact (Tropical (WithTop ℤ)) loss where
  combine a b := by
    rw [Accumulator.combine, Score.best_eq_ite]
    cases a with
    | bot => cases b <;> simp [loss]
    | coe a =>
      cases b with
      | bot => simp [loss]
      | coe b =>
        by_cases hab : a < b
        · rw [if_pos (WithBot.coe_lt_coe.2 hab), loss_coe, loss_coe, add_comm, Tropical.add_eq_left]
          exact Tropical.trop_monotone (WithTop.coe_le_coe.2 (by omega))
        · rw [if_neg fun h => hab (WithBot.coe_lt_coe.1 h), loss_coe, loss_coe, Tropical.add_eq_left]
          exact Tropical.trop_monotone (WithTop.coe_le_coe.2 (by omega))
  add a b := by
    cases a with
    | bot => exact (zero_mul _).symm
    | coe a =>
      cases b with
      | bot => exact (mul_zero _).symm
      | coe b =>
        rw [← WithBot.coe_add, loss_coe, loss_coe, loss_coe, ← Tropical.trop_add, ← WithTop.coe_add,
          neg_add]
  zero := rfl
  impossible := rfl
  not_possible a ha := loss_eq_zero_iff.2 (le_bot_iff.1 (Score.not_lt.1 ha))
  beq_impossible a ha := loss_eq_zero_iff.2 (beq_iff_eq.1 ha)
  eq_zero_of_add x y h := by
    rw [← Tropical.untrop_inj_iff, Tropical.untrop_add, Tropical.untrop_zero, min_eq_top] at h
    rw [← Tropical.untrop_inj_iff, h.1, Tropical.untrop_zero]

/-- The larger of two whole scores is their sum, however this is taken. -/
theorem Accumulator.combine_eq_best (acc : Accumulator (WithBot ℤ)) (a b : WithBot ℤ) :
    acc.combine a b = Accumulator.best.combine a b := by
  have hsoft : ∀ {hi lo : WithBot ℤ}, lo ≤ hi → hi + Score.softplus (lo - hi) = hi := by
    intro hi lo hle
    cases hi with
    | bot => rfl
    | coe hi =>
      cases lo with
      | bot => exact add_zero _
      | coe lo =>
        have hgap : (lo - hi).toNat = 0 := Int.toNat_of_nonpos (by
          have := WithBot.coe_le_coe.1 hle
          omega)
        show (hi : WithBot ℤ) + (((lo - hi).toNat : ℤ) : WithBot ℤ) = hi
        rw [hgap]
        exact add_zero _
  have hbest : Accumulator.best.combine a b = (Score.descending a b).1 := by
    rw [Accumulator.combine, Score.best_eq_ite, Score.descending]
    split
    · next hlt => rw [if_neg (not_le.2 hlt)]
    · next hle => rw [if_pos (not_lt.1 hle)]
  have hordered : (Score.descending a b).2 ≤ (Score.descending a b).1 := by
    rw [Score.descending]
    split
    · next hle => exact hle
    · next hlt => exact le_of_not_ge hlt
  rw [hbest]
  cases acc with
  | best => exact hbest
  | sum cutoff byTable =>
    cases byTable with
    | false =>
      rw [Accumulator.combine, Score.logSumWithin]
      exact ite_eq_left_iff.2 fun _ => hsoft hordered
    | true =>
      rw [Accumulator.combine, Score.logSumTable]
      exact ite_eq_left_iff.2 fun _ => add_zero _

theorem Accumulator.exact_whole (acc : Accumulator (WithBot ℤ)) :
    acc.Exact (Tropical (WithTop ℤ)) loss :=
  { exact_best with combine := fun a b => by rw [acc.combine_eq_best, exact_best.combine] }

end Constituency
