import Mathlib
import Constituency.Proofs.Score.Order

/-!
# Exact scores

Extended real numbers as log probabilities: nothing is rounded, and probabilities are added up exactly
(`Accumulator.exact_exactSum`).
-/

namespace Constituency

noncomputable instance : Score EReal where
  impossible := ⊥
  decidableLT := inferInstance
  decidableLE := inferInstance
  beq a b := decide (a = b)
  isNaN _ := false
  outranks a b := decide (b < a)
  exp a := (EReal.exp a : EReal)
  softplus a := ENNReal.log (1 + EReal.exp a)
  beyondTable _ := false
  tableSoftplus a := ENNReal.log (1 + EReal.exp (-a))
  perWord a words := a / words

theorem impossible_eq_bot : (Score.impossible : EReal) = ⊥ := rfl

instance : LosslessScore EReal where
  le_refl := le_refl
  le_trans := le_trans
  le_total := le_total
  lt_iff_not_le := lt_iff_not_ge
  impossible_le a := bot_le (a := a)
  beq_impossible_iff {a} := by
    rw [impossible_eq_bot, le_bot_iff]
    exact decide_eq_true_iff
  isNaN_eq_false _ := rfl
  outranks_of_lt h := decide_eq_true h
  le_of_outranks h := le_of_lt (of_decide_eq_true h)
  add_le_add := add_le_add
  zero_add_le a := (zero_add a).le
  impossible_add_le a := (EReal.bot_add a).le
  add_impossible_le a := (EReal.add_bot a).le
  impossible_lt_add ha hb := EReal.bot_lt_add_iff.2 ⟨ha, hb⟩
  le_add_zero a := (add_zero a).ge
  softplus_nonneg _ := ENNReal.zero_le_log_iff.2 le_self_add
  tableSoftplus_nonneg _ := ENNReal.zero_le_log_iff.2 le_self_add

/-- Sums of probabilities without cutoff. -/
noncomputable abbrev Accumulator.exactSum : Accumulator EReal := .sum ⊤ false

/-- The larger of two probabilities, grown by the share of the smaller one. -/
theorem exp_add_softplus {hi lo : EReal} (hle : lo ≤ hi) (hlo : lo ≠ ⊥) :
    EReal.exp (hi + Score.softplus (lo - hi)) = EReal.exp hi + EReal.exp lo := by
  have hsoft : EReal.exp (Score.softplus (lo - hi)) = 1 + EReal.exp (lo - hi) :=
    ENNReal.exp_log _
  have hbot : hi ≠ ⊥ := fun h => hlo (le_bot_iff.1 (h ▸ hle))
  rw [EReal.exp_add, hsoft]
  by_cases htop : hi = ⊤
  · subst htop
    rw [EReal.exp_top, ENNReal.top_mul (by simp), top_add]
  · rw [mul_add, mul_one, sub_eq_add_neg, EReal.exp_add, EReal.exp_neg, mul_comm (EReal.exp lo),
      ← mul_assoc, ENNReal.mul_inv_cancel (by simpa using hbot) (by simpa using htop), one_mul]

theorem exp_logSumWithin_top (a b : EReal) :
    EReal.exp (Score.logSumWithin ⊤ a b) = EReal.exp a + EReal.exp b := by
  have hcut : ∀ hi lo : EReal, lo ≤ hi →
      EReal.exp (if lo == Score.impossible || decide (⊤ < hi - lo) then hi
        else hi + Score.softplus (lo - hi)) = EReal.exp hi + EReal.exp lo := by
    intro hi lo hle
    by_cases hlo : lo = ⊥
    · subst hlo
      have : ((⊥ : EReal) == Score.impossible) = true := decide_eq_true rfl
      rw [this, Bool.true_or, if_pos rfl, EReal.exp_bot, add_zero]
    · have hbeq : (lo == Score.impossible) = false := decide_eq_false hlo
      rw [hbeq, Bool.false_or, if_neg (by simp), exp_add_softplus hle hlo]
  unfold Score.logSumWithin Score.descending
  by_cases hba : b ≤ a
  · rw [if_pos hba]
    exact hcut a b hba
  · rw [if_neg hba, add_comm (EReal.exp a)]
    exact hcut b a (le_of_not_ge hba)

theorem Accumulator.exact_exactSum : Accumulator.exactSum.Exact ENNReal EReal.exp where
  combine := exp_logSumWithin_top
  add := EReal.exp_add
  zero := EReal.exp_zero
  impossible := EReal.exp_bot
  not_possible _ ha := EReal.exp_eq_zero_iff.2 (not_bot_lt_iff.1 ha)
  beq_impossible _ ha := EReal.exp_eq_zero_iff.2 (of_decide_eq_true ha)
  eq_zero_of_add _ _ h := (add_eq_zero.1 h).1

theorem Accumulator.keepsPossible_exactSum : Accumulator.exactSum.KeepsPossible := by
  intro a b ha _
  have hexp : 0 < EReal.exp (Accumulator.exactSum.combine a b) := by
    rw [exact_exactSum.combine]
    exact add_pos_of_pos_of_nonneg (EReal.zero_lt_exp_iff.2 ha) zero_le
  exact EReal.zero_lt_exp_iff.1 hexp

end Constituency
