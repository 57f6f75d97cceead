import Mathlib
import Constituency.Proofs.Score.Whole

/-!
# Exact scores that can be taken off again

What a decoder by posteriors asks of scores: they are added up in any order with the same result, a
possible score less itself is nothing, and the probability of nothing is more than that of what cannot
happen, which is zero (`ExactScore`). The logarithms of real numbers are such scores. Where only one of
some alternatives is possible, each way of combining them gives its score
(`Accumulator.combine_of_not_possible_left`, `Accumulator.combine_of_not_possible_right`).
-/

namespace Constituency

/-- Scores that form a commutative monoid, in which possible scores can be taken off again. -/
class ExactScore (α : Type) [Score α] : Prop extends LosslessScore α where
  add_assoc (a b c : α) : a + b + c = a + (b + c)
  add_comm (a b : α) : a + b = b + a
  zero_add (a : α) : 0 + a = a
  sub_zero (a : α) : a - 0 = a
  sub_self {a : α} : Score.impossible < a → a - a = 0
  exp_zero_pos : 0 < Score.exp (0 : α)
  exp_sub_eq_zero {a b : α} : ¬ Score.impossible < a → Score.impossible < b →
    Score.exp (a - b) = 0
  lt_add {a b : α} : Score.impossible < a → 0 < b → a < a + b
  beq_iff {a b : α} : (a == b) = true ↔ a ≤ b ∧ b ≤ a

namespace Accumulator

variable {α : Type} [Score α] [MonotoneScore α] {a b : α}

/-- An impossible alternative adds nothing. -/
theorem combine_of_not_possible_right (acc : Accumulator α) (hb : ¬ Score.impossible < b) :
    acc.combine a b = a := by
  have hle : b ≤ Score.impossible := Score.not_lt.1 hb
  have hba : b ≤ a := Score.le_trans hle (Score.impossible_le a)
  have hbeq : (b == Score.impossible) = true := MonotoneScore.beq_impossible_iff.2 hle
  cases acc with
  | best =>
    show Score.best a b = a
    rw [Score.best_eq_ite, if_neg (Score.not_lt.2 hba)]
  | sum cutoff byTable =>
    cases byTable with
    | false =>
      show Score.logSumWithin cutoff a b = a
      simp [Score.logSumWithin, Score.descending, hba, hbeq]
    | true =>
      show Score.logSumTable cutoff a b = a
      simp [Score.logSumTable, Score.descending, hba, hbeq]

/-- Beside an impossible alternative a possible one stands for both. -/
theorem combine_of_not_possible_left (acc : Accumulator α) (ha : ¬ Score.impossible < a)
    (hb : Score.impossible < b) : acc.combine a b = b := by
  have hle : a ≤ Score.impossible := Score.not_lt.1 ha
  have hab : a < b := Score.lt_of_le_of_lt hle hb
  have hbeq : (a == Score.impossible) = true := MonotoneScore.beq_impossible_iff.2 hle
  cases acc with
  | best =>
    show Score.best a b = b
    rw [Score.best_eq_ite, if_pos hab]
  | sum cutoff byTable =>
    cases byTable with
    | false =>
      show Score.logSumWithin cutoff a b = b
      simp [Score.logSumWithin, Score.descending, Score.not_le.2 hab, hbeq]
    | true =>
      show Score.logSumTable cutoff a b = b
      simp [Score.logSumTable, Score.descending, Score.not_le.2 hab, hbeq]

/-- Alternatives are impossible together if all of them are. -/
theorem not_possible_combine (acc : Accumulator α) (ha : ¬ Score.impossible < a)
    (hb : ¬ Score.impossible < b) : ¬ Score.impossible < acc.combine a b := by
  rwa [acc.combine_of_not_possible_right hb]

omit [MonotoneScore α] in
theorem possible_combine_iff [LosslessScore α] (acc : Accumulator α) :
    Score.impossible < acc.combine a b ↔ Score.impossible < a ∨ Score.impossible < b := by
  constructor
  · intro h
    by_contra hnone
    rw [not_or] at hnone
    exact acc.not_possible_combine hnone.1 hnone.2 h
  · rintro (ha | hb)
    · exact Score.lt_of_lt_of_le ha (acc.le_combine a b).1
    · exact Score.lt_of_lt_of_le hb (acc.le_combine a b).2

end Accumulator

namespace Score

variable {α : Type} [Score α]

/-- A number of equal scores added up. -/
def times (x : α) : Nat → α
  | 0 => 0
  | n + 1 => x + times x n

variable [ExactScore α] {x : α} {m n : Nat}

theorem add_zero (x : α) : x + 0 = x := by
  rw [ExactScore.add_comm, ExactScore.zero_add]

theorem times_one (x : α) : times x 1 = x := add_zero x

theorem times_add (x : α) (m n : Nat) : times x m + times x n = times x (m + n) := by
  induction m with
  | zero => rw [times, ExactScore.zero_add, Nat.zero_add]
  | succ m ih => rw [times, ExactScore.add_assoc, ih, Nat.succ_add, times]

/-- Certainty is possible: else nothing could be more than it. -/
theorem impossible_lt_zero : (impossible : α) < 0 := by
  refine Score.not_le.1 fun hle => ?_
  have hexp : ∀ a : α, a ≤ impossible := by
    intro a
    have hsum := Score.add_le_add_left hle a
    rw [add_zero] at hsum
    exact Score.le_trans hsum (MonotoneScore.add_impossible_le a)
  exact Score.not_lt.2 (Score.le_trans (hexp _) (Score.impossible_le 0))
    (ExactScore.exp_zero_pos (α := α))

theorem times_nonneg (hx : 0 < x) (n : Nat) : 0 ≤ times x n := by
  induction n with
  | zero => exact Score.le_refl 0
  | succ n ih =>
    have hsum := MonotoneScore.add_le_add (Score.le_of_lt hx) ih
    rwa [add_zero] at hsum

theorem times_lt_succ (hx : 0 < x) (n : Nat) : times x n < times x (n + 1) := by
  rw [times, ExactScore.add_comm]
  exact ExactScore.lt_add (Score.lt_of_lt_of_le impossible_lt_zero (times_nonneg hx n)) hx

theorem times_succ_pos (hx : 0 < x) (n : Nat) : 0 < times x (n + 1) :=
  Score.lt_of_le_of_lt (times_nonneg hx n) (times_lt_succ hx n)

theorem times_le_times (hx : 0 < x) (h : m ≤ n) : times x m ≤ times x n := by
  induction h with
  | refl => exact Score.le_refl _
  | step _ ih => exact Score.le_trans ih (Score.le_of_lt (times_lt_succ hx _))

/-- More of a positive score is more. -/
theorem le_of_times_le_times (hx : 0 < x) (h : times x m ≤ times x n) : m ≤ n := by
  refine Nat.not_lt.1 fun hlt => ?_
  have hlt' := Score.lt_of_lt_of_le (times_lt_succ hx n) (times_le_times hx hlt)
  exact Score.not_le.2 hlt' h

theorem times_injective (hx : 0 < x) : Function.Injective (times x) := by
  intro m n h
  apply Nat.le_antisymm
  · exact le_of_times_le_times hx (h ▸ Score.le_refl _)
  · exact le_of_times_le_times hx (h ▸ Score.le_refl _)

end Score

/-! ## Whole numbers -/

instance : ExactScore (WithBot ℤ) where
  add_assoc := add_assoc
  add_comm := add_comm
  zero_add := zero_add
  sub_zero a := by
    cases a with
    | bot => rfl
    | coe a => exact congrArg WithBot.some (sub_zero a)
  sub_self {a} ha := by
    cases a with
    | bot => exact absurd ha (lt_irrefl _)
    | coe a => exact congrArg WithBot.some (sub_self a)
  exp_zero_pos := by decide
  exp_sub_eq_zero {a b} ha hb := by
    cases a with
    | bot => cases b <;> rfl
    | coe a => exact absurd (WithBot.bot_lt_coe a) ha
  lt_add {a b} ha hb := by
    cases a with
    | bot => exact absurd ha (lt_irrefl _)
    | coe a =>
      cases b with
      | bot => exact absurd hb (by decide)
      | coe b =>
        rw [← WithBot.coe_add, WithBot.coe_lt_coe]
        have hpos : (0 : ℤ) < b := WithBot.coe_lt_coe.1 hb
        omega
  beq_iff := beq_iff_eq.trans le_antisymm_iff

/-! ## Real numbers -/

/-- The logarithms of probabilities, with minus infinity for that of zero. -/
noncomputable instance : Score (WithBot ℝ) where
  toLT := WithBot.instLT
  toLE := WithBot.instLE
  sub
    | (a : ℝ), (b : ℝ) => (a - b : ℝ)
    | _, _ => ⊥
  beq a b := decide (a = b)
  impossible := ⊥
  decidableLT := inferInstance
  decidableLE := inferInstance
  isNaN _ := false
  outranks a b := decide (b < a)
  exp
    | (a : ℝ) => (Real.exp a : ℝ)
    | ⊥ => 0
  softplus
    | (a : ℝ) => (Real.log (1 + Real.exp a) : ℝ)
    | ⊥ => 0
  beyondTable _ := false
  tableSoftplus
    | (a : ℝ) => (Real.log (1 + Real.exp (-a)) : ℝ)
    | ⊥ => 0
  perWord
    | (a : ℝ), words => (a / words : ℝ)
    | ⊥, _ => ⊥

theorem log_one_add_exp_nonneg (a : ℝ) : (0 : WithBot ℝ) ≤ (Real.log (1 + Real.exp a) : ℝ) := by
  rw [← WithBot.coe_zero, WithBot.coe_le_coe]
  exact Real.log_nonneg (le_add_of_nonneg_right (Real.exp_pos a).le)

instance : LosslessScore (WithBot ℝ) where
  le_refl := le_refl
  le_trans := le_trans
  le_total := le_total
  lt_iff_not_le := lt_iff_not_ge
  impossible_le a := bot_le (a := a)
  beq_impossible_iff {a} := by
    show decide (a = ⊥) = true ↔ a ≤ ⊥
    rw [decide_eq_true_iff, le_bot_iff]
  isNaN_eq_false _ := rfl
  outranks_of_lt h := decide_eq_true h
  le_of_outranks h := le_of_lt (of_decide_eq_true h)
  add_le_add := add_le_add
  zero_add_le a := (zero_add a).le
  impossible_add_le a := (WithBot.bot_add a).le
  add_impossible_le a := (WithBot.add_bot a).le
  impossible_lt_add {a b} ha hb := by
    have ha' : a ≠ ⊥ := WithBot.bot_lt_iff_ne_bot.1 ha
    have hb' : b ≠ ⊥ := WithBot.bot_lt_iff_ne_bot.1 hb
    exact WithBot.bot_lt_iff_ne_bot.2 (WithBot.add_ne_bot.2 ⟨ha', hb'⟩)
  le_add_zero a := (add_zero a).ge
  softplus_nonneg a := by
    cases a with
    | bot => exact le_refl 0
    | coe a => exact log_one_add_exp_nonneg a
  tableSoftplus_nonneg a := by
    cases a with
    | bot => exact le_refl 0
    | coe a => exact log_one_add_exp_nonneg (-a)

instance : DivisibleScore (WithBot ℝ) where
  impossible_lt_sub_iff {a b} hb := by
    cases b with
    | bot => exact absurd hb (lt_irrefl _)
    | coe b =>
      cases a with
      | bot => exact Iff.rfl
      | coe a => exact iff_of_true (WithBot.bot_lt_coe (a - b)) (WithBot.bot_lt_coe a)

instance : ExactScore (WithBot ℝ) where
  add_assoc := add_assoc
  add_comm := add_comm
  zero_add := zero_add
  sub_zero a := by
    cases a with
    | bot => rfl
    | coe a => exact congrArg WithBot.some (sub_zero a)
  sub_self {a} ha := by
    cases a with
    | bot => exact absurd ha (lt_irrefl _)
    | coe a => exact congrArg WithBot.some (sub_self a)
  exp_zero_pos := WithBot.coe_lt_coe.2 (Real.exp_pos 0)
  exp_sub_eq_zero {a b} ha hb := by
    cases a with
    | bot => cases b <;> rfl
    | coe a => exact absurd (WithBot.bot_lt_coe a) ha
  lt_add {a b} ha hb := by
    cases a with
    | bot => exact absurd ha (lt_irrefl _)
    | coe a =>
      cases b with
      | bot => exact absurd hb (not_lt_bot)
      | coe b =>
        rw [← WithBot.coe_add, WithBot.coe_lt_coe]
        have hpos : (0 : ℝ) < b := WithBot.coe_lt_coe.1 hb
        linarith
  beq_iff := decide_eq_true_iff.trans le_antisymm_iff

end Constituency
