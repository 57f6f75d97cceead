import Constituency.Score.Basic
import Mathlib.Algebra.Ring.Defs
import Mathlib.Order.Bounds.Defs
import Mathlib.Data.Set.Basic

/-!
# Ordered scores

What the searches know about scores. `MonotoneScore` says that comparison is a total preorder with
`impossible` at its bottom and that addition is monotone; it does not say that addition is
associative or commutative, or that scores that compare equal are equal, so that rounded numbers and
signed zeros fit in. `LosslessScore` adds that nothing possible adds up to something impossible,
`DivisibleScore` that it makes nothing impossible or possible to take off what is possible, and
`UnitalScore` that certainty adds nothing on either side.
`Accumulator.Exact` says of scores that they stand for the members of a commutative semiring, whose
product is their sum and whose sum is their combination.
-/

namespace Constituency

/-- Scores with a total comparison and a monotone addition. -/
class MonotoneScore (α : Type) [Score α] : Prop where
  le_refl (a : α) : a ≤ a
  le_trans {a b c : α} : a ≤ b → b ≤ c → a ≤ c
  le_total (a b : α) : a ≤ b ∨ b ≤ a
  lt_iff_not_le {a b : α} : a < b ↔ ¬ b ≤ a
  impossible_le (a : α) : Score.impossible ≤ a
  beq_impossible_iff {a : α} : (a == Score.impossible) = true ↔ a ≤ Score.impossible
  isNaN_eq_false (a : α) : Score.isNaN a = false
  /-- The ranking refines the order: it may only tell apart scores that compare equal. -/
  outranks_of_lt {a b : α} : b < a → Score.outranks a b = true
  le_of_outranks {a b : α} : Score.outranks a b = true → b ≤ a
  add_le_add {a b c d : α} : a ≤ b → c ≤ d → a + c ≤ b + d
  zero_add_le (a : α) : 0 + a ≤ a
  impossible_add_le (a : α) : Score.impossible + a ≤ Score.impossible
  add_impossible_le (a : α) : a + Score.impossible ≤ Score.impossible

/-- Scores whose sums stay possible, and whose logarithms of sums are never below their terms. -/
class LosslessScore (α : Type) [Score α] : Prop extends MonotoneScore α where
  impossible_lt_add {a b : α} :
    Score.impossible < a → Score.impossible < b → Score.impossible < a + b
  le_add_zero (a : α) : a ≤ a + 0
  softplus_nonneg (a : α) : 0 ≤ Score.softplus a
  tableSoftplus_nonneg (a : α) : 0 ≤ Score.tableSoftplus a

/-- Scores that stay possible, or impossible, if something possible is taken off. -/
class DivisibleScore (α : Type) [Score α] : Prop extends LosslessScore α where
  impossible_lt_sub_iff {a b : α} :
    Score.impossible < b → (Score.impossible < a - b ↔ Score.impossible < a)

/-- Scores to which certainty adds nothing on either side. -/
class UnitalScore (α : Type) [Score α] : Prop extends MonotoneScore α where
  add_zero_le (a : α) : a + 0 ≤ a

namespace Score

variable {α : Type} [Score α] [MonotoneScore α] {a b c d : α}

protected theorem le_refl (a : α) : a ≤ a := MonotoneScore.le_refl a

protected theorem le_trans (hab : a ≤ b) (hbc : b ≤ c) : a ≤ c := MonotoneScore.le_trans hab hbc

protected theorem not_le : ¬ a ≤ b ↔ b < a := MonotoneScore.lt_iff_not_le.symm

protected theorem not_lt : ¬ a < b ↔ b ≤ a := by
  rw [MonotoneScore.lt_iff_not_le, Classical.not_not]

protected theorem le_of_lt (h : a < b) : a ≤ b :=
  (MonotoneScore.le_total a b).resolve_right (Score.not_le.2 h)

protected theorem lt_irrefl (a : α) : ¬ a < a := Score.not_lt.2 (Score.le_refl a)

protected theorem lt_of_lt_of_le (hab : a < b) (hbc : b ≤ c) : a < c :=
  Score.not_le.1 fun hca => Score.not_le.2 hab (Score.le_trans hbc hca)

protected theorem lt_of_le_of_lt (hab : a ≤ b) (hbc : b < c) : a < c :=
  Score.not_le.1 fun hca => Score.not_le.2 hbc (Score.le_trans hca hab)

protected theorem lt_or_ge (a b : α) : a < b ∨ b ≤ a := by
  by_cases h : a < b
  · exact .inl h
  · exact .inr (Score.not_lt.1 h)

theorem add_le_add_left (h : b ≤ c) (a : α) : a + b ≤ a + c :=
  MonotoneScore.add_le_add (Score.le_refl a) h

theorem add_le_add_right (h : a ≤ b) (c : α) : a + c ≤ b + c :=
  MonotoneScore.add_le_add h (Score.le_refl c)

/-- A rule that is no gain leaves a score no higher. -/
theorem add_le_of_nonpos (h : a ≤ 0) (b : α) : a + b ≤ b :=
  Score.le_trans (add_le_add_right h b) (MonotoneScore.zero_add_le b)

theorem impossible_le (a : α) : impossible ≤ a := MonotoneScore.impossible_le a

theorem not_impossible_lt_impossible : ¬ (impossible : α) < impossible := Score.lt_irrefl _

theorem admissible_iff : admissible a = true ↔ impossible < a := by
  rw [← Score.not_le, ← MonotoneScore.beq_impossible_iff]
  simp [admissible, MonotoneScore.isNaN_eq_false]

theorem beq_impossible_eq_false_iff : (a == impossible) = false ↔ impossible < a := by
  rw [← Score.not_le, ← MonotoneScore.beq_impossible_iff, Bool.not_eq_true]

/-- The parts of a possible sum are possible. -/
theorem impossible_lt_of_add (h : impossible < a + b) : impossible < a ∧ impossible < b := by
  constructor
  · refine Score.not_le.1 fun ha => Score.not_le.2 h ?_
    exact Score.le_trans (add_le_add_right ha b) (MonotoneScore.impossible_add_le b)
  · refine Score.not_le.1 fun hb => Score.not_le.2 h ?_
    exact Score.le_trans (add_le_add_left hb a) (MonotoneScore.add_impossible_le a)

omit [MonotoneScore α] in
theorem best_eq_left_or_right (a b : α) : best a b = a ∨ best a b = b := by
  unfold best
  split
  · exact .inr rfl
  · split
    · exact .inr rfl
    · exact .inl rfl

omit [MonotoneScore α] in
theorem best_le (ha : a ≤ c) (hb : b ≤ c) : best a b ≤ c := by
  rcases best_eq_left_or_right a b with heq | heq <;> rw [heq]
  · exact ha
  · exact hb

theorem best_eq_ite (a b : α) : best a b = if a < b then b else a := by
  simp [best, MonotoneScore.isNaN_eq_false]

theorem le_best_left (a b : α) : a ≤ best a b := by
  rw [best_eq_ite]
  split
  · next h => exact Score.le_of_lt h
  · exact Score.le_refl a

theorem le_best_right (a b : α) : b ≤ best a b := by
  rw [best_eq_ite]
  split
  · exact Score.le_refl b
  · next h => exact Score.not_lt.1 h

/-- The best of some scores is the greatest of them. -/
theorem isGreatest_foldl_best (x : α) (rest : List α) :
    IsGreatest {y | y ∈ x :: rest} (rest.foldl Score.best x) := by
  induction rest generalizing x with
  | nil => exact ⟨List.mem_cons_self, fun y hy => List.mem_singleton.1 hy ▸ Score.le_refl x⟩
  | cons z rest ih =>
    obtain ⟨hmem, hle⟩ := ih (Score.best x z)
    have hfirst : Score.best x z ≤ rest.foldl Score.best (Score.best x z) := hle List.mem_cons_self
    constructor
    · rcases List.mem_cons.1 hmem with heq | hmem
      · rw [Set.mem_ofPred_eq, List.foldl_cons, heq]
        rcases best_eq_left_or_right x z with hbest | hbest <;> simp [hbest]
      · exact List.mem_cons_of_mem _ (List.mem_cons_of_mem _ hmem)
    · intro y hy
      rcases List.mem_cons.1 hy with rfl | hy
      · exact Score.le_trans (le_best_left y z) hfirst
      · rcases List.mem_cons.1 hy with rfl | hy
        · exact Score.le_trans (le_best_right x y) hfirst
        · exact hle (List.mem_cons_of_mem _ hy)

end Score

variable {α : Type} [Score α]

/-- What is no gain leaves a score no higher on its right either. -/
theorem Score.add_le_of_nonpos_right [UnitalScore α] {b : α} (h : b ≤ 0) (a : α) : a + b ≤ a :=
  Score.le_trans (Score.add_le_add_left h a) (UnitalScore.add_zero_le a)

/-- Possible scores combine to possible ones. -/
def Accumulator.KeepsPossible (acc : Accumulator α) : Prop :=
  ∀ a b : α, Score.impossible < a → Score.impossible < b → Score.impossible < acc.combine a b

section Lossless

variable [LosslessScore α]

theorem Score.impossible_lt_add_iff {a b : α} :
    Score.impossible < a + b ↔ Score.impossible < a ∧ Score.impossible < b :=
  ⟨Score.impossible_lt_of_add, fun h => LosslessScore.impossible_lt_add h.1 h.2⟩

/-- If anything is possible, then so is nothing at all. -/
theorem LosslessScore.impossible_lt_zero {a : α} (h : Score.impossible < a) :
    (Score.impossible : α) < 0 :=
  (Score.impossible_lt_of_add (Score.lt_of_lt_of_le h (le_add_zero a))).2

theorem Score.le_descending (a b : α) :
    a ≤ (Score.descending a b).1 ∧ b ≤ (Score.descending a b).1 := by
  unfold Score.descending
  split
  · next hle => exact ⟨Score.le_refl a, hle⟩
  · next hlt => exact ⟨Score.le_of_lt (Score.not_le.1 hlt), Score.le_refl b⟩

theorem Score.le_add_of_nonneg {a b : α} (h : 0 ≤ b) : a ≤ a + b :=
  Score.le_trans (LosslessScore.le_add_zero a) (Score.add_le_add_left h a)

/-- The larger of two scores is at most their combination, exact or not. -/
theorem Accumulator.descending_le_combine (cutoff : α) (byTable : Bool) (a b : α) :
    (Score.descending a b).1 ≤ (Accumulator.sum cutoff byTable).combine a b := by
  cases byTable with
  | false =>
    show _ ≤ Score.logSumWithin cutoff a b
    simp only [Score.logSumWithin]
    split
    · exact Score.le_refl _
    · exact Score.le_add_of_nonneg (LosslessScore.softplus_nonneg _)
  | true =>
    show _ ≤ Score.logSumTable cutoff a b
    simp only [Score.logSumTable]
    split
    · exact Score.le_refl _
    · exact Score.le_add_of_nonneg (LosslessScore.tableSoftplus_nonneg _)

/-- No alternative is lost in a combination. -/
theorem Accumulator.le_combine (acc : Accumulator α) (a b : α) :
    a ≤ acc.combine a b ∧ b ≤ acc.combine a b := by
  cases acc with
  | best => exact ⟨Score.le_best_left a b, Score.le_best_right a b⟩
  | sum cutoff byTable =>
    have hle := Accumulator.descending_le_combine cutoff byTable a b
    obtain ⟨ha, hb⟩ := Score.le_descending a b
    exact ⟨Score.le_trans ha hle, Score.le_trans hb hle⟩

theorem Accumulator.keepsPossible (acc : Accumulator α) : acc.KeepsPossible :=
  fun a b ha _ => Score.lt_of_lt_of_le ha (acc.le_combine a b).1

end Lossless

theorem Accumulator.keepsPossible_best [MonotoneScore α] :
    (Accumulator.best : Accumulator α).KeepsPossible :=
  fun a b ha _ => Score.lt_of_lt_of_le ha (Score.le_best_left a b)

/-- Scores stand for the members of a commutative semiring, and impossible ones for zero. Alternatives do
not cancel each other. -/
structure Accumulator.Exact {α : Type} [Score α] (acc : Accumulator α) (R : Type)
    [CommSemiring R] (weight : α → R) : Prop where
  combine : ∀ a b, weight (acc.combine a b) = weight a + weight b
  add : ∀ a b, weight (a + b) = weight a * weight b
  zero : weight 0 = 1
  impossible : weight Score.impossible = 0
  not_possible : ∀ a, ¬ Score.impossible < a → weight a = 0
  beq_impossible : ∀ a, (a == Score.impossible) = true → weight a = 0
  eq_zero_of_add : ∀ x y : R, x + y = 0 → x = 0

end Constituency
