import Constituency.Proofs.Chart.Interleaving

/-!
# Ranks and words

A rank gives its bit pattern back and a pattern its rank, and ranks are ordered as patterns are by sign and
magnitude: the negative ones first, from the largest magnitude down to none (`Binary32.ranks_in_order`). The
word of a filled slot has the rank of its score above the number of its entry, so that it is never that of an
empty one.
-/

namespace Constituency

namespace Binary32

variable {p q : UInt32}

/-! ## Ranks -/

/-- A pattern is known from its rank. -/
theorem ofRank_rank (pattern : UInt32) : ofRank (rank pattern) = pattern := by
  have hrank := toNat_rank pattern
  have hlt := pattern.toNat_lt
  rw [ofRank, and_signBit]
  by_cases hneg : negative pattern = true
  · have hlow : negative (rank pattern) = false := by
      rw [negative, hrank, if_pos hneg, decide_eq_false_iff_not]
      omega
    rw [hlow, if_neg Bool.false_ne_true, rank, and_signBit, if_pos hneg, UInt32.not_not]
  · have hhigh : negative (rank pattern) = true := by
      rw [negative, hrank, if_neg hneg, decide_eq_true_iff]
      omega
    have hmask : (0x7fffffff : UInt32).toNat = 2 ^ 31 - 1 := rfl
    rw [hhigh, if_pos rfl, ← UInt32.toNat_inj, UInt32.toNat_and, hmask,
      Nat.and_two_pow_sub_one_eq_mod, hrank, if_neg hneg, magnitude]
    rw [negative, decide_eq_true_iff, Nat.not_le] at hneg
    omega

theorem rank_injective : Function.Injective rank :=
  Function.LeftInverse.injective ofRank_rank

/-- A rank in the upper half is that of a positive pattern, and one in the lower half that of a negative
one. -/
theorem rank_ofRank (r : UInt32) : rank (ofRank r) = r := by
  have hlt := r.toNat_lt
  rw [ofRank, and_signBit]
  by_cases hhigh : negative r = true
  · have hle : 0x80000000 ≤ r.toNat := of_decide_eq_true hhigh
    have hlow : (r &&& 0x7fffffff).toNat = r.toNat % 0x80000000 := by
      have hmask : (0x7fffffff : UInt32).toNat = 2 ^ 31 - 1 := rfl
      rw [UInt32.toNat_and, hmask, Nat.and_two_pow_sub_one_eq_mod]
    have hpositive : negative (r &&& 0x7fffffff) = false := decide_eq_false (by omega)
    rw [if_pos hhigh, ← UInt32.toNat_inj, toNat_rank, hpositive, if_neg Bool.false_ne_true, magnitude]
    omega
  · have hgt : r.toNat < 0x80000000 := Nat.not_le.1 (of_decide_eq_false (Bool.not_eq_true _ ▸ hhigh))
    have hflip : (~~~r).toNat = 0xffffffff - r.toNat := by
      rw [UInt32.toNat_not, UInt32.size]
    have hnegative : negative (~~~r) = true := decide_eq_true (by omega)
    rw [if_neg hhigh, rank, and_signBit, if_pos hnegative, UInt32.not_not]

/-! ## The order of patterns -/

/-- The total order of bit patterns: by sign, then by magnitude, which counts the other way among negative
ones. -/
def Precedes (p q : UInt32) : Prop :=
  match signOf p, signOf q with
  | .negative, .positive => True
  | .negative, .negative => magnitude q < magnitude p
  | .positive, .positive => magnitude p < magnitude q
  | .positive, .negative => False

theorem rank_lt_rank_iff (p q : UInt32) : rank p < rank q ↔ Precedes p q := by
  have hp : magnitude p < 0x80000000 := Nat.mod_lt _ (by decide)
  have hq : magnitude q < 0x80000000 := Nat.mod_lt _ (by decide)
  rw [UInt32.lt_iff_toNat_lt, toNat_rank, toNat_rank, Precedes, signOf, signOf]
  cases negative p <;> cases negative q <;>
    simp only [if_true, Bool.false_eq_true, if_false, iff_true, iff_false] <;> omega

/-- On numbers it refines their comparison. -/
theorem precedes_iff {a b : Float32} (ha : a.isNaN = false) (hb : b.isNaN = false) :
    Precedes a.toBits b.toBits ↔ a < b ∨ b.toBits = 0 ∧ a.toBits = signBit := by
  rw [← rank_lt_rank_iff, ← outranks_iff hb ha]
  exact decide_eq_true_iff.symm

end Binary32

namespace Slot

/-! ## Words -/

/-- The number of the entry is the lower half of the word. -/
theorem toUInt32_word (s : Slot Float32) : (word (some s)).toUInt32 = s.edge := by
  have hrank := (Binary32.rank s.score.toBits).toNat_lt
  have hedge := s.edge.toNat_lt
  have hshift : ((Binary32.rank s.score.toBits).toUInt64 <<< 32).toNat =
      2 ^ 32 * (Binary32.rank s.score.toBits).toNat := by
    rw [UInt64.toNat_shiftLeft, UInt32.toNat_toUInt64, show (32 : UInt64).toNat % 64 = 32 from rfl,
      Nat.shiftLeft_eq, Nat.mod_eq_of_lt (by omega), Nat.mul_comm]
  rw [← UInt32.toNat_inj, word, UInt64.toNat_toUInt32, UInt64.toNat_or, hshift,
    UInt32.toNat_toUInt64, ← Nat.two_pow_add_eq_or_of_lt hedge, Nat.mul_add_mod, Nat.mod_eq_of_lt hedge]

/-- The rank of the score is the upper half of it. -/
theorem toUInt32_word_shiftRight (s : Slot Float32) :
    (word (some s) >>> 32).toUInt32 = Binary32.rank s.score.toBits := by
  have hrank := (Binary32.rank s.score.toBits).toNat_lt
  rw [← UInt32.toNat_inj, UInt64.toNat_toUInt32, word_shiftRight, rank, Nat.mod_eq_of_lt hrank]

/-- Only the word of an empty slot is zero. -/
theorem word_ne_zero {s : Slot Float32} (h : Score.admissible s.score = true) :
    word (some s) ≠ 0 := by
  intro hzero
  have hrank := toUInt32_word_shiftRight s
  have hpos := rank_pos h
  rw [← hrank, hzero] at hpos
  exact absurd hpos (by decide)

end Slot

namespace Binary32

/-- Ranks and patterns are in the same order, one to one, and no score above the impossible one is packed
into the word of an empty slot. -/
theorem ranks_in_order :
    (∀ p, ofRank (rank p) = p) ∧ (∀ r, rank (ofRank r) = r) ∧
      (∀ p q, rank p < rank q ↔ Precedes p q) ∧
      ∀ s : Slot Float32, s.score.isNaN = false → negInfinity < s.score →
        Slot.word (some s) ≠ Slot.word none := by
  exact ⟨ofRank_rank, rank_ofRank, rank_lt_rank_iff,
    fun s _ hpossible => Slot.word_ne_zero (admissible_iff.2 hpossible)⟩

/-- The lowest finite score under the first number. -/
theorem lowest_in_order : negInfinity < Float32.ofBits 0xff7fffff ∧
    Precedes 0x80000000 0 ∧ rank 0x80000000 < rank 0 ∧
    Slot.word (some ⟨Float32.ofBits 0xff7fffff, 0⟩) ≠ Slot.word none := by
  obtain ⟨-, -, horder, hword⟩ := ranks_in_order
  have hpossible : negInfinity < Float32.ofBits 0xff7fffff := by decide
  have hzeros : Precedes 0x80000000 0 := trivial
  exact ⟨hpossible, hzeros, (horder _ _).2 hzeros, hword _ (by decide) hpossible⟩

end Binary32

end Constituency
