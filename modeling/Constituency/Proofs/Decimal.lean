import Constituency.Options
import Mathlib

/-!
# Numbers in double precision

A single-precision number has a mantissa of twenty-four bits, so that its multiples by numbers of
twenty-nine bits are exact in double precision (`BinaryFraction.floor_times`).
-/

namespace Constituency

namespace Decimal

variable {x : BinaryFraction} {count : Nat}

/-- The largest natural number that does not exceed the number, and zero if there is none. -/
def BinaryFraction.floor (x : BinaryFraction) : Nat :=
  if x.negative then 0 else x.num / x.den

theorem roundHalfEven_one (n : Nat) : roundHalfEven n 1 = n := by
  simp [roundHalfEven, Nat.mod_one]

/-- A short mantissa is not rounded. -/
theorem BinaryFraction.inDouble_eq (h : x.mantissa < 2 ^ 53) : x.inDouble = x := by
  have hexcess : x.mantissa.log2 - 52 = 0 := by
    rcases Nat.eq_zero_or_pos x.mantissa with hzero | hpos
    · rw [hzero, Nat.log2_zero]
    · have hlog : x.mantissa.log2 < 53 := (Nat.log2_lt (Nat.pos_iff_ne_zero.1 hpos)).2 h
      omega
  simp [inDouble, hexcess, roundHalfEven_one]

theorem mantissa_lt_of_ofPattern {pattern : UInt32} (h : Value.ofPattern pattern = .finite x) :
    x.mantissa < 2 ^ 24 := by
  have hfraction : pattern.toNat % 0x800000 < 0x800000 := Nat.mod_lt _ (by decide)
  simp only [Value.ofPattern] at h
  split at h
  · split at h <;> cases h
  · split at h
    · obtain rfl := Value.finite.inj h
      exact Nat.lt_trans hfraction (by decide)
    · obtain rfl := Value.finite.inj h
      exact Nat.add_lt_add_left hfraction 0x800000

/-- The mantissa of such a multiple has at most fifty-three bits. -/
theorem BinaryFraction.floor_times (hx : x.mantissa < 2 ^ 24) (hcount : count < 2 ^ 29) :
    (x.times count).floor = if x.negative then 0 else count * x.num / x.den := by
  have hfactor : inDouble ⟨false, count, 0⟩ = ⟨false, count, 0⟩ :=
    inDouble_eq (Nat.lt_trans hcount (by decide))
  have hproduct : x.mantissa * count < 2 ^ 53 :=
    calc x.mantissa * count < 2 ^ 24 * 2 ^ 29 := Nat.mul_lt_mul'' hx hcount
      _ = 2 ^ 53 := rfl
  rw [times, hfactor, inDouble_eq hproduct]
  simp only [floor, num, den, Int.add_zero, Nat.mul_comm x.mantissa count, Nat.mul_assoc]

end Decimal

namespace Options

variable {α : Type} {o : Options α} {x : Decimal.BinaryFraction}

theorem popLimit_eq (hx : Decimal.Value.ofPattern o.overParse.toBits = .finite x) (pops : Nat) :
    o.popLimit pops =
      if (x.times pops).floor < UInt64.size - 1 then some (x.times pops).floor else none := by
  rw [popLimit, hx]
  rfl

end Options

end Constituency
