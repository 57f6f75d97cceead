import Constituency.ChildCode

/-!
# Codes of children

Two non-terminals that take no more bits than a code has for each are told apart by the code of the
pair.
-/

namespace Constituency

namespace ChildCode

variable {c : ChildCode} {left right left' right' : NonTerminal}

/-- Fifteen bits at most are no sign. -/
theorem toNat_smod_of_le {n : Nat} (h : n ≤ 15) :
    ((Int32.ofNat n).toBitVec.smod 32).toNat = n := by
  have hsmall : ∀ k : Fin 16, ((Int32.ofNat k).toBitVec.smod 32).toNat = k := by decide
  exact hsmall ⟨n, Nat.lt_succ_of_le h⟩

/-- The left child stands above the bits of the right one. -/
theorem toNat_ofPair (hleft : left < 1 <<< c.shift) (hright : right < 1 <<< c.shift) :
    (c.ofPair left right).toBitVec.toNat = left <<< c.shift + right := by
  rw [Nat.one_shiftLeft] at hleft hright
  have hbits : 2 ^ c.shift ≤ 2 ^ 15 := Nat.pow_le_pow_right Nat.two_pos c.shift_le
  have hword : 2 ^ c.shift ≤ 2 ^ 32 := Nat.le_trans hbits (by decide)
  have hpair : left <<< c.shift < 2 ^ 32 :=
    calc left <<< c.shift = left * 2 ^ c.shift := Nat.shiftLeft_eq _ _
      _ < 2 ^ c.shift * 2 ^ c.shift :=
        (Nat.mul_lt_mul_right (Nat.two_pow_pos _)).2 hleft
      _ ≤ 2 ^ 15 * 2 ^ 15 := Nat.mul_le_mul hbits hbits
      _ < 2 ^ 32 := by decide
  have hleft32 : left % 2 ^ 32 = left := Nat.mod_eq_of_lt (Nat.lt_of_lt_of_le hleft hword)
  have hright32 : right % 2 ^ 32 = right := Nat.mod_eq_of_lt (Nat.lt_of_lt_of_le hright hword)
  rw [ofPair, Int32.toBitVec_or, Int32.toBitVec_shiftLeft, BitVec.toNat_or,
    BitVec.shiftLeft_eq', BitVec.toNat_shiftLeft, toNat_smod_of_le c.shift_le,
    Int32.toBitVec_ofNat', Int32.toBitVec_ofNat', BitVec.toNat_ofNat, BitVec.toNat_ofNat,
    hleft32, hright32, Nat.mod_eq_of_lt hpair, Nat.shiftLeft_add_eq_or_of_lt hright]

theorem ofPair_inj (hleft : left < 1 <<< c.shift) (hright : right < 1 <<< c.shift)
    (hleft' : left' < 1 <<< c.shift) (hright' : right' < 1 <<< c.shift) :
    c.ofPair left right = c.ofPair left' right' ↔ left = left' ∧ right = right' := by
  constructor
  · intro h
    have hcodes := congrArg (·.toBitVec.toNat) h
    simp only [toNat_ofPair hleft hright, toNat_ofPair hleft' hright', Nat.shiftLeft_eq] at hcodes
    rw [Nat.one_shiftLeft] at hright hright'
    have hpos := Nat.two_pow_pos c.shift
    -- the left child is the quotient by the number of values of the right one, which is the remainder
    have hquotient := congrArg (· / 2 ^ c.shift) hcodes
    have hremainder := congrArg (· % 2 ^ c.shift) hcodes
    simp only [Nat.mul_comm _ (2 ^ c.shift), Nat.mul_add_div hpos, Nat.mul_add_mod,
      Nat.div_eq_of_lt hright, Nat.div_eq_of_lt hright', Nat.mod_eq_of_lt hright,
      Nat.mod_eq_of_lt hright', Nat.add_zero] at hquotient hremainder
    exact ⟨hquotient, hremainder⟩
  · rintro ⟨rfl, rfl⟩
    rfl

end ChildCode

end Constituency
