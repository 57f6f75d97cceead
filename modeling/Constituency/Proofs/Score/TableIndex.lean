import Constituency.Proofs.Score.Rounding

/-!
# The index into the table

A gap is multiplied by the resolution of the table and truncated. The product keeps the sign of the gap, and
a gap below the range of the table stays below its size (`mul_tableResolution`); what is negative or no number
is truncated to zero (`tableIndex_lt`).
-/

namespace Constituency

namespace Binary32

open Float.Model (UnpackedFloat Format)
open Float.Model.UnpackedFloat

variable {m : Nat} {e : Int} {a b : Float32}

/-! ## The table -/

theorem toBitVec_mul (a b : Float32) : (a * b).toBits.toBitVec = UnpackedFloat.pack .binary32
    (UnpackedFloat.mul .binary32 (unpacked (signOf a.toBits) (magnitude a.toBits))
      (unpacked (signOf b.toBits) (magnitude b.toBits))) := by
  rw [← unpack_eq, ← unpack_eq]
  rfl

theorem unpack_tableResolution : unpacked (signOf tableResolution.toFloat32.toBits)
    (magnitude tableResolution.toFloat32.toBits) = .finite .positive 0x800000 (-13) (by decide) := by
  rfl

/-- A product with the resolution has ten more in its exponent, as far as the factor has an exponent of its
own. -/
theorem nearestMagnitude_scaled_lt (hm : 0 < m) (hlt : m < 0x42000000) :
    nearestMagnitude (mantissa m * 0x800000) (exponent m + -13) < 0x47000000 := by
  have hmantissa := mantissa_pos hm.ne'
  have hlog : (mantissa m * 0x800000).log2 = (mantissa m).log2 + 23 := log2_mul_two_pow hmantissa 23
  have hlast : lastPlace (mantissa m * 0x800000) (exponent m + -13) =
      max ((mantissa m).log2 + exponent m - 13) (-149) := by
    rw [lastPlace, hlog]
    omega
  refine Nat.lt_of_le_of_lt (Nat.min_le_left _ _) ?_
  by_cases hsmall : m < 0x800000
  · obtain ⟨hplaces, -⟩ := places_bounds (m := mantissa m * 0x800000) (e := exponent m + -13)
      (Nat.mul_pos hmantissa (by decide)) (by omega)
    have hshort : (mantissa m).log2 < 23 := by
      rw [mantissa, if_pos hsmall]
      exact (Nat.log2_lt hm.ne').2 hsmall
    have hexponent : exponent m = -149 := if_pos hsmall
    omega
  · have hlong : (mantissa m).log2 = 23 := log2_mantissa hsmall
    have hexponent : exponent m = ((m / 0x800000 : Nat) : Int) - 150 := if_neg hsmall
    have hshift : (lastPlace (mantissa m * 0x800000) (exponent m + -13) -
        (exponent m + -13)).toNat = 23 := by
      omega
    have hplaces : places (mantissa m * 0x800000) (exponent m + -13) = mantissa m := by
      rw [places, hshift]
      exact Decimal.roundHalfEven_mul_self (by decide) _
    have hvalue : mantissa m = 0x800000 + m % 0x800000 := if_neg hsmall
    rw [hplaces, hlast, hlong, hexponent, hvalue]
    omega

/-- A product with the resolution keeps the sign, and a factor below `32` stays below `32768`. -/
theorem mul_tableResolution (ha : a.isNaN = false) :
    signOf (a * tableResolution.toFloat32).toBits = signOf a.toBits ∧
      (magnitude a.toBits < 0x42000000 →
        magnitude (a * tableResolution.toFloat32).toBits < 0x47000000) := by
  have hproduct := toBitVec_mul a tableResolution.toFloat32
  rw [unpack_tableResolution] at hproduct
  have hsign : ∀ s : Sign, s * .positive = s := fun s => by cases s <;> rfl
  have hinf : infiniteMagnitude = 0x7f800000 := rfl
  rcases number_cases (isNaN_eq_false_iff.1 ha) with hzero | ⟨hne, hfin⟩ | heq
  · rw [hzero, unpacked_zero, UnpackedFloat.mul, hsign] at hproduct
    obtain ⟨hs, hm⟩ := signOf_magnitude (by decide)
      ((congrArg BitVec.toNat hproduct).trans (toNat_pack _ (Nat.zero_le _)))
    exact ⟨hs, fun _ => by rw [hm]; decide⟩
  · have hmantissa := mantissa_pos hne
    have hplace : exponent (magnitude a.toBits) + -13 ≤
        lastPlace (mantissa (magnitude a.toBits) * 0x800000) (exponent (magnitude a.toBits) + -13) := by
      rw [lastPlace, show 0x800000 = 2 ^ 23 from rfl, log2_mul_two_pow hmantissa]
      omega
    rw [unpacked_finite _ hne hfin, UnpackedFloat.mul, hsign] at hproduct
    have hnat := (congrArg BitVec.toNat hproduct).trans
      (toNat_pack_roundWithAccuracy _ (Nat.mul_pos hmantissa (by decide)) hplace)
    obtain ⟨hs, hm⟩ := signOf_magnitude
      (Nat.lt_of_le_of_lt (Nat.min_le_right _ _) (by decide : infiniteMagnitude < 0x80000000)) hnat
    exact ⟨hs, fun hlt => hm ▸ nearestMagnitude_scaled_lt (Nat.pos_of_ne_zero hne) hlt⟩
  · rw [heq, unpacked_infinite, UnpackedFloat.mul, hsign] at hproduct
    obtain ⟨hs, hm⟩ := signOf_magnitude (by decide)
      ((congrArg BitVec.toNat hproduct).trans (toNat_pack _ (Nat.le_refl _)))
    exact ⟨hs, fun hlt => by omega⟩

/-! ## Truncation -/

theorem toNat_ofNatClamp_le (n : Nat) : (UInt64.ofNatClamp n).toNat ≤ n := by
  unfold UInt64.ofNatClamp
  split
  · exact Nat.le_refl n
  · next h =>
    have hsize : UInt64.size = 2 ^ 64 := rfl
    exact Nat.le_trans (Nat.le_of_lt_succ (UInt64.toNat_lt _)) (by omega)

theorem toNat_toUInt64_le (a : Float32) : a.toUInt64.toNat ≤
    (UnpackedFloat.toInt 0 (UInt64.size - 1)
      (unpacked (signOf a.toBits) (magnitude a.toBits))).toNat := by
  rw [← unpack_eq]
  exact toNat_ofNatClamp_le _

theorem roundToInt_of_nonpos (s : Sign) (m : Nat) (he : e ≤ 0) :
    roundToInt s m e = s.apply ((m / 2 ^ (-e).toNat : Nat) : Int) := by
  have hnone : (e - 0).toNat = 0 := by omega
  have hshift : (0 - (e - ((0 : Nat) : Int))).toNat = (-e).toNat := by omega
  rw [roundToInt, decreaseExponent, hnone]
  simp only [shiftToExponent, hshift, Nat.shiftLeft_zero, shiftRight_exact]

theorem toNat_toInt_negative (m : Nat) :
    (UnpackedFloat.toInt 0 (UInt64.size - 1) (unpacked .negative m)).toNat = 0 := by
  unfold unpacked
  split_ifs
  · rfl
  · exact Int.toNat_of_nonpos (Int.neg_nonpos_of_nonneg (Int.natCast_nonneg _))
  · rfl
  · rfl

theorem toNat_toInt_positive_lt (hm : m < 0x47000000) :
    (UnpackedFloat.toInt 0 (UInt64.size - 1) (unpacked .positive m)).toNat < 0x8000 := by
  by_cases hzero : m = 0
  · rw [hzero, unpacked_zero]
    decide
  have hexponent : exponent m ≤ -9 := by
    unfold exponent
    split <;> omega
  have hmantissa : mantissa m < 0x1000000 := by
    unfold mantissa
    split <;> omega
  have hpow : 2 ^ 9 ≤ 2 ^ (-exponent m).toNat := Nat.pow_le_pow_right (by decide) (by omega)
  have hdiv : mantissa m / 2 ^ (-exponent m).toNat ≤ mantissa m / 2 ^ 9 :=
    Nat.div_le_div_left hpow (by decide)
  rw [unpacked_finite _ hzero (Nat.lt_trans hm (by decide)), UnpackedFloat.toInt,
    roundToInt_of_nonpos _ _ (by omega), Sign.apply, Int.toNat_natCast]
  omega

/-- The sample for a gap that the table covers lies in the table, also for a gap that is no number. -/
theorem tableIndex_lt {gap : Float32} (h : ¬ tableRange.toFloat32 ≤ gap) :
    tableIndex gap < tableRange * tableResolution := by
  have hsize : tableRange * tableResolution = 0x8000 := rfl
  refine Nat.lt_of_le_of_lt (toNat_toUInt64_le _) ?_
  rw [hsize]
  cases hnumber : gap.isNaN with
  | true =>
    have hproduct := toBitVec_mul gap tableResolution.toFloat32
    rw [unpacked_of_isNaN hnumber] at hproduct
    rw [← unpack_eq, hproduct]
    decide
  | false =>
    obtain ⟨hkept, hlow⟩ := mul_tableResolution hnumber
    rw [hkept]
    cases hsign : signOf gap.toBits with
    | negative =>
      rw [toNat_toInt_negative]
      decide
    | positive =>
      refine toNat_toInt_positive_lt (hlow ?_)
      have hrange : signed tableRange.toFloat32.toBits = 0x42000000 := by decide
      rw [le_iff_signed_le (by decide) hnumber, hrange, signed, hsign, Sign.apply] at h
      omega

end Binary32

end Constituency
