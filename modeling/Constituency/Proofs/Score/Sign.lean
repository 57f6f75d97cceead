import Constituency.Proofs.Score.Binary32

/-!
# Signs of single-precision numbers

A number is packed into a bit pattern as its sign and its magnitude, next to each other (`toNat_pack`).
Negation turns the sign of the pattern and leaves its magnitude alone (`sign_magnitude_neg`), and what is at
most zero has a minus sign or no magnitude (`le_zero_iff`).
-/

namespace Constituency

namespace Binary32

open Float.Model (UnpackedFloat Format)
open Float.Model.UnpackedFloat

variable {s : Sign} {m : Nat} {a : Float32} {pattern : UInt32}

/-! ## Packing -/

/-- The bit of a sign, in its place. -/
def signPart : Sign → Nat
  | .negative => 0x80000000
  | .positive => 0

theorem toNat_packComponents (s : Sign) (e : BitVec 8) (f : BitVec 23) :
    (packComponents .binary32 s e f).toNat = signPart s + e.toNat * 0x800000 + f.toNat := by
  have he := e.isLt
  have hf := f.isLt
  have hsign : s.toBitVec.toNat * 2 ^ 31 = signPart s := by
    cases s <;> rfl
  have hfields : (packComponents .binary32 s e f).toNat =
      ((s.toBitVec.toNat <<< 8 ||| e.toNat) <<< 23) ||| f.toNat := by
    unfold packComponents
    rw [BitVec.toNat_append, BitVec.toNat_append]
  rw [hfields, ← Nat.shiftLeft_add_eq_or_of_lt he, ← Nat.shiftLeft_add_eq_or_of_lt hf,
    Nat.shiftLeft_eq, Nat.shiftLeft_eq, ← hsign, Nat.add_mul, Nat.mul_assoc]
  rfl

theorem log2_mantissa (h : ¬ m < 0x800000) : (mantissa m).log2 = 23 := by
  have hmantissa : mantissa m = 0x800000 + m % 0x800000 := if_neg h
  have hne : mantissa m ≠ 0 := by omega
  have hlt : (mantissa m).log2 < 24 := (Nat.log2_lt hne).2 (by omega)
  have hle : 23 ≤ (mantissa m).log2 := (Nat.le_log2 hne).2 (by omega)
  omega

/-- A sign and a magnitude are packed next to each other. -/
theorem toNat_pack (s : Sign) (hm : m ≤ infiniteMagnitude) :
    (UnpackedFloat.pack .binary32 (unpacked s m)).toNat = signPart s + m := by
  have hinf : infiniteMagnitude = 0x7f800000 := rfl
  have hbias : (((Format.binary32).exponentBias : Nat) : Int) = 127 := by decide
  have hbits : (((Format.binary32).mantissaBitsWithoutImplicit : Nat) : Int) = 23 := rfl
  rcases number_cases hm with rfl | ⟨hne, hlt⟩ | rfl
  · rw [unpacked_zero]
    exact toNat_packComponents s 0 0
  · rw [unpacked_finite s hne hlt, UnpackedFloat.pack]
    by_cases hsmall : m < 0x800000
    · have hmantissa : mantissa m = m := if_pos hsmall
      have hexponent : exponent m = -149 := if_pos hsmall
      have hlog : m.log2 < 23 := (Nat.log2_lt hne).2 hsmall
      have hleading : ¬ m.log2 + 1 = (Format.binary32).mantissaBits := by
        show ¬ m.log2 + 1 = 24
        omega
      simp only [hmantissa, hexponent, hbias, hbits]
      rw [if_neg (by decide), if_neg hleading]
      refine (toNat_packComponents s 0 (BitVec.ofNat 23 m)).trans ?_
      rw [BitVec.toNat_ofNat, Nat.mod_eq_of_lt hsmall]
      rfl
    · have hmantissa : mantissa m = 0x800000 + m % 0x800000 := if_neg hsmall
      have hexponent : exponent m = ((m / 0x800000 : Nat) : Int) - 150 := if_neg hsmall
      have hbiased : (exponent m + 127 + 23).toNat = m / 0x800000 := by omega
      have hleading : (mantissa m).log2 + 1 = (Format.binary32).mantissaBits :=
        congrArg (· + 1) (log2_mantissa hsmall)
      have hrange : ¬ 2 ^ (Format.binary32).exponentBits ≤ m / 0x800000 + 1 := by
        show ¬ 256 ≤ m / 0x800000 + 1
        omega
      simp only [hbias, hbits, hbiased]
      rw [if_neg hrange, if_pos hleading]
      refine (toNat_packComponents s (BitVec.ofNat 8 _) (BitVec.ofNat 23 _)).trans ?_
      rw [BitVec.toNat_ofNat, BitVec.toNat_ofNat, hmantissa]
      omega
  · rw [unpacked_infinite]
    exact toNat_packComponents s (-1#8) 0

/-- The pattern of a sign and a magnitude has them. -/
theorem signOf_magnitude (hm : m < 0x80000000) (h : pattern.toNat = signPart s + m) :
    signOf pattern = s ∧ magnitude pattern = m := by
  unfold signOf negative magnitude
  cases s with
  | negative =>
    have hsum : pattern.toNat = 0x80000000 + m := h
    rw [if_pos (decide_eq_true (by omega))]
    exact ⟨rfl, by omega⟩
  | positive =>
    have hsum : pattern.toNat = m := h.trans (Nat.zero_add m)
    rw [if_neg (by simp; omega)]
    exact ⟨rfl, by omega⟩

/-! ## Signs -/

theorem signOf_eq_negative_iff : signOf pattern = .negative ↔ negative pattern = true := by
  unfold signOf
  cases negative pattern with
  | true => exact iff_of_true rfl rfl
  | false => exact iff_of_false (fun h => nomatch h) (fun h => nomatch h)

/-- A number without its sign and with it. -/
theorem sign_magnitude_ofBits (h : magnitude pattern ≤ infiniteMagnitude) :
    signOf (Float32.ofBits pattern).toBits = signOf pattern ∧
      magnitude (Float32.ofBits pattern).toBits = magnitude pattern := by
  have hinf : infiniteMagnitude < 0x80000000 := by decide
  refine signOf_magnitude (Nat.lt_of_le_of_lt h hinf) ?_
  show (UnpackedFloat.pack .binary32 (UnpackedFloat.unpack .binary32 pattern.toBitVec)).toNat = _
  rw [unpack_eq, toNat_pack _ h]

theorem neg_unpacked (s : Sign) (m : Nat) : (unpacked s m).neg = unpacked (-s) m := by
  unfold unpacked
  split_ifs <;> rfl

/-- Negation turns the sign of a number. -/
theorem sign_magnitude_neg (h : a.isNaN = false) :
    signOf (-a).toBits = -signOf a.toBits ∧ magnitude (-a).toBits = magnitude a.toBits := by
  have hinf : infiniteMagnitude < 0x80000000 := by decide
  have hm := isNaN_eq_false_iff.1 h
  refine signOf_magnitude (Nat.lt_of_le_of_lt hm hinf) ?_
  show (UnpackedFloat.pack .binary32 (UnpackedFloat.unpack .binary32 a.toBits.toBitVec).neg).toNat = _
  rw [unpack_eq, neg_unpacked, toNat_pack _ hm]

/-- A number is at most zero if its sign says so, and zero is whatever its sign. -/
theorem le_zero_iff : a ≤ 0 ↔ a.isNaN = false ∧
    (signOf a.toBits = .negative ∨ magnitude a.toBits = 0) := by
  have hzero : signed (0 : Float32).toBits = 0 := by decide
  constructor
  · intro h
    have ha := isNaN_eq_false_of_le h
    rw [le_iff_signed_le ha isNaN_zero, hzero, signed] at h
    refine ⟨ha, ?_⟩
    cases hs : signOf a.toBits with
    | negative => exact .inl rfl
    | positive =>
      rw [hs, Sign.apply] at h
      exact .inr (by omega)
  · rintro ⟨ha, h⟩
    rw [le_iff_signed_le ha isNaN_zero, hzero, signed]
    rcases h with h | h
    · rw [h, Sign.apply]
      omega
    · rw [h]
      cases signOf a.toBits <;> decide

end Binary32

end Constituency
