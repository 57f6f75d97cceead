import Constituency.Score.Binary32
import Mathlib

/-!
# The order of single-precision scores

A bit pattern is a sign and a magnitude, and numbers compare as their signed magnitudes do
(`lt_iff_signed_lt`). Ranks tell the two zeros apart, which compare equal, and agree with the comparison on
everything else (`outranks_iff`). All numbers but negative infinity lie above it (`negInfinity_lt`).
-/

namespace Constituency

namespace Binary32

open Float.Model (UnpackedFloat Format)
open Float.Model.UnpackedFloat

variable {pattern pattern' : UInt32} {s s' : Sign} {m m' : Nat} {a b : Float32}

/-! ## Patterns -/

/-- The bit of the sign is set. -/
def negative (pattern : UInt32) : Bool :=
  decide (0x80000000 ≤ pattern.toNat)

/-- The bits below that of the sign. -/
def magnitude (pattern : UInt32) : Nat :=
  pattern.toNat % 0x80000000

/-- The sign of a pattern. -/
def signOf (pattern : UInt32) : Sign :=
  if negative pattern then .negative else .positive

theorem toNat_signBit : signBit.toNat = 2 ^ 31 := by decide

theorem and_signBit (pattern : UInt32) : (pattern &&& signBit != 0) = negative pattern := by
  have hlt : pattern.toNat < 0x100000000 := pattern.toNat_lt
  have hbit : (pattern &&& signBit).toNat = (pattern.toNat.testBit 31).toNat * 2 ^ 31 := by
    rw [UInt32.toNat_and, toNat_signBit, Nat.and_two_pow]
  rw [Bool.eq_iff_iff, bne_iff_ne, ne_eq, ← UInt32.toNat_inj, hbit, negative, decide_eq_true_eq,
    Nat.testBit_eq_decide_div_mod_eq]
  by_cases h : pattern.toNat / 2 ^ 31 % 2 = 1
  · simp only [h, decide_true, Bool.toNat_true, UInt32.toNat_zero]
    omega
  · simp only [h, decide_false, Bool.toNat_false, UInt32.toNat_zero]
    omega

/-- Negative patterns rank in the lower half, from the largest magnitude up to `-0`, and positive ones in
the upper half, from `0` on. -/
theorem toNat_rank (pattern : UInt32) :
    (rank pattern).toNat =
      if negative pattern then 0x7fffffff - magnitude pattern
      else 0x80000000 + magnitude pattern := by
  have hlt : pattern.toNat < 0x100000000 := pattern.toNat_lt
  rw [rank, and_signBit, magnitude]
  by_cases h : negative pattern = true
  · rw [if_pos h, if_pos h, UInt32.toNat_not, UInt32.size]
    rw [negative, decide_eq_true_eq] at h
    omega
  · rw [if_neg h, if_neg h, UInt32.toNat_or, toNat_signBit]
    rw [negative, decide_eq_true_eq, Nat.not_le] at h
    have hor := Nat.two_pow_add_eq_or_of_lt (show pattern.toNat < 2 ^ 31 from h) 1
    rw [Nat.mul_one] at hor
    rw [Nat.or_comm, ← hor, Nat.mod_eq_of_lt h]

/-! ## Numbers -/

/-- The magnitude of infinity: those beyond it stand for no number. -/
def infiniteMagnitude : Nat := 0x7f800000

/-- The mantissa of a finite magnitude. A normal one has an implicit leading bit. -/
def mantissa (m : Nat) : Nat :=
  if m < 0x800000 then m else 0x800000 + m % 0x800000

/-- The exponent of a finite magnitude. -/
def exponent (m : Nat) : Int :=
  if m < 0x800000 then -149 else ((m / 0x800000 : Nat) : Int) - 150

theorem mantissa_pos (h : m ≠ 0) : 0 < mantissa m := by
  unfold mantissa
  split <;> omega

/-- Larger magnitudes have larger exponents, or the same and larger mantissas. -/
theorem compare_finite (m m' : Nat) :
    (compare (exponent m) (exponent m')).then (compare (mantissa m) (mantissa m')) =
      compare m m' := by
  have hless : ∀ {a b : Nat}, a < b →
      (compare (exponent a) (exponent b)).then (compare (mantissa a) (mantissa b)) = .lt := by
    intro a b hab
    have horder : exponent a < exponent b ∨ exponent a = exponent b ∧ mantissa a < mantissa b := by
      unfold exponent mantissa
      split <;> split <;> omega
    rcases horder with hlt | ⟨heq, hlt⟩
    · rw [Int.compare_eq_lt.2 hlt, Ordering.lt_then]
    · rw [Int.compare_eq_eq.2 heq, Ordering.eq_then, Nat.compare_eq_lt.2 hlt]
  rcases Nat.lt_trichotomy m m' with hlt | rfl | hgt
  · rw [hless hlt, Nat.compare_eq_lt.2 hlt]
  · simp
  · rw [Nat.compare_eq_gt.2 hgt, ← Int.compare_swap, ← Nat.compare_swap, ← Ordering.swap_then,
      hless hgt, Ordering.swap_lt]

/-- What a sign and a magnitude stand for. -/
def unpacked (s : Sign) (m : Nat) : UnpackedFloat :=
  if h : m = 0 then .zero s
  else if m < infiniteMagnitude then .finite s (mantissa m) (exponent m) (mantissa_pos h)
  else if m = infiniteMagnitude then .infinity s
  else .notANumber

theorem unpacked_zero (s : Sign) : unpacked s 0 = .zero s := rfl

theorem unpacked_finite (s : Sign) (hne : m ≠ 0) (hlt : m < infiniteMagnitude) :
    unpacked s m = .finite s (mantissa m) (exponent m) (mantissa_pos hne) := by
  rw [unpacked, dif_neg hne, if_pos hlt]

theorem unpacked_infinite (s : Sign) : unpacked s infiniteMagnitude = .infinity s := rfl

theorem unpacked_beyond (s : Sign) (hlt : infiniteMagnitude < m) : unpacked s m = .notANumber := by
  have hne : m ≠ 0 := Nat.ne_zero_of_lt hlt
  rw [unpacked, dif_neg hne, if_neg (Nat.lt_asymm hlt), if_neg (Nat.ne_of_gt hlt)]

theorem toNat_mantissa (pattern : UInt32) :
    (@unpackMantissa .binary32 pattern.toBitVec).toNat = pattern.toNat % 0x800000 := by
  rw [unpackMantissa_def, BitVec.extractLsb'_toNat]
  rfl

theorem toNat_exponent (pattern : UInt32) :
    (@unpackExponent .binary32 pattern.toBitVec).toNat =
      pattern.toNat / 0x800000 % 256 := by
  rw [unpackExponent_def, BitVec.extractLsb'_toNat, Nat.shiftRight_eq_div_pow]
  rfl

theorem ofBitVec_sign (pattern : UInt32) :
    Sign.ofBitVec (@unpackSign .binary32 pattern.toBitVec) = signOf pattern := by
  have hlt : pattern.toNat < 0x100000000 := pattern.toNat_lt
  have hbit : (@unpackSign .binary32 pattern.toBitVec).toNat =
      pattern.toNat / 0x80000000 % 2 := by
    rw [unpackSign_def, BitVec.extractLsb'_toNat, Nat.shiftRight_eq_div_pow]
    rfl
  have hzero : (0#1).toNat = 0 := rfl
  simp only [Sign.ofBitVec, signOf, negative, ← BitVec.toNat_inj, hbit, hzero, decide_eq_true_eq]
  split <;> split <;> first | rfl | omega

/-- The leading bit of a normal mantissa is implicit. -/
theorem toNat_normal (pattern : UInt32) :
    (1#1 ++ @unpackMantissa .binary32 pattern.toBitVec).toNat =
      0x800000 + pattern.toNat % 0x800000 := by
  have hlt : pattern.toNat % 0x800000 < 2 ^ 23 := Nat.mod_lt _ (by decide)
  rw [BitVec.toNat_append, toNat_mantissa]
  exact (Nat.two_pow_add_eq_or_of_lt hlt 1).symm

/-- The three fields of a pattern are its sign and its magnitude. -/
theorem unpack_eq (pattern : UInt32) :
    UnpackedFloat.unpack .binary32 pattern.toBitVec =
      unpacked (signOf pattern) (magnitude pattern) := by
  have hmag : magnitude pattern = pattern.toNat % 0x80000000 := rfl
  have hinf : infiniteMagnitude = 0x7f800000 := rfl
  have hones : (-1#(Format.binary32).exponentBits).toNat = 255 := by decide
  have hnone : (0#(Format.binary32).exponentBits).toNat = 0 := by decide
  have hblank : (0#(Format.binary32).mantissaBitsWithoutImplicit).toNat = 0 := by decide
  have hbias : (((Format.binary32).exponentBias : Nat) : Int) = 127 := by decide
  have hbits : (((Format.binary32).mantissaBitsWithoutImplicit : Nat) : Int) = 23 := rfl
  have hman := toNat_mantissa pattern
  have hexp := toNat_exponent pattern
  have hnormal := toNat_normal pattern
  unfold UnpackedFloat.unpack
  simp only [ofBitVec_sign, ← BitVec.toNat_inj, hones, hnone, hblank, hbias, hbits]
  split
  · split
    · next hall hzero =>
      rw [show magnitude pattern = infiniteMagnitude by omega, unpacked_infinite]
    · rw [unpacked_beyond _ (by omega)]
  · split
    · split
      · rw [show magnitude pattern = 0 by omega, unpacked_zero]
      · rw [unpacked_finite _ (by omega) (by omega)]
        congr 1
        · rw [mantissa, if_pos (by omega)]
          omega
        · rw [exponent, if_pos (by omega)]
          omega
    · rw [unpacked_finite _ (by omega) (by omega)]
      congr 1
      · rw [mantissa, if_neg (by omega)]
        omega
      · rw [exponent, if_neg (by omega)]
        omega

/-- The magnitudes of numbers go up to that of infinity. -/
theorem isNaN_eq_false_iff : a.isNaN = false ↔ magnitude a.toBits ≤ infiniteMagnitude := by
  show (UnpackedFloat.unpack .binary32 a.toBits.toBitVec).isNaN = false ↔ _
  rw [unpack_eq]
  rcases Nat.lt_trichotomy (magnitude a.toBits) infiniteMagnitude with hlt | heq | hgt
  · refine iff_of_true ?_ (Nat.le_of_lt hlt)
    by_cases hzero : magnitude a.toBits = 0
    · rw [hzero, unpacked_zero]
      rfl
    · rw [unpacked_finite _ hzero hlt]
      rfl
  · rw [heq, unpacked_infinite]
    exact iff_of_true rfl (Nat.le_refl _)
  · rw [unpacked_beyond _ hgt]
    exact iff_of_false Bool.noConfusion (Nat.not_le.2 hgt)

theorem unpacked_of_isNaN (ha : a.isNaN = true) :
    unpacked (signOf a.toBits) (magnitude a.toBits) = .notANumber := by
  refine unpacked_beyond _ (Nat.not_le.1 fun hle => ?_)
  exact Bool.noConfusion (ha.symm.trans (isNaN_eq_false_iff.2 hle))

/-! ## Comparison -/

/-- The magnitude of a pattern with its sign. -/
def signed (pattern : UInt32) : Int :=
  (signOf pattern).apply (magnitude pattern)

/-- A number of a magnitude is zero, finite or infinite. -/
theorem number_cases (hm : m ≤ infiniteMagnitude) :
    m = 0 ∨ (m ≠ 0 ∧ m < infiniteMagnitude) ∨ m = infiniteMagnitude := by
  omega

theorem compare_natCast (m m' : Nat) : compare (m : Int) (m' : Int) = compare m m' := by
  rw [Int.compare_eq_ite_lt, Nat.compare_eq_ite_lt]
  simp only [Int.ofNat_lt]

theorem compare_neg_natCast (m m' : Nat) :
    compare (-(m : Int)) (-(m' : Int)) = (compare m m').swap := by
  rw [Int.compare_eq_ite_lt, Nat.compare_swap, Nat.compare_eq_ite_lt]
  simp only [Int.neg_lt_neg_iff, Int.ofNat_lt]

/-- Numbers compare as their signed magnitudes do. -/
theorem compare_unpacked (s s' : Sign) (hm : m ≤ infiniteMagnitude) (hm' : m' ≤ infiniteMagnitude) :
    (unpacked s m).compare (unpacked s' m') = some (compare (s.apply m) (s'.apply m')) := by
  have hpos : 0 < infiniteMagnitude := by decide
  have hless : ∀ {x y : Int}, x < y → some Ordering.lt = some (compare x y) :=
    fun h => congrArg some (Int.compare_eq_lt.2 h).symm
  have hgreater : ∀ {x y : Int}, y < x → some Ordering.gt = some (compare x y) :=
    fun h => congrArg some (Int.compare_eq_gt.2 h).symm
  have hequal : ∀ {x y : Int}, x = y → some Ordering.eq = some (compare x y) :=
    fun h => congrArg some (Int.compare_eq_eq.2 h).symm
  rcases number_cases hm with rfl | ⟨hne, hlt⟩ | rfl <;>
    rcases number_cases hm' with rfl | ⟨hne', hlt'⟩ | rfl
  case inr.inl.inr.inl =>
    rw [unpacked_finite s hne hlt, unpacked_finite s' hne' hlt']
    cases s <;> cases s' <;> simp only [UnpackedFloat.compare, Sign.apply, compare_finite]
    · rw [compare_neg_natCast]
    · exact hless (by omega)
    · exact hgreater (by omega)
    · rw [compare_natCast]
  case inl.inl => cases s <;> cases s' <;> exact hequal rfl
  case inr.inr.inr.inr =>
    cases s <;> cases s'
    · exact hequal rfl
    · exact hless (by decide)
    · exact hgreater (by decide)
    · exact hequal rfl
  -- a number is compared with a larger magnitude of either sign, and the other way round
  all_goals
    simp only [unpacked_zero, unpacked_infinite, unpacked_finite, *, ne_eq, not_false_eq_true]
    cases s <;> cases s' <;> simp only [UnpackedFloat.compare, Sign.apply] <;>
      first | exact hless (by omega) | exact hgreater (by omega)

/-- How two scores compare, if they do. -/
def order (a b : Float32) : Option Ordering :=
  (UnpackedFloat.unpack .binary32 a.toBits.toBitVec).compare
    (UnpackedFloat.unpack .binary32 b.toBits.toBitVec)

theorem order_of_numbers (ha : a.isNaN = false) (hb : b.isNaN = false) :
    order a b = some (compare (signed a.toBits) (signed b.toBits)) := by
  rw [order, unpack_eq, unpack_eq]
  exact compare_unpacked _ _ (isNaN_eq_false_iff.1 ha) (isNaN_eq_false_iff.1 hb)

/-- Only numbers compare. -/
theorem isNaN_eq_false_of_order {o : Ordering} (h : order a b = some o) :
    a.isNaN = false ∧ b.isNaN = false := by
  rw [order, unpack_eq, unpack_eq] at h
  refine ⟨Bool.eq_false_of_not_eq_true fun hnone => ?_, Bool.eq_false_of_not_eq_true fun hnone => ?_⟩
  · rw [unpacked_of_isNaN hnone] at h
    cases h
  · rw [unpacked_of_isNaN hnone] at h
    cases hleft : unpacked (signOf a.toBits) (magnitude a.toBits) <;>
      simp [hleft, UnpackedFloat.compare] at h

theorem lt_iff_order : a < b ↔ order a b = some .lt := by
  show decide ((order a b == some .lt) = true) = true ↔ _
  rw [decide_eq_true_eq, beq_iff_eq]

theorem le_iff_order : a ≤ b ↔ ∃ o, order a b = some o ∧ o.isLE = true := by
  show decide ((order a b).any (·.isLE) = true) = true ↔ _
  rw [decide_eq_true_eq, Option.any_eq_true]

theorem beq_iff_order : (a == b) = true ↔ order a b = some .eq := by
  show (order a b == some .eq) = true ↔ _
  rw [beq_iff_eq]

theorem lt_iff_signed_lt (ha : a.isNaN = false) (hb : b.isNaN = false) :
    a < b ↔ signed a.toBits < signed b.toBits := by
  rw [lt_iff_order, order_of_numbers ha hb, Option.some.injEq, Int.compare_eq_lt]

theorem le_iff_signed_le (ha : a.isNaN = false) (hb : b.isNaN = false) :
    a ≤ b ↔ signed a.toBits ≤ signed b.toBits := by
  rw [le_iff_order, order_of_numbers ha hb, ← Int.isLE_compare]
  exact ⟨fun ⟨_, ho, hle⟩ => Option.some.inj ho ▸ hle, fun hle => ⟨_, rfl, hle⟩⟩

theorem beq_iff_signed_eq (ha : a.isNaN = false) (hb : b.isNaN = false) :
    (a == b) = true ↔ signed a.toBits = signed b.toBits := by
  rw [beq_iff_order, order_of_numbers ha hb, Option.some.injEq, Int.compare_eq_eq]

/-- Ranks agree with the comparison of numbers, and put `0` before `-0`. -/
theorem outranks_iff (ha : a.isNaN = false) (hb : b.isNaN = false) :
    Score.outranks a b = true ↔ b < a ∨ a.toBits = 0 ∧ b.toBits = signBit := by
  rw [lt_iff_signed_lt hb ha]
  show decide (rank b.toBits < rank a.toBits) = true ↔ _
  rw [decide_eq_true_eq, UInt32.lt_iff_toNat_lt, toNat_rank, toNat_rank, ← UInt32.toNat_inj,
    ← UInt32.toNat_inj, toNat_signBit, UInt32.toNat_zero]
  have hmag : ∀ pattern : UInt32, pattern.toNat < 0x100000000 ∧
      magnitude pattern = pattern.toNat % 0x80000000 := fun pattern => ⟨pattern.toNat_lt, rfl⟩
  obtain ⟨hlta, hmaga⟩ := hmag a.toBits
  obtain ⟨hltb, hmagb⟩ := hmag b.toBits
  unfold signed signOf
  cases hna : negative a.toBits <;> cases hnb : negative b.toBits <;>
    simp only [negative, decide_eq_true_eq, decide_eq_false_iff_not] at hna hnb <;>
    simp only [if_true, Bool.false_eq_true, if_false, Sign.apply] <;> omega

theorem isNaN_eq_false_of_le (h : a ≤ b) : a.isNaN = false := by
  obtain ⟨o, ho, -⟩ := le_iff_order.1 h
  exact (isNaN_eq_false_of_order ho).1

theorem isNaN_eq_false_of_ge (h : b ≤ a) : a.isNaN = false := by
  obtain ⟨o, ho, -⟩ := le_iff_order.1 h
  exact (isNaN_eq_false_of_order ho).2

theorem isNaN_eq_false_of_lt (h : a < b) : a.isNaN = false ∧ b.isNaN = false :=
  isNaN_eq_false_of_order (lt_iff_order.1 h)

theorem isNaN_eq_false_of_beq (h : (a == b) = true) : a.isNaN = false ∧ b.isNaN = false :=
  isNaN_eq_false_of_order (beq_iff_order.1 h)

theorem not_lt_of_le (h : a ≤ b) (hb : b.isNaN = false) : ¬ b < a := by
  have ha := isNaN_eq_false_of_le h
  rw [lt_iff_signed_lt hb ha]
  rw [le_iff_signed_le ha hb] at h
  exact Int.not_lt.2 h

theorem isNaN_zero : (0 : Float32).isNaN = false := by decide

/-! ## Negative infinity -/

theorem isNaN_negInfinity : negInfinity.isNaN = false := by decide

theorem signed_negInfinity : signed negInfinity.toBits = -(infiniteMagnitude : Int) := by decide

theorem not_lt_negInfinity : ¬ a < negInfinity := by
  intro h
  have ha := (isNaN_eq_false_of_lt h).1
  have hmag := isNaN_eq_false_iff.1 ha
  rw [lt_iff_signed_lt ha isNaN_negInfinity, signed_negInfinity] at h
  unfold signed at h
  cases hsign : signOf a.toBits <;> simp only [hsign, Sign.apply] at h <;> omega

/-- All other numbers lie above it. -/
theorem negInfinity_lt (ha : a.isNaN = false) (hne : (a == negInfinity) = false) :
    negInfinity < a := by
  have hmag := isNaN_eq_false_iff.1 ha
  have hlow : -(infiniteMagnitude : Int) ≤ signed a.toBits := by
    unfold signed
    cases signOf a.toBits <;> simp only [Sign.apply] <;> omega
  rw [← Bool.not_eq_true, beq_iff_signed_eq ha isNaN_negInfinity, signed_negInfinity] at hne
  rw [lt_iff_signed_lt isNaN_negInfinity ha, signed_negInfinity]
  omega

/-- Scores that derivations can have lie above it. -/
theorem admissible_iff : Score.admissible a = true ↔ negInfinity < a := by
  rw [Score.admissible, Bool.not_eq_true', Bool.or_eq_false_iff]
  constructor
  · rintro ⟨hne, ha⟩
    exact negInfinity_lt ha hne
  · intro hlt
    have ha := (isNaN_eq_false_of_lt hlt).2
    refine ⟨?_, ha⟩
    rw [← Bool.not_eq_true]
    intro hbeq
    have hsigned := (beq_iff_signed_eq ha isNaN_negInfinity).1 hbeq
    exact ((lt_iff_signed_lt isNaN_negInfinity ha).1 hlt).ne' hsigned

/-- Nothing else compares as low: the magnitude and the sign leave a single pattern. -/
theorem eq_negInfinity_of_le (h : a ≤ negInfinity) : a = negInfinity := by
  have ha := isNaN_eq_false_of_le h
  have hmag := isNaN_eq_false_iff.1 ha
  rw [le_iff_signed_le ha isNaN_negInfinity, signed_negInfinity] at h
  have hinf : infiniteMagnitude = 0x7f800000 := rfl
  have hmagnitude : magnitude a.toBits = a.toBits.toNat % 0x80000000 := rfl
  have hlt := a.toBits.toNat_lt
  have hnat : a.toBits.toNat = 0xff800000 := by
    unfold signed signOf at h
    cases hneg : negative a.toBits <;>
      simp only [hneg, if_true, Bool.false_eq_true, if_false, Sign.apply] at h <;>
      simp only [negative, decide_eq_true_eq, decide_eq_false_iff_not] at hneg <;> omega
  have hpattern : a.toBits = 0xff800000 := UInt32.toNat_inj.1 hnat
  rw [← Float32.ofBits_toBits a, hpattern]
  rfl

end Binary32

end Constituency
