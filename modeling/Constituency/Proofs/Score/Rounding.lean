import Constituency.Proofs.Decimal
import Constituency.Proofs.Score.Sign

/-!
# Rounding to single precision

A mantissa is shifted to twenty-four places, or fewer if the last one would lie below `2 ^ -149`, and what is
shifted out is kept in two bits. Rounding them off and packing the result is one rounding of a quotient
(`toNat_pack_roundWithAccuracy`): a mantissa that is rounded up to the next power of two carries into the
exponent, so that the magnitude in the pattern comes out right without a case of its own.

Every finite number is an integer in units of the smallest positive one (`units`). In these units rounding
is a monotone map to signed magnitudes that keeps the numbers (`roundUnits_mono`, `roundUnits_units`).
-/

namespace Constituency

namespace Decimal

/-! ## Rounding of quotients -/

variable {num num' den : Nat}

theorem roundHalfEven_bounds (num den : Nat) :
    num / den ≤ roundHalfEven num den ∧ roundHalfEven num den ≤ num / den + 1 := by
  unfold roundHalfEven
  dsimp only
  split <;> omega

theorem roundHalfEven_mono (den : Nat) (h : num ≤ num') :
    roundHalfEven num den ≤ roundHalfEven num' den := by
  have hdiv := Nat.div_add_mod num den
  have hdiv' := Nat.div_add_mod num' den
  rcases Nat.lt_or_eq_of_le (Nat.div_le_div_right (c := den) h) with hlt | heq
  · calc roundHalfEven num den ≤ num / den + 1 := (roundHalfEven_bounds num den).2
      _ ≤ num' / den := hlt
      _ ≤ roundHalfEven num' den := (roundHalfEven_bounds num' den).1
  · have hmod : num % den ≤ num' % den := by
      rw [heq] at hdiv
      omega
    unfold roundHalfEven
    simp only [heq, Bool.or_eq_true, decide_eq_true_eq, Bool.and_eq_true, beq_iff_eq]
    split <;> split <;> omega

/-- Only the quotient of the two counts. -/
theorem roundHalfEven_mul_right {c : Nat} (hc : 0 < c) (num den : Nat) :
    roundHalfEven (num * c) (den * c) = roundHalfEven num den := by
  have hdouble : 2 * (num % den * c) = 2 * (num % den) * c := (Nat.mul_assoc ..).symm
  simp only [roundHalfEven, Nat.mul_div_mul_right _ _ hc, Nat.mul_mod_mul_right, hdouble,
    Nat.mul_lt_mul_right hc, Bool.beq_eq_decide_eq, Nat.mul_left_inj hc.ne']

/-- A multiple of the denominator is not rounded. -/
theorem roundHalfEven_mul_self (hden : 0 < den) (n : Nat) : roundHalfEven (n * den) den = n := by
  have hne : (0 == den) = false := beq_eq_false_iff_ne.2 hden.ne
  simp [roundHalfEven, hden, hne]

end Decimal

namespace Binary32

open Float.Model (UnpackedFloat Format totalExponent)
open Float.Model.UnpackedFloat
open Decimal (roundHalfEven)

/-! ## Shifting -/

/-- The bits that are shifted out are kept as far as rounding needs them. -/
theorem shiftRight_exact (m n : Nat) :
    (ExtendedMantissa.ofMantissaAndAccuracy m .exact) >>> n =
      ⟨m / 2 ^ n, decide (2 ^ n ≤ 2 * (m % 2 ^ n)), decide (2 * (m % 2 ^ n) % 2 ^ n ≠ 0)⟩ := by
  show n.repeat ExtendedMantissa.shiftRightOne _ = _
  induction n with
  | zero => simp [Nat.repeat, ExtendedMantissa.ofMantissaAndAccuracy, Nat.mod_one]
  | succ n ih =>
    have hpos : 0 < 2 ^ n := Nat.two_pow_pos n
    have hrest : m % 2 ^ n < 2 ^ n := Nat.mod_lt _ hpos
    have hmod : m % (2 ^ n * 2) = m % 2 ^ n + 2 ^ n * (m / 2 ^ n % 2) := Nat.mod_mul
    have hlow : 2 * (m % 2 ^ n + 2 ^ n * (m / 2 ^ n % 2)) % (2 ^ n * 2) = 2 * (m % 2 ^ n) := by
      rw [Nat.mul_comm (2 ^ n) 2, Nat.mul_mod_mul_left, Nat.add_mul_mod_self_left,
        Nat.mod_eq_of_lt hrest]
    rw [Nat.repeat, ih, ExtendedMantissa.shiftRightOne, Nat.pow_succ, hmod, hlow,
      Nat.div_div_eq_div_mul]
    congr 1
    · rcases Nat.mod_two_eq_zero_or_one (m / 2 ^ n) with hbit | hbit <;> rw [hbit, Bool.eq_iff_iff]
      · simp; omega
      · simp; omega
    · rw [Bool.eq_iff_iff, Bool.or_eq_true, decide_eq_true_iff, decide_eq_true_iff,
        decide_eq_true_iff]
      by_cases hhalf : 2 ^ n ≤ 2 * (m % 2 ^ n)
      · exact iff_of_true (.inl hhalf) (by omega)
      · rw [Nat.mod_eq_of_lt (Nat.not_le.1 hhalf)]
        exact or_iff_right hhalf

/-- What is left after a shift is rounded to the nearest number, from halfway to the even one. -/
theorem roundedMantissa_shiftRight (m n : Nat) :
    (ExtendedMantissa.ofMantissaAndAccuracy m .exact >>> n).roundedMantissa =
      roundHalfEven m (2 ^ n) := by
  have hrest : m % 2 ^ n < 2 ^ n := Nat.mod_lt _ (Nat.two_pow_pos n)
  rw [shiftRight_exact, ExtendedMantissa.roundedMantissa, roundHalfEven]
  generalize 2 ^ n = unit at hrest ⊢
  dsimp only
  rcases Nat.lt_trichotomy (2 * (m % unit)) unit with hless | heq | hmore
  · have hkept : ¬ (decide (unit < 2 * (m % unit)) ||
        (2 * (m % unit) == unit && m / unit % 2 == 1)) = true := by
      simp [hless.ne, hless.le]
    rw [decide_eq_false (Nat.not_le.2 hless), if_neg hkept]
    cases decide (2 * (m % unit) % unit ≠ 0) <;> rfl
  · simp only [heq, Nat.mod_self, Nat.le_refl, Nat.lt_irrefl, ne_eq, not_true_eq_false, decide_true,
      decide_false, ExtendedMantissa.accuracy, Accuracy.roundToNearestEven, beq_self_eq_true,
      Bool.false_or, Bool.true_and, beq_iff_eq]
    split <;> omega
  · have hmod : 2 * (m % unit) % unit ≠ 0 := by
      rw [Nat.mod_eq_sub_mod hmore.le, Nat.mod_eq_of_lt (by omega)]
      omega
    rw [decide_eq_true hmore.le, decide_eq_true hmod, decide_eq_true hmore]
    rfl

/-! ## Rounding to the nearest number -/

variable {s : Sign} {m m' r : Nat} {e p : Int}

/-- A finite number is packed with its magnitude, or with that of infinity if it is too large. -/
theorem toNat_pack_finite (s : Sign) (hr : 0 < r) (hlt : r < 0x1000000) (hp : -149 ≤ p)
    (hnormal : p = -149 ∨ 0x800000 ≤ r) :
    (UnpackedFloat.pack .binary32 (.finite s r p hr)).toNat =
      signPart s + min ((p + 149).toNat * 0x800000 + r) infiniteMagnitude := by
  have hinf : infiniteMagnitude = 0x7f800000 := rfl
  by_cases hfits : (p + 149).toNat * 0x800000 + r < infiniteMagnitude
  · have hmantissa : mantissa ((p + 149).toNat * 0x800000 + r) = r := by
      unfold mantissa
      split <;> omega
    have hexponent : exponent ((p + 149).toNat * 0x800000 + r) = p := by
      unfold exponent
      split <;> omega
    have hunpacked : unpacked s ((p + 149).toNat * 0x800000 + r) = .finite s r p hr := by
      rw [unpacked_finite s (by omega) hfits]
      congr 1
    rw [← hunpacked, toNat_pack s hfits.le, Nat.min_eq_left hfits.le]
  · have hbias : (((Format.binary32).exponentBias : Nat) : Int) = 127 := by decide
    have hbits : (((Format.binary32).mantissaBitsWithoutImplicit : Nat) : Int) = 23 := rfl
    have hover : 2 ^ (Format.binary32).exponentBits ≤ (p + 127 + 23).toNat + 1 := by
      show 256 ≤ (p + 127 + 23).toNat + 1
      omega
    rw [Nat.min_eq_right (Nat.not_lt.1 hfits), UnpackedFloat.pack]
    simp only [hbias, hbits]
    rw [if_pos hover]
    exact toNat_packComponents s (-1#8) 0

/-- The exponent of the last place of `m * 2 ^ e`: there are twenty-four places, and none of them lies
below `2 ^ -149`. -/
def lastPlace (m : Nat) (e : Int) : Int :=
  max (m.log2 + e - 23) (-149)

theorem targetExponent_eq (m : Nat) (e : Int) :
    (Format.binary32).targetExponent (totalExponent m e) = lastPlace m e := by
  have hmin : (Format.binary32).minExponent = -149 := by decide
  have hbits : (((Format.binary32).mantissaBits : Nat) : Int) = 24 := rfl
  rw [Format.targetExponent, totalExponent, lastPlace, hmin, hbits]
  omega

/-- `m * 2 ^ e` in units of its last place. -/
def places (m : Nat) (e : Int) : Nat :=
  roundHalfEven m (2 ^ (lastPlace m e - e).toNat)

theorem places_bounds (hm : 0 < m) (he : e ≤ lastPlace m e) :
    places m e ≤ 0x1000000 ∧ (lastPlace m e = -149 ∨ 0x800000 ≤ places m e) := by
  obtain ⟨hlow, hhigh⟩ := Decimal.roundHalfEven_bounds m (2 ^ (lastPlace m e - e).toNat)
  have hlast : lastPlace m e = max (m.log2 + e - 23) (-149) := rfl
  refine ⟨Nat.le_trans hhigh ?_, ?_⟩
  · have hlt : m < 0x1000000 * 2 ^ (lastPlace m e - e).toNat :=
      calc m < 2 ^ (m.log2 + 1) := Nat.lt_log2_self
        _ ≤ 2 ^ (24 + (lastPlace m e - e).toNat) := Nat.pow_le_pow_right (by decide) (by omega)
        _ = 0x1000000 * 2 ^ (lastPlace m e - e).toNat := Nat.pow_add 2 24 _
    exact Nat.div_lt_of_lt_mul (Nat.mul_comm _ _ ▸ hlt)
  · by_cases hmin : lastPlace m e = -149
    · exact .inl hmin
    · have hle : 0x800000 * 2 ^ (lastPlace m e - e).toNat ≤ m :=
        calc 0x800000 * 2 ^ (lastPlace m e - e).toNat = 2 ^ (23 + (lastPlace m e - e).toNat) :=
              (Nat.pow_add 2 23 _).symm
          _ ≤ 2 ^ m.log2 := Nat.pow_le_pow_right (by decide) (by omega)
          _ ≤ m := Nat.log2_self_le hm.ne'
      exact .inr (Nat.le_trans ((Nat.le_div_iff_mul_le (Nat.two_pow_pos _)).2 hle) hlow)

theorem shiftToTargetExponent_eq (he : e ≤ lastPlace m e) :
    shiftToTargetExponent .binary32 m e .exact =
      (ExtendedMantissa.ofMantissaAndAccuracy m .exact >>> (lastPlace m e - e).toNat,
        lastPlace m e) := by
  rw [shiftToTargetExponent, targetExponent_eq, shiftToExponent]
  refine Prod.ext rfl ?_
  show e + ((lastPlace m e - e).toNat : Int) = lastPlace m e
  omega

/-- The magnitude of the number nearest to `m * 2 ^ e`. If the mantissa is rounded up to the next power of
two, it carries into the exponent. -/
def nearestMagnitude (m : Nat) (e : Int) : Nat :=
  min ((lastPlace m e + 149).toNat * 0x800000 + places m e) infiniteMagnitude

/-- A mantissa of twenty-four places stays as it is. -/
theorem shiftToTargetExponent_of_lt (hr : r < 0x1000000) (hp : -149 ≤ p) :
    shiftToTargetExponent .binary32 r p .exact =
      (ExtendedMantissa.ofMantissaAndAccuracy r .exact, p) := by
  have hlog : r.log2 ≤ 23 := by
    rcases Nat.eq_zero_or_pos r with rfl | hpos
    · decide
    · exact Nat.le_of_lt_succ ((Nat.log2_lt hpos.ne').2 hr)
  have hshift : (lastPlace r p - p).toNat = 0 := by
    unfold lastPlace
    omega
  rw [shiftToTargetExponent, targetExponent_eq, shiftToExponent, hshift]
  exact Prod.ext rfl (Int.add_zero p)

/-- A mantissa that has been rounded up to a power of two loses a place. -/
theorem shiftToTargetExponent_carry (hp : -149 ≤ p) :
    shiftToTargetExponent .binary32 0x1000000 p .exact =
      (ExtendedMantissa.ofMantissaAndAccuracy 0x800000 .exact, p + 1) := by
  have hlast : lastPlace 0x1000000 p = p + 1 := by
    have hlog : Nat.log2 0x1000000 = 24 := by decide
    rw [lastPlace, hlog]
    omega
  have hone : (p + 1 - p).toNat = 1 := by omega
  rw [shiftToTargetExponent_eq (by omega), hlast, hone]
  rfl

/-- What has been rounded and shifted is packed, as zero if nothing is left of it. -/
theorem toNat_pack_shifted (s : Sign) {x : ExtendedMantissa × Int} (hlt : x.1.mantissa < 0x1000000)
    (hp : -149 ≤ x.2) (hnormal : x.2 = -149 ∨ 0x800000 ≤ x.1.mantissa) :
    (UnpackedFloat.pack .binary32 (if h : x.1.mantissa = 0 then .zero s
      else .finite s x.1.mantissa x.2 (Nat.pos_of_ne_zero h))).toNat =
        signPart s + min ((x.2 + 149).toNat * 0x800000 + x.1.mantissa) infiniteMagnitude := by
  split
  · next hzero =>
    have hp : x.2 = -149 := by omega
    rw [hzero, hp]
    exact toNat_packComponents s 0 0
  · next hne => exact toNat_pack_finite s (Nat.pos_of_ne_zero hne) hlt hp hnormal

theorem toNat_pack_roundWithAccuracy (s : Sign) (hm : 0 < m) (he : e ≤ lastPlace m e) :
    (UnpackedFloat.pack .binary32 (roundWithAccuracy .binary32 s m e .exact)).toNat =
      signPart s + nearestMagnitude m e := by
  obtain ⟨hle, hnormal⟩ := places_bounds hm he
  have hmin : -149 ≤ lastPlace m e := Int.le_max_right _ _
  have hplaces : (ExtendedMantissa.ofMantissaAndAccuracy m .exact >>>
      (lastPlace m e - e).toNat).roundedMantissa = places m e := roundedMantissa_shiftRight m _
  rw [roundWithAccuracy, shiftToTargetExponent_eq he]
  simp only [hplaces]
  rcases Nat.lt_or_eq_of_le hle with hlt | heq
  · have hkept := shiftToTargetExponent_of_lt hlt hmin
    refine (toNat_pack_shifted s ?_ ?_ ?_).trans ?_ <;> rw [hkept]
    · exact hlt
    · exact hmin
    · exact hnormal
    · rfl
  · have hcarry := shiftToTargetExponent_carry hmin
    rw [← heq] at hcarry
    refine (toNat_pack_shifted s ?_ ?_ ?_).trans ?_ <;> rw [hcarry]
    · exact (by decide : 0x800000 < 0x1000000)
    · exact Int.le_add_one hmin
    · exact .inr (Nat.le_refl _)
    · have hsum : (lastPlace m e + 1 + 149).toNat * 0x800000 + 0x800000 =
          (lastPlace m e + 149).toNat * 0x800000 + 0x1000000 := by omega
      rw [nearestMagnitude, heq, ← hsum]
      rfl

/-! ## Numbers as integers -/

/-- A finite magnitude in units of the smallest one, `2 ^ -149`. -/
def unitsOf (m : Nat) : Nat :=
  mantissa m * 2 ^ (exponent m + 149).toNat

/-- The magnitude nearest to a number of units. -/
def nearestUnits (n : Nat) : Nat :=
  nearestMagnitude n (-149)

theorem log2_mul_two_pow (hm : 0 < m) (k : Nat) : (m * 2 ^ k).log2 = m.log2 + k := by
  refine (Nat.log2_eq_iff (Nat.mul_pos hm (Nat.two_pow_pos k)).ne').2 ⟨?_, ?_⟩
  · rw [Nat.pow_add]
    exact Nat.mul_le_mul_right _ (Nat.log2_self_le hm.ne')
  · rw [Nat.add_right_comm, Nat.pow_add]
    exact Nat.mul_lt_mul_of_pos_right Nat.lt_log2_self (Nat.two_pow_pos k)

/-- It does not matter in which units a number is given. -/
theorem nearestMagnitude_eq (hm : 0 < m) (he : -149 ≤ e) (hle : e ≤ lastPlace m e) :
    nearestMagnitude m e = nearestUnits (m * 2 ^ (e + 149).toNat) := by
  have hlast : lastPlace (m * 2 ^ (e + 149).toNat) (-149) = lastPlace m e := by
    rw [lastPlace, lastPlace, log2_mul_two_pow hm]
    omega
  have hplaces : places (m * 2 ^ (e + 149).toNat) (-149) = places m e := by
    have hshift : (lastPlace m e - -149).toNat = (lastPlace m e - e).toNat + (e + 149).toNat := by
      omega
    rw [places, hlast, hshift, Nat.pow_add,
      Decimal.roundHalfEven_mul_right (Nat.two_pow_pos _), places]
  rw [nearestUnits, nearestMagnitude, nearestMagnitude, hlast, hplaces]

theorem toNat_pack_round (s : Sign) (hm : 0 < m) (he : -149 ≤ e) :
    (UnpackedFloat.pack .binary32 (UnpackedFloat.round .binary32 s m e)).toNat =
      signPart s + nearestUnits (m * 2 ^ (e + 149).toNat) := by
  have hmin : -149 ≤ lastPlace m e := Int.le_max_right _ _
  rw [UnpackedFloat.round, targetExponent_eq, decreaseExponent, Nat.shiftLeft_eq]
  have hpos : 0 < m * 2 ^ (e - lastPlace m e).toNat := Nat.mul_pos hm (Nat.two_pow_pos _)
  have hlast : lastPlace (m * 2 ^ (e - lastPlace m e).toNat) (e - (e - lastPlace m e).toNat) =
      lastPlace m e := by
    rw [lastPlace, log2_mul_two_pow hm, lastPlace]
    omega
  have hle : e - (e - lastPlace m e).toNat ≤ lastPlace m e := by omega
  have hpow : (e - lastPlace m e).toNat + (e - (e - lastPlace m e).toNat + 149).toNat =
      (e + 149).toNat := by omega
  refine (toNat_pack_roundWithAccuracy s hpos (hle.trans_eq hlast.symm)).trans ?_
  rw [nearestMagnitude_eq hpos (by omega) (hle.trans_eq hlast.symm), Nat.mul_assoc, ← Nat.pow_add,
    hpow]

theorem nearestUnits_zero : nearestUnits 0 = 0 := by decide

theorem nearestUnits_mono {n n' : Nat} (h : n ≤ n') : nearestUnits n ≤ nearestUnits n' := by
  rcases Nat.eq_zero_or_pos n with rfl | hpos
  · rw [nearestUnits_zero]
    exact Nat.zero_le _
  have hpos' : 0 < n' := Nat.lt_of_lt_of_le hpos h
  have hlog : n.log2 ≤ n'.log2 :=
    (Nat.le_log2 hpos'.ne').2 (Nat.le_trans (Nat.log2_self_le hpos.ne') h)
  obtain ⟨hle, -⟩ := places_bounds hpos (e := -149) (Int.le_max_right _ _)
  obtain ⟨-, hnormal⟩ := places_bounds hpos' (e := -149) (Int.le_max_right _ _)
  refine inf_le_inf_right _ ?_
  have hmono : lastPlace n (-149) ≤ lastPlace n' (-149) := by
    unfold lastPlace
    omega
  rcases hmono.lt_or_eq with hlt | heq
  · -- a number with a higher last place has all its twenty-four places
    have hmin : -149 ≤ lastPlace n (-149) := Int.le_max_right _ _
    have hfull := hnormal.resolve_left (by omega)
    omega
  · have hplaces : places n (-149) ≤ places n' (-149) := by
      rw [places, places, heq]
      exact Decimal.roundHalfEven_mono _ h
    rw [heq]
    exact Nat.add_le_add_left hplaces _

/-- A number is the one nearest to itself. -/
theorem nearestUnits_unitsOf (hm : m < infiniteMagnitude) : nearestUnits (unitsOf m) = m := by
  rcases Nat.eq_zero_or_pos m with rfl | hpos
  · decide
  have hlast : lastPlace (mantissa m) (exponent m) = exponent m := by
    by_cases hsmall : m < 0x800000
    · have hlog : m.log2 < 23 := (Nat.log2_lt hpos.ne').2 hsmall
      rw [lastPlace, mantissa, exponent, if_pos hsmall, if_pos hsmall]
      omega
    · rw [lastPlace, log2_mantissa hsmall, exponent, if_neg hsmall]
      omega
  have hmin : -149 ≤ exponent m := hlast ▸ Int.le_max_right _ _
  have hplaces : places (mantissa m) (exponent m) = mantissa m := by
    rw [places, hlast, Int.sub_self]
    exact Decimal.roundHalfEven_one _
  rw [unitsOf, ← nearestMagnitude_eq (mantissa_pos hpos.ne') hmin hlast.ge, nearestMagnitude, hlast,
    hplaces]
  have hmagnitude : (exponent m + 149).toNat * 0x800000 + mantissa m = m := by
    unfold exponent mantissa
    split <;> omega
  rw [hmagnitude, Nat.min_eq_left hm.le]

/-- The signed magnitude of the number nearest to an integer of units. -/
def roundUnits (x : Int) : Int :=
  x.sign * nearestUnits x.natAbs

/-- A finite number in units of the smallest positive one. -/
def units (a : Float32) : Int :=
  (signOf a.toBits).apply (unitsOf (magnitude a.toBits))

variable {a b : Float32} {x y : Int} {pattern : UInt32}

theorem roundUnits_of_nonneg (hx : 0 ≤ x) : roundUnits x = nearestUnits x.natAbs := by
  rcases hx.lt_or_eq with hpos | rfl
  · rw [roundUnits, Int.sign_eq_one_of_pos hpos, Int.one_mul]
  · decide

theorem roundUnits_neg (x : Int) : roundUnits (-x) = -roundUnits x := by
  rw [roundUnits, roundUnits, Int.sign_neg, Int.natAbs_neg, Int.neg_mul]

theorem roundUnits_mono (h : x ≤ y) : roundUnits x ≤ roundUnits y := by
  have hnonneg : ∀ {z w : Int}, 0 ≤ z → z ≤ w → roundUnits z ≤ roundUnits w := by
    intro z w hz hzw
    rw [roundUnits_of_nonneg hz, roundUnits_of_nonneg (hz.trans hzw)]
    exact Int.ofNat_le.2 (nearestUnits_mono (by omega))
  rcases Int.le_total 0 x with hx | hx
  · exact hnonneg hx h
  · rcases Int.le_total 0 y with hy | hy
    · have hlow : roundUnits 0 ≤ roundUnits (-x) := hnonneg (Int.le_refl 0) (by omega)
      have hhigh : roundUnits 0 ≤ roundUnits y := hnonneg (Int.le_refl 0) hy
      rw [roundUnits_neg] at hlow
      have hzero : roundUnits 0 = 0 := by decide
      omega
    · have hflip : roundUnits (-y) ≤ roundUnits (-x) := hnonneg (by omega) (by omega)
      rw [roundUnits_neg, roundUnits_neg] at hflip
      omega

theorem roundUnits_apply (s : Sign) (n : Nat) : roundUnits (s.apply n) = s.apply (nearestUnits n) := by
  cases s with
  | negative =>
    show roundUnits (-(n : Int)) = _
    rw [roundUnits_neg, roundUnits_of_nonneg (Int.natCast_nonneg n), Int.natAbs_natCast]
    rfl
  | positive =>
    show roundUnits (n : Int) = _
    rw [roundUnits_of_nonneg (Int.natCast_nonneg n), Int.natAbs_natCast]
    rfl

theorem roundUnits_units (ha : magnitude a.toBits < infiniteMagnitude) :
    roundUnits (units a) = signed a.toBits := by
  rw [units, roundUnits_apply, nearestUnits_unitsOf ha, signed]

end Binary32

end Constituency
