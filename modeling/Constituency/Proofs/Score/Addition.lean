import Constituency.Proofs.Score.Rounding

/-!
# Sums of single-precision numbers

The sum of two finite numbers is the number nearest to the sum of their integers (`signed_add`), and nothing
finite counts beside infinity (`add_of_infinite`). Hence adding what is at least zero never makes a number
smaller (`le_add_of_nonneg`), and a number less one that is no smaller is at most zero (`sub_nonpos_of_le`),
unless the two are the same infinity.
-/

namespace Constituency

namespace Binary32

open Float.Model (UnpackedFloat Format)
open Float.Model.UnpackedFloat

variable {m : Nat} {e : Int} {a b : Float32} {x : Int} {pattern : UInt32}

/-! ## Addition -/

/-- A pattern that is made of a sign and the magnitude of a number. -/
theorem signed_of_toNat (hm : m ≤ infiniteMagnitude) (h : pattern.toNat = signPart s + m) :
    magnitude pattern ≤ infiniteMagnitude ∧ signed pattern = s.apply m := by
  have hinf : infiniteMagnitude < 0x80000000 := by decide
  obtain ⟨hsign, hmagnitude⟩ := signOf_magnitude (Nat.lt_of_le_of_lt hm hinf) h
  exact ⟨hmagnitude ▸ hm, by rw [signed, hsign, hmagnitude]⟩

theorem nearestUnits_le (n : Nat) : nearestUnits n ≤ infiniteMagnitude :=
  Nat.min_le_right _ _

/-- A sign and a mantissa are rounded to the nearest number. -/
theorem signed_of_round (hm : 0 < m) (he : -149 ≤ e)
    (h : pattern.toNat = (UnpackedFloat.pack .binary32 (UnpackedFloat.round .binary32 s m e)).toNat) :
    magnitude pattern ≤ infiniteMagnitude ∧
      signed pattern = roundUnits (s.apply m * 2 ^ (e + 149).toNat) := by
  obtain ⟨hle, hsigned⟩ := signed_of_toNat (nearestUnits_le _) (h.trans (toNat_pack_round s hm he))
  have hscaled : s.apply ((m * 2 ^ (e + 149).toNat : Nat) : Int) =
      s.apply m * 2 ^ (e + 149).toNat := by
    cases s with
    | negative => simp [Sign.apply]
    | positive => simp [Sign.apply]
  exact ⟨hle, by rw [hsigned, ← roundUnits_apply, hscaled]⟩

/-- An integer is normalized to the nearest number. -/
theorem signed_of_normalize (he : -149 ≤ e)
    (h : pattern.toBitVec = UnpackedFloat.pack .binary32 (UnpackedFloat.normalize .binary32 x e .positive)) :
    magnitude pattern ≤ infiniteMagnitude ∧
      signed pattern = roundUnits (x * 2 ^ (e + 149).toNat) := by
  have hnat : pattern.toNat =
      (UnpackedFloat.pack .binary32 (UnpackedFloat.normalize .binary32 x e .positive)).toNat :=
    congrArg BitVec.toNat h
  rw [UnpackedFloat.normalize] at hnat
  rcases Int.lt_trichotomy x 0 with hneg | rfl | hpos
  · have hx : Sign.negative.apply ((-x).toNat : Int) = x := by
      show -((-x).toNat : Int) = x
      omega
    simp only [Int.compare_eq_lt.2 hneg] at hnat
    have hround := signed_of_round (by omega) he hnat
    rwa [hx] at hround
  · simp only [Int.compare_eq_eq.2 rfl] at hnat
    obtain ⟨hle, hsigned⟩ := signed_of_toNat (Nat.zero_le _)
      (hnat.trans (toNat_pack .positive (Nat.zero_le _)))
    refine ⟨hle, hsigned.trans ?_⟩
    rw [Int.zero_mul]
    rfl
  · have hx : Sign.positive.apply (x.toNat : Int) = x := by
      show (x.toNat : Int) = x
      omega
    simp only [Int.compare_eq_gt.2 hpos] at hnat
    have hround := signed_of_round (by omega) he hnat
    rwa [hx] at hround

/-- The bits of a sum of two numbers, told from their signs and magnitudes. -/
theorem toBitVec_add (a b : Float32) : (a + b).toBits.toBitVec = UnpackedFloat.pack .binary32
    (UnpackedFloat.add .binary32 (unpacked (signOf a.toBits) (magnitude a.toBits))
      (unpacked (signOf b.toBits) (magnitude b.toBits))) := by
  rw [← unpack_eq, ← unpack_eq]
  rfl

theorem units_of_magnitude_eq_zero (h : magnitude a.toBits = 0) : units a = 0 := by
  rw [units, h]
  cases signOf a.toBits <;> decide

/-- A sign and a shifted mantissa in units of the smallest number. -/
theorem apply_shiftLeft_mul (s : Sign) (m : Nat) {e e' : Int} (he' : -149 ≤ e') (hle : e' ≤ e) :
    s.apply ((m <<< (e - e').toNat : Nat) : Int) * 2 ^ (e' + 149).toNat =
      s.apply ((m * 2 ^ (e + 149).toNat : Nat) : Int) := by
  have hpow : (e - e').toNat + (e' + 149).toNat = (e + 149).toNat := by omega
  rw [Nat.shiftLeft_eq, ← hpow, Nat.pow_add, ← Nat.mul_assoc]
  cases s with
  | negative => simp [Sign.apply]
  | positive => simp [Sign.apply]

theorem le_exponent (m : Nat) : -149 ≤ exponent m := by
  unfold exponent
  split <;> omega

/-- Zero changes no more than the sign of zero. -/
theorem add_zero_left (s s' : Sign) (hm : m < infiniteMagnitude) :
    ∃ s'' : Sign, UnpackedFloat.add .binary32 (.zero s) (unpacked s' m) = unpacked s'' m ∧
      s''.apply m = s'.apply m := by
  by_cases hzero : m = 0
  · subst hzero
    cases s <;> cases s' <;> exact ⟨_, rfl, rfl⟩
  · refine ⟨s', ?_, rfl⟩
    rw [unpacked_finite s' hzero hm]
    rfl

theorem add_zero_right (s s' : Sign) (hm : m < infiniteMagnitude) :
    ∃ s'' : Sign, UnpackedFloat.add .binary32 (unpacked s m) (.zero s') = unpacked s'' m ∧
      s''.apply m = s.apply m := by
  by_cases hzero : m = 0
  · subst hzero
    cases s <;> cases s' <;> exact ⟨_, rfl, rfl⟩
  · refine ⟨s, ?_, rfl⟩
    rw [unpacked_finite s hzero hm]
    rfl

/-- The sum of two finite numbers is the number nearest to the sum of their integers. -/
theorem signed_add (ha : magnitude a.toBits < infiniteMagnitude)
    (hb : magnitude b.toBits < infiniteMagnitude) :
    magnitude (a + b).toBits ≤ infiniteMagnitude ∧
      signed (a + b).toBits = roundUnits (units a + units b) := by
  have hsum := toBitVec_add a b
  by_cases hza : magnitude a.toBits = 0
  · obtain ⟨s, hadd, hsame⟩ := add_zero_left (signOf a.toBits) (signOf b.toBits) hb
    rw [hza, unpacked_zero, hadd] at hsum
    obtain ⟨hle, hsigned⟩ := signed_of_toNat hb.le
      ((congrArg BitVec.toNat hsum).trans (toNat_pack s hb.le))
    rw [units_of_magnitude_eq_zero hza, Int.zero_add, roundUnits_units hb]
    exact ⟨hle, hsigned.trans hsame⟩
  by_cases hzb : magnitude b.toBits = 0
  · obtain ⟨s, hadd, hsame⟩ := add_zero_right (signOf a.toBits) (signOf b.toBits) ha
    rw [hzb, unpacked_zero, hadd] at hsum
    obtain ⟨hle, hsigned⟩ := signed_of_toNat ha.le
      ((congrArg BitVec.toNat hsum).trans (toNat_pack s ha.le))
    rw [units_of_magnitude_eq_zero hzb, Int.add_zero, roundUnits_units ha]
    exact ⟨hle, hsigned.trans hsame⟩
  · rw [unpacked_finite _ hza ha, unpacked_finite _ hzb hb, UnpackedFloat.add] at hsum
    have hmin : -149 ≤ min (exponent (magnitude a.toBits)) (exponent (magnitude b.toBits)) :=
      Int.le_min.2 ⟨le_exponent _, le_exponent _⟩
    obtain ⟨hle, hsigned⟩ := signed_of_normalize hmin hsum
    refine ⟨hle, hsigned.trans ?_⟩
    rw [Int.add_mul, apply_shiftLeft_mul _ _ hmin (Int.min_le_left _ _),
      apply_shiftLeft_mul _ _ hmin (Int.min_le_right _ _)]
    rfl

/-! ## Infinity -/

theorem toNat_eq (pattern : UInt32) : pattern.toNat = signPart (signOf pattern) + magnitude pattern := by
  have hlt := pattern.toNat_lt
  unfold signOf magnitude
  cases hneg : negative pattern <;>
    simp only [negative, decide_eq_true_eq, decide_eq_false_iff_not] at hneg <;>
    simp only [if_true, Bool.false_eq_true, if_false, signPart] <;> omega

/-- A number is known by its sign and its magnitude. -/
theorem eq_of_sign_magnitude (hsign : signOf a.toBits = signOf b.toBits)
    (hmagnitude : magnitude a.toBits = magnitude b.toBits) : a = b := by
  rw [← Float32.toBits_inj, ← UInt32.toNat_inj, toNat_eq, toNat_eq b.toBits, hsign, hmagnitude]

/-- A number is finite, or infinite on either side. -/
theorem finite_or_infinite (ha : a.isNaN = false) :
    magnitude a.toBits < infiniteMagnitude ∨ a = infinity ∨ a = negInfinity := by
  rcases Nat.lt_or_eq_of_le (isNaN_eq_false_iff.1 ha) with hlt | heq
  · exact .inl hlt
  · cases hsign : signOf a.toBits with
    | positive => exact .inr (.inl (eq_of_sign_magnitude hsign heq))
    | negative => exact .inr (.inr (eq_of_sign_magnitude hsign heq))

/-- Nothing finite counts beside infinity. -/
theorem add_of_infinite (ha : magnitude a.toBits < infiniteMagnitude)
    (hb : magnitude b.toBits = infiniteMagnitude) : a + b = b ∧ b + a = b := by
  have hpacked : ∀ c : Float32,
      c.toBits.toBitVec = UnpackedFloat.pack .binary32 (.infinity (signOf b.toBits)) → c = b := by
    intro c hc
    rw [← Float32.toBits_inj, ← UInt32.toNat_inj, toNat_eq b.toBits, hb]
    exact (congrArg BitVec.toNat hc).trans (toNat_pack _ (Nat.le_refl _))
  have hsum := toBitVec_add a b
  have hsum' := toBitVec_add b a
  rw [hb, unpacked_infinite] at hsum hsum'
  by_cases hzero : magnitude a.toBits = 0
  · rw [hzero, unpacked_zero] at hsum hsum'
    exact ⟨hpacked _ hsum, hpacked _ hsum'⟩
  · rw [unpacked_finite _ hzero ha] at hsum hsum'
    exact ⟨hpacked _ hsum, hpacked _ hsum'⟩

theorem magnitude_infinity : magnitude infinity.toBits = infiniteMagnitude := by decide

theorem magnitude_negInfinity : magnitude negInfinity.toBits = infiniteMagnitude := by decide

theorem isNaN_infinity : infinity.isNaN = false := by decide

theorem signed_infinity : signed infinity.toBits = (infiniteMagnitude : Int) := by decide

/-- All numbers lie between the infinities. -/
theorem signed_bounds (ha : a.isNaN = false) :
    -(infiniteMagnitude : Int) ≤ signed a.toBits ∧ signed a.toBits ≤ infiniteMagnitude := by
  have hmag := isNaN_eq_false_iff.1 ha
  unfold signed
  cases signOf a.toBits <;> simp only [Sign.apply] <;> omega

theorem le_infinity (ha : a.isNaN = false) : a ≤ infinity := by
  rw [le_iff_signed_le ha isNaN_infinity, signed_infinity]
  exact (signed_bounds ha).2

theorem negInfinity_le (ha : a.isNaN = false) : negInfinity ≤ a := by
  rw [le_iff_signed_le isNaN_negInfinity ha, signed_negInfinity]
  exact (signed_bounds ha).1

/-- Only infinity lies as high. -/
theorem eq_infinity_of_le (h : infinity ≤ a) : a = infinity := by
  have ha : a.isNaN = false := isNaN_eq_false_of_ge h
  rcases finite_or_infinite ha with hfin | rfl | rfl
  · rw [le_iff_signed_le isNaN_infinity ha, signed_infinity] at h
    unfold signed at h
    cases hsign : signOf a.toBits <;> simp only [hsign, Sign.apply] at h <;> omega
  · rfl
  · exact absurd h (by decide)

/-! ## What addition does to the order -/

/-- Numbers that compare equal are the same, but for the sign of zero. -/
theorem eq_or_zeros (h : signed a.toBits = signed b.toBits) :
    a = b ∨ magnitude a.toBits = 0 ∧ magnitude b.toBits = 0 := by
  unfold signed at h
  cases hs : signOf a.toBits <;> cases hs' : signOf b.toBits <;> rw [hs, hs'] at h <;>
    simp only [Sign.apply] at h
  case negative.negative | positive.positive =>
    exact .inl (eq_of_sign_magnitude (hs.trans hs'.symm) (by omega))
  all_goals exact .inr (by omega)

theorem units_eq_of_signed_eq (h : signed a.toBits = signed b.toBits) : units a = units b := by
  rcases eq_or_zeros h with rfl | ⟨ha, hb⟩
  · rfl
  · rw [units_of_magnitude_eq_zero ha, units_of_magnitude_eq_zero hb]

/-- Finite numbers are in the order of their integers. -/
theorem units_le_units (ha : magnitude a.toBits < infiniteMagnitude)
    (hb : magnitude b.toBits < infiniteMagnitude) (h : signed a.toBits ≤ signed b.toBits) :
    units a ≤ units b := by
  by_contra hlt
  have hge := roundUnits_mono (Int.not_le.1 hlt).le
  rw [roundUnits_units ha, roundUnits_units hb] at hge
  exact hlt (units_eq_of_signed_eq (Int.le_antisymm h hge)).le

theorem not_zero_le_negInfinity : ¬ (0 : Float32) ≤ negInfinity := by decide

/-- A number does not fall by adding what is at least zero. -/
theorem le_add_of_nonneg (ha : a.isNaN = false) (hne : a ≠ negInfinity) (hb : 0 ≤ b) :
    a ≤ a + b := by
  have hnumber : b.isNaN = false := isNaN_eq_false_of_ge hb
  rcases finite_or_infinite ha with hfin | rfl | rfl
  · rcases finite_or_infinite hnumber with hfin' | rfl | rfl
    · obtain ⟨hmag, hsigned⟩ := signed_add hfin hfin'
      have hsum : (a + b).isNaN = false := isNaN_eq_false_iff.2 hmag
      have hzero : (0 : Int) ≤ units b :=
        units_le_units (a := 0) (by decide) hfin' ((le_iff_signed_le isNaN_zero hnumber).1 hb)
      rw [le_iff_signed_le ha hsum, hsigned, ← roundUnits_units hfin]
      exact roundUnits_mono (by omega)
    · rw [(add_of_infinite hfin magnitude_infinity).1]
      exact le_infinity ha
    · exact absurd hb not_zero_le_negInfinity
  · rcases finite_or_infinite hnumber with hfin' | rfl | rfl
    · rw [(add_of_infinite hfin' magnitude_infinity).2]
      exact le_infinity ha
    · decide
    · exact absurd hb not_zero_le_negInfinity
  · exact absurd rfl hne

/-! ## Differences -/

theorem sub_eq_add_neg_unpacked (x y : UnpackedFloat) :
    UnpackedFloat.sub .binary32 x y = UnpackedFloat.add .binary32 x y.neg := by
  cases x with
  | notANumber => rfl
  | infinity s => cases y <;> rfl
  | zero s => cases y <;> rfl
  | finite s m e hm =>
    cases y with
    | notANumber => rfl
    | infinity s' => rfl
    | zero s' => rfl
    | finite s' m' e' hm' =>
      have hneg : ∀ n : Nat, (-s').apply n = -s'.apply n := fun n => by
        cases s' with
        | negative => exact (Int.neg_neg n).symm
        | positive => rfl
      simp only [UnpackedFloat.sub, UnpackedFloat.add, UnpackedFloat.neg, hneg, Int.sub_eq_add_neg]

/-- A number is taken off by adding its negative. -/
theorem sub_eq_add_neg_of_number (hb : b.isNaN = false) : a - b = a + -b := by
  obtain ⟨hsign, hmagnitude⟩ := sign_magnitude_neg hb
  rw [← Float32.toBits_inj, ← UInt32.toBitVec_inj, toBitVec_add, hsign, hmagnitude, ← neg_unpacked,
    ← sub_eq_add_neg_unpacked, ← unpack_eq, ← unpack_eq]
  rfl

theorem units_neg (hb : b.isNaN = false) : units (-b) = -units b := by
  obtain ⟨hsign, hmagnitude⟩ := sign_magnitude_neg hb
  rw [units, hsign, hmagnitude, units]
  cases signOf b.toBits with
  | negative => exact (Int.neg_neg _).symm
  | positive => rfl

theorem le_zero_of_signed_le (ha : a.isNaN = false) (h : signed a.toBits ≤ 0) : a ≤ 0 :=
  (le_iff_signed_le ha isNaN_zero).2 h

/-- A number less one that is no smaller is at most zero. -/
theorem sub_nonpos_of_le (h : a ≤ b) (ha : a ≠ negInfinity) (hne : ¬ (a = infinity ∧ b = infinity)) :
    a - b ≤ 0 := by
  have hnumber : b.isNaN = false := isNaN_eq_false_of_ge h
  have hnumber' : a.isNaN = false := isNaN_eq_false_of_le h
  rw [sub_eq_add_neg_of_number hnumber]
  rcases finite_or_infinite hnumber' with hfin | rfl | rfl
  · rcases finite_or_infinite hnumber with hfin' | rfl | rfl
    · obtain ⟨-, hmagnitude⟩ := sign_magnitude_neg hnumber
      obtain ⟨hmag, hsigned⟩ := signed_add hfin (hmagnitude.symm ▸ hfin')
      refine le_zero_of_signed_le (isNaN_eq_false_iff.2 hmag) ?_
      have hle : units a ≤ units b :=
        units_le_units hfin hfin' ((le_iff_signed_le hnumber' hnumber).1 h)
      rw [hsigned, units_neg hnumber]
      exact roundUnits_mono (y := 0) (by omega)
    · rw [(add_of_infinite hfin (by decide)).1]
      decide
    · exact absurd (eq_negInfinity_of_le h) ha
  · exact absurd ⟨rfl, eq_infinity_of_le h⟩ hne
  · exact absurd rfl ha

/-- Zero of either sign counts for nothing in a sum. -/
theorem signed_zero_add (ha : magnitude a.toBits = 0) (hb : b.isNaN = false) :
    (a + b).isNaN = false ∧ signed (a + b).toBits = signed b.toBits := by
  have hfin : magnitude a.toBits < infiniteMagnitude := ha ▸ (by decide : 0 < infiniteMagnitude)
  rcases finite_or_infinite hb with hfin' | rfl | rfl
  · obtain ⟨hmag, hsigned⟩ := signed_add hfin hfin'
    refine ⟨isNaN_eq_false_iff.2 hmag, ?_⟩
    rw [hsigned, units_of_magnitude_eq_zero ha, Int.zero_add, roundUnits_units hfin']
  · rw [(add_of_infinite hfin magnitude_infinity).1]
    exact ⟨hb, rfl⟩
  · rw [(add_of_infinite hfin magnitude_negInfinity).1]
    exact ⟨hb, rfl⟩

end Binary32

end Constituency
