import Constituency.Proofs.Score.Addition
import Constituency.Proofs.Score.Order

/-!
# Numbers as scores

The running scores satisfy all that the searches ask of scores (`MonotoneScore`), rounded as they are and
with zeros of either sign, once what is no number is out of the way: a sum of infinities of different
signs is taken to be impossible. Log probabilities are at most zero and never come to such a sum, so that they
add up as they do in the machine (`Number.val_add_of_nonpos`).

That nothing possible adds up to something impossible (`LosslessScore`) holds of them only as far as their
range goes. Two possible log probabilities add up to an impossible one exactly if their sum overflows
(`Number.impossible_lt_add_iff`).
-/

namespace Constituency

namespace Binary32

variable {a b c d : Float32}

/-! ## Overflow -/

/-- The middle between the largest finite number and the power of two above it, in units of the smallest
positive number. -/
def overflow : Nat := (2 ^ 25 - 1) * 2 ^ 252

/-- The middle is rounded to the power of two, whose mantissa is even. -/
theorem nearestUnits_eq_infinite_iff {n : Nat} :
    nearestUnits n = infiniteMagnitude ↔ overflow ≤ n := by
  have hover : nearestUnits overflow = infiniteMagnitude := by decide +kernel
  have hbelow : nearestUnits (overflow - 1) < infiniteMagnitude := by decide +kernel
  constructor
  · intro h
    by_contra hlt
    have hle : nearestUnits n ≤ nearestUnits (overflow - 1) := nearestUnits_mono (by omega)
    omega
  · intro h
    exact Nat.le_antisymm (nearestUnits_le n) (hover.symm.trans_le (nearestUnits_mono h))

theorem roundUnits_eq_neg_infinite_iff {x : Int} :
    roundUnits x = -(infiniteMagnitude : Int) ↔ x ≤ -(overflow : Int) := by
  rcases Int.le_total 0 x with hx | hx
  · have hinf : 0 < infiniteMagnitude := by decide
    have hover : 0 < overflow := by decide
    rw [roundUnits_of_nonneg hx]
    omega
  · have hround := roundUnits_neg x
    rw [roundUnits_of_nonneg (by omega), Int.natAbs_neg] at hround
    have hiff : nearestUnits x.natAbs = infiniteMagnitude ↔ overflow ≤ x.natAbs :=
      nearestUnits_eq_infinite_iff
    omega

/-! ## Sums of numbers -/

/-- The sum of two numbers is a number, unless they are infinities of different signs. -/
theorem isNaN_add_of_numbers (ha : a.isNaN = false) (hb : b.isNaN = false)
    (hne : ¬ (a = infinity ∧ b = negInfinity)) (hne' : ¬ (a = negInfinity ∧ b = infinity)) :
    (a + b).isNaN = false := by
  rcases finite_or_infinite ha with hfin | rfl | rfl <;>
    rcases finite_or_infinite hb with hfin' | rfl | rfl
  · exact isNaN_eq_false_iff.2 (signed_add hfin hfin').1
  · rwa [(add_of_infinite hfin magnitude_infinity).1]
  · rwa [(add_of_infinite hfin magnitude_negInfinity).1]
  · rwa [(add_of_infinite hfin' magnitude_infinity).2]
  · decide
  · exact absurd ⟨rfl, rfl⟩ hne
  · rwa [(add_of_infinite hfin' magnitude_negInfinity).2]
  · exact absurd ⟨rfl, rfl⟩ hne'
  · decide

/-- A sum with negative infinity is either that or no number. -/
theorem add_negInfinity (ha : a.isNaN = false) (hne : a ≠ infinity) :
    a + negInfinity = negInfinity ∧ negInfinity + a = negInfinity := by
  rcases finite_or_infinite ha with hfin | rfl | rfl
  · exact add_of_infinite hfin magnitude_negInfinity
  · exact absurd rfl hne
  · decide

theorem add_infinity (ha : a.isNaN = false) (hne : a ≠ negInfinity) :
    a + infinity = infinity ∧ infinity + a = infinity := by
  rcases finite_or_infinite ha with hfin | rfl | rfl
  · exact add_of_infinite hfin magnitude_infinity
  · decide
  · exact absurd rfl hne

/-- Finite numbers add up monotonically. -/
theorem signed_add_le_signed_add (ha : magnitude a.toBits < infiniteMagnitude)
    (hb : magnitude b.toBits < infiniteMagnitude) (hc : magnitude c.toBits < infiniteMagnitude)
    (hd : magnitude d.toBits < infiniteMagnitude) (hab : signed a.toBits ≤ signed b.toBits)
    (hcd : signed c.toBits ≤ signed d.toBits) :
    signed (a + c).toBits ≤ signed (b + d).toBits := by
  have hab' := units_le_units ha hb hab
  have hcd' := units_le_units hc hd hcd
  rw [(signed_add ha hc).2, (signed_add hb hd).2]
  exact roundUnits_mono (by omega)

/-- Zero of either sign counts for nothing on the right either. -/
theorem signed_add_zero (ha : a.isNaN = false) (hb : magnitude b.toBits = 0) :
    (a + b).isNaN = false ∧ signed (a + b).toBits = signed a.toBits := by
  have hfin : magnitude b.toBits < infiniteMagnitude := hb ▸ (by decide : 0 < infiniteMagnitude)
  rcases finite_or_infinite ha with hfin' | rfl | rfl
  · obtain ⟨hmag, hsigned⟩ := signed_add hfin' hfin
    refine ⟨isNaN_eq_false_iff.2 hmag, ?_⟩
    rw [hsigned, units_of_magnitude_eq_zero hb, Int.add_zero, roundUnits_units hfin']
  · rw [(add_of_infinite hfin magnitude_infinity).2]
    exact ⟨ha, rfl⟩
  · rw [(add_of_infinite hfin magnitude_negInfinity).2]
    exact ⟨ha, rfl⟩

end Binary32

open Binary32

/-- A score in single precision that is a number. -/
structure Number where
  /-- The score in the machine. -/
  val : Float32
  isNaN_eq_false : val.isNaN = false

namespace Number

/-- The number, or negative infinity for what is none. -/
def ofFloat (x : Float32) : Number :=
  if h : x.isNaN = false then ⟨x, h⟩ else ⟨negInfinity, isNaN_negInfinity⟩

instance : Score Number where
  zero := ⟨0, isNaN_zero⟩
  add a b := ofFloat (a.val + b.val)
  sub a b := ofFloat (a.val - b.val)
  lt a b := a.val < b.val
  le a b := a.val ≤ b.val
  beq a b := a.val == b.val
  impossible := ⟨negInfinity, isNaN_negInfinity⟩
  decidableLT a b := inferInstanceAs (Decidable (a.val < b.val))
  decidableLE a b := inferInstanceAs (Decidable (a.val ≤ b.val))
  isNaN a := Score.isNaN a.val
  outranks a b := Score.outranks a.val b.val
  exp a := ofFloat (Score.exp a.val)
  softplus a := ofFloat (Score.softplus a.val)
  beyondTable a := Score.beyondTable a.val
  tableSoftplus a := ofFloat (Score.tableSoftplus a.val)
  perWord a n := ofFloat (Score.perWord a.val n)

variable {a b c d : Number}

theorem le_iff : a ≤ b ↔ signed a.val.toBits ≤ signed b.val.toBits :=
  le_iff_signed_le a.isNaN_eq_false b.isNaN_eq_false

theorem lt_iff : a < b ↔ signed a.val.toBits < signed b.val.toBits :=
  lt_iff_signed_lt a.isNaN_eq_false b.isNaN_eq_false

theorem val_ofFloat {x : Float32} (h : x.isNaN = false) : (ofFloat x).val = x := by
  rw [ofFloat, dif_pos h]

theorem ofFloat_negInfinity : ofFloat negInfinity = Score.impossible := by
  rw [ofFloat, dif_pos isNaN_negInfinity]
  rfl

theorem ofFloat_of_isNaN {x : Float32} (h : x.isNaN = true) : ofFloat x = Score.impossible := by
  rw [ofFloat, dif_neg (by rw [h]; exact Bool.noConfusion)]
  rfl

/-- A sum in the machine that is a number. -/
theorem val_add (h : (a.val + b.val).isNaN = false) : (a + b).val = a.val + b.val :=
  val_ofFloat h

theorem impossible_le (a : Number) : Score.impossible ≤ a :=
  negInfinity_le a.isNaN_eq_false

theorem eq_impossible (h : a.val = negInfinity) : a = Score.impossible := by
  obtain ⟨x, hx⟩ := a
  obtain rfl : x = negInfinity := h
  rfl

/-- Whatever is added to it, what is impossible stays so. -/
theorem impossible_add (a : Number) : Score.impossible + a = Score.impossible := by
  show ofFloat (negInfinity + a.val) = Score.impossible
  by_cases ha : a.val = infinity
  · rw [ha]
    exact ofFloat_of_isNaN (by decide)
  · rw [(add_negInfinity a.isNaN_eq_false ha).2]
    exact ofFloat_negInfinity

theorem add_impossible (a : Number) : a + Score.impossible = Score.impossible := by
  show ofFloat (a.val + negInfinity) = Score.impossible
  by_cases ha : a.val = infinity
  · rw [ha]
    exact ofFloat_of_isNaN (by decide)
  · rw [(add_negInfinity a.isNaN_eq_false ha).1]
    exact ofFloat_negInfinity

/-- A number that is possible and not infinite is finite. -/
theorem finite_of_le (ha : a.val ≠ negInfinity) (hab : a ≤ b) (hb : b.val ≠ infinity) :
    magnitude a.val.toBits < infiniteMagnitude := by
  rcases finite_or_infinite a.isNaN_eq_false with hfin | hinf | hneg
  · exact hfin
  · have hle : a.val ≤ b.val := hab
    rw [hinf] at hle
    exact absurd (eq_infinity_of_le hle) hb
  · exact absurd hneg ha

theorem ne_negInfinity_of_le (ha : a.val ≠ negInfinity) (hab : a ≤ b) : b.val ≠ negInfinity := by
  intro hb
  have hle : a.val ≤ b.val := hab
  rw [hb] at hle
  exact ha (eq_negInfinity_of_le hle)

theorem le_of_val_eq_infinity (h : b.val = infinity) : a ≤ b := by
  show a.val ≤ b.val
  rw [h]
  exact le_infinity a.isNaN_eq_false

/-- Sums of numbers are monotone. -/
theorem add_le_add (hab : a ≤ b) (hcd : c ≤ d) : a + c ≤ b + d := by
  by_cases ha : a.val = negInfinity
  · rw [eq_impossible ha, impossible_add]
    exact impossible_le _
  by_cases hc : c.val = negInfinity
  · rw [eq_impossible hc, add_impossible]
    exact impossible_le _
  have hb := ne_negInfinity_of_le ha hab
  have hd := ne_negInfinity_of_le hc hcd
  have hsum : (b + d).val = b.val + d.val :=
    val_add (isNaN_add_of_numbers b.isNaN_eq_false d.isNaN_eq_false (fun h => hd h.2) fun h => hb h.1)
  by_cases hb' : b.val = infinity
  · refine le_of_val_eq_infinity ?_
    rw [hsum, hb']
    exact (add_infinity d.isNaN_eq_false hd).2
  by_cases hd' : d.val = infinity
  · refine le_of_val_eq_infinity ?_
    rw [hsum, hd']
    exact (add_infinity b.isNaN_eq_false hb).1
  · have hfina := finite_of_le ha hab hb'
    have hfinb := finite_of_le hb (le_iff.2 (Int.le_refl _)) hb'
    have hfinc := finite_of_le hc hcd hd'
    have hfind := finite_of_le hd (le_iff.2 (Int.le_refl _)) hd'
    rw [le_iff, hsum, val_add (isNaN_eq_false_iff.2 (signed_add hfina hfinc).1)]
    exact signed_add_le_signed_add hfina hfinb hfinc hfind (le_iff.1 hab) (le_iff.1 hcd)

theorem signed_zero_add (a : Number) : signed (0 + a).val.toBits = signed a.val.toBits := by
  obtain ⟨hnumber, hsigned⟩ := Binary32.signed_zero_add (a := 0) (by decide) a.isNaN_eq_false
  rw [← hsigned]
  exact congrArg (fun x => signed x.toBits) (val_ofFloat hnumber)

theorem signed_add_zero (a : Number) : signed (a + 0).val.toBits = signed a.val.toBits := by
  obtain ⟨hnumber, hsigned⟩ := Binary32.signed_add_zero (b := 0) a.isNaN_eq_false (by decide)
  rw [← hsigned]
  exact congrArg (fun x => signed x.toBits) (val_ofFloat hnumber)

theorem le_impossible_iff : a ≤ Score.impossible ↔ signed a.val.toBits = -(infiniteMagnitude : Int) := by
  have hlow := (signed_bounds a.isNaN_eq_false).1
  have himpossible : signed (Score.impossible : Number).val.toBits = -(infiniteMagnitude : Int) :=
    signed_negInfinity
  rw [le_iff, himpossible]
  omega

theorem impossible_lt_iff : Score.impossible < a ↔ signed a.val.toBits ≠ -(infiniteMagnitude : Int) := by
  have hlow := (signed_bounds a.isNaN_eq_false).1
  have himpossible : signed (Score.impossible : Number).val.toBits = -(infiniteMagnitude : Int) :=
    signed_negInfinity
  rw [lt_iff, himpossible]
  omega

/-- Zeros of different signs are ranked, but they compare equal. -/
theorem le_of_outranks (h : Score.outranks a b = true) : b ≤ a := by
  rcases (outranks_iff a.isNaN_eq_false b.isNaN_eq_false).1 h with hlt | ⟨ha, hb⟩
  · exact le_iff.2 (lt_iff.1 hlt).le
  · rw [le_iff, ha, hb]
    decide

instance : MonotoneScore Number where
  le_refl a := le_iff.2 (Int.le_refl _)
  le_trans hab hbc := le_iff.2 ((le_iff.1 hab).trans (le_iff.1 hbc))
  le_total a b := by
    rw [le_iff, le_iff]
    exact Int.le_total _ _
  lt_iff_not_le := by
    intro a b
    rw [lt_iff, le_iff, Int.not_le]
  impossible_le := impossible_le
  beq_impossible_iff := by
    intro a
    rw [le_impossible_iff, ← signed_negInfinity]
    exact beq_iff_signed_eq a.isNaN_eq_false isNaN_negInfinity
  isNaN_eq_false a := a.isNaN_eq_false
  outranks_of_lt := by
    intro a b h
    exact (outranks_iff a.isNaN_eq_false b.isNaN_eq_false).2 (.inl h)
  le_of_outranks := le_of_outranks
  add_le_add := add_le_add
  zero_add_le a := le_iff.2 (signed_zero_add a).le
  impossible_add_le a := (impossible_add a).symm ▸ impossible_le _
  add_impossible_le a := (add_impossible a).symm ▸ impossible_le _

instance : UnitalScore Number where
  add_zero_le a := le_iff.2 (signed_add_zero a).le

/-! ## Log probabilities -/

theorem ne_infinity (ha : a ≤ 0) : a.val ≠ infinity := by
  intro hinf
  have hle : a.val ≤ 0 := ha
  rw [hinf] at hle
  exact absurd hle (by decide)

/-- Log probabilities add up as they do in the machine. -/
theorem val_add_of_nonpos (ha : a ≤ 0) (hb : b ≤ 0) : (a + b).val = a.val + b.val :=
  val_add (isNaN_add_of_numbers a.isNaN_eq_false b.isNaN_eq_false (fun h => ne_infinity ha h.1)
    fun h => ne_infinity hb h.2)

theorem finite_of_possible (ha : a ≤ 0) (hpos : Score.impossible < a) :
    magnitude a.val.toBits < infiniteMagnitude := by
  refine finite_of_le (fun hneg => ?_) ha (by decide)
  rw [impossible_lt_iff, hneg] at hpos
  exact hpos signed_negInfinity

/-- Possible log probabilities add up to an impossible one exactly if their sum overflows. -/
theorem impossible_lt_add_iff (ha : a ≤ 0) (hb : b ≤ 0) :
    Score.impossible < a + b ↔ Score.impossible < a ∧ Score.impossible < b ∧
      -(overflow : Int) < units a.val + units b.val := by
  have hsum : Score.impossible < a → Score.impossible < b →
      (Score.impossible < a + b ↔ -(overflow : Int) < units a.val + units b.val) := by
    intro hposa hposb
    have hfinite := (signed_add (finite_of_possible ha hposa) (finite_of_possible hb hposb)).2
    rw [impossible_lt_iff, val_add_of_nonpos ha hb, hfinite, ne_eq, roundUnits_eq_neg_infinite_iff,
      Int.not_le]
  constructor
  · intro h
    obtain ⟨hposa, hposb⟩ := Score.impossible_lt_of_add h
    exact ⟨hposa, hposb, (hsum hposa hposb).1 h⟩
  · rintro ⟨hposa, hposb, hover⟩
    exact (hsum hposa hposb).2 hover

/-- The least finite number is possible, and twice the number is not. -/
theorem not_losslessScore : ¬ LosslessScore Number := by
  intro h
  let least : Number := ⟨.ofBits 0xFF7FFFFF, by decide⟩
  have hpos : Score.impossible < least := by decide
  have hsum : Score.impossible < least + least := h.impossible_lt_add hpos hpos
  exact absurd hsum (by decide)

end Number

end Constituency
