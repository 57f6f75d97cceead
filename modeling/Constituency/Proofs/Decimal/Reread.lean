import Constituency.Proofs.Score.Sign
import Constituency.Proofs.Text

/-!
# Scores that are read again

A score is written with five decimal places, and infinity by its name. What is written is a number again, with
the same sign, so that a score of at most zero is read as a number of at most zero
(`Decimal.number?_ofScore`).
-/

namespace Constituency

/-! ## Numerals -/

theorem Decimal.toNat_nearestPattern_le (num den : Nat) :
    (Decimal.nearestPattern num den).toNat ≤ Binary32.infiniteMagnitude := by
  have hle := Nat.min_le_right ((max (Decimal.floorLog2 num den - 23) (-149) + 149).toNat * 0x800000 +
    Decimal.roundHalfEven (num * Nat.pow 2 (-max (Decimal.floorLog2 num den - 23) (-149)).toNat)
      (den * Nat.pow 2 (max (Decimal.floorLog2 num den - 23) (-149)).toNat)) 0x7f800000
  rw [Decimal.nearestPattern, UInt32.toNat_ofNat', Nat.mod_eq_of_lt]
  · exact hle
  · exact Nat.lt_of_le_of_lt hle (by decide)

namespace Text

open Binary32 Float.Model.UnpackedFloat

variable {whole fraction : List Char}

/-- A numeral stands for a number without a minus sign. -/
theorem Numeral.sign_toFloat32 (x : Numeral) :
    x.toFloat32.isNaN = false ∧ signOf x.toFloat32.toBits = .positive := by
  unfold toFloat32
  dsimp only
  split
  · exact ⟨isNaN_zero, rfl⟩
  · split
    · exact ⟨rfl, rfl⟩
    · have hinf : infiniteMagnitude = 0x7f800000 := rfl
      have hle := Decimal.toNat_nearestPattern_le (x.digits * Nat.pow 10 x.exponent.toNat)
        (Nat.pow 10 (-x.exponent).toNat)
      generalize Decimal.nearestPattern _ _ = pattern at hle ⊢
      have hsum : pattern.toNat = signPart .positive + pattern.toNat := (Nat.zero_add _).symm
      obtain ⟨hsign, hmagnitude⟩ := signOf_magnitude (by omega) hsum
      obtain ⟨hs, hm⟩ := sign_magnitude_ofBits (hmagnitude ▸ hle)
      exact ⟨isNaN_eq_false_iff.2 (hm ▸ hmagnitude ▸ hle), hs.trans hsign⟩

theorem toLower_of_isDigit {c : Char} (h : c.isDigit = true) : c.toLower = c := by
  have hrange := Char.isDigit_iff_toNat.1 h
  rw [Char.toLower, dif_neg]
  rintro ⟨hupper, -⟩
  have hlow : 65 ≤ c.toNat := by simpa [UInt32.le_iff_toNat_le] using hupper
  have hhigh : c.toNat ≤ 57 := hrange.2
  omega

/-- A text that begins with a digit is no name. -/
theorem map_toLower_ne {d e : Char} {text name : List Char} (hd : d.isDigit = true)
    (he : e.isDigit = false) : ((d :: text).map Char.toLower == e :: name) = false := by
  rw [beq_eq_false_iff_ne, List.map_cons, toLower_of_isDigit hd]
  intro heq
  rw [(List.cons.inj heq).1, he] at hd
  cases hd

/-- Digits before and behind a point are a numeral. -/
theorem exists_numeral? (hwhole : ∀ c ∈ whole, c.isDigit = true) (hne : whole ≠ [])
    (hfraction : ∀ c ∈ fraction, c.isDigit = true) :
    ∃ x : Numeral, numeral? (whole ++ '.' :: fraction) = some x := by
  have hpoint : ∀ c ∈ ('.' :: fraction).head?, c.isDigit = false := by
    rintro c ⟨⟩
    decide
  have hend : fraction.dropWhile Char.isDigit = [] := List.dropWhile_eq_nil_iff.2 hfraction
  rw [numeral?, takeWhile_append_of_stop hwhole hpoint, dropWhile_append_of_stop hwhole hpoint]
  simp only [hend, List.isEmpty_eq_false_iff.2 hne, Bool.false_and, Bool.false_eq_true, if_false]
  exact ⟨_, rfl⟩

/-- Digits before and behind a point are the magnitude of a number. -/
theorem exists_magnitude? (hwhole : ∀ c ∈ whole, c.isDigit = true) (hne : whole ≠ [])
    (hfraction : ∀ c ∈ fraction, c.isDigit = true) :
    ∃ x : Numeral, magnitude? (whole ++ '.' :: fraction) = some x.toFloat32 := by
  obtain ⟨x, hx⟩ := exists_numeral? hwhole hne hfraction
  refine ⟨x, ?_⟩
  cases whole with
  | nil => exact absurd rfl hne
  | cons d whole =>
    have hd := hwhole d List.mem_cons_self
    have hletter : 'i'.isDigit = false ∧ 'n'.isDigit = false := by decide
    rw [magnitude?, hx]
    simp only [String.reduceToList, List.cons_append, map_toLower_ne hd hletter.1,
      map_toLower_ne hd hletter.2]
    rfl

end Text

namespace Decimal

open Text Binary32 Float.Model.UnpackedFloat

theorem isDigit_of_mem_toString {n : Nat} : ∀ c ∈ (toString n).toList, c.isDigit = true := by
  intro c hc
  rw [Nat.toString_eq_repr, Nat.toList_repr] at hc
  exact Nat.isDigit_of_mem_toDigits (by decide) (by decide) hc

theorem toString_ne_nil (n : Nat) : (toString n).toList ≠ [] := by
  rw [Nat.toString_eq_repr, Nat.toList_repr]
  exact Nat.toDigits_ne_nil

theorem isDigit_of_mem_padded {width n : Nat} : ∀ c ∈ (padded width n).toList, c.isDigit = true := by
  rw [padded, String.toList_append, String.toList_ofList, List.forall_mem_append]
  refine ⟨fun c hc => ?_, isDigit_of_mem_toString⟩
  rw [List.eq_of_mem_replicate hc]
  decide

theorem toList_positional (n : Nat) : (positional 5 n).toList =
    (toString (n / Nat.pow 10 5)).toList ++ '.' :: (padded 5 (n % Nat.pow 10 5)).toList := by
  rw [positional, if_neg (by decide), String.toList_append, String.toList_append, List.append_assoc]
  rfl

/-- The sign of a number is read off first. -/
theorem number?_sign (negative : Bool) {d : Char} {rest : List Char} (hd : d ≠ '-' ∧ d ≠ '+') :
    number? ((sign negative).toList ++ d :: rest) =
      (magnitude? (d :: rest)).map fun value => if negative then -value else value := by
  cases negative with
  | true => rfl
  | false =>
    have hsigned : Text.signed (d :: rest) = (false, d :: rest) := by
      unfold Text.signed
      split
      · next heq => exact absurd (List.cons.inj heq).1 hd.1
      · next heq => exact absurd (List.cons.inj heq).1 hd.2
      · rfl
    show number? (d :: rest) = _
    rw [number?, hsigned]

/-- What is written in positional notation is read. -/
theorem exists_number?_positional (negative : Bool) (n : Nat) : ∃ z : Numeral,
    number? (sign negative ++ positional 5 n).toList =
      some (if negative then -z.toFloat32 else z.toFloat32) := by
  have hfraction : ∀ c ∈ (padded 5 (n % Nat.pow 10 5)).toList, c.isDigit = true := isDigit_of_mem_padded
  obtain ⟨z, hz⟩ := exists_magnitude? isDigit_of_mem_toString (toString_ne_nil (n / Nat.pow 10 5)) hfraction
  refine ⟨z, ?_⟩
  rw [String.toList_append, toList_positional]
  cases hwhole : (toString (n / Nat.pow 10 5)).toList with
  | nil => exact absurd hwhole (toString_ne_nil _)
  | cons d rest =>
    have hd : d.isDigit = true := isDigit_of_mem_toString d (hwhole ▸ List.mem_cons_self)
    rw [hwhole] at hz
    rw [List.cons_append, number?_sign, ← List.cons_append, hz, Option.map_some]
    constructor <;> rintro rfl <;> exact absurd hd (by decide)

/-- A number is infinite or a fraction, with the sign of its pattern. -/
theorem ofPattern_of_number {pattern : UInt32} (h : magnitude pattern ≤ infiniteMagnitude) :
    (Value.ofPattern pattern = .infinite (negative pattern) ∧ magnitude pattern ≠ 0) ∨
      ∃ y, Value.ofPattern pattern = .finite y ∧ y.negative = negative pattern ∧
        (magnitude pattern = 0 → y.mantissa = 0) := by
  have hlt : pattern.toNat < 0x100000000 := pattern.toNat_lt
  have hinf : infiniteMagnitude = 0x7f800000 := rfl
  have hmagnitude : magnitude pattern = pattern.toNat % 0x80000000 := rfl
  have hnegative : (pattern.toNat >>> 31 == 1) = negative pattern := by
    rw [Bool.eq_iff_iff, beq_iff_eq, negative, decide_eq_true_eq, Nat.shiftRight_eq_div_pow]
    omega
  have hfield : (pattern.toNat >>> 23) % 256 = pattern.toNat / 0x800000 % 256 := by
    rw [Nat.shiftRight_eq_div_pow]
  simp only [Value.ofPattern, hnegative, hfield, beq_iff_eq]
  split
  · rw [if_pos (by omega)]
    exact .inl ⟨rfl, by omega⟩
  · split
    · exact .inr ⟨_, rfl, rfl, fun hzero => by dsimp only; omega⟩
    · exact .inr ⟨_, rfl, rfl, fun hzero => by omega⟩

/-- The score as it is read again when it was written. -/
def reread (x : Float32) : Float32 :=
  (number? (ofScore x).toList).getD 0

/-- A score of at most zero is written as a number of at most zero. -/
theorem number?_ofScore {x : Float32} (h : x ≤ 0) :
    number? (ofScore x).toList = some (reread x) ∧ reread x ≤ 0 := by
  suffices hread : ∃ y, number? (ofScore x).toList = some y ∧ y ≤ 0 by
    obtain ⟨y, hy, hle⟩ := hread
    rw [reread, hy]
    exact ⟨rfl, hle⟩
  obtain ⟨hx, hsign⟩ := le_zero_iff.1 h
  rw [ofScore]
  rcases ofPattern_of_number (isNaN_eq_false_iff.1 hx) with ⟨hvalue, hne⟩ | ⟨y, hvalue, hy, hzero⟩
  · rw [hvalue, Value.fixed, signOf_eq_negative_iff.1 (hsign.resolve_right hne)]
    exact ⟨negInfinity, by decide, by decide⟩
  · rw [hvalue, Value.fixed, hy]
    cases hnegative : negative x.toBits with
    | true =>
      obtain ⟨z, hz⟩ := exists_number?_positional true
        (roundHalfEven (y.num * Nat.pow 10 5) y.den)
      obtain ⟨hnumber, hpositive⟩ := z.sign_toFloat32
      obtain ⟨hs, hm⟩ := sign_magnitude_neg hnumber
      refine ⟨-z.toFloat32, hz, le_zero_iff.2 ⟨?_, .inl ?_⟩⟩
      · rw [isNaN_eq_false_iff, hm]
        exact isNaN_eq_false_iff.1 hnumber
      · rw [hs, hpositive]
        rfl
    | false =>
      -- without a minus sign the number is zero
      have hnot : signOf x.toBits ≠ .negative := fun hs => by
        rw [signOf_eq_negative_iff.1 hs] at hnegative
        cases hnegative
      have hnum : y.num = 0 := by
        rw [BinaryFraction.num, hzero (hsign.resolve_left hnot), Nat.zero_mul]
      have hround : roundHalfEven (y.num * Nat.pow 10 5) y.den = 0 := by
        rw [hnum, roundHalfEven, Nat.zero_mul, Nat.zero_div, Nat.zero_mod]
        simp
      rw [hround]
      exact ⟨0, by decide +kernel, by decide⟩

end Decimal

end Constituency
