/-!
# Decimal notation

A finite single-precision number is `± mantissa · 2 ^ exponent`, a fraction that can be written out
exactly. Both notations here round that exact value, and a value halfway between two decimals goes
to the one with an even last digit. In the other direction a fraction is rounded to the nearest
single-precision number by the same rule.
-/

namespace Constituency.Decimal

/-- The exact value `± mantissa · 2 ^ exponent`. -/
structure BinaryFraction where
  negative : Bool
  mantissa : Nat
  exponent : Int
deriving DecidableEq

/-- A number as the two notations see it. -/
inductive Value where
  | nan
  | infinite (negative : Bool)
  | finite (value : BinaryFraction)

/-- The value of a bit pattern: a sign, eight bits of exponent, and twenty-three bits of
mantissa. -/
def Value.ofPattern (pattern : UInt32) : Value :=
  let bits := pattern.toNat
  let negative := bits >>> 31 == 1
  let field := (bits >>> 23) % 256
  let fraction := bits % 0x800000
  if field == 255 then
    if fraction == 0 then .infinite negative else .nan
  else if field == 0 then .finite ⟨negative, fraction, -149⟩
  else .finite ⟨negative, 0x800000 + fraction, Int.ofNat field - 150⟩

/-- The numerator over `BinaryFraction.den`. -/
def BinaryFraction.num (x : BinaryFraction) : Nat :=
  x.mantissa * Nat.pow 2 x.exponent.toNat

/-- The denominator, a power of two. -/
def BinaryFraction.den (x : BinaryFraction) : Nat :=
  Nat.pow 2 (-x.exponent).toNat

/-- `num / den` rounded to the nearest integer, and from halfway to the even one. -/
def roundHalfEven (num den : Nat) : Nat :=
  let quotient := num / den
  let twice := 2 * (num % den)
  if den < twice || (twice == den && quotient % 2 == 1) then quotient + 1 else quotient

/-- The number in double precision: a mantissa of more than fifty-three bits is rounded. -/
def BinaryFraction.inDouble (x : BinaryFraction) : BinaryFraction :=
  let excess := x.mantissa.log2 - 52
  { x with
    mantissa := roundHalfEven x.mantissa (Nat.pow 2 excess)
    exponent := x.exponent + Int.ofNat excess }

/-- A multiple of the number in double precision. -/
def BinaryFraction.times (x : BinaryFraction) (count : Nat) : BinaryFraction :=
  let factor := inDouble ⟨false, count, 0⟩
  inDouble ⟨x.negative, x.mantissa * factor.mantissa, x.exponent + factor.exponent⟩

/-- The greatest power of two that does not exceed a positive fraction. The lengths of numerator
and denominator leave only two powers to choose from. -/
def floorLog2 (num den : Nat) : Int :=
  let power := Int.ofNat num.log2 - Int.ofNat den.log2
  if den * Nat.pow 2 power.toNat ≤ num * Nat.pow 2 (-power).toNat then power else power - 1

/-- The bit pattern of the single-precision number nearest to a positive fraction, the one with an
even mantissa if two are as near. A mantissa that is rounded up to the next power of two carries
into the exponent, and beyond the largest exponent the number is infinite. -/
def nearestPattern (num den : Nat) : UInt32 :=
  let unit := max (floorLog2 num den - 23) (-149)
  let mantissa := roundHalfEven (num * Nat.pow 2 (-unit).toNat) (den * Nat.pow 2 unit.toNat)
  UInt32.ofNat (min ((unit + 149).toNat * 0x800000 + mantissa) 0x7f800000)

/-- The digits of `n` behind as many zeros as make up `width`. -/
def padded (width n : Nat) : String :=
  let digits := toString n
  String.ofList (List.replicate (width - digits.length) '0') ++ digits

/-- The sign of a negative number; zero can be negative. -/
def sign (negative : Bool) : String :=
  if negative then "-" else ""

/-- `n / 10 ^ places` in positional notation. -/
def positional (places n : Nat) : String :=
  let whole := toString (n / Nat.pow 10 places)
  if places == 0 then whole else whole ++ "." ++ padded places (n % Nat.pow 10 places)

/-- Positional notation with a fixed number of places. -/
def Value.fixed (places : Nat) : Value → String
  | nan => "NaN"
  | infinite negative => sign negative ++ "inf"
  | finite x =>
    sign x.negative ++ positional places (roundHalfEven (x.num * Nat.pow 10 places) x.den)

/-- The power of ten of the leading digit of a fraction that is not zero and at least `10 ^ -64`. -/
def leadingExponent (num den : Nat) : Int :=
  if den ≤ num then (toString (num / den)).length - 1
  else -(((List.range 65).find? fun k => den ≤ num * Nat.pow 10 k).getD 0 : Nat)

/-- The leading digits, `places` of them behind the point, and the power of ten that goes with
them. Rounding up to the next power of ten moves the point. -/
def leadingDigits (places num den : Nat) : Nat × Int :=
  let exponent := leadingExponent num den
  let shift := Int.ofNat places - exponent
  let digits := roundHalfEven (num * Nat.pow 10 shift.toNat) (den * Nat.pow 10 (-shift).toNat)
  if digits == Nat.pow 10 (places + 1) then (Nat.pow 10 places, exponent + 1)
  else (digits, exponent)

/-- Scientific notation with one digit before the point and a fixed number behind it. -/
def Value.scientific (places : Nat) : Value → String
  | nan => "NaN"
  | infinite negative => sign negative ++ "inf"
  | finite x =>
    let (digits, exponent) :=
      if x.mantissa == 0 then (0, 0) else leadingDigits places x.num x.den
    sign x.negative ++ positional places digits ++ "e" ++ toString exponent

/-- A number with five decimal places, as all scores are written. -/
def ofScore (x : Float32) : String :=
  (Value.ofPattern x.toBits).fixed 5

/-- A number with six significant digits. -/
def ofMeasure (x : Float32) : String :=
  (Value.ofPattern x.toBits).scientific 5

end Constituency.Decimal
