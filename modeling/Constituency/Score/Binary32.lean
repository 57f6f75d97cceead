import Constituency.Score.Basic

/-!
# Scores in single precision

The running scores are 32-bit floating-point numbers. Their bit patterns, taken as sign and
magnitude, are ranked by an unsigned integer (`rank`), in which `-0` comes below `0` and a positive
value that is not a number comes above infinity.
-/

namespace Constituency

namespace Binary32

/-- The bit that holds the sign. -/
def signBit : UInt32 := 0x80000000

/-- The rank of a bit pattern: negative patterns are complemented, so that a larger magnitude
ranks lower, and positive ones are lifted above them. -/
def rank (pattern : UInt32) : UInt32 :=
  if pattern &&& signBit != 0 then ~~~pattern else pattern ||| signBit

/-- The bit pattern of a rank. -/
def ofRank (rank : UInt32) : UInt32 :=
  if rank &&& signBit != 0 then rank &&& 0x7fffffff else ~~~rank

/-- Negative infinity. -/
def negInfinity : Float32 := Float32.ofBits 0xff800000

/-- Positive infinity. -/
def infinity : Float32 := Float32.ofBits 0x7f800000

/-- The value that stands for no number. -/
def notANumber : Float32 := Float32.ofBits 0x7fc00000

/-- `ln (1 + x)` in double precision. The quotient makes up for the rounding of `1 + x`. -/
def logOnePlusDouble (x : Float) : Float :=
  let y := 1 + x
  if y == 1 then x else Float.log y * (x / (y - 1))

/-- `ln (1 + x)`. -/
def logOnePlus (x : Float32) : Float32 :=
  (logOnePlusDouble x.toFloat).toFloat32

/-- Samples of the table per unit. -/
def tableResolution : Nat := 1024

/-- The gap at which the table ends. -/
def tableRange : Nat := 32

/-- Samples of `ln (1 + e ^ -x)` at the multiples of `1 / tableResolution` below `tableRange`. -/
def softplusTable : Array Float32 :=
  Array.ofFn fun i : Fin (tableRange * tableResolution) =>
    (logOnePlusDouble (Float.exp (-(i.val.toFloat / tableResolution.toFloat)))).toFloat32

/-- The sample for a gap: the gap in units of the resolution, rounded down. A negative gap and one
that is not a number take the first sample. -/
def tableIndex (gap : Float32) : Nat :=
  (gap * tableResolution.toFloat32).toUInt64.toNat

end Binary32

instance : Score Float32 where
  zero := 0
  impossible := Binary32.negInfinity
  decidableLT := inferInstance
  decidableLE := inferInstance
  isNaN x := x.isNaN
  outranks a b := Binary32.rank b.toBits < Binary32.rank a.toBits
  exp := Float32.exp
  softplus x := Binary32.logOnePlus x.exp
  beyondTable gap := Binary32.tableRange.toFloat32 ≤ gap
  tableSoftplus gap := Binary32.softplusTable.getD (Binary32.tableIndex gap) 0
  perWord x n := x / n.toFloat32

end Constituency
