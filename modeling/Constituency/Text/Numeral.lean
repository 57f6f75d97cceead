import Constituency.Decimal
import Constituency.Score.Binary32

/-!
# Numerals

The numbers that grammars and options may hold: counts of at most sixty-four bits, and decimal
numbers in single precision, correctly rounded.
-/

namespace Constituency.Text

/-- The value of a run of ASCII digits. -/
def digitsValue (digits : List Char) : Nat :=
  digits.foldl (fun value c => 10 * value + (c.toNat - '0'.toNat)) 0

/-- A count: ASCII digits, with a plus sign before them or none, below `2 ^ 64`. -/
def count? (text : List Char) : Option Nat :=
  let digits := if text.head? == some '+' then text.tail else text
  if digits.isEmpty || !digits.all Char.isDigit then none
  else
    let value := digitsValue digits
    if value < UInt64.size then some value else none

/-- An optional sign and what follows it; `true` stands for minus. -/
def signed : List Char → Bool × List Char
  | '-' :: rest => (true, rest)
  | '+' :: rest => (false, rest)
  | rest => (false, rest)

/-- A decimal number without its sign: `digits · 10 ^ exponent`. -/
structure Numeral where
  digits : Nat
  exponent : Int
deriving DecidableEq

/-- The exponent part: nothing, or `e` and an integer. -/
def exponent? : List Char → Option Int
  | [] => some 0
  | e :: rest =>
    let (negative, digits) := signed rest
    if (e == 'e' || e == 'E') && !digits.isEmpty && digits.all Char.isDigit then
      some (if negative then -Int.ofNat (digitsValue digits) else digitsValue digits)
    else none

/-- Digits with at most one point among them, at least one digit in all, and an optional
exponent. -/
def numeral? (text : List Char) : Option Numeral :=
  let whole := text.takeWhile Char.isDigit
  let afterWhole := text.dropWhile Char.isDigit
  let (fraction, afterFraction) :=
    match afterWhole with
    | '.' :: rest => (rest.takeWhile Char.isDigit, rest.dropWhile Char.isDigit)
    | rest => ([], rest)
  if whole.isEmpty && fraction.isEmpty then none
  else
    (exponent? afterFraction).map fun exponent =>
      ⟨digitsValue (whole ++ fraction), exponent - fraction.length⟩

/-- The nearest number in single precision. Above `10 ^ 40` all numbers are infinite, and below
`10 ^ -60` all are zero. -/
def Numeral.toFloat32 (x : Numeral) : Float32 :=
  let magnitude := x.exponent + (toString x.digits).length
  if x.digits == 0 || magnitude < -60 then 0
  else if 40 < magnitude then Binary32.infinity
  else
    Float32.ofBits <| Decimal.nearestPattern (x.digits * Nat.pow 10 x.exponent.toNat)
      (Nat.pow 10 (-x.exponent).toNat)

/-- The unsigned value of a numeral: a decimal number, or a name of infinity or of no number in
either case. -/
def magnitude? (text : List Char) : Option Float32 :=
  let name := text.map Char.toLower
  if name == "inf".toList || name == "infinity".toList then some Binary32.infinity
  else if name == "nan".toList then some Binary32.notANumber
  else (numeral? text).map Numeral.toFloat32

/-- A number in single precision, with an optional sign. -/
def number? (text : List Char) : Option Float32 :=
  let (negative, rest) := signed text
  (magnitude? rest).map fun value => if negative then -value else value

end Constituency.Text
