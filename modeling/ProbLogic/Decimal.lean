/-
# Decimal numerals

A decimal is a natural number times a power of ten. It is the exact value of a
numeral in a program text; which number the numeral denotes for the compiler
is decided by the type of weights (`Scalar`), for binary floats by rounding to
the nearest.

Key definitions:
* `Decimal` : `mantissa * 10 ^ exponent`.
* `Decimal.ofDigits` : the value of `digits.digits`.
* `Decimal.toFloat` : the nearest float.
-/
import ProbLogic.Text

namespace ProbLogic

/-- The number `mantissa * 10 ^ exponent`. -/
structure Decimal where
  mantissa : Nat
  exponent : Int
  deriving DecidableEq, Repr

namespace Decimal

/-- The value of the digits `whole`, a point, and the digits `fraction`. -/
def ofDigits (whole fraction : List Char) : Decimal :=
  ⟨Text.digitsValue (whole ++ fraction), -fraction.length⟩

/-- Positive infinity. -/
def infinity : Float := Float.ofBits 0x7FF0000000000000

/-- The float that is no number. -/
def notANumber : Float := Float.ofBits 0x7FF8000000000000

/-- The float nearest to a decimal. A decimal of `n` digits before the point lies
between `10 ^ (n - 1)` and `10 ^ n`, so the extremes are decided without computing the
power. -/
def toFloat (d : Decimal) : Float :=
  let magnitude : Int := (Nat.toDigits 10 d.mantissa).length + d.exponent
  if d.mantissa = 0 then 0
  else if 310 < magnitude then infinity
  else if magnitude < -330 then 0
  else Float.ofScientific d.mantissa (decide (d.exponent < 0)) d.exponent.natAbs

end Decimal
end ProbLogic
