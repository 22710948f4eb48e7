/-
# The numbers that weigh literals

Programs, weights and everything built from them are generic in the type of
their numbers. The compiler runs on floats; over the rationals the same
definitions compute exactly.

Key definitions:
* `Scalar` : the arithmetic of probabilities.
* `Scalar.isProbability`, `Scalar.exceedsOne`, `Scalar.rest` : what grounding
  asks of them.
* `Numeral` : how numbers are written and read.
-/
import ProbLogic.Decimal.Shortest
import ProbLogic.Decimal.Reader

namespace ProbLogic

/-- The arithmetic of probabilities. -/
class Scalar (α : Type) where
  zero : α
  one : α
  add : α → α → α
  sub : α → α → α
  div : α → α → α
  le : α → α → Bool
  ofDecimal : Decimal → α

namespace Scalar

variable {α : Type} [Scalar α]

/-- Neither above nor below zero. -/
def isZero (x : α) : Bool := le x zero && le zero x

/-- Between zero and one. -/
def isProbability (x : α) : Bool := le zero x && le x one

/-- Above one by more than the slack of `10 ^ -9` that sums of rounded numbers are allowed. -/
def exceedsOne (x : α) : Bool := !le x (add one (ofDecimal ⟨1, -9⟩))

/-- What a sum of probabilities leaves of one, never below zero. -/
def rest (x : α) : α := if le zero (sub one x) then sub one x else zero

end Scalar

instance : Scalar Float where
  zero := 0
  one := 1
  add x y := x + y
  sub x y := x - y
  div x y := x / y
  le x y := decide (x ≤ y)
  ofDecimal := Decimal.toFloat

/-- The value of a decimal. -/
def Decimal.toRat (d : Decimal) : Rat := d.mantissa * (10 : Rat) ^ d.exponent

instance : Scalar Rat where
  zero := 0
  one := 1
  add x y := x + y
  sub x y := x - y
  div x y := x / y
  le x y := decide (x ≤ y)
  ofDecimal := Decimal.toRat

/-- Numbers with a text. -/
class Numeral (α : Type) where
  /-- The text of a number. -/
  text : α → String
  /-- The number that a text denotes. -/
  read? : List Char → Option α
  /-- Whether a number that was read may weigh a literal. -/
  isWeight : α → Bool

instance : Numeral Float where
  text := Decimal.floatText
  read? := Decimal.readFloat?
  isWeight x := x.isFinite && decide (0 ≤ x)

end ProbLogic
