/-
# Reading a float

The grammar of a single number: an optional sign, then `inf`, `infinity` or
`nan` in any case, or digits with an optional point and an optional exponent.
At least one digit stands beside the point, and at least one in the exponent.

Key definitions:
* `Decimal.read?` : digits, point and exponent.
* `readFloat?` : the whole grammar.
-/
import ProbLogic.Decimal

namespace ProbLogic
namespace Decimal

/-- The exponent of a numeral: nothing, or `e`, an optional sign, and digits. -/
def readExponent? : List Char → Option Int
  | [] => some 0
  | e :: cs =>
    if e = 'e' ∨ e = 'E' then
      let (negative, digits) := match cs with
        | '-' :: ds => (true, ds)
        | '+' :: ds => (false, ds)
        | ds => (false, ds)
      if digits.isEmpty || !digits.all Char.isDigit then none
      else some (if negative then -(Text.digitsValue digits : Int) else Text.digitsValue digits)
    else none

/-- An unsigned numeral, digits on at least one side of the point. -/
def read? (cs : List Char) : Option Decimal :=
  let whole := cs.takeWhile Char.isDigit
  let (fraction, rest) := match cs.dropWhile Char.isDigit with
    | '.' :: ds => (ds.takeWhile Char.isDigit, ds.dropWhile Char.isDigit)
    | ds => ([], ds)
  if whole.isEmpty && fraction.isEmpty then none
  else (readExponent? rest).map fun e =>
    let d := ofDigits whole fraction
    ⟨d.mantissa, d.exponent + e⟩

/-- A number without its sign. -/
def readMagnitude? (cs : List Char) : Option Float :=
  let word := String.ofList (cs.map Char.toLower)
  if word = "inf" ∨ word = "infinity" then some infinity
  else if word = "nan" then some notANumber
  else (read? cs).map toFloat

/-- The float that a text denotes. -/
def readFloat? : List Char → Option Float
  | '-' :: cs => (readMagnitude? cs).map fun x => -x
  | '+' :: cs => readMagnitude? cs
  | cs => readMagnitude? cs

end Decimal
end ProbLogic
