/-
# The shortest decimal of a float

The text of a float has the fewest digits that read back to it; among the
decimals of that many digits it is the nearest, and of two equally near ones
the larger. It is always written positionally.

A finite positive float is `m * 2 ^ q`. The reals that round to it form an
interval, closed exactly when `m` is even. On the grid of decimals with `k`
significant digits only the two neighbours of the value can lie in the
interval nearest to it, so the search tries these for `k = 1, …, 17`.

Key definitions:
* `Binary` : `m * 2 ^ q`.
* `Binary.readsBack` : the decimals in the interval that rounds to it.
* `Binary.shortest` : the shortest decimal in the interval.
* `Decimal.positional` : a decimal without an exponent.
* `floatText` : the text of a float.
-/
import ProbLogic.Decimal

namespace ProbLogic

/-- A positive binary float `mantissa * 2 ^ exponent`; `edge` says that its lower
neighbour is half as far away as its upper one. -/
structure Binary where
  mantissa : Nat
  exponent : Int
  edge : Bool

namespace Binary

/-- The magnitude of a finite float by its bits. -/
def ofBits (bits : Nat) : Binary :=
  let hidden := Nat.pow 2 52
  let fraction := bits % hidden
  let biased : Nat := bits / hidden % Nat.pow 2 11
  if biased = 0 then ⟨fraction, -1074, false⟩
  else ⟨hidden + fraction, biased - 1075, fraction = 0 && biased ≠ 1⟩

/-- Powers with an integer exponent as a fraction: `base ^ e = up base e / up base (-e)`. -/
def up (base : Nat) (e : Int) : Nat := Nat.pow base e.toNat

/-- The least `e` with `b < 10 ^ e`. -/
def magnitude (b : Binary) : Int :=
  let num := b.mantissa * up 2 b.exponent
  let den := up 2 (-b.exponent)
  if den ≤ num then (Nat.toDigits 10 (num / den)).length
  else 1 - ((Nat.toDigits 10 ((den + num - 1) / num - 1)).length : Int)

/-- The number `10 ^ t`, scaled by a power so that it and a quarter of `b`'s unit are whole. -/
def grid (b : Binary) (t : Int) : Nat := up 10 t * up 2 (2 - b.exponent)

/-- A quarter of `b`'s unit, scaled as `grid` is. -/
def quarter (b : Binary) (t : Int) : Nat := up 2 (b.exponent - 2) * up 10 (-t)

/-- Whether `c * 10 ^ t` rounds to `b`. -/
def readsBack (b : Binary) (t : Int) (c : Nat) : Bool :=
  let low := (4 * b.mantissa - if b.edge then 1 else 2) * b.quarter t
  let high := (4 * b.mantissa + 2) * b.quarter t
  if b.mantissa % 2 = 0 then low ≤ c * b.grid t && c * b.grid t ≤ high
  else low < c * b.grid t && c * b.grid t < high

/-- The greatest `c` for which `c * 10 ^ t` does not exceed `b`. -/
def below (b : Binary) (t : Int) : Nat := 4 * b.mantissa * b.quarter t / b.grid t

/-- The better neighbour of `b` among the multiples of `10 ^ t`, if one rounds to `b`. -/
def neighbour? (b : Binary) (t : Int) : Option Decimal :=
  let value := 4 * b.mantissa * b.quarter t
  let below := b.below t
  let above := below + 1
  match b.readsBack t below, b.readsBack t above with
  | true, true =>
    if value - below * b.grid t < above * b.grid t - value then some ⟨below, t⟩ else some ⟨above, t⟩
  | true, false => some ⟨below, t⟩
  | false, true => some ⟨above, t⟩
  | false, false => none

/-- The shortest decimal that reads back. Ten units of a grid are one of the next. -/
def shortest (b : Binary) : Decimal :=
  let e := b.magnitude
  let d := ((List.range 17).findSome? fun k => b.neighbour? (e - (k + 1 : Nat))).getD ⟨0, 0⟩
  if d.mantissa = 10 then ⟨1, d.exponent + 1⟩ else d

end Binary

namespace Decimal

/-- A decimal without an exponent, with a zero before a leading point and no point in a
whole number. -/
def positional (d : Decimal) : List Char :=
  let digits := Nat.toDigits 10 d.mantissa
  if 0 ≤ d.exponent then digits ++ List.replicate d.exponent.toNat '0'
  else
    let places := d.exponent.natAbs
    let padded := List.replicate (places + 1 - digits.length) '0' ++ digits
    padded.take (padded.length - places) ++ '.' :: padded.drop (padded.length - places)

/-- The magnitude of a float by its bits without the sign. -/
def magnitudeText (bits : Nat) : List Char :=
  if bits = 0 then ['0']
  else if bits < 0x7FF0000000000000 then (Binary.ofBits bits).shortest.positional
  else "inf".toList

/-- The text of a float. -/
def floatText (x : Float) : String :=
  let bits := x.toBits.toNat
  let size := bits % Nat.pow 2 63
  if 0x7FF0000000000000 < size then "NaN"
  else String.ofList ((if bits = size then [] else ['-']) ++ magnitudeText size)

end Decimal
end ProbLogic
