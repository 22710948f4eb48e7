/-
# The DIMACS format

A header `p cnf VARIABLES CLAUSES`, then one clause a line, its signed
variables separated by spaces and ended by `0`. Integers are within 64 bits.

Key definitions:
* `Cnf.text` : a CNF in the format.
* `Dimacs.readInteger?`
* `DimacsError`
-/
import ProbLogic.Cnf
import ProbLogic.Text

namespace ProbLogic

/-- Why a text is not in the format. -/
inductive DimacsError where
  /-- The line is not a list of integers. -/
  | malformed (line : Nat) (text : String)
  /-- The line does not end with `0`. -/
  | unterminated (line : Nat)
  /-- The line has a `0` before its end. -/
  | embeddedZero (line : Nat)
  deriving DecidableEq, Repr

/-- The words of an error. -/
def DimacsError.message : DimacsError → String
  | malformed line text => s!"line {line}: malformed clause `{text}`"
  | unterminated line => s!"line {line}: clause is not terminated by 0"
  | embeddedZero line => s!"line {line}: 0 inside a clause"

namespace Dimacs

/-- Whether an integer fits into 64 bits with a sign. -/
def fits64 (n : Int) : Bool := -9223372036854775808 ≤ n && n ≤ 9223372036854775807

/-- The integer of an optional `-` and digits, within 64 bits. -/
def readInteger? (cs : List Char) : Option Int :=
  let (negative, digits) := match cs with
    | '-' :: ds => (true, ds)
    | ds => (false, ds)
  let n : Int := Text.digitsValue digits
  let signed := if negative then -n else n
  if digits.isEmpty || !digits.all Char.isDigit || !fits64 signed then none else some signed

end Dimacs

namespace Cnf

/-- A clause as a line. -/
def clauseText (c : Clause) : String := String.join (c.map fun v => toString v ++ " ") ++ "0\n"

/-- A CNF in DIMACS. -/
def text (f : Cnf) : String :=
  s!"p cnf {f.vars.length} {f.clauses.length}\n" ++ String.join (f.clauses.map clauseText)

end Cnf
end ProbLogic
