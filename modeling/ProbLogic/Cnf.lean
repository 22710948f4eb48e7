/-
# Formulas in conjunctive normal form

A variable is a positive number; `v` and `-v` are its two literals. A clause
is a list of signed variables, a CNF a list of clauses, both in the order in
which they were added.

Key definitions:
* `Assignment`, `Clause`, `Cnf`
* `Cnf.eval` : the truth value under an assignment.
* `Cnf.vars` : the variables that occur, ascending.
-/
import ProbLogic.Ascending

namespace ProbLogic

/-- Signed variables, of which at least one must hold. -/
abbrev Clause := List Int

/-- Clauses that must all hold. -/
structure Cnf where
  clauses : List Clause
  deriving DecidableEq, Repr

/-- Which variables are true. -/
abbrev Assignment := Nat → Bool

/-- Whether a signed variable holds under an assignment. -/
def Assignment.satisfies (t : Assignment) (v : Int) : Bool := t v.natAbs == decide (0 < v)

/-- Whether a clause holds under an assignment. -/
def Clause.eval (t : Assignment) (c : Clause) : Bool := c.any t.satisfies

namespace Cnf

/-- Whether all clauses hold under an assignment. -/
def eval (t : Assignment) (f : Cnf) : Bool := f.clauses.all (Clause.eval t)

/-- The variables that occur in some clause, ascending. -/
def vars (f : Cnf) : List Nat := Ascending.ofList (f.clauses.flatten.map Int.natAbs)

end Cnf
end ProbLogic
