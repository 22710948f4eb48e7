/-
# Variables and their numbers

A variable of the CNF stands for an atom, or for one of the bodies of an atom
that has several. Variables are numbered from one in the order in which they
come up.

Key definitions:
* `Variable`
* `Numbering.add`, `Numbering.index?`, `Numbering.byIndex?`
-/
import ProbLogic.Literal

namespace ProbLogic

/-- What a variable of the CNF stands for. -/
inductive Variable where
  | atom (atom : Atom)
  /-- The body number `index` of `head`, from zero. -/
  | body (head : Atom) (index : Nat)
  deriving DecidableEq, Repr

namespace Variable

/-- `a` or `a#i`. -/
def text : Variable → String
  | atom a => a.name
  | body a i => s!"{a.name}#{i}"

/-- Atoms come before bodies; bodies are ordered by head and then by index. -/
def order : Variable → Variable → Ordering
  | atom a, atom b => compare a b
  | atom _, body _ _ => .lt
  | body _ _, atom _ => .gt
  | body a i, body b j => (compare a b).then (compare i j)

instance : Ord Variable := ⟨order⟩

end Variable

/-- Variables in the order of their numbers, each of them once. -/
structure Numbering where
  vars : List Variable
  deriving DecidableEq, Repr

namespace Numbering

/-- No variable has a number yet. -/
def empty : Numbering := ⟨[]⟩

/-- The number of a variable. -/
def index? (n : Numbering) (v : Variable) : Option Nat := (n.vars.idxOf? v).map (· + 1)

/-- Gives a variable the next number unless it has one. -/
def add (n : Numbering) (v : Variable) : Numbering :=
  if v ∈ n.vars then n else ⟨n.vars ++ [v]⟩

/-- The variable with a number. -/
def byIndex? (n : Numbering) (index : Int) : Option Variable :=
  if 0 < index then n.vars[index.toNat - 1]? else none

/-- One line `index variable` for each variable. -/
def text (n : Numbering) : String :=
  String.join ((n.vars.zipIdx 1).map fun (v, i) => s!"{i} {v.text}\n")

end Numbering
end ProbLogic
