/-
# Formulas by node

A formula is an array of nodes: signed variables, conjunctions and
disjunctions. A node refers to its parts by their places in the array, which
need not be filled yet.

Evaluation goes from left to right and stops as soon as the value is settled;
a part that does not exist is an error only if it is reached. A path without a
repeated node is no longer than the array, so that length bounds the depth; a
formula that contains itself has no value.

Key definitions:
* `Node`, `Formula`
* `Formula.eval`, `Formula.vars`
* `FormulaError`
-/
import ProbLogic.Cnf

namespace ProbLogic

/-- A node of a formula. -/
inductive Node where
  /-- A signed variable. -/
  | leaf (v : Int)
  /-- A conjunction of nodes. -/
  | all (parts : List Nat)
  /-- A disjunction of nodes. -/
  | any (parts : List Nat)
  deriving DecidableEq, Repr

/-- Misuse of nodes. -/
inductive FormulaError where
  /-- Zero has no sign and is no variable. -/
  | zeroVariable
  /-- There is no such node. -/
  | unknownNode (node : Nat)
  /-- A clause must be a disjunction. -/
  | notADisjunction (node : Nat)
  /-- A clause must consist of signed variables. -/
  | notALeaf (node : Nat)
  /-- The node contains itself. -/
  | cyclic (node : Nat)
  deriving DecidableEq, Repr

/-- The words of an error. -/
def FormulaError.message : FormulaError → String
  | zeroVariable => "0 is not a variable"
  | unknownNode n => s!"no such formula node: #{n}"
  | notADisjunction n => s!"only disjunctions may be added to a CNF, not node #{n}"
  | notALeaf n => s!"clauses may only contain leaves, not node #{n}"
  | cyclic n => s!"formula node #{n} contains itself"

/-- An array of nodes. -/
structure Formula where
  nodes : Array Node
  deriving DecidableEq, Repr

namespace Formula

/-- The formula without nodes. -/
def empty : Formula := ⟨#[]⟩

/-- Adds a node; its place is the number of nodes before. -/
def push (f : Formula) (n : Node) : Nat × Formula := (f.nodes.size, ⟨f.nodes.push n⟩)

/-- Adds a signed variable, which must not be zero. -/
def leaf (f : Formula) (v : Int) : Except FormulaError Nat × Formula :=
  if v = 0 then (.error .zeroVariable, f) else ((f.push (.leaf v)).map .ok id)

/-- The node at a place. -/
def get (f : Formula) (node : Nat) : Except FormulaError Node :=
  match f.nodes[node]? with
  | some n => .ok n
  | none => .error (.unknownNode node)

/-- The value of a node that lies at most `depth` deep. -/
def evalWithin (f : Formula) (t : Assignment) : Nat → Nat → Except FormulaError Bool
  | 0, node => .error (.cyclic node)
  | depth + 1, node => do
    match ← f.get node with
    | .leaf v => return t.satisfies v
    | .all parts => parts.allM (f.evalWithin t depth)
    | .any parts => parts.anyM (f.evalWithin t depth)

/-- The value of a node under an assignment. -/
def eval (f : Formula) (t : Assignment) (node : Nat) : Except FormulaError Bool :=
  f.evalWithin t (f.nodes.size + 1) node

/-- The variables below a node that lies at most `depth` deep. -/
def varsWithin (f : Formula) : Nat → Nat → Except FormulaError (List Nat)
  | 0, node => .error (.cyclic node)
  | depth + 1, node => do
    match ← f.get node with
    | .leaf v => return [v.natAbs]
    | .all parts | .any parts =>
      return Ascending.ofList (← parts.mapM (f.varsWithin depth)).flatten

/-- The variables below a node, ascending. -/
def vars (f : Formula) (node : Nat) : Except FormulaError (List Nat) :=
  f.varsWithin (f.nodes.size + 1) node

end Formula
end ProbLogic
