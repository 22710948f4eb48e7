/-
# A CNF under construction

A draft is a formula whose node `#0` is a conjunction, the root. Disjunctions
of signed variables may be added to the root, and nothing else.

Key definitions:
* `Draft`
* `Draft.add`, `Draft.addClause`
* `Draft.toCnf` : the clauses added so far.
* `Draft.eval` : the value of the root.
-/
import ProbLogic.Cnf.Formula

namespace ProbLogic

/-- A formula with a root conjunction at `#0`. -/
structure Draft where
  formula : Formula
  deriving DecidableEq, Repr

namespace Draft

/-- The draft without clauses. -/
def empty : Draft := ⟨⟨#[.all []]⟩⟩

/-- The place of the root. -/
def root : Nat := 0

/-- The nodes added to the root. -/
def clauseNodes (d : Draft) : List Nat :=
  match d.formula.nodes[root]? with
  | some (.all parts) => parts
  | _ => []

/-- Makes a node for a signed variable. -/
def leaf (d : Draft) (v : Int) : Except FormulaError Nat × Draft :=
  (d.formula.leaf v).map id Draft.mk

/-- Makes a disjunction. -/
def disjunction (d : Draft) (parts : List Nat) : Nat × Draft :=
  (d.formula.push (.any parts)).map id Draft.mk

/-- Checks that a node is a signed variable. -/
def checkLeaf (d : Draft) (node : Nat) : Except FormulaError Unit := do
  match ← d.formula.get node with
  | .leaf _ => return ()
  | _ => .error (.notALeaf node)

/-- Checks that a node is a disjunction of signed variables. -/
def checkClause (d : Draft) (node : Nat) : Except FormulaError Unit := do
  match ← d.formula.get node with
  | .any parts => parts.forM d.checkLeaf
  | _ => .error (.notADisjunction node)

/-- Adds a clause that has been made as a node. -/
def add (d : Draft) (node : Nat) : Except FormulaError Unit × Draft :=
  match d.checkClause node with
  | .error e => (.error e, d)
  | .ok () => (.ok (), ⟨⟨d.formula.nodes.setIfInBounds root (.all (d.clauseNodes ++ [node]))⟩⟩)

/-- Makes nodes for signed variables, up to the first zero. -/
def leaves (d : Draft) : List Int → Except FormulaError (List Nat) × Draft
  | [] => (.ok [], d)
  | v :: vs =>
    match d.leaf v with
    | (.error e, d) => (.error e, d)
    | (.ok n, d) =>
      match d.leaves vs with
      | (.error e, d) => (.error e, d)
      | (.ok ns, d) => (.ok (n :: ns), d)

/-- Adds a clause of signed variables. -/
def addClause (d : Draft) (c : Clause) : Except FormulaError Unit × Draft :=
  match d.leaves c with
  | (.error e, d) => (.error e, d)
  | (.ok parts, d) =>
    let (node, d) := d.disjunction parts
    d.add node

/-- The signed variable of a node. -/
def leafOf? (d : Draft) (node : Nat) : Option Int :=
  match d.formula.nodes[node]? with
  | some (.leaf v) => some v
  | _ => none

/-- The signed variables of a clause's node. -/
def clauseOf (d : Draft) (node : Nat) : Clause :=
  match d.formula.nodes[node]? with
  | some (.any parts) => parts.filterMap d.leafOf?
  | _ => []

/-- The clauses added so far. -/
def toCnf (d : Draft) : Cnf := ⟨d.clauseNodes.map d.clauseOf⟩

/-- The value of the root under an assignment; a formula without a value counts as false. -/
def eval (d : Draft) (t : Assignment) : Bool :=
  match d.formula.eval t root with
  | .ok b => b
  | .error _ => false

end Draft
end ProbLogic
