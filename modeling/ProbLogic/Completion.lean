/-
# Clark's completion

The rules of an atom are read as an equivalence: the atom holds exactly if
some body does. One body gives `a ↔ b1 ∧ … ∧ bm`, which is a list of clauses.
Of several, each gets a variable of its own that is equivalent to the body,
and the atom is equivalent to the disjunction of these.

Completion starts from seeds and follows bodies. Clauses are collected over
variables that stand for atoms and bodies; their numbers, the signed clauses
and the weights follow from the order in which variables came up. An atom
without rules is a free variable.

Key definitions:
* `Completion` : variables and clauses so far.
* `Completion.visit` : completes an atom and what it depends on.
* `Completion.finish` : numbers, clauses and weights.
-/
import ProbLogic.Event
import ProbLogic.Unrolling

namespace ProbLogic

/-- A variable with a polarity. -/
abbrev SignedVariable := Variable × Bool

/-- The variable of a literal's atom, with its polarity. -/
def Literal.signed (l : Literal) : SignedVariable := (.atom l.atom, l.positive)

/-- The variables and clauses of a completion, in order. -/
structure Completion where
  numbering : Numbering
  clauses : Array (List SignedVariable)
  deriving DecidableEq, Repr

/-- A CNF with the meaning and the weights of its variables. -/
structure Compilation (α : Type) where
  cnf : Cnf
  numbering : Numbering
  weights : Weights Int α

namespace Completion

/-- Nothing is completed. -/
def empty : Completion := ⟨.empty, #[]⟩

/-- Gives a variable a number. -/
def number (s : Completion) (v : Variable) : Completion :=
  { s with numbering := s.numbering.add v }

/-- Adds a clause. -/
def emit (s : Completion) (c : List SignedVariable) : Completion :=
  { s with clauses := s.clauses.push c }

/-- Adds the clauses of `v ↔ ⋀ body`, visiting each literal's atom before the first
clause with it. -/
def conjunction (visit : Atom → Completion → Completion) (v : Variable) (body : Body)
    (s : Completion) : Completion :=
  (body.foldl (fun s l => (visit l.atom s).emit [(v, false), l.signed]) s).emit
    ((v, true) :: body.map fun l => l.negate.signed)

/-- Adds the clauses for the body number `i` of `a`: its variable implies `a`, and is
equivalent to it. -/
def alternative (visit : Atom → Completion → Completion) (a : Atom) (s : Completion)
    (body : Body × Nat) : Completion :=
  let v := Variable.body a body.2
  conjunction visit v body.1 ((s.number v).emit [(.atom a, true), (v, false)])

/-- Completes an atom and everything that it depends on. At most `depth` atoms are nested. -/
def visit (rules : RuleBase) : Nat → Atom → Completion → Completion
  | 0, _, s => s
  | depth + 1, a, s =>
    if .atom a ∈ s.numbering.vars then s
    else
      let s := s.number (.atom a)
      match rules.bodies a with
      | [] => s
      | [body] => conjunction (visit rules depth) (.atom a) body s
      | bodies =>
        (bodies.zipIdx.foldl (alternative (visit rules depth) a) s).emit
          ((.atom a, false) :: bodies.zipIdx.map fun b => (.body a b.2, true))

/-- Completes an atom and everything that it depends on. Nested atoms are different
heads, but for the last. -/
def complete (rules : RuleBase) (s : Completion) (a : Atom) : Completion :=
  visit rules (rules.heads.length + 1) a s

/-- Says that an atom is false. -/
def deny (rules : RuleBase) (s : Completion) (a : Atom) : Completion :=
  (s.complete rules a).emit [(.atom a, false)]

/-- Adds a clause over literals. -/
def constrain (rules : RuleBase) (s : Completion) (clause : List Literal) : Completion :=
  (clause.foldl (fun s l => s.complete rules l.atom) s).emit (clause.map Literal.signed)

/-- The signed number of a variable with a polarity. -/
def encode (n : Numbering) (v : SignedVariable) : Int :=
  let index : Int := (n.index? v.1).getD 0
  if v.2 then index else -index

variable {α : Type} [Scalar α]

/-- The weights of a variable; what the table does not weigh has weight one. -/
def weightsOf (weights : Weights Literal α) : Variable → α × α
  | .atom a => ((weights.get? (.pos a)).getD Scalar.one, (weights.get? (.neg a)).getD Scalar.one)
  | .body _ _ => (Scalar.one, Scalar.one)

/-- The numbers, the signed clauses and the weights. -/
def finish (s : Completion) (weights : Weights Literal α) : Compilation α where
  cnf := ⟨s.clauses.toList.map fun c => c.map (encode s.numbering)⟩
  numbering := s.numbering
  weights := (s.numbering.vars.zipIdx 1).foldl
    (fun w (v, i) => w.insertPair (i : Int) (weightsOf weights v).1 (weightsOf weights v).2) .empty

/-- How many atoms are completed. -/
def atomCount (s : Completion) : Nat :=
  s.numbering.vars.countP fun
    | .atom _ => true
    | .body _ _ => false

/-- What a completion reports. -/
def events (s : Completion) (weights : Weights Literal α) : List (Event α) :=
  ((s.numbering.vars.zipIdx 1).map fun (v, i) =>
    .numbered i v (weightsOf weights v).1 (weightsOf weights v).2) ++
  [.completed s.atomCount s.clauses.size s.numbering.vars.length]

end Completion
end ProbLogic
